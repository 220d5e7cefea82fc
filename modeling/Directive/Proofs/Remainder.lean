import Directive.Proofs.Lockstep

/-!
# What is left of a directive

`Remains p σ r cs` says that a scanner in part `p`, with the outline at stage `σ`, has so far met
the beginning of a directive with reading `r`, and that `cs` is the rest of that directive.  It is
written in the terms of the grammar, with what follows as a predicate on the text behind.

A move of the scanner takes one character from what is left, and nothing else
(`remains_cons_of_move`); a character that allows no move begins nothing that could be left
(`exists_move_of_remains`).  At the end of a text nothing may be left (`outline_finish`).
-/

namespace Directive.Scanner

open Grammar
open Text (Blanks)

/-! ### Combinators -/

/-- The character `d`, and text of which `P` holds. -/
def After (d : Char) (P : List Char → Prop) (cs : List Char) : Prop :=
  ∃ y, cs = d :: y ∧ P y

/-- Blanks, and text of which `P` holds. -/
def Spaced (P : List Char → Prop) (cs : List Char) : Prop :=
  ∃ w y, cs = w ++ y ∧ Blanks w ∧ P y

/-- What is left of the name `n` when `read` has been read, the latest first, and text of which `P`
holds. -/
def Named (read n : List Char) (P : List Char → Prop) (cs : List Char) : Prop :=
  ∃ m y, cs = m ++ y ∧ n = read.reverse ++ m ∧ IsName n ∧ P y

section

variable {P : List Char → Prop} {c d : Char} {t read n : List Char}

theorem not_after_nil : ¬After d P [] := by
  rintro ⟨y, h, -⟩
  cases h

theorem after_cons : After d P (c :: t) ↔ c = d ∧ P t := by
  constructor
  · rintro ⟨y, h, hy⟩
    rw [List.cons.injEq] at h
    exact ⟨h.1, h.2 ▸ hy⟩
  · rintro ⟨rfl, ht⟩
    exact ⟨t, rfl, ht⟩

theorem after_cons_self : After d P (d :: t) ↔ P t := by
  rw [after_cons]
  exact and_iff_right rfl

theorem spaced_nil : Spaced P [] ↔ P [] := by
  constructor
  · rintro ⟨w, y, h, -, hy⟩
    rw [(List.append_eq_nil_iff.mp h.symm).2] at hy
    exact hy
  · intro h
    exact ⟨[], [], rfl, Text.blanks_nil, h⟩

/-- A blank in front is skipped, if what is to come does not begin with it. -/
theorem spaced_cons_of_isBlank (hP : ¬P (c :: t)) (hc : Text.isBlank c = true) :
    Spaced P (c :: t) ↔ Spaced P t := by
  constructor
  · rintro ⟨w, y, h, hw, hy⟩
    cases w with
    | nil =>
      rw [List.nil_append] at h
      exact absurd (h ▸ hy) hP
    | cons b w =>
      rw [List.cons_append, List.cons.injEq] at h
      exact ⟨w, y, h.2, (Text.blanks_cons.mp hw).2, hy⟩
  · rintro ⟨w, y, rfl, hw, hy⟩
    exact ⟨c :: w, y, rfl, Text.blanks_cons.mpr ⟨hc, hw⟩, hy⟩

theorem spaced_cons_of_not_isBlank (hc : Text.isBlank c = false) :
    Spaced P (c :: t) ↔ P (c :: t) := by
  constructor
  · rintro ⟨w, y, h, hw, hy⟩
    rw [Text.blanks_eq_nil_of_append_eq hw hc h.symm, List.nil_append] at h
    exact h ▸ hy
  · intro h
    exact ⟨[], c :: t, rfl, Text.blanks_nil, h⟩

theorem named_nil : Named read n P [] ↔ n = read.reverse ∧ IsName n ∧ P [] := by
  constructor
  · rintro ⟨m, y, h, hn, hname, hy⟩
    obtain ⟨rfl, rfl⟩ := List.append_eq_nil_iff.mp h.symm
    exact ⟨by rwa [List.append_nil] at hn, hname, hy⟩
  · rintro ⟨hn, hname, hP⟩
    exact ⟨[], [], rfl, by rwa [List.append_nil], hname, hP⟩

/-- A name character goes on with the name, if what is to come does not begin with it. -/
theorem named_cons_of_isNameChar (hP : ¬P (c :: t)) :
    Named read n P (c :: t) ↔ Named (c :: read) n P t := by
  constructor
  · rintro ⟨m, y, h, hn, hname, hy⟩
    cases m with
    | nil =>
      rw [List.nil_append] at h
      exact absurd (h ▸ hy) hP
    | cons d m =>
      rw [List.cons_append, List.cons.injEq] at h
      refine ⟨m, y, h.2, ?_, hname, hy⟩
      rw [hn, h.1, List.reverse_cons, List.append_assoc, List.singleton_append]
  · rintro ⟨m, y, rfl, hn, hname, hy⟩
    refine ⟨c :: m, y, rfl, ?_, hname, hy⟩
    rw [hn, List.reverse_cons, List.append_assoc, List.singleton_append]

/-- Any other character stands behind the name. -/
theorem named_cons_of_not_isNameChar (hc : Text.isNameChar c = false) :
    Named read n P (c :: t) ↔ n = read.reverse ∧ IsName n ∧ P (c :: t) := by
  constructor
  · rintro ⟨m, y, h, hn, hname, hy⟩
    cases m with
    | nil =>
      rw [List.nil_append] at h
      exact ⟨by rwa [List.append_nil] at hn, hname, h ▸ hy⟩
    | cons d m =>
      rw [List.cons_append, List.cons.injEq] at h
      have hd : Text.isNameChar d = true := hname.2 d (by simp [hn])
      rw [← h.1, hc] at hd
      cases hd
  · rintro ⟨hn, hname, hP⟩
    exact ⟨[], c :: t, rfl, by rwa [List.append_nil], hname, hP⟩

end

/-! ### Values in progress -/

theorem read_next (v : ValueState) (pos : Nat) (c : Char) :
    (v.next pos c).read = c :: v.read :=
  (v.next_cases pos c).2.1

/-- A quote that a value waits for after a character was waited for before, or the character opened
the span. -/
theorem quote_next {v : ValueState} {n from_ : Nat} {c q : Char}
    (h : (v.next n c).quote = some (q, from_)) :
    (v.quote = some (q, from_) ∧ c ≠ q) ∨ (q = c ∧ from_ = n ∧ Text.isQuote c = true) := by
  obtain ⟨start, read, opened, fresh, quote⟩ := v
  cases quote with
  | some x =>
    obtain ⟨q', from'⟩ := x
    simp only [ValueState.next] at h
    split_ifs at h with hc
    rw [Option.some.injEq, Prod.mk.injEq] at h
    obtain ⟨rfl, rfl⟩ := h
    exact Or.inl ⟨rfl, hc⟩
  | none =>
    simp only [ValueState.next] at h
    split_ifs at h with hq
    rw [Option.some.injEq, Prod.mk.injEq] at h
    obtain ⟨rfl, rfl⟩ := h
    rw [Bool.and_eq_true] at hq
    exact Or.inr ⟨rfl, rfl, hq.2⟩

/-- What is left of a value, with the blanks behind it. -/
def Closes (v : ValueState) : List Char → Prop :=
  match v.quote with
  | some (q, _) => Through q (Closing v.opened.length v.fresh)
  | none => Closing v.opened.length v.fresh

/-- A character that neither ends the value nor nests too deep is taken from what is left. -/
theorem closes_cons {v : ValueState} {pos : Nat} {c : Char} {t : List Char}
    (hv : v.opened.length ≤ maxListDepth) (he : v.ends c = false) :
    Closes v (c :: t) ↔ v.overflows c = false ∧ Closes (v.next pos c) t := by
  obtain ⟨start, read, opened, fresh, quote⟩ := v
  cases quote with
  | some q =>
    obtain ⟨q, offset⟩ := q
    simp only [ValueState.overflows, ValueState.next, Closes, Option.isNone_some, Bool.false_and,
      true_and]
    by_cases hc : c = q
    · subst hc
      rw [through_cons_self, if_pos rfl]
    · rw [through_cons_of_ne hc, if_neg hc]
  | none =>
    simp only [ValueState.overflows, ValueState.next, Closes, Option.isNone_none, Bool.true_and]
    simp only [ValueState.ends, Option.isNone_none, Bool.true_and] at he
    split_ifs with hq hb hclose hcomma hblank
    · -- a quote at the beginning opens a span
      simp only [Bool.and_eq_true] at hq
      obtain ⟨hfresh, hq⟩ := hq
      subst hfresh
      have hne : (c == '[') = false := by
        rw [beq_eq_false_iff_ne]
        rintro rfl
        cases hq
      rw [closing_cons_of_isQuote hq, hne]
      simp
    · -- a bracket opens a group, unless as many are open as may be
      subst hb
      have hle : opened.length ≤ maxListDepth := hv
      rw [closing_cons_bracket]
      have hiff : opened.length + 1 ≤ maxListDepth ↔ opened.length ≠ maxListDepth := by omega
      rw [hiff]
      simp
    · -- a bracket closes the innermost group
      simp only [Bool.and_eq_true, decide_eq_true_eq] at hclose
      obtain ⟨rfl, hne⟩ := hclose
      cases opened with
      | nil => cases hne
      | cons o opened => exact closing_cons_close.trans (by simp)
    · -- a comma begins the next element; outside of groups it would have ended the value
      subst hcomma
      cases opened with
      | nil => cases he
      | cons o opened => exact closing_cons_comma.trans (by simp)
    · rw [closing_cons_of_ordinary (fun _ => ?_) (ordinary_of_isBlank hblank), hblank]
      · simp [hb]
      · rw [Bool.eq_false_iff]
        intro hq'
        rw [not_isBlank_of_isQuote hq'] at hblank
        cases hblank
    · -- every other character stands for itself
      have hord : (Place.inside opened.length).ordinary c = true := by
        cases opened with
        | nil => simpa [Place.inside, Place.ordinary, hb] using he
        | cons o opened => simpa [Place.inside, Place.ordinary, hb, hcomma] using hclose
      rw [closing_cons_of_ordinary (fun hfresh => ?_) hord, Bool.eq_false_iff.mpr hblank]
      · simp [hb]
      · simpa [hfresh] using hq

/-- Nothing may be left of a value exactly where a comma or a closing brace ends it. -/
theorem closes_nil_iff {v : ValueState} {c : Char} (hc : c = ',' ∨ c = '}') :
    Closes v [] ↔ v.ends c = true := by
  obtain ⟨start, read, opened, fresh, quote⟩ := v
  cases quote with
  | some q => simpa [Closes, ValueState.ends] using not_through_nil _ _
  | none =>
    cases opened with
    | nil => simpa [Closes, ValueState.ends, hc] using closing_zero_nil
    | cons o opened => simpa [Closes, ValueState.ends] using not_closing_succ_nil

/-- The character that ends a value is not part of it. -/
theorem not_closes_cons_of_ends {v : ValueState} {c : Char} {t : List Char}
    (he : v.ends c = true) : ¬Closes v (c :: t) := by
  obtain ⟨hquote, hopened, hc⟩ := ValueState.ends_iff.mp he
  obtain ⟨start, read, opened, fresh, quote⟩ := v
  obtain rfl : quote = none := hquote
  obtain rfl : opened = [] := hopened
  show ¬Content .value 1 fresh (c :: t)
  have hq : Text.isQuote c = false := by rcases hc with rfl | rfl <;> decide
  have hb : c ≠ '[' := by rcases hc with rfl | rfl <;> decide
  rw [content_cons_of_ordinary (fun _ => hq) hb]
  rintro ⟨hord, -⟩
  rcases hc with rfl | rfl <;> cases hord

/-- Some text completes every value. -/
theorem exists_closes (v : ValueState) : ∃ cs, Closes v cs := by
  obtain ⟨start, read, opened, fresh, quote⟩ := v
  cases quote with
  | some q =>
    obtain ⟨q, offset⟩ := q
    exact ⟨q :: List.replicate opened.length ']', through_cons_self.mpr closing_replicate⟩
  | none => exact ⟨List.replicate opened.length ']', closing_replicate⟩

/-! ### Parts of a directive -/

/-- What is left of the raw value `v` and the blanks behind it, and text of which `P` holds. -/
def InValue (s : ValueState) (v : List Char) (P : List Char → Prop) (cs : List Char) : Prop :=
  ∃ b y, cs = b ++ y ∧ v = Text.trimEnd (s.read.reverse ++ b) ∧ Closes s b ∧ P y

/-- The raw value `v` and blanks behind it, and text of which `P` holds. -/
def Valued (v : List Char) (P : List Char → Prop) (cs : List Char) : Prop :=
  ∃ y, cs = v ++ y ∧ IsValue v ∧ Spaced P y

/-- The equals sign and the raw value `v`, with the blanks around them. -/
def Signed (v : List Char) (P : List Char → Prop) : List Char → Prop :=
  Spaced (After '=' (Spaced (Valued v P)))

/-- The parameter `p`, and text of which `P` holds. -/
def Param (p : List Char × List Char) (P : List Char → Prop) : List Char → Prop :=
  Named [] p.1 (Signed p.2 P)

/-- What may stand behind a parameter value: the parameters `ps` with their commas, the closing
brace, and blanks. -/
def Tail : List (List Char × List Char) → List Char → Prop
  | [] => After '}' Blanks
  | p :: ps => After ',' (Spaced (Param p (Tail ps)))

/-- What may stand behind the opening brace, and the blanks there. -/
def Entries : List (List Char × List Char) → List Char → Prop
  | [] => After '}' Blanks
  | p :: ps => Param p (Tail ps)

/-- What may stand behind the function name: blanks, and a block if there are parameters. -/
def Block (ps : List (List Char × List Char)) : List Char → Prop :=
  Spaced fun cs => (cs = [] ∧ ps = []) ∨ After '{' (Spaced (Entries ps)) cs

section

variable {P : List Char → Prop} {c : Char} {t v : List Char}

theorem not_named_nil {n : List Char} : ¬Named [] n P [] := by
  rw [named_nil]
  rintro ⟨h, hname, -⟩
  exact hname.1 h

theorem not_signed_nil : ¬Signed v P [] := by
  unfold Signed
  rw [spaced_nil]
  exact not_after_nil

theorem not_valued_nil : ¬Valued v P [] := by
  rintro ⟨y, h, hv, -⟩
  exact hv.ne_nil (List.append_eq_nil_iff.mp h.symm).1

theorem not_inValue_nil {s : ValueState} (hP : ¬P []) : ¬InValue s v P [] := by
  rintro ⟨b, y, h, -, -, hy⟩
  rw [(List.append_eq_nil_iff.mp h.symm).2] at hy
  exact hP hy

theorem block_nil_iff {ps : List (List Char × List Char)} : Block ps [] ↔ ps = [] := by
  unfold Block
  rw [spaced_nil]
  constructor
  · rintro (⟨-, h⟩ | h)
    · exact h
    · exact absurd h not_after_nil
  · intro h
    exact Or.inl ⟨rfl, h⟩

theorem not_tail_nil (ps : List (List Char × List Char)) : ¬Tail ps [] := by
  cases ps <;> exact not_after_nil

theorem not_entries_nil (ps : List (List Char × List Char)) : ¬Entries ps [] := by
  cases ps with
  | nil => exact not_after_nil
  | cons p ps => exact not_named_nil

theorem head_of_tail {ps : List (List Char × List Char)} (h : Tail ps (c :: t)) :
    c = ',' ∨ c = '}' := by
  cases ps with
  | nil => exact Or.inr (after_cons.mp h).1
  | cons p ps => exact Or.inl (after_cons.mp h).1

/-- Behind a comma there is one more parameter. -/
theorem tail_cons_comma {ps : List (List Char × List Char)} :
    Tail ps (',' :: t) ↔ ∃ p ps', ps = p :: ps' ∧ Spaced (Param p (Tail ps')) t := by
  cases ps with
  | nil =>
    constructor
    · intro h
      cases (after_cons.mp h).1
    · rintro ⟨p, ps', h, -⟩
      cases h
  | cons p ps =>
    constructor
    · intro h
      exact ⟨p, ps, rfl, after_cons_self.mp h⟩
    · rintro ⟨p', ps', h, ht⟩
      obtain ⟨rfl, rfl⟩ := List.cons.inj h
      exact after_cons_self.mpr ht

/-- Behind the closing brace there are only blanks. -/
theorem tail_cons_close {ps : List (List Char × List Char)} :
    Tail ps ('}' :: t) ↔ ps = [] ∧ Blanks t := by
  cases ps with
  | nil => exact after_cons_self.trans (and_iff_right rfl).symm
  | cons p ps =>
    constructor
    · intro h
      cases (after_cons.mp h).1
    · rintro ⟨h, -⟩
      cases h

theorem isNameChar_of_param {p : List Char × List Char} (h : Param p P (c :: t)) :
    Text.isNameChar c = true := by
  by_contra hc
  rw [Bool.not_eq_true] at hc
  obtain ⟨hn, hname, -⟩ := (named_cons_of_not_isNameChar hc).mp h
  exact hname.1 hn

theorem head_of_entries {ps : List (List Char × List Char)} (h : Entries ps (c :: t)) :
    Text.isNameChar c = true ∨ (c = '}' ∧ ps = []) := by
  cases ps with
  | nil => exact Or.inr ⟨(after_cons.mp h).1, rfl⟩
  | cons p ps => exact Or.inl (isNameChar_of_param h)

theorem head_of_valued (h : Valued v P (c :: t)) :
    Text.isBlank c = false ∧ c ≠ ',' ∧ c ≠ '}' := by
  obtain ⟨y, hy, hv, -⟩ := h
  cases v with
  | nil => exact absurd rfl hv.ne_nil
  | cons d v =>
    rw [List.cons_append, List.cons.injEq] at hy
    obtain ⟨rfl, -⟩ := hy
    have hb : Text.isBlank c = false := hv.head c rfl
    have hord : ∀ e, (e = ',' ∨ e = '}') → c ≠ e := by
      rintro e he rfl
      have hends : (ValueState.initial 0).ends c = true := ValueState.ends_iff.mpr ⟨rfl, rfl, he⟩
      exact not_closes_cons_of_ends hends hv.item
    exact ⟨hb, hord _ (Or.inl rfl), hord _ (Or.inr rfl)⟩

/-- Text that begins with a character other than a blank does so without the blanks at its end. -/
theorem exists_cons_of_append_blanks {y w : List Char} (hw : Blanks w)
    (hc : Text.isBlank c = false) (hne : v ++ w ≠ []) (h : c :: t = v ++ w ++ y) :
    ∃ v', v = c :: v' := by
  cases v with
  | nil =>
    cases w with
    | nil => exact absurd rfl hne
    | cons d w =>
      rw [List.nil_append, List.cons_append, List.cons.injEq] at h
      rw [h.1, hw d List.mem_cons_self] at hc
      cases hc
  | cons e v =>
    rw [List.cons_append, List.cons_append, List.cons.injEq] at h
    exact ⟨v, by rw [h.1]⟩

/-- A value begins with its first character that is no blank. -/
theorem valued_iff_inValue (n : Nat) (hc : Text.isBlank c = false) (hP : ¬P (c :: t)) :
    Valued v P (c :: t) ↔ InValue (.initial n) v P (c :: t) := by
  constructor
  · rintro ⟨y, hy, hv, w, z, rfl, hw, hz⟩
    refine ⟨v ++ w, z, by rw [hy, List.append_assoc], ?_, (item_append_blanks_iff hw).mpr hv.item,
      hz⟩
    show v = Text.trimEnd (v ++ w)
    rw [Text.trimEnd_append_blanks hw, Text.trimEnd_of_getLast? hv.last]
  · rintro ⟨b, y, hy, hv, hb, hP'⟩
    have hvb : v = Text.trimEnd b := hv
    obtain ⟨w, hw, hbw⟩ := Text.exists_trimEnd_append b
    rw [← hvb] at hbw
    have hitem : Item .value 1 v := by
      rw [← item_append_blanks_iff hw, ← hbw]
      exact hb
    have hne : v ++ w ≠ [] := by
      rw [← hbw]
      rintro rfl
      rw [List.nil_append] at hy
      exact hP (hy ▸ hP')
    -- the first character of the rest belongs to the value, so the value is not empty
    obtain ⟨v', hv'⟩ := exists_cons_of_append_blanks hw hc hne (hbw ▸ hy)
    refine ⟨w ++ y, by rw [hy, hbw, List.append_assoc], ⟨hitem, ?_, ?_, ?_⟩, w, y, rfl, hw, hP'⟩
    · rw [hv']
      exact List.cons_ne_nil _ _
    · intro d hd
      rw [hv', List.head?_cons, Option.some.injEq] at hd
      rw [← hd]
      exact hc
    · intro d hd
      rw [hvb] at hd
      exact Text.isBlank_of_getLast?_trimEnd hd

/-- A character that neither ends a value nor nests too deep is taken from what is left. -/
theorem inValue_cons {s : ValueState} {n : Nat} (hs : s.opened.length ≤ maxListDepth)
    (he : s.ends c = false) (hP : P (c :: t) → c = ',' ∨ c = '}') :
    InValue s v P (c :: t) ↔ s.overflows c = false ∧ InValue (s.next n c) v P t := by
  constructor
  · rintro ⟨b, y, hy, hv, hb, hPy⟩
    cases b with
    | nil =>
      rw [List.nil_append] at hy
      have hends := (closes_nil_iff (hP (hy ▸ hPy))).mp hb
      rw [he] at hends
      cases hends
    | cons d b =>
      rw [List.cons_append, List.cons.injEq] at hy
      obtain ⟨rfl, rfl⟩ := hy
      obtain ⟨ho, hb'⟩ := (closes_cons hs he).mp hb
      refine ⟨ho, b, y, rfl, ?_, hb', hPy⟩
      rw [hv, read_next, List.reverse_cons, List.append_assoc, List.singleton_append]
  · rintro ⟨ho, b, y, rfl, hv, hb, hPy⟩
    refine ⟨c :: b, y, rfl, ?_, (closes_cons hs he).mpr ⟨ho, hb⟩, hPy⟩
    rw [hv, read_next, List.reverse_cons, List.append_assoc, List.singleton_append]

/-- The character that ends a value stands behind it. -/
theorem inValue_cons_of_ends {s : ValueState} (he : s.ends c = true) :
    InValue s v P (c :: t) ↔ v = s.chars ∧ P (c :: t) := by
  have hc : c = ',' ∨ c = '}' := (ValueState.ends_iff.mp he).2.2
  constructor
  · rintro ⟨b, y, hy, hv, hb, hPy⟩
    cases b with
    | nil =>
      rw [List.nil_append] at hy
      rw [List.append_nil] at hv
      exact ⟨hv, hy ▸ hPy⟩
    | cons d b =>
      rw [List.cons_append, List.cons.injEq] at hy
      obtain ⟨rfl, -⟩ := hy
      exact absurd hb (not_closes_cons_of_ends he)
  · rintro ⟨hv, hP⟩
    exact ⟨[], c :: t, rfl, by rwa [List.append_nil], (closes_nil_iff hc).mpr he, hP⟩

/-- A character that neither is blank nor stands behind a value begins one. -/
theorem valued_cons_start (n : Nat) {ps : List (List Char × List Char)}
    (hb : Text.isBlank c = false) (hcomma : c ≠ ',') (hbrace : c ≠ '}') :
    Spaced (Valued v (Tail ps)) (c :: t) ↔
      InValue ((ValueState.initial n).next n c) v (Tail ps) t := by
  have htail : ¬Tail ps (c :: t) := by
    intro h
    rcases head_of_tail h with rfl | rfl
    · exact hcomma rfl
    · exact hbrace rfl
  have hends : (ValueState.initial n).ends c = false := ValueState.ends_initial hcomma hbrace
  rw [spaced_cons_of_not_isBlank hb, valued_iff_inValue n hb htail,
    inValue_cons (Nat.zero_le _) hends head_of_tail]
  exact and_iff_right (ValueState.overflows_initial n c)

/-- A name that has been read ends before a character that no name contains. -/
theorem named_cons_of_end {read n : List Char} (hread : IsName read.reverse)
    (hc : Text.isNameChar c = false) :
    Named read n P (c :: t) ↔ n = read.reverse ∧ P (c :: t) := by
  rw [named_cons_of_not_isNameChar hc]
  constructor
  · rintro ⟨hn, -, hP⟩
    exact ⟨hn, hP⟩
  · rintro ⟨rfl, hP⟩
    exact ⟨rfl, hread, hP⟩

theorem signed_cons_of_isBlank (hc : Text.isBlank c = true) :
    Signed v P (c :: t) ↔ Signed v P t := by
  refine spaced_cons_of_isBlank ?_ hc
  rw [after_cons]
  rintro ⟨rfl, -⟩
  cases hc

theorem signed_cons_sign : Signed v P ('=' :: t) ↔ Spaced (Valued v P) t := by
  unfold Signed
  rw [spaced_cons_of_not_isBlank (by decide), after_cons_self]

theorem not_signed_of_isNameChar (hc : Text.isNameChar c = true) : ¬Signed v P (c :: t) := by
  have hb : Text.isBlank c = false := Text.not_isBlank_of_isNameChar hc
  unfold Signed
  rw [spaced_cons_of_not_isBlank hb, after_cons]
  rintro ⟨rfl, -⟩
  cases hc

theorem block_cons_of_isBlank {ps : List (List Char × List Char)} (hc : Text.isBlank c = true) :
    Block ps (c :: t) ↔ Block ps t := by
  refine spaced_cons_of_isBlank ?_ hc
  rintro (⟨h, -⟩ | h)
  · cases h
  · rw [(after_cons.mp h).1] at hc
    cases hc

theorem block_cons_open {ps : List (List Char × List Char)} :
    Block ps ('{' :: t) ↔ Spaced (Entries ps) t := by
  unfold Block
  rw [spaced_cons_of_not_isBlank (by decide), after_cons_self]
  simp

theorem param_cons_of_isBlank {p : List Char × List Char} (hc : Text.isBlank c = true) :
    Spaced (Param p P) (c :: t) ↔ Spaced (Param p P) t := by
  refine spaced_cons_of_isBlank (fun h => ?_) hc
  have hn := isNameChar_of_param h
  rw [Text.isNameChar_eq_false_of_isBlank hc] at hn
  cases hn

theorem param_cons_of_isNameChar {p : List Char × List Char} (hc : Text.isNameChar c = true) :
    Spaced (Param p P) (c :: t) ↔ Named [c] p.1 (Signed p.2 P) t := by
  rw [spaced_cons_of_not_isBlank (Text.not_isBlank_of_isNameChar hc)]
  exact named_cons_of_isNameChar (not_signed_of_isNameChar hc)

theorem entries_cons_of_isBlank {ps : List (List Char × List Char)} (hc : Text.isBlank c = true) :
    Spaced (Entries ps) (c :: t) ↔ Spaced (Entries ps) t := by
  refine spaced_cons_of_isBlank (fun h => ?_) hc
  rcases head_of_entries h with hn | ⟨rfl, -⟩
  · rw [Text.isNameChar_eq_false_of_isBlank hc] at hn
    cases hn
  · cases hc

/-- A name behind the opening brace begins the first parameter. -/
theorem entries_cons_of_isNameChar {ps : List (List Char × List Char)}
    (hc : Text.isNameChar c = true) : Spaced (Entries ps) (c :: t) ↔
      ∃ n v ps', ps = (n, v) :: ps' ∧ Named [c] n (Signed v (Tail ps')) t := by
  constructor
  · intro h
    cases ps with
    | nil =>
      rw [spaced_cons_of_not_isBlank (Text.not_isBlank_of_isNameChar hc)] at h
      rw [(after_cons.mp h).1] at hc
      cases hc
    | cons p ps => exact ⟨p.1, p.2, ps, rfl, (param_cons_of_isNameChar hc).mp h⟩
  · rintro ⟨n, v, ps', rfl, h⟩
    exact (param_cons_of_isNameChar (p := (n, v)) hc).mpr h

/-- A closing brace behind the opening one leaves the block without parameters. -/
theorem entries_cons_close {ps : List (List Char × List Char)} :
    Spaced (Entries ps) ('}' :: t) ↔ ps = [] ∧ Blanks t := by
  rw [spaced_cons_of_not_isBlank (by decide)]
  cases ps with
  | nil => exact after_cons_self.trans (and_iff_right rfl).symm
  | cons p ps =>
    constructor
    · intro h
      cases isNameChar_of_param h
    · rintro ⟨h, -⟩
      cases h

theorem not_block_of_isNameChar {ps : List (List Char × List Char)}
    (hc : Text.isNameChar c = true) : ¬Block ps (c :: t) := by
  have hb : Text.isBlank c = false := Text.not_isBlank_of_isNameChar hc
  unfold Block
  rw [spaced_cons_of_not_isBlank hb]
  rintro (⟨h, -⟩ | h)
  · cases h
  · rw [(after_cons.mp h).1] at hc
    cases hc

end

/-! ### What is left -/

/-- The name and the raw value of a parameter. -/
def texts (p : RawParam) : List Char × List Char :=
  (p.name.text.toList, p.value.text.toList)

/-- The reading with the family `f`, the function `g`, the parameters `qs`, the latest first, and
after them the parameters `ps`. -/
def reading (f g : Piece) (qs : List RawParam) (ps : List (List Char × List Char)) : Reading :=
  ⟨f.text.toList, g.text.toList, qs.reverse.map texts ++ ps⟩

/-- The scanner is in part `p` and the outline at stage `σ`, and `cs` is what is left of a directive
with reading `r`. -/
def Remains : Part → Stage → Reading → List Char → Prop
  | .family _ read, .family, ⟨f, g, ps⟩, cs =>
    Named read f (After '.' (Named [] g (Block ps))) cs
  | .function _ read, .function f, ⟨f', g, ps⟩, cs =>
    f' = f.text.toList ∧ Named read g (Block ps) cs
  | .gap _, .blockOrEnd f g, r, cs => ∃ ps, r = reading f g [] ps ∧ Block ps cs
  | .entry true, .nameOrClose f g, r, cs =>
    ∃ ps, r = reading f g [] ps ∧ Spaced (Entries ps) cs
  | .entry false, .name f g qs, r, cs =>
    ∃ p ps, r = reading f g qs (p :: ps) ∧ Spaced (Param p (Tail ps)) cs
  | .name _ read, .nameOrClose f g, r, cs =>
    ∃ n v ps, r = reading f g [] ((n, v) :: ps) ∧ Named read n (Signed v (Tail ps)) cs
  | .name _ read, .name f g qs, r, cs =>
    ∃ n v ps, r = reading f g qs ((n, v) :: ps) ∧ Named read n (Signed v (Tail ps)) cs
  | .equals, .equals f g qs n, r, cs =>
    ∃ v ps, r = reading f g qs ((n.text.toList, v) :: ps) ∧ Signed v (Tail ps) cs
  | .beforeValue, .value f g qs n, r, cs =>
    ∃ v ps, r = reading f g qs ((n.text.toList, v) :: ps) ∧ Spaced (Valued v (Tail ps)) cs
  | .value s, .value f g qs n, r, cs =>
    ∃ v ps, r = reading f g qs ((n.text.toList, v) :: ps) ∧ InValue s v (Tail ps) cs
  | .closed, .ending f g qs, r, cs => r = reading f g qs [] ∧ Blanks cs
  | _, _, _, _ => False

/-- A parameter that has been read stands behind those read before it. -/
theorem reading_cons (f g n v : Piece) (qs : List RawParam) (ps : List (List Char × List Char)) :
    reading f g (⟨n, v⟩ :: qs) ps = reading f g qs ((n.text.toList, v.text.toList) :: ps) := by
  simp [reading, texts]

/-- A reading that agrees with a family and a function leaves all its parameters to come. -/
theorem exists_reading_iff {f' g' : List Char} {f g : Piece} {ps : List (List Char × List Char)}
    {Q : List (List Char × List Char) → Prop} :
    (∃ ps', Reading.mk f' g' ps = reading f g [] ps' ∧ Q ps') ↔
      f' = f.text.toList ∧ g' = g.text.toList ∧ Q ps := by
  constructor
  · rintro ⟨ps', h, hQ⟩
    obtain ⟨hf, hg, hps⟩ := Reading.mk.inj h
    exact ⟨hf, hg, hps ▸ hQ⟩
  · rintro ⟨rfl, rfl, hQ⟩
    exact ⟨ps, rfl, hQ⟩

theorem isName_reverse {read : List Char} (h : NameChars read) (hne : read ≠ []) :
    IsName read.reverse := by
  refine ⟨by simpa using hne, fun c hc => h c (List.mem_reverse.mp hc)⟩

section

variable {r : Reading} {f g : Piece} {qs : List RawParam} {read t : List Char} {c : Char}

/-- A function name that has been read leaves its block to come. -/
theorem exists_block_iff {f' g' : List Char} {ps : List (List Char × List Char)} {span : Span}
    (hread : IsName read) (hc : Text.isNameChar c = false) :
    f' = f.text.toList ∧ Named read g' (Block ps) (c :: t) ↔
      ∃ ps', Reading.mk f' g' ps = reading f ⟨String.ofList read.reverse, span⟩ [] ps' ∧
        Block ps' (c :: t) := by
  rw [named_cons_of_end (isName_reverse hread.2 hread.1) hc, exists_reading_iff,
    String.toList_ofList]

/-- A name behind the opening brace is that of the first parameter. -/
theorem exists_entries_cons_of_isNameChar (hc : Text.isNameChar c = true) :
    (∃ ps, r = reading f g [] ps ∧ Spaced (Entries ps) (c :: t)) ↔
      ∃ n v ps, r = reading f g [] ((n, v) :: ps) ∧ Named [c] n (Signed v (Tail ps)) t := by
  constructor
  · rintro ⟨ps, rfl, h⟩
    obtain ⟨n, v, ps, rfl, h'⟩ := (entries_cons_of_isNameChar hc).mp h
    exact ⟨n, v, ps, rfl, h'⟩
  · rintro ⟨n, v, ps, rfl, h⟩
    exact ⟨_, rfl, (entries_cons_of_isNameChar hc).mpr ⟨n, v, ps, rfl, h⟩⟩

/-- A name behind a comma is that of the next parameter. -/
theorem exists_param_cons_of_isNameChar (hc : Text.isNameChar c = true) :
    (∃ p ps, r = reading f g qs (p :: ps) ∧ Spaced (Param p (Tail ps)) (c :: t)) ↔
      ∃ n v ps, r = reading f g qs ((n, v) :: ps) ∧ Named [c] n (Signed v (Tail ps)) t := by
  constructor
  · rintro ⟨p, ps, rfl, h⟩
    exact ⟨p.1, p.2, ps, rfl, (param_cons_of_isNameChar hc).mp h⟩
  · rintro ⟨n, v, ps, rfl, h⟩
    exact ⟨(n, v), ps, rfl, (param_cons_of_isNameChar hc).mpr h⟩

/-- A closing brace behind the opening one leaves no parameter to come. -/
theorem exists_entries_cons_close :
    (∃ ps, r = reading f g [] ps ∧ Spaced (Entries ps) ('}' :: t)) ↔
      r = reading f g [] [] ∧ Blanks t := by
  constructor
  · rintro ⟨ps, rfl, h⟩
    obtain ⟨rfl, hb⟩ := entries_cons_close.mp h
    exact ⟨rfl, hb⟩
  · rintro ⟨rfl, h⟩
    exact ⟨[], rfl, entries_cons_close.mpr ⟨rfl, h⟩⟩

/-- A parameter name that has been read leaves its value to come. -/
theorem exists_named_iff (hread : IsName read) (hc : Text.isNameChar c = false) :
    (∃ n v ps, r = reading f g qs ((n, v) :: ps) ∧ Named read n (Signed v (Tail ps)) (c :: t)) ↔
      ∃ v ps, r = reading f g qs ((read.reverse, v) :: ps) ∧ Signed v (Tail ps) (c :: t) := by
  have hname := isName_reverse hread.2 hread.1
  constructor
  · rintro ⟨n, v, ps, rfl, h⟩
    obtain ⟨rfl, h'⟩ := (named_cons_of_end hname hc).mp h
    exact ⟨v, ps, rfl, h'⟩
  · rintro ⟨v, ps, rfl, h⟩
    exact ⟨read.reverse, v, ps, rfl, (named_cons_of_end hname hc).mpr ⟨rfl, h⟩⟩

/-- A blank behind a parameter name ends it, and the text of its token is the name. -/
theorem exists_named_cons_of_isBlank (hread : IsName read) (hb : Text.isBlank c = true) :
    (∃ n v ps, r = reading f g qs ((n, v) :: ps) ∧ Named read n (Signed v (Tail ps)) (c :: t)) ↔
      ∃ v ps, r = reading f g qs (((String.ofList read.reverse).toList, v) :: ps) ∧
        Signed v (Tail ps) t := by
  simp only [exists_named_iff hread (Text.isNameChar_eq_false_of_isBlank hb),
    signed_cons_of_isBlank hb, String.toList_ofList]

/-- The sign behind a parameter name ends it, and the text of its token is the name. -/
theorem exists_named_cons_sign (hread : IsName read) :
    (∃ n v ps, r = reading f g qs ((n, v) :: ps) ∧ Named read n (Signed v (Tail ps)) ('=' :: t)) ↔
      ∃ v ps, r = reading f g qs (((String.ofList read.reverse).toList, v) :: ps) ∧
        Spaced (Valued v (Tail ps)) t := by
  simp only [exists_named_iff hread (show Text.isNameChar '=' = false by decide),
    signed_cons_sign, String.toList_ofList]

/-- A comma that ends a value leaves another parameter to come. -/
theorem exists_inValue_cons_comma {s : ValueState} {n : Piece} {span : Span}
    (he : s.ends ',' = true) :
    (∃ v ps, r = reading f g qs ((n.text.toList, v) :: ps) ∧ InValue s v (Tail ps) (',' :: t)) ↔
      ∃ p ps, r = reading f g (⟨n, ⟨String.ofList s.chars, span⟩⟩ :: qs) (p :: ps) ∧
        Spaced (Param p (Tail ps)) t := by
  constructor
  · rintro ⟨v, ps, rfl, h⟩
    obtain ⟨rfl, h'⟩ := (inValue_cons_of_ends he).mp h
    obtain ⟨p, ps, rfl, hp⟩ := tail_cons_comma.mp h'
    exact ⟨p, ps, by simp only [reading_cons, String.toList_ofList], hp⟩
  · rintro ⟨p, ps, rfl, h⟩
    refine ⟨_, p :: ps, ?_, (inValue_cons_of_ends he).mpr
      ⟨rfl, tail_cons_comma.mpr ⟨p, ps, rfl, h⟩⟩⟩
    simp only [reading_cons, String.toList_ofList]

/-- A closing brace that ends a value leaves no parameter to come. -/
theorem exists_inValue_cons_close {s : ValueState} {n : Piece} {span : Span}
    (he : s.ends '}' = true) :
    (∃ v ps, r = reading f g qs ((n.text.toList, v) :: ps) ∧ InValue s v (Tail ps) ('}' :: t)) ↔
      r = reading f g (⟨n, ⟨String.ofList s.chars, span⟩⟩ :: qs) [] ∧ Blanks t := by
  constructor
  · rintro ⟨v, ps, rfl, h⟩
    obtain ⟨rfl, h'⟩ := (inValue_cons_of_ends he).mp h
    obtain ⟨rfl, hb⟩ := tail_cons_close.mp h'
    exact ⟨by simp only [reading_cons, String.toList_ofList], hb⟩
  · rintro ⟨rfl, h⟩
    refine ⟨_, [], ?_, (inValue_cons_of_ends he).mpr ⟨rfl, tail_cons_close.mpr ⟨rfl, h⟩⟩⟩
    simp only [reading_cons, String.toList_ofList]

end

/-- A move takes one character from what is left. -/
theorem remains_cons_of_move {extent : Extent} {n : Nat} {p p' : Part} {c : Char}
    {es : List Token} {σ σ' : Stage} (h : Move extent n p c es p') (hf : Fits p σ)
    (hσ : σ.after? es.reverse = some σ') (r : Reading) (t : List Char) :
    Remains p σ r (c :: t) ↔ Remains p' σ' r t := by
  cases h with
  | familyChar hc =>
    cases hf
    cases hσ
    refine named_cons_of_isNameChar ?_
    rw [after_cons]
    rintro ⟨rfl, -⟩
    cases hc
  | @familyEnd _ read hr =>
    cases hf with
    | family hread =>
      -- the point ends the family, and its token moves the outline on to the function
      cases hσ
      obtain ⟨f, g, ps⟩ := r
      have hname : IsName read.reverse := isName_reverse hread hr
      show Named read f (After '.' (Named [] g (Block ps))) ('.' :: t) ↔
        f = (String.ofList read.reverse).toList ∧ Named [] g (Block ps) t
      rw [named_cons_of_end hname (by decide), after_cons_self, String.toList_ofList]
  | functionChar hc =>
    cases hf
    cases hσ
    exact and_congr_right fun _ => named_cons_of_isNameChar (not_block_of_isNameChar hc)
  | functionBlank hr hb =>
    cases hf with
    | function hread =>
      cases hσ
      exact (exists_block_iff ⟨hr, hread⟩ (Text.isNameChar_eq_false_of_isBlank hb)).trans
        (exists_congr fun ps => and_congr_right fun _ => block_cons_of_isBlank hb)
  | functionOpen hr =>
    cases hf with
    | function hread =>
      cases hσ
      exact (exists_block_iff ⟨hr, hread⟩ (by decide)).trans
        (exists_congr fun ps => and_congr_right fun _ => block_cons_open)
  | gapBlank hb =>
    cases hf
    cases hσ
    exact exists_congr fun ps => and_congr_right fun _ => block_cons_of_isBlank hb
  | gapOpen =>
    cases hf
    cases hσ
    exact exists_congr fun ps => and_congr_right fun _ => block_cons_open
  | entryBlank hb =>
    cases hf with
    | entryFirst =>
      cases hσ
      exact exists_congr fun ps => and_congr_right fun _ => entries_cons_of_isBlank hb
    | entry =>
      cases hσ
      exact exists_congr fun p => exists_congr fun ps => and_congr_right fun _ =>
        param_cons_of_isBlank hb
  | entryName hc =>
    cases hf with
    | entryFirst =>
      cases hσ
      exact exists_entries_cons_of_isNameChar hc
    | entry =>
      cases hσ
      exact exists_param_cons_of_isNameChar hc
  | entryClose =>
    cases hf
    cases hσ
    exact exists_entries_cons_close
  -- in names the first parameter and the later ones differ in the stage of the outline alone
  | nameChar hc =>
    cases hf with
    | nameFirst =>
      cases hσ
      exact exists_congr fun n => exists_congr fun v => exists_congr fun ps =>
        and_congr_right fun _ => named_cons_of_isNameChar (not_signed_of_isNameChar hc)
    | name =>
      cases hσ
      exact exists_congr fun n => exists_congr fun v => exists_congr fun ps =>
        and_congr_right fun _ => named_cons_of_isNameChar (not_signed_of_isNameChar hc)
  | nameBlank hb =>
    cases hf with
    | nameFirst hread =>
      cases hσ
      exact exists_named_cons_of_isBlank hread hb
    | name hread =>
      cases hσ
      exact exists_named_cons_of_isBlank hread hb
  | nameSign =>
    cases hf with
    | nameFirst hread =>
      cases hσ
      exact exists_named_cons_sign hread
    | name hread =>
      cases hσ
      exact exists_named_cons_sign hread
  | equalsBlank hb =>
    cases hf
    cases hσ
    exact exists_congr fun v => exists_congr fun ps => and_congr_right fun _ =>
      signed_cons_of_isBlank hb
  | equalsSign =>
    cases hf
    cases hσ
    exact exists_congr fun v => exists_congr fun ps => and_congr_right fun _ => signed_cons_sign
  | valueBlank hb =>
    cases hf
    cases hσ
    refine exists_congr fun v => exists_congr fun ps => and_congr_right fun _ =>
      spaced_cons_of_isBlank ?_ hb
    intro h
    rw [(head_of_valued h).1] at hb
    cases hb
  | valueStart hb hcomma hbrace =>
    cases hf
    cases hσ
    exact exists_congr fun v => exists_congr fun ps => and_congr_right fun _ =>
      valued_cons_start n hb hcomma hbrace
  | valueChar he ho =>
    cases hf with
    | value hv =>
      cases hσ
      refine exists_congr fun v => exists_congr fun ps => and_congr_right fun _ => ?_
      rw [inValue_cons hv he head_of_tail]
      exact and_iff_right ho
  | valueComma he =>
    cases hf
    cases hσ
    exact exists_inValue_cons_comma he
  | valueClose _ he =>
    cases hf
    cases hσ
    exact exists_inValue_cons_close he
  | closedBlank hb =>
    cases hf
    cases hσ
    refine and_congr_right fun _ => ?_
    rw [Text.blanks_cons]
    exact and_iff_right hb

/-! ### No character is left without a move -/

section

variable {P : List Char → Prop} {c : Char} {t v : List Char}

/-- A name in progress goes on with a name character or ends, and then it is not empty. -/
theorem named_cons_cases {read n : List Char} (h : Named read n P (c :: t)) :
    Text.isNameChar c = true ∨ (read ≠ [] ∧ P (c :: t)) := by
  by_cases hc : Text.isNameChar c = true
  · exact Or.inl hc
  · rw [Bool.not_eq_true] at hc
    obtain ⟨hn, hname, hP⟩ := (named_cons_of_not_isNameChar hc).mp h
    refine Or.inr ⟨?_, hP⟩
    rintro rfl
    exact hname.1 hn

theorem spaced_cons_cases (h : Spaced P (c :: t)) : Text.isBlank c = true ∨ P (c :: t) := by
  by_cases hc : Text.isBlank c = true
  · exact Or.inl hc
  · rw [Bool.not_eq_true] at hc
    exact Or.inr ((spaced_cons_of_not_isBlank hc).mp h)

theorem signed_cons_cases (h : Signed v P (c :: t)) : Text.isBlank c = true ∨ c = '=' := by
  rcases spaced_cons_cases h with hb | h
  · exact Or.inl hb
  · exact Or.inr (after_cons.mp h).1

theorem block_cons_cases {ps : List (List Char × List Char)} (h : Block ps (c :: t)) :
    Text.isBlank c = true ∨ c = '{' := by
  rcases spaced_cons_cases h with hb | ⟨h, -⟩ | h
  · exact Or.inl hb
  · cases h
  · exact Or.inr (after_cons.mp h).1

/-- In a parameter name there is a move for its next character, and for what may stand behind it. -/
theorem exists_move_of_named {read name : List Char} (h : Named read name (Signed v P) (c :: t))
    (n start : Nat) : ∃ es p', Move .whole n (.name start read) c es p' := by
  rcases named_cons_cases h with hc | ⟨-, h⟩
  · exact ⟨_, _, .nameChar hc⟩
  · rcases signed_cons_cases h with hb | rfl
    · exact ⟨_, _, .nameBlank hb⟩
    · exact ⟨_, _, .nameSign⟩

end

/-- What is left of a directive begins with a character that allows a move. -/
theorem exists_move_of_remains {p : Part} {σ : Stage} {r : Reading} {c : Char} {t : List Char}
    (hf : Fits p σ) (h : Remains p σ r (c :: t)) (n : Nat) :
    ∃ es p', Move .whole n p c es p' := by
  cases hf with
  | family =>
    obtain ⟨f, g, ps⟩ := r
    rcases named_cons_cases h with hc | ⟨hr, h⟩
    · exact ⟨_, _, .familyChar hc⟩
    · obtain ⟨rfl, -⟩ := after_cons.mp h
      exact ⟨_, _, .familyEnd hr⟩
  | function =>
    obtain ⟨f, g, ps⟩ := r
    rcases named_cons_cases h.2 with hc | ⟨hr, h⟩
    · exact ⟨_, _, .functionChar hc⟩
    · rcases block_cons_cases h with hb | rfl
      · exact ⟨_, _, .functionBlank hr hb⟩
      · exact ⟨_, _, .functionOpen hr⟩
  | gap =>
    obtain ⟨ps, -, h⟩ := h
    rcases block_cons_cases h with hb | rfl
    · exact ⟨_, _, .gapBlank hb⟩
    · exact ⟨_, _, .gapOpen⟩
  | entryFirst =>
    obtain ⟨ps, -, h⟩ := h
    rcases spaced_cons_cases h with hb | h
    · exact ⟨_, _, .entryBlank hb⟩
    · rcases head_of_entries h with hc | ⟨rfl, -⟩
      · exact ⟨_, _, .entryName hc⟩
      · exact ⟨_, _, .entryClose rfl⟩
  | entry =>
    obtain ⟨p, ps, -, h⟩ := h
    rcases spaced_cons_cases h with hb | h
    · exact ⟨_, _, .entryBlank hb⟩
    · exact ⟨_, _, .entryName (isNameChar_of_param h)⟩
  | nameFirst =>
    obtain ⟨name, v, ps, -, h⟩ := h
    exact exists_move_of_named h n _
  | name =>
    obtain ⟨name, v, ps, -, h⟩ := h
    exact exists_move_of_named h n _
  | equals =>
    obtain ⟨v, ps, -, h⟩ := h
    rcases signed_cons_cases h with hb | rfl
    · exact ⟨_, _, .equalsBlank hb⟩
    · exact ⟨_, _, .equalsSign⟩
  | beforeValue =>
    obtain ⟨v, ps, -, h⟩ := h
    rcases spaced_cons_cases h with hb | h
    · exact ⟨_, _, .valueBlank hb⟩
    · obtain ⟨hb, hcomma, hbrace⟩ := head_of_valued h
      exact ⟨_, _, .valueStart hb hcomma hbrace⟩
  | @value s _ _ _ _ hv =>
    obtain ⟨v, ps, -, h⟩ := h
    cases he : s.ends c with
    | false =>
      obtain ⟨ho, -⟩ := (inValue_cons (n := n) hv he head_of_tail).mp h
      exact ⟨_, _, .valueChar he ho⟩
    | true =>
      rcases head_of_tail ((inValue_cons_of_ends he).mp h).2 with rfl | rfl
      · exact ⟨_, _, .valueComma he⟩
      · exact ⟨_, _, .valueClose rfl he⟩
  | closed =>
    obtain ⟨-, h⟩ := h
    exact ⟨_, _, .closedBlank (Text.blanks_cons.mp h).1⟩

end Directive.Scanner
