import Directive.Proofs.Elements
import Directive.Proofs.Number.Written
import Directive.Value.Text

/-!
# Written values are text of the grammar

The written form of a value is an item of the grammar at every place, as long as its lists do not
nest too deep.  Scalars other than strings are written without any character that the grammar cares
about.  A string stands bare or between two quotes, and between quotes it is an item if no delimiter
follows the first such quote inside it (`Quotable`).  Lists are put together from their items.
-/

namespace Directive.Value

open Grammar
open Text (Blanks)
open Decimal (Digits IsNumeral IsNumeric)

/-! ### Values and their items -/

/-- Whether the value is neither a string nor a list. -/
def isAtom : Value → Bool
  | .string _ => false
  | .list _ => false
  | _ => true

/-- What holds of atoms and of strings, and of a list if it holds of its items, holds of all
values. -/
theorem induct {P : Value → Prop} (atom : ∀ v, v.isAtom = true → P v)
    (string : ∀ s, P (.string s)) (list : ∀ items, (∀ v ∈ items, P v) → P (.list items))
    (v : Value) : P v :=
  @Value.rec P (fun vs => ∀ v ∈ vs, P v) (atom _ rfl) (fun _ => atom _ rfl) (fun _ => atom _ rfl)
    (fun _ => atom _ rfl) string list (List.forall_mem_nil P)
    (fun _ _ hv hvs => List.forall_mem_cons.mpr ⟨hv, hvs⟩) v

mutual

/-- How deep lists nest in a value. -/
def depth : Value → Nat
  | .list items => depths items + 1
  | _ => 0

/-- How deep lists nest in the items of a list. -/
def depths : List Value → Nat
  | [] => 0
  | v :: vs => max (depth v) (depths vs)

end

mutual

/-- The strings in a value, at any depth. -/
def strings : Value → List String
  | .string s => [s]
  | .list items => stringsOf items
  | _ => []

/-- The strings in the items of a list. -/
def stringsOf : List Value → List String
  | [] => []
  | v :: vs => strings v ++ stringsOf vs

end

theorem depth_of_isAtom {v : Value} (h : v.isAtom = true) : depth v = 0 := by
  cases v with
  | list items => cases h
  | _ => rfl

theorem depths_le {items : List Value} {n : Nat} (h : ∀ v ∈ items, depth v ≤ n) :
    depths items ≤ n := by
  induction items with
  | nil => exact Nat.zero_le n
  | cons v items ih =>
    obtain ⟨hv, hitems⟩ := List.forall_mem_cons.mp h
    exact Nat.max_le.mpr ⟨hv, ih hitems⟩

theorem depth_le_depths {v : Value} {items : List Value} (h : v ∈ items) :
    depth v ≤ depths items := by
  induction items with
  | nil => cases h
  | cons u items ih =>
    rw [depths]
    rcases List.mem_cons.mp h with rfl | h
    · exact Nat.le_max_left _ _
    · exact Nat.le_trans (ih h) (Nat.le_max_right _ _)

theorem mem_stringsOf {v : Value} {items : List Value} {s : String} (h : v ∈ items)
    (hs : s ∈ strings v) : s ∈ stringsOf items := by
  induction items with
  | nil => cases h
  | cons u items ih =>
    rw [stringsOf, List.mem_append]
    rcases List.mem_cons.mp h with rfl | h
    · exact Or.inl hs
    · exact Or.inr (ih h)

/-- For one of the two quotes, no delimiter follows its first occurrence in the text. -/
def Quotable (cs : List Char) : Prop :=
  ∃ q, Text.isQuote q = true ∧
    ∀ pre post, cs = pre ++ q :: post → q ∉ pre → ∀ c ∈ post, isDelimiter c = false

/-! ### Plain text -/

/-- A character that means nothing to the grammar. -/
def isPlain (c : Char) : Bool :=
  !(isDelimiter c || Text.isQuote c || Text.isBlank c || c == '=')

/-- Text without delimiters, quotes, blanks and equals signs. -/
def Plain (cs : List Char) : Prop :=
  ∀ c ∈ cs, isPlain c = true

theorem isPlain_iff {c : Char} : isPlain c = true ↔
    isDelimiter c = false ∧ Text.isQuote c = false ∧ Text.isBlank c = false ∧ c ≠ '=' := by
  simp [isPlain, and_assoc]

/-- Text with no blank at either end, and not empty. -/
structure Tight (cs : List Char) : Prop where
  ne_nil : cs ≠ []
  head : ∀ c, cs.head? = some c → Text.isBlank c = false
  last : ∀ c, cs.getLast? = some c → Text.isBlank c = false

instance : DecidablePred Plain :=
  fun cs => List.decidableBAll (fun c => isPlain c = true) cs

theorem Tight.trim_eq {cs : List Char} (h : Tight cs) : Text.trim cs = cs :=
  Text.trim_eq_self h.head h.last

theorem Tight.exists_cons {cs : List Char} (h : Tight cs) :
    ∃ c t, cs = c :: t ∧ Text.isBlank c = false := by
  cases cs with
  | nil => exact absurd rfl h.ne_nil
  | cons c t => exact ⟨c, t, rfl, h.head c rfl⟩

theorem tight_of_trim_eq {cs : List Char} (hne : cs ≠ []) (h : Text.trim cs = cs) : Tight cs where
  ne_nil := hne
  head _ hc := Text.isBlank_of_head?_trim (h.symm ▸ hc)
  last _ hc := Text.isBlank_of_getLast?_trim (h.symm ▸ hc)

theorem Plain.tight {cs : List Char} (h : Plain cs) (hne : cs ≠ []) : Tight cs where
  ne_nil := hne
  head c hc := (isPlain_iff.mp (h c (List.mem_of_mem_head? hc))).2.2.1
  last c hc := (isPlain_iff.mp (h c (List.mem_of_getLast? hc))).2.2.1

theorem tight_of_ends {c d : Char} {cs : List Char} (hc : Text.isBlank c = false)
    (hd : Text.isBlank d = false) : Tight (c :: (cs ++ [d])) where
  ne_nil := List.cons_ne_nil _ _
  head e he := by
    cases he
    exact hc
  last e he := by
    rw [← List.cons_append, List.getLast?_concat, Option.some.injEq] at he
    rw [← he]
    exact hd

theorem ordinary_of_not_isDelimiter {p : Place} {c : Char} (h : isDelimiter c = false) :
    p.ordinary c = true := by
  simp only [isDelimiter, Bool.or_eq_false_iff, beq_eq_false_iff_ne] at h
  obtain ⟨⟨⟨h₁, h₂⟩, h₃⟩, h₄⟩ := h
  cases p <;> simp [Place.ordinary, h₁, h₂, h₃, h₄]

theorem run_of_not_isDelimiter {p : Place} {k : Nat} {t : List Char}
    (h : ∀ c ∈ t, isDelimiter c = false) : Run p k t :=
  run_of_ordinary fun c hc => ordinary_of_not_isDelimiter (h c hc)

/-- Plain text is an item at every place. -/
theorem item_of_plain {p : Place} {k : Nat} {t : List Char} (h : Plain t) : Item p k t := by
  refine .plain (run_of_not_isDelimiter fun c hc => (isPlain_iff.mp (h c hc)).1) ?_
  rintro ⟨c, hc, hq⟩
  have hmem : c ∈ t := (List.dropWhile_suffix _).subset (List.mem_of_mem_head? hc)
  rw [(isPlain_iff.mp (h c hmem)).2.1] at hq
  cases hq

/-- Letters and digits are plain. -/
theorem isPlain_of_isAlphanum {c : Char} (h : c.isAlphanum = true) : isPlain c = true := by
  have hrange : (48 ≤ c.toNat ∧ c.toNat ≤ 57) ∨ (65 ≤ c.toNat ∧ c.toNat ≤ 90) ∨
      (97 ≤ c.toNat ∧ c.toNat ≤ 122) := by
    have hcases : (c.isUpper || c.isLower || c.isDigit) = true := h
    rw [Bool.or_eq_true, Bool.or_eq_true] at hcases
    rcases hcases with (hupper | hlower) | hdigit
    · exact Or.inr (Or.inl (of_decide_eq_true hupper))
    · obtain ⟨ha, hz⟩ := Bool.and_eq_true_iff.mp hlower
      exact Or.inr (Or.inr ⟨of_decide_eq_true ha, of_decide_eq_true hz⟩)
    · obtain ⟨hzero, hnine⟩ := Bool.and_eq_true_iff.mp hdigit
      exact Or.inl ⟨of_decide_eq_true hzero, of_decide_eq_true hnine⟩
  have hne : ∀ d : Char, d.toNat ∈ [34, 39, 44, 61, 91, 93, 125] → c ≠ d := by
    rintro d hd rfl
    simp only [List.mem_cons, List.not_mem_nil, or_false] at hd
    omega
  refine isPlain_iff.mpr ⟨?_, ?_, ?_, hne '=' (by decide)⟩
  · simp [isDelimiter, hne]
  · simp [Text.isQuote, hne]
  · simp only [Text.isBlank, Bool.or_eq_false_iff, Bool.and_eq_false_iff, decide_eq_false_iff_not,
      beq_eq_false_iff_ne]
    omega

theorem isPlain_of_isNumeric {c : Char} (h : IsNumeric c) : isPlain c = true := by
  rcases h with h | h
  · exact isPlain_of_isAlphanum (by simp [Char.isAlphanum, h])
  · simp only [List.mem_cons, List.not_mem_nil, or_false] at h
    rcases h with rfl | rfl | rfl | rfl | rfl <;> rfl

/-! ### Atoms -/

/-- A character that numbers and words are written with. -/
def IsLiteral (c : Char) : Prop :=
  c.isAlphanum = true ∨ IsNumeric c

instance : DecidablePred IsLiteral :=
  fun c => inferInstanceAs (Decidable (_ ∨ _ ∨ c ∈ _))

theorem isPlain_of_isLiteral {c : Char} (h : IsLiteral c) : isPlain c = true :=
  h.elim isPlain_of_isAlphanum isPlain_of_isNumeric

theorem literal_of_all {cs : List Char} (h : cs.all (fun c => decide (IsLiteral c)) = true)
    (hne : cs ≠ []) : (∀ c ∈ cs, IsLiteral c) ∧ cs ≠ [] :=
  ⟨fun c hc => of_decide_eq_true (List.all_eq_true.mp h c hc), hne⟩

theorem literal_writeInt (i : Int64) : (∀ c ∈ writeInt i, IsLiteral c) ∧ writeInt i ≠ [] := by
  have hdigits : ∀ c ∈ Nat.toDigits 10 i.toInt.natAbs, IsLiteral c := fun c hc =>
    Or.inr (Or.inl (Decimal.digits_toDigits _ c hc))
  unfold writeInt
  dsimp only
  split_ifs
  · exact ⟨List.forall_mem_cons.mpr ⟨by decide, hdigits⟩, List.cons_ne_nil _ _⟩
  · exact ⟨hdigits, Nat.toDigits_ne_nil⟩

theorem literal_writeFloat (x : Binary64) :
    (∀ c ∈ x.write .directive, IsLiteral c) ∧ x.write .directive ≠ [] := by
  cases x with
  | nan => exact literal_of_all (by decide) (by decide)
  | infinite negative => cases negative <;> exact literal_of_all (by decide) (by decide)
  | finite negative rank =>
    have hplus : NumberLayout.directive.plus = "" := rfl
    obtain ⟨d, hnum, -⟩ := Binary64.exists_isNumeral_writeRank hplus rank.isLt
    have hnumeric : ∀ c ∈ Binary64.writeRank .directive rank.val, IsLiteral c := fun c hc =>
      Or.inr (hnum.isNumeric c hc)
    obtain ⟨c, cs, ht, -⟩ := hnum.exists_cons
    have hne : Binary64.writeRank .directive rank.val ≠ [] := by
      rw [ht]
      exact List.cons_ne_nil c cs
    cases negative with
    | true => exact ⟨List.forall_mem_cons.mpr ⟨by decide, hnumeric⟩, List.cons_ne_nil _ _⟩
    | false => exact ⟨hnumeric, hne⟩

/-- Atoms are written with letters, digits and the signs of numerals. -/
theorem literal_write {v : Value} (h : v.isAtom = true) :
    (∀ c ∈ v.write, IsLiteral c) ∧ v.write ≠ [] := by
  cases v with
  | null => exact literal_of_all (by decide) (by decide)
  | boolean b => cases b <;> exact literal_of_all (by decide) (by decide)
  | integer i => exact literal_writeInt i
  | float x => exact literal_writeFloat x
  | string s => cases h
  | list items => cases h

/-- Atoms are written as plain text. -/
theorem plain_write {v : Value} (h : v.isAtom = true) : Plain v.write ∧ v.write ≠ [] :=
  ⟨fun c hc => isPlain_of_isLiteral ((literal_write h).1 c hc), (literal_write h).2⟩

/-! ### Strings -/

/-- What it takes for a string to be written bare. -/
theorem isBare_iff {cs : List Char} : isBare cs = true ↔
    cs ≠ [] ∧ Text.trim cs = cs ∧ (∀ c, cs.head? = some c → Text.isQuote c = false) ∧
      (∀ c ∈ cs, isDelimiter c = false ∧ c ≠ '{') ∧ isReserved cs = false ∧
      (Text.isWord complete cs = true → cs = complete.toList) ∧ Binary64.ofText? cs = none := by
  have hhead : (cs.head?.any Text.isQuote) = false ↔
      ∀ c, cs.head? = some c → Text.isQuote c = false := by
    cases cs.head? <;> simp
  have hword : (Text.isWord complete cs = false ∨ cs = complete.toList) ↔
      (Text.isWord complete cs = true → cs = complete.toList) := by
    rw [← Bool.not_eq_true, imp_iff_not_or]
  simp only [isBare, Bool.and_eq_true, Bool.not_eq_true', List.isEmpty_eq_false_iff, beq_iff_eq,
    List.any_eq_false, Bool.or_eq_true, not_or, Bool.not_eq_true, hhead, Bool.and_eq_false_iff,
    bne_eq_false_iff_eq, Option.isNone_iff_eq_none, hword, and_assoc, ne_eq]

/-- A string written bare is an item at every place. -/
theorem item_of_isBare {p : Place} {k : Nat} {cs : List Char} (h : isBare cs = true) :
    Item p k cs := by
  obtain ⟨-, htrim, hquote, hdelim, -⟩ := isBare_iff.mp h
  refine .plain (run_of_not_isDelimiter fun c hc => (hdelim c hc).1) ?_
  rintro ⟨c, hc, hq⟩
  cases cs with
  | nil => cases hc
  | cons d cs =>
    -- nothing is trimmed, so the text begins with its first character that is no blank
    have hhead : (Text.trim (d :: cs)).head? = some d := by
      rw [htrim]
      rfl
    have hd : Text.isBlank d = false := Text.isBlank_of_head?_trim hhead
    rw [List.dropWhile_cons_of_neg (by simpa using hd)] at hc
    rw [hquote c hc] at hq
    cases hq

theorem dropWhile_ne_append {q : Char} {pre post : List Char} (h : q ∉ pre) :
    (pre ++ q :: post).dropWhile (· != q) = q :: post := by
  rw [List.dropWhile_append_of_pos, List.dropWhile_cons_of_neg (by simp)]
  intro c hc
  rw [bne_iff_ne]
  rintro rfl
  exact h hc

theorem not_isDelimiter_of_isQuote {q : Char} (hq : Text.isQuote q = true) :
    isDelimiter q = false := by
  simp only [Text.isQuote, Bool.or_eq_true, beq_iff_eq] at hq
  rcases hq with rfl | rfl <;> rfl

/-- A quote serves if no delimiter follows its first occurrence. -/
theorem isQuotableWith_iff {q : Char} {cs : List Char} (hq : Text.isQuote q = true) :
    isQuotableWith q cs = true ↔
      ∀ pre post, cs = pre ++ q :: post → q ∉ pre → ∀ c ∈ post, isDelimiter c = false := by
  simp only [isQuotableWith, Bool.not_eq_true', List.any_eq_false, Bool.not_eq_true]
  constructor
  · rintro h pre post rfl hpre c hc
    rw [dropWhile_ne_append hpre] at h
    exact h c (List.mem_cons_of_mem _ hc)
  · intro h c hc
    have hmem : q ∈ cs := by
      by_contra hmem
      have hnil : cs.dropWhile (· != q) = [] := by
        rw [List.dropWhile_eq_nil_iff]
        intro d hd
        rw [bne_iff_ne]
        rintro rfl
        exact hmem hd
      rw [hnil] at hc
      cases hc
    obtain ⟨pre, post, rfl, hpre⟩ := List.eq_append_cons_of_mem hmem
    rw [dropWhile_ne_append hpre] at hc
    rcases List.mem_cons.mp hc with rfl | hc
    · exact not_isDelimiter_of_isQuote hq
    · exact h pre post rfl hpre c hc

theorem quotable_iff {cs : List Char} :
    Quotable cs ↔ isQuotableWith '"' cs = true ∨ isQuotableWith '\'' cs = true := by
  constructor
  · rintro ⟨q, hq, h⟩
    have hserves := (isQuotableWith_iff hq).mpr h
    simp only [Text.isQuote, Bool.or_eq_true, beq_iff_eq] at hq
    rcases hq with rfl | rfl
    · exact Or.inl hserves
    · exact Or.inr hserves
  · rintro (h | h)
    · exact ⟨'"', rfl, (isQuotableWith_iff rfl).mp h⟩
    · exact ⟨'\'', rfl, (isQuotableWith_iff rfl).mp h⟩

instance : DecidablePred Quotable :=
  fun _ => decidable_of_iff _ quotable_iff.symm

/-- Between quotes that serve a string is an item at every place. -/
theorem item_quoteWith {p : Place} {k : Nat} {q : Char} {cs : List Char} (hq : Text.isQuote q = true)
    (h : isQuotableWith q cs = true) : Item p k (quoteWith q cs) := by
  rw [quoteWith, item_cons_of_isQuote hq]
  by_cases hmem : q ∈ cs
  · -- the span ends at the first such quote inside, and what follows is plain
    obtain ⟨pre, post, rfl, hpre⟩ := List.eq_append_cons_of_mem hmem
    have hpost := (isQuotableWith_iff hq).mp h pre post rfl hpre
    refine ⟨pre, post ++ [q], by simp, hpre, run_of_not_isDelimiter ?_⟩
    exact List.forall_mem_append.mpr
      ⟨hpost, List.forall_mem_singleton.mpr (not_isDelimiter_of_isQuote hq)⟩
  · exact ⟨cs, [], rfl, hmem, .nil⟩

/-- The quote that is chosen serves if one of the two does. -/
theorem isQuotableWith_quoteFor {cs : List Char} (h : Quotable cs) :
    isQuotableWith (quoteFor cs) cs = true := by
  unfold quoteFor
  split_ifs with h₁ h₂
  · exact h₁
  · exact h₂
  · exact absurd ((quotable_iff.mp h).resolve_left h₁) h₂

theorem isQuote_quoteFor (cs : List Char) : Text.isQuote (quoteFor cs) = true := by
  unfold quoteFor
  split_ifs <;> rfl

/-- A string of which one quote serves is written as an item at every place. -/
theorem item_writeString {p : Place} {k : Nat} {cs : List Char} (h : Quotable cs) :
    Item p k (writeString cs) := by
  unfold writeString
  split_ifs with hbare
  · exact item_of_isBare hbare
  · exact item_quoteWith (isQuote_quoteFor cs) (isQuotableWith_quoteFor h)

theorem tight_writeString (cs : List Char) : Tight (writeString cs) := by
  unfold writeString
  split_ifs with hbare
  · obtain ⟨hne, htrim, -⟩ := isBare_iff.mp hbare
    exact tight_of_trim_eq hne htrim
  · have hq := not_isBlank_of_isQuote (isQuote_quoteFor cs)
    exact tight_of_ends hq hq

/-! ### Lists -/

/-- The texts of the items of a list as they stand between the commas. -/
def itemTexts : List Value → List (List Char)
  | [] => [[]]
  | v :: vs => write v :: vs.map fun u => ' ' :: write u

theorem writeItems_eq (items : List Value) : writeItems items = joined (itemTexts items) := by
  induction items with
  | nil => rfl
  | cons v items ih =>
    cases items with
    | nil => rfl
    | cons u items =>
      rw [writeItems, ih]
      show _ ++ ',' :: ' ' :: joined (write u :: _) = _
      rw [← joined_cons_space]
      rfl

theorem exists_elements_joined {k : Nat} {e : List Char} {es : List (List Char)}
    (h : ∀ t ∈ e :: es, Item .element (k + 1) t) :
    ∃ rest, joined (e :: es) = e ++ rest ∧ Elements k rest := by
  induction es generalizing e with
  | nil => exact ⟨[], (List.append_nil e).symm, .nil⟩
  | cons e' es ih =>
    obtain ⟨rest, hrest, hes⟩ := ih fun t ht => h t (List.mem_cons_of_mem _ ht)
    refine ⟨',' :: (e' ++ rest), ?_, .cons (h e' (by simp)) hes⟩
    rw [← hrest]
    rfl

/-- Elements between brackets are a group. -/
theorem group_joined {k : Nat} {es : List (List Char)} (hk : k ≤ maxListDepth)
    (h : ∀ t ∈ es, Item .element (k + 1) t) (hne : es ≠ []) :
    Group k ('[' :: (joined es ++ [']'])) := by
  cases es with
  | nil => exact absurd rfl hne
  | cons e es =>
    obtain ⟨rest, hrest, hes⟩ := exists_elements_joined h
    rw [hrest]
    exact .intro hk (h e List.mem_cons_self) hes

theorem itemTexts_ne_nil (items : List Value) : itemTexts items ≠ [] := by
  cases items <;> exact List.cons_ne_nil _ _

/-- The texts of the items are those of the values, perhaps with a space in front. -/
theorem forall_mem_itemTexts {P : List Char → Prop} {items : List Value}
    (hempty : items = [] → P []) (hitem : ∀ v ∈ items, P (write v) ∧ P (' ' :: write v)) :
    ∀ t ∈ itemTexts items, P t := by
  cases items with
  | nil => exact List.forall_mem_singleton.mpr (hempty rfl)
  | cons v items =>
    obtain ⟨hv, hitems⟩ := List.forall_mem_cons.mp hitem
    refine List.forall_mem_cons.mpr ⟨hv.1, ?_⟩
    intro t ht
    obtain ⟨u, hu, rfl⟩ := List.mem_map.mp ht
    exact (hitems u hu).2

theorem items_itemTexts {k : Nat} {items : List Value}
    (h : ∀ v ∈ items, Item .element k v.write) : ∀ t ∈ itemTexts items, Item .element k t := by
  refine forall_mem_itemTexts (fun _ => item_of_plain (fun c hc => by cases hc)) fun v hv => ?_
  exact ⟨h v hv, (item_cons_of_isBlank (by decide)).mpr (h v hv)⟩

/-! ### Values -/

/-- A value whose strings can be quoted is written as an item wherever there is room for its
lists. -/
theorem item_write {p : Place} {k : Nat} {v : Value} (hd : depth v + k ≤ maxListDepth + 1)
    (hs : ∀ s ∈ strings v, Quotable s.toList) : Item p k v.write := by
  induction v using induct generalizing p k with
  | atom v h => exact item_of_plain (plain_write h).1
  | string s => exact item_writeString (hs s List.mem_cons_self)
  | list items ih =>
    rw [depth] at hd
    have hitems : ∀ v ∈ items, Item .element (k + 1) v.write := by
      intro v hv
      have := depth_le_depths hv
      exact ih v hv (by omega) fun s h => hs s (mem_stringsOf hv h)
    rw [write, writeItems_eq]
    have hgroup : Group k ('[' :: (joined (itemTexts items) ++ [']'])) :=
      group_joined (by omega) (items_itemTexts hitems) (itemTexts_ne_nil items)
    have hrun : Run p k ('[' :: (joined (itemTexts items) ++ [']']) ++ []) := .group hgroup .nil
    rw [List.append_nil] at hrun
    refine .plain hrun ?_
    rw [opensWithQuote_cons]
    rintro (⟨h, -⟩ | h) <;> cases h

/-- No value is written with a blank at either end. -/
theorem tight_write (v : Value) : Tight v.write := by
  induction v using induct with
  | atom v h => exact (plain_write h).1.tight (plain_write h).2
  | string s => exact tight_writeString s.toList
  | list items => exact tight_of_ends (by decide) (by decide)

/-- A value whose strings can be quoted and whose lists nest within the limit is written as a value
of the grammar. -/
theorem isValue_write {v : Value} (hd : depth v ≤ maxListDepth)
    (hs : ∀ s ∈ strings v, Quotable s.toList) : IsValue v.write where
  item := item_write (by omega) hs
  ne_nil := (tight_write v).ne_nil
  head := (tight_write v).head
  last := (tight_write v).last

end Directive.Value
