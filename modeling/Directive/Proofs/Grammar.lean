import Directive.Proofs.Text
import Directive.Token.Scanner

/-!
# The grammar of directives

What a directive looks like, written down without regard to how it is read.  A value is text in
which brackets come in pairs: a *group* is a pair of brackets around elements that commas separate,
and elements may hold further groups, down to `maxListDepth`.  A quote counts only where an element
or a value begins; there it protects everything up to the next quote of its kind.

`IsDirective r cs` says that the text `cs` is a directive and that `r` is its *reading*: its
family, its function, and the names and raw values of its parameters.

The second part takes the grammar apart character by character.  `Content` and `Inside` describe
what may follow inside a value, and each `_cons` lemma says what remains to be read once the first
character is gone.
-/

namespace Directive.Grammar

open Text (Blanks)

/-! ### Names and quoted spans -/

/-- Any number of name characters. -/
def NameChars (cs : List Char) : Prop :=
  ∀ c ∈ cs, Text.isNameChar c = true

/-- A name: at least one name character and nothing else. -/
def IsName (cs : List Char) : Prop :=
  cs ≠ [] ∧ NameChars cs

theorem isName_singleton {c : Char} (h : Text.isNameChar c = true) : IsName [c] :=
  ⟨List.cons_ne_nil _ _, List.forall_mem_singleton.mpr h⟩

theorem isName_iff {name : String} : Text.isName name = true ↔ IsName name.toList := by
  simp [Text.isName, IsName, NameChars]

/-- A quote, characters other than that quote, and the quote again. -/
inductive IsQuoted : List Char → Prop
  | intro {q : Char} {body : List Char} :
      Text.isQuote q = true → q ∉ body → IsQuoted (q :: (body ++ [q]))

/-- The first character that is not blank is a quote. -/
def OpensWithQuote (cs : List Char) : Prop :=
  ∃ c, (cs.dropWhile Text.isBlank).head? = some c ∧ Text.isQuote c = true

/-! ### Values -/

/-- Where a run of text stands: directly in a value, or in an element of a group. -/
inductive Place where
  | value
  | element
deriving DecidableEq, Repr

/-- Whether the character stands for itself at that place. -/
def Place.ordinary : Place → Char → Bool
  | .value, c => !(c == ',' || c == '}' || c == '[')
  | .element, c => !(c == ',' || c == '[' || c == ']')

mutual

/-- A group at depth `k`: an opening bracket, elements, and a closing bracket. -/
inductive Group : Nat → List Char → Prop
  | intro {k : Nat} {e es : List Char} :
      k ≤ maxListDepth → Item .element (k + 1) e → Elements k es →
        Group k ('[' :: (e ++ es ++ [']']))

/-- Further elements of a group at depth `k`, each with a comma before it. -/
inductive Elements : Nat → List Char → Prop
  | nil {k : Nat} : Elements k []
  | cons {k : Nat} {e es : List Char} :
      Item .element (k + 1) e → Elements k es → Elements k (',' :: (e ++ es))

/-- A run of ordinary characters and of groups at depth `k`. -/
inductive Run : Place → Nat → List Char → Prop
  | nil {p : Place} {k : Nat} : Run p k []
  | char {p : Place} {k : Nat} {c : Char} {t : List Char} :
      p.ordinary c = true → Run p k t → Run p k (c :: t)
  | group {p : Place} {k : Nat} {g t : List Char} :
      Group k g → Run p k t → Run p k (g ++ t)

/-- A run that may begin with blanks and a quoted span; without the span its first character that
is not blank is no quote.  An element of a group at depth `k` is an item whose own groups are at
depth `k + 1`. -/
inductive Item : Place → Nat → List Char → Prop
  | quoted {p : Place} {k : Nat} {w q t : List Char} :
      Blanks w → IsQuoted q → Run p k t → Item p k (w ++ q ++ t)
  | plain {p : Place} {k : Nat} {t : List Char} :
      Run p k t → ¬OpensWithQuote t → Item p k t

end

/-- A raw value: not empty, with no blank at either end. -/
structure IsValue (cs : List Char) : Prop where
  item : Item .value 1 cs
  ne_nil : cs ≠ []
  head : ∀ c, cs.head? = some c → Text.isBlank c = false
  last : ∀ c, cs.getLast? = some c → Text.isBlank c = false

/-! ### Directives -/

/-- The family, the function and the parameters of a directive, with values as they are written. -/
structure Reading where
  family : List Char
  function : List Char
  params : List (List Char × List Char)
deriving DecidableEq, Repr

/-- One `name=value` pair with the blanks that may stand around the value and before the sign. -/
inductive IsParam : List Char × List Char → List Char → Prop
  | intro {n w₁ w₂ v w₃ : List Char} :
      IsName n → Blanks w₁ → Blanks w₂ → IsValue v → Blanks w₃ →
        IsParam (n, v) (n ++ w₁ ++ '=' :: (w₂ ++ v ++ w₃))

/-- Further parameters, each with a comma and perhaps blanks before it. -/
inductive MoreParams : List (List Char × List Char) → List Char → Prop
  | nil : MoreParams [] []
  | cons {p : List Char × List Char} {ps : List (List Char × List Char)} {w t ts : List Char} :
      Blanks w → IsParam p t → MoreParams ps ts → MoreParams (p :: ps) (',' :: (w ++ t ++ ts))

/-- A parameter block. -/
inductive IsBlock : List (List Char × List Char) → List Char → Prop
  | empty {w : List Char} : Blanks w → IsBlock [] ('{' :: (w ++ ['}']))
  | params {p : List Char × List Char} {ps : List (List Char × List Char)} {w t ts : List Char} :
      Blanks w → IsParam p t → MoreParams ps ts → IsBlock (p :: ps) ('{' :: (w ++ t ++ ts ++ ['}']))

/-- A directive with its reading. -/
inductive IsDirective : Reading → List Char → Prop
  | bare {f g w : List Char} :
      IsName f → IsName g → Blanks w →
        IsDirective ⟨f, g, []⟩ (mark.toList ++ f ++ '.' :: (g ++ w))
  | block {f g w b w' : List Char} {ps : List (List Char × List Char)} :
      IsName f → IsName g → Blanks w → IsBlock ps b → Blanks w' →
        IsDirective ⟨f, g, ps⟩ (mark.toList ++ f ++ '.' :: (g ++ w ++ b ++ w'))

/-! ### What may follow the first character -/

/-- What follows an open quote: text without that quote, the quote, and text of which `P` holds. -/
def Through (q : Char) (P : List Char → Prop) (cs : List Char) : Prop :=
  ∃ b y, cs = b ++ q :: y ∧ q ∉ b ∧ P y

/-- The rest of an item: all of it if nothing has been read yet, else the rest of its run. -/
def Content (p : Place) (k : Nat) (fresh : Bool) (cs : List Char) : Prop :=
  if fresh then Item p k cs else Run p k cs

/-- The rest of a group at depth `k`, up to its closing bracket, and text of which `P` holds. -/
def Inside (k : Nat) (fresh : Bool) (P : List Char → Prop) (cs : List Char) : Prop :=
  ∃ e es y, cs = e ++ (es ++ ']' :: y) ∧ Content .element (k + 1) fresh e ∧ Elements k es ∧ P y

/-- The rest of a value in which `d` brackets are open and no quote is. -/
def Closing : Nat → Bool → List Char → Prop
  | 0, fresh => Content .value 1 fresh
  | d + 1, fresh => Inside (d + 1) fresh (Closing d false)

theorem not_through_nil (q : Char) (P : List Char → Prop) : ¬Through q P [] := by
  rintro ⟨b, y, h, -⟩
  cases b <;> simp at h

theorem through_cons_self {q : Char} {P : List Char → Prop} {cs : List Char} :
    Through q P (q :: cs) ↔ P cs := by
  constructor
  · rintro ⟨b, y, h, hb, hy⟩
    cases b with
    | nil => simp_all
    | cons a b => simp_all
  · intro h
    exact ⟨[], cs, rfl, by simp, h⟩

theorem through_cons_of_ne {q c : Char} {P : List Char → Prop} {cs : List Char} (hc : c ≠ q) :
    Through q P (c :: cs) ↔ Through q P cs := by
  constructor
  · rintro ⟨b, y, h, hb, hy⟩
    cases b with
    | nil => simp_all
    | cons a b =>
      rw [List.cons_append, List.cons.injEq] at h
      exact ⟨b, y, h.2, fun hq => hb (List.mem_cons_of_mem _ hq), hy⟩
  · rintro ⟨b, y, rfl, hb, hy⟩
    exact ⟨c :: b, y, rfl, by simp [hb, Ne.symm hc], hy⟩

/-! #### Runs and items -/

theorem run_cases {p : Place} {k : Nat} {cs : List Char} (h : Run p k cs) :
    cs = [] ∨ (∃ c t, cs = c :: t ∧ p.ordinary c = true ∧ Run p k t) ∨
      ∃ t, cs = '[' :: t ∧ k ≤ maxListDepth ∧ Inside k true (Run p k) t := by
  cases h with
  | nil => exact Or.inl rfl
  | @char _ _ c t hc ht => exact Or.inr (Or.inl ⟨c, t, rfl, hc, ht⟩)
  | @group _ _ g t hg ht =>
    obtain ⟨hk, he, hes⟩ := hg
    rename_i e es
    exact Or.inr (Or.inr ⟨e ++ (es ++ ']' :: t), by simp, hk, e, es, t, rfl, he, hes, ht⟩)

/-- A run goes on with an ordinary character or with a group. -/
theorem run_cons_iff {p : Place} {k : Nat} {c : Char} {t : List Char} :
    Run p k (c :: t) ↔ (p.ordinary c = true ∧ Run p k t) ∨
      (c = '[' ∧ k ≤ maxListDepth ∧ Inside k true (Run p k) t) := by
  constructor
  · intro h
    rcases run_cases h with h | ⟨c', t', h, hc, ht⟩ | ⟨t', h, hk, ht⟩
    · simp at h
    · rw [List.cons.injEq] at h
      obtain ⟨rfl, rfl⟩ := h
      exact Or.inl ⟨hc, ht⟩
    · rw [List.cons.injEq] at h
      obtain ⟨rfl, rfl⟩ := h
      exact Or.inr ⟨rfl, hk, ht⟩
  · rintro (⟨hc, ht⟩ | ⟨rfl, hk, e, es, y, rfl, he, hes, hy⟩)
    · exact .char hc ht
    · have h := Run.group (Group.intro hk he hes) hy
      simpa using h

theorem not_isBlank_of_isQuote {c : Char} (h : Text.isQuote c = true) : Text.isBlank c = false := by
  simp only [Text.isQuote, Bool.or_eq_true, beq_iff_eq] at h
  rcases h with rfl | rfl <;> decide

theorem opensWithQuote_cons {c : Char} {t : List Char} :
    OpensWithQuote (c :: t) ↔
      (Text.isBlank c = true ∧ OpensWithQuote t) ∨ Text.isQuote c = true := by
  unfold OpensWithQuote
  by_cases hb : Text.isBlank c = true
  · have hq : ¬Text.isQuote c = true := fun h => by simp [not_isBlank_of_isQuote h] at hb
    simp [hb, hq]
  · simp [hb]

/-- An item that begins with a quote is a quoted span and a run. -/
theorem item_cons_of_isQuote {p : Place} {k : Nat} {c : Char} {t : List Char}
    (hc : Text.isQuote c = true) : Item p k (c :: t) ↔ Through c (Run p k) t := by
  constructor
  · intro h
    generalize hx : c :: t = x at h
    cases h with
    | @quoted _ _ w q t' hw hq ht =>
      obtain ⟨hq, hbody⟩ := hq
      rename_i q₀ body
      cases w with
      | nil =>
        simp only [List.nil_append, List.cons_append, List.append_assoc, List.cons.injEq] at hx
        obtain ⟨rfl, rfl⟩ := hx
        exact ⟨body, t', rfl, hbody, ht⟩
      | cons b w =>
        simp only [List.cons_append, List.cons.injEq] at hx
        have := hw b (by simp)
        rw [← hx.1, not_isBlank_of_isQuote hc] at this
        simp at this
    | plain ht hq =>
      rw [← hx, opensWithQuote_cons] at hq
      exact absurd (Or.inr hc) hq
  · rintro ⟨b, y, rfl, hb, hy⟩
    have h := Item.quoted Text.blanks_nil (IsQuoted.intro hc hb) hy
    simpa using h

theorem ordinary_of_isBlank {p : Place} {c : Char} (hc : Text.isBlank c = true) :
    p.ordinary c = true := by
  have h : ∀ d : Char, Text.isBlank d = false → c ≠ d := by
    rintro d hd rfl
    rw [hc] at hd
    cases hd
  have h₁ := h ',' (by decide)
  have h₂ := h '[' (by decide)
  have h₃ := h ']' (by decide)
  have h₄ := h '}' (by decide)
  cases p <;> simp [Place.ordinary, h₁, h₂, h₃, h₄]

/-- Blanks before an item belong to it. -/
theorem item_cons_of_isBlank {p : Place} {k : Nat} {c : Char} {t : List Char}
    (hc : Text.isBlank c = true) : Item p k (c :: t) ↔ Item p k t := by
  constructor
  · intro h
    generalize hx : c :: t = x at h
    cases h with
    | @quoted _ _ w q t' hw hq ht =>
      cases w with
      | nil =>
        obtain ⟨hq, -⟩ := hq
        simp only [List.nil_append, List.cons_append, List.cons.injEq] at hx
        rw [hx.1, not_isBlank_of_isQuote hq] at hc
        cases hc
      | cons b w =>
        simp only [List.cons_append, List.cons.injEq] at hx
        rw [hx.2]
        exact .quoted (Text.blanks_cons.mp hw).2 hq ht
    | plain ht hq =>
      subst hx
      rw [opensWithQuote_cons] at hq
      rcases run_cons_iff.mp ht with ⟨-, ht⟩ | ⟨rfl, -⟩
      · exact .plain ht fun h => hq (Or.inl ⟨hc, h⟩)
      · exact absurd hc (by decide)
  · intro h
    cases h with
    | @quoted _ _ w q t' hw hq ht => exact Item.quoted (Text.blanks_cons.mpr ⟨hc, hw⟩) hq ht
    | plain ht hq =>
      refine .plain (.char (ordinary_of_isBlank hc) ht) fun h => ?_
      rcases opensWithQuote_cons.mp h with ⟨-, h⟩ | h
      · exact hq h
      · rw [not_isBlank_of_isQuote h] at hc
        cases hc

/-- Before anything but a quote or a blank an item is a run. -/
theorem item_cons_of_ne {p : Place} {k : Nat} {c : Char} {t : List Char}
    (hq : Text.isQuote c = false) (hb : Text.isBlank c = false) :
    Item p k (c :: t) ↔ Run p k (c :: t) := by
  constructor
  · intro h
    generalize hx : c :: t = x at h
    cases h with
    | @quoted _ _ w q t' hw hq' ht =>
      obtain ⟨hq', -⟩ := hq'
      cases w with
      | nil =>
        simp only [List.nil_append, List.cons_append, List.cons.injEq] at hx
        rw [← hx.1, hq] at hq'
        cases hq'
      | cons b w =>
        simp only [List.cons_append, List.cons.injEq] at hx
        have := hw b (by simp)
        rw [← hx.1, hb] at this
        cases this
    | plain ht => exact ht
  · intro h
    refine .plain h fun h => ?_
    rw [opensWithQuote_cons, hq, hb] at h
    simp at h

/-! #### Contents -/

theorem content_nil (p : Place) (k : Nat) (fresh : Bool) : Content p k fresh [] := by
  cases fresh
  · exact Run.nil
  · exact Item.plain Run.nil (by simp [OpensWithQuote])

/-- Where an item begins, a quote opens a span. -/
theorem content_cons_of_isQuote {p : Place} {k : Nat} {c : Char} {t : List Char}
    (hc : Text.isQuote c = true) : Content p k true (c :: t) ↔ Through c (Content p k false) t :=
  item_cons_of_isQuote hc

/-- A bracket opens a group. -/
theorem content_cons_bracket {p : Place} {k : Nat} {fresh : Bool} {t : List Char} :
    Content p k fresh ('[' :: t) ↔ k ≤ maxListDepth ∧ Inside k true (Content p k false) t := by
  have hrun : Run p k ('[' :: t) ↔ k ≤ maxListDepth ∧ Inside k true (Run p k) t := by
    rw [run_cons_iff]
    cases p <;> simp [Place.ordinary]
  cases fresh
  · exact hrun
  · exact (item_cons_of_ne (by decide) (by decide)).trans hrun

/-- Any other character is ordinary; after a blank an item may still begin. -/
theorem content_cons_of_ordinary {p : Place} {k : Nat} {fresh : Bool} {c : Char} {t : List Char}
    (hq : fresh = true → Text.isQuote c = false) (hc : c ≠ '[') :
    Content p k fresh (c :: t) ↔
      p.ordinary c = true ∧ Content p k (fresh && Text.isBlank c) t := by
  have hrun : Run p k (c :: t) ↔ p.ordinary c = true ∧ Run p k t := by
    rw [run_cons_iff]
    simp [hc]
  cases fresh with
  | false => exact hrun
  | true =>
    cases hb : Text.isBlank c with
    | true =>
      have hord : p.ordinary c = true := ordinary_of_isBlank hb
      simpa [Content, hord] using item_cons_of_isBlank hb
    | false => exact (item_cons_of_ne (hq rfl) hb).trans hrun

/-! #### Groups -/

theorem elements_cons_iff {k : Nat} {c : Char} {t : List Char} :
    Elements k (c :: t) ↔
      c = ',' ∧ ∃ e es, t = e ++ es ∧ Item .element (k + 1) e ∧ Elements k es := by
  constructor
  · intro h
    generalize hx : c :: t = x at h
    cases h with
    | nil => cases hx
    | @cons _ e es he hes =>
      rw [List.cons.injEq] at hx
      exact ⟨hx.1, e, es, hx.2, he, hes⟩
  · rintro ⟨rfl, e, es, rfl, he, hes⟩
    exact .cons he hes

theorem not_inside_nil (k : Nat) (fresh : Bool) (P : List Char → Prop) : ¬Inside k fresh P [] := by
  rintro ⟨e, es, y, h, -⟩
  simp at h

/-- Inside a group the next character belongs to the element at hand, or it is the comma or the
bracket behind it. -/
theorem inside_cons_iff {k : Nat} {fresh : Bool} {P : List Char → Prop} {c : Char}
    {t : List Char} :
    Inside k fresh P (c :: t) ↔ (c = ']' ∧ P t) ∨ (c = ',' ∧ Inside k true P t) ∨
      ∃ e es y, t = e ++ (es ++ ']' :: y) ∧ Content .element (k + 1) fresh (c :: e) ∧
        Elements k es ∧ P y := by
  constructor
  · rintro ⟨e, es, y, h, he, hes, hy⟩
    cases e with
    | nil =>
      cases es with
      | nil =>
        simp only [List.nil_append, List.cons.injEq] at h
        exact Or.inl ⟨h.1, h.2 ▸ hy⟩
      | cons d es =>
        obtain ⟨rfl, e', es', rfl, he', hes'⟩ := elements_cons_iff.mp hes
        simp only [List.nil_append, List.cons_append, List.cons.injEq, List.append_assoc] at h
        exact Or.inr (Or.inl ⟨h.1, e', es', y, h.2, he', hes', hy⟩)
    | cons d e =>
      simp only [List.cons_append, List.cons.injEq] at h
      obtain ⟨rfl, rfl⟩ := h
      exact Or.inr (Or.inr ⟨e, es, y, rfl, he, hes, hy⟩)
  · rintro (⟨rfl, hy⟩ | ⟨rfl, e, es, y, rfl, he, hes, hy⟩ | ⟨e, es, y, rfl, he, hes, hy⟩)
    · exact ⟨[], [], t, rfl, content_nil _ _ _, .nil, hy⟩
    · exact ⟨[], ',' :: (e ++ es), y, by simp, content_nil _ _ _, .cons he hes, hy⟩
    · exact ⟨c :: e, es, y, rfl, he, hes, hy⟩

section

variable {k : Nat} {fresh : Bool} {P : List Char → Prop} {c : Char} {t : List Char}

/-- The closing bracket ends the group. -/
theorem inside_cons_close : Inside k fresh P (']' :: t) ↔ P t := by
  rw [inside_cons_iff]
  constructor
  · rintro (⟨-, h⟩ | ⟨h, -⟩ | ⟨e, es, y, -, he, -⟩)
    · exact h
    · cases h
    · have := ((content_cons_of_ordinary (fun _ => by decide) (by decide)).mp he).1
      cases this
  · intro h
    exact Or.inl ⟨rfl, h⟩

/-- A comma begins the next element. -/
theorem inside_cons_comma : Inside k fresh P (',' :: t) ↔ Inside k true P t := by
  rw [inside_cons_iff]
  constructor
  · rintro (⟨h, -⟩ | ⟨-, h⟩ | ⟨e, es, y, -, he, -⟩)
    · cases h
    · exact h
    · have := ((content_cons_of_ordinary (fun _ => by decide) (by decide)).mp he).1
      cases this
  · intro h
    exact Or.inr (Or.inl ⟨rfl, h⟩)

/-- Where an element begins, a quote opens a span. -/
theorem inside_cons_of_isQuote (hc : Text.isQuote c = true) :
    Inside k true P (c :: t) ↔ Through c (Inside k false P) t := by
  rw [inside_cons_iff]
  constructor
  · rintro (⟨rfl, -⟩ | ⟨rfl, -⟩ | ⟨e, es, y, rfl, he, hes, hy⟩)
    · cases hc
    · cases hc
    · obtain ⟨b, e, rfl, hb, he⟩ := (content_cons_of_isQuote hc).mp he
      exact ⟨b, e ++ (es ++ ']' :: y), by simp, hb, e, es, y, rfl, he, hes, hy⟩
  · rintro ⟨b, -, rfl, hb, e, es, y, rfl, he, hes, hy⟩
    exact Or.inr (Or.inr ⟨b ++ c :: e, es, y, by simp,
      (content_cons_of_isQuote hc).mpr ⟨b, e, rfl, hb, he⟩, hes, hy⟩)

/-- A bracket opens a group one level deeper. -/
theorem inside_cons_bracket :
    Inside k fresh P ('[' :: t) ↔
      k + 1 ≤ maxListDepth ∧ Inside (k + 1) true (Inside k false P) t := by
  rw [inside_cons_iff]
  constructor
  · rintro (⟨h, -⟩ | ⟨h, -⟩ | ⟨u, es, y, rfl, hu, hes, hy⟩)
    · cases h
    · cases h
    · obtain ⟨hk, e', es', y', rfl, he', hes', hy'⟩ := content_cons_bracket.mp hu
      exact ⟨hk, e', es', y' ++ (es ++ ']' :: y), by simp, he', hes', y', es, y, rfl, hy', hes, hy⟩
  · rintro ⟨hk, e', es', -, rfl, he', hes', y', es, y, rfl, hy', hes, hy⟩
    exact Or.inr (Or.inr ⟨e' ++ (es' ++ ']' :: y'), es, y, by simp,
      content_cons_bracket.mpr ⟨hk, e', es', y', rfl, he', hes', hy'⟩, hes, hy⟩)

/-- Any other character belongs to the element; after a blank the element may still begin. -/
theorem inside_cons_of_ordinary (hq : fresh = true → Text.isQuote c = false)
    (hc : Place.ordinary .element c = true) :
    Inside k fresh P (c :: t) ↔ Inside k (fresh && Text.isBlank c) P t := by
  have hne : c ≠ '[' ∧ c ≠ ']' ∧ c ≠ ',' := by
    refine ⟨?_, ?_, ?_⟩ <;> rintro rfl <;> cases hc
  rw [inside_cons_iff]
  constructor
  · rintro (⟨h, -⟩ | ⟨h, -⟩ | ⟨e, es, y, rfl, he, hes, hy⟩)
    · exact absurd h hne.2.1
    · exact absurd h hne.2.2
    · exact ⟨e, es, y, rfl, ((content_cons_of_ordinary hq hne.1).mp he).2, hes, hy⟩
  · rintro ⟨e, es, y, rfl, he, hes, hy⟩
    exact Or.inr (Or.inr ⟨e, es, y, rfl, (content_cons_of_ordinary hq hne.1).mpr ⟨hc, he⟩, hes, hy⟩)

end

/-! #### Values in progress -/

/-- The place of what stands inside `d` brackets. -/
def Place.inside : Nat → Place
  | 0 => .value
  | _ + 1 => .element

section

variable {d : Nat} {fresh : Bool} {c : Char} {t : List Char}

theorem closing_zero_nil : Closing 0 fresh [] :=
  content_nil _ _ _

theorem not_closing_succ_nil : ¬Closing (d + 1) fresh [] :=
  not_inside_nil _ _ _

theorem closing_cons_close : Closing (d + 1) fresh (']' :: t) ↔ Closing d false t :=
  inside_cons_close

theorem closing_cons_comma : Closing (d + 1) fresh (',' :: t) ↔ Closing (d + 1) true t :=
  inside_cons_comma

theorem closing_cons_of_isQuote (hc : Text.isQuote c = true) :
    Closing d true (c :: t) ↔ Through c (Closing d false) t := by
  cases d with
  | zero => exact content_cons_of_isQuote hc
  | succ d => exact inside_cons_of_isQuote hc

theorem closing_cons_bracket :
    Closing d fresh ('[' :: t) ↔ d + 1 ≤ maxListDepth ∧ Closing (d + 1) true t := by
  cases d with
  | zero => exact content_cons_bracket
  | succ d => exact inside_cons_bracket

theorem closing_cons_of_ordinary (hq : fresh = true → Text.isQuote c = false)
    (hc : (Place.inside d).ordinary c = true) :
    Closing d fresh (c :: t) ↔ Closing d (fresh && Text.isBlank c) t := by
  cases d with
  | zero =>
    have hne : c ≠ '[' := by
      rintro rfl
      cases hc
    rw [Closing, content_cons_of_ordinary hq hne]
    exact and_iff_right hc
  | succ d => exact inside_cons_of_ordinary hq hc

/-- As many closing brackets as are open complete a value. -/
theorem closing_replicate : Closing d fresh (List.replicate d ']') := by
  induction d generalizing fresh with
  | zero => exact closing_zero_nil
  | succ d ih =>
    rw [List.replicate_succ, closing_cons_close]
    exact ih

end

/-! ### Blanks behind an item -/

theorem run_append {p : Place} {k : Nat} {t u : List Char} (h : Run p k t) (hu : Run p k u) :
    Run p k (t ++ u) := by
  match h with
  | .nil => exact hu
  | .char hc ht => exact .char hc (run_append ht hu)
  | .group hg ht =>
    rw [List.append_assoc]
    exact .group hg (run_append ht hu)
termination_by structural h

theorem run_of_ordinary {p : Place} {k : Nat} {t : List Char}
    (h : ∀ c ∈ t, p.ordinary c = true) : Run p k t := by
  induction t with
  | nil => exact .nil
  | cons c t ih =>
    exact .char (h c (by simp)) (ih fun d hd => h d (List.mem_cons_of_mem _ hd))

theorem run_of_blanks {p : Place} {k : Nat} {w : List Char} (h : Blanks w) : Run p k w :=
  run_of_ordinary fun c hc => ordinary_of_isBlank (h c hc)

/-- A run with blanks behind it is a run without them. -/
theorem run_of_append_blanks {p : Place} {k : Nat} {x w : List Char} (h : Run p k x)
    (hw : Blanks w) : ∀ t, x = t ++ w → Run p k t := by
  match h with
  | .nil =>
    intro t hx
    rw [(List.append_eq_nil_iff.mp hx.symm).1]
    exact .nil
  | .char hc hr =>
    intro t hx
    cases t with
    | nil => exact .nil
    | cons d t =>
      rw [List.cons_append, List.cons.injEq] at hx
      rw [← hx.1]
      exact .char hc (run_of_append_blanks hr hw t hx.2)
  | .group hg hr =>
    intro t hx
    obtain ⟨hk, he, hes⟩ := hg
    -- The bracket that closes the group is no blank, so nothing of the group is cut off.
    rw [← List.cons_append] at hx
    obtain ⟨u, rfl, hr'⟩ := Text.exists_append_of_append_eq hw List.getLast?_concat (by decide) hx
    rw [List.cons_append]
    exact .group (.intro hk he hes) (run_of_append_blanks hr hw u hr')
termination_by structural h

/-- A character that stands for itself and is neither blank nor a quote is a value. -/
theorem isValue_singleton {c : Char} (hc : Place.ordinary .value c = true)
    (hb : Text.isBlank c = false) (hq : Text.isQuote c = false) : IsValue [c] where
  item := by
    rw [item_cons_of_ne hq hb]
    exact .char hc .nil
  ne_nil := List.cons_ne_nil _ _
  head d hd := by
    cases hd
    exact hb
  last d hd := by
    cases hd
    exact hb

theorem getLast?_of_isQuoted {q : List Char} (h : IsQuoted q) :
    ∃ c, q.getLast? = some c ∧ Text.isBlank c = false := by
  obtain ⟨hq, -⟩ := h
  rename_i c body
  refine ⟨c, ?_, not_isBlank_of_isQuote hq⟩
  rw [← List.cons_append, List.getLast?_concat]

theorem opensWithQuote_append_blanks {t w : List Char} (hw : Blanks w) :
    OpensWithQuote (t ++ w) ↔ OpensWithQuote t := by
  unfold OpensWithQuote
  rw [Text.head?_dropWhile_append_blanks hw]

/-- Blanks behind an item make no difference. -/
theorem item_append_blanks_iff {p : Place} {k : Nat} {t w : List Char} (hw : Blanks w) :
    Item p k (t ++ w) ↔ Item p k t := by
  constructor
  · intro h
    generalize hx : t ++ w = x at h
    cases h with
    | @quoted _ _ w₀ q r hw₀ hq hr =>
      obtain ⟨c, hlast, hc⟩ := getLast?_of_isQuoted hq
      have hlast' : (w₀ ++ q).getLast? = some c := by
        rw [List.getLast?_append, hlast, Option.some_or]
      obtain ⟨u, rfl, hr'⟩ := Text.exists_append_of_append_eq hw hlast' hc hx.symm
      exact .quoted hw₀ hq (run_of_append_blanks hr hw u hr')
    | plain hr hq =>
      refine .plain (run_of_append_blanks hr hw t hx.symm) fun h => hq ?_
      rw [← hx, opensWithQuote_append_blanks hw]
      exact h
  · intro h
    cases h with
    | quoted hw₀ hq hr =>
      rw [List.append_assoc]
      exact .quoted hw₀ hq (run_append hr (run_of_blanks hw))
    | plain hr hq =>
      refine .plain (run_append hr (run_of_blanks hw)) fun h => hq ?_
      rwa [opensWithQuote_append_blanks hw] at h

end Directive.Grammar
