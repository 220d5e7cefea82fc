import Directive.Proofs.Leading
import Directive.Proofs.Remainder

/-!
# The states inside a value

The state of the scanner inside a parameter value is a function of the characters of the value so
far: `ValueState.after` goes through them one by one.  Every value of a directive that can be
scanned was gone through in this way, from its first character to its last, without a character
that ends the value or nests too deep and without a quote left open at the end
(`Scanner.located_of_mem_tokens`).  Its token is what the scanner had read of it when it ended
(`Scanner.Completed`), without the blanks at its end.

Two things hold in every such state: what it waits for is a quote, and the brackets that are open
stand before its own offset.  So no bracket opens a second time: one that is open at the end of a
text was open all through it (`opened_suffix_of_mem`).

What is open at the end of a text was opened in it: a quote where an element was about to begin
(`exists_quote_of_after`), the outermost bracket where no list was open (`exists_bracket_of_after`).
-/

namespace Directive.ValueState

open Text (Blanks)

/-! ### States after a text -/

/-- The offset of the next character. -/
def pos (v : ValueState) : Nat :=
  v.start + Text.size v.read

/-- The state after the characters, each taken at its own offset. -/
def after (v : ValueState) (cs : List Char) : ValueState :=
  cs.foldl (fun v c => v.next v.pos c) v

section

variable {v : ValueState} {c : Char}

@[simp]
theorem after_nil : v.after [] = v :=
  rfl

@[simp]
theorem after_cons (cs : List Char) : v.after (c :: cs) = (v.next v.pos c).after cs :=
  rfl

theorem after_append (cs ds : List Char) : v.after (cs ++ ds) = (v.after cs).after ds :=
  List.foldl_append

theorem start_next (n : Nat) : (v.next n c).start = v.start :=
  (v.next_cases n c).1

theorem pos_next (n : Nat) : (v.next n c).pos = v.pos + c.utf8Size := by
  rw [pos, pos, start_next, Scanner.read_next, Text.size_cons]
  omega

theorem start_after (cs : List Char) : (v.after cs).start = v.start := by
  induction cs generalizing v with
  | nil => rfl
  | cons c cs ih => rw [after_cons, ih, start_next]

theorem read_after (cs : List Char) : (v.after cs).read = cs.reverse ++ v.read := by
  induction cs generalizing v with
  | nil => rfl
  | cons c cs ih => simp [ih, Scanner.read_next]

theorem pos_after (cs : List Char) : (v.after cs).pos = v.pos + Text.size cs := by
  induction cs generalizing v with
  | nil => rfl
  | cons c cs ih =>
    rw [after_cons, ih, pos_next, Text.size_cons]
    omega

/-! ### Single characters -/

/-- Inside a quoted span every character but the quote is passed over. -/
theorem next_of_quote {q : Char × Nat} (h : v.quote = some q) (n : Nat) :
    v.next n c =
      { v with read := c :: v.read, quote := if c = q.1 then none else v.quote } := by
  simp only [next, h]

theorem next_open (h : v.quote = none) (n : Nat) :
    v.next n '[' = { v with read := '[' :: v.read, opened := n :: v.opened, fresh := true } := by
  simp [next, h, Text.isQuote]

theorem next_comma (h : v.quote = none) (n : Nat) :
    v.next n ',' = { v with read := ',' :: v.read, fresh := true } := by
  simp [next, h, Text.isQuote]

theorem opened_next_subset (n : Nat) : (v.next n c).opened ⊆ n :: v.opened := by
  have hkept := List.subset_cons_self n v.opened
  obtain ⟨-, -, hkeep | ⟨-, -, hopen⟩ | hclose⟩ := v.next_cases n c
  · rw [hkeep]
    exact hkept
  · rw [hopen]
    exact List.Subset.refl _
  · rw [hclose]
    exact List.Subset.trans (List.drop_subset 1 v.opened) hkept

/-! ### Sound states -/

/-- What is waited for is a quote, and what is open stands before the next character. -/
structure Sound (v : ValueState) : Prop where
  isQuote : ∀ q, v.quote = some q → Text.isQuote q.1 = true
  lt_pos : ∀ p ∈ v.opened, p < v.pos

theorem sound_initial (n : Nat) : (initial n).Sound := by
  refine ⟨fun q h => ?_, fun p h => ?_⟩
  · cases h
  · cases h

theorem Sound.next (h : v.Sound) : (v.next v.pos c).Sound := by
  refine ⟨fun q hq => ?_, fun p hp => ?_⟩
  · rcases Scanner.quote_next hq with ⟨hv, -⟩ | ⟨hc, -, hquote⟩
    · exact h.isQuote q hv
    · exact hc ▸ hquote
  · have hpos := c.utf8Size_pos
    rw [pos_next]
    rcases List.mem_cons.mp (opened_next_subset _ hp) with rfl | hp
    · omega
    · have := h.lt_pos p hp
      omega

theorem Sound.after (h : v.Sound) (cs : List Char) : (v.after cs).Sound := by
  induction cs generalizing v with
  | nil => exact h
  | cons c cs ih => exact ih h.next

/-! ### Quotes -/

/-- A character that is no quote leaves a quoted span open. -/
theorem Sound.quote_eq_none_of_next (h : v.Sound) (hc : Text.isQuote c = false) {n : Nat}
    (hn : (v.next n c).quote = none) : v.quote = none := by
  cases hq : v.quote with
  | none => rfl
  | some q =>
    have hne : c ≠ q.1 := by
      rintro rfl
      rw [h.isQuote q hq] at hc
      cases hc
    rw [next_of_quote hq] at hn
    simp [hne, hq] at hn

/-- Blanks leave a state as it was, but for what has been read. -/
theorem Sound.next_blank (h : v.Sound) (hc : Text.isBlank c = true) (n : Nat) :
    v.next n c = { v with read := c :: v.read } := by
  have hne : ∀ d, Text.isBlank d = false → c ≠ d := by
    rintro d hd rfl
    rw [hc] at hd
    cases hd
  have hquote : Text.isQuote c = false := by
    rw [Bool.eq_false_iff]
    intro hq
    rw [Grammar.not_isBlank_of_isQuote hq] at hc
    cases hc
  cases hq : v.quote with
  | some q =>
    rw [next_of_quote hq, if_neg (hne q.1 (Grammar.not_isBlank_of_isQuote (h.isQuote q hq))), hq]
  | none =>
    have hopen : c ≠ '[' := hne '[' (by decide)
    have hclose : c ≠ ']' := hne ']' (by decide)
    have hcomma : c ≠ ',' := hne ',' (by decide)
    simp [ValueState.next, hq, hquote, hopen, hclose, hcomma, hc]

/-- States that differ only in what has been read. -/
structure Alike (v u : ValueState) : Prop where
  opened : u.opened = v.opened
  fresh : u.fresh = v.fresh
  quote : u.quote = v.quote

theorem Sound.alike_blanks (h : v.Sound) {w : List Char} (hw : Blanks w) :
    Alike v (v.after w) := by
  induction w generalizing v with
  | nil => exact ⟨rfl, rfl, rfl⟩
  | cons c w ih =>
    obtain ⟨hc, hw⟩ := Text.blanks_cons.mp hw
    have hnext := h.next_blank hc v.pos
    have hrest := ih (h.next (c := c)) hw
    rw [hnext] at hrest
    rw [after_cons, hnext]
    exact ⟨hrest.opened, hrest.fresh, hrest.quote⟩

/-- A quote that is not waited for any more at the end of a text occurs in it. -/
theorem mem_of_quote {q : Char × Nat} {cs : List Char} (h : v.quote = some q)
    (hcs : (v.after cs).quote = none) : q.1 ∈ cs := by
  induction cs generalizing v with
  | nil =>
    rw [after_nil, h] at hcs
    cases hcs
  | cons c cs ih =>
    by_cases hc : c = q.1
    · exact hc ▸ List.mem_cons_self
    · have hnext : (v.next v.pos c).quote = some q := by
        rw [next_of_quote h, if_neg hc]
        exact h
      exact List.mem_cons_of_mem _ (ih hnext hcs)

/-! ### Brackets -/

/-- A bracket that is not open does not become so, unless it is met again. -/
theorem not_mem_opened_after {p : Nat} (hp : p < v.pos) (h : p ∉ v.opened) (cs : List Char) :
    p ∉ (v.after cs).opened := by
  induction cs generalizing v with
  | nil => exact h
  | cons c cs ih =>
    refine ih ?_ fun hm => ?_
    · rw [pos_next]
      omega
    · rcases List.mem_cons.mp (opened_next_subset _ hm) with rfl | hm
      · omega
      · exact h hm

/-- A bracket that is open at the end of a text was open all through it, and so were those around
it. -/
theorem opened_suffix_of_mem {p : Nat} {pre post : List Char} {o : List Nat} (hp : p < v.pos)
    (ho : p ∉ o) (hv : p :: o <:+ v.opened) (h : p ∈ (v.after (pre ++ post)).opened) :
    p :: o <:+ (v.after pre).opened := by
  induction pre generalizing v with
  | nil => exact hv
  | cons c pre ih =>
    have hlt : p < (v.next v.pos c).pos := by
      rw [pos_next]
      omega
    refine ih hlt ?_ h
    obtain ⟨-, -, hkeep | ⟨-, -, hopen⟩ | hclose⟩ := v.next_cases v.pos c
    · rw [hkeep]
      exact hv
    · rw [hopen]
      exact hv.trans (List.suffix_cons _ _)
    · cases hopened : v.opened with
      | nil =>
        rw [hopened, List.suffix_nil] at hv
        cases hv
      | cons x opened =>
        rw [hopened, List.drop_one, List.tail_cons] at hclose
        rw [hopened] at hv
        rw [hclose]
        rcases List.suffix_cons_iff.mp hv with heq | hsuffix
        · -- the bracket itself is closed, and never open again
          obtain ⟨-, rfl⟩ := List.cons.inj heq
          rw [List.cons_append, after_cons] at h
          exact absurd h (not_mem_opened_after hlt (hclose ▸ ho) _)
        · exact hsuffix

/-! ### Characters of a value -/

/-- Every character of the text goes on with the value: none ends it, and none nests too deep. -/
def Admits (v : ValueState) (cs : List Char) : Prop :=
  ∀ pre d post, cs = pre ++ d :: post →
    (v.after pre).ends d = false ∧ (v.after pre).overflows d = false

theorem admits_nil : v.Admits [] := by
  intro pre d post h
  cases pre <;> cases h

theorem Admits.concat {cs : List Char} (h : v.Admits cs) (he : (v.after cs).ends c = false)
    (ho : (v.after cs).overflows c = false) : v.Admits (cs ++ [c]) := by
  intro pre d post heq
  rcases List.eq_nil_or_concat post with rfl | ⟨post, e, rfl⟩
  · obtain ⟨rfl, hd⟩ := List.append_inj' heq rfl
    obtain rfl := (List.cons.inj hd).1
    exact ⟨he, ho⟩
  · rw [List.concat_eq_append, ← List.cons_append, ← List.append_assoc] at heq
    exact h pre d post (List.append_inj' heq rfl).1

theorem Admits.left {cs ds : List Char} (h : v.Admits (cs ++ ds)) : v.Admits cs := by
  rintro pre d post rfl
  exact h pre d (post ++ ds) (by simp)

theorem Admits.right {cs ds : List Char} (h : v.Admits (cs ++ ds)) : (v.after cs).Admits ds := by
  rintro pre d post rfl
  rw [← after_append]
  exact h (cs ++ pre) d post (by simp)

/-! ### Where the elements begin -/

/-- An element begins in an open list, or where nothing but blanks stands before it. -/
def Settled (v : ValueState) : Prop :=
  v.fresh = true → v.quote = none ∧ (v.opened ≠ [] ∨ Blanks v.read)

theorem settled_initial (n : Nat) : (initial n).Settled :=
  fun _ => ⟨rfl, Or.inr Text.blanks_nil⟩

theorem Settled.next (h : v.Settled) (he : v.ends c = false) (n : Nat) : (v.next n c).Settled := by
  intro hfresh
  cases hq : v.quote with
  | some q =>
    -- behind the quote that opens a span no element begins
    rw [next_of_quote hq] at hfresh
    have hnone := (h hfresh).1
    rw [hq] at hnone
    cases hnone
  | none =>
    simp only [ValueState.next, hq] at hfresh ⊢
    split_ifs at hfresh ⊢ with hquote hopen hclose hcomma hblank
    · exact ⟨rfl, Or.inl (List.cons_ne_nil _ _)⟩
    · -- outside of brackets a comma ends the value
      have hopened : v.opened ≠ [] := by simpa [ends, hq, hcomma] using he
      exact ⟨rfl, Or.inl hopened⟩
    · obtain ⟨-, hopened | hread⟩ := h hfresh
      · exact ⟨rfl, Or.inl hopened⟩
      · exact ⟨rfl, Or.inr (Text.blanks_cons.mpr ⟨hblank, hread⟩)⟩

theorem Settled.after {cs : List Char} (h : v.Settled) (hcs : v.Admits cs) :
    (v.after cs).Settled := by
  induction cs generalizing v with
  | nil => exact h
  | cons c cs ih =>
    have hends : v.ends c = false := (hcs [] c cs rfl).1
    have hrest : (v.after [c]).Admits cs := Admits.right hcs
    exact ih (h.next hends v.pos) hrest

/-! ### What is open -/

theorem quote_next_of_none (h : v.quote = none) (n : Nat) :
    (v.next n c).quote = if v.fresh && Text.isQuote c then some (c, n) else none := by
  simp only [next, h]
  split_ifs <;> rfl

theorem pos_after_initial (n : Nat) (cs : List Char) :
    ((initial n).after cs).pos = n + Text.size cs := by
  rw [pos_after]
  rfl

/-- The quote that opened a span stands where an element was about to begin. -/
theorem exists_quote_of_after {n m : Nat} {q : Char} {t : List Char}
    (h : ((initial n).after t).quote = some (q, m)) : ∃ pre post, t = pre ++ q :: post ∧
      m = n + Text.size pre ∧ Text.isQuote q = true ∧ ((initial n).after pre).fresh = true := by
  induction t using List.reverseRecOn with
  | nil => cases h
  | append_singleton t c ih =>
    rw [after_append, after_cons, after_nil] at h
    cases hv : ((initial n).after t).quote with
    | some x =>
      rw [next_of_quote hv] at h
      dsimp only at h
      split_ifs at h
      obtain ⟨pre, post, rfl, hm, hq, hfresh⟩ := ih h
      exact ⟨pre, post ++ [c], by simp, hm, hq, hfresh⟩
    | none =>
      rw [quote_next_of_none hv] at h
      split_ifs at h with hopens
      obtain ⟨rfl, rfl⟩ := Prod.mk.inj (Option.some.inj h)
      obtain ⟨hfresh, hq⟩ := Bool.and_eq_true_iff.mp hopens
      exact ⟨t, [], rfl, pos_after_initial n t, hq, hfresh⟩

/-- The outermost bracket that is open stands where none was. -/
theorem exists_bracket_of_after {n o : Nat} {t : List Char}
    (h : ((initial n).after t).opened.getLast? = some o) : ∃ pre post, t = pre ++ '[' :: post ∧
      o = n + Text.size pre ∧ ((initial n).after pre).opened = [] := by
  induction t using List.reverseRecOn with
  | nil => cases h
  | append_singleton t c ih =>
    have hbefore : ((initial n).after t).opened.getLast? = some o → ∃ pre post,
        t ++ [c] = pre ++ '[' :: post ∧ o = n + Text.size pre ∧
          ((initial n).after pre).opened = [] := by
      intro hlast
      obtain ⟨pre, post, rfl, ho, hpre⟩ := ih hlast
      exact ⟨pre, post ++ [c], by simp, ho, hpre⟩
    rw [after_append, after_cons, after_nil] at h
    obtain ⟨-, -, hkeep | ⟨-, rfl, hopen⟩ | hclose⟩ :=
      ((initial n).after t).next_cases ((initial n).after t).pos c
    · rw [hkeep] at h
      exact hbefore h
    · rw [hopen] at h
      cases hopened : ((initial n).after t).opened with
      | nil =>
        rw [hopened, List.getLast?_singleton, pos_after_initial] at h
        exact ⟨t, [], rfl, (Option.some.inj h).symm, hopened⟩
      | cons p ps =>
        rw [hopened, List.getLast?_cons_cons] at h
        exact hbefore (hopened ▸ h)
    · rw [hclose, List.drop_one] at h
      refine hbefore ?_
      cases hopened : ((initial n).after t).opened with
      | nil =>
        rw [hopened] at h
        cases h
      | cons p ps =>
        rw [hopened, List.tail_cons] at h
        rw [List.getLast?_cons, h]
        rfl

end

end Directive.ValueState

namespace Directive

open Text (Blanks)

namespace Scanner

/-! ### Values of a directive -/

/-- Behind the text `before`, the scanner goes through `t` as (the beginning of) a value. -/
structure Traced (extent : Extent) (before t : List Char) : Prop where
  admits : (ValueState.initial (Text.size before)).Admits t
  reached : ∀ pre post, t = pre ++ post → pre ≠ [] → ∃ s, Reached extent (before ++ pre) s ∧
    s.part = .value ((ValueState.initial (Text.size before)).after pre)

variable {extent : Extent} {cs : List Char} {s : Scanner}

theorem traced_nil (extent : Extent) (before : List Char) : Traced extent before [] :=
  ⟨ValueState.admits_nil, fun _ _ h hne => absurd (List.append_eq_nil_iff.mp h.symm).1 hne⟩

theorem Traced.of_append {before t u : List Char} (h : Traced extent before (t ++ u)) :
    Traced extent before t := by
  refine ⟨h.admits.left, ?_⟩
  rintro pre post rfl hne
  exact h.reached pre (post ++ u) (List.append_assoc pre post u) hne

/-- One character further. -/
theorem Traced.concat {before t : List Char} {c : Char} {v : ValueState}
    (h : Traced extent before t) (hv : v = (ValueState.initial (Text.size before)).after t)
    (he : v.ends c = false) (ho : v.overflows c = false)
    (hs : Reached extent (before ++ (t ++ [c])) s) (hp : s.part = .value (v.next v.pos c)) :
    Traced extent before (t ++ [c]) := by
  subst hv
  refine ⟨h.admits.concat he ho, fun pre post heq hne => ?_⟩
  rcases List.eq_nil_or_concat post with rfl | ⟨post, d, rfl⟩
  · rw [List.append_nil] at heq
    refine ⟨s, heq ▸ hs, ?_⟩
    rw [hp, ← heq, ValueState.after_append]
    rfl
  · rw [List.concat_eq_append, ← List.append_assoc] at heq
    exact h.reached pre post (List.append_inj' heq rfl).1 hne

/-- A state inside a value was reached through the value. -/
theorem Reached.exists_traced {v : ValueState} (h : Reached extent cs s) (hp : s.part = .value v) :
    ∃ before t, cs = before ++ t ∧ v = (ValueState.initial (Text.size before)).after t ∧
      Traced extent before t := by
  induction h generalizing v with
  | start => cases hp
  | @move cs ts es n p p' c h hm ih =>
    obtain rfl : p' = .value v := hp
    have hmove := h.move hm
    have hn : n = Text.size cs := h.pos_eq
    -- only the move that begins a value and those inside it lead into one
    cases hm with
    | valueStart hb hcomma hbrace =>
      refine ⟨cs, [c], rfl, by simp [hn, ValueState.pos, ValueState.initial, Text.size_nil], ?_⟩
      refine (traced_nil extent cs).concat (s := ⟨ts, n + c.utf8Size, .value _⟩) rfl ?_ ?_ hmove ?_
      · exact ValueState.ends_initial hcomma hbrace
      · exact ValueState.overflows_initial _ c
      · simp [hn, ValueState.pos, ValueState.initial, Text.size_nil]
    | @valueChar v _ he ho =>
      obtain ⟨before, t, rfl, hv, ht⟩ := ih rfl
      have hpos : n = v.pos := by
        rw [hn, hv, ValueState.pos_after, Text.size_append]
        rfl
      rw [List.append_assoc] at hmove ⊢
      refine ⟨before, t ++ [c], rfl, ?_, ht.concat hv he ho hmove (by rw [hpos])⟩
      rw [ValueState.after_append, ← hv, hpos]
      rfl

/-- The first character of a value is no blank. -/
theorem Reached.exists_head {v : ValueState} (h : Reached extent cs s) (hp : s.part = .value v) :
    ∃ t c, v.read = t ++ [c] ∧ Text.isBlank c = false := by
  induction h generalizing v with
  | start => cases hp
  | @move cs ts es n p p' c h hm ih =>
    obtain rfl : p' = .value v := hp
    cases hm with
    | valueStart hb => exact ⟨[], c, read_next _ _ _, hb⟩
    | valueChar =>
      obtain ⟨t, d, hread, hd⟩ := ih rfl
      exact ⟨c :: t, d, by rw [read_next, hread, List.cons_append], hd⟩

theorem Traced.isBlank_head {before t : List Char} {c : Char}
    (h : Traced extent before (c :: t)) : Text.isBlank c = false := by
  obtain ⟨s, hs, hp⟩ := h.reached [c] t rfl (List.cons_ne_nil _ _)
  obtain ⟨u, d, hread, hd⟩ := hs.exists_head hp
  have hone : [] ++ [c] = u ++ [d] := (ValueState.read_after [c]).symm.trans hread
  obtain ⟨-, hlast⟩ := List.append_inj' hone rfl
  obtain rfl := (List.cons.inj hlast).1
  exact hd

/-! ### Value tokens -/

/-- The token is the value that the scanner is in at the end of a beginning of the text, where no
quote is open. -/
def Completed (extent : Extent) (cs : List Char) (token : Token) : Prop :=
  ∃ pre rest s v, cs = pre ++ rest ∧ Reached extent pre s ∧ s.part = .value v ∧ v.quote = none ∧
    token = Token.ofChars .paramValue v.start v.chars

theorem Completed.append {token : Token} (h : Completed extent cs token) (rest : List Char) :
    Completed extent (cs ++ rest) token := by
  obtain ⟨pre, rest', s, v, rfl, hs⟩ := h
  exact ⟨pre, rest' ++ rest, s, v, List.append_assoc _ _ _, hs⟩

/-- The extent makes no difference inside a value. -/
theorem Completed.of_extent {extent' : Extent} {token : Token} (h : Completed extent cs token) :
    Completed extent' cs token := by
  obtain ⟨pre, rest, s, v, hcs, hs, hp, hv⟩ := h
  refine ⟨pre, rest, s, v, hcs, hs.of_extent fun hc => ?_, hp, hv⟩
  rw [hp] at hc
  cases hc

/-- A move that completes a value ends it. -/
theorem Move.exists_ends {n : Nat} {p p' : Part} {c : Char} {es : List Token} {token : Token}
    (h : Move extent n p c es p') (ht : token ∈ es) (hk : token.kind = .paramValue) :
    ∃ v, p = .value v ∧ v.ends c = true ∧ token = Token.ofChars .paramValue v.start v.chars := by
  cases h with
  | valueComma he =>
    rcases List.mem_cons.mp ht with rfl | ht
    · cases hk
    · exact ⟨_, rfl, he, List.mem_singleton.mp ht⟩
  | valueClose _ he =>
    rcases List.mem_cons.mp ht with rfl | ht
    · cases hk
    · exact ⟨_, rfl, he, List.mem_singleton.mp ht⟩
  -- every other move completes at most two tokens, and none of them is a value
  | _ => rcases ht with _ | ⟨_, _ | ⟨_, ⟨⟩⟩⟩ <;> cases hk

/-- The values that have been read are complete. -/
theorem Reached.completed_of_mem_tokens {token : Token} (h : Reached extent cs s)
    (ht : token ∈ s.tokens) (hk : token.kind = .paramValue) : Completed extent cs token := by
  induction h with
  | start =>
    obtain rfl := List.mem_singleton.mp ht
    cases hk
  | @move cs ts es n p p' c h hm ih =>
    rcases List.mem_append.mp ht with ht | ht
    · obtain ⟨v, rfl, he, htoken⟩ := hm.exists_ends ht hk
      exact ⟨cs, [c], _, v, rfl, h, rfl, (ValueState.ends_iff.mp he).1, htoken⟩
    · exact (ih ht).append [c]

/-- A whole text does not end where a quote is open. -/
theorem quote_eq_none_of_finish {ts : List Token} {n m : Nat} {v : ValueState}
    (h : (finish .whole ⟨ts, n, .value v⟩).outcome = .ok m) : v.quote = none := by
  cases hq : v.quote with
  | none => rfl
  | some q =>
    simp only [finish, hq] at h
    cases h

/-- Every value of a directive that can be scanned as a whole is complete. -/
theorem completed_of_whole {token : Token} {n : Nat} (h : (Scan.ofChars .whole cs).outcome = .ok n)
    (ht : token ∈ (Scan.ofChars .whole cs).tokens) (hk : token.kind = .paramValue) :
    Completed .whole cs token := by
  obtain ⟨ts, es, p, hs, hp, hscan⟩ := exists_complete_of_ok h
  rw [hs.ofChars_eq] at h
  rw [hscan] at ht
  rcases List.mem_append.mp (List.mem_reverse.mp ht) with ht | ht
  · cases hp with
    | value =>
      exact ⟨cs, [], _, _, (List.append_nil cs).symm, hs, rfl, quote_eq_none_of_finish h,
        List.mem_singleton.mp ht⟩
    | nothing => cases ht
    | _ =>
      obtain rfl := List.mem_singleton.mp ht
      cases hk
  · exact hs.completed_of_mem_tokens ht hk

/-- Every value of a directive that can be scanned is complete. -/
theorem completed_of_mem_tokens {token : Token} {n : Nat}
    (h : (Scan.ofChars extent cs).outcome = .ok n) (ht : token ∈ (Scan.ofChars extent cs).tokens)
    (hk : token.kind = .paramValue) : Completed extent cs token := by
  cases extent with
  | whole => exact completed_of_whole h ht hk
  | leading =>
    obtain ⟨src, rest, rfl, -, -, hscan⟩ := exists_whole_of_leading h
    rw [← hscan] at h ht
    exact (completed_of_whole h ht hk).of_extent.append rest

/-! ### Where values stand -/

/-- The text of the token is a value in `cs` that the scanner went through, and no quote is open
behind it. -/
def Located (extent : Extent) (cs : List Char) (token : Token) : Prop :=
  ∃ before rest, cs = before ++ (token.text.toList ++ rest) ∧
    token.span.start = Text.size before ∧ Traced extent before token.text.toList ∧
    ((ValueState.initial (Text.size before)).after token.text.toList).quote = none

/-- A value ends outside of quotes, and the blanks at its end are left out.  They are no quotes, so
neither is one open in front of them. -/
theorem Completed.located {token : Token} (h : Completed extent cs token) :
    Located extent cs token := by
  obtain ⟨pre, rest, s, v, rfl, hs, hp, hq, rfl⟩ := h
  obtain ⟨before, t, rfl, hv, ht⟩ := hs.exists_traced hp
  have hread : v.read.reverse = t := by
    rw [hv, ValueState.read_after]
    simp [ValueState.initial]
  obtain ⟨w, hw, hchars⟩ := Text.exists_trimEnd_append t
  have htext : (Token.ofChars .paramValue v.start v.chars).text.toList = Text.trimEnd t := by
    rw [Token.ofChars, ValueState.chars, hread, String.toList_ofList]
  have hsound := (ValueState.sound_initial (Text.size before)).after (Text.trimEnd t)
  refine ⟨before, w ++ rest, ?_, ?_, ?_, ?_⟩
  · rw [htext, List.append_assoc, ← List.append_assoc (Text.trimEnd t), ← hchars]
  · rw [hv, ValueState.start_after]
    rfl
  · rw [htext]
    rw [hchars] at ht
    exact ht.of_append
  · rw [htext, ← (hsound.alike_blanks hw).quote, ← ValueState.after_append, ← hchars, ← hv, hq]

/-- Every value of a directive that can be scanned is where it was read. -/
theorem located_of_mem_tokens {token : Token} {n : Nat}
    (h : (Scan.ofChars extent cs).outcome = .ok n) (ht : token ∈ (Scan.ofChars extent cs).tokens)
    (hk : token.kind = .paramValue) : Located extent cs token :=
  (completed_of_mem_tokens h ht hk).located

end Scanner

end Directive
