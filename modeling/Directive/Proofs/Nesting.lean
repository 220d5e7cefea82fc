import Directive.Proofs.Inversion
import Directive.Proofs.ValueStates

/-!
# Lists as they are scanned and as they are coerced

The scanner keeps the brackets that are open in a value and ends the value at the first comma
outside of them.  Coercion, later, takes a pair of brackets off the trimmed text, splits what is
inside with a counter of its own that never falls below zero, and goes on with every element.  The
two agree (`Token.lists_agree`): quotes are recognised at the same places, a comma that splits a
list stands at the depth of that list for the scanner, and an element is never nested deeper than
the scanner allows, so that the limit of coercion makes no difference.

They keep different counts where a text closes more brackets than it opens, or goes on behind the
bracket that matches its first one.  What carries the proof is the lowest depth since the beginning
of a list.  `Agree m v s` relates the states while that depth is `m`; `Undivided m v cs` says that
every comma of the text stands deeper than the lowest depth before it, as it does in the text of one
element; and inside the brackets of such a text the depth has not yet fallen where a comma splits
(`Agree.piece_of_later`).
-/

namespace Directive

open Text (Blanks)

namespace Value

/-! ### Elements and what stands around them -/

/-- The elements, each with the comma behind it. -/
def leading (es : List (List Char)) : List Char :=
  es.flatMap fun e => e ++ [',']

/-- The elements, each with the comma in front of it. -/
def trailing (es : List (List Char)) : List Char :=
  es.flatMap fun e => ',' :: e

theorem joined_cons (e : List Char) (es : List (List Char)) :
    joined (e :: es) = e ++ trailing es := by
  induction es generalizing e with
  | nil => exact (List.append_nil e).symm
  | cons e' es ih =>
    rw [joined, ih]
    rfl

theorem joined_append_cons (before : List (List Char)) (e : List Char) (after : List (List Char)) :
    joined (before ++ e :: after) = leading before ++ (e ++ trailing after) := by
  induction before with
  | nil => exact joined_cons e after
  | cons d before ih =>
    have hne : ∃ x xs, before ++ e :: after = x :: xs := by
      cases before with
      | nil => exact ⟨_, _, rfl⟩
      | cons x xs => exact ⟨_, _, rfl⟩
    obtain ⟨x, xs, hx⟩ := hne
    rw [List.cons_append, hx, joined, ← hx, ih]
    simp [leading]

/-- An element stands between the elements before it and those after it. -/
theorem eq_of_elements_eq {inner e : List Char} {before after : List (List Char)}
    (h : elements inner = before ++ e :: after) :
    inner = leading before ++ (e ++ trailing after) := by
  rw [← joined_elements inner, h, joined_append_cons]

/-! ### Coercion without a limit -/

theorem length_le_of_mem_elements {inner e : List Char} (h : e ∈ elements inner) :
    e.length ≤ inner.length := by
  obtain ⟨before, after, h⟩ := List.append_of_mem h
  rw [eq_of_elements_eq h]
  simp only [List.length_append]
  omega

theorem length_trim_le (cs : List Char) : (Text.trim cs).length ≤ cs.length := by
  obtain ⟨w₁, w₂, -, -, h⟩ := Text.exists_append_trim_append cs
  have := congrArg List.length h
  simp only [List.length_append] at this
  omega

/-- The value of raw text in which lists may nest as deep as they like. -/
def coerceFreely (raw : List Char) : Value :=
  match scalarOfText? (Text.trim raw) with
  | some v => v
  | none =>
    match _h : unbracket? (Text.trim raw) with
    | none => .string (String.ofList (Text.trim raw))
    | some inner =>
      if (Text.trim inner).isEmpty then .list []
      else .list ((elements inner).attach.map fun e => coerceFreely e.1)
termination_by raw.length
decreasing_by
  have hinner := congrArg List.length (eq_of_unbracket? _h)
  have htrim := length_trim_le raw
  have he := length_le_of_mem_elements e.2
  simp only [List.length_cons, List.length_append, List.length_nil] at hinner
  omega

theorem coerceFreely_of_scalar {raw : List Char} {v : Value}
    (h : scalarOfText? (Text.trim raw) = some v) : coerceFreely raw = v := by
  rw [coerceFreely, h]

theorem coerceFreely_of_text {raw : List Char} (hs : scalarOfText? (Text.trim raw) = none)
    (hb : unbracket? (Text.trim raw) = none) :
    coerceFreely raw = .string (String.ofList (Text.trim raw)) := by
  rw [coerceFreely, hs]
  dsimp only
  split
  · rfl
  · rename_i heq
    rw [hb] at heq
    cases heq

theorem coerceFreely_of_bracket {raw inner : List Char} (hs : scalarOfText? (Text.trim raw) = none)
    (hb : unbracket? (Text.trim raw) = some inner) :
    coerceFreely raw = if (Text.trim inner).isEmpty then .list []
      else .list ((elements inner).map coerceFreely) := by
  rw [coerceFreely, hs]
  dsimp only
  split
  · rename_i heq
    rw [hb] at heq
    cases heq
  · rename_i inner' heq
    obtain rfl := Option.some.inj (hb.symm.trans heq)
    rw [List.attach_map_val]

/-! ### The two states -/

/-- The state of the splitting against the state of the scanner, when the lowest depth since the
beginning of the list is `m`. -/
structure Agree (m : Nat) (v : ValueState) (s : ElementState) : Prop where
  fresh : s.fresh = v.fresh
  quote : s.quote = v.quote.map Prod.fst
  depth : s.depth + m = v.opened.length

variable {m : Nat} {v : ValueState} {s : ElementState} {c : Char}

theorem agree_start (hf : v.fresh = true) (hq : v.quote = none) :
    Agree v.opened.length v .start :=
  ⟨hf.symm, by rw [hq]; rfl, Nat.zero_add _⟩

/-- A character leads from states that agree to states that agree, if the quote of a span that
begins here occurs again. -/
theorem Agree.next (h : Agree m v s) {cs : List Char} (n : Nat)
    (hquote : v.quote = none → v.fresh = true → Text.isQuote c = true → c ∈ cs) :
    Agree (min m (v.next n c).opened.length) (v.next n c) (s.next c cs) := by
  obtain ⟨start, read, opened, fresh, quote⟩ := v
  obtain ⟨depth, fresh', quote'⟩ := s
  obtain ⟨hfresh, hq, hdepth⟩ := h
  dsimp only at hfresh hq hdepth hquote
  subst hfresh hq
  cases quote with
  | some q =>
    refine ⟨rfl, ?_, ?_⟩
    · simp only [ElementState.next, ValueState.next, Option.map_some]
      split_ifs <;> rfl
    · simp only [ElementState.next, ValueState.next, Option.map_some]
      omega
  | none =>
    simp only [ElementState.next, ValueState.next, Option.map_none]
    by_cases hopens : (fresh' && Text.isQuote c) = true
    · obtain ⟨hf, hc⟩ := Bool.and_eq_true_iff.mp hopens
      rw [if_pos hopens, if_pos hopens, if_pos (List.contains_iff_mem.mpr (hquote rfl hf hc))]
      exact ⟨rfl, rfl, by dsimp only; omega⟩
    rw [if_neg hopens, if_neg hopens]
    by_cases hopen : c = '['
    · rw [if_pos hopen, if_pos hopen]
      exact ⟨rfl, rfl, by simp only [List.length_cons]; omega⟩
    rw [if_neg hopen, if_neg hopen]
    -- at a closing bracket the scanner asks first whether one is open
    by_cases hclose : c = ']'
    · subst hclose
      cases opened with
      | nil =>
        -- one that closes nothing is an ordinary character, and the counter stays at zero
        have hzero : depth = 0 ∧ m = 0 := by simpa using hdepth
        refine ⟨?_, ?_, ?_⟩ <;> simp [hzero, Text.isBlank]
      | cons x opened =>
        rw [List.length_cons] at hdepth
        refine ⟨rfl, rfl, ?_⟩
        simp
        omega
    have hclose' : ¬(decide (c = ']') && !opened.isEmpty) = true := by simp [hclose]
    rw [if_neg hclose, if_neg hclose']
    split_ifs
    all_goals exact ⟨rfl, rfl, by dsimp only; omega⟩

/-- The splitting cuts at the commas outside of quotes that stand at the lowest depth. -/
theorem Agree.splits_iff (h : Agree m v s) :
    s.splits c = true ↔ v.quote = none ∧ c = ',' ∧ v.opened.length = m := by
  have hdepth := h.depth
  rw [ElementState.splits, Bool.and_eq_true, Bool.and_eq_true, h.quote, Option.isNone_map,
    Option.isNone_iff_eq_none, beq_iff_eq, beq_iff_eq, and_assoc]
  refine and_congr_right fun _ => and_congr_right fun _ => ?_
  omega

/-- A quote that opens a span which is closed later occurs again. -/
theorem mem_of_opens {cs : List Char} (h : (v.after (c :: cs)).quote = none) (hq : v.quote = none)
    (hf : v.fresh = true) (hc : Text.isQuote c = true) : c ∈ cs := by
  have hnext : (v.next v.pos c).quote = some (c, v.pos) := by
    simp [ValueState.next, hq, hf, hc]
  exact ValueState.mem_of_quote hnext h

/-! ### Texts that are not divided -/

/-- From state `v` on, every comma outside of quotes stands deeper than the lowest depth before it,
where `m` is the lowest so far. -/
def Undivided (m : Nat) (v : ValueState) : List Char → Prop
  | [] => True
  | c :: cs =>
    (v.quote = none → c = ',' → m < v.opened.length) ∧
      Undivided (min m (v.next v.pos c).opened.length) (v.next v.pos c) cs

theorem Undivided.left {cs ds : List Char} (h : Undivided m v (cs ++ ds)) : Undivided m v cs := by
  induction cs generalizing m v with
  | nil => trivial
  | cons c cs ih => exact ⟨h.1, ih h.2⟩

/-- Blanks at the beginning make no difference. -/
theorem Undivided.of_blanks {w cs : List Char} (h : Undivided m v (w ++ cs)) (hv : v.Sound)
    (hm : m ≤ v.opened.length) (hw : Blanks w) : Undivided m (v.after w) cs := by
  induction w generalizing v with
  | nil => exact h
  | cons c w ih =>
    obtain ⟨hc, hw⟩ := Text.blanks_cons.mp hw
    have hopened : (v.next v.pos c).opened = v.opened := by rw [hv.next_blank hc]
    have hrest := h.2
    rw [hopened, min_eq_left hm] at hrest
    exact ih hrest hv.next (hopened ▸ hm) hw

/-- A text in which no comma ends the value is not divided at the depth of the value. -/
theorem undivided_of_admits {cs : List Char} (h : v.Admits cs) : Undivided 0 v cs := by
  induction cs generalizing v with
  | nil => trivial
  | cons c cs ih =>
    refine ⟨?_, ?_⟩
    · rintro hq rfl
      have hends := (h [] ',' cs rfl).1
      rw [ValueState.after_nil, ValueState.ends, hq] at hends
      cases hopened : v.opened with
      | nil => simp [hopened] at hends
      | cons p opened => exact Nat.succ_pos _
    · have hrest : v.Admits ([c] ++ cs) := h
      rw [Nat.zero_min]
      exact ih hrest.right

/-- From state `v` on, `cs` is read as one element of a list at depth `d`, or as a value. -/
structure Piece (d : Nat) (v : ValueState) (cs : List Char) : Prop where
  quote : v.quote = none
  fresh : v.fresh = true
  depth : v.opened.length = d
  undivided : Undivided d v cs
  closed : (v.after cs).quote = none

/-- The first element is not divided, and no quote is open at its end. -/
theorem Agree.undivided_head {cs e : List Char} {after : List (List Char)} (h : Agree m v s)
    (hq : (v.after cs).quote = none) (he : elementsFrom s cs = e :: after) :
    Undivided m v e ∧ (v.after e).quote = none := by
  induction cs generalizing m v s e with
  | nil =>
    obtain ⟨rfl, -⟩ := List.cons.inj he
    exact ⟨trivial, hq⟩
  | cons c cs ih =>
    have hnext := h.next v.pos (mem_of_opens hq)
    rw [elementsFrom] at he
    split_ifs at he with hsplits
    · obtain ⟨rfl, -⟩ := List.cons.inj he
      exact ⟨trivial, (h.splits_iff.mp hsplits).1⟩
    · obtain ⟨e₁, es, hes⟩ := List.exists_cons_of_ne_nil (elementsFrom_ne_nil (s.next c cs) cs)
      rw [hes] at he
      obtain ⟨rfl, rfl⟩ := List.cons.inj he
      obtain ⟨hundivided, hclosed⟩ := ih hnext hq hes
      refine ⟨⟨fun hquote hc => ?_, hundivided⟩, hclosed⟩
      -- the depth is never below the lowest, and at the lowest the comma would split
      have hne : v.opened.length ≠ m := fun hdepth =>
        hsplits (h.splits_iff.mpr ⟨hquote, hc, hdepth⟩)
      have hdepth := h.depth
      omega

/-- In a text that is not divided at the depth `b` outside of its brackets, a comma splits only
while the depth has not fallen below that inside: every further element is a piece at this depth. -/
theorem Agree.piece_of_later {b : Nat} {cs d e : List Char} {before after : List (List Char)}
    (h : Agree m v s) (hm : m ≤ b + 1) (hcs : Undivided (min m b) v cs)
    (hq : (v.after cs).quote = none) (he : elementsFrom s cs = d :: (before ++ e :: after)) :
    Piece (b + 1) (v.after (leading (d :: before))) e := by
  induction cs generalizing m v s d before with
  | nil =>
    obtain ⟨-, hnil⟩ := List.cons.inj he
    cases before <;> cases hnil
  | cons c cs ih =>
    have hnext := h.next v.pos (mem_of_opens hq)
    have hrest := hcs.2
    rw [elementsFrom] at he
    split_ifs at he with hsplits
    · obtain ⟨hquote, rfl, hdepth⟩ := h.splits_iff.mp hsplits
      obtain ⟨rfl, hes⟩ := List.cons.inj he
      -- the comma stands at the lowest depth, and deeper than the text outside of the brackets
      have hb : m = b + 1 := by
        have := hcs.1 hquote rfl
        omega
      have hcomma := ValueState.next_comma hquote v.pos
      have hopened : (v.next v.pos ',').opened = v.opened := by rw [hcomma]
      rw [hopened, hdepth, min_self] at hnext
      rw [hopened, hdepth, min_right_comm, min_self] at hrest
      show Piece (b + 1) ((v.next v.pos ',').after (leading before)) e
      cases before with
      | nil =>
        obtain ⟨hundivided, hclosed⟩ := hnext.undivided_head hq hes
        have hquote' : (v.next v.pos ',').quote = none := by rw [hcomma, hquote]
        have hfresh : (v.next v.pos ',').fresh = true := by rw [hcomma]
        have hdepth' : (v.next v.pos ',').opened.length = b + 1 := by rw [hopened, hdepth, hb]
        exact ⟨hquote', hfresh, hdepth', hb ▸ hundivided, hclosed⟩
      | cons d before => exact ih hnext hm hrest hq hes
    · obtain ⟨e₁, es, hes⟩ := List.exists_cons_of_ne_nil (elementsFrom_ne_nil (s.next c cs) cs)
      rw [hes] at he
      obtain ⟨rfl, rfl⟩ := List.cons.inj he
      rw [min_right_comm] at hrest
      have hlater := ih hnext (by omega) hrest hq hes
      simpa [leading] using hlater

/-! ### Pieces in brackets -/

section

variable {d : Nat} {w₁ w₂ inner : List Char}

/-- Behind the bracket that opens a list an element begins, one level further down. -/
theorem Piece.open_bracket {cs : List Char} (h : Piece d v (w₁ ++ '[' :: cs)) (hv : v.Sound)
    (hw : Blanks w₁) : (v.after (w₁ ++ ['['])).quote = none ∧
      (v.after (w₁ ++ ['['])).fresh = true ∧
      (v.after (w₁ ++ ['['])).opened = (v.after w₁).pos :: v.opened := by
  have halike := hv.alike_blanks hw
  have hquote : (v.after w₁).quote = none := halike.quote.trans h.quote
  rw [ValueState.after_append, ValueState.after_cons, ValueState.after_nil,
    ValueState.next_open hquote]
  exact ⟨hquote, rfl, congrArg _ halike.opened⟩

/-- The inside of brackets is not divided outside of them, and no quote is open at its end. -/
theorem Piece.inside (h : Piece d v (w₁ ++ '[' :: (inner ++ ']' :: w₂))) (hv : v.Sound)
    (hw₁ : Blanks w₁) (hw₂ : Blanks w₂) :
    Undivided d (v.after (w₁ ++ ['['])) inner ∧ (v.after (w₁ ++ '[' :: inner)).quote = none := by
  constructor
  · obtain ⟨-, -, hopened⟩ := h.open_bracket hv hw₁
    rw [ValueState.after_append, ValueState.after_cons, ValueState.after_nil] at hopened
    have hinner := (h.undivided.of_blanks hv h.depth.ge hw₁).2
    rw [hopened, List.length_cons, h.depth, min_eq_left (Nat.le_succ d)] at hinner
    rw [ValueState.after_append]
    exact hinner.left
  · -- neither the closing bracket nor the blanks behind it are quotes
    have hsound := hv.after (w₁ ++ '[' :: inner)
    have hclosed := h.closed
    rw [← List.cons_append, ← List.append_assoc, ValueState.after_append, ValueState.after_cons,
      (hsound.next.alike_blanks hw₂).quote] at hclosed
    exact hsound.quote_eq_none_of_next (by decide) hclosed

/-- An element of a list is a piece one level further down. -/
theorem Piece.element {e : List Char} {before after : List (List Char)}
    (h : Piece d v (w₁ ++ '[' :: (inner ++ ']' :: w₂))) (hv : v.Sound) (hw₁ : Blanks w₁)
    (hw₂ : Blanks w₂) (he : elements inner = before ++ e :: after) :
    Piece (d + 1) (v.after (w₁ ++ '[' :: leading before)) e := by
  obtain ⟨hundivided, hclosed⟩ := h.inside hv hw₁ hw₂
  obtain ⟨hquote, hfresh, hopened⟩ := h.open_bracket hv hw₁
  have hdepth : (v.after (w₁ ++ ['['])).opened.length = d + 1 := by
    rw [hopened, List.length_cons, h.depth]
  rw [List.append_cons, ValueState.after_append] at hclosed ⊢
  have hagree := agree_start hfresh hquote
  rw [hdepth] at hagree
  cases before with
  | nil =>
    obtain ⟨hundivided, hclosed⟩ := hagree.undivided_head hclosed he
    exact ⟨hquote, hfresh, hdepth, hundivided, hclosed⟩
  | cons f before =>
    rw [← min_eq_right (Nat.le_succ d)] at hundivided
    exact hagree.piece_of_later le_rfl hundivided hclosed he

theorem trim_brackets (hw₁ : Blanks w₁) (hw₂ : Blanks w₂) :
    Text.trim (w₁ ++ '[' :: (inner ++ ']' :: w₂)) = '[' :: (inner ++ [']']) := by
  have heq : w₁ ++ '[' :: (inner ++ ']' :: w₂) = w₁ ++ ('[' :: (inner ++ [']']) ++ w₂) := by simp
  rw [heq, Text.trim_blanks_append hw₁, Text.trim_append_blanks hw₂]
  refine Text.trim_eq_self ?_ ?_
  · rintro c ⟨⟩
    decide
  · intro c hc
    rw [← List.cons_append, List.getLast?_concat, Option.some.injEq] at hc
    subst hc
    decide

/-- Text that is taken for a list stands between brackets and blanks. -/
theorem exists_brackets {raw : List Char} (h : unbracket? (Text.trim raw) = some inner) :
    ∃ w₁ w₂, Blanks w₁ ∧ Blanks w₂ ∧ raw = w₁ ++ '[' :: (inner ++ ']' :: w₂) := by
  obtain ⟨w₁, w₂, hw₁, hw₂, hraw⟩ := Text.exists_append_trim_append raw
  refine ⟨w₁, w₂, hw₁, hw₂, ?_⟩
  rw [eq_of_unbracket? h] at hraw
  simpa using hraw

/-- A bracket that opens a list stands where the scanner allows one more. -/
theorem Piece.depth_lt {cs : List Char} (h : Piece d v (w₁ ++ '[' :: cs)) (hv : v.Sound)
    (ha : v.Admits (w₁ ++ '[' :: cs)) (hw : Blanks w₁) : d ≠ maxListDepth := by
  have halike := hv.alike_blanks hw
  have hover := (ha w₁ '[' cs rfl).2
  rintro rfl
  have hlength : (v.after w₁).opened.length = maxListDepth := by rw [halike.opened, h.depth]
  rw [ValueState.overflows_iff.mpr ⟨halike.quote.trans h.quote, rfl, hlength⟩] at hover
  cases hover

/-- The limit can only make a difference for text in brackets. -/
theorem coerceWithin_eq_of_bracket {n : Nat} {raw : List Char}
    (h : ∀ inner, scalarOfText? (Text.trim raw) = none → unbracket? (Text.trim raw) = some inner →
      coerceWithin n raw = coerceFreely raw) : coerceWithin n raw = coerceFreely raw := by
  cases hs : scalarOfText? (Text.trim raw) with
  | some x => rw [coerceWithin_of_scalar hs, coerceFreely_of_scalar hs]
  | none =>
    cases hb : unbracket? (Text.trim raw) with
    | none => rw [coerceWithin_of_text hs hb, coerceFreely_of_text hs hb]
    | some inner => exact h inner hs hb

/-- Where lists may nest as deep as the scanner lets them, the limit makes no difference. -/
theorem Piece.coerceWithin_eq {n : Nat} {raw : List Char} (h : Piece d v raw) (hv : v.Sound)
    (ha : v.Admits raw) (hd : d + n = maxListDepth) : coerceWithin n raw = coerceFreely raw := by
  -- the levels that are left and the depth always make up the limit
  induction n generalizing d v raw with
  | zero =>
    refine coerceWithin_eq_of_bracket fun inner hs hb => ?_
    -- one bracket more would have nested too deep for the scanner
    obtain ⟨w₁, w₂, hw₁, -, rfl⟩ := exists_brackets hb
    exact absurd hd (h.depth_lt hv ha hw₁)
  | succ n ih =>
    refine coerceWithin_eq_of_bracket fun inner hs hb => ?_
    obtain ⟨w₁, w₂, hw₁, hw₂, rfl⟩ := exists_brackets hb
    rw [coerceWithin_of_bracket hs hb, coerceFreely_of_bracket hs hb]
    have hitems : (elements inner).map (coerceWithin n) = (elements inner).map coerceFreely := by
      refine List.map_congr_left fun e he => ?_
      obtain ⟨before, after, he⟩ := List.append_of_mem he
      refine ih (h.element hv hw₁ hw₂ he) (hv.after _) ?_ (by omega)
      have heq : w₁ ++ '[' :: (inner ++ ']' :: w₂) =
          w₁ ++ '[' :: leading before ++ (e ++ (trailing after ++ ']' :: w₂)) := by
        rw [eq_of_elements_eq he]
        simp
      rw [heq] at ha
      exact ha.right.left
    rw [hitems]

end

/-! ### Pieces that coercion reads -/

/-- `Visited t levels pre piece post`: coercing `t` reads `piece`, which stands between `pre` and
`post`, as a value in which lists may nest `levels` deep.  These are `t` itself and the elements of
every such piece that is a list. -/
inductive Visited (t : List Char) : Nat → List Char → List Char → List Char → Prop
  | whole : Visited t maxListDepth [] t []
  | element {levels : Nat} {pre w₁ inner w₂ post e : List Char} {before after : List (List Char)} :
      Visited t (levels + 1) pre (w₁ ++ '[' :: (inner ++ ']' :: w₂)) post →
      Blanks w₁ → Blanks w₂ → ¬Blanks inner → elements inner = before ++ e :: after →
        Visited t levels (pre ++ (w₁ ++ '[' :: leading before)) e
          (trailing after ++ ']' :: (w₂ ++ post))

/-- Every piece that coercion reads is one for the scanner, at the depth that coercion counts. -/
theorem Visited.piece {t pre raw post : List Char} {levels : Nat} (h : Visited t levels pre raw post)
    (ht : Piece 0 v t) (hv : v.Sound) :
    t = pre ++ (raw ++ post) ∧
      ∃ d, d + levels = maxListDepth ∧ Piece d (v.after pre) raw := by
  induction h with
  | whole => exact ⟨(List.append_nil t).symm, 0, Nat.zero_add _, ht⟩
  | element _ hw₁ hw₂ _ he ih =>
    obtain ⟨heq, d, hd, hpiece⟩ := ih
    refine ⟨?_, d + 1, by omega, ?_⟩
    · rw [heq, eq_of_elements_eq he]
      simp
    · rw [ValueState.after_append]
      exact hpiece.element (hv.after _) hw₁ hw₂ he

/-! ### The commas that the scanner passes -/

/-- The pieces of the text between the commas that the scanner passes, from state `v` on, at the
given depth outside of quotes. -/
def passed (depth : Nat) (v : ValueState) : List Char → List (List Char)
  | [] => [[]]
  | c :: cs =>
    let rest := passed depth (v.next v.pos c) cs
    if v.quote.isNone && c == ',' && v.opened.length == depth then [] :: rest else consHead c rest

/-- While the depth does not fall below that of the list, splitting finds the pieces between the
commas that are passed at this depth. -/
theorem Agree.elementsFrom_eq {cs : List Char} (h : Agree m v s) (hq : (v.after cs).quote = none)
    (hdeep : ∀ pre post, cs = pre ++ post → m ≤ (v.after pre).opened.length) :
    elementsFrom s cs = passed m v cs := by
  induction cs generalizing v s with
  | nil => rfl
  | cons c cs ih =>
    have hnext := h.next v.pos (mem_of_opens hq)
    have hle : m ≤ (v.next v.pos c).opened.length := hdeep [c] cs rfl
    rw [min_eq_left hle] at hnext
    have hrest := ih hnext hq fun pre post heq => hdeep (c :: pre) post (by rw [heq]; rfl)
    have hsplits : s.splits c =
        (v.quote.isNone && c == ',' && v.opened.length == m) := by
      rw [Bool.eq_iff_iff, h.splits_iff]
      simp [and_assoc]
    rw [elementsFrom, passed, hrest, hsplits]

/-- Inside brackets of which the first stays open up to the last, the elements are the pieces
between the commas that the scanner passes at the depth inside. -/
theorem Piece.elements_eq {d : Nat} {w₁ w₂ inner : List Char}
    (h : Piece d v (w₁ ++ '[' :: (inner ++ ']' :: w₂))) (hv : v.Sound) (hw₁ : Blanks w₁)
    (hw₂ : Blanks w₂) (hp : (v.after w₁).pos ∈ (v.after (w₁ ++ '[' :: inner)).opened) :
    elements inner =
      passed (v.after (w₁ ++ ['['])).opened.length (v.after (w₁ ++ ['['])) inner := by
  obtain ⟨-, hclosed⟩ := h.inside hv hw₁ hw₂
  rw [List.append_cons, ValueState.after_append] at hclosed hp
  obtain ⟨hquote, hfresh, hopened⟩ := h.open_bracket hv hw₁
  refine (agree_start hfresh hquote).elementsFrom_eq hclosed fun pre post heq => ?_
  -- the opening bracket is on top of those that were open before it, and remains open
  have hlt : (v.after w₁).pos < (v.after (w₁ ++ ['['])).pos := by
    rw [ValueState.after_append]
    exact ValueState.pos_next _ ▸ Nat.lt_add_of_pos_right (Char.utf8Size_pos _)
  have hnot : (v.after w₁).pos ∉ v.opened := by
    intro hmem
    have := hv.lt_pos _ hmem
    rw [ValueState.pos_after] at this
    omega
  have hsuffix : (v.after w₁).pos :: v.opened <:+ (v.after (w₁ ++ ['['])).opened :=
    hopened ▸ List.suffix_rfl
  rw [heq] at hp
  have hheld := ValueState.opened_suffix_of_mem hlt hnot hsuffix hp
  rw [hopened]
  exact hheld.length_le

end Value

/-! ### Values of a directive -/

/-- The character closes the bracket at the offset `p`. -/
def ValueState.ClosesBracket (v : ValueState) (c : Char) (p : Nat) : Prop :=
  p ∈ v.opened ∧ p ∉ (v.next v.pos c).opened

namespace Token

open Value (Visited)

/-- The state of the scanner behind the first characters `pre` of the text of a value. -/
def stateAfter (token : Token) (pre : List Char) : ValueState :=
  (ValueState.initial token.span.start).after pre

/-- **Scanning and coercion agree on lists**, for every value of a directive that can be scanned,
as a whole or at the beginning of a text.

* `token.stateAfter pre` is the state of the scanner behind the characters `pre` of the value.
* The limit on how deep lists nest makes no difference for the value.
* Where a piece that is read stands in brackets, and its last bracket closes its first one for the
  scanner, its elements are the pieces between the commas that the scanner passed at the depth
  inside these brackets, and there are none if only blanks stand inside.
* No quoted span reaches beyond a piece that is read: the scanner is outside of quotes at both its
  ends. -/
theorem lists_agree {extent : Extent} {cs : List Char} {n : Nat} {token : Token}
    (h : (Scan.ofChars extent cs).outcome = .ok n) (ht : token ∈ (Scan.ofChars extent cs).tokens)
    (hk : token.kind = .paramValue) :
    (∃ before rest, cs = before ++ (token.text.toList ++ rest) ∧
      token.span.start = Text.size before ∧
      ∀ pre post, token.text.toList = pre ++ post → pre ≠ [] →
        ∃ s, Scanner.Reached extent (before ++ pre) s ∧ s.part = .value (token.stateAfter pre)) ∧
    Value.coerce token.text = Value.coerceFreely token.text.toList ∧
    (∀ {levels : Nat} {pre w₁ inner w₂ post : List Char},
      Visited token.text.toList (levels + 1) pre (w₁ ++ '[' :: (inner ++ ']' :: w₂)) post →
      Blanks w₁ → Blanks w₂ →
      (token.stateAfter (pre ++ (w₁ ++ '[' :: inner))).ClosesBracket ']'
        (token.span.start + Text.size (pre ++ w₁)) →
      let inside := token.stateAfter (pre ++ (w₁ ++ ['[']))
      let pieces := Value.passed inside.opened.length inside inner
      Value.elements inner = pieces ∧
        Value.coerceWithin (levels + 1) (w₁ ++ '[' :: (inner ++ ']' :: w₂)) =
          .list (if (Text.trim inner).isEmpty then []
            else pieces.map (Value.coerceWithin levels))) ∧
    ∀ {levels : Nat} {pre piece post : List Char},
      Visited token.text.toList levels pre piece post →
        (token.stateAfter pre).quote = none ∧ (token.stateAfter (pre ++ piece)).quote = none := by
  obtain ⟨before, rest, hcs, hstart, htraced, hclosed⟩ := Scanner.located_of_mem_tokens h ht hk
  have hsound := ValueState.sound_initial token.span.start
  -- the value is a piece at depth zero, and all others are reached from it
  have hpiece : Value.Piece 0 (ValueState.initial token.span.start) token.text.toList := by
    refine ⟨rfl, rfl, rfl, ?_, ?_⟩
    · rw [hstart]
      exact Value.undivided_of_admits htraced.admits
    · rw [hstart]
      exact hclosed
  refine ⟨⟨before, rest, hcs, hstart, ?_⟩, ?_, ?_, ?_⟩
  · unfold stateAfter
    rw [hstart]
    exact htraced.reached
  · exact hpiece.coerceWithin_eq hsound (hstart ▸ htraced.admits) (Nat.zero_add _)
  · intro levels pre w₁ inner w₂ post hvisited hw₁ hw₂ hcloses
    obtain ⟨-, d, -, hread⟩ := hvisited.piece hpiece hsound
    have hpos : ((token.stateAfter pre).after w₁).pos =
        token.span.start + Text.size (pre ++ w₁) := by
      rw [stateAfter, ← ValueState.after_append, ValueState.pos_after]
      rfl
    have hinside : token.stateAfter (pre ++ (w₁ ++ ['['])) =
        (token.stateAfter pre).after (w₁ ++ ['[']) := ValueState.after_append _ _
    have hopen := hcloses.1
    rw [← hpos, stateAfter, ValueState.after_append] at hopen
    have helements := hread.elements_eq (hsound.after pre) hw₁ hw₂ hopen
    rw [hinside]
    refine ⟨helements, ?_⟩
    have htrim : Text.trim (w₁ ++ '[' :: (inner ++ ']' :: w₂)) = '[' :: (inner ++ [']']) :=
      Value.trim_brackets hw₁ hw₂
    rw [Value.coerceWithin_of_bracket (by rw [htrim, Value.scalarOfText?_bracket])
      (by rw [htrim, Value.unbracket?_brackets]), helements]
    exact (apply_ite Value.list _ _ _).symm
  · intro levels pre piece post hvisited
    obtain ⟨-, d, -, hread⟩ := hvisited.piece hpiece hsound
    refine ⟨hread.quote, ?_⟩
    rw [stateAfter, ValueState.after_append]
    exact hread.closed

theorem lists_agree_quoted :
    ∃ token ∈ (Scan.ofChars .whole ".p/a.b\x7bx=[x, ['b,c', d]]\x7d".toList).tokens,
      token.text = "[x, ['b,c', d]]" ∧
      Value.coerce token.text = Value.coerceFreely token.text.toList ∧
      Value.elements "'b,c', d".toList =
        Value.passed (token.stateAfter "[x, [".toList).opened.length
          (token.stateAfter "[x, [".toList) "'b,c', d".toList ∧
      (token.stateAfter "[x,".toList).quote = none := by
  let token : Token := ⟨.paramValue, "[x, ['b,c', d]]", ⟨9, 24, by decide⟩⟩
  let items := "'b,c', d".toList
  have hok : (Scan.ofChars .whole ".p/a.b\x7bx=[x, ['b,c', d]]\x7d".toList).outcome = .ok 25 :=
    rfl
  have ht : token ∈ (Scan.ofChars .whole ".p/a.b\x7bx=[x, ['b,c', d]]\x7d".toList).tokens := by
    decide +kernel
  obtain ⟨-, hfree, hlists, hquotes⟩ := lists_agree hok ht rfl
  have htext : token.text.toList = [] ++ '[' :: ("x, ['b,c', d]".toList ++ ']' :: []) := by
    decide +kernel
  have hwhole : Visited token.text.toList (7 + 1) []
      ([] ++ '[' :: ("x, ['b,c', d]".toList ++ ']' :: [])) [] := by
    rw [← htext]
    exact .whole
  have helements : Value.elements "x, ['b,c', d]".toList =
      [['x']] ++ (" ".toList ++ '[' :: (items ++ ']' :: [])) :: [] := by
    decide +kernel
  have hblank : ¬Blanks "x, ['b,c', d]".toList := by
    intro h
    exact absurd (h 'x' (by decide +kernel)) (by decide)
  have hinner := hwhole.element Text.blanks_nil Text.blanks_nil hblank helements
  have hcloses : (token.stateAfter (['[', 'x', ','] ++ (" ".toList ++ '[' :: items))).ClosesBracket
      ']' (token.span.start + Text.size (['[', 'x', ','] ++ " ".toList)) := by
    unfold ValueState.ClosesBracket
    decide +kernel
  have hopen : "[x, [".toList = ['[', 'x', ','] ++ (" ".toList ++ ['[']) := by decide +kernel
  have hpre : "[x,".toList = ['[', 'x', ','] := by decide +kernel
  refine ⟨token, ht, rfl, hfree, ?_, ?_⟩
  · rw [hopen]
    exact (hlists hinner Text.blanks_space Text.blanks_nil hcloses).1
  · rw [hpre]
    exact (hquotes hinner).1

end Token

end Directive
