import Directive.Proofs.Scanner

/-!
# A directive at the beginning of a text

A scan for a directive at the beginning of a text makes the same moves as a scan of a whole text.
It differs in how it ends: at a character behind the function name that opens no block, and at the
closing brace.  `Halt` lists these ends as `Move` lists the moves.

So the scan of a beginning is the scan of that beginning alone, as a whole
(`exists_whole_of_leading`), and it does not depend on what follows the closing brace
(`Reached.ofChars_leading_of_close`) or, within limits, the function name
(`Reached.ofChars_leading_of_function`).
-/

namespace Directive.Scanner

open Text (Blanks)

/-! ### Ends -/

/-- `Halt n p c es m`: in part `p` the character `c` at offset `n` shows that the directive ends; it
spans `m` bytes, and the tokens `es`, the latest first, complete it. -/
inductive Halt (n : Nat) : Part → Char → List Token → Nat → Prop
  | functionEnd {start : Nat} {read : List Char} {c : Char} :
      read ≠ [] → Text.isNameChar c = false → Text.isBlank c = false → c ≠ '{' →
        Halt n (.function start read) c [Token.ofChars .functionName start read.reverse] n
  | gapEnd {ended : Nat} {c : Char} :
      Text.isBlank c = false → c ≠ '{' → Halt n (.gap ended) c [] ended
  | entryClose :
      Halt n (.entry true) '}' [Token.ofChars .paramClose n ['}']] (n + '}'.utf8Size)
  | valueClose {v : ValueState} :
      v.ends '}' = true →
        Halt n (.value v) '}'
          [Token.ofChars .paramClose n ['}'], Token.ofChars .paramValue v.start v.chars]
          (n + '}'.utf8Size)

section

variable {s : Scanner} {c : Char} {result : Scan} {m : Nat}

/-- No scan that stops at an unexpected character succeeds. -/
theorem not_ok_of_reject {e : Expectation} (h : s.reject c e = .stop result) :
    result.outcome ≠ .ok m := by
  cases h
  intro hok
  cases hok

theorem afterFunction_eq_stop {ended : Nat} (h : afterFunction .leading s ended c = .stop result) :
    Text.isBlank c = false ∧ c ≠ '{' ∧ result = s.accept ended := by
  unfold afterFunction at h
  split_ifs at h with hb ho
  · cases h
  · cases h
  · exact ⟨Bool.eq_false_iff.mpr hb, ho, (Step.stop.inj h).symm⟩

theorem not_ok_of_afterName (h : afterName s c = .stop result) : result.outcome ≠ .ok m := by
  unfold afterName at h
  split_ifs at h
  · cases h
  · cases h
  · exact not_ok_of_reject h

theorem beforeName_eq_stop {first : Bool} (h : beforeName .leading s first c = .stop result)
    (hok : result.outcome = .ok m) : first = true ∧ c = '}' ∧
      result = (s.emit .paramClose s.pos [c]).accept (s.pos + c.utf8Size) := by
  unfold beforeName at h
  split_ifs at h with hb hn hc
  · cases h
  · cases h
  · simp only [Bool.and_eq_true, beq_iff_eq] at hc
    exact ⟨hc.1, hc.2, (Step.stop.inj h).symm⟩
  · exact absurd hok (not_ok_of_reject h)
  · exact absurd hok (not_ok_of_reject h)

theorem inValue_eq_stop {v : ValueState} (h : inValue .leading s v c = .stop result)
    (hok : result.outcome = .ok m) : v.ends c = true ∧ c = '}' ∧
      result = ((s.emit .paramValue v.start v.chars).emit .paramClose s.pos [c]).accept
        (s.pos + c.utf8Size) := by
  unfold inValue at h
  split_ifs at h with he hc ho
  · cases h
  · have hbrace : c = '}' := (ValueState.ends_iff.mp he).2.2.resolve_left hc
    exact ⟨he, hbrace, (Step.stop.inj h).symm⟩
  · cases h
    cases hok
  · cases h

end

/-- A step that stops the scanner with success is an end. -/
theorem halt_of_step {ts : List Token} {n m : Nat} {p : Part} {c : Char} {result : Scan}
    (h : step .leading ⟨ts, n, p⟩ c = .stop result) (hok : result.outcome = .ok m) :
    ∃ es, Halt n p c es m ∧ result = ⟨(es ++ ts).reverse, .ok m⟩ := by
  cases p with
  | family start read =>
    simp only [step] at h
    split_ifs at h
    · cases h
    · exact absurd hok (not_ok_of_reject h)
    · cases h
    · exact absurd hok (not_ok_of_reject h)
  | function start read =>
    simp only [step] at h
    split_ifs at h with hn hr
    · cases h
    · exact absurd hok (not_ok_of_reject h)
    · obtain ⟨hb, ho, rfl⟩ := afterFunction_eq_stop h
      cases hok
      exact ⟨_, .functionEnd (by simpa using hr) (Bool.eq_false_iff.mpr hn) hb ho, rfl⟩
  | gap ended =>
    obtain ⟨hb, ho, rfl⟩ := afterFunction_eq_stop h
    cases hok
    exact ⟨_, .gapEnd hb ho, rfl⟩
  | entry first =>
    obtain ⟨rfl, rfl, rfl⟩ := beforeName_eq_stop h hok
    cases hok
    exact ⟨_, .entryClose, rfl⟩
  | name start read =>
    simp only [step] at h
    split_ifs at h
    · cases h
    · exact absurd hok (not_ok_of_afterName h)
  | equals => exact absurd hok (not_ok_of_afterName h)
  | beforeValue =>
    simp only [step] at h
    split_ifs at h with hb hc
    · cases h
    · exact absurd hok (not_ok_of_reject h)
    · -- the brace does not begin a value
      obtain ⟨-, rfl, -⟩ := inValue_eq_stop h hok
      exact absurd (by decide) hc
  | value v =>
    obtain ⟨he, rfl, rfl⟩ := inValue_eq_stop h hok
    cases hok
    exact ⟨_, .valueClose he, rfl⟩
  | closed =>
    simp only [step] at h
    split_ifs at h
    · cases h
    · exact absurd hok (not_ok_of_reject h)

/-- The scanner stops at every end there is. -/
theorem step_of_halt {ts es : List Token} {n m : Nat} {p : Part} {c : Char} (h : Halt n p c es m) :
    step .leading ⟨ts, n, p⟩ c = .stop ⟨(es ++ ts).reverse, .ok m⟩ := by
  cases h with
  | functionEnd hr hn hb ho => simp [step, hn, hr, afterFunction, hb, ho, emit, accept]
  | gapEnd hb ho => simp [step, afterFunction, hb, ho, accept]
  | entryClose =>
    have hn : Text.isNameChar '}' = false := by decide
    have hb : Text.isBlank '}' = false := by decide
    simp [step, beforeName, hb, hn, close, emit, accept]
  | valueClose he => simp [step, inValue, he, close, emit, accept]

/-! ### The same moves -/

/-- A move does not depend on the extent, unless it closes the block. -/
theorem Move.of_extent {extent extent' : Extent} {n : Nat} {p p' : Part} {c : Char}
    {es : List Token} (h : Move extent n p c es p') (he : p' = .closed → extent' = .whole) :
    Move extent' n p c es p' := by
  cases h with
  | entryClose => exact .entryClose (he rfl)
  | valueClose _ hv => exact .valueClose (he rfl) hv
  | _ => constructor <;> assumption

/-- Neither does a state that is reached, unless the block is closed. -/
theorem Reached.of_extent {extent extent' : Extent} {cs : List Char} {s : Scanner}
    (h : Reached extent cs s) (he : s.part = .closed → extent' = .whole) :
    Reached extent' cs s := by
  induction h with
  | start => exact .start
  | move _ hm ih =>
    refine .move (ih fun hp => he ?_) (hm.of_extent he)
    -- there is no way out of a closed block
    obtain rfl : _ = Part.closed := hp
    cases hm
    rfl

theorem Reached.whole {extent : Extent} {cs : List Char} {s : Scanner} (h : Reached extent cs s) :
    Reached .whole cs s :=
  h.of_extent fun _ => rfl

theorem Reached.mark_isPrefix {extent : Extent} {cs : List Char} {s : Scanner}
    (h : Reached extent cs s) : mark.toList <+: cs := by
  induction h with
  | start => exact List.prefix_rfl
  | move _ _ ih => exact ih.trans (List.prefix_append _ _)

/-- The last character of a text was taken by a move, if the scanner has left its start. -/
theorem Reached.exists_last {extent : Extent} {cs : List Char} {c : Char} {s : Scanner}
    (h : Reached extent (cs ++ [c]) s) (hp : s.part ≠ Scanner.start.part) : ∃ ts n p es p',
      Reached extent cs ⟨ts, n, p⟩ ∧ Move extent n p c es p' ∧
        s = ⟨es ++ ts, n + c.utf8Size, p'⟩ := by
  generalize hx : cs ++ [c] = x at h
  cases h with
  | start => exact absurd rfl hp
  | move h hm =>
    obtain ⟨rfl, hd⟩ := List.append_inj' hx rfl
    obtain rfl := (List.cons.inj hd).1
    exact ⟨_, _, _, _, _, h, hm, rfl⟩

/-- The function name stands before the blanks of a gap. -/
theorem Reached.exists_function {extent : Extent} {cs : List Char} {s : Scanner} {ended : Nat}
    (h : Reached extent cs s) (hp : s.part = .gap ended) : ∃ src w start read ts,
      cs = src ++ w ∧ Blanks w ∧ w ≠ [] ∧ read ≠ [] ∧
        s.tokens = Token.ofChars .functionName start read.reverse :: ts ∧
        Reached extent src ⟨ts, ended, .function start read⟩ := by
  induction h with
  | start => cases hp
  | @move cs ts es n p p' c h hm ih =>
    obtain rfl : p' = .gap ended := hp
    cases hm with
    | functionBlank hr hb =>
      exact ⟨cs, [c], _, _, ts, rfl, List.forall_mem_singleton.mpr hb, List.cons_ne_nil _ _, hr,
        rfl, h⟩
    | gapBlank hb =>
      obtain ⟨src, w, start, read, ts', rfl, hw, -, hr, hts, hsrc⟩ := ih rfl
      refine ⟨src, w ++ [c], start, read, ts', List.append_assoc _ _ _, ?_, by simp, hr, hts, hsrc⟩
      exact List.forall_mem_append.mpr ⟨hw, List.forall_mem_singleton.mpr hb⟩

/-! ### Ends of texts -/

theorem finish_function (extent : Extent) {ts : List Token} {n start : Nat} {read : List Char}
    (hr : read ≠ []) : finish extent ⟨ts, n, .function start read⟩ =
      ⟨(Token.ofChars .functionName start read.reverse :: ts).reverse, .ok n⟩ := by
  simp [finish, emitName, hr, emit, accept]

/-- Only behind a function name does the extent matter at the end of a text. -/
theorem finish_leading {s : Scanner} (h : ∀ ended, s.part ≠ .gap ended) :
    finish .leading s = finish .whole s := by
  obtain ⟨ts, n, p⟩ := s
  cases p with
  | gap ended => exact absurd rfl (h ended)
  | _ => rfl

/-! ### From the beginning to the whole -/

/-- An end comes behind the text that is the directive. -/
theorem Reached.exists_whole_of_halt {pre : List Char} {ts es : List Token} {n m : Nat} {p : Part}
    {c : Char} (h : Reached .leading pre ⟨ts, n, p⟩) (hh : Halt n p c es m) (post : List Char) :
    ∃ src rest, pre ++ c :: post = src ++ rest ∧ Text.size src = m ∧ mark.toList <+: src ∧
      Scan.ofChars .whole src = ⟨(es ++ ts).reverse, .ok m⟩ := by
  have hn : n = Text.size pre := h.pos_eq
  cases hh with
  | functionEnd hr =>
    refine ⟨pre, c :: post, rfl, hn.symm, h.mark_isPrefix, ?_⟩
    rw [h.whole.ofChars_eq, finish_function .whole hr]
    rfl
  | gapEnd =>
    obtain ⟨src, w, start, read, ts', rfl, -, -, hr, rfl, hsrc⟩ := h.exists_function rfl
    refine ⟨src, w ++ c :: post, List.append_assoc _ _ _, hsrc.pos_eq.symm, hsrc.mark_isPrefix, ?_⟩
    rw [hsrc.whole.ofChars_eq, finish_function .whole hr]
    rfl
  -- at the closing brace a scan of the whole goes on, and finds the text at its end
  | entryClose =>
    have hclosed := h.whole.move (.entryClose rfl)
    refine ⟨pre ++ ['}'], post, by simp, hclosed.pos_eq.symm, hclosed.mark_isPrefix, ?_⟩
    rw [hclosed.ofChars_eq]
    rfl
  | valueClose he =>
    have hclosed := h.whole.move (.valueClose rfl he)
    refine ⟨pre ++ ['}'], post, by simp, hclosed.pos_eq.symm, hclosed.mark_isPrefix, ?_⟩
    rw [hclosed.ofChars_eq]
    rfl

/-- The scan of a text that begins with a directive is the scan of that beginning as a whole. -/
theorem exists_whole_of_leading {cs : List Char} {n : Nat}
    (h : (Scan.ofChars .leading cs).outcome = .ok n) :
    ∃ src rest, cs = src ++ rest ∧ Text.size src = n ∧ mark.toList <+: src ∧
      Scan.ofChars .whole src = Scan.ofChars .leading cs := by
  by_cases hmark : ∃ rest, cs = mark.toList ++ rest
  · obtain ⟨rest, rfl⟩ := hmark
    have hstart : Reached .leading mark.toList start := .start
    rcases hstart.extend rest with ⟨s, hs⟩ | ⟨pre, c, post, s, result, rfl, hs, hstop⟩
    · -- the text ends before the scan does
      have hfinish := hs.ofChars_eq
      by_cases hgap : ∃ ended, s.part = .gap ended
      · obtain ⟨ended, hp⟩ := hgap
        obtain ⟨src, w, start, read, ts, hcs, -, -, hr, hts, hsrc⟩ := hs.exists_function hp
        have hscan : Scan.ofChars .leading (mark.toList ++ rest) =
            ⟨s.tokens.reverse, .ok ended⟩ := by
          rw [hfinish, finish, hp]
          rfl
        rw [hscan] at h ⊢
        cases h
        refine ⟨src, w, hcs, hsrc.pos_eq.symm, hsrc.mark_isPrefix, ?_⟩
        rw [hsrc.whole.ofChars_eq, finish_function .whole hr, hts]
      · rw [not_exists] at hgap
        rw [finish_leading hgap] at hfinish
        rw [hfinish] at h ⊢
        refine ⟨mark.toList ++ rest, [], by simp, ?_, List.prefix_append _ _, hs.whole.ofChars_eq⟩
        rw [← hs.whole.ofChars_eq] at h
        exact (eq_size_of_ok h).symm
    · obtain ⟨ts, m, p⟩ := s
      have hscan := hs.ofChars_stop hstop post
      rw [List.append_assoc] at hscan
      rw [hscan] at h ⊢
      obtain ⟨es, hhalt, rfl⟩ := halt_of_step hstop h
      obtain ⟨src, rest, hcs, hsrc⟩ := hs.exists_whole_of_halt hhalt post
      rw [List.append_assoc] at hcs
      exact ⟨src, rest, hcs, hsrc⟩
  · rw [not_exists] at hmark
    rw [ofChars_of_not_mark hmark] at h
    cases h

/-! ### From the whole to the beginning -/

/-- What follows the closing brace makes no difference. -/
theorem Reached.ofChars_leading_of_close {src : List Char} {s : Scanner}
    (h : Reached .whole (src ++ ['}']) s) (hp : s.part = .closed) (rest : List Char) :
    Scan.ofChars .leading (src ++ ['}'] ++ rest) = Scan.ofChars .whole (src ++ ['}']) := by
  have hstart : s.part ≠ Scanner.start.part := by
    rw [hp]
    exact Part.noConfusion
  obtain ⟨ts, n, p, es, p', hsrc, hm, rfl⟩ := h.exists_last hstart
  obtain rfl : p' = .closed := hp
  rw [h.ofChars_eq, List.append_assoc, List.singleton_append]
  cases hm with
  | entryClose =>
    have hopen : Reached .leading src _ := hsrc.of_extent fun hp => by cases hp
    exact hopen.ofChars_stop (step_of_halt .entryClose) rest
  | valueClose _ he =>
    have hopen : Reached .leading src _ := hsrc.of_extent fun hp => by cases hp
    exact hopen.ofChars_stop (step_of_halt (.valueClose he)) rest
  | closedBlank hb => cases hb

/-- Behind the blanks after a function name the directive ends, unless a block is opened. -/
theorem run_gap {ts : List Token} {n ended : Nat} {rest : List Char}
    (h : (rest.dropWhile Text.isBlank).head? ≠ some '{') :
    run .leading ⟨ts, n, .gap ended⟩ rest = ⟨ts.reverse, .ok ended⟩ := by
  induction rest generalizing n with
  | nil => rfl
  | cons c rest ih =>
    cases hb : Text.isBlank c with
    | true =>
      rw [List.dropWhile_cons_of_pos hb] at h
      rw [run, step_of_move (.gapBlank hb)]
      exact ih h
    | false =>
      have hne : c ≠ '{' := by
        rintro rfl
        exact h rfl
      rw [run, step_of_halt (.gapEnd hb hne)]
      rfl

/-- What follows a function name makes no difference if it neither goes on with the name nor opens a
block. -/
theorem Reached.ofChars_leading_of_function {src : List Char} {ts : List Token} {n start : Nat}
    {read rest : List Char} (h : Reached .whole src ⟨ts, n, .function start read⟩) (hr : read ≠ [])
    (hname : ∀ c, rest.head? = some c → Text.isNameChar c = false)
    (hopen : (rest.dropWhile Text.isBlank).head? ≠ some '{') :
    Scan.ofChars .leading (src ++ rest) = Scan.ofChars .whole src := by
  have hlead : Reached .leading src ⟨ts, n, .function start read⟩ :=
    h.of_extent fun hp => by cases hp
  rw [h.ofChars_eq, finish_function .whole hr, hlead.ofChars_append]
  cases rest with
  | nil => exact finish_function .leading hr
  | cons c rest =>
    cases hb : Text.isBlank c with
    | true =>
      rw [List.dropWhile_cons_of_pos hb] at hopen
      rw [run, step_of_move (.functionBlank hr hb)]
      exact run_gap hopen
    | false =>
      have hne : c ≠ '{' := by
        rintro rfl
        exact hopen rfl
      rw [run, step_of_halt (.functionEnd hr (hname c rfl) hb hne)]
      rfl

end Directive.Scanner
