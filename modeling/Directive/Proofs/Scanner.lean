import Directive.Proofs.Text
import Directive.Token.Scanner

/-!
# What the scanner can do

`Scanner.Move` lists what one character can lead to: for a part of the directive and a character
that fits, the tokens it completes and the part that follows.  The scanner goes on exactly by these
moves; a character that allows none stops it, and a scan of a whole text then ends with a fault at
that character.  Inside a value, `ValueState.next_cases` says what a character does to the brackets
that are open.

What a stop or the end of a text does to the token at hand is `Completes`; the ways in which a whole
text stops the scanner are `Fails` at a character and `Unfinished` at its end.

`Scanner.Reached cs s` says that the scanner is in state `s` after the text `cs`.  A property of all
runs is shown once, by induction over the moves that led to a state.  `Scanner.Course cs scan` lists
how the scan of a whole text can go.
-/

namespace Directive

/-! ### Characters of a value -/

/-- A value ends at a comma or a closing brace outside of quotes and brackets. -/
theorem ValueState.ends_iff {v : ValueState} {c : Char} :
    v.ends c = true ↔ v.quote = none ∧ v.opened = [] ∧ (c = ',' ∨ c = '}') := by
  simp only [ends, Bool.and_eq_true, Option.isNone_iff_eq_none, List.isEmpty_iff,
    Bool.or_eq_true, beq_iff_eq, and_assoc]

/-- A value that has not begun does not end at any other character. -/
theorem ValueState.ends_initial {n : Nat} {c : Char} (hcomma : c ≠ ',') (hbrace : c ≠ '}') :
    (initial n).ends c = false := by
  rw [Bool.eq_false_iff]
  intro he
  rcases (ends_iff.mp he).2.2 with hc | hc
  · exact hcomma hc
  · exact hbrace hc

/-- A bracket outside of quotes nests too deep where as many are open as may be. -/
theorem ValueState.overflows_iff {v : ValueState} {c : Char} :
    v.overflows c = true ↔ v.quote = none ∧ c = '[' ∧ v.opened.length = maxListDepth := by
  simp only [overflows, Bool.and_eq_true, Option.isNone_iff_eq_none, beq_iff_eq, and_assoc]

/-- No bracket is open in a value that has not begun. -/
@[simp] theorem ValueState.overflows_initial (n : Nat) (c : Char) :
    (initial n).overflows c = false := by
  simp [overflows, initial, maxListDepth]

/-- A character of a value opens a bracket, closes the innermost one or leaves those that are open;
it opens one only outside of quotes. -/
theorem ValueState.next_cases (v : ValueState) (n : Nat) (c : Char) :
    (v.next n c).start = v.start ∧ (v.next n c).read = c :: v.read ∧
      ((v.next n c).opened = v.opened ∨
        (v.quote = none ∧ c = '[' ∧ (v.next n c).opened = n :: v.opened) ∨
        (v.next n c).opened = v.opened.drop 1) := by
  obtain ⟨start, read, opened, fresh, quote⟩ := v
  cases quote with
  | some q => exact ⟨rfl, rfl, Or.inl rfl⟩
  | none =>
    simp only [next]
    split_ifs with hquote hopen hclose
    · exact ⟨rfl, rfl, Or.inl rfl⟩
    · exact ⟨rfl, rfl, Or.inr (Or.inl ⟨trivial, hopen, rfl⟩)⟩
    · exact ⟨rfl, rfl, Or.inr (Or.inr rfl)⟩
    all_goals exact ⟨rfl, rfl, Or.inl rfl⟩

namespace Scanner

/-! ### Moves -/

/-- `Move extent n p c es p'`: the character `c` at offset `n` leads from part `p` to part `p'` and
completes the tokens `es`, the latest first. -/
inductive Move (extent : Extent) (n : Nat) : Part → Char → List Token → Part → Prop
  | familyChar {start : Nat} {read : List Char} {c : Char} :
      Text.isNameChar c = true →
        Move extent n (.family start read) c [] (.family start (c :: read))
  | familyEnd {start : Nat} {read : List Char} :
      read ≠ [] →
        Move extent n (.family start read) '.'
          [Token.ofChars .separator n ['.'], Token.ofChars .familyName start read.reverse]
          (.function (n + '.'.utf8Size) [])
  | functionChar {start : Nat} {read : List Char} {c : Char} :
      Text.isNameChar c = true →
        Move extent n (.function start read) c [] (.function start (c :: read))
  | functionBlank {start : Nat} {read : List Char} {c : Char} :
      read ≠ [] → Text.isBlank c = true →
        Move extent n (.function start read) c
          [Token.ofChars .functionName start read.reverse] (.gap n)
  | functionOpen {start : Nat} {read : List Char} :
      read ≠ [] →
        Move extent n (.function start read) '{'
          [Token.ofChars .paramOpen n ['{'], Token.ofChars .functionName start read.reverse]
          (.entry true)
  | gapBlank {ended : Nat} {c : Char} :
      Text.isBlank c = true → Move extent n (.gap ended) c [] (.gap ended)
  | gapOpen {ended : Nat} :
      Move extent n (.gap ended) '{' [Token.ofChars .paramOpen n ['{']] (.entry true)
  | entryBlank {first : Bool} {c : Char} :
      Text.isBlank c = true → Move extent n (.entry first) c [] (.entry first)
  | entryName {first : Bool} {c : Char} :
      Text.isNameChar c = true → Move extent n (.entry first) c [] (.name n [c])
  | entryClose :
      extent = .whole →
        Move extent n (.entry true) '}' [Token.ofChars .paramClose n ['}']] .closed
  | nameChar {start : Nat} {read : List Char} {c : Char} :
      Text.isNameChar c = true →
        Move extent n (.name start read) c [] (.name start (c :: read))
  | nameBlank {start : Nat} {read : List Char} {c : Char} :
      Text.isBlank c = true →
        Move extent n (.name start read) c [Token.ofChars .paramName start read.reverse] .equals
  | nameSign {start : Nat} {read : List Char} :
      Move extent n (.name start read) '='
        [Token.ofChars .paramEquals n ['='], Token.ofChars .paramName start read.reverse]
        .beforeValue
  | equalsBlank {c : Char} :
      Text.isBlank c = true → Move extent n .equals c [] .equals
  | equalsSign :
      Move extent n .equals '=' [Token.ofChars .paramEquals n ['=']] .beforeValue
  | valueBlank {c : Char} :
      Text.isBlank c = true → Move extent n .beforeValue c [] .beforeValue
  | valueStart {c : Char} :
      Text.isBlank c = false → c ≠ ',' → c ≠ '}' →
        Move extent n .beforeValue c [] (.value ((ValueState.initial n).next n c))
  | valueChar {v : ValueState} {c : Char} :
      v.ends c = false → v.overflows c = false →
        Move extent n (.value v) c [] (.value (v.next n c))
  | valueComma {v : ValueState} :
      v.ends ',' = true →
        Move extent n (.value v) ','
          [Token.ofChars .paramSeparator n [','], Token.ofChars .paramValue v.start v.chars]
          (.entry false)
  | valueClose {v : ValueState} :
      extent = .whole → v.ends '}' = true →
        Move extent n (.value v) '}'
          [Token.ofChars .paramClose n ['}'], Token.ofChars .paramValue v.start v.chars] .closed
  | closedBlank {c : Char} :
      Text.isBlank c = true → Move extent n .closed c [] .closed

/-! ### The scanner goes on by moves -/

section

variable {extent : Extent} {s s' : Scanner} {c : Char}

theorem afterFunction_eq_next {ended : Nat} (h : afterFunction extent s ended c = .next s') :
    (Text.isBlank c = true ∧ s' = ⟨s.tokens, s.pos + c.utf8Size, .gap ended⟩) ∨
      (c = '{' ∧ s' = ⟨Token.ofChars .paramOpen s.pos ['{'] :: s.tokens, s.pos + c.utf8Size,
        .entry true⟩) := by
  unfold afterFunction at h
  split_ifs at h with hb ho
  · exact Or.inl ⟨hb, (Step.next.inj h).symm⟩
  · subst ho
    exact Or.inr ⟨rfl, (Step.next.inj h).symm⟩
  · cases extent <;> cases h

theorem afterName_eq_next (h : afterName s c = .next s') :
    (Text.isBlank c = true ∧ s' = ⟨s.tokens, s.pos + c.utf8Size, .equals⟩) ∨
      (c = '=' ∧ s' = ⟨Token.ofChars .paramEquals s.pos ['='] :: s.tokens, s.pos + c.utf8Size,
        .beforeValue⟩) := by
  unfold afterName at h
  split_ifs at h with hb he
  · exact Or.inl ⟨hb, (Step.next.inj h).symm⟩
  · subst he
    exact Or.inr ⟨rfl, (Step.next.inj h).symm⟩
  · cases h

theorem close_eq_next (h : close extent s c = .next s') :
    extent = .whole ∧
      s' = ⟨Token.ofChars .paramClose s.pos [c] :: s.tokens, s.pos + c.utf8Size, .closed⟩ := by
  cases extent with
  | whole => exact ⟨rfl, (Step.next.inj h).symm⟩
  | leading => cases h

theorem inValue_eq_next {v : ValueState} (h : inValue extent s v c = .next s') :
    (v.ends c = true ∧ c = ',' ∧ s' = ⟨Token.ofChars .paramSeparator s.pos [','] ::
        Token.ofChars .paramValue v.start v.chars :: s.tokens, s.pos + c.utf8Size,
        .entry false⟩) ∨
      (extent = .whole ∧ v.ends c = true ∧ c = '}' ∧ s' = ⟨Token.ofChars .paramClose s.pos ['}'] ::
        Token.ofChars .paramValue v.start v.chars :: s.tokens, s.pos + c.utf8Size, .closed⟩) ∨
      (v.ends c = false ∧ v.overflows c = false ∧
        s' = ⟨s.tokens, s.pos + c.utf8Size, .value (v.next s.pos c)⟩) := by
  unfold inValue at h
  split_ifs at h with he hc ho
  · subst hc
    exact Or.inl ⟨he, rfl, (Step.next.inj h).symm⟩
  · obtain ⟨hw, hs⟩ := close_eq_next h
    obtain rfl : c = '}' := (ValueState.ends_iff.mp he).2.2.resolve_left hc
    exact Or.inr (Or.inl ⟨hw, he, rfl, hs⟩)
  · exact Or.inr (Or.inr ⟨Bool.eq_false_iff.mpr he, Bool.eq_false_iff.mpr ho,
      (Step.next.inj h).symm⟩)

theorem beforeName_eq_next {first : Bool} (h : beforeName extent s first c = .next s') :
    (Text.isBlank c = true ∧ s' = ⟨s.tokens, s.pos + c.utf8Size, .entry first⟩) ∨
      (Text.isNameChar c = true ∧ s' = ⟨s.tokens, s.pos + c.utf8Size, .name s.pos [c]⟩) ∨
      (extent = .whole ∧ first = true ∧ c = '}' ∧
        s' = ⟨Token.ofChars .paramClose s.pos ['}'] :: s.tokens, s.pos + c.utf8Size,
          .closed⟩) := by
  unfold beforeName at h
  split_ifs at h with hb hn hc
  · exact Or.inl ⟨hb, (Step.next.inj h).symm⟩
  · exact Or.inr (Or.inl ⟨hn, (Step.next.inj h).symm⟩)
  · simp only [Bool.and_eq_true, beq_iff_eq] at hc
    obtain ⟨hf, rfl⟩ := hc
    obtain ⟨hw, hs⟩ := close_eq_next h
    exact Or.inr (Or.inr ⟨hw, hf, rfl, hs⟩)
  · cases h
  · cases h

end

/-- A step of the scanner that does not stop it is a move. -/
theorem move_of_step {extent : Extent} {ts : List Token} {n : Nat} {p : Part} {c : Char}
    {s' : Scanner} (h : step extent ⟨ts, n, p⟩ c = .next s') :
    ∃ es p', Move extent n p c es p' ∧ s' = ⟨es ++ ts, n + c.utf8Size, p'⟩ := by
  cases p with
  | family start read =>
    simp only [step] at h
    split_ifs at h with hn hr hc
    · exact ⟨_, _, .familyChar hn, (Step.next.inj h).symm⟩
    · cases h
    · subst hc
      exact ⟨_, _, .familyEnd (by simpa using hr), (Step.next.inj h).symm⟩
    · cases h
  | function start read =>
    simp only [step] at h
    split_ifs at h with hn hr
    · exact ⟨_, _, .functionChar hn, (Step.next.inj h).symm⟩
    · cases h
    · rcases afterFunction_eq_next h with ⟨hb, rfl⟩ | ⟨rfl, rfl⟩
      · exact ⟨_, _, .functionBlank (by simpa using hr) hb, rfl⟩
      · exact ⟨_, _, .functionOpen (by simpa using hr), rfl⟩
  | gap ended =>
    rcases afterFunction_eq_next h with ⟨hb, rfl⟩ | ⟨rfl, rfl⟩
    · exact ⟨_, _, .gapBlank hb, rfl⟩
    · exact ⟨_, _, .gapOpen, rfl⟩
  | entry first =>
    rcases beforeName_eq_next h with ⟨hb, rfl⟩ | ⟨hn, rfl⟩ | ⟨hw, rfl, rfl, rfl⟩
    · exact ⟨_, _, .entryBlank hb, rfl⟩
    · exact ⟨_, _, .entryName hn, rfl⟩
    · exact ⟨_, _, .entryClose hw, rfl⟩
  | name start read =>
    simp only [step] at h
    split_ifs at h with hn
    · exact ⟨_, _, .nameChar hn, (Step.next.inj h).symm⟩
    · rcases afterName_eq_next h with ⟨hb, rfl⟩ | ⟨rfl, rfl⟩
      · exact ⟨_, _, .nameBlank hb, rfl⟩
      · exact ⟨_, _, .nameSign, rfl⟩
  | equals =>
    rcases afterName_eq_next h with ⟨hb, rfl⟩ | ⟨rfl, rfl⟩
    · exact ⟨_, _, .equalsBlank hb, rfl⟩
    · exact ⟨_, _, .equalsSign, rfl⟩
  | beforeValue =>
    simp only [step] at h
    split_ifs at h with hb hc
    · exact ⟨_, _, .valueBlank hb, (Step.next.inj h).symm⟩
    · cases h
    · simp only [Bool.or_eq_true, decide_eq_true_eq, not_or] at hc
      rcases inValue_eq_next h with ⟨-, hcomma, -⟩ | ⟨-, -, hbrace, -⟩ | ⟨-, -, rfl⟩
      · exact absurd hcomma hc.1
      · exact absurd hbrace hc.2
      · exact ⟨_, _, .valueStart (Bool.eq_false_iff.mpr hb) hc.1 hc.2, rfl⟩
  | value v =>
    rcases inValue_eq_next h with ⟨he, rfl, rfl⟩ | ⟨hw, he, rfl, rfl⟩ | ⟨he, ho, rfl⟩
    · exact ⟨_, _, .valueComma he, rfl⟩
    · exact ⟨_, _, .valueClose hw he, rfl⟩
    · exact ⟨_, _, .valueChar he ho, rfl⟩
  | closed =>
    simp only [step] at h
    split_ifs at h with hb
    · exact ⟨_, _, .closedBlank hb, (Step.next.inj h).symm⟩
    · cases h

/-- The scanner makes every move there is. -/
theorem step_of_move {extent : Extent} {ts es : List Token} {n : Nat} {p p' : Part} {c : Char}
    (h : Move extent n p c es p') :
    step extent ⟨ts, n, p⟩ c = .next ⟨es ++ ts, n + c.utf8Size, p'⟩ := by
  cases h with
  | familyChar hn => simp [step, hn, pass]
  | familyEnd hr =>
    have hn : Text.isNameChar '.' = false := by decide
    simp [step, hn, hr, emit, punctuate, pass]
  | functionChar hn => simp [step, hn, pass]
  | functionBlank hr hb =>
    simp [step, Text.isNameChar_eq_false_of_isBlank hb, hr, afterFunction, hb, emit, pass]
  | functionOpen hr =>
    have hn : Text.isNameChar '{' = false := by decide
    have hb : Text.isBlank '{' = false := by decide
    simp [step, hn, hr, afterFunction, hb, emit, punctuate, pass]
  | gapBlank hb => simp [step, afterFunction, hb, pass]
  | gapOpen =>
    have hb : Text.isBlank '{' = false := by decide
    simp [step, afterFunction, hb, emit, punctuate, pass]
  | entryBlank hb => simp [step, beforeName, hb, pass]
  | entryName hn =>
    have hb : Text.isBlank c = false := Text.not_isBlank_of_isNameChar hn
    simp [step, beforeName, hb, hn, pass]
  | entryClose hw =>
    have hn : Text.isNameChar '}' = false := by decide
    have hb : Text.isBlank '}' = false := by decide
    simp [step, beforeName, hb, hn, close, hw, emit, pass]
  | nameChar hn => simp [step, hn, pass]
  | nameBlank hb =>
    simp [step, Text.isNameChar_eq_false_of_isBlank hb, afterName, hb, emit, pass]
  | nameSign =>
    have hn : Text.isNameChar '=' = false := by decide
    have hb : Text.isBlank '=' = false := by decide
    simp [step, hn, afterName, hb, emit, punctuate, pass]
  | equalsBlank hb => simp [step, afterName, hb, pass]
  | equalsSign =>
    have hb : Text.isBlank '=' = false := by decide
    simp [step, afterName, hb, emit, punctuate, pass]
  | valueBlank hb => simp [step, hb, pass]
  | valueStart hb hcomma hbrace =>
    simp [step, hb, hcomma, hbrace, inValue, ValueState.ends_initial hcomma hbrace, pass]
  | valueChar he ho => simp [step, inValue, he, ho, pass]
  | valueComma he => simp [step, inValue, he, emit, punctuate, pass]
  | valueClose hw he => simp [step, inValue, he, close, hw, emit, pass]
  | closedBlank hb => simp [step, hb, pass]

/-! ### The token at hand -/

/-- What has been read of a token that is not complete. -/
def pending : Part → List Char
  | .family _ read => read.reverse
  | .function _ read => read.reverse
  | .name _ read => read.reverse
  | .value v => v.read.reverse
  | _ => []

/-- `Completes p es`: the tokens `es` complete what has been read in part `p`. -/
inductive Completes : Part → List Token → Prop
  | family {start : Nat} {read : List Char} :
      Completes (.family start read) [Token.ofChars .familyName start read.reverse]
  | function {start : Nat} {read : List Char} :
      Completes (.function start read) [Token.ofChars .functionName start read.reverse]
  | name {start : Nat} {read : List Char} :
      Completes (.name start read) [Token.ofChars .paramName start read.reverse]
  | value {v : ValueState} :
      Completes (.value v) [Token.ofChars .paramValue v.start v.chars]
  | nothing {p : Part} : pending p = [] → Completes p []

/-! ### Stops -/

/-- `Fails n p c es fault`: in part `p` the character `c` at offset `n` stops the scanner with a
fault; the tokens `es` complete what has been read, except for a value, which stays without one. -/
inductive Fails (n : Nat) : Part → Char → List Token → ScanFault → Prop
  | unexpected {p : Part} {c : Char} {es : List Token} (e : Expectation) :
      Completes p es → (∀ v, p ≠ .value v) →
        Fails n p c es (.unexpected e (Span.ofSize n c.utf8Size))
  | nestingTooDeep {v : ValueState} {c : Char} :
      v.overflows c = true →
        Fails n (.value v) c [] (.nestingTooDeep (Span.ofSize n c.utf8Size))

/-- A fault that lies with the character `c` at offset `n`. -/
inductive FaultAt (n : Nat) (c : Char) : ScanFault → Prop
  | unexpected (e : Expectation) : FaultAt n c (.unexpected e (Span.ofSize n c.utf8Size))
  | nestingTooDeep : FaultAt n c (.nestingTooDeep (Span.ofSize n c.utf8Size))

/-- If the step stops the scanner, then at a fault that lies with the character `c` at `n`. -/
def StopsAt (n : Nat) (c : Char) : Step → Prop
  | .next _ => True
  | .stop result => ∃ fault, result.outcome = .error fault ∧ FaultAt n c fault

section

variable {ts es : List Token} {n : Nat} {p : Part} {c : Char} {result : Scan}

theorem Fails.faultAt {fault : ScanFault} (h : Fails n p c es fault) : FaultAt n c fault := by
  cases h with
  | unexpected e => exact .unexpected e
  | nestingTooDeep => exact .nestingTooDeep

theorem fails_of_reject {s : Scanner} {e : Expectation} (h : s.reject c e = .stop result)
    (hp : Completes p es) (hv : ∀ v, p ≠ .value v) (hs : s.tokens = es ++ ts) :
    ∃ es fault, Fails s.pos p c es fault ∧ result = ⟨(es ++ ts).reverse, .error fault⟩ := by
  refine ⟨es, _, .unexpected e hp hv, ?_⟩
  rw [← hs]
  exact (Step.stop.inj h).symm

theorem fails_of_afterFunction {s : Scanner} {ended : Nat}
    (h : afterFunction .whole s ended c = .stop result) (hp : Completes p es)
    (hv : ∀ v, p ≠ .value v) (hs : s.tokens = es ++ ts) :
    ∃ es fault, Fails s.pos p c es fault ∧ result = ⟨(es ++ ts).reverse, .error fault⟩ := by
  unfold afterFunction at h
  split_ifs at h
  · cases h
  · cases h
  · exact fails_of_reject h hp hv hs

theorem fails_of_afterName {s : Scanner} (h : afterName s c = .stop result) (hp : Completes p es)
    (hv : ∀ v, p ≠ .value v) (hs : s.tokens = es ++ ts) :
    ∃ es fault, Fails s.pos p c es fault ∧ result = ⟨(es ++ ts).reverse, .error fault⟩ := by
  unfold afterName at h
  split_ifs at h
  · cases h
  · cases h
  · exact fails_of_reject h hp hv hs

/-- On a whole text a step that stops the scanner is a failure. -/
theorem fails_of_step (h : step .whole ⟨ts, n, p⟩ c = .stop result) :
    ∃ es fault, Fails n p c es fault ∧ result = ⟨(es ++ ts).reverse, .error fault⟩ := by
  have hvalue : ∀ {v}, inValue .whole ⟨ts, n, p⟩ v c = .stop result → v.overflows c = true ∧
      result = ⟨ts.reverse, .error (.nestingTooDeep (Span.ofSize n c.utf8Size))⟩ := by
    intro v h
    unfold inValue at h
    split_ifs at h with he hc ho
    · cases h
    · cases h
    · exact ⟨ho, (Step.stop.inj h).symm⟩
    · cases h
  cases p with
  | family start read =>
    simp only [step] at h
    split_ifs at h with hn hr
    · cases h
    · refine fails_of_reject h (.nothing ?_) (by simp) rfl
      simpa [pending] using hr
    · cases h
    · exact fails_of_reject h .family (by simp) rfl
  | function start read =>
    simp only [step] at h
    split_ifs at h with hn hr
    · cases h
    · refine fails_of_reject h (.nothing ?_) (by simp) rfl
      simpa [pending] using hr
    · exact fails_of_afterFunction h .function (by simp) rfl
  | gap ended => exact fails_of_afterFunction h (.nothing rfl) (by simp) rfl
  | entry first =>
    simp only [step, beforeName] at h
    split_ifs at h
    · cases h
    · cases h
    · cases h
    · exact fails_of_reject h (.nothing rfl) (by simp) rfl
    · exact fails_of_reject h (.nothing rfl) (by simp) rfl
  | name start read =>
    simp only [step] at h
    split_ifs at h
    · cases h
    · exact fails_of_afterName h .name (by simp) rfl
  | equals => exact fails_of_afterName h (.nothing rfl) (by simp) rfl
  | beforeValue =>
    simp only [step] at h
    split_ifs at h
    · cases h
    · exact fails_of_reject h (.nothing rfl) (by simp) rfl
    · -- no bracket is open yet
      obtain ⟨ho, -⟩ := hvalue h
      rw [ValueState.overflows_initial] at ho
      cases ho
  | value v =>
    obtain ⟨ho, rfl⟩ := hvalue h
    exact ⟨[], _, .nestingTooDeep ho, rfl⟩
  | closed =>
    simp only [step] at h
    split_ifs at h
    · cases h
    · exact fails_of_reject h (.nothing rfl) (by simp) rfl

/-- On a whole text the scanner stops only at a fault, and the fault lies with the character that
stops it. -/
theorem stopsAt_step {s : Scanner} : StopsAt s.pos c (step .whole s c) := by
  obtain ⟨ts, n, p⟩ := s
  cases hs : step .whole ⟨ts, n, p⟩ c with
  | next s' => trivial
  | stop result =>
    obtain ⟨es, fault, hfails, rfl⟩ := fails_of_step hs
    exact ⟨fault, rfl, hfails.faultAt⟩

end

/-! ### The end of a text -/

/-- `Unfinished n v fault`: in a text of `n` bytes the value is not complete at the end. -/
inductive Unfinished (n : Nat) : ValueState → ScanFault → Prop
  | openQuote {v : ValueState} {q : Char} {start : Nat} :
      v.quote = some (q, start) → Unfinished n v (.openQuote q (Span.ofBounds start n))
  | openList {v : ValueState} {opened : Nat} :
      v.quote = none → v.opened.getLast? = some opened → Unfinished n v (.openList opened n)

section

variable {ts : List Token} {n : Nat} {p : Part}

theorem completes_emitName {kind : TokenKind} {start : Nat} {read : List Char}
    (hp : Completes p [Token.ofChars kind start read.reverse]) (hread : pending p = read.reverse) :
    ∃ es, Completes p es ∧ (emitName ⟨ts, n, p⟩ kind start read).accept n =
      ⟨(es ++ ts).reverse, .ok n⟩ := by
  unfold emitName
  split_ifs with hr
  · rw [List.isEmpty_iff] at hr
    exact ⟨[], .nothing (by rw [hread, hr, List.reverse_nil]), rfl⟩
  · exact ⟨_, hp, rfl⟩

/-- At the end of a whole text the token at hand is completed, unless it is a value that cannot
end there. -/
theorem finish_cases (ts : List Token) (n : Nat) (p : Part) :
    (∃ es, Completes p es ∧ finish .whole ⟨ts, n, p⟩ = ⟨(es ++ ts).reverse, .ok n⟩) ∨
      ∃ v fault, p = .value v ∧ Unfinished n v fault ∧
        finish .whole ⟨ts, n, p⟩ = ⟨ts.reverse, .error fault⟩ := by
  cases p with
  | family start read => exact Or.inl (completes_emitName .family rfl)
  | function start read => exact Or.inl (completes_emitName .function rfl)
  | name start read => exact Or.inl (completes_emitName .name rfl)
  | value v =>
    cases hq : v.quote with
    | some q =>
      refine Or.inr ⟨v, _, rfl, .openQuote hq, ?_⟩
      simp only [finish, hq]
      rfl
    | none =>
      cases hlast : v.opened.getLast? with
      | some o =>
        refine Or.inr ⟨v, _, rfl, .openList hq hlast, ?_⟩
        simp only [finish, hq, hlast]
        rfl
      | none =>
        refine Or.inl ⟨_, .value, ?_⟩
        simp only [finish, hq, hlast]
        rfl
  | _ => exact Or.inl ⟨[], .nothing rfl, rfl⟩

end

/-! ### Runs -/

/-- The state behind the mark. -/
def start : Scanner :=
  ⟨[Token.ofChars .mark 0 mark.toList], 3, .family 3 []⟩

/-- The scanner is in state `s` after the text `cs`. -/
inductive Reached (extent : Extent) : List Char → Scanner → Prop
  | start : Reached extent mark.toList start
  | move {cs : List Char} {ts es : List Token} {n : Nat} {p p' : Part} {c : Char} :
      Reached extent cs ⟨ts, n, p⟩ → Move extent n p c es p' →
        Reached extent (cs ++ [c]) ⟨es ++ ts, n + c.utf8Size, p'⟩

theorem ofChars_mark (extent : Extent) (cs : List Char) :
    Scan.ofChars extent (mark.toList ++ cs) = run extent start cs :=
  rfl

/-- A text without the mark in front is rejected at its first character. -/
theorem ofChars_of_not_mark {extent : Extent} {cs : List Char}
    (h : ∀ rest, cs ≠ mark.toList ++ rest) : Scan.ofChars extent cs =
      ⟨[], .error (.unexpected .mark (Span.ofSize 0 (Text.size (cs.take 1))))⟩ := by
  unfold Scan.ofChars
  have hmark : afterMark? cs = none := by
    unfold afterMark?
    split
    · exact absurd rfl (h _)
    · rfl
  rw [hmark]

namespace Reached

variable {extent : Extent} {cs : List Char} {s : Scanner}

/-- The offset of a state is the size of the text that led to it. -/
theorem pos_eq (h : Reached extent cs s) : s.pos = Text.size cs := by
  induction h with
  | start => decide
  | move _ _ ih =>
    rw [Text.size_append, ← ih]
    simp [Text.size_cons, Text.size_nil]

/-- What a scan finds is decided by the state reached and the rest of the text. -/
theorem ofChars_append (h : Reached extent cs s) (rest : List Char) :
    Scan.ofChars extent (cs ++ rest) = run extent s rest := by
  induction h generalizing rest with
  | start => exact ofChars_mark extent rest
  | move _ hm ih =>
    rw [List.append_assoc, List.singleton_append, ih, run, step_of_move hm]

theorem ofChars_eq (h : Reached extent cs s) : Scan.ofChars extent cs = finish extent s := by
  have := h.ofChars_append []
  rwa [List.append_nil] at this

theorem ofChars_stop {c : Char} {result : Scan} (h : Reached extent cs s)
    (hs : step extent s c = .stop result) (rest : List Char) :
    Scan.ofChars extent (cs ++ c :: rest) = result := by
  rw [h.ofChars_append, run, hs]

/-- From a reached state the scanner gets through the rest of the text, or a character of the rest
stops it. -/
theorem extend (h : Reached extent cs s) (rest : List Char) :
    (∃ s', Reached extent (cs ++ rest) s') ∨
      ∃ pre c post s' result, rest = pre ++ c :: post ∧ Reached extent (cs ++ pre) s' ∧
        step extent s' c = .stop result := by
  induction rest generalizing cs s with
  | nil => exact Or.inl ⟨s, by rwa [List.append_nil]⟩
  | cons c rest ih =>
    obtain ⟨ts, n, p⟩ := s
    cases hs : step extent ⟨ts, n, p⟩ c with
    | stop result =>
      exact Or.inr ⟨[], c, rest, _, result, rfl, by rwa [List.append_nil], hs⟩
    | next s' =>
      obtain ⟨es, p', hm, rfl⟩ := move_of_step hs
      rcases ih (h.move hm) with ⟨s', h'⟩ | ⟨pre, d, post, s', result, rfl, h', hstop⟩
      · exact Or.inl ⟨s', by simpa using h'⟩
      · exact Or.inr ⟨c :: pre, d, post, s', result, rfl, by simpa using h', hstop⟩

end Reached

/-! ### Scans of whole texts -/

/-- How the scan of a whole text goes: there is no mark in front, or the scanner gets through the
text, where the token at hand is complete or a value cannot end, or a character stops it. -/
inductive Course : List Char → Scan → Prop
  | unmarked {cs : List Char} :
      (∀ rest, cs ≠ mark.toList ++ rest) →
        Course cs ⟨[], .error (.unexpected .mark (Span.ofSize 0 (Text.size (cs.take 1))))⟩
  | complete {cs : List Char} {ts es : List Token} {n : Nat} {p : Part} :
      Reached .whole cs ⟨ts, n, p⟩ → Completes p es → Course cs ⟨(es ++ ts).reverse, .ok n⟩
  | unfinished {cs : List Char} {ts : List Token} {n : Nat} {v : ValueState} {fault : ScanFault} :
      Reached .whole cs ⟨ts, n, .value v⟩ → Unfinished n v fault →
        Course cs ⟨ts.reverse, .error fault⟩
  | stopped {cs rest : List Char} {ts es : List Token} {n : Nat} {p : Part} {c : Char}
      {fault : ScanFault} :
      Reached .whole cs ⟨ts, n, p⟩ → Fails n p c es fault →
        Course (cs ++ c :: rest) ⟨(es ++ ts).reverse, .error fault⟩

/-- Every scan of a whole text goes one of these ways. -/
theorem course_ofChars (cs : List Char) : Course cs (Scan.ofChars .whole cs) := by
  by_cases hmark : ∃ rest, cs = mark.toList ++ rest
  · obtain ⟨rest, rfl⟩ := hmark
    have hstart : Reached .whole mark.toList start := .start
    rcases hstart.extend rest with ⟨⟨ts, n, p⟩, hs⟩ | ⟨pre, c, post, ⟨ts, n, p⟩, result, rfl, hs,
      hstop⟩
    · rw [hs.ofChars_eq]
      rcases finish_cases ts n p with ⟨es, hp, hfinish⟩ | ⟨v, fault, rfl, hv, hfinish⟩
      · rw [hfinish]
        exact .complete hs hp
      · rw [hfinish]
        exact .unfinished hs hv
    · rw [← List.append_assoc, hs.ofChars_stop hstop]
      obtain ⟨es, fault, hfails, rfl⟩ := fails_of_step hstop
      exact .stopped hs hfails
  · rw [not_exists] at hmark
    rw [ofChars_of_not_mark hmark]
    exact .unmarked hmark

/-- Where the scan of a whole text succeeds, the scanner gets through the text, and the token at
hand is complete. -/
theorem exists_complete_of_ok {cs : List Char} {n : Nat}
    (h : (Scan.ofChars .whole cs).outcome = .ok n) : ∃ ts es p, Reached .whole cs ⟨ts, n, p⟩ ∧
      Completes p es ∧ Scan.ofChars .whole cs = ⟨(es ++ ts).reverse, .ok n⟩ := by
  have hcourse := course_ofChars cs
  generalize Scan.ofChars .whole cs = scan at h hcourse
  cases hcourse with
  | complete hs hp =>
    obtain rfl := Except.ok.inj h
    exact ⟨_, _, _, hs, hp, rfl⟩
  | unmarked => cases h
  | unfinished => cases h
  | stopped => cases h

/-- A scan of a whole text that succeeds spans all of it. -/
theorem eq_size_of_ok {cs : List Char} {n : Nat}
    (h : (Scan.ofChars .whole cs).outcome = .ok n) : n = Text.size cs := by
  obtain ⟨ts, es, p, hs, -, -⟩ := exists_complete_of_ok h
  exact hs.pos_eq

end Scanner

/-- A scan has a stream if it has no fault, and the end token stands where the directive ends. -/
theorem Scan.stream?_eq_ok_iff {scan : Scan} {tokens : List Token} {n : Nat} :
    scan.stream? = .ok (tokens, n) ↔
      scan.outcome = .ok n ∧ tokens = scan.tokens ++ [Token.ending n] := by
  unfold stream?
  cases scan.outcome with
  | error fault => simp [Except.map]
  | ok m =>
    simp only [Except.map, Except.ok.injEq, Prod.mk.injEq]
    constructor
    · rintro ⟨rfl, rfl⟩
      exact ⟨rfl, rfl⟩
    · rintro ⟨rfl, rfl⟩
      exact ⟨rfl, rfl⟩

end Directive
