import Directive.Proofs.Tiling
import Directive.Proofs.ValueStates

/-!
# The stream of a text that cannot be scanned

Where scanning fails, the stream ends with one invalid token, from the earliest label of the fault
to the end of the text.  The tokens of the stream stand one behind the other, each with the text
under its span; the question is whether all of the text is in them.

A fault outside of values leaves nothing out.  Inside a value the complete tokens end where the
value begins, and the fault may be marked further on: at a quote inside a list, at the bracket that
is one too many, or at a bracket with text of the value before it.  The characters in between are in
no token.  `Remnant` says which they are for each code, and `scan_of_tokenize_error` that these are
all that a stream leaves out, but for blanks.
-/

namespace Directive

/-! ### Covered texts -/

/-- Every character of the text that is no blank is in a token. -/
def Covered (ts : List Token) (cs : List Char) : Prop :=
  ∀ pre c post, cs = pre ++ c :: post → Text.isBlank c = false →
    ∃ t ∈ ts, t.span.Covers (Text.size pre)

theorem Laid.covered {ts : List Token} {cs : List Char} (h : Tiling cs ts) : Covered ts cs := by
  intro pre c post hcs hc
  by_contra hno
  have hnot : ∀ t ∈ ts, ¬t.span.Covers (Text.size pre) := fun t ht hcovers =>
    hno ⟨t, ht, hcovers⟩
  have hblank := h.gap_of_not_covers hcs hnot
  rw [hc] at hblank
  cases hblank

theorem covered_reverse_iff {ts : List Token} {cs : List Char} :
    Covered ts.reverse cs ↔ Covered ts cs := by
  simp only [Covered, List.mem_reverse]

/-! ### Streams with an invalid token -/

/-- The tokens, then the rest of the text as one invalid token, and the end of the text. -/
def closedAt (ts : List Token) (front rest : List Char) : List Token :=
  ts ++ [Token.ofChars .invalid (Text.size front) rest, Token.ending (Text.size (front ++ rest))]

section

variable {gap : Char → Prop} {front lost rest : List Char} {ts : List Token}

theorem Laid.closedAt (h : Laid gap front ts.reverse) :
    Laid gap (front ++ rest) (closedAt ts front rest).reverse := by
  have hend := (h.token .invalid rest).token .endOfInput []
  rw [List.append_nil] at hend
  rw [Directive.closedAt, List.reverse_append]
  exact hend

/-- The characters between the last token and the invalid one are in none. -/
theorem not_covered_closedAt {c : Char} (h : Tiling front ts.reverse)
    (hc : Text.isBlank c = false) :
    ¬Covered (closedAt ts (front ++ c :: lost) rest) (front ++ c :: lost ++ rest) := by
  intro hcovered
  have hpos := c.utf8Size_pos
  have hsize : Text.size (front ++ c :: lost) =
      Text.size front + (c.utf8Size + Text.size lost) := by
    rw [Text.size_append, Text.size_cons]
  obtain ⟨t, ht, hstart, hstop⟩ := hcovered front c (lost ++ rest) (by simp) hc
  rcases List.mem_append.mp ht with ht | ht
  · have := h.stop_le t (List.mem_reverse.mpr ht)
    omega
  · rcases List.mem_pair.mp ht with rfl | rfl
    · have : Text.size (front ++ c :: lost) ≤ Text.size front := hstart
      omega
    · have : Text.size (front ++ c :: lost ++ rest) ≤ Text.size front := hstart
      rw [Text.size_append] at this
      omega

end

/-! ### What a fault leaves out -/

/-- In a value that begins at offset `n`, a fault with the given code leaves out the characters
`lost` at the beginning of the value; `rest` is the text from its earliest label on. -/
inductive Remnant (n : Nat) : Code → List Char → List Char → Prop
  | unexpected (rest : List Char) : Remnant n .unexpectedCharacter [] rest
  /-- The quote is the first character of the value, or of an element in an open list. -/
  | openQuote {lost rest : List Char} {q : Char} :
      Text.isQuote q = true → (lost = [] ↔ ((ValueState.initial n).after lost).opened = []) →
        Remnant n .unterminatedQuote lost (q :: rest)
  /-- All the brackets that may be open are open. -/
  | nestingTooDeep {lost rest : List Char} :
      ((ValueState.initial n).after lost).opened.length = maxListDepth →
        Remnant n .nestingTooDeep lost ('[' :: rest)
  /-- The bracket is the outermost of those that stay open. -/
  | openList {lost rest : List Char} :
      ((ValueState.initial n).after lost).opened = [] → Remnant n .unclosedList lost ('[' :: rest)

namespace Scanner

/-- Where the fault lies: the complete tokens tile the text `front`, the scanner goes through `lost`
as the beginning of a value behind it, and the earliest label of the fault is behind that. -/
structure Breaks (cs : List Char) (ts : List Token) (fault : ScanFault)
    (front lost rest : List Char) : Prop where
  text : cs = front ++ (lost ++ rest)
  tiling : Tiling front ts.reverse
  traced : Traced .whole front lost
  earliest : fault.earliest = Text.size (front ++ lost)
  remnant : Remnant (Text.size front) fault.code lost rest

section

variable {cs rest : List Char} {ts : List Token} {n : Nat}

theorem breaks_unexpected (h : Tiling cs ts.reverse) (e : Expectation) (size : Nat) :
    Breaks (cs ++ rest) ts (.unexpected e (Span.ofSize (Text.size cs) size)) cs [] rest where
  text := rfl
  tiling := h
  traced := traced_nil .whole cs
  earliest := by rw [List.append_nil]; rfl
  remnant := .unexpected rest

/-- In a value, the complete tokens tile the text up to where the value begins. -/
theorem Reached.exists_tiled {v : ValueState} (h : Reached .whole cs ⟨ts, n, .value v⟩) :
    ∃ front t, cs = front ++ t ∧ v = (ValueState.initial (Text.size front)).after t ∧
      Traced .whole front t ∧ Tiling front ts := by
  obtain ⟨front, t, rfl, rfl, ht⟩ := h.exists_traced rfl
  obtain ⟨covered, hcs, htiling, -⟩ := h.tiled
  refine ⟨front, t, rfl, rfl, ht, ?_⟩
  simp only [pending, ValueState.read_after, ValueState.initial, List.append_nil,
    List.reverse_reverse] at hcs
  rw [List.append_cancel_right hcs]
  exact htiling

/-- A bracket that is one too many stands behind those that are open. -/
theorem Reached.breaks_of_overflows {v : ValueState} {c : Char} {size : Nat}
    (h : Reached .whole cs ⟨ts, n, .value v⟩) (ho : v.overflows c = true) : ∃ front lost,
      Breaks (cs ++ c :: rest) ts.reverse (.nestingTooDeep (Span.ofSize n size)) front lost
        (c :: rest) := by
  have hn : n = Text.size cs := h.pos_eq
  obtain ⟨front, t, rfl, rfl, ht, htiling⟩ := h.exists_tiled
  obtain ⟨-, rfl, hlength⟩ := ValueState.overflows_iff.mp ho
  refine ⟨front, t, by simp, ?_, ht, hn, .nestingTooDeep hlength⟩
  rwa [List.reverse_reverse]

/-- What is open at the end of a text was opened in its last value. -/
theorem Reached.breaks_of_unfinished {v : ValueState} {fault : ScanFault}
    (h : Reached .whole cs ⟨ts, n, .value v⟩) (hv : Unfinished n v fault) :
    ∃ front lost rest, Breaks cs ts.reverse fault front lost rest := by
  have hn : n = Text.size cs := h.pos_eq
  obtain ⟨front, t, rfl, rfl, ht, htiling⟩ := h.exists_tiled
  rw [← List.reverse_reverse ts] at htiling
  cases hv with
  | @openQuote q start hq =>
    obtain ⟨lost, post, rfl, hstart, hquote, hfresh⟩ := ValueState.exists_quote_of_after hq
    refine ⟨front, lost, q :: post, rfl, htiling, ht.of_append, ?_, .openQuote hquote ?_⟩
    · rw [Text.size_append]
      exact hstart
    · constructor
      · rintro rfl
        rfl
      · -- outside of lists an element begins with the value only
        intro hopened
        have hsettled := (ValueState.settled_initial (Text.size front)).after ht.of_append.admits
        obtain ⟨-, hlist | hblanks⟩ := hsettled hfresh
        · exact absurd hopened hlist
        · cases lost with
          | nil => rfl
          | cons c lost =>
            have hc : Text.isBlank c = false := ht.of_append.isBlank_head
            rw [ValueState.read_after] at hblanks
            have := hblanks c (by simp)
            rw [hc] at this
            cases this
  | @openList opened hq hlast =>
    obtain ⟨lost, post, rfl, hopened, hnone⟩ := ValueState.exists_bracket_of_after hlast
    refine ⟨front, lost, '[' :: post, rfl, htiling, ht.of_append, ?_, .openList hnone⟩
    have hle : opened ≤ n := by
      rw [hn, hopened, Text.size_append, Text.size_append]
      omega
    show min opened n = Text.size (front ++ lost)
    rw [Nat.min_eq_left hle, Text.size_append]
    exact hopened

end

/-- Where a whole text cannot be scanned, it breaks. -/
theorem exists_breaks {cs : List Char} {fault : ScanFault}
    (h : (Scan.ofChars .whole cs).outcome = .error fault) : ∃ front lost rest,
      Breaks cs (Scan.ofChars .whole cs).tokens fault front lost rest := by
  have hcourse := course_ofChars cs
  generalize Scan.ofChars .whole cs = scan at h hcourse ⊢
  cases hcourse with
  | unmarked =>
    obtain rfl := Except.error.inj h
    exact ⟨[], [], cs, rfl, .nil, traced_nil .whole [], rfl, .unexpected cs⟩
  | complete => cases h
  | unfinished hs hv =>
    obtain rfl := Except.error.inj h
    exact hs.breaks_of_unfinished hv
  | @stopped cs rest ts es n p c _ hs hfails =>
    obtain rfl := Except.error.inj h
    have hn : n = Text.size cs := hs.pos_eq
    cases hfails with
    | unexpected e hp =>
      rw [hn]
      refine ⟨_, [], _, breaks_unexpected ?_ e c.utf8Size⟩
      rw [List.reverse_reverse]
      exact hs.tiled.complete hp
    | nestingTooDeep ho =>
      obtain ⟨front, lost, hbreaks⟩ := hs.breaks_of_overflows ho
      exact ⟨front, lost, c :: rest, hbreaks⟩

/-- The stream of a text that breaks. -/
theorem Breaks.stream_eq {cs front lost rest : List Char} {scan : Scan} {fault : ScanFault}
    (h : Breaks cs scan.tokens fault front lost rest) (hscan : scan.outcome = .error fault) :
    scan.stream cs = closedAt scan.tokens (front ++ lost) rest := by
  have hcs : cs = front ++ lost ++ rest := by rw [h.text, List.append_assoc]
  have hle : fault.earliest ≤ Text.size cs := by
    rw [h.earliest, hcs, Text.size_append (front ++ lost)]
    omega
  simp only [Scan.stream, hscan, Nat.min_eq_left hle, closedAt]
  rw [h.earliest, hcs, Text.dropBytes_size]

end Scanner

/-! ### Streams of texts -/

theorem exists_fault_of_tokenize {text : String} {report : Report}
    (h : tokenize text = .error report) : ∃ fault,
      (Scan.ofChars .whole text.toList).outcome = .error fault ∧
        report = ⟨fault.diagnostic, text⟩ := by
  unfold tokenize Scan.stream? at h
  cases hscan : (Scan.ofChars .whole text.toList).outcome with
  | ok n =>
    rw [hscan] at h
    cases h
  | error fault =>
    rw [hscan] at h
    exact ⟨fault, rfl, (Except.error.inj h).symm⟩

theorem ScanFault.code_diagnostic (fault : ScanFault) :
    fault.diagnostic.code = some fault.code := by
  cases fault <;> rfl

/-- Where a text cannot be scanned, it breaks, and its stream is closed there. -/
theorem exists_breaks_of_tokenize {text : String} {report : Report}
    (h : tokenize text = .error report) : ∃ fault ts front lost rest,
      report = ⟨fault.diagnostic, text⟩ ∧ Scanner.Breaks text.toList ts fault front lost rest ∧
        scan text = closedAt ts (front ++ lost) rest := by
  obtain ⟨fault, hfault, hreport⟩ := exists_fault_of_tokenize h
  obtain ⟨front, lost, rest, hbreaks⟩ := Scanner.exists_breaks hfault
  exact ⟨fault, _, front, lost, rest, hreport, hbreaks, hbreaks.stream_eq hfault⟩

/-- Where a text cannot be scanned, its stream ends with the rest of the text as one invalid token
and with the empty end token.  The tokens are in the order of the text, have nothing in common, and
each has the text under its span.  What they leave out, but for blanks, is the beginning `lost` of a
value, which the code of the error tells; so they cover the text just when that is empty. -/
theorem scan_of_tokenize_error (text : String) (report : Report)
    (h : tokenize text = .error report) : ∃ tokens front lost rest code,
      text.toList = front ++ (lost ++ rest) ∧
      scan text = tokens ++ [Token.ofChars .invalid (Text.size (front ++ lost)) rest,
        Token.ending (Text.size text.toList)] ∧
      (scan text).Pairwise (fun t u => t.span.stop ≤ u.span.start) ∧
      (∀ t ∈ scan text, t.span.slice? text.toList = some t.text.toList) ∧
      (Covered (scan text) text.toList ↔ lost = []) ∧
      Tiling front tokens.reverse ∧
      Scanner.Traced .whole front lost ∧
      report.diagnostic.code = some code ∧ Remnant (Text.size front) code lost rest := by
  obtain ⟨fault, ts, front, lost, rest, rfl, hbreaks, hstream⟩ := exists_breaks_of_tokenize h
  have htext : text.toList = front ++ lost ++ rest := by rw [hbreaks.text, List.append_assoc]
  have hlaid : Laid (fun _ => True) text.toList (scan text).reverse := by
    rw [hstream, htext]
    exact ((hbreaks.tiling.mono fun _ _ => trivial).skip_all fun _ _ => trivial).closedAt
  refine ⟨ts, front, lost, rest, fault.code, hbreaks.text, ?_, ?_, ?_, ?_, hbreaks.tiling,
    hbreaks.traced, fault.code_diagnostic, hbreaks.remnant⟩
  · rw [hstream, htext]
    rfl
  · exact List.pairwise_reverse.mp hlaid.pairwise
  · exact fun t ht => hlaid.slice t (List.mem_reverse.mpr ht)
  · rw [hstream, htext]
    cases lost with
    | nil =>
      have hcovered : Covered (closedAt ts front rest) (front ++ rest) :=
        covered_reverse_iff.mp hbreaks.tiling.closedAt.covered
      rw [List.append_nil]
      exact iff_of_true hcovered rfl
    | cons c lost =>
      have hc : Text.isBlank c = false := hbreaks.traced.isBlank_head
      exact iff_of_false (not_covered_closedAt hbreaks.tiling hc) (List.cons_ne_nil _ _)

/-- The bracket that stays open stands inside the value, so its beginning is left out. -/
theorem scan_of_tokenize_error_bracket : ∃ report tokens front lost rest,
    tokenize ".p/a.b\x7bx=é[1\x7d" = .error report ∧
      ".p/a.b\x7bx=é[1\x7d".toList = front ++ (lost ++ rest) ∧
      scan ".p/a.b\x7bx=é[1\x7d" = tokens ++
        [Token.ofChars .invalid (Text.size (front ++ lost)) rest, Token.ending 14] ∧
      (Covered (scan ".p/a.b\x7bx=é[1\x7d") ".p/a.b\x7bx=é[1\x7d".toList ↔ lost = []) := by
  have h : tokenize ".p/a.b\x7bx=é[1\x7d" =
      .error ⟨(ScanFault.openList 11 14).diagnostic, ".p/a.b\x7bx=é[1\x7d"⟩ := by rfl
  obtain ⟨tokens, front, lost, rest, -, htext, hscan, -, -, hcovered, -⟩ :=
    scan_of_tokenize_error _ _ h
  exact ⟨_, tokens, front, lost, rest, h, htext, hscan, hcovered⟩

/-- Where a quote stays open inside a list, the beginning of the list is in no token. -/
theorem not_covered_open_quote :
    (∃ report, tokenize ".p/a.b\x7bx=[1, \"2]\x7d" = .error report) ∧
      ¬Covered (scan ".p/a.b\x7bx=[1, \"2]\x7d") ".p/a.b\x7bx=[1, \"2]\x7d".toList := by
  constructor
  · exact ⟨⟨(ScanFault.openQuote '"' (Span.ofBounds 13 17)).diagnostic, _⟩, by rfl⟩
  · intro hcovered
    have hno : ∀ t ∈ scan ".p/a.b\x7bx=[1, \"2]\x7d",
        ¬t.span.Covers (Text.size ".p/a.b\x7bx=".toList) := by decide +kernel
    obtain ⟨t, ht, hcovers⟩ :=
      hcovered ".p/a.b\x7bx=".toList '[' "1, \"2]\x7d".toList (by decide) (by decide)
    exact hno t ht hcovers

end Directive
