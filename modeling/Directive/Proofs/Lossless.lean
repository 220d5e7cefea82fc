import Directive.Proofs.Tiling
import Directive.Proofs.ValueStates

/-!
# A stream loses nothing

The tokens of a text that can be scanned, with the blanks between them, are the text again
(`Lossless`).  For a whole text this is its tiling, read between any two tokens that follow one
another; what a tiling does not say is how a value begins and ends.  A directive at the beginning of
a text has the tokens of that beginning as a whole, and more text behind it changes nothing.
-/

namespace Directive

open Text (Blanks)

/-- The tokens are those of the first `n` bytes of the text, and they leave out nothing but
blanks. -/
structure Lossless (cs : List Char) (tokens : List Token) (n : Nat) : Prop where
  /-- The tokens are in the order of the text and have nothing in common. -/
  ordered : tokens.Pairwise fun t u => t.span.stop ≤ u.span.start
  /-- The ends of a token stand between characters of the text, and what is between them is its
  text. -/
  slice : ∀ t ∈ tokens, t.span.slice? cs = some t.text.toList
  first : ∃ t ts, tokens = t :: ts ∧ t.span.start = 0
  between : ∀ before t u after, tokens = before ++ t :: u :: after →
    ∃ w, (Span.ofBounds t.span.stop u.span.start).slice? cs = some w ∧ Blanks w
  last : ∃ ts, tokens = ts ++ [Token.ending n]
  value : ∀ t ∈ tokens, t.kind = .paramValue →
    t.text ≠ "" ∧ Text.trim t.text.toList = t.text.toList

/-- More text behind it leaves a stream as it is. -/
theorem Lossless.append {cs : List Char} {tokens : List Token} {n : Nat}
    (h : Lossless cs tokens n) (rest : List Char) : Lossless (cs ++ rest) tokens n where
  ordered := h.ordered
  slice t ht := Span.slice?_append (h.slice t ht) rest
  first := h.first
  between before t u after heq := by
    obtain ⟨w, hslice, hw⟩ := h.between before t u after heq
    exact ⟨w, Span.slice?_append hslice rest, hw⟩
  last := h.last
  value := h.value

namespace Scanner

variable {extent : Extent} {cs : List Char}

/-- The first token is the mark. -/
theorem Reached.exists_mark {s : Scanner} (h : Reached extent cs s) :
    ∃ ts, s.tokens = ts ++ [Token.ofChars .mark 0 mark.toList] := by
  induction h with
  | start => exact ⟨[], rfl⟩
  | @move _ _ es _ _ _ _ _ _ ih =>
    obtain ⟨ts, hts⟩ := ih
    refine ⟨es ++ ts, ?_⟩
    rw [List.append_assoc, ← hts]

/-- A value is not empty and has no blanks at its ends. -/
theorem Completed.trim_eq {t : Token} (h : Completed extent cs t) :
    t.text ≠ "" ∧ Text.trim t.text.toList = t.text.toList := by
  obtain ⟨pre, rest, s, v, -, hs, hp, -, rfl⟩ := h
  obtain ⟨read, c, hread, hc⟩ := hs.exists_head hp
  have hv : v.read.reverse = c :: read.reverse := by
    rw [hread, List.reverse_append, List.reverse_singleton, List.singleton_append]
  -- no blank stands in front, so trimming the end is trimming
  have hchars : v.chars = Text.trim v.read.reverse := by
    rw [ValueState.chars, Text.trim, hv, List.dropWhile_cons_of_neg (by rw [hc]; decide)]
  have htext : (Token.ofChars .paramValue v.start v.chars).text.toList =
      Text.trim v.read.reverse := by
    rw [Token.ofChars, String.toList_ofList, hchars]
  refine ⟨fun hnil => ?_, by rw [htext, Text.trim_trim]⟩
  have hempty : Text.trim v.read.reverse = [] := by
    rw [← htext, hnil]
    rfl
  have hblanks := Text.blanks_of_trim_eq_nil hempty
  rw [hv] at hblanks
  have hblank := (Text.blanks_cons.mp hblanks).1
  rw [hc] at hblank
  cases hblank

/-- The stream of a whole text that is scanned to its end loses nothing. -/
theorem lossless_of_ok {n : Nat} (h : (Scan.ofChars .whole cs).outcome = .ok n) :
    Lossless cs ((Scan.ofChars .whole cs).tokens ++ [Token.ending n]) n := by
  have htiling : Tiling cs ((Scan.ofChars .whole cs).tokens ++ [Token.ending n]).reverse := by
    rw [List.reverse_append]
    exact tiling_of_ok h
  refine ⟨List.pairwise_reverse.mp htiling.pairwise,
    fun t ht => htiling.slice t (List.mem_reverse.mpr ht), ?_, ?_, ⟨_, rfl⟩, ?_⟩
  · obtain ⟨ts, es, p, hs, -, hscan⟩ := exists_complete_of_ok h
    obtain ⟨ts', hmark⟩ := hs.exists_mark
    obtain rfl : ts = _ := hmark
    rw [hscan, ← List.append_assoc, List.reverse_append]
    exact ⟨_, _, rfl, rfl⟩
  · intro before t u after heq
    rw [heq, List.reverse_append, List.reverse_cons, List.reverse_cons] at htiling
    simp only [List.append_assoc, List.singleton_append] at htiling
    exact htiling.slice_between
  · intro t ht hk
    rcases List.mem_append.mp ht with ht | ht
    · exact (completed_of_whole h ht hk).trim_eq
    · obtain rfl := List.mem_singleton.mp ht
      cases hk

end Scanner

/-- A successful stream loses nothing of the directive: its tokens are in the order of the text,
each with the characters under its span, the first at the beginning and the last, an empty one,
behind the directive; between them there are only blanks, and no value has a blank at either end.
If the text has to be one directive, it is all of the text. -/
theorem stream_lossless {extent : Extent} {cs : List Char} {tokens : List Token} {n : Nat}
    (h : (Scan.ofChars extent cs).stream? = .ok (tokens, n)) :
    Lossless cs tokens n ∧ (extent = .whole → n = Text.size cs) := by
  obtain ⟨hok, rfl⟩ := Scan.stream?_eq_ok_iff.mp h
  cases extent with
  | whole => exact ⟨Scanner.lossless_of_ok hok, fun _ => Scanner.eq_size_of_ok hok⟩
  | leading =>
    obtain ⟨src, rest, rfl, -, -, hscan⟩ := Scanner.exists_whole_of_leading hok
    rw [← hscan] at hok ⊢
    exact ⟨(Scanner.lossless_of_ok hok).append rest, fun hextent => by cases hextent⟩

/-- A directive in front of other text, with blanks of several bytes around its value and inside
of it. -/
theorem stream_lossless_leading : ∃ tokens,
    (Scan.ofChars .leading ".p/a.b \x7bx=\u3000é\u3000ü\u3000\x7d …".toList).stream? =
      .ok (tokens, 24) ∧
    Lossless ".p/a.b \x7bx=\u3000é\u3000ü\u3000\x7d …".toList tokens 24 := by
  have hok : (Scan.ofChars .leading ".p/a.b \x7bx=\u3000é\u3000ü\u3000\x7d …".toList).outcome =
      .ok 24 := by rfl
  have h := Scan.stream?_eq_ok_iff.mpr ⟨hok, rfl⟩
  exact ⟨_, h, (stream_lossless h).1⟩

end Directive
