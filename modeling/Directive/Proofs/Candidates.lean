import Directive.Extraction
import Directive.Proofs.Draft

/-!
# The candidates of a text

The search for directives passes over characters, and how many it passes over depends on what a
candidate contains.  Here the text is cut without regard to that: `marks cs` are the offsets at
which the mark stands, and `pieces cs` cuts the text at them.

`Registry.trials` writes down what the search tries and where.  It tries exactly these pieces, each
once (`Registry.trials_eq`), so the commands of a text are those of its pieces
(`extract_eq_candidates`).  The invariant of the search is `Clear`: no mark begins among the
characters that are passed over, since they all belong to the candidate at hand.
-/

namespace Directive

/-! ### Marks -/

/-- The mark stands in the text at byte `p`. -/
def MarkAt (cs : List Char) (p : Nat) : Prop :=
  ∃ pre post, cs = pre ++ (mark.toList ++ post) ∧ Text.size pre = p

/-- The offsets at which the mark stands in a text that begins at byte `p`. -/
def marksFrom : (p : Nat) → List Char → List Nat
  | _, [] => []
  | p, c :: cs =>
    if (afterMark? (c :: cs)).isSome then p :: marksFrom (p + c.utf8Size) cs
    else marksFrom (p + c.utf8Size) cs

/-- The offsets at which the mark stands in a text. -/
def marks (cs : List Char) : List Nat :=
  marksFrom 0 cs

theorem afterMark?_eq_some_iff {cs rest : List Char} :
    afterMark? cs = some rest ↔ cs = mark.toList ++ rest := by
  constructor
  · intro h
    unfold afterMark? at h
    split at h
    · cases h
      rfl
    · cases h
  · rintro rfl
    rfl

theorem not_markAt_nil (n : Nat) : ¬MarkAt [] n := by
  rintro ⟨pre, post, h, -⟩
  simp [mark] at h

/-- A mark stands at the beginning of a text or behind its first character. -/
theorem markAt_cons {c : Char} {cs : List Char} {n : Nat} :
    MarkAt (c :: cs) n ↔ (n = 0 ∧ (afterMark? (c :: cs)).isSome = true) ∨
      ∃ m, MarkAt cs m ∧ n = c.utf8Size + m := by
  constructor
  · rintro ⟨pre, post, h, rfl⟩
    cases pre with
    | nil => exact Or.inl ⟨rfl, by rw [afterMark?_eq_some_iff.mpr h]; rfl⟩
    | cons d pre =>
      rw [List.cons_append, List.cons.injEq] at h
      obtain ⟨rfl, h⟩ := h
      exact Or.inr ⟨_, ⟨pre, post, h, rfl⟩, Text.size_cons c pre⟩
  · rintro (⟨rfl, h⟩ | ⟨m, ⟨pre, post, rfl, rfl⟩, rfl⟩)
    · obtain ⟨post, h⟩ := Option.isSome_iff_exists.mp h
      exact ⟨[], post, afterMark?_eq_some_iff.mp h, rfl⟩
    · exact ⟨c :: pre, post, rfl, Text.size_cons c pre⟩

/-- The marks of a text are told by its beginnings. -/
theorem mem_marksFrom_iff {p q : Nat} {cs : List Char} :
    q ∈ marksFrom p cs ↔ ∃ n, MarkAt cs n ∧ q = p + n := by
  induction cs generalizing p with
  | nil => simp [marksFrom, not_markAt_nil]
  | cons c cs ih =>
    have htail : q ∈ marksFrom (p + c.utf8Size) cs ↔
        ∃ n, (∃ m, MarkAt cs m ∧ n = c.utf8Size + m) ∧ q = p + n := by
      rw [ih]
      constructor
      · rintro ⟨m, hm, rfl⟩
        exact ⟨_, ⟨m, hm, rfl⟩, Nat.add_assoc _ _ _⟩
      · rintro ⟨-, ⟨m, hm, rfl⟩, rfl⟩
        exact ⟨m, hm, (Nat.add_assoc _ _ _).symm⟩
    simp only [markAt_cons, or_and_right, exists_or]
    rw [← htail, marksFrom]
    by_cases h : (afterMark? (c :: cs)).isSome = true
    · simp [h]
    · simp [h]

theorem mem_marks_iff {cs : List Char} {p : Nat} : p ∈ marks cs ↔ MarkAt cs p := by
  rw [marks, mem_marksFrom_iff]
  simp

theorem le_of_mem_marksFrom {p q : Nat} {cs : List Char} (h : q ∈ marksFrom p cs) : p ≤ q := by
  obtain ⟨n, -, rfl⟩ := mem_marksFrom_iff.mp h
  exact Nat.le_add_right p n

/-- The marks come in the order of the text. -/
theorem pairwise_marksFrom (p : Nat) (cs : List Char) : (marksFrom p cs).Pairwise (· < ·) := by
  induction cs generalizing p with
  | nil => exact List.Pairwise.nil
  | cons c cs ih =>
    unfold marksFrom
    split_ifs
    · refine List.pairwise_cons.mpr ⟨fun q hq => ?_, ih _⟩
      have hle := le_of_mem_marksFrom hq
      have hpos := c.utf8Size_pos
      omega
    · exact ih _

/-! ### Pieces -/

/-- The text cut at the given offsets: what stands between each two of them, and what stands behind
the last one. -/
def pieces (cs : List Char) : List Nat → List (List Char)
  | [] => []
  | [p] => [Text.dropBytes p cs]
  | p :: q :: ps => Text.takeBytes (q - p) (Text.dropBytes p cs) :: pieces cs (q :: ps)

theorem length_pieces (cs : List Char) (ps : List Nat) : (pieces cs ps).length = ps.length := by
  induction ps with
  | nil => rfl
  | cons p ps ih =>
    cases ps with
    | nil => rfl
    | cons q ps =>
      rw [pieces, List.length_cons, ih]
      rfl

/-- The candidates of a text that begins at byte `p`, with their offsets. -/
def candidatesFrom : (p : Nat) → List Char → List (Nat × List Char)
  | _, [] => []
  | p, c :: cs =>
    match candidate? (c :: cs) with
    | none => candidatesFrom (p + c.utf8Size) cs
    | some x => (p, x) :: candidatesFrom (p + c.utf8Size) cs

/-- A candidate goes up to the first mark behind its own. -/
theorem untilMark_eq (p : Nat) (cs : List Char) :
    untilMark cs = match marksFrom p cs with
      | [] => cs
      | q :: _ => Text.takeBytes (q - p) cs := by
  induction cs generalizing p with
  | nil => rfl
  | cons c cs ih =>
    unfold untilMark marksFrom
    split_ifs with h
    · show [] = Text.takeBytes (p - p) (c :: cs)
      rw [Nat.sub_self, Text.takeBytes_zero]
    · rw [ih (p + c.utf8Size)]
      cases hms : marksFrom (p + c.utf8Size) cs with
      | nil => rfl
      | cons q qs =>
        have hle : p + c.utf8Size ≤ q :=
          le_of_mem_marksFrom (by rw [hms]; exact List.mem_cons_self)
        have hsize : q - p = Text.size [c] + (q - (p + c.utf8Size)) := by
          rw [Text.size_cons, Text.size_nil]
          omega
        show c :: Text.takeBytes (q - (p + c.utf8Size)) cs = Text.takeBytes (q - p) ([c] ++ cs)
        rw [hsize, Text.takeBytes_size_add, List.singleton_append]

/-- No mark begins at the second or the third character of a mark. -/
theorem marksFrom_mark (p : Nat) (rest : List Char) :
    marksFrom p (mark.toList ++ rest) = p :: marksFrom (p + 3) rest := by
  show marksFrom p ('.' :: 'p' :: '/' :: rest) = _
  simp [marksFrom, afterMark?, Char.utf8Size_eq_one_iff.mpr, Nat.add_assoc]

/-- The first piece of a text that begins with a mark is its candidate. -/
theorem pieces_mark (pre rest : List Char) :
    pieces (pre ++ (mark.toList ++ rest)) (Text.size pre :: marksFrom (Text.size pre + 3) rest) =
      (mark.toList ++ untilMark rest) ::
        pieces (pre ++ (mark.toList ++ rest)) (marksFrom (Text.size pre + 3) rest) := by
  rw [untilMark_eq (Text.size pre + 3)]
  cases hrest : marksFrom (Text.size pre + 3) rest with
  | nil =>
    show [Text.dropBytes (Text.size pre) (pre ++ (mark.toList ++ rest))] = [mark.toList ++ rest]
    rw [Text.dropBytes_size]
  | cons q qs =>
    have hle : Text.size pre + 3 ≤ q :=
      le_of_mem_marksFrom (by rw [hrest]; exact List.mem_cons_self)
    have hsize : q - Text.size pre = Text.size mark.toList + (q - (Text.size pre + 3)) := by
      have hthree : Text.size mark.toList = 3 := by decide
      omega
    rw [pieces, Text.dropBytes_size, hsize, Text.takeBytes_size_add]

/-- The candidates of a text are its pieces between the marks. -/
theorem candidatesFrom_eq (pre cs : List Char) :
    candidatesFrom (Text.size pre) cs =
      (marksFrom (Text.size pre) cs).zip (pieces (pre ++ cs) (marksFrom (Text.size pre) cs)) := by
  induction cs generalizing pre with
  | nil => rfl
  | cons c cs ih =>
    have hsize : Text.size (pre ++ [c]) = Text.size pre + c.utf8Size := by
      rw [Text.size_append, Text.size_cons, Text.size_nil, Nat.add_zero]
    have ih := ih (pre ++ [c])
    rw [hsize, List.append_assoc, List.singleton_append] at ih
    cases hmark : afterMark? (c :: cs) with
    | none => simpa [candidatesFrom, candidate?, marksFrom, hmark] using ih
    | some rest =>
      have hcs := afterMark?_eq_some_iff.mp hmark
      have hms : marksFrom (Text.size pre) (c :: cs) =
          Text.size pre :: marksFrom (Text.size pre + c.utf8Size) cs := by
        simp [marksFrom, hmark]
      -- the next mark is the first one behind the mark at hand
      have hnext : marksFrom (Text.size pre + c.utf8Size) cs =
          marksFrom (Text.size pre + 3) rest := by
        have h := marksFrom_mark (Text.size pre) rest
        rw [← hcs, hms, List.cons.injEq] at h
        exact h.2
      have hpieces := pieces_mark pre rest
      rw [← hcs, ← hnext] at hpieces
      rw [hms, hpieces, List.zip_cons_cons, ← ih]
      simp [candidatesFrom, candidate?, hmark]

/-! ### Texts in two parts -/

/-- A mark that begins in the first part of a text lies in it or goes on into the second. -/
theorem eq_of_afterMark?_append {a b rest : List Char} (ha : a ≠ [])
    (h : afterMark? (a ++ b) = some rest) : (∃ u, afterMark? a = some u ∧ rest = u ++ b) ∨
      (a = ['.'] ∧ b.head? = some 'p') ∨ (a = ['.', 'p'] ∧ b.head? = some '/') := by
  have heq : a ++ b = '.' :: 'p' :: '/' :: rest := afterMark?_eq_some_iff.mp h
  match a with
  | [] => exact absurd rfl ha
  | [c] =>
    simp only [List.cons_append, List.nil_append, List.cons.injEq] at heq
    exact Or.inr (Or.inl ⟨by rw [heq.1], by rw [heq.2]; rfl⟩)
  | [c, d] =>
    simp only [List.cons_append, List.nil_append, List.cons.injEq] at heq
    exact Or.inr (Or.inr ⟨by rw [heq.1, heq.2.1], by rw [heq.2.2]; rfl⟩)
  | c :: d :: e :: u =>
    simp only [List.cons_append, List.cons.injEq] at heq
    obtain ⟨rfl, rfl, rfl, rfl⟩ := heq
    exact Or.inl ⟨u, rfl, rfl⟩

/-- If the second part begins with a mark, a mark that begins in the first lies in it. -/
theorem afterMark?_append {a b : List Char} (ha : a ≠ []) (hb : mark.toList <+: b) :
    afterMark? (a ++ b) = (afterMark? a).map (· ++ b) := by
  obtain ⟨post, rfl⟩ := hb
  cases hrest : afterMark? (a ++ (mark.toList ++ post)) with
  | some rest =>
    rcases eq_of_afterMark?_append ha hrest with ⟨u, hu, rfl⟩ | ⟨-, hp⟩ | ⟨-, hp⟩
    · rw [hu]
      rfl
    · cases hp
    · cases hp
  | none =>
    cases hu : afterMark? a with
    | none => rfl
    | some u =>
      rw [afterMark?_eq_some_iff.mp hu, List.append_assoc, afterMark?_eq_some_iff.mpr rfl] at hrest
      cases hrest

theorem untilMark_append {a b : List Char} (hb : mark.toList <+: b) :
    untilMark (a ++ b) = untilMark a := by
  induction a with
  | nil =>
    obtain ⟨post, rfl⟩ := hb
    rfl
  | cons c a ih =>
    have h := afterMark?_append (List.cons_ne_nil c a) hb
    rw [List.cons_append] at h
    simp only [List.cons_append, untilMark, h, Option.isSome_map, ih]

/-- The candidates of a text in two parts are those of the parts, if the second one begins with a
mark. -/
theorem candidatesFrom_append {a b : List Char} (hb : mark.toList <+: b) (p : Nat) :
    candidatesFrom p (a ++ b) = candidatesFrom p a ++ candidatesFrom (p + Text.size a) b := by
  induction a generalizing p with
  | nil => rfl
  | cons c a ih =>
    have h := afterMark?_append (List.cons_ne_nil c a) hb
    rw [List.cons_append] at h
    have hsize : p + Text.size (c :: a) = p + c.utf8Size + Text.size a := by
      rw [Text.size_cons, Nat.add_assoc]
    rw [List.cons_append, candidatesFrom, candidatesFrom, candidate?, candidate?, h, hsize]
    cases afterMark? (c :: a) with
    | none => exact ih _
    | some rest =>
      simp only [Option.map_some, untilMark_append hb, ih, List.cons_append]

/-! ### The search -/

/-- No mark begins at one of the first `n` characters. -/
def Clear (n : Nat) (cs : List Char) : Prop :=
  ∀ i < n, afterMark? (cs.drop i) = none

theorem clear_zero (cs : List Char) : Clear 0 cs :=
  fun _ h => absurd h (Nat.not_lt_zero _)

theorem clear_succ {n : Nat} {c : Char} {cs : List Char} :
    Clear (n + 1) (c :: cs) ↔ afterMark? (c :: cs) = none ∧ Clear n cs := by
  constructor
  · intro h
    exact ⟨h 0 (Nat.succ_pos n), fun i hi => h (i + 1) (Nat.succ_lt_succ hi)⟩
  · rintro ⟨h, hcs⟩ i hi
    cases i with
    | zero => exact h
    | succ i => exact hcs i (Nat.lt_of_succ_lt_succ hi)

theorem Clear.mono {m n : Nat} {cs : List Char} (h : Clear n cs) (hm : m ≤ n) : Clear m cs :=
  fun i hi => h i (Nat.lt_of_lt_of_le hi hm)

theorem clear_untilMark (cs : List Char) : Clear (untilMark cs).length cs := by
  induction cs with
  | nil => exact clear_zero []
  | cons c cs ih =>
    unfold untilMark
    split_ifs with h
    · exact clear_zero _
    · refine clear_succ.mpr ⟨?_, ih⟩
      simpa using h

/-- Behind the first character of a candidate no mark begins in it. -/
theorem clear_candidate {c : Char} {cs x : List Char} (h : candidate? (c :: cs) = some x) :
    Clear (x.length - 1) cs := by
  obtain ⟨rest, hrest, rfl⟩ := Option.map_eq_some_iff.mp h
  have hcs := afterMark?_eq_some_iff.mp hrest
  obtain ⟨-, rfl⟩ : c = '.' ∧ cs = 'p' :: '/' :: rest := List.cons.inj hcs
  have hlength : (mark.toList ++ untilMark rest).length - 1 = (untilMark rest).length + 1 + 1 := by
    rw [List.length_append]
    show 3 + (untilMark rest).length - 1 = _
    omega
  rw [hlength, clear_succ, clear_succ]
  exact ⟨rfl, rfl, clear_untilMark rest⟩

namespace Registry

variable (r : Registry)

/-- The command of the directive that begins a candidate, if it is one of the vocabulary. -/
def leading? (x : List Char) : Option Command :=
  (r.draft .leading x).toOption.map Draft.command

/-- How many characters the search goes on behind the beginning of a candidate. -/
def reach (x : List Char) : Nat :=
  match r.draft .leading x with
  | .ok d => d.command.source.length
  | .error _ => x.length

/-- What the search tries in a text that begins at byte `p` and whose first `skip` characters are
passed over: the candidates with their offsets. -/
def trialsFrom : (p skip : Nat) → List Char → List (Nat × List Char)
  | _, _, [] => []
  | p, skip + 1, c :: cs => trialsFrom (p + c.utf8Size) skip cs
  | p, 0, c :: cs =>
    match candidate? (c :: cs) with
    | none => trialsFrom (p + c.utf8Size) 0 cs
    | some x => (p, x) :: trialsFrom (p + c.utf8Size) (r.reach x - 1) cs

/-- What the search tries in a text. -/
def trials (cs : List Char) : List (Nat × List Char) :=
  r.trialsFrom 0 0 cs

/-- The commands that are found are those of the candidates that are tried. -/
theorem extractFrom_eq (p skip : Nat) (cs : List Char) :
    r.extractFrom skip cs = (r.trialsFrom p skip cs).filterMap fun t => r.leading? t.2 := by
  induction cs generalizing p skip with
  | nil => cases skip <;> rfl
  | cons c cs ih =>
    cases skip with
    | succ skip => exact ih _ _
    | zero =>
      rw [extractFrom, trialsFrom]
      cases candidate? (c :: cs) with
      | none => exact ih _ _
      | some x =>
        simp only [List.filterMap_cons, leading?, reach]
        cases r.draft .leading x with
        | ok d =>
          simp only [Except.toOption, Option.map_some]
          rw [ih (p + c.utf8Size)]
          rfl
        | error fault =>
          simp only [Except.toOption, Option.map_none]
          rw [ih (p + c.utf8Size)]
          rfl

/-- The search does not go beyond a candidate before it goes on. -/
theorem reach_le (x : List Char) : r.reach x ≤ x.length := by
  unfold reach
  cases h : r.draft .leading x with
  | error fault => exact Nat.le_refl _
  | ok d =>
    have hcut := congrArg List.length (Text.takeBytes_append_dropBytes d.consumed x)
    rw [List.length_append] at hcut
    show d.command.source.length ≤ x.length
    rw [source_of_draft h, String.length_ofList]
    omega

/-- If no mark begins in what is passed over, the search tries all candidates of the text. -/
theorem trialsFrom_eq {skip : Nat} {cs : List Char} (h : Clear skip cs) (p : Nat) :
    r.trialsFrom p skip cs = candidatesFrom p cs := by
  induction cs generalizing p skip with
  | nil => cases skip <;> rfl
  | cons c cs ih =>
    cases skip with
    | succ skip =>
      obtain ⟨hc, hcs⟩ := clear_succ.mp h
      rw [trialsFrom, candidatesFrom, candidate?, hc]
      exact ih hcs _
    | zero =>
      rw [trialsFrom, candidatesFrom]
      cases hx : candidate? (c :: cs) with
      | none => exact ih (clear_zero cs) _
      | some x =>
        -- all that is passed over belongs to the candidate
        have hle : r.reach x - 1 ≤ x.length - 1 := Nat.sub_le_sub_right (r.reach_le x) 1
        dsimp only
        rw [ih ((clear_candidate hx).mono hle)]

/-- The search tries the pieces of the text between the marks, each once and in their order. -/
theorem trials_eq (cs : List Char) : r.trials cs = (marks cs).zip (pieces cs (marks cs)) := by
  have h := candidatesFrom_eq [] cs
  rw [trials, r.trialsFrom_eq (clear_zero cs)]
  exact h

theorem extract_eq (text : String) (p : Nat) :
    r.extract text = (candidatesFrom p text.toList).filterMap fun t => r.leading? t.2 := by
  rw [extract, r.extractFrom_eq p, r.trialsFrom_eq (clear_zero _)]

/-- The search for the commands of a text in two parts goes on from the one to the other. -/
theorem extract_append (a b : String) (hb : mark.toList <+: b.toList) :
    r.extract (a ++ b) = r.extract a ++ r.extract b := by
  rw [r.extract_eq (a ++ b) 0, String.toList_append, candidatesFrom_append hb,
    List.filterMap_append, ← r.extract_eq a 0, ← r.extract_eq b]

/-- The commands of a text are those of the pieces between its marks.  The search tries each piece
once, in the order of the text, whatever comes of the pieces before it.  So it finds the same
commands in two texts one behind the other as in each of them, if the second begins with a mark. -/
theorem extract_eq_candidates (text : String) :
    (marks text.toList).Pairwise (· < ·) ∧
      (∀ p, p ∈ marks text.toList ↔ MarkAt text.toList p) ∧
      r.trials text.toList = (marks text.toList).zip (pieces text.toList (marks text.toList)) ∧
      r.extract text = (pieces text.toList (marks text.toList)).filterMap r.leading? ∧
      ∀ b : String, mark.toList <+: b.toList →
        r.extract (text ++ b) = r.extract text ++ r.extract b := by
  refine ⟨pairwise_marksFrom 0 _, fun p => mem_marks_iff, r.trials_eq _, ?_, r.extract_append text⟩
  have hle := Nat.le_of_eq (length_pieces text.toList (marks text.toList))
  calc r.extract text
      = (r.trials text.toList).filterMap (r.leading? ∘ Prod.snd) := r.extractFrom_eq 0 0 text.toList
    _ = ((r.trials text.toList).map Prod.snd).filterMap r.leading? := List.filterMap_map.symm
    _ = (pieces text.toList (marks text.toList)).filterMap r.leading? := by
      rw [r.trials_eq, List.map_snd_zip hle]

/-- A block that is never closed does not hide the directive behind it. -/
theorem extract_eq_candidates_unclosed :
    ∃ r : Registry, r.extract (".p/a.b\x7bx=" ++ ".p/a.b") =
        r.extract ".p/a.b\x7bx=" ++ r.extract ".p/a.b" ∧
      r.extract ".p/a.b" = [⟨"a", "b", .empty, ".p/a.b"⟩] := by
  let r : Registry :=
    ⟨.ofList [("a", ⟨⟨"a", ""⟩, .ofList [("b", { family := "a", name := "b" })]⟩)]⟩
  have hmark : mark.toList <+: (".p/a.b" : String).toList := by decide
  exact ⟨r, (r.extract_eq_candidates ".p/a.b\x7bx=").2.2.2.2 ".p/a.b" hmark, rfl⟩

end Registry

end Directive
