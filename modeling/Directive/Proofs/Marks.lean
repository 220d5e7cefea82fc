import Directive.Proofs.Placement
import Directive.Proofs.RoundTrip

/-!
# Texts without a mark

The text of a directive that was found in a larger one has no second mark, since the candidate that
it begins ends before the next one.  Canonical text has none either: a mark cannot reach across a
character that is not one of its own (`unmarked_append_cons`), so it would lie in a name or in what
is written for a value, and that has a mark only if the text had that the value was read from
(`Value.unmarked_coerceWithin`).
-/

namespace Directive

open Value (joined)

/-- No mark stands in the text. -/
def Unmarked (cs : List Char) : Prop :=
  ¬mark.toList <:+: cs

instance : DecidablePred Unmarked :=
  fun cs => inferInstanceAs (Decidable (¬mark.toList <:+: cs))

/-! ### Parts of a text -/

theorem Unmarked.of_isInfix {cs ds : List Char} (h : Unmarked cs) (hd : ds <:+: cs) : Unmarked ds :=
  fun hmark => h (hmark.trans hd)

theorem unmarked_of_not_mem {cs : List Char} (h : '/' ∉ cs) : Unmarked cs :=
  fun hmark => h (hmark.subset (by decide))

/-- A beginning of a text does not reach beyond a character that it does not have. -/
theorem isPrefix_append_cons_iff {m a u : List Char} {c : Char} (hc : c ∉ m) :
    m <+: a ++ c :: u ↔ m <+: a := by
  refine ⟨fun h => ?_, fun h => h.trans (List.prefix_append a _)⟩
  have hac : a ++ [c] <+: a ++ c :: u :=
    ⟨u, by rw [List.append_assoc, List.singleton_append]⟩
  rcases List.prefix_or_prefix_of_prefix h hac with hm | hm
  · rcases List.prefix_concat_iff.mp hm with heq | hm
    · exact absurd (heq ▸ List.mem_append_right a List.mem_cons_self) hc
    · exact hm
  · exact absurd (hm.subset (List.mem_append_right a List.mem_cons_self)) hc

/-- A mark does not reach across a character that it does not have. -/
theorem unmarked_append_cons {a u : List Char} {c : Char} (hc : c ∉ mark.toList) :
    Unmarked (a ++ c :: u) ↔ Unmarked a ∧ Unmarked u := by
  unfold Unmarked
  rw [← not_or, not_iff_not]
  induction a with
  | nil =>
    have hmark : ¬mark.toList <+: c :: u := fun h =>
      absurd (List.prefix_nil.mp ((isPrefix_append_cons_iff (a := []) hc).mp h)) (by decide)
    have hnil : ¬mark.toList <:+: [] := by decide
    rw [List.nil_append, List.infix_cons_iff, or_iff_right hmark, or_iff_right hnil]
  | cons d a ih =>
    rw [List.cons_append, List.infix_cons_iff, List.infix_cons_iff, ih, or_assoc,
      ← isPrefix_append_cons_iff (a := d :: a) hc]
    rfl

theorem unmarked_cons {u : List Char} {c : Char} (hc : c ∉ mark.toList) :
    Unmarked (c :: u) ↔ Unmarked u := by
  have h := unmarked_append_cons (a := []) (u := u) hc
  rwa [List.nil_append, and_iff_right (by decide)] at h

theorem unmarked_concat {a : List Char} {c : Char} (hc : c ∉ mark.toList) :
    Unmarked (a ++ [c]) ↔ Unmarked a := by
  rw [unmarked_append_cons hc, and_iff_left (by decide)]

/-- A mark in a text of elements lies in one of them. -/
theorem unmarked_joined {es : List (List Char)} : Unmarked (joined es) ↔ ∀ e ∈ es, Unmarked e := by
  induction es with
  | nil => exact iff_of_true (by decide) (List.forall_mem_nil _)
  | cons e es ih =>
    cases es with
    | nil => exact List.forall_mem_singleton.symm
    | cons e' es => rw [joined, unmarked_append_cons (by decide), ih, ← List.forall_mem_cons]

/-! ### Values -/

namespace Value

theorem unmarked_quoteWith {q : Char} (hq : Text.isQuote q = true) {cs : List Char} :
    Unmarked (quoteWith q cs) ↔ Unmarked cs := by
  have hmark : q ∉ mark.toList := by
    simp only [Text.isQuote, Bool.or_eq_true, beq_iff_eq] at hq
    rcases hq with rfl | rfl <;> decide
  rw [quoteWith, unmarked_cons hmark, unmarked_concat hmark]

theorem unmarked_writeString {cs : List Char} (h : Unmarked cs) : Unmarked (writeString cs) := by
  unfold writeString
  split_ifs
  · exact h
  · exact (unmarked_quoteWith (isQuote_quoteFor cs)).mpr h

theorem unmarked_brackets {cs : List Char} : Unmarked ('[' :: (cs ++ [']'])) ↔ Unmarked cs := by
  rw [unmarked_cons (by decide), unmarked_concat (by decide)]

theorem unmarked_writeItems {items : List Value} (h : ∀ v ∈ items, Unmarked v.write) :
    Unmarked (writeItems items) := by
  rw [writeItems_eq, unmarked_joined]
  refine forall_mem_itemTexts (fun _ => by decide) fun v hv => ⟨h v hv, ?_⟩
  exact (unmarked_cons (by decide)).mpr (h v hv)

theorem unmarked_write_of_isAtom {v : Value} (h : v.isAtom = true) : Unmarked v.write := by
  refine unmarked_of_not_mem fun hmem => ?_
  have hliteral := (literal_write h).1 '/' hmem
  revert hliteral
  decide

theorem Reads.unmarked_write {n : Nat} {cs : List Char} {v : Value} (h : Reads n cs v)
    (hlist : ∀ m, n = m + 1 → ∀ e, Unmarked e → Unmarked (coerceWithin m e).write)
    (hcs : Unmarked cs) : Unmarked v.write := by
  cases h with
  | @quoted _ q cs hq =>
    rw [write, String.toList_ofList]
    exact unmarked_writeString ((unmarked_quoteWith hq).mp hcs)
  | complete => decide +kernel
  | bare =>
    rw [write, String.toList_ofList]
    exact unmarked_writeString hcs
  | atom _ hv => exact unmarked_write_of_isAtom hv
  | empty => decide
  | @items m inner =>
    rw [unmarked_brackets, ← joined_elements inner, unmarked_joined] at hcs
    rw [write, unmarked_brackets]
    refine unmarked_writeItems fun v hv => ?_
    obtain ⟨e, he, rfl⟩ := List.mem_map.mp hv
    exact hlist m rfl e (hcs e he)

/-- Text without a mark has a value that is written without one. -/
theorem unmarked_coerceWithin {n : Nat} {raw : List Char} (h : Unmarked raw) :
    Unmarked (coerceWithin n raw).write := by
  revert h
  refine coerceWithin_induct (P := fun _ raw v => Unmarked raw → Unmarked v.write) ?_ n raw
  intro n raw v hreads hlist h
  obtain ⟨w₁, w₂, -, -, hraw⟩ := Text.exists_append_trim_append raw
  exact hreads.unmarked_write hlist (h.of_isInfix ⟨w₁, w₂, by rw [List.append_assoc, ← hraw]⟩)

end Value

/-! ### Candidates and directives -/

theorem marksFrom_of_unmarked {cs : List Char} (h : Unmarked cs) (p : Nat) : marksFrom p cs = [] := by
  rw [List.eq_nil_iff_forall_not_mem]
  intro q hq
  obtain ⟨n, ⟨pre, post, rfl, -⟩, -⟩ := mem_marksFrom_iff.mp hq
  exact h ⟨pre, post, List.append_assoc _ _ _⟩

/-- A text without a mark has one when a mark is put in front of it. -/
theorem eq_zero_of_markAt {x : List Char} (hx : Unmarked x) {p : Nat}
    (h : MarkAt (mark.toList ++ x) p) : p = 0 := by
  rw [← mem_marks_iff, marks, marksFrom_mark, marksFrom_of_unmarked hx] at h
  exact List.mem_singleton.mp h

theorem clear_of_unmarked {cs : List Char} (h : Unmarked cs) : Clear cs.length cs := by
  intro i _
  rw [Option.eq_none_iff_forall_ne_some]
  intro rest hrest
  refine h ⟨cs.take i, rest, ?_⟩
  rw [List.append_assoc, ← afterMark?_eq_some_iff.mp hrest, List.take_append_drop]

/-- A candidate has no mark behind its own. -/
theorem unmarked_untilMark (cs : List Char) : Unmarked (untilMark cs) := by
  rintro ⟨pre, post, h⟩
  obtain ⟨rest, hrest⟩ := untilMark_isPrefix cs
  have hlt : pre.length < (untilMark cs).length := by
    rw [← h, List.length_append, List.length_append]
    have hthree : mark.toList.length = 3 := by decide
    omega
  have hnone := clear_untilMark cs pre.length hlt
  rw [← hrest, ← h, List.append_assoc, List.append_assoc, List.drop_left,
    afterMark?_eq_some_iff.mpr rfl] at hnone
  cases hnone

/-- The raw values in a directive with one mark have none. -/
theorem Grammar.IsDirective.unmarked {r : Grammar.Reading} {x : List Char}
    (h : Grammar.IsDirective r (mark.toList ++ x)) (hx : Unmarked x) :
    ∀ p ∈ r.params, Unmarked p.2 := by
  generalize hcs : mark.toList ++ x = cs at h
  cases h with
  | bare => exact List.forall_mem_nil _
  | @block f g w b w' ps hf hg hw hb hw' =>
    rw [List.append_assoc, List.append_cancel_left_eq] at hcs
    have hblock : Unmarked b := hx.of_isInfix ⟨f ++ '.' :: (g ++ w), w', by rw [hcs]; simp⟩
    rcases exists_pieces_of_isBlock hb with rfl | ⟨us, rfl, hus⟩
    · exact List.forall_mem_nil _
    · rw [unmarked_cons (by decide), unmarked_concat (by decide), unmarked_joined] at hblock
      intro p hp
      obtain ⟨u, hu, -, -, raw, ⟨y, rfl, -, -⟩, hraw⟩ :=
        exists_left_of_forall₂ (R := flip IsPiece) hus.flip hp
      obtain ⟨w₁, w₂, -, -, htrim⟩ := Text.exists_append_trim_append raw
      rw [← hraw]
      refine ((unmarked_append_cons (by decide)).mp (hblock _ hu)).2.of_isInfix ⟨w₁, w₂, ?_⟩
      rw [List.append_assoc, ← htrim]

namespace Command

theorem unmarked_writePairs {ps : List (String × Value)}
    (h : ∀ e ∈ ps, Grammar.IsName e.1.toList ∧ Unmarked e.2.write) : Unmarked (writePairs ps) := by
  have hpair : ∀ e ∈ ps, Unmarked (e.1.toList ++ '=' :: e.2.write) := by
    intro e he
    refine (unmarked_append_cons (by decide)).mpr ⟨unmarked_of_not_mem fun hmem => ?_, (h e he).2⟩
    have := (h e he).1.2 '/' hmem
    revert this
    decide
  rw [writePairs_eq, unmarked_joined]
  cases ps with
  | nil => exact List.forall_mem_nil _
  | cons p ps =>
    obtain ⟨hp, hps⟩ := List.forall_mem_cons.mp hpair
    refine List.forall_mem_cons.mpr ⟨hp, fun t ht => ?_⟩
    obtain ⟨q, hq, rfl⟩ := List.mem_map.mp ht
    exact (unmarked_cons (by decide)).mpr (hps q hq)

/-- Canonical text is apart from a line break behind it, if no value is written with a mark. -/
theorem apart_write {c : Command} (hf : Grammar.IsName c.family.toList)
    (hg : Grammar.IsName c.function.toList)
    (hp : ∀ e ∈ c.parameters.entries, Grammar.IsName e.1.toList ∧ Unmarked e.2.write) :
    Apart c.write ['\n'] := by
  have hno : ∀ n : List Char, Grammar.IsName n → ∀ d, Text.isNameChar d = false → d ∉ n := by
    intro n hn d hd hmem
    rw [hn.2 d hmem] at hd
    cases hd
  unfold write
  cases hempty : c.parameters.isEmpty with
  | true =>
    -- without a block the text ends with the name of the function
    rw [if_pos rfl, List.append_nil]
    refine .bare ?_ (fun d hd => ?_) (fun d hd => ?_) (by decide)
    · simp [mark, hno _ hf '{' rfl, hno _ hg '{' rfl]
    · rw [List.append_cons, List.getLast?_append_of_ne_nil _ hg.1] at hd
      exact Text.not_isBlank_of_isNameChar (hg.2 d (List.mem_of_getLast? hd))
    · obtain rfl : '\n' = d := Option.some.inj hd
      exact ⟨rfl, by decide⟩
  | false =>
    rw [if_neg Bool.false_ne_true]
    refine .closed ?_ fun p hp => ?_
    · rw [← List.cons_append, ← List.append_assoc, List.getLast?_concat]
    · have hbody : Unmarked ((c.family.toList ++ '.' :: c.function.toList) ++
          '{' :: (writePairs c.parameters.entries ++ ['}'])) := by
        rw [unmarked_append_cons (by decide), unmarked_concat (by decide)]
        refine ⟨unmarked_of_not_mem ?_, unmarked_writePairs ‹_›⟩
        simp [hno _ hf '/' rfl, hno _ hg '/' rfl]
      refine eq_zero_of_markAt hbody (p := p) ?_
      rwa [← List.append_assoc, ← List.append_assoc]

end Command

end Directive
