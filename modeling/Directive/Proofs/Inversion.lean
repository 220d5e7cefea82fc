import Directive.Proofs.Coercion

/-!
# What coercion has read

Coercion keeps the text of what it reads, but for quotes and blanks: an atom comes from plain text, a
string is its own text, bare or between two quotes, and a list comes from a text in brackets whose
elements are read one by one.  `Reads` lists the ways in which trimmed text has its value, and
`reads_coerceWithin` says that there are no others.
-/

namespace Directive.Value

open Text (Blanks)

/-- The ways in which trimmed text has a value when lists may still nest `n` levels deep. -/
inductive Reads : Nat → List Char → Value → Prop
  | quoted {n : Nat} {q : Char} {cs : List Char} :
      Text.isQuote q = true → Reads n (quoteWith q cs) (.string (String.ofList cs))
  | complete {n : Nat} {cs : List Char} :
      Text.isWord complete cs = true → Reads n cs (.string complete)
  | bare {n : Nat} {cs : List Char} : Reads n cs (.string (String.ofList cs))
  | atom {n : Nat} {cs : List Char} {v : Value} : Plain cs → v.isAtom = true → Reads n cs v
  | empty {n : Nat} {w : List Char} : Blanks w → Reads (n + 1) ('[' :: (w ++ [']'])) (.list [])
  | items {n : Nat} {cs : List Char} :
      Reads (n + 1) ('[' :: (cs ++ [']'])) (.list ((elements cs).map (coerceWithin n)))

/-! ### Plain text -/

theorem isAlphanum_of_isLower_toLower {c : Char} (h : c.toLower.isLower = true) :
    c.isAlphanum = true := by
  show (c.isUpper || c.isLower || c.isDigit) = true
  unfold Char.toLower at h
  split at h
  · rename_i hupper
    have hc : c.isUpper = true := decide_eq_true hupper
    rw [hc, Bool.true_or, Bool.true_or]
  · rw [h, Bool.or_true, Bool.true_or]

/-- Words of letters are plain text. -/
theorem plain_of_isWord {word : String} {cs : List Char} (h : Text.isWord word cs = true)
    (hword : word.toList.all Char.isLower = true) : Plain cs := by
  intro c hc
  rw [Text.isWord, beq_iff_eq] at h
  -- in lower case the character is one of the word
  have hmem : c.toLower ∈ word.toList := by
    rw [← h]
    exact List.mem_map_of_mem hc
  rw [List.all_eq_true] at hword
  exact isPlain_of_isAlphanum (isAlphanum_of_isLower_toLower (hword _ hmem))

theorem plain_of_digits {ds : List Char} (h : Decimal.Digits ds) : Plain ds :=
  fun c hc => isPlain_of_isNumeric (Or.inl (h c hc))

theorem plain_of_integer {cs : List Char} {i : Int64} (h : integerOfText? cs = some i) :
    Plain cs := by
  obtain ⟨sign, ds, rfl, rfl | rfl, -, hd⟩ := exists_digits_of_integer h
  · exact plain_of_digits hd
  · exact List.forall_mem_cons.mpr ⟨by decide, plain_of_digits hd⟩

theorem plain_of_unsigned {negative : Bool} {cs : List Char} {x : Binary64}
    (h : Binary64.ofUnsignedText? negative cs = some x) : Plain cs := by
  unfold Binary64.ofUnsignedText? at h
  split_ifs at h with hinf hnan
  · rcases Bool.or_eq_true_iff.mp hinf with hinf | hinf
    · exact plain_of_isWord hinf (by decide)
    · exact plain_of_isWord hinf (by decide)
  · exact plain_of_isWord hnan (by decide)
  · obtain ⟨d, hd, -⟩ := Option.map_eq_some_iff.mp h
    exact fun c hc => isPlain_of_isNumeric (Decimal.isNumeric_of_ofText? hd c hc)

theorem plain_of_number {cs : List Char} {x : Binary64} (h : Binary64.ofText? cs = some x) :
    Plain cs := by
  unfold Binary64.ofText? at h
  split at h
  · exact List.forall_mem_cons.mpr ⟨by decide, plain_of_unsigned h⟩
  · exact List.forall_mem_cons.mpr ⟨by decide, plain_of_unsigned h⟩
  · exact plain_of_unsigned h

/-! ### Quotes and brackets -/

theorem exists_quoteWith_of_unquote? {cs inner : List Char} (h : unquote? cs = some inner) :
    ∃ q, Text.isQuote q = true ∧ cs = quoteWith q inner := by
  cases cs with
  | nil => cases h
  | cons q cs =>
    unfold unquote? at h
    dsimp only at h
    split_ifs at h with hq
    rw [Bool.and_eq_true, beq_iff_eq] at hq
    refine ⟨q, hq.1, ?_⟩
    rw [quoteWith, ← Option.some.inj h, List.dropLast_append_getLast? q hq.2]

theorem eq_of_unbracket? {cs inner : List Char} (h : unbracket? cs = some inner) :
    cs = '[' :: (inner ++ [']']) := by
  unfold unbracket? at h
  split at h
  · split_ifs at h with hlast
    rw [beq_iff_eq] at hlast
    rw [← Option.some.inj h, List.dropLast_append_getLast? _ hlast]
  · cases h

/-! ### Values -/

/-- Text that is no list has its value in one of the ways listed. -/
theorem reads_scalarOfText? {cs : List Char} {v : Value} (h : scalarOfText? cs = some v) (n : Nat) :
    Reads n cs v := by
  unfold scalarOfText? at h
  split at h
  · rename_i inner hquote
    obtain ⟨q, hq, rfl⟩ := exists_quoteWith_of_unquote? hquote
    obtain rfl := Option.some.inj h
    exact .quoted hq
  · split_ifs at h with htrue hfalse hnull hcomplete
    · obtain rfl := Option.some.inj h
      exact .atom (plain_of_isWord htrue (by decide)) rfl
    · obtain rfl := Option.some.inj h
      exact .atom (plain_of_isWord hfalse (by decide)) rfl
    · obtain rfl := Option.some.inj h
      rcases Bool.or_eq_true_iff.mp hnull with hnull | hnull
      · exact .atom (plain_of_isWord hnull (by decide)) rfl
      · exact .atom (plain_of_isWord hnull (by decide)) rfl
    · obtain rfl := Option.some.inj h
      exact .complete hcomplete
    · split at h
      · rename_i i hint
        obtain rfl := Option.some.inj h
        exact .atom (plain_of_integer hint) rfl
      · obtain ⟨x, hx, rfl⟩ := Option.map_eq_some_iff.mp h
        exact .atom (plain_of_number hx) rfl

/-- Trimmed text has its value in one of the ways listed. -/
theorem reads_coerceWithin (n : Nat) (raw : List Char) :
    Reads n (Text.trim raw) (coerceWithin n raw) := by
  cases hs : scalarOfText? (Text.trim raw) with
  | some v =>
    rw [coerceWithin_of_scalar hs]
    exact reads_scalarOfText? hs n
  | none =>
    cases hb : unbracket? (Text.trim raw) with
    | none =>
      rw [coerceWithin_of_text hs hb]
      exact .bare
    | some inner =>
      cases n with
      | zero =>
        -- no list is read any more
        have htext : coerceWithin 0 raw = .string (String.ofList (Text.trim raw)) := by
          simp [coerceWithin, hs]
        rw [htext]
        exact .bare
      | succ n =>
        rw [coerceWithin_of_bracket hs hb, eq_of_unbracket? hb]
        split_ifs with hempty
        · exact .empty (Text.blanks_of_trim_eq_nil (List.isEmpty_iff.mp hempty))
        · exact .items

/-- What holds of the values that are read if it holds of those that are read one level down. -/
theorem coerceWithin_induct {P : Nat → List Char → Value → Prop}
    (h : ∀ n raw v, Reads n (Text.trim raw) v →
      (∀ m, n = m + 1 → ∀ e, P m e (coerceWithin m e)) → P n raw v) (n : Nat) (raw : List Char) :
    P n raw (coerceWithin n raw) := by
  induction n generalizing raw with
  | zero =>
    refine h 0 raw _ (reads_coerceWithin 0 raw) fun m hm => ?_
    cases hm
  | succ n ih =>
    refine h (n + 1) raw _ (reads_coerceWithin (n + 1) raw) fun m hm => ?_
    obtain rfl : n = m := Nat.succ.inj hm
    exact ih

/-! ### Depth -/

theorem Reads.depth_le {n : Nat} {cs : List Char} {v : Value} (h : Reads n cs v)
    (hlist : ∀ m, n = m + 1 → ∀ e, depth (coerceWithin m e) ≤ m) : depth v ≤ n := by
  cases h with
  | quoted | complete | bare => exact Nat.zero_le n
  | atom _ hv =>
    rw [depth_of_isAtom hv]
    exact Nat.zero_le n
  | @empty m => exact Nat.succ_le_succ (Nat.zero_le m)
  | @items m inner =>
    refine Nat.succ_le_succ (depths_le fun v hv => ?_)
    obtain ⟨e, -, rfl⟩ := List.mem_map.mp hv
    exact hlist m rfl e

/-- Lists nest no deeper than coercion reads them. -/
theorem depth_coerceWithin (n : Nat) (raw : List Char) : depth (coerceWithin n raw) ≤ n :=
  coerceWithin_induct (P := fun n _ v => depth v ≤ n) (fun _ _ _ => Reads.depth_le) n raw

end Directive.Value
