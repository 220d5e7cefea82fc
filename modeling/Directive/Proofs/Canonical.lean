import Directive.Proofs.Acceptance
import Directive.Proofs.Coercion

/-!
# Canonical text is read back

The canonical text of a command is a directive whose reading has the written values in the order of
the parameters.  So the text is read as the same command as soon as every value is read back from
its written form, which `Value.isValue_write` and `Value.coerceWithin_write` give for values whose
strings can be quoted and whose lists nest within the limit.
-/

namespace Directive

open Grammar

theorem Value.coerce_text {v : Value} (hd : v.depth ≤ maxListDepth)
    (hs : ∀ s ∈ v.strings, Quotable s.toList) : coerce v.text = v := by
  rw [coerce, text, String.toList_ofList, coerceWithin_write hd (Nat.le_refl _) hs]

namespace Command

/-! ### Written pairs -/

theorem isParam_write {n v : List Char} (hn : IsName n) (hv : IsValue v) :
    IsParam (n, v) (n ++ '=' :: v) := by
  have h := IsParam.intro hn Text.blanks_nil Text.blanks_nil hv Text.blanks_nil
  rwa [List.append_nil, List.nil_append, List.append_nil] at h

/-- A pair as its two texts. -/
def pairTexts (p : String × Value) : List Char × List Char :=
  (p.1.toList, p.2.write)

/-- Written pairs are parameters of the grammar. -/
theorem exists_moreParams_writePairs {p : String × Value} {ps : List (String × Value)}
    (h : ∀ e ∈ p :: ps, IsName e.1.toList ∧ IsValue e.2.write) :
    ∃ ts, writePairs (p :: ps) = p.1.toList ++ '=' :: p.2.write ++ ts ∧
      MoreParams (ps.map pairTexts) ts := by
  induction ps generalizing p with
  | nil => exact ⟨[], (List.append_nil _).symm, .nil⟩
  | cons q ps ih =>
    -- the written text has a comma and a space in front of the next pair
    obtain ⟨hq, hps⟩ := List.forall_mem_cons.mp (List.forall_mem_cons.mp h).2
    obtain ⟨ts, hts, hmore⟩ := ih (List.forall_mem_cons.mpr ⟨hq, hps⟩)
    refine ⟨_, ?_, .cons Text.blanks_space (isParam_write hq.1 hq.2) hmore⟩
    rw [writePairs, hts]
    simp

/-- The reading of canonical text. -/
def reading (c : Command) : Reading :=
  ⟨c.family.toList, c.function.toList, c.parameters.entries.map pairTexts⟩

/-- Canonical text is a directive if every value is written as a value of the grammar. -/
theorem isDirective_write {c : Command} (hf : IsName c.family.toList) (hg : IsName c.function.toList)
    (hp : ∀ e ∈ c.parameters.entries, IsName e.1.toList ∧ IsValue e.2.write) :
    IsDirective c.reading c.write := by
  unfold reading write OrderedMap.isEmpty
  generalize c.parameters.entries = ps at hp
  cases ps with
  | nil =>
    have h := IsDirective.bare hf hg Text.blanks_nil
    simpa using h
  | cons p ps =>
    obtain ⟨hp₁, hp₂⟩ := hp p List.mem_cons_self
    obtain ⟨ts, hts, hmore⟩ := exists_moreParams_writePairs hp
    have hblock := IsBlock.params Text.blanks_nil (isParam_write hp₁ hp₂) hmore
    have h := IsDirective.block hf hg Text.blanks_nil hblock Text.blanks_nil
    rw [hts]
    simpa [pairTexts] using h

/-! ### Reading canonical text -/

/-- The parameters of the reading have the values that coercion gives the written ones. -/
theorem command_reading {c : Command} (text : String)
    (hv : ∀ e ∈ c.parameters.entries, Value.coerce e.2.text = e.2) :
    c.reading.command text = ⟨c.family, c.function, c.parameters, text⟩ := by
  have hentries : c.reading.params.map (fun p => (String.ofList p.1, Value.coerce (String.ofList p.2)))
      = c.parameters.entries := by
    rw [reading, List.map_map]
    refine (List.map_congr_left fun e he => ?_).trans (List.map_id _)
    show (String.ofList e.1.toList, Value.coerce e.2.text) = e
    rw [String.ofList_toList, hv e he]
  rw [Reading.command, hentries, OrderedMap.ofList_entries, reading, String.ofList_toList,
    String.ofList_toList]

/-- Canonical text is read as the command it was written for if every value is read back. -/
theorem parseSyntax_text {c : Command} (hf : IsName c.family.toList)
    (hg : IsName c.function.toList)
    (hp : ∀ e ∈ c.parameters.entries,
      IsName e.1.toList ∧ IsValue e.2.write ∧ Value.coerce e.2.text = e.2) :
    parseSyntax c.text = .ok ⟨c.family, c.function, c.parameters, c.text⟩ := by
  rw [parseSyntax_eq_ok_iff]
  refine ⟨c.reading, ?_, (command_reading c.text fun e he => (hp e he).2.2).symm⟩
  rw [text, String.toList_ofList]
  exact isDirective_write hf hg fun e he => ⟨(hp e he).1, (hp e he).2.1⟩

/-- Canonical text encodes commands without loss: a command with proper names, whose lists nest
within the limit and whose strings can all be quoted, is read back from its canonical text, with its
parameters in their order, and has the same canonical text again. -/
theorem parseSyntax_canonical (c : Command) (hf : Text.isName c.family = true)
    (hg : Text.isName c.function = true) (hn : ∀ n ∈ c.parameters.names, Text.isName n = true)
    (hd : ∀ v ∈ c.parameters.values, v.depth ≤ maxListDepth)
    (hs : ∀ v ∈ c.parameters.values, ∀ s ∈ v.strings, Value.Quotable s.toList) :
    ∃ d, parseSyntax c.text = .ok d ∧ d.family = c.family ∧ d.function = c.function ∧
      d.parameters = c.parameters ∧ d.text = c.text := by
  refine ⟨_, parseSyntax_text (isName_iff.mp hf) (isName_iff.mp hg) ?_, rfl, rfl, rfl, rfl⟩
  intro e he
  have hname : e.1 ∈ c.parameters.names := List.mem_map_of_mem he
  have hvalue : e.2 ∈ c.parameters.values := List.mem_map_of_mem he
  exact ⟨isName_iff.mp (hn e.1 hname), Value.isValue_write (hd e.2 hvalue) (hs e.2 hvalue),
    Value.coerce_text (hd e.2 hvalue) (hs e.2 hvalue)⟩

/-- A list with a string that has both quotes and a comma in it is read back. -/
theorem parseSyntax_canonical_list :
    ∃ d, parseSyntax (text ⟨"reflect", "trace", .ofList [("target",
        .list [.string "it's, \"so\"", .integer (-3), .float (.infinite true), .list []]),
      ("depth", .string "complete")], ""⟩) = .ok d ∧
        d.parameters.names = ["target", "depth"] := by
  obtain ⟨d, hd, -, -, hp, -⟩ := parseSyntax_canonical ⟨"reflect", "trace", .ofList [("target",
        .list [.string "it's, \"so\"", .integer (-3), .float (.infinite true), .list []]),
      ("depth", .string "complete")], ""⟩ (by decide) (by decide) (by decide) (by decide) (by decide)
  refine ⟨d, hd, ?_⟩
  rw [hp]
  rfl

end Command

end Directive
