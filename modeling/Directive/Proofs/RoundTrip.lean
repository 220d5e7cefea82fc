import Directive.Proofs.Canonical
import Directive.Proofs.Rigidity
import Directive.Proofs.Signs

/-!
# Canonical text of what was read

A command that was read from a text need not be read back from its canonical text, as a string that
was written bare may have both quotes with delimiters behind them.  It is read back exactly if each
of its values is: the equals signs of the canonical text tell that as many parameters are read in it
as were written, and then the written values end where those that are read end.
-/

namespace Directive

open Grammar
open Value (Rigid joined signs)
open Text (Blanks)

/-! ### Pairs -/

/-- A name, perhaps with blanks around it, an equals sign and the raw text of a value. -/
def IsPair (n raw t : List Char) : Prop :=
  ∃ x, t = x ++ '=' :: raw ∧ '=' ∉ x ∧ Text.trim x = n

/-- The first equals sign is at one place. -/
theorem eq_of_append_sign_eq {x y a b : List Char} (hx : '=' ∉ x) (hy : '=' ∉ y)
    (h : x ++ '=' :: a = y ++ '=' :: b) : x = y ∧ a = b := by
  have hne : ∀ {z : List Char}, '=' ∉ z → ∀ c ∈ z, (c != '=') = true := by
    intro z hz c hc
    rw [bne_iff_ne]
    rintro rfl
    exact hz hc
  have hxy : x = y := Value.eq_of_append_cons_eq (hne hx) (hne hy) rfl rfl h
  rw [hxy, List.append_cancel_left_eq, List.cons.injEq] at h
  exact ⟨hxy, h.2⟩

/-- A text is a pair in one way. -/
theorem IsPair.unique {n n' raw raw' t : List Char} (h : IsPair n raw t) (h' : IsPair n' raw' t) :
    n = n' ∧ raw = raw' := by
  obtain ⟨x, rfl, hx, rfl⟩ := h
  obtain ⟨x', heq, hx', rfl⟩ := h'
  obtain ⟨rfl, rfl⟩ := eq_of_append_sign_eq hx hx' heq
  exact ⟨rfl, rfl⟩

/-- Pairs end where their values end. -/
theorem IsPair.rigid {n n' raw raw' t t' : List Char} (h : IsPair n raw t) (h' : IsPair n' raw' t')
    (hraw : n = n' → Rigid raw raw') : Rigid t t' := by
  obtain ⟨x, rfl, hx, rfl⟩ := h
  obtain ⟨x', rfl, hx', rfl⟩ := h'
  intro δ δ' a b hδ hδ' heq
  rw [List.append_assoc, List.append_assoc, List.cons_append, List.cons_append] at heq
  obtain ⟨rfl, hrest⟩ := eq_of_append_sign_eq hx hx' heq
  rw [hraw rfl hδ hδ' hrest]

theorem IsPair.signs_eq {n raw t : List Char} (h : IsPair n raw t) : signs t = signs raw + 1 := by
  obtain ⟨x, rfl, hx, rfl⟩ := h
  rw [Value.signs_append, Value.signs_cons_sign, Value.signs_eq_zero hx, Nat.zero_add]

theorem IsPair.blanks_append {n raw t w : List Char} (hw : Blanks w) (h : IsPair n raw t) :
    IsPair n raw (w ++ t) := by
  obtain ⟨x, rfl, hx, rfl⟩ := h
  refine ⟨w ++ x, (List.append_assoc _ _ _).symm, ?_, Text.trim_blanks_append hw⟩
  rw [List.mem_append, not_or]
  exact ⟨Text.not_mem_of_blanks hw rfl, hx⟩

/-! ### Names -/

theorem trim_of_isName {n : List Char} (h : IsName n) : Text.trim n = n :=
  Text.trim_eq_self (fun c hc => Text.not_isBlank_of_isNameChar (h.2 c (List.mem_of_mem_head? hc)))
    (fun c hc => Text.not_isBlank_of_isNameChar (h.2 c (List.mem_of_getLast? hc)))

theorem sign_not_mem_of_isName {n : List Char} (h : IsName n) : '=' ∉ n := by
  intro hm
  have hc := h.2 '=' hm
  revert hc
  decide

theorem isPair_of_isName {n : List Char} (h : IsName n) (raw : List Char) :
    IsPair n raw (n ++ '=' :: raw) :=
  ⟨n, rfl, sign_not_mem_of_isName h, trim_of_isName h⟩

/-! ### Parameters that are read -/

/-- The text between two commas of a parameter block. -/
def IsPiece (p : List Char × List Char) (t : List Char) : Prop :=
  IsName p.1 ∧ IsValue p.2 ∧ ∃ raw, IsPair p.1 raw t ∧ Text.trim raw = p.2

theorem isPiece_of_isParam {p : List Char × List Char} {w t : List Char} (hw : Blanks w)
    (h : IsParam p t) : IsPiece p (w ++ t) := by
  cases h with
  | @intro n w₁ w₂ v w₃ hn hw₁ hw₂ hv hw₃ =>
    have hx : '=' ∉ n ++ w₁ := by
      rw [List.mem_append, not_or]
      exact ⟨sign_not_mem_of_isName hn, Text.not_mem_of_blanks hw₁ rfl⟩
    have hname : Text.trim (n ++ w₁) = n := by
      rw [Text.trim_append_blanks hw₁, trim_of_isName hn]
    have hvalue : Text.trim (w₂ ++ v ++ w₃) = v := by
      rw [Text.trim_append_blanks hw₃, Text.trim_blanks_append hw₂, Text.trim_eq_self hv.head hv.last]
    exact ⟨hn, hv, w₂ ++ v ++ w₃, IsPair.blanks_append hw ⟨n ++ w₁, rfl, hx, hname⟩, hvalue⟩

theorem exists_pieces_of_moreParams {p : List Char × List Char} {ps : List (List Char × List Char)}
    {w t ts : List Char} (hw : Blanks w) (h : IsParam p t) (hps : MoreParams ps ts) :
    ∃ us, w ++ t ++ ts = joined us ∧ List.Forall₂ IsPiece (p :: ps) us := by
  induction hps generalizing p w t with
  | nil => exact ⟨[w ++ t], List.append_nil _, .cons (isPiece_of_isParam hw h) .nil⟩
  | cons hw' h' _ ih =>
    obtain ⟨us, hus, hpieces⟩ := ih hw' h'
    cases hpieces with
    | @cons _ u _ us hu hrest =>
      refine ⟨(w ++ t) :: u :: us, ?_, .cons (isPiece_of_isParam hw h) (.cons hu hrest)⟩
      rw [hus]
      rfl

/-- A block is made of the pieces of its parameters. -/
theorem exists_pieces_of_isBlock {ps : List (List Char × List Char)} {b : List Char}
    (h : IsBlock ps b) :
    ps = [] ∨ ∃ us, b = '{' :: (joined us ++ ['}']) ∧ List.Forall₂ IsPiece ps us := by
  cases h with
  | empty => exact Or.inl rfl
  | params hw h hps =>
    obtain ⟨us, hus, hpieces⟩ := exists_pieces_of_moreParams hw h hps
    exact Or.inr ⟨us, by rw [hus], hpieces⟩

/-- The names in a directive are names of the grammar. -/
theorem Grammar.IsDirective.isName {r : Reading} {cs : List Char} (h : IsDirective r cs) :
    IsName r.family ∧ IsName r.function ∧ ∀ p ∈ r.params, IsName p.1 := by
  cases h with
  | bare hf hg => exact ⟨hf, hg, List.forall_mem_nil _⟩
  | @block _ _ _ _ _ ps hf hg _ hb =>
    refine ⟨hf, hg, ?_⟩
    rcases exists_pieces_of_isBlock hb with rfl | ⟨us, -, hus⟩
    · exact List.forall_mem_nil _
    · exact (List.forall₂_and_left ps us |>.mp hus).1

/-! ### Parameters that are written -/

namespace Command

/-- The texts of the pairs as they stand between the commas. -/
def writtenPieces : List (String × Value) → List (List Char)
  | [] => []
  | p :: ps =>
    (p.1.toList ++ '=' :: p.2.write) :: ps.map fun q => ' ' :: (q.1.toList ++ '=' :: q.2.write)

theorem writePairs_eq (ps : List (String × Value)) : writePairs ps = joined (writtenPieces ps) := by
  induction ps with
  | nil => rfl
  | cons p ps ih =>
    cases ps with
    | nil => rfl
    | cons q ps =>
      rw [writePairs, ih]
      show _ = (p.1.toList ++ '=' :: p.2.write) ++ ',' :: joined ((' ' :: _) :: ps.map _)
      rw [Value.joined_cons_space, List.append_assoc]
      rfl

theorem forall₂_writtenPieces {ps : List (String × Value)} (h : ∀ e ∈ ps, IsName e.1.toList) :
    List.Forall₂ (fun e t => IsPair e.1.toList e.2.write t) ps (writtenPieces ps) := by
  cases ps with
  | nil => exact .nil
  | cons p ps =>
    obtain ⟨hp, hps⟩ := List.forall_mem_cons.mp h
    refine .cons (isPair_of_isName hp p.2.write) ?_
    rw [List.forall₂_map_right_iff, List.forall₂_same]
    intro e he
    exact IsPair.blanks_append Text.blanks_space (isPair_of_isName (hps e he) e.2.write)

/-- An entry for a pair of texts. -/
def entry (p : List Char × List Char) : String × Value :=
  (String.ofList p.1, Value.coerce (String.ofList p.2))

/-- The share of an entry in the equals signs of a written block. -/
def weight (e : String × Value) : Nat :=
  signs e.2.write + 1

theorem weight_entry {p : List Char × List Char} {t : List Char} (h : IsPiece p t) :
    weight (entry p) = signs t := by
  obtain ⟨-, -, raw, hpair, hraw⟩ := h
  rw [weight, entry, hpair.signs_eq, Value.coerce, String.toList_ofList, Value.signs_coerceWithin,
    ← hraw, Value.signs_trim]

theorem sum_eq_of_forall₂ {α : Type} {f : α → Nat} {R : α → List Char → Prop}
    (hR : ∀ a t, R a t → f a = signs t) {as : List α} {ts : List (List Char)}
    (h : List.Forall₂ R as ts) : (as.map f).sum = signs (joined ts) := by
  rw [Value.signs_joined]
  induction h with
  | nil => rfl
  | cons hat _ ih => rw [List.map_cons, List.map_cons, List.sum_cons, List.sum_cons, ih, hR _ _ hat]

/-- If as many equals signs are read as were written and the values are the same, the entries are
the same but for their order. -/
theorem perm_of_signs_eq {m : OrderedMap Value} {ps : List (List Char × List Char)}
    {us : List (List Char)} (hnames : ∀ e ∈ m.entries, IsName e.1.toList)
    (hus : List.Forall₂ IsPiece ps us)
    (hget : ∀ n, (OrderedMap.ofList (ps.map entry)).get? n = m.get? n)
    (hsigns : signs (joined us) = signs (writePairs m.entries)) :
    (ps.map entry).Perm m.entries := by
  have hperm := OrderedMap.perm_of_get?_eq hget
  have hread : ((ps.map entry).map weight).sum = signs (joined us) := by
    have hweight : ∀ p t, IsPiece p t → (weight ∘ entry) p = signs t := fun _ _ => weight_entry
    rw [List.map_map]
    exact sum_eq_of_forall₂ hweight hus
  have hwritten : (m.entries.map weight).sum = signs (writePairs m.entries) := by
    have hweight : ∀ (e : String × Value) t, IsPair e.1.toList e.2.write t → weight e = signs t :=
      fun _ _ h => h.signs_eq.symm
    rw [writePairs_eq]
    exact sum_eq_of_forall₂ hweight (forall₂_writtenPieces hnames)
  -- a name that is given twice would be missing in the sum over the map
  have hnodup : ((ps.map entry).map Prod.fst).Nodup := by
    refine OrderedMap.nodup_of_sum_ofList (f := weight) (fun _ => Nat.succ_pos _) ?_
    rw [(hperm.map weight).sum_nat, hread, hwritten, hsigns]
  rwa [OrderedMap.entries_ofList hnodup] at hperm

theorem forall₂_of_length_eq {α β : Type} {R : α → β → Prop} {as : List α} {bs : List β}
    (hlen : as.length = bs.length) (h : ∀ a ∈ as, ∀ b ∈ bs, R a b) : List.Forall₂ R as bs :=
  List.forall₂_of_length_eq_of_get hlen fun i ha hb =>
    h _ (List.get_mem as ⟨i, ha⟩) _ (List.get_mem bs ⟨i, hb⟩)

/-- A parameter that is read under the name of an entry has its value. -/
theorem coerce_eq_of_perm {m : OrderedMap Value} {ps : List (List Char × List Char)}
    (hperm : (ps.map entry).Perm m.entries) {p : List Char × List Char} (hp : p ∈ ps)
    {e : String × Value} (he : e ∈ m.entries) (hname : p.1 = e.1.toList) :
    Value.coerce (String.ofList p.2) = e.2 := by
  have hmem : entry p ∈ m.entries := hperm.mem_iff.mp (List.mem_map_of_mem hp)
  have hkey : (entry p).1 = e.1 := by rw [entry, hname, String.ofList_toList]
  rw [OrderedMap.mem_entries_iff, hkey] at hmem
  rw [OrderedMap.mem_entries_iff, hmem] at he
  exact Option.some.inj he

/-- If the same entries are read as were written, they are read from what was written for them. -/
theorem pieces_eq_of_perm {m : OrderedMap Value} {ps : List (List Char × List Char)}
    {us : List (List Char)} {a b : List Char} (hnames : ∀ e ∈ m.entries, IsName e.1.toList)
    (hus : List.Forall₂ IsPiece ps us) (hperm : (ps.map entry).Perm m.entries)
    (hne : ps ≠ []) (htext : joined us ++ '}' :: a = writePairs m.entries ++ '}' :: b) :
    us = writtenPieces m.entries := by
  have hwritten := forall₂_writtenPieces hnames
  have hlen : us.length = (writtenPieces m.entries).length := by
    rw [← hus.length_eq, ← hwritten.length_eq, ← hperm.length_eq, List.length_map]
  have hrigid : ∀ u ∈ us, ∀ t ∈ writtenPieces m.entries, Rigid u t := by
    intro u hu t ht
    obtain ⟨p, hp, -, -, raw, hpair, hraw⟩ := exists_left_of_forall₂ hus hu
    obtain ⟨e, he, hpair'⟩ := exists_left_of_forall₂ hwritten ht
    -- distinct names: the two pieces have the same value as soon as they have the same name
    refine hpair.rigid hpair' fun hname => Value.rigid_write e.2 (n := maxListDepth) ?_
    rw [← coerce_eq_of_perm hperm hp he hname, Value.coerce, String.toList_ofList]
    exact Value.coerceWithin_congr (by rw [← hraw, Text.trim_trim]) _
  have husne : us ≠ [] := by
    rintro rfl
    exact hne (List.length_eq_zero_iff.mp hus.length_eq)
  rw [writePairs_eq] at htext
  exact Value.eq_of_joined_append_eq (forall₂_of_length_eq hlen hrigid) husne rfl rfl htext

/-- Then every written value is a value of the grammar and is read back. -/
theorem isValue_of_pieces_eq {m : OrderedMap Value} {ps : List (List Char × List Char)}
    (hnames : ∀ e ∈ m.entries, IsName e.1.toList)
    (hus : List.Forall₂ IsPiece ps (writtenPieces m.entries))
    (hperm : (ps.map entry).Perm m.entries) {e : String × Value} (he : e ∈ m.entries) :
    IsValue e.2.write ∧ Value.coerce e.2.text = e.2 := by
  have hwritten := (List.Forall₂.flip (R := flip _) (forall₂_writtenPieces hnames))
  obtain ⟨t, ht, hpair⟩ := exists_left_of_forall₂ hwritten he
  obtain ⟨p, hp, -, hvalue, raw, hpair', hraw⟩ := exists_left_of_forall₂ hus ht
  obtain ⟨hname, rfl⟩ := hpair'.unique hpair
  -- the raw text of the piece is the written value, which has no blanks around it
  rw [(Value.tight_write e.2).trim_eq] at hraw
  have hcoerce := coerce_eq_of_perm hperm hp he hname
  rw [← hraw] at hvalue hcoerce
  exact ⟨hvalue, hcoerce⟩

/-! ### Reading canonical text again -/

/-- The block of canonical text is read as it was written, up to blanks behind it. -/
theorem exists_pieces_of_isDirective {c : Command} {r : Reading} (h : IsDirective r c.write)
    (hf : r.family = c.family.toList) (hg : r.function = c.function.toList)
    (hne : c.parameters.isEmpty = false) : r.params = [] ∨ ∃ us a, List.Forall₂ IsPiece r.params us ∧
      Blanks a ∧ joined us ++ '}' :: a = writePairs c.parameters.entries ++ ['}'] := by
  have hwrite : c.write = mark.toList ++ c.family.toList ++ '.' :: c.function.toList ++
      '{' :: (writePairs c.parameters.entries ++ ['}']) := by
    rw [write, hne]
    rfl
  rw [hwrite] at h
  generalize hx : mark.toList ++ c.family.toList ++ '.' :: c.function.toList ++
      '{' :: (writePairs c.parameters.entries ++ ['}']) = x at h
  cases h with
  | bare => exact Or.inl rfl
  | @block f g w b w' ps _ _ hw hb hw' =>
    -- family and function are the same, so what is behind them is, and no blanks are in front of it
    rcases exists_pieces_of_isBlock hb with hnil | ⟨us, rfl, hus⟩
    · exact Or.inl hnil
    · have hf : f = c.family.toList := hf
      have hg : g = c.function.toList := hg
      rw [hf, hg] at hx
      have hrest : w ++ ('{' :: (joined us ++ ['}']) ++ w') =
          '{' :: (writePairs c.parameters.entries ++ ['}']) := by
        simpa using hx.symm
      have hnil := Text.blanks_eq_nil_of_append_eq hw rfl hrest
      rw [hnil] at hrest
      refine Or.inr ⟨us, w', hus, hw', ?_⟩
      simpa using hrest

/-- The command is read back from its canonical text, but for the order of the parameters. -/
def RoundTrips (c : Command) : Prop :=
  ∃ d, parseSyntax c.text = .ok d ∧ d.family = c.family ∧ d.function = c.function ∧
    ∀ n, d.get? n = c.get? n

/-- If a command is read back, its values are. -/
theorem RoundTrips.isValue {c : Command} (h : c.RoundTrips)
    (hnames : ∀ e ∈ c.parameters.entries, IsName e.1.toList) {e : String × Value}
    (he : e ∈ c.parameters.entries) : IsValue e.2.write ∧ Value.coerce e.2.text = e.2 := by
  obtain ⟨d, hd, hf, hg, hget⟩ := h
  obtain ⟨r, hr, rfl⟩ := parseSyntax_eq_ok_iff.mp hd
  rw [text, String.toList_ofList] at hr
  have hf : r.family = c.family.toList := by rw [← hf, Reading.command, String.toList_ofList]
  have hg : r.function = c.function.toList := by rw [← hg, Reading.command, String.toList_ofList]
  have hne : c.parameters.isEmpty = false := by
    rw [OrderedMap.isEmpty, List.isEmpty_eq_false_iff]
    exact List.ne_nil_of_mem he
  have hget : ∀ n, (OrderedMap.ofList (r.params.map entry)).get? n = c.parameters.get? n := hget
  -- the entry has a value, so at least one parameter is read
  have hparams : r.params ≠ [] := by
    intro hnil
    have hvalue := hget e.1
    rw [OrderedMap.mem_entries_iff.mp he, hnil] at hvalue
    cases hvalue
  obtain ⟨us, a, hus, ha, htext⟩ :=
    (exists_pieces_of_isDirective hr hf hg hne).resolve_left hparams
  have hsigns : signs (joined us) = signs (writePairs c.parameters.entries) := by
    have hcount := congrArg signs htext
    rw [Value.signs_append, Value.signs_append, Value.signs_cons_of_ne (by decide),
      Value.signs_cons_of_ne (by decide), Value.signs_of_blanks ha] at hcount
    exact hcount
  have hperm := perm_of_signs_eq hnames hus hget hsigns
  obtain rfl := pieces_eq_of_perm hnames hus hperm hparams htext
  exact isValue_of_pieces_eq hnames hus hperm he

/-- What is known of a command that was read: its names are names, and no list nests too deep. -/
theorem isName_and_depth_of_parseSyntax {text : String} {c : Command} (h : parseSyntax text = .ok c) :
    IsName c.family.toList ∧ IsName c.function.toList ∧ ∀ e ∈ c.parameters.entries,
      IsName e.1.toList ∧ e.2.depth ≤ maxListDepth := by
  obtain ⟨r, hr, rfl⟩ := parseSyntax_eq_ok_iff.mp h
  obtain ⟨hf, hg, hparams⟩ := hr.isName
  rw [Reading.command, String.toList_ofList, String.toList_ofList]
  refine ⟨hf, hg, fun e he => ?_⟩
  obtain ⟨p, hp, rfl⟩ := List.mem_map.mp (OrderedMap.mem_of_mem_entries_ofList he)
  rw [String.toList_ofList]
  exact ⟨hparams p hp, Value.depth_coerceWithin maxListDepth _⟩

/-- A command that was read from a text is read back from its canonical text exactly if each of its
values is written as a value of the grammar that coercion reads back.  All are when the strings can
be quoted. -/
theorem roundTrips_iff_values {text : String} {c : Command} (h : parseSyntax text = .ok c) :
    (c.RoundTrips ↔
        ∀ v ∈ c.parameters.values, IsValue v.write ∧ Value.coerce v.text = v) ∧
      ((∀ v ∈ c.parameters.values, ∀ s ∈ v.strings, Value.Quotable s.toList) → c.RoundTrips) := by
  obtain ⟨hf, hg, hentries⟩ := isName_and_depth_of_parseSyntax h
  have hback : (∀ v ∈ c.parameters.values, IsValue v.write ∧ Value.coerce v.text = v) →
      c.RoundTrips := by
    intro hvalues
    refine ⟨_, parseSyntax_text hf hg fun e he => ?_, rfl, rfl, fun _ => rfl⟩
    exact ⟨(hentries e he).1, hvalues e.2 (List.mem_map_of_mem he)⟩
  refine ⟨⟨fun hc v hv => ?_, hback⟩, fun hs => hback fun v hv => ?_⟩
  · obtain ⟨e, he, rfl⟩ := List.mem_map.mp hv
    exact hc.isValue (fun e he => (hentries e he).1) he
  · obtain ⟨e, he, rfl⟩ := List.mem_map.mp hv
    have hdepth := (hentries e he).2
    exact ⟨Value.isValue_write hdepth (hs e.2 hv), Value.coerce_text hdepth (hs e.2 hv)⟩

/-- A string with a comma in it that was written between quotes is read back. -/
theorem roundTrips_iff_values_comma : ∃ c, parseSyntax ".p/a.b\x7bx='it, so'\x7d" = .ok c ∧
    c.RoundTrips := by
  have h : parseSyntax ".p/a.b\x7bx='it, so'\x7d" =
      .ok ⟨"a", "b", .ofList [("x", .string "it, so")], ".p/a.b\x7bx='it, so'\x7d"⟩ := by
    rfl
  exact ⟨_, h, (roundTrips_iff_values h).2 (by decide)⟩

/-- A string that was written bare, in which both quotes have a delimiter behind them, is not read
back. -/
theorem not_roundTrips_both_quotes : ∃ c, parseSyntax ".p/a.b\x7bx=\"a,b\" 'c]\x7d" = .ok c ∧
    ¬c.RoundTrips := by
  refine ⟨⟨"a", "b", .ofList [("x", .string "\"a,b\" 'c]")], ".p/a.b\x7bx=\"a,b\" 'c]\x7d"⟩,
    rfl, ?_⟩
  rintro ⟨d, hd, -⟩
  have hfail : (parseSyntax ".p/a.b\x7bx=\"\"a,b\" 'c]\"\x7d").isOk = false := by decide +kernel
  have htext : text ⟨"a", "b", .ofList [("x", .string "\"a,b\" 'c]")],
      ".p/a.b\x7bx=\"a,b\" 'c]\x7d"⟩ = ".p/a.b\x7bx=\"\"a,b\" 'c]\"\x7d" := by decide +kernel
  rw [← htext, hd] at hfail
  cases hfail

end Command

end Directive
