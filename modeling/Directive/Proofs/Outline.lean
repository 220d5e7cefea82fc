import Directive.Proofs.Lockstep
import Directive.Proofs.OrderedMap

/-!
# What an outline keeps of its tokens

`Stage.Takes` lists which token may come at a stage and what it leads to; the outline is read
exactly by these steps.  What holds at the first stage and is kept by every step holds of each
outline (`Stage.after?_induct`).

The pieces of an outline are tokens of its stream, and it has no other spans than theirs
(`Stage.exists_token_of_mem_spans`).  Its parameters stand in the stream as a name, a sign and a
value side by side, in the same order (`Listed`), so the last parameter with a name is the last name
token with that text, with the value behind it (`LastParam`).
-/

namespace Directive

/-- The text of a token with its place. -/
def Token.piece (t : Token) : Piece :=
  ⟨t.text, t.span⟩

namespace Stage

/-! ### Steps -/

/-- `Takes σ t σ'`: at stage `σ` the token `t` may come, and leads to stage `σ'`. -/
inductive Takes : Stage → Token → Stage → Prop
  | mark {t : Token} : t.kind = .mark → Takes .mark t .family
  | family {t : Token} : t.kind = .familyName → Takes .family t (.separator t.piece)
  | separator {t : Token} {f : Piece} :
      t.kind = .separator → Takes (.separator f) t (.function f)
  | function {t : Token} {f : Piece} :
      t.kind = .functionName → Takes (.function f) t (.blockOrEnd f t.piece)
  | blockOpen {t : Token} {f g : Piece} :
      t.kind = .paramOpen → Takes (.blockOrEnd f g) t (.nameOrClose f g)
  | bareEnd {t : Token} {f g : Piece} :
      t.kind = .endOfInput → Takes (.blockOrEnd f g) t (.done ⟨f, g, [], t.span⟩)
  | emptyClose {t : Token} {f g : Piece} :
      t.kind = .paramClose → Takes (.nameOrClose f g) t (.ending f g [])
  | firstName {t : Token} {f g : Piece} :
      t.kind = .paramName → Takes (.nameOrClose f g) t (.equals f g [] t.piece)
  | name {t : Token} {f g : Piece} {ps : List RawParam} :
      t.kind = .paramName → Takes (.name f g ps) t (.equals f g ps t.piece)
  | equals {t : Token} {f g n : Piece} {ps : List RawParam} :
      t.kind = .paramEquals → Takes (.equals f g ps n) t (.value f g ps n)
  | value {t : Token} {f g n : Piece} {ps : List RawParam} :
      t.kind = .paramValue →
        Takes (.value f g ps n) t (.commaOrClose f g (⟨n, t.piece⟩ :: ps))
  | comma {t : Token} {f g : Piece} {ps : List RawParam} :
      t.kind = .paramSeparator → Takes (.commaOrClose f g ps) t (.name f g ps)
  | close {t : Token} {f g : Piece} {ps : List RawParam} :
      t.kind = .paramClose → Takes (.commaOrClose f g ps) t (.ending f g ps)
  | ending {t : Token} {f g : Piece} {ps : List RawParam} :
      t.kind = .endOfInput → Takes (.ending f g ps) t (.done ⟨f, g, ps.reverse, t.span⟩)

variable {σ σ' : Stage} {t : Token} {ts : List Token}

theorem takes_of_next? (h : σ.next? t = some σ') : Takes σ t σ' := by
  unfold next? at h
  split at h <;> cases h
  · exact .mark ‹_›
  · exact .family ‹_›
  · exact .separator ‹_›
  · exact .function ‹_›
  · exact .blockOpen ‹_›
  · exact .bareEnd ‹_›
  · exact .emptyClose ‹_›
  · exact .firstName ‹_›
  · exact .name ‹_›
  · exact .equals ‹_›
  · exact .value ‹_›
  · exact .comma ‹_›
  · exact .close ‹_›
  · exact .ending ‹_›

/-- What holds at the first stage and is kept by every step holds behind all tokens that fit; the
tokens come with the latest first. -/
theorem after?_induct {P : Stage → List Token → Prop} (hmark : P .mark [])
    (hstep : ∀ {σ σ' t ts}, P σ ts → Takes σ t σ' → P σ' (t :: ts))
    (h : Stage.mark.after? ts = some σ) : P σ ts.reverse := by
  induction ts using List.reverseRecOn generalizing σ with
  | nil =>
    obtain rfl := Option.some.inj h
    exact hmark
  | append_singleton ts t ih =>
    unfold after? at h
    rw [List.foldlM_append] at h
    obtain ⟨σ₁, hσ₁, ht⟩ := Option.bind_eq_some_iff.mp h
    rw [List.foldlM_cons] at ht
    obtain ⟨σ₂, hnext, hσ₂⟩ := Option.bind_eq_some_iff.mp ht
    obtain rfl := Option.some.inj hσ₂
    rw [List.reverse_append]
    exact hstep (ih hσ₁) (takes_of_next? hnext)

/-! ### Names -/

/-- The family and the function, if both have been read. -/
def head? : Stage → Option (Piece × Piece)
  | .mark | .family | .separator _ | .function _ => none
  | .blockOrEnd f g | .nameOrClose f g | .name f g _ | .equals f g _ _ | .value f g _ _
  | .commaOrClose f g _ | .ending f g _ => some (f, g)
  | .done o => some (o.family, o.function)

theorem Takes.head? {x : Piece × Piece} (h : Takes σ t σ') (hσ : σ.head? = some x) :
    σ'.head? = some x := by
  cases h <;> cases hσ <;> rfl

/-- The names stay as they were read. -/
theorem head?_after? {x : Piece × Piece} (hσ : σ.head? = some x) (h : σ.after? ts = some σ') :
    σ'.head? = some x := by
  induction ts generalizing σ with
  | nil =>
    obtain rfl := Option.some.inj h
    exact hσ
  | cons t ts ih =>
    unfold after? at h
    rw [List.foldlM_cons] at h
    obtain ⟨σ₁, hnext, hrest⟩ := Option.bind_eq_some_iff.mp h
    exact ih ((takes_of_next? hnext).head? hσ) hrest

/-! ### Outlines of streams -/

/-- Where the last token decides, the outline is that of the whole stream. -/
theorem after?_of_ofTokens {o : Outline} (hσ : Stage.mark.after? ts = some σ)
    (hdone : ∀ o, σ ≠ .done o) (h : Outline.ofTokens (ts ++ [t]) = .ok o) :
    Stage.mark.after? (ts ++ [t]) = some (.done o) := by
  obtain ⟨last, hrun⟩ := run_append hσ 0
  unfold Outline.ofTokens at h
  rw [hrun, run_cons hdone] at h
  cases hnext : σ.next? t with
  | none =>
    rw [hnext] at h
    cases h
  | some σ' =>
    rw [hnext] at h
    have hend : σ' = .done o := by
      cases σ' with
      | done o' =>
        simp only [run, Except.ok.injEq] at h
        rw [h]
      | _ => cases h
    rw [after?_append hσ, after?, List.foldlM_cons, hnext, hend]
    rfl

end Stage

/-! ### Spans of an outline -/

/-- The spans of the name and the value. -/
def RawParam.spans (p : RawParam) : List Span :=
  [p.name.span, p.value.span]

/-- The spans that an outline has. -/
def Outline.spans (o : Outline) : List Span :=
  o.family.span :: o.function.span :: o.ending :: o.params.flatMap RawParam.spans

namespace Stage

/-- The spans that have been read. -/
def spans : Stage → List Span
  | .mark | .family => []
  | .separator f | .function f => [f.span]
  | .blockOrEnd f g | .nameOrClose f g => [f.span, g.span]
  | .name f g ps | .commaOrClose f g ps | .ending f g ps =>
    f.span :: g.span :: ps.flatMap RawParam.spans
  | .equals f g ps n | .value f g ps n =>
    f.span :: g.span :: n.span :: ps.flatMap RawParam.spans
  | .done o => o.spans

/-- A step adds no span but that of its token. -/
theorem Takes.eq_or_mem_spans {σ σ' : Stage} {t : Token} {s : Span} (h : Takes σ t σ')
    (hs : s ∈ σ'.spans) : s = t.span ∨ s ∈ σ.spans := by
  -- the last step turns the parameters round
  have hreverse : ∀ ps : List RawParam,
      s ∈ ps.reverse.flatMap RawParam.spans ↔ s ∈ ps.flatMap RawParam.spans := by
    simp [List.mem_flatMap]
  cases h <;> simp only [spans, Outline.spans, RawParam.spans, Token.piece, hreverse,
    List.flatMap_cons, List.mem_cons, List.mem_append] at hs ⊢ <;> tauto

/-- The spans of an outline are those of tokens in its stream. -/
theorem exists_token_of_mem_spans {tokens : List Token} {o : Outline} {s : Span}
    (h : Stage.mark.after? tokens = some (.done o)) (hs : s ∈ o.spans) :
    ∃ t ∈ tokens, t.span = s := by
  have hspans : ∀ s ∈ (Stage.done o).spans, ∃ t ∈ tokens.reverse, t.span = s := by
    refine after?_induct (P := fun σ ts => ∀ s ∈ σ.spans, ∃ t ∈ ts, t.span = s) ?_ ?_ h
    · exact List.forall_mem_nil _
    · intro σ σ' t ts hts ht s hs
      rcases ht.eq_or_mem_spans hs with rfl | hs
      · exact ⟨t, List.mem_cons_self, rfl⟩
      · obtain ⟨u, hu, hspan⟩ := hts s hs
        exact ⟨u, List.mem_cons_of_mem _ hu, hspan⟩
  obtain ⟨t, ht, hspan⟩ := hspans s hs
  exact ⟨t, List.mem_reverse.mp ht, hspan⟩

end Stage

namespace Outline

variable {o : Outline}

/-- The spans of the last parameter with a name are among them. -/
theorem mem_spans_of_lastParam? {name : String} {p : RawParam} (h : o.lastParam? name = some p) :
    p.name.span ∈ o.spans ∧ p.value.span ∈ o.spans := by
  have hmem : p ∈ o.params := List.mem_reverse.mp (List.mem_of_find?_eq_some h)
  have hspans : ∀ s ∈ p.spans, s ∈ o.spans := fun s hs => by
    simp only [spans, List.mem_cons, List.mem_flatMap]
    exact Or.inr (Or.inr (Or.inr ⟨p, hmem, hs⟩))
  exact ⟨hspans _ (by simp [RawParam.spans]), hspans _ (by simp [RawParam.spans])⟩

theorem nameSpan_mem_spans (name : String) : o.nameSpan name ∈ o.spans := by
  unfold nameSpan
  cases hp : o.lastParam? name with
  | none => simp [spans]
  | some p => exact (mem_spans_of_lastParam? hp).1

theorem valueSpan_mem_spans (name : String) : o.valueSpan name ∈ o.spans := by
  unfold valueSpan
  cases hp : o.lastParam? name with
  | none => simp [spans]
  | some p => exact (mem_spans_of_lastParam? hp).2

end Outline

/-! ### Parameters -/

/-- The parameters stand in the stream, the latest first in both. -/
inductive Listed : List Token → List RawParam → Prop
  | nil : Listed [] []
  | other {ts : List Token} {ps : List RawParam} {t : Token} :
      t.kind ≠ .paramName → Listed ts ps → Listed (t :: ts) ps
  | param {ts : List Token} {ps : List RawParam} {n e v : Token} :
      n.kind = .paramName → e.kind = .paramEquals → v.kind = .paramValue → Listed ts ps →
        Listed (v :: e :: n :: ts) (⟨n.piece, v.piece⟩ :: ps)

namespace Stage

/-- The parameters that have been read, the latest first. -/
def params : Stage → List RawParam
  | .name _ _ ps | .equals _ _ ps _ | .value _ _ ps _ | .commaOrClose _ _ ps
  | .ending _ _ ps => ps
  | .done o => o.params.reverse
  | _ => []

/-- The tokens, the latest first, are those of the parameters that have been read and of the one at
hand. -/
def Lists (σ : Stage) (ts : List Token) : Prop :=
  match σ with
  | .equals _ _ ps n =>
    ∃ t ts', ts = t :: ts' ∧ t.kind = .paramName ∧ t.piece = n ∧ Listed ts' ps
  | .value _ _ ps n =>
    ∃ e t ts', ts = e :: t :: ts' ∧ e.kind = .paramEquals ∧ t.kind = .paramName ∧ t.piece = n ∧
      Listed ts' ps
  | σ => Listed ts σ.params

variable {σ σ' : Stage} {t : Token} {ts : List Token}

theorem Lists.takes (h : σ.Lists ts) (ht : Takes σ t σ') : σ'.Lists (t :: ts) := by
  have hother : ∀ {k ps}, t.kind = k → k ≠ .paramName → Listed ts ps → Listed (t :: ts) ps :=
    fun hk hne hts => .other (hk ▸ hne) hts
  cases ht with
  | firstName hk => exact ⟨t, ts, rfl, hk, rfl, h⟩
  | name hk => exact ⟨t, ts, rfl, hk, rfl, h⟩
  | equals hk =>
    obtain ⟨n, ts', rfl, hn, rfl, hts⟩ := h
    exact ⟨t, n, ts', rfl, hk, hn, rfl, hts⟩
  | value hk =>
    obtain ⟨e, n, ts', rfl, he, hn, rfl, hts⟩ := h
    exact .param hn he hk hts
  | ending hk =>
    have hrest := hother hk (by decide) h
    show Listed _ (List.reverse _).reverse
    rwa [List.reverse_reverse]
  | mark hk | family hk | separator hk | function hk | blockOpen hk | bareEnd hk | emptyClose hk
  | comma hk | close hk => exact hother hk (by decide) h

/-- The parameters of an outline stand in its stream. -/
theorem listed_of_done {o : Outline} (h : Stage.mark.after? ts = some (.done o)) :
    Listed ts.reverse o.params.reverse :=
  after?_induct (P := Lists) .nil Lists.takes h

end Stage

/-- In the stream, `n` is the last parameter name that is `name`, and `v` is its value. -/
def LastParam (tokens : List Token) (name : String) (n v : Token) : Prop :=
  ∃ before e after, tokens = before ++ n :: e :: v :: after ∧ n.kind = .paramName ∧
    n.text = name ∧ e.kind = .paramEquals ∧ v.kind = .paramValue ∧
      ∀ t ∈ after, t.kind = .paramName → t.text ≠ name

/-- The latest parameter of a name has the latest name token. -/
theorem Listed.exists_of_find? {ts : List Token} {ps : List RawParam} {name : String}
    {p : RawParam} (h : Listed ts ps) (hp : ps.find? (fun p => p.name.text == name) = some p) :
    ∃ n v, LastParam ts.reverse name n v ∧ p = ⟨n.piece, v.piece⟩ := by
  -- what comes later does not have the name
  have hlater : ∀ {ts : List Token} {n v : Token} (us : List Token),
      (∀ t ∈ us, t.kind = .paramName → t.text ≠ name) → LastParam ts.reverse name n v →
        LastParam (us ++ ts).reverse name n v := by
    rintro ts n v us hus ⟨before, e, after, hts, hn, htext, he, hv, hafter⟩
    refine ⟨before, e, after ++ us.reverse, ?_, hn, htext, he, hv, ?_⟩
    · rw [List.reverse_append, hts]
      simp
    · intro t ht
      rcases List.mem_append.mp ht with ht | ht
      · exact hafter t ht
      · exact hus t (List.mem_reverse.mp ht)
  induction h with
  | nil => cases hp
  | @other ts _ t hk _ ih =>
    obtain ⟨n, v, hlast, hpieces⟩ := ih hp
    refine ⟨n, v, hlater [t] ?_ hlast, hpieces⟩
    exact List.forall_mem_singleton.mpr fun hname => absurd hname hk
  | @param ts _ n e v hn he hv _ ih =>
    by_cases hname : n.text = name
    · have hfirst : (n.piece.text == name) = true := beq_iff_eq.mpr hname
      simp only [List.find?_cons, hfirst] at hp
      refine ⟨n, v, ⟨ts.reverse, e, [], by simp, hn, hname, he, hv, ?_⟩, (Option.some.inj hp).symm⟩
      exact List.forall_mem_nil _
    · have hfirst : (n.piece.text == name) = false := beq_eq_false_iff_ne.mpr hname
      simp only [List.find?_cons, hfirst] at hp
      obtain ⟨n', v', hlast, hpieces⟩ := ih hp
      refine ⟨n', v', hlater [v, e, n] ?_ hlast, hpieces⟩
      simp [hn, he, hv, hname]

/-- The value of a parameter is what its last raw value says. -/
theorem Outline.get?_parameters (o : Outline) (name : String) : o.parameters.get? name =
    (o.lastParam? name).map fun p => Value.coerce p.value.text := by
  have hlast : o.lastParam? name = (o.params.filter fun p => p.name.text == name).getLast? := by
    rw [lastParam?, ← List.head?_filter, List.filter_reverse, List.head?_reverse]
  rw [parameters, OrderedMap.get?_ofList, hlast, List.filter_map, List.getLast?_map,
    Option.map_map]
  rfl

end Directive
