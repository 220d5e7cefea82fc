import Directive.Proofs.Scanner

/-!
# The tokens of a text tile it

Each token has the text that stands under its span, the tokens stand one behind the other, and what
stands between them are blanks.  `Laid` says so of the tokens of a text, whatever may stand between
them; `Tiling` is the case of blanks.

The scanner keeps this up at every character: its complete tokens tile the text up to where the
token at hand begins, and what has been read of that token is the rest (`Tiled`).  When the token at
hand is complete, the tokens tile all of the text.
-/

namespace Directive

/-! ### Slices -/

namespace Span

/-- The byte at offset `n` is under the span. -/
def Covers (s : Span) (n : Nat) : Prop :=
  s.start ≤ n ∧ n < s.stop

instance (s : Span) (n : Nat) : Decidable (s.Covers n) :=
  inferInstanceAs (Decidable (_ ∧ _))

/-- The characters under the span, if both of its ends stand between characters of the text. -/
def slice? (s : Span) (cs : List Char) : Option (List Char) :=
  let front := Text.takeBytes s.start cs
  let under := Text.takeBytes s.size (Text.dropBytes s.start cs)
  if Text.size front = s.start ∧ Text.size under = s.size then some under else none

variable {s : Span} {cs t u : List Char}

theorem eq_ofSize (s : Span) : s = ofSize s.start s.size := by
  obtain ⟨start, stop, hle⟩ := s
  have hstop : start + (stop - start) = stop := by omega
  simp only [ofSize, size, hstop]

/-- A slice is what stands behind a text as long as the span's start. -/
theorem slice?_eq_some_iff : s.slice? cs = some t ↔
    ∃ before after, cs = before ++ (t ++ after) ∧ s = ofSize (Text.size before) (Text.size t) := by
  unfold slice?
  dsimp only
  constructor
  · intro h
    split_ifs at h with hsize
    obtain rfl := Option.some.inj h
    refine ⟨Text.takeBytes s.start cs, Text.dropBytes s.size (Text.dropBytes s.start cs), ?_, ?_⟩
    · rw [Text.takeBytes_append_dropBytes, Text.takeBytes_append_dropBytes]
    · rw [hsize.1, hsize.2]
      exact s.eq_ofSize
  · rintro ⟨before, after, rfl, rfl⟩
    have hfront : Text.takeBytes (ofSize (Text.size before) (Text.size t)).start
        (before ++ (t ++ after)) = before := Text.takeBytes_size_append _ _
    have hunder : Text.takeBytes (ofSize (Text.size before) (Text.size t)).size
        (Text.dropBytes (ofSize (Text.size before) (Text.size t)).start
          (before ++ (t ++ after))) = t := by
      have hsize : (ofSize (Text.size before) (Text.size t)).size = Text.size t :=
        Nat.add_sub_cancel_left _ _
      rw [hsize]
      show Text.takeBytes _ (Text.dropBytes (Text.size before) _) = t
      rw [Text.dropBytes_size, Text.takeBytes_size_append]
    rw [hfront, hunder]
    exact if_pos ⟨rfl, (Nat.add_sub_cancel_left _ _).symm⟩

/-- More text behind it leaves a slice as it is. -/
theorem slice?_append (h : s.slice? cs = some t) (ds : List Char) :
    s.slice? (cs ++ ds) = some t := by
  obtain ⟨before, after, rfl, hs⟩ := slice?_eq_some_iff.mp h
  exact slice?_eq_some_iff.mpr ⟨before, after ++ ds, by simp, hs⟩

/-- Slices that stand side by side are one. -/
theorem slice?_adjacent {n : Nat} (ht : (ofSize n (Text.size t)).slice? cs = some t)
    (hu : (ofSize (n + Text.size t) (Text.size u)).slice? cs = some u) :
    (ofSize n (Text.size (t ++ u))).slice? cs = some (t ++ u) := by
  obtain ⟨before, after, hcs, hs⟩ := slice?_eq_some_iff.mp ht
  obtain ⟨before', after', hcs', hs'⟩ := slice?_eq_some_iff.mp hu
  have hn : n = Text.size before := congrArg Span.start hs
  have hn' : n + Text.size t = Text.size before' := congrArg Span.start hs'
  -- a text has one beginning of each size
  have hbefore : before' = before ++ t := by
    have htake := Text.takeBytes_size_append before' (u ++ after')
    rw [← hcs', ← hn', hn, ← Text.size_append, hcs, ← List.append_assoc,
      Text.takeBytes_size_append] at htake
    exact htake.symm
  refine slice?_eq_some_iff.mpr ⟨before, after', ?_, by rw [hn]⟩
  rw [hcs', hbefore, List.append_assoc, List.append_assoc]

end Span

/-! ### Tokens in a text -/

/-- The tokens, the latest first, stand in the text one behind the other, and each character that is
in none of them has the property `gap`. -/
inductive Laid (gap : Char → Prop) : List Char → List Token → Prop
  | nil : Laid gap [] []
  | skip {cs : List Char} {ts : List Token} {c : Char} :
      Laid gap cs ts → gap c → Laid gap (cs ++ [c]) ts
  | token {cs : List Char} {ts : List Token} (kind : TokenKind) (t : List Char) :
      Laid gap cs ts → Laid gap (cs ++ t) (Token.ofChars kind (Text.size cs) t :: ts)

/-- The tokens, the latest first, tile the text: only blanks are left out. -/
abbrev Tiling : List Char → List Token → Prop :=
  Laid fun c => Text.isBlank c = true

namespace Laid

variable {gap : Char → Prop} {cs w : List Char} {ts : List Token}

theorem mono {gap' : Char → Prop} (h : Laid gap cs ts) (hgap : ∀ c, gap c → gap' c) :
    Laid gap' cs ts := by
  induction h with
  | nil => exact .nil
  | skip _ hc ih => exact .skip ih (hgap _ hc)
  | token kind t _ ih => exact .token kind t ih

theorem skip_all (h : Laid gap cs ts) (hw : ∀ c ∈ w, gap c) : Laid gap (cs ++ w) ts := by
  induction w using List.reverseRecOn with
  | nil => rwa [List.append_nil]
  | append_singleton w c ih =>
    obtain ⟨hw, hc⟩ := List.forall_mem_append.mp hw
    rw [← List.append_assoc]
    exact .skip (ih hw) (List.forall_mem_singleton.mp hc)

/-- No token goes beyond the text. -/
theorem stop_le (h : Laid gap cs ts) : ∀ t ∈ ts, t.span.stop ≤ Text.size cs := by
  induction h with
  | nil =>
    intro t ht
    cases ht
  | skip _ _ ih =>
    intro t ht
    have := ih t ht
    rw [Text.size_append]
    omega
  | @token cs _ kind t _ ih =>
    rw [Text.size_append]
    refine List.forall_mem_cons.mpr ⟨Nat.le_refl _, fun u hu => ?_⟩
    have := ih u hu
    omega

/-- The tokens are in the order of the text and have nothing in common. -/
theorem pairwise (h : Laid gap cs ts) :
    ts.Pairwise fun t u => u.span.stop ≤ t.span.start := by
  induction h with
  | nil => exact .nil
  | skip _ _ ih => exact ih
  | token kind t h ih => exact .cons h.stop_le ih

/-- Each token has the text that stands under its span. -/
theorem slice (h : Laid gap cs ts) :
    ∀ t ∈ ts, t.span.slice? cs = some t.text.toList := by
  induction h with
  | nil =>
    intro t ht
    cases ht
  | @skip _ _ c _ _ ih => exact fun t ht => Span.slice?_append (ih t ht) [c]
  | @token cs _ kind t _ ih =>
    refine List.forall_mem_cons.mpr ⟨?_, fun u hu => Span.slice?_append (ih u hu) t⟩
    refine Span.slice?_eq_some_iff.mpr ⟨cs, [], ?_, ?_⟩
    · rw [Token.ofChars, String.toList_ofList, List.append_nil]
    · rw [Token.ofChars, String.toList_ofList]

/-- A character that is in no token has the property. -/
theorem gap_of_not_covers (h : Laid gap cs ts) {pre post : List Char} {c : Char}
    (hcs : cs = pre ++ c :: post) (hno : ∀ t ∈ ts, ¬t.span.Covers (Text.size pre)) : gap c := by
  induction h generalizing post with
  | nil => cases pre <;> cases hcs
  | @skip cs _ d h hd ih =>
    rcases List.eq_nil_or_concat post with rfl | ⟨post, e, rfl⟩
    · obtain ⟨-, hlast⟩ := List.append_inj' hcs rfl
      exact (List.cons.inj hlast).1 ▸ hd
    · rw [List.concat_eq_append, ← List.cons_append, ← List.append_assoc] at hcs
      exact ih (List.append_inj' hcs rfl).1 hno
  | @token cs _ kind t h ih =>
    obtain ⟨hnot, hrest⟩ := List.forall_mem_cons.mp hno
    have hpos := c.utf8Size_pos
    rcases List.append_eq_append_iff.mp hcs with ⟨u, rfl, rfl⟩ | ⟨u, rfl, hu⟩
    · -- the character would be in the last token
      refine absurd ⟨?_, ?_⟩ hnot
      · show Text.size cs ≤ Text.size (cs ++ u)
        rw [Text.size_append]
        omega
      · show Text.size (cs ++ u) < Text.size cs + Text.size (u ++ c :: post)
        simp only [Text.size_append, Text.size_cons]
        omega
    · cases u with
      | nil =>
        refine absurd ⟨?_, ?_⟩ hnot
        · show Text.size (pre ++ []) ≤ Text.size pre
          rw [List.append_nil]
        · show Text.size pre < Text.size (pre ++ []) + Text.size t
          rw [List.nil_append] at hu
          rw [← hu, List.append_nil, Text.size_cons]
          omega
      | cons d u =>
        obtain ⟨rfl, -⟩ := List.cons.inj hu
        exact ih rfl hrest

/-- The earlier tokens stand in a beginning of the text. -/
theorem exists_front {us : List Token} (h : Laid gap cs (us ++ ts)) :
    ∃ front rest, cs = front ++ rest ∧ Laid gap front ts := by
  generalize hx : us ++ ts = xs at h
  induction h generalizing us with
  | nil =>
    obtain ⟨-, rfl⟩ := List.append_eq_nil_iff.mp hx
    exact ⟨[], [], rfl, .nil⟩
  | @skip cs _ c _ _ ih =>
    obtain ⟨front, rest, rfl, hfront⟩ := ih hx
    exact ⟨front, rest ++ [c], List.append_assoc _ _ _, hfront⟩
  | @token cs xs kind t h ih =>
    cases us with
    | nil =>
      obtain rfl : ts = _ := hx
      exact ⟨cs ++ t, [], (List.append_nil _).symm, .token kind t h⟩
    | cons u us =>
      obtain ⟨front, rest, rfl, hfront⟩ := ih (List.cons.inj hx).2
      exact ⟨front, rest ++ t, List.append_assoc _ _ _, hfront⟩

/-- Behind the last token the text has nothing but characters with the property. -/
theorem exists_last {t : Token} (h : Laid gap cs (t :: ts)) : ∃ front u w,
    cs = front ++ (u ++ w) ∧ Laid gap front ts ∧
      t.span = Span.ofSize (Text.size front) (Text.size u) ∧ ∀ c ∈ w, gap c := by
  generalize hx : t :: ts = xs at h
  induction h with
  | nil => cases hx
  | @skip cs _ c _ hc ih =>
    obtain ⟨front, u, w, rfl, hfront, ht, hw⟩ := ih hx
    refine ⟨front, u, w ++ [c], by simp, hfront, ht, ?_⟩
    exact List.forall_mem_append.mpr ⟨hw, List.forall_mem_singleton.mpr hc⟩
  | @token cs _ kind u h =>
    obtain ⟨rfl, rfl⟩ := List.cons.inj hx
    exact ⟨cs, u, [], by rw [List.append_nil], h, rfl, List.forall_mem_nil _⟩

/-- Between two tokens that follow one another there are only characters with the property. -/
theorem slice_between {us : List Token} {t u : Token} (h : Laid gap cs (us ++ u :: t :: ts)) :
    ∃ w, (Span.ofBounds t.span.stop u.span.start).slice? cs = some w ∧ ∀ c ∈ w, gap c := by
  -- what follows `u` is taken away first, then `u` with what stands behind it
  obtain ⟨_, rest, rfl, hfront⟩ := h.exists_front
  obtain ⟨_, y, w', rfl, hlast, hu, -⟩ := hfront.exists_last
  obtain ⟨front, x, w, rfl, -, ht, hw⟩ := hlast.exists_last
  refine ⟨w, Span.slice?_eq_some_iff.mpr ⟨front ++ x, y ++ w' ++ rest, by simp, ?_⟩, hw⟩
  rw [ht, hu]
  simp only [Span.ofBounds, Span.ofSize, Text.size_append, Span.mk.injEq, true_and]
  omega

end Laid

namespace Scanner

/-! ### Texts that are tiled -/

/-- If a token is at hand, it begins at offset `n`. -/
def BeginsAt (n : Nat) : Part → Prop
  | .family start _ => start = n
  | .function start _ => start = n
  | .name start _ => start = n
  | .value v => v.start = n
  | _ => True

/-- The complete tokens tile the text up to where the token at hand begins. -/
def Tiled (cs : List Char) (ts : List Token) (p : Part) : Prop :=
  ∃ covered, cs = covered ++ pending p ∧ Tiling covered ts ∧ BeginsAt (Text.size covered) p

variable {cs : List Char} {ts es : List Token} {p p' : Part} {c : Char}

/-- When the token at hand is complete, the tokens tile all of the text. -/
theorem Tiled.complete (h : Tiled cs ts p) (hp : Completes p es) : Tiling cs (es ++ ts) := by
  obtain ⟨covered, rfl, ht, hstart⟩ := h
  cases hp with
  | family =>
    obtain rfl := hstart
    exact .token _ _ ht
  | function =>
    obtain rfl := hstart
    exact .token _ _ ht
  | name =>
    obtain rfl := hstart
    exact .token _ _ ht
  | @value v =>
    -- the blanks at the end of a value are behind it
    obtain ⟨w, hw, hread⟩ := Text.exists_trimEnd_append v.read.reverse
    obtain hstart : v.start = Text.size covered := hstart
    have htoken := (Laid.token .paramValue v.chars ht).skip_all hw
    rw [← hstart, List.append_assoc, ValueState.chars, ← hread] at htoken
    exact htoken
  | nothing hnil =>
    rw [hnil, List.append_nil]
    exact ht

theorem tiled_of_tiling (h : Tiling cs ts) (hp : pending p = [])
    (hstart : BeginsAt (Text.size cs) p) : Tiled cs ts p :=
  ⟨cs, by rw [hp, List.append_nil], h, hstart⟩

theorem tiled_begin (h : Tiling cs ts) (hp : pending p = [c]) (hstart : BeginsAt (Text.size cs) p) :
    Tiled (cs ++ [c]) ts p :=
  ⟨cs, by rw [hp], h, hstart⟩

theorem Tiled.read (h : Tiled cs ts p) (hp : pending p' = pending p ++ [c])
    (hstart : ∀ n, BeginsAt n p → BeginsAt n p') : Tiled (cs ++ [c]) ts p' := by
  obtain ⟨covered, rfl, ht, hn⟩ := h
  exact ⟨covered, by rw [hp, List.append_assoc], ht, hstart _ hn⟩

/-- A move keeps the text tiled. -/
theorem Tiled.move {extent : Extent} {n : Nat} (h : Tiled cs ts p) (hn : n = Text.size cs)
    (hm : Move extent n p c es p') : Tiled (cs ++ [c]) (es ++ ts) p' := by
  subst hn
  have hnext : Text.size (cs ++ [c]) = Text.size cs + c.utf8Size := by
    simp [Text.size_append, Text.size_cons, Text.size_nil]
  -- a character goes on with the token at hand, begins one, or stands behind it
  cases hm with
  | familyChar => exact h.read (by simp [pending]) fun _ => id
  | functionChar => exact h.read (by simp [pending]) fun _ => id
  | nameChar => exact h.read (by simp [pending]) fun _ => id
  | valueChar =>
    refine h.read ?_ fun n hn => ?_
    · simp [pending, (ValueState.next_cases _ _ _).2.1]
    · exact (ValueState.next_cases _ _ _).1.trans hn
  | entryName => exact tiled_begin (h.complete (.nothing rfl)) rfl rfl
  | valueStart =>
    refine tiled_begin (h.complete (.nothing rfl)) ?_ ?_
    · simp [pending, (ValueState.next_cases _ _ _).2.1, ValueState.initial]
    · exact (ValueState.next_cases _ _ _).1
  | familyEnd =>
    exact tiled_of_tiling (.token .separator ['.'] (h.complete .family)) rfl hnext.symm
  | functionBlank _ hb => exact tiled_of_tiling (.skip (h.complete .function) hb) rfl trivial
  | functionOpen =>
    exact tiled_of_tiling (.token .paramOpen ['{'] (h.complete .function)) rfl trivial
  | gapOpen =>
    exact tiled_of_tiling (.token .paramOpen ['{'] (h.complete (.nothing rfl))) rfl trivial
  | entryClose =>
    exact tiled_of_tiling (.token .paramClose ['}'] (h.complete (.nothing rfl))) rfl trivial
  | nameBlank hb => exact tiled_of_tiling (.skip (h.complete .name) hb) rfl trivial
  | nameSign => exact tiled_of_tiling (.token .paramEquals ['='] (h.complete .name)) rfl trivial
  | equalsSign =>
    exact tiled_of_tiling (.token .paramEquals ['='] (h.complete (.nothing rfl))) rfl trivial
  | valueComma =>
    exact tiled_of_tiling (.token .paramSeparator [','] (h.complete .value)) rfl trivial
  | valueClose => exact tiled_of_tiling (.token .paramClose ['}'] (h.complete .value)) rfl trivial
  | gapBlank hb | entryBlank hb | equalsBlank hb | valueBlank hb | closedBlank hb =>
    exact tiled_of_tiling (.skip (h.complete (.nothing rfl)) hb) rfl trivial

/-- Every state that is reached has tiled its text. -/
theorem Reached.tiled {extent : Extent} {s : Scanner} (h : Reached extent cs s) :
    Tiled cs s.tokens s.part := by
  induction h with
  | start => exact tiled_of_tiling (.token .mark mark.toList .nil) rfl rfl
  | move h hm ih => exact ih.move h.pos_eq hm

/-- The tokens of a whole text that is scanned to its end tile it. -/
theorem tiling_of_ok {n : Nat} (h : (Scan.ofChars .whole cs).outcome = .ok n) :
    Tiling cs (Token.ending n :: (Scan.ofChars .whole cs).tokens.reverse) := by
  obtain ⟨ts, es, p, hs, hp, hscan⟩ := exists_complete_of_ok h
  have hn : n = Text.size cs := hs.pos_eq
  have hend := Laid.token .endOfInput [] (hs.tiled.complete hp)
  rw [List.append_nil, ← hn] at hend
  rw [hscan, List.reverse_reverse]
  exact hend

end Scanner

end Directive
