import Directive.Proofs.Candidates
import Directive.Proofs.Leading
import Directive.Proofs.Viability

/-!
# Directives in free text and directives alone

What the search finds in a text is what the parser makes of the same characters alone, and what the
parser accepts is found wherever it stands, unless what follows it changes its meaning.  `Apart`
says when it does not: a closing brace ends a directive in any case, a function name only if the
next characters neither go on with it nor open a block.

Both directions rest on the scans: that of a candidate is that of the directive it begins with
(`Draft.exists_whole`, `Apart.ofChars_leading`), and the candidates of a text stand one
behind the other (`candidatesFrom_mark`).
-/

namespace Directive

open Grammar
open Scanner (Reached Fits Remains)

/-! ### Drafts of beginnings -/

/-- If the scan of a beginning is that of the beginning alone, so is the draft. -/
theorem Draft.ofChars_leading_eq {src rest : List Char}
    (h : Scan.ofChars .leading (src ++ rest) = Scan.ofChars .whole src) :
    Draft.ofChars .leading (src ++ rest) = Draft.ofChars .whole src := by
  rw [Draft.ofChars_eq, Draft.ofChars_eq, h]
  rcases Scanner.outline_ofChars src with ⟨o, ho, -⟩ | ⟨fault, hfault, -⟩
  · rw [ho]
    simp only [Except.map, Text.takeBytes_size_append, Text.takeBytes_size]
  · rw [hfault]
    rfl

/-- A draft of a beginning is the draft of that beginning alone. -/
theorem Draft.exists_whole {cs : List Char} {d : Draft} (h : Draft.ofChars .leading cs = .ok d) :
    ∃ src rest, cs = src ++ rest ∧ mark.toList <+: src ∧ d.command.source = String.ofList src ∧
      Draft.ofChars .whole src = .ok d := by
  obtain ⟨o, n, ho, rfl⟩ := Draft.ofChars_eq_ok_iff.mp h
  obtain ⟨src, rest, rfl, rfl, hmark, hwhole⟩ :=
    Scanner.exists_whole_of_leading (Scan.outline_eq_ok_iff.mp ho).1
  refine ⟨src, rest, rfl, hmark, congrArg String.ofList (Text.takeBytes_size_append src rest), ?_⟩
  rw [← Draft.ofChars_leading_eq hwhole.symm]
  exact h

/-! ### Directives and what follows them -/

/-- What follows the directive does not change what it says.  Its closing brace is its end, if no
other mark stands in it; without a block, the text behind it may not go on with the name of the
function, not even to a mark, and may not open a block. -/
inductive Apart (d post : List Char) : Prop
  | closed :
      d.getLast? = some '}' → (∀ p, MarkAt d p → p = 0) → Apart d post
  | bare :
      '{' ∉ d → (∀ c, d.getLast? = some c → Text.isBlank c = false) →
        (∀ c, post.head? = some c → Text.isNameChar c = false ∧ c ≠ '/') →
        (post.dropWhile Text.isBlank).head? ≠ some '{' → Apart d post

/-- What begins the blanks and the character behind them begins the text. -/
theorem head?_dropWhile_of_isPrefix {t s : List Char} {c : Char} (h : t <+: s)
    (hc : (t.dropWhile Text.isBlank).head? = some c) :
    (s.dropWhile Text.isBlank).head? = some c := by
  obtain ⟨u, rfl⟩ := h
  have hne : (t.dropWhile Text.isBlank).isEmpty = false := by
    cases hd : t.dropWhile Text.isBlank with
    | nil =>
      rw [hd] at hc
      cases hc
    | cons e es => rfl
  rw [List.dropWhile_append, hne, if_neg Bool.false_ne_true, List.head?_append, hc]
  rfl

/-- It is enough to know how the text goes on. -/
theorem Apart.of_isPrefix {d t post : List Char} (h : Apart d post) (ht : t <+: post) :
    Apart d t := by
  cases h with
  | closed hlast hmarks => exact .closed hlast hmarks
  | bare hopen hlast hname hblock =>
    refine .bare hopen hlast (fun c hc => hname c ?_) fun hc => ?_
    · obtain ⟨u, rfl⟩ := ht
      rw [List.head?_append, hc]
      rfl
    · exact hblock (head?_dropWhile_of_isPrefix ht hc)

namespace Scanner

/-- The scanner gets through a directive, and nothing is left of it then. -/
theorem exists_reached_of_isDirective {r : Reading} {cs : List Char} (h : IsDirective r cs) :
    ∃ s σ, Reached .whole cs s ∧ Fits s.part σ ∧ Remains s.part σ r [] := by
  obtain ⟨rest, rfl, -⟩ := isDirective_iff_remains.mp h
  have hstart : Reached .whole mark.toList start := .start
  rcases hstart.extend rest with ⟨s, hs⟩ | ⟨pre, c, post, s, result, rfl, hs, hstop⟩
  · obtain ⟨σ, hσ, hf⟩ := hs.fits
    refine ⟨s, σ, hs, hf, (isDirective_append_iff hs hσ hf [] r).mp ?_⟩
    rwa [List.append_nil]
  · -- where the scanner stops, no directive goes on
    refine absurd (viable_iff.mpr ⟨post, r, ?_⟩) (hs.not_viable hstop)
    simpa using h

/-- A directive ends with the name of its function, with blanks behind it, or with its block. -/
theorem part_of_remains_nil {p : Part} {σ : Stage} {r : Reading} (hf : Fits p σ)
    (h : Remains p σ r []) : (∃ start read, p = .function start read ∧ read ≠ []) ∨
      (∃ ended, p = .gap ended) ∨ p = .closed := by
  cases hf with
  | family =>
    obtain ⟨f, g, ps⟩ := r
    exact absurd (named_nil.mp h).2.2 not_after_nil
  | @function start read =>
    obtain ⟨f, g, ps⟩ := r
    refine Or.inl ⟨start, read, rfl, ?_⟩
    rintro rfl
    exact not_named_nil h.2
  | gap => exact Or.inr (Or.inl ⟨_, rfl⟩)
  | entryFirst =>
    obtain ⟨ps, -, h⟩ := h
    exact absurd (spaced_nil.mp h) (not_entries_nil ps)
  | entry =>
    obtain ⟨p, ps, -, h⟩ := h
    exact absurd (spaced_nil.mp h) not_named_nil
  | nameFirst =>
    obtain ⟨n, v, ps, -, h⟩ := h
    exact absurd (named_nil.mp h).2.2 not_signed_nil
  | name =>
    obtain ⟨n, v, ps, -, h⟩ := h
    exact absurd (named_nil.mp h).2.2 not_signed_nil
  | equals =>
    obtain ⟨v, ps, -, h⟩ := h
    exact absurd h not_signed_nil
  | beforeValue =>
    obtain ⟨v, ps, -, h⟩ := h
    exact absurd (spaced_nil.mp h) not_valued_nil
  | value =>
    obtain ⟨v, ps, -, h⟩ := h
    exact absurd h (not_inValue_nil (not_tail_nil ps))
  | closed => exact Or.inr (Or.inr rfl)

/-- A directive that does not end with a blank ends with its closing brace or with the name of its
function. -/
theorem exists_reached_of_last {r : Reading} {cs : List Char} {c : Char}
    (h : IsDirective r (cs ++ [c])) (hb : Text.isBlank c = false) :
    (c = '}' ∧ ∃ s, Reached .whole (cs ++ [c]) s ∧ s.part = .closed) ∨
      (Text.isNameChar c = true ∧ ∃ ts n start read,
        Reached .whole (cs ++ [c]) ⟨ts, n, .function start read⟩ ∧ read ≠ []) := by
  obtain ⟨s, σ, hs, hf, hr⟩ := exists_reached_of_isDirective h
  have hparts := part_of_remains_nil hf hr
  have hstart : s.part ≠ Scanner.start.part := by
    intro hp
    rw [hp] at hparts
    rcases hparts with ⟨_, _, h, -⟩ | ⟨_, h⟩ | h <;> cases h
  obtain ⟨ts, n, p, es, p', -, hm, rfl⟩ := hs.exists_last hstart
  -- the last character is the one that the last move took
  rcases hparts with ⟨start, read, rfl, hne⟩ | ⟨ended, rfl⟩ | rfl
  · cases hm with
    | familyEnd => exact absurd rfl hne
    | functionChar hc => exact Or.inr ⟨hc, _, _, _, _, hs, hne⟩
  · cases hm with
    | functionBlank _ hc => rw [hb] at hc; cases hc
    | gapBlank hc => rw [hb] at hc; cases hc
  · cases hm with
    | entryClose => exact Or.inl ⟨rfl, _, hs, rfl⟩
    | valueClose => exact Or.inl ⟨rfl, _, hs, rfl⟩
    | closedBlank hc => rw [hb] at hc; cases hc

end Scanner

/-- A directive without a block consists of names and blanks. -/
theorem Grammar.IsDirective.not_mem_of_bare {r : Reading} {x : List Char} {c : Char}
    (h : IsDirective r (mark.toList ++ x)) (hopen : '{' ∉ mark.toList ++ x) (hdot : c ≠ '.')
    (hname : Text.isNameChar c = false) (hblank : Text.isBlank c = false) : c ∉ x := by
  have hno : ∀ n, IsName n → c ∉ n := by
    intro n hn hc
    rw [hn.2 c hc] at hname
    cases hname
  generalize hcs : mark.toList ++ x = cs at h
  rw [hcs] at hopen
  cases h with
  | @bare f g w hf hg hw =>
    rw [List.append_assoc] at hcs
    rw [List.append_cancel_left hcs]
    simp [hdot, hno f hf, hno g hg, Text.not_mem_of_blanks hw hblank]
  | @block f g w b w' ps hf hg hw hb hw' =>
    have hmem : '{' ∈ b := by
      cases hb <;> exact List.mem_cons_self
    exact absurd (by simp [hmem]) hopen

/-- It ends with a name if it does not end with a blank. -/
theorem Grammar.IsDirective.isNameChar_of_bare {r : Reading} {cs : List Char} {c : Char}
    (h : IsDirective r (cs ++ [c])) (hopen : '{' ∉ cs ++ [c]) (hb : Text.isBlank c = false) :
    Text.isNameChar c = true := by
  rcases Scanner.exists_reached_of_last h hb with ⟨rfl, -⟩ | ⟨hc, -⟩
  · obtain ⟨x, hx, -⟩ := Scanner.isDirective_iff_remains.mp h
    rw [hx] at h hopen
    have hclose : '}' ∉ mark.toList ++ x := by
      rw [List.mem_append, not_or]
      exact ⟨by decide, h.not_mem_of_bare hopen (by decide) rfl rfl⟩
    rw [← hx] at hclose
    exact absurd (List.mem_append_right cs List.mem_cons_self) hclose
  · exact hc

/-- No mark begins in a text that none begins in, nor at its end, where another one follows. -/
theorem Clear.append {x post : List Char} (h : Clear x.length x)
    (hlast : ∀ c, x.getLast? = some c → c ≠ '.' ∧ (c = 'p' → post.head? ≠ some '/')) :
    Clear x.length (x ++ post) := by
  intro i hi
  have hdrop : (x ++ post).drop i = x.drop i ++ post := List.drop_append_of_le_length hi.le
  have hne : x.drop i ≠ [] := by
    rw [Ne, List.drop_eq_nil_iff]
    omega
  have hget : (x.drop i).getLast? = x.getLast? := by
    rw [List.getLast?_drop, if_neg (by omega)]
  rw [hdrop, Option.eq_none_iff_forall_ne_some]
  intro rest hrest
  -- a mark across the border would begin with the last character or the last two
  rcases eq_of_afterMark?_append hne hrest with ⟨u, hu, -⟩ | ⟨hx, -⟩ | ⟨hx, hp⟩
  · rw [h i hi] at hu
    cases hu
  · rw [hx] at hget
    exact (hlast '.' hget.symm).1 rfl
  · rw [hx] at hget
    exact (hlast 'p' hget.symm).2 rfl hp

namespace Apart

variable {r : Reading} {post : List Char}

/-- The scan of a directive does not go on into what is apart from it. -/
theorem ofChars_leading {d : List Char} (h : IsDirective r d) (ha : Apart d post) :
    Scan.ofChars .leading (d ++ post) = Scan.ofChars .whole d := by
  cases ha with
  | closed hlast hmarks =>
    obtain ⟨cs, rfl⟩ := List.getLast?_eq_some_iff.mp hlast
    rcases Scanner.exists_reached_of_last h rfl with ⟨-, s, hs, hp⟩ | ⟨hc, -⟩
    · exact hs.ofChars_leading_of_close hp post
    · cases hc
  | bare hopen hlast hname hblock =>
    rcases List.eq_nil_or_concat d with rfl | ⟨cs, c, rfl⟩
    · obtain ⟨x, hx, -⟩ := Scanner.isDirective_iff_remains.mp h
      cases hx
    · rw [List.concat_eq_append] at *
      have hb := hlast c List.getLast?_concat
      have hc := h.isNameChar_of_bare hopen hb
      rcases Scanner.exists_reached_of_last h hb with ⟨rfl, -⟩ | ⟨-, ts, n, start, read, hs, hr⟩
      · cases hc
      · exact hs.ofChars_leading_of_function hr (fun e he => (hname e he).1) hblock

/-- No mark begins in a directive behind its own, nor between it and what is apart from it. -/
theorem clear {x : List Char} (h : IsDirective r (mark.toList ++ x))
    (ha : Apart (mark.toList ++ x) post) : Clear x.length (x ++ post) := by
  cases ha with
  | closed hlast hmarks =>
    refine Clear.append (fun i hi => ?_) fun c hc => ?_
    · rw [Option.eq_none_iff_forall_ne_some]
      intro rest hrest
      have hmark : mark.toList ++ x = (mark.toList ++ x.take i) ++ (mark.toList ++ rest) := by
        rw [← afterMark?_eq_some_iff.mp hrest, List.append_assoc, List.take_append_drop]
      have hzero := hmarks _ ⟨_, rest, hmark, rfl⟩
      rw [Text.size_append] at hzero
      have hthree : Text.size mark.toList = 3 := by decide
      omega
    · rw [List.getLast?_append, hc] at hlast
      cases hlast
      exact ⟨by decide, fun hp => absurd hp (by decide)⟩
  | bare hopen hlast hname hblock =>
    have hslash : '/' ∉ x := h.not_mem_of_bare hopen (by decide) rfl rfl
    refine Clear.append (fun i hi => ?_) fun c hc => ?_
    · rw [Option.eq_none_iff_forall_ne_some]
      intro rest hrest
      refine hslash (List.mem_of_mem_drop (i := i) ?_)
      rw [afterMark?_eq_some_iff.mp hrest]
      exact List.mem_append_left rest (by decide)
    · obtain ⟨cs, rfl⟩ := List.getLast?_eq_some_iff.mp hc
      rw [← List.append_assoc] at h hopen hlast
      -- the directive ends with the name of its function, and a name has no dot
      have hn := h.isNameChar_of_bare hopen (hlast c List.getLast?_concat)
      refine ⟨?_, fun _ hhead => (hname '/' hhead).2 rfl⟩
      rintro rfl
      cases hn

end Apart

/-! ### Candidates and their places -/

/-- Where no mark begins, no candidate does. -/
theorem candidatesFrom_of_clear {x cs : List Char} (h : Clear x.length (x ++ cs)) (p : Nat) :
    candidatesFrom p (x ++ cs) = candidatesFrom (p + Text.size x) cs := by
  induction x generalizing p with
  | nil => rfl
  | cons c x ih =>
    have hc : afterMark? (c :: (x ++ cs)) = none := (clear_succ.mp h).1
    have hx : Clear x.length (x ++ cs) := (clear_succ.mp h).2
    rw [List.cons_append, candidatesFrom, candidate?, hc, Text.size_cons, ← Nat.add_assoc]
    exact ih hx _

/-- A candidate does not end where no mark begins. -/
theorem untilMark_of_clear {x cs : List Char} (h : Clear x.length (x ++ cs)) :
    untilMark (x ++ cs) = x ++ untilMark cs := by
  induction x with
  | nil => rfl
  | cons c x ih =>
    have hc : afterMark? (c :: (x ++ cs)) = none := (clear_succ.mp h).1
    have hx : Clear x.length (x ++ cs) := (clear_succ.mp h).2
    rw [List.cons_append, untilMark, hc, ih hx]
    rfl

/-- A mark without another one behind it begins a candidate. -/
theorem candidatesFrom_mark {x cs : List Char} (h : Clear x.length (x ++ cs)) (p : Nat) :
    candidatesFrom p (mark.toList ++ x ++ cs) =
      (p, mark.toList ++ x ++ untilMark cs) ::
        candidatesFrom (p + Text.size (mark.toList ++ x)) cs := by
  have hclear : Clear ('p' :: '/' :: x).length ('p' :: '/' :: x ++ cs) :=
    clear_succ.mpr ⟨rfl, clear_succ.mpr ⟨rfl, h⟩⟩
  have hcandidate : candidate? ('.' :: ('p' :: '/' :: x ++ cs)) =
      some (mark.toList ++ x ++ untilMark cs) := by
    show some (mark.toList ++ untilMark (x ++ cs)) = _
    rw [untilMark_of_clear h, List.append_assoc]
  show candidatesFrom p ('.' :: ('p' :: '/' :: x ++ cs)) = _
  rw [candidatesFrom, hcandidate]
  dsimp only
  rw [candidatesFrom_of_clear hclear, Nat.add_assoc, ← Text.size_cons]
  rfl

theorem untilMark_isPrefix (cs : List Char) : untilMark cs <+: cs := by
  induction cs with
  | nil => exact List.prefix_rfl
  | cons c cs ih =>
    unfold untilMark
    split_ifs
    · exact List.nil_prefix
    · exact List.cons_prefix_cons.mpr ⟨rfl, ih⟩

/-- Behind a candidate the text goes on with the next one. -/
theorem exists_of_candidate? {cs x : List Char} (h : candidate? cs = some x) (p : Nat) :
    ∃ rest, cs = x ++ rest ∧
      candidatesFrom p cs = (p, x) :: candidatesFrom (p + Text.size x) rest := by
  obtain ⟨z, hz, rfl⟩ := Option.map_eq_some_iff.mp h
  obtain ⟨rest, hrest⟩ := untilMark_isPrefix z
  have hclear : Clear (untilMark z).length (untilMark z ++ rest) := by
    rw [hrest]
    exact clear_untilMark z
  have hnil : untilMark rest = [] := by
    have huntil := untilMark_of_clear hclear
    rw [hrest] at huntil
    exact List.self_eq_append_right.mp huntil
  have hcs : cs = mark.toList ++ untilMark z ++ rest := by
    rw [afterMark?_eq_some_iff.mp hz, List.append_assoc, hrest]
  refine ⟨rest, hcs, ?_⟩
  rw [hcs, candidatesFrom_mark hclear, hnil, List.append_nil]

/-- A candidate begins at its offset. -/
theorem exists_candidate?_of_mem_candidatesFrom {p n : Nat} {cs x : List Char}
    (h : (n, x) ∈ candidatesFrom p cs) :
    ∃ pre rest, cs = pre ++ rest ∧ n = p + Text.size pre ∧ candidate? rest = some x := by
  induction cs generalizing p with
  | nil => cases h
  | cons c cs ih =>
    have htail : (n, x) ∈ candidatesFrom (p + c.utf8Size) cs → ∃ pre rest,
        c :: cs = pre ++ rest ∧ n = p + Text.size pre ∧ candidate? rest = some x := by
      intro hmem
      obtain ⟨pre, rest, rfl, rfl, hx⟩ := ih hmem
      exact ⟨c :: pre, rest, rfl, by rw [Text.size_cons, Nat.add_assoc], hx⟩
    cases hx : candidate? (c :: cs) with
    | none =>
      rw [candidatesFrom, hx] at h
      exact htail h
    | some y =>
      rw [candidatesFrom, hx] at h
      rcases List.mem_cons.mp h with heq | hmem
      · cases heq
        exact ⟨[], c :: cs, rfl, rfl, hx⟩
      · exact htail hmem

/-- A candidate stands in the text at its offset. -/
theorem exists_append_of_mem_candidatesFrom {p n : Nat} {cs x : List Char}
    (h : (n, x) ∈ candidatesFrom p cs) :
    ∃ pre post, cs = pre ++ (x ++ post) ∧ n = p + Text.size pre := by
  obtain ⟨pre, rest, rfl, hn, hx⟩ := exists_candidate?_of_mem_candidatesFrom h
  obtain ⟨post, rfl, -⟩ := exists_of_candidate? hx n
  exact ⟨pre, post, rfl, hn⟩

theorem le_of_mem_candidatesFrom {p n : Nat} {cs x : List Char}
    (h : (n, x) ∈ candidatesFrom p cs) : p ≤ n := by
  obtain ⟨pre, -, -, hn⟩ := exists_append_of_mem_candidatesFrom h
  exact hn ▸ Nat.le_add_right p (Text.size pre)

/-- Candidates do not overlap. -/
theorem pairwise_candidatesFrom (p : Nat) (cs : List Char) :
    (candidatesFrom p cs).Pairwise fun a b => a.1 + Text.size a.2 ≤ b.1 := by
  induction cs generalizing p with
  | nil => exact List.Pairwise.nil
  | cons c cs ih =>
    have htail := ih (p + c.utf8Size)
    cases hx : candidate? (c :: cs) with
    | none =>
      rw [candidatesFrom, hx]
      exact htail
    | some x =>
      obtain ⟨rest, -, hrest⟩ := exists_of_candidate? hx p
      have hfrom : candidatesFrom p (c :: cs) = (p, x) :: candidatesFrom (p + c.utf8Size) cs := by
        rw [candidatesFrom, hx]
      rw [hfrom, List.cons.injEq] at hrest
      rw [hfrom]
      refine List.pairwise_cons.mpr ⟨?_, htail⟩
      rintro ⟨n, y⟩ hmem
      rw [hrest.2] at hmem
      exact le_of_mem_candidatesFrom hmem

/-! ### Commands and their places -/

namespace Registry

variable {r : Registry}

/-- The commands that are found in a text, with the offsets of their marks. -/
def placed (r : Registry) (text : String) : List (Nat × Command) :=
  (r.trials text.toList).filterMap fun t => (r.leading? t.2).map (t.1, ·)

theorem placed_eq (r : Registry) (text : String) : r.placed text =
    (candidatesFrom 0 text.toList).filterMap fun t => (r.leading? t.2).map (t.1, ·) := by
  rw [placed, trials, r.trialsFrom_eq (clear_zero _)]

/-- The commands with places are those that the search finds. -/
theorem map_snd_placed (r : Registry) (text : String) :
    (r.placed text).map Prod.snd = r.extract text := by
  rw [placed_eq, r.extract_eq text 0, List.map_filterMap]
  congr 1
  funext t
  cases r.leading? t.2 <;> rfl

theorem mem_placed_iff {text : String} {n : Nat} {c : Command} : (n, c) ∈ r.placed text ↔
    ∃ x, (n, x) ∈ candidatesFrom 0 text.toList ∧ r.leading? x = some c := by
  rw [placed_eq, List.mem_filterMap]
  constructor
  · rintro ⟨⟨m, x⟩, hmem, hx⟩
    obtain ⟨c', hc, heq⟩ := Option.map_eq_some_iff.mp hx
    cases heq
    exact ⟨x, hmem, hc⟩
  · rintro ⟨x, hmem, hx⟩
    exact ⟨(n, x), hmem, by rw [hx]; rfl⟩

theorem leading?_eq_some_iff {x : List Char} {c : Command} :
    r.leading? x = some c ↔ ∃ d, r.draft .leading x = .ok d ∧ d.command = c := by
  unfold leading?
  cases r.draft .leading x with
  | error fault => simp [Except.toOption]
  | ok d => simp [Except.toOption]

/-- The command that begins a candidate is what the parser makes of its own text. -/
theorem parse_of_leading? {x : List Char} {c : Command} (h : r.leading? x = some c) :
    ∃ rest, x = c.source.toList ++ rest ∧ mark.toList <+: c.source.toList ∧
      r.parse c.source = .ok c := by
  obtain ⟨d, hd, rfl⟩ := leading?_eq_some_iff.mp h
  obtain ⟨hdraft, hv⟩ := draft_eq_ok_iff.mp hd
  obtain ⟨src, rest, rfl, hmark, hsource, hwhole⟩ := Draft.exists_whole hdraft
  rw [hsource, String.toList_ofList]
  refine ⟨rest, rfl, hmark, parse_eq_ok_iff.mpr ⟨d, draft_eq_ok_iff.mpr ⟨?_, hv⟩, rfl⟩⟩
  rw [String.toList_ofList]
  exact hwhole

/-- A directive that is accepted alone is accepted in front of what is apart from it. -/
theorem leading?_of_parse {d : String} {c : Command} {post : List Char} (h : r.parse d = .ok c)
    (ha : Apart d.toList post) : r.leading? (d.toList ++ post) = some c ∧ c.source = d := by
  obtain ⟨g, hg, rfl⟩ := parseSyntax_eq_ok_iff.mp (parseSyntax_of_parse h)
  obtain ⟨x, hx, hc⟩ := parse_eq_ok_iff.mp h
  obtain ⟨hdraft, hv⟩ := draft_eq_ok_iff.mp hx
  refine ⟨leading?_eq_some_iff.mpr ⟨x, draft_eq_ok_iff.mpr ⟨?_, hv⟩, hc⟩, rfl⟩
  rw [Draft.ofChars_leading_eq (ha.ofChars_leading hg), hdraft]

/-- What is found stands in the text, is what the parser makes of it, and does not overlap. -/
theorem source_of_mem_placed {text : String} {n : Nat} {c : Command} (h : (n, c) ∈ r.placed text) :
    ∃ pre post, text = pre ++ c.source ++ post ∧ Text.size pre.toList = n := by
  obtain ⟨x, hmem, hx⟩ := mem_placed_iff.mp h
  obtain ⟨pre, post, hcs, hn⟩ := exists_append_of_mem_candidatesFrom hmem
  obtain ⟨rest, rfl, -⟩ := parse_of_leading? hx
  refine ⟨String.ofList pre, String.ofList (rest ++ post), ?_, ?_⟩
  · apply String.toList_inj.mp
    simp [hcs]
  · rw [hn, String.toList_ofList, Nat.zero_add]

theorem pairwise_placed (r : Registry) (text : String) :
    (r.placed text).Pairwise fun a b => a.1 + Text.size a.2.source.toList ≤ b.1 := by
  rw [placed_eq]
  refine (pairwise_candidatesFrom 0 text.toList).filterMap _ ?_
  rintro ⟨n, x⟩ ⟨m, y⟩ hle a ha b hb
  obtain ⟨c, hc, rfl⟩ := Option.map_eq_some_iff.mp ha
  obtain ⟨e, -, rfl⟩ := Option.map_eq_some_iff.mp hb
  obtain ⟨rest, rfl, -⟩ := parse_of_leading? hc
  rw [Text.size_append] at hle
  show n + Text.size c.source.toList ≤ m
  omega

/-- A directive that is accepted alone is found in every text where it stands apart. -/
theorem mem_placed_of_parse {d : String} {c : Command} {pre post : String} (h : r.parse d = .ok c)
    (ha : Apart d.toList post.toList) :
    (Text.size pre.toList, c) ∈ r.placed (pre ++ d ++ post) := by
  obtain ⟨g, hg, -⟩ := parseSyntax_eq_ok_iff.mp (parseSyntax_of_parse h)
  obtain ⟨x, hd, -⟩ := Scanner.isDirective_iff_remains.mp hg
  have hmark : mark.toList <+: d.toList ++ post.toList := by
    rw [hd, List.append_assoc]
    exact List.prefix_append _ _
  refine mem_placed_iff.mpr ⟨d.toList ++ untilMark post.toList, ?_, ?_⟩
  · rw [String.toList_append, String.toList_append, List.append_assoc, candidatesFrom_append hmark,
      Nat.zero_add]
    refine List.mem_append_right _ ?_
    rw [hd] at hg ha ⊢
    rw [candidatesFrom_mark (ha.clear hg)]
    exact List.mem_cons_self
  · exact (leading?_of_parse h (ha.of_isPrefix (untilMark_isPrefix post.toList))).1

/-- Directives in free text and directives alone are the same.  What is found stands in the text at
its offset, begins with a mark, does not overlap what is found next to it, and is what the parser
makes of its own text.  What the parser accepts is found, with its text and at its offset, in every
text where it stands apart from what follows it. -/
theorem extract_agrees_with_parse (r : Registry) :
    (∀ text, (r.placed text).map Prod.snd = r.extract text ∧
        ((r.placed text).Pairwise fun a b => a.1 + Text.size a.2.source.toList ≤ b.1) ∧
        ∀ n c, (n, c) ∈ r.placed text →
          (∃ pre post, text = pre ++ c.source ++ post ∧ Text.size pre.toList = n) ∧
            mark.toList <+: c.source.toList ∧ r.parse c.source = .ok c) ∧
      ∀ d c pre post, r.parse d = .ok c → Apart d.toList post.toList →
        c.source = d ∧ (Text.size pre.toList, c) ∈ r.placed (pre ++ d ++ post) := by
  refine ⟨fun text => ⟨map_snd_placed r text, pairwise_placed r text, fun n c h => ?_⟩, ?_⟩
  · obtain ⟨x, -, hx⟩ := mem_placed_iff.mp h
    obtain ⟨rest, -, hmark, hparse⟩ := parse_of_leading? hx
    exact ⟨source_of_mem_placed h, hmark, hparse⟩
  · intro d c pre post h ha
    exact ⟨(leading?_of_parse h ha).2, mem_placed_of_parse h ha⟩

/-- A directive is found in a sentence around it. -/
theorem extract_agrees_with_parse_sentence : ∃ r : Registry, ∃ c, r.parse ".p/a.b" = .ok c ∧
    c.source = ".p/a.b" ∧ (4, c) ∈ r.placed ("see " ++ ".p/a.b" ++ ", or not") := by
  let r : Registry :=
    ⟨.ofList [("a", ⟨⟨"a", ""⟩, .ofList [("b", { family := "a", name := "b" })]⟩)]⟩
  have hparse : r.parse ".p/a.b" = .ok ⟨"a", "b", .empty, ".p/a.b"⟩ := rfl
  have hapart : Apart (".p/a.b" : String).toList (", or not" : String).toList := by
    refine .bare (by decide) (fun c hc => ?_) (fun c hc => ?_) (by decide)
    · obtain rfl : 'b' = c := Option.some.inj hc
      rfl
    · obtain rfl : ',' = c := Option.some.inj hc
      exact ⟨rfl, by decide⟩
  exact ⟨r, _, hparse, (extract_agrees_with_parse r).2 _ _ "see " ", or not" hparse hapart⟩

end Registry

end Directive
