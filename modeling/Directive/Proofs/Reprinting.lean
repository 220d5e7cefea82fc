import Directive.CommandLine.Run
import Directive.Proofs.Marks

/-!
# Extracting from what was extracted

The output for the commands of a text is a text of lines, each with the canonical text of a command.
Every line is found again as one directive: it is read back, as its strings can be quoted, it meets
the same contract, since that does not look at the source, and it stands apart from the line break
behind it, as there is no second mark in it.  So the search finds the same commands in the output,
and the output for them is the same text.
-/

namespace Directive

/-- The command as it is read from its own canonical text. -/
def Command.reprinted (c : Command) : Command :=
  { c with source := c.text }

theorem Command.mark_isPrefix_write (c : Command) : mark.toList <+: c.write := by
  rw [write, List.append_assoc, List.append_assoc]
  exact List.prefix_append _ _

namespace Registry

variable {r : Registry}

/-! ### What is known of commands that were found -/

/-- A candidate is a mark and the text behind it up to the next one. -/
theorem exists_untilMark_of_mem {p n : Nat} {cs x : List Char} (h : (n, x) ∈ candidatesFrom p cs) :
    ∃ rest, x = mark.toList ++ untilMark rest := by
  obtain ⟨_, _, -, -, hx⟩ := exists_candidate?_of_mem_candidatesFrom h
  obtain ⟨rest, -, hrest⟩ := Option.map_eq_some_iff.mp hx
  exact ⟨rest, hrest.symm⟩

/-- A command that was found is what the parser makes of its own text, in which the only mark is the
first. -/
theorem source_of_mem_extract {text : String} {c : Command} (h : c ∈ r.extract text) :
    r.parse c.source = .ok c ∧ ∃ x, c.source.toList = mark.toList ++ x ∧ Unmarked x := by
  rw [r.extract_eq text 0, List.mem_filterMap] at h
  obtain ⟨⟨n, y⟩, hmem, hy⟩ := h
  obtain ⟨rest, rfl⟩ := exists_untilMark_of_mem hmem
  obtain ⟨tail, hsource, ⟨x, hx⟩, hparse⟩ := parse_of_leading? hy
  refine ⟨hparse, x, hx.symm, (unmarked_untilMark rest).of_isInfix ?_⟩
  rw [← hx, List.append_assoc, List.append_cancel_left_eq] at hsource
  rw [hsource]
  exact (List.prefix_append x tail).isInfix

/-- The values of a command that was found are written without a mark. -/
theorem unmarked_of_mem_extract {text : String} {c : Command} (h : c ∈ r.extract text) :
    ∀ e ∈ c.parameters.entries, Unmarked e.2.write := by
  obtain ⟨hparse, x, hx, hunmarked⟩ := source_of_mem_extract h
  obtain ⟨g, hg, hc⟩ := parseSyntax_eq_ok_iff.mp (parseSyntax_of_parse hparse)
  rw [hx] at hg
  intro e he
  rw [hc] at he
  obtain ⟨p, hp, rfl⟩ := List.mem_map.mp (OrderedMap.mem_of_mem_entries_ofList he)
  refine Value.unmarked_coerceWithin ?_
  rw [String.toList_ofList]
  exact hg.unmarked hunmarked p hp

/-! ### Lines -/

/-- A directive that is apart from a text without marks is all that is found in the two. -/
theorem extract_of_parse {d post : String} {c : Command} (h : r.parse d = .ok c)
    (ha : Apart d.toList post.toList) (hpost : Unmarked post.toList) : r.extract (d ++ post) = [c] := by
  obtain ⟨g, hg, -⟩ := parseSyntax_eq_ok_iff.mp (parseSyntax_of_parse h)
  obtain ⟨x, hx, -⟩ := Scanner.isDirective_iff_remains.mp hg
  have hclear : Clear post.toList.length (post.toList ++ []) := by
    rw [List.append_nil]
    exact clear_of_unmarked hpost
  have huntil : untilMark post.toList = post.toList := by
    simpa [untilMark] using untilMark_of_clear hclear
  have hnone : ∀ p, candidatesFrom p post.toList = [] := by
    simpa [candidatesFrom] using candidatesFrom_of_clear hclear
  have hleading := (leading?_of_parse h ha).1
  rw [hx] at hg ha hleading
  rw [r.extract_eq (d ++ post) 0, String.toList_append, hx, candidatesFrom_mark (ha.clear hg), hnone,
    huntil, List.filterMap_cons, hleading]
  rfl

/-- What was found is found again in the line that is printed for it. -/
theorem extract_line {text : String} {c : Command} (h : c ∈ r.extract text)
    (hs : ∀ v ∈ c.parameters.values, ∀ s ∈ v.strings, Value.Quotable s.toList) :
    r.extract (c.text ++ "\n") = [c.reprinted] := by
  obtain ⟨hparse, hv⟩ := parse_eq_ok_iff_parseSyntax.mp (source_of_mem_extract h).1
  obtain ⟨hf, hg, hentries⟩ := Command.isName_and_depth_of_parseSyntax hparse
  have hunmarked := unmarked_of_mem_extract h
  have hback : parseSyntax c.text = .ok c.reprinted := by
    refine Command.parseSyntax_text hf hg fun e he => ?_
    obtain ⟨hname, hdepth⟩ := hentries e he
    have hstrings := hs e.2 (List.mem_map_of_mem he)
    exact ⟨hname, Value.isValue_write hdepth hstrings, Value.coerce_text hdepth hstrings⟩
  have hapart : Apart c.text.toList ("\n" : String).toList := by
    rw [Command.text, String.toList_ofList]
    exact Command.apart_write hf hg fun e he => ⟨(hentries e he).1, hunmarked e he⟩
  exact extract_of_parse (parse_eq_ok_iff_parseSyntax.mpr ⟨hback, hv⟩) hapart (by decide)

open CommandLine (showCommands)

/-- What is found line by line is found in all the lines. -/
theorem extract_showCommands {cs : List Command}
    (h : ∀ c ∈ cs, r.extract (c.text ++ "\n") = [c.reprinted]) :
    r.extract (showCommands false cs) = cs.map Command.reprinted := by
  induction cs with
  | nil => rfl
  | cons c cs ih =>
    obtain ⟨hc, hcs⟩ := List.forall_mem_cons.mp h
    have hlines : ∀ c cs, showCommands false (c :: cs) = (c.text ++ "\n") ++ showCommands false cs :=
      fun _ _ => String.join_cons
    cases cs with
    | nil =>
      have hnil : showCommands false [] = "" := rfl
      rw [hlines, hnil, String.append_empty, hc]
      rfl
    | cons c' cs =>
      -- the next line begins with a mark, so the search goes on from this one to it
      have hmark : mark.toList <+: (showCommands false (c' :: cs)).toList := by
        rw [hlines, String.toList_append, String.toList_append, List.append_assoc, Command.text,
          String.toList_ofList]
        exact c'.mark_isPrefix_write.trans (List.prefix_append _ _)
      rw [hlines, r.extract_append _ _ hmark, hc, ih hcs]
      rfl

theorem mem_extract_of_mem_extractAtMost {limit : Option Nat} {text : String} {c : Command}
    (h : c ∈ r.extractAtMost limit text) : c ∈ r.extract text := by
  cases limit with
  | none => exact h
  | some n => exact List.mem_of_mem_take h

/-- The limit holds nothing back in the output, as it let no more commands into it. -/
theorem extractAtMost_showCommands {limit : Option Nat} {text : String}
    (hs : ∀ c ∈ r.extractAtMost limit text, ∀ v ∈ c.parameters.values, ∀ s ∈ v.strings,
      Value.Quotable s.toList) :
    r.extractAtMost limit (showCommands false (r.extractAtMost limit text)) =
      (r.extractAtMost limit text).map Command.reprinted := by
  have hall := extract_showCommands fun c hc =>
    extract_line (mem_extract_of_mem_extractAtMost hc) (hs c hc)
  cases limit with
  | none => exact hall
  | some n =>
    have hle : ((r.extractAtMost (some n) text).map Command.reprinted).length ≤ n := by
      rw [List.length_map]
      exact List.length_take_le n (r.extract text)
    show (r.extract (showCommands false (r.extractAtMost (some n) text))).take n = _
    rw [hall, List.take_of_length_le hle]

end Registry

/-! ### Output -/

namespace CommandLine

/-- The text that an extraction reads: that of a file, or else the standard input. -/
def textFor (w : Surroundings Id) : Option String → Option String
  | some path => w.contents? path
  | none => w.input?

theorem perform_extract {w : Surroundings Id} {e : Engine} {file : Option String} {text : String}
    (h : textFor w file = some text) (json : Bool) :
    (perform w e (.extract file json)).run = .ok (showCommands json (e.extract text)) := by
  cases file with
  | none =>
    have h : w.input? = pure (some text) := h
    simp only [perform, readInput, h]
    rfl
  | some path =>
    have h : w.contents? path = pure (some text) := h
    simp only [perform, readFile, h]
    rfl

/-- The output for the commands of a text is a fixed point of the extraction.  If every string in
their values can be quoted, the extraction from the output finds as many commands, each with the
family, the function and the parameters that it was printed for, and prints the same text again. -/
theorem extract_output {w : Surroundings Id} {e : Engine} {file : Option String} {text : String}
    (h : textFor w file = some text)
    (hs : ∀ c ∈ e.extract text, ∀ v ∈ c.parameters.values, ∀ s ∈ v.strings,
      Value.Quotable s.toList) :
    ∃ output, (perform w e (.extract file false)).run = .ok output ∧
      output = String.join ((e.extract text).map fun c => c.text ++ "\n") ∧
      List.Forall₂ (fun c d => d.family = c.family ∧ d.function = c.function ∧
        d.parameters = c.parameters) (e.extract text) (e.extract output) ∧
      ∀ (w' : Surroundings Id) (file' : Option String), textFor w' file' = some output →
        (perform w' e (.extract file' false)).run = .ok output := by
  have hagain : e.extract (showCommands false (e.extract text)) =
      (e.extract text).map Command.reprinted := Registry.extractAtMost_showCommands hs
  have hprinted : showCommands false ((e.extract text).map Command.reprinted) =
      showCommands false (e.extract text) := by
    show ofLines (((e.extract text).map Command.reprinted).map Command.text) = _
    rw [List.map_map]
    rfl
  refine ⟨_, perform_extract h false, ?_, ?_, fun w' file' h' => ?_⟩
  · show ofLines ((e.extract text).map Command.text) = _
    rw [ofLines, List.map_map]
    rfl
  · rw [hagain, List.forall₂_map_right_iff, List.forall₂_same]
    exact fun c _ => ⟨rfl, rfl, rfl⟩
  · rw [perform_extract h' false, hagain, hprinted]

/-- A directive in a sentence is printed on a line of its own, and found there. -/
theorem extract_output_sentence : ∃ (w : Surroundings Id) (e : Engine),
    textFor w none = some "see .p/a.b\x7b x='it, so', y= [1 ,nan] \x7d, or not" ∧
      (perform w e (.extract none false)).run =
        .ok ".p/a.b\x7bx=\"it, so\", y=[1, NaN]\x7d\n" ∧
      ∀ w' : Surroundings Id, textFor w' none = some ".p/a.b\x7bx=\"it, so\", y=[1, NaN]\x7d\n" →
        (perform w' e (.extract none false)).run =
          .ok ".p/a.b\x7bx=\"it, so\", y=[1, NaN]\x7d\n" := by
  let contract : Contract :=
    { family := "a", name := "b", parameters := .ofList [("x", ⟨.string, none, none, none, none⟩),
        ("y", ⟨.list, none, none, none, none⟩)] }
  let e : Engine := ⟨{ maxDirectives := some 1 },
    ⟨.ofList [("a", ⟨⟨"a", ""⟩, .ofList [("b", contract)]⟩)]⟩⟩
  let text := "see .p/a.b\x7b x='it, so', y= [1 ,nan] \x7d, or not"
  let w : Surroundings Id := ⟨fun _ => false, fun _ => none, some text, none⟩
  have hs : ∀ c ∈ e.extract text, ∀ v ∈ c.parameters.values, ∀ s ∈ v.strings,
      Value.Quotable s.toList := by decide +kernel
  have hprinted : String.join ((e.extract text).map fun c => c.text ++ "\n") =
      ".p/a.b\x7bx=\"it, so\", y=[1, NaN]\x7d\n" := by decide +kernel
  have htext : textFor w none = some text := rfl
  obtain ⟨output, houtput, rfl, -, hagain⟩ := extract_output htext hs
  rw [hprinted] at houtput hagain
  exact ⟨w, e, htext, houtput, fun w' => hagain w' none⟩

end CommandLine

end Directive
