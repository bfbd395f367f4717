import Mathlib
import ShaderFront.Proofs.Containment
import ShaderFront.Proofs.Lines
import ShaderFront.Proofs.Precedence
import ShaderFront.Proofs.Trace

/-!
# Lines keep their numbers

Each step of a visit puts out as many lines as it goes over (`Preprocess.newlineCount_outOf`), if no macro has a line break in its
body, no directive goes on with the next line and no `#include` puts in a file. So what a step puts out begins on the line where
its stretch begins, and a step that expands no text leaves empty lines (`Preprocess.stands`).

Main statement: `Preprocessor.process_aligned`.
-/

namespace ShaderFront

/-! ## Lines of a text -/

namespace Text

theorem EndsLine.append {a b : List Char} (ha : EndsLine a) (hb : EndsLine b) : EndsLine (a ++ b) := by
  rcases hb with rfl | hb
  · rwa [List.append_nil]
  · exact .inr (by rw [List.getLast?_append, hb, Option.some_or])

theorem EndsLine.tail {c d : Char} {rest : List Char} (h : EndsLine (c :: d :: rest)) : EndsLine (d :: rest) :=
  h.imp nofun fun hlast => by rwa [List.getLast?_cons_cons] at hlast

/-- The lines after an ended line are those of the text after it. -/
theorem lines_append : ∀ {front : List Char}, EndsLine front → ∀ back : List Char, lines (front ++ back) = lines front ++ lines back
  | [], _, _ => rfl
  | [c], h, back => by
    obtain rfl : c = '\n' := by simpa using h.resolve_left nofun
    rfl
  | c :: d :: rest, h, back => by
    have ih := lines_append h.tail back
    rw [List.cons_append, lines, lines, ih]
    split
    · rfl
    · have hne : lines (d :: rest) ≠ [] := fun hnil => by
        have hflat := flatten_lines (d :: rest)
        rw [hnil] at hflat
        cases hflat
      obtain ⟨line, others, hlines⟩ := List.exists_cons_of_ne_nil hne
      rw [hlines]
      rfl

theorem length_lines : ∀ {text : List Char}, EndsLine text → (lines text).length = newlineCount text
  | [], _ => rfl
  | [c], h => by
    obtain rfl : c = '\n' := by simpa using h.resolve_left nofun
    rfl
  | c :: d :: rest, h => by
    have ih := length_lines h.tail
    rw [newlineCount] at ih ⊢
    rw [lines]
    split
    · rename_i hc
      rw [hc, List.count_cons_self, List.length_cons, ih]
    · rename_i hc
      rw [List.count_cons_of_ne hc, ← ih]
      split
      · rename_i hlines
        rw [hlines]
        rfl
      · rename_i hlines
        have hflat := flatten_lines (d :: rest)
        rw [hlines] at hflat
        cases hflat

theorem lines_blank (n : Nat) : lines (List.replicate n '\n') = List.replicate n ['\n'] := by
  induction n with
  | zero => rfl
  | succ n ih => rw [List.replicate_succ, lines, if_pos rfl, ih, List.replicate_succ]

theorem endsLine_blank (n : Nat) : EndsLine (List.replicate n '\n') := by
  cases n with
  | zero => exact .inl rfl
  | succ n => exact .inr (by rw [List.getLast?_replicate, if_neg n.succ_ne_zero])

/-- Line breaks after ended lines are empty lines. -/
theorem getElem?_lines_blank {front : List Char} (hfront : EndsLine front) {n i : Nat} (hi : i < n) (back : List Char) :
    (lines (front ++ List.replicate n '\n' ++ back))[newlineCount front + i]? = some ['\n'] := by
  have hblank := hfront.append (endsLine_blank n)
  rw [lines_append hblank, lines_append hfront, lines_blank, List.append_assoc, ← length_lines hfront,
    List.getElem?_append_right (Nat.le_add_right _ i), Nat.add_sub_cancel_left,
    List.getElem?_append_left (by rwa [List.length_replicate]), List.getElem?_replicate_of_lt hi]

end Text

/-! ## Lines of stretches -/

namespace Directive

open Text (AreLines IsWhole newlineCount)

theorem Tiled.directive_inv {here : List (List Char × Bool)} (h : Tiled [.directive] here) : ∃ line, here = [(line, true)] := by
  cases h with
  | directive hrest =>
    cases hrest
    exact ⟨_, rfl⟩

theorem Tiled.text_inv {text : String} {here : List (List Char × Bool)} (h : Tiled [.text text] here) :
    ∃ run, run ≠ [] ∧ text.toList = run.flatten ∧ here = run.map (·, false) := by
  cases h with
  | text hrun htext hrest =>
    cases hrest
    exact ⟨_, hrun, htext, List.append_nil _⟩

theorem Tiled.ne_nil {stretch : Stretch} {stretches : List Stretch} {all : List (List Char × Bool)}
    (h : Tiled (stretch :: stretches) all) : all ≠ [] := by
  cases h with
  | directive hrest => exact List.cons_ne_nil _ _
  | text hrun htext hrest => simp [hrun]

/-- The first stretch goes over the first lines. -/
theorem Tiled.cons_inv {stretch : Stretch} {stretches : List Stretch} {all : List (List Char × Bool)}
    (h : Tiled (stretch :: stretches) all) : ∃ run rest, all = run ++ rest ∧ Tiled [stretch] run ∧ Tiled stretches rest := by
  cases h with
  | directive hrest => exact ⟨[(_, true)], _, rfl, .directive .nil, hrest⟩
  | text hrun htext hrest => exact ⟨_, _, rfl, by simpa using Tiled.text hrun htext .nil, hrest⟩

theorem Tiled.append_inv : ∀ {front back : List Stretch} {all : List (List Char × Bool)}, Tiled (front ++ back) all →
    ∃ before after, all = before ++ after ∧ Tiled front before ∧ Tiled back after
  | [], _, all, h => ⟨[], all, rfl, .nil, h⟩
  | stretch :: front, back, all, h => by
    cases h with
    | directive hrest =>
      obtain ⟨before, after, rfl, hfront, hback⟩ := Tiled.append_inv hrest
      exact ⟨_, after, rfl, .directive hfront, hback⟩
    | text hrun htext hrest =>
      obtain ⟨before, after, rfl, hfront, hback⟩ := Tiled.append_inv hrest
      exact ⟨_, after, (List.append_assoc ..).symm, .text hrun htext hfront, hback⟩

/-- A directive after a run of text stands behind the run. -/
theorem exists_behind_run : ∀ {run : List (List Char)} {rest before after : List (List Char × Bool)} {line : List Char},
    run.map (·, false) ++ rest = before ++ (line, true) :: after →
    ∃ before', before = run.map (·, false) ++ before' ∧ rest = before' ++ (line, true) :: after
  | [], _, before, _, _, h => ⟨before, rfl, h⟩
  | first :: run, rest, [], after, line, h => by cases h
  | first :: run, rest, other :: before, after, line, h => by
    obtain ⟨rfl, htail⟩ := List.cons_eq_cons.mp h
    obtain ⟨before', hbefore, hrest⟩ := exists_behind_run htail
    exact ⟨before', congrArg _ hbefore, hrest⟩

/-- A line that is a directive is a stretch. -/
theorem Tiled.split {stretches : List Stretch} {all : List (List Char × Bool)} (h : Tiled stretches all) :
    ∀ {before after : List (List Char × Bool)} {line : List Char}, all = before ++ (line, true) :: after →
      ∃ front back, stretches = front ++ .directive :: back ∧ Tiled front before ∧ Tiled back after := by
  induction h with
  | nil => simp
  | directive hrest ih =>
    rintro (_ | ⟨first, before⟩) after line' heq
    · obtain ⟨-, rfl⟩ := List.cons_eq_cons.mp heq
      exact ⟨[], _, rfl, .nil, hrest⟩
    · obtain ⟨rfl, hall⟩ := List.cons_eq_cons.mp heq
      obtain ⟨front, back, rfl, hfront, hback⟩ := ih hall
      exact ⟨_, back, rfl, .directive hfront, hback⟩
  | text hrun htext hrest ih =>
    intro before after line' heq
    obtain ⟨before', rfl, hall⟩ := exists_behind_run heq
    obtain ⟨front, back, rfl, hfront, hback⟩ := ih hall
    exact ⟨_, back, rfl, .text hrun htext hfront, hback⟩

/-- A directive that no line break ends. -/
def isUnended (line : List Char × Bool) : Bool := line.2 && '\n' ∉ line.1

/-- The last line of a source is a directive that no line break ends. -/
def endsInDirective (source : String) : Bool := (sourceLines source).getLast?.any isUnended

theorem newlineCount_of_isWhole {line : List Char} (h : IsWhole line) : newlineCount line = 1 := by
  obtain ⟨body, rfl, hbody⟩ := h
  rw [newlineCount, List.count_append, List.count_eq_zero.mpr hbody]
  rfl

/-- Only the last line of a source may be a directive that no line break ends. -/
theorem countP_isUnended (source : String) : (sourceLines source).countP isUnended = if endsInDirective source then 1 else 0 := by
  have hlines : AreLines ((sourceLines source).map Prod.fst) := by
    rw [sourceLines, map_fst_marked]
    exact Text.areLines_lines _
  rw [endsInDirective]
  rcases (sourceLines source).eq_nil_or_concat with hnil | ⟨front, last, hlast⟩
  · rw [hnil]
    rfl
  · rw [hlast, List.concat_eq_append, List.map_append] at hlines
    have hfront : front.countP isUnended = 0 := by
      refine List.countP_eq_zero.mpr fun line hline => ?_
      obtain ⟨body, hbody, -⟩ := hlines.front (by simp) line.1 (List.mem_map_of_mem hline)
      simp [isUnended, hbody]
    rw [hlast, List.concat_eq_append, List.countP_append, hfront, List.getLast?_concat, Nat.zero_add, List.countP_singleton]
    rfl

end Directive

/-! ## Steps -/

namespace Preprocess

open Directive (Tiled isUnended)
open Text (AreLines IsWhole EndsLine newlineCount)

variable (options : Options) {includer : Includer}

theorem newlineCount_append (a b : List Char) : newlineCount (a ++ b) = newlineCount a + newlineCount b := List.count_append

/-- A step puts out as many line breaks as it goes over, and one after a directive that no line break ends. -/
theorem newlineCount_out {step : Step} (hflat : step.Flat) (hfails : step.Fails includer) {here : List (List Char × Bool)}
    (hhere : Tiled [step.stretch] here) (hlines : ∀ line ∈ here, IsWhole line.1 ∨ '\n' ∉ line.1) :
    newlineCount (step.out options includer) = newlineCount (here.map Prod.fst).flatten + here.countP isUnended := by
  have hdirective : ∀ {here}, Tiled [.directive] here → (∀ line ∈ here, IsWhole line.1 ∨ '\n' ∉ line.1) →
      newlineCount ['\n'] = newlineCount (here.map Prod.fst).flatten + here.countP isUnended := by
    intro here hhere hlines
    obtain ⟨line, rfl⟩ := hhere.directive_inv
    rcases hlines _ List.mem_cons_self with hline | hline
    · have hmem : '\n' ∈ line := by
        obtain ⟨body, rfl, -⟩ := hline
        simp
      have hcount := Directive.newlineCount_of_isWhole hline
      rw [newlineCount] at hcount
      simp [isUnended, hmem, newlineCount, hcount]
    · simp [isUnended, hline, newlineCount, List.count_eq_zero.mpr hline]
  have htext : ∀ {text : String} {here}, Tiled [.text text] here →
      newlineCount text.toList = newlineCount (here.map Prod.fst).flatten + here.countP isUnended := by
    intro text here hhere
    obtain ⟨run, -, hrun, rfl⟩ := hhere.text_inv
    rw [hrun]
    simp [isUnended, Function.comp_def]
  cases step with
  | directive => exact hdirective hhere hlines
  | included path s =>
    rw [Step.out, hfails.1]
    exact hdirective hhere hlines
  | skipped text =>
    rw [Step.out, ← htext hhere]
    simp [newlineCount]
  | expanded text macros =>
    rw [Step.out, Macro.newlineCount_expand hflat]
    exact htext hhere

/-- What a step puts out ends its last line, if the lines it goes over are ended. -/
theorem endsLine_out {step : Step} (hfails : step.Fails includer) {here : List (List Char × Bool)}
    (hhere : Tiled [step.stretch] here) (hlines : ∀ line ∈ here, IsWhole line.1) : EndsLine (step.out options includer) := by
  cases step with
  | directive => exact .inr rfl
  | included path s => exact .inr (by rw [Step.out, hfails.1]; rfl)
  | skipped text => exact Text.endsLine_blank _
  | expanded text macros =>
    obtain ⟨run, hrun, htext, rfl⟩ := hhere.text_inv
    obtain ⟨front, line, rfl⟩ := (List.eq_nil_or_concat run).resolve_left hrun
    obtain ⟨body, rfl, -⟩ := hlines (line, false) (by simp)
    refine .inr (Macro.getLast?_expand macros _ ?_)
    rw [htext]
    simp

/-- Steps put out as many line breaks as they go over, and one after a directive that no line break ends. -/
theorem newlineCount_outOf : ∀ {steps : List Step} {all : List (List Char × Bool)}, (∀ step ∈ steps, step.Flat) →
    (∀ step ∈ steps, step.Fails includer) → Tiled (steps.map Step.stretch) all → (∀ line ∈ all, IsWhole line.1 ∨ '\n' ∉ line.1) →
    newlineCount (outOf options includer steps) = newlineCount (all.map Prod.fst).flatten + all.countP isUnended
  | [], _, _, _, h, _ => by
    cases h
    rfl
  | step :: steps, _, hflat, hfails, h, hlines => by
    obtain ⟨here, rest, rfl, hhere, hrest⟩ := h.cons_inv
    obtain ⟨hlinesHere, hlinesRest⟩ := List.forall_mem_append.mp hlines
    obtain ⟨hflatStep, hflat⟩ := List.forall_mem_cons.mp hflat
    obtain ⟨hfailsStep, hfails⟩ := List.forall_mem_cons.mp hfails
    rw [outOf_cons, newlineCount_append, newlineCount_out options hflatStep hfailsStep hhere hlinesHere,
      newlineCount_outOf hflat hfails hrest hlinesRest, List.map_append, List.flatten_append, newlineCount_append,
      List.countP_append]
    omega

theorem endsLine_outOf : ∀ {steps : List Step} {all : List (List Char × Bool)}, (∀ step ∈ steps, step.Fails includer) →
    Tiled (steps.map Step.stretch) all → (∀ line ∈ all, IsWhole line.1) → EndsLine (outOf options includer steps)
  | [], _, _, _, _ => .inl rfl
  | step :: steps, _, hfails, h, hlines => by
    obtain ⟨here, rest, rfl, hhere, hrest⟩ := h.cons_inv
    obtain ⟨hlinesHere, hlinesRest⟩ := List.forall_mem_append.mp hlines
    obtain ⟨hfailsStep, hfails⟩ := List.forall_mem_cons.mp hfails
    rw [outOf_cons]
    exact (endsLine_out options hfailsStep hhere hlinesHere).append (endsLine_outOf hfails hrest hlinesRest)

/-- Ended lines have as many line breaks as there are lines. -/
theorem newlineCount_lines {all : List (List Char × Bool)} (hlines : ∀ line ∈ all, IsWhole line.1) :
    newlineCount (all.map Prod.fst).flatten + all.countP isUnended = all.length := by
  induction all with
  | nil => rfl
  | cons line rest ih =>
    obtain ⟨hline, hrest⟩ := List.forall_mem_cons.mp hlines
    have hended : isUnended line = false := by
      obtain ⟨body, hbody, -⟩ := hline
      simp [isUnended, hbody]
    rw [List.map_cons, List.flatten_cons, newlineCount_append, Directive.newlineCount_of_isWhole hline,
      List.countP_cons_of_neg (by simp [hended]), List.length_cons, ← ih hrest]
    omega

/-- A step that expands no text puts out empty lines. -/
theorem out_eq_blank {step : Step} (hfails : step.Fails includer) (hblank : step.isBlank = true)
    {here : List (List Char × Bool)} (hhere : Tiled [step.stretch] here)
    (hlines : step.isSkip = true → ∀ line ∈ here, IsWhole line.1) :
    step.out options includer = List.replicate here.length '\n' := by
  cases step with
  | directive =>
    obtain ⟨line, rfl⟩ := hhere.directive_inv
    rfl
  | included path s =>
    obtain ⟨line, rfl⟩ := hhere.directive_inv
    rw [Step.out, hfails.1]
    rfl
  | skipped text =>
    obtain ⟨run, -, htext, rfl⟩ := hhere.text_inv
    have hcount := newlineCount_lines (hlines rfl)
    rw [Step.out, htext, ← hcount]
    simp [isUnended, Function.comp_def]
  | expanded text macros => cases hblank

section Position

variable {front back : List Step} {step : Step} {before here after : List (List Char × Bool)}

/-- **The output of a step begins on the line where its stretch begins**, and a step that expands no text leaves empty lines. -/
theorem stands (hflat : ∀ step ∈ front, step.Flat) (hfails : ∀ step' ∈ front ++ step :: back, step'.Fails includer)
    (hends : EndsOpen (front ++ step :: back)) (hfront : Tiled (front.map Step.stretch) before)
    (hhere : Tiled [step.stretch] here) (hback : Tiled (back.map Step.stretch) after)
    (hlines : AreLines ((before ++ here ++ after).map Prod.fst)) :
    newlineCount (outOf options includer front) = before.length ∧ EndsLine (outOf options includer front) ∧
      (step.isBlank = true → ∀ i < here.length,
        (Text.lines (outOf options includer (front ++ step :: back)))[before.length + i]? = some ['\n']) := by
  obtain ⟨hfailsFront, hfailsStep, -⟩ : (∀ step ∈ front, step.Fails includer) ∧ step.Fails includer ∧ _ := by
    simpa [or_imp, forall_and] using hfails
  have hwhole : ∀ line ∈ before, IsWhole line.1 := by
    rw [List.append_assoc, List.map_append] at hlines
    exact List.forall_mem_map.mp (hlines.front (by simp [hhere.ne_nil]))
  have hskip : step.isSkip = true → ∀ line ∈ here, IsWhole line.1 := by
    intro hskip
    rw [List.map_append] at hlines
    have hafter : after ≠ [] := by
      rintro rfl
      obtain rfl : back = [] := by
        cases back with
        | nil => rfl
        | cons next back => exact absurd rfl hback.ne_nil
      obtain ⟨init, last, heq, hlast⟩ := hends
      obtain ⟨-, hstep⟩ := List.append_inj' heq rfl
      cases hstep
      rw [hskip] at hlast
      cases hlast
    have hfirst := hlines.front (by simpa using hafter)
    exact fun line hline => hfirst _ (List.mem_map_of_mem (List.mem_append_right before hline))
  have hcount := newlineCount_outOf options hflat hfailsFront hfront fun line hline => .inl (hwhole line hline)
  rw [newlineCount_lines hwhole] at hcount
  have hended := endsLine_outOf options hfailsFront hfront hwhole
  refine ⟨hcount, hended, fun hblank i hi => ?_⟩
  rw [outOf_append, outOf_cons, out_eq_blank options hfailsStep hblank hhere hskip, ← List.append_assoc, ← hcount]
  exact Text.getElem?_lines_blank hended hi _

end Position

/-- **Steps stand on the lines they go over.** -/
theorem aligned {steps : List Step} {all : List (List Char × Bool)} (hflat : ∀ step ∈ steps, step.Flat)
    (hfails : ∀ step ∈ steps, step.Fails includer) (hends : steps ≠ [] → EndsOpen steps) (htiled : Tiled (steps.map Step.stretch) all)
    (hlines : AreLines (all.map Prod.fst)) :
    (∀ (i : Nat) line, all[i]? = some (line, true) → (Text.lines (outOf options includer steps))[i]? = some ['\n']) ∧
      ∀ front step back, steps = front ++ step :: back → ∃ before here after, all = before ++ here ++ after ∧
        Tiled (front.map Step.stretch) before ∧ Tiled [step.stretch] here ∧ Tiled (back.map Step.stretch) after ∧
        newlineCount (outOf options includer front) = before.length ∧ EndsLine (outOf options includer front) ∧
        (step.isBlank = true → ∀ i < here.length,
          (Text.lines (outOf options includer steps))[before.length + i]? = some ['\n']) := by
  constructor
  · intro i line hline
    obtain ⟨hi, hget⟩ := List.getElem?_eq_some_iff.mp hline
    have hall : all = all.take i ++ (line, true) :: all.drop (i + 1) := by
      rw [← hget, ← List.drop_eq_getElem_cons hi, List.take_append_drop]
    obtain ⟨front', back', hstretches, hfront, hback⟩ := htiled.split hall
    obtain ⟨front, rest, rfl, rfl, hrest⟩ := List.map_eq_append_iff.mp hstretches
    obtain ⟨step, back, rfl, hstep, rfl⟩ := List.map_eq_cons_iff.mp hrest
    have hhere : Tiled [step.stretch] [(line, true)] := hstep ▸ .directive .nil
    have hblank : step.isBlank = true := by cases step <;> first | rfl | cases hstep
    rw [hall, ← List.singleton_append, ← List.append_assoc] at hlines
    obtain ⟨-, -, hempty⟩ := stands options (fun step hstep => hflat step (List.mem_append_left _ hstep)) hfails
      (hends (by simp)) hfront hhere hback hlines
    have hfirst := hempty hblank 0 Nat.one_pos
    rwa [List.length_take_of_le hi.le, Nat.add_zero] at hfirst
  · rintro front step back rfl
    rw [List.map_append, List.map_cons] at htiled
    obtain ⟨before, rest, rfl, hfront, hrest⟩ := htiled.append_inv
    obtain ⟨here, after, rfl, hhere, hback⟩ := hrest.cons_inv
    rw [← List.append_assoc] at hlines
    exact ⟨before, here, after, (List.append_assoc ..).symm, hfront, hhere, hback, stands options
      (fun step hstep => hflat step (List.mem_append_left _ hstep)) hfails (hends (by simp)) hfront hhere hback hlines⟩

end Preprocess

/-! ## Sources -/

namespace Preprocessor

open Directive (Tiled sourceLines endsInDirective TokenKind Condition Particle)
open Preprocess
open Text (AreLines EndsLine newlineCount)

variable {p : Preprocessor} {source out : String}

/-- The steps of the processing of what a source reads as. -/
def stepsOf (p : Preprocessor) : Except LanguageError (List Directive.Particle) → List Step
  | .error _ => []
  | .ok particles =>
    traceAll p.options (includeFile p.options p.options.maxIncludeDepth) particles (.initial p.options p.state.library)

/-- The steps of the processing of a source. -/
def steps (p : Preprocessor) (source : String) : List Step := p.stepsOf (Directive.parse source)

/-- The output of some steps of the processing of a source. -/
abbrev outOf (p : Preprocessor) (steps : List Step) : List Char :=
  Preprocess.outOf p.options (includeFile p.options p.options.maxIncludeDepth) steps

/-- Without a header, a source that is read is visited. -/
theorem process_of_parse (hheader : p.header = "") {particles : List Particle} (hparse : Directive.parse source = .ok particles) :
    (p.process source).1 = .ok (visitAll p.options (includeFile p.options p.options.maxIncludeDepth) particles
      (.initial p.options p.state.library)).1 := by
  have hempty : processHeader p.options p.header (.initial p.options p.state.library) = (.ok "", .initial p.options p.state.library) :=
    if_pos (by rw [hheader]; rfl)
  rw [process, hempty, processAfter, processSource, hparse]
  simp [processParticles, Except.map]

theorem process_eq_ok (hheader : p.header = "") (hout : (p.process source).1 = .ok out) :
    ∃ particles, Directive.parse source = .ok particles ∧ (visitAll p.options (includeFile p.options p.options.maxIncludeDepth) particles
      (.initial p.options p.state.library)).1 = out := by
  rcases p.process_cases source with ⟨-, ⟨particles, hparse⟩, -⟩ | ⟨d, hne, -⟩ | ⟨d, -, hd⟩
  · rw [process_of_parse hheader hparse] at hout
    exact ⟨particles, hparse, Except.ok.inj hout⟩
  · exact absurd hheader hne
  · cases hout.symm.trans hd

/-- **Lines keep their numbers**, if the header is empty, no predefined macro has a line break in its value, no directive goes on
with the next line and all includes that are carried out fail. The output has the line breaks of the source, and one more after
a directive at its end that none ends. The lines of directives are empty. The output of each step begins on the line where its
stretch begins, and the lines that are skipped are empty too. -/
theorem process_aligned (hheader : p.header = "") (hpredefined : ∀ entry ∈ p.options.predefined, '\n' ∉ entry.2.toList)
    (hapart : Directive.Apart (sourceLines source))
    (hfails : ∀ path s, .included path s ∈ p.steps source → ∃ message, IncludeFails p.options s path p.options.maxIncludeDepth message)
    (hout : (p.process source).1 = .ok out) :
    newlineCount out.toList = newlineCount source.toList + (if endsInDirective source then 1 else 0) ∧
      (∀ (i : Nat) line, (sourceLines source)[i]? = some (line, true) → (Text.lines out.toList)[i]? = some ['\n']) ∧
      out.toList = p.outOf (p.steps source) ∧ Tiled ((p.steps source).map Step.stretch) (sourceLines source) ∧
      ∀ front step back, p.steps source = front ++ step :: back → ∃ before here after,
        sourceLines source = before ++ here ++ after ∧ Tiled (front.map Step.stretch) before ∧ Tiled [step.stretch] here ∧
        Tiled (back.map Step.stretch) after ∧ newlineCount (p.outOf front) = before.length ∧ EndsLine (p.outOf front) ∧
        (step.isBlank = true → ∀ i < here.length, (Text.lines out.toList)[before.length + i]? = some ['\n']) := by
  obtain ⟨particles, hparse, rfl⟩ := process_eq_ok hheader hout
  obtain ⟨htiled, hbodies⟩ := Directive.parse_tiled hparse hapart
  have hlines : AreLines ((sourceLines source).map Prod.fst) := by
    rw [sourceLines, Directive.map_fst_marked]
    exact Text.areLines_lines _
  have hsteps : p.steps source =
      traceAll p.options (includeFile p.options p.options.maxIncludeDepth) particles (.initial p.options p.state.library) := by
    rw [steps, hparse, stepsOf]
  have hstepsFail : ∀ step ∈ p.steps source, step.Fails (includeFile p.options p.options.maxIncludeDepth) := by
    intro step hstep
    cases step with
    | «included» path s =>
      obtain ⟨message, hmessage⟩ := hfails path s hstep
      obtain ⟨hline, library, hafter⟩ := hmessage.emptyLine
      exact ⟨hline, by rw [hafter]; rfl⟩
    | _ => trivial
  rw [out_traceAll]
  rw [hsteps] at hstepsFail ⊢
  rw [← stretches_traceAll particles (.initial p.options p.state.library)] at htiled
  have hinitial : (State.initial p.options p.state.library).macros.Flat := MacroTable.flat_predefined.defineAll hpredefined
  obtain ⟨hflat, -⟩ := flat_traceAll particles _ hinitial hbodies hstepsFail
  obtain ⟨hdirectives, hpositions⟩ := aligned p.options hflat hstepsFail endsOpen_traceAll htiled hlines
  refine ⟨?_, hdirectives, rfl, htiled, hpositions⟩
  have hcount := newlineCount_outOf p.options hflat hstepsFail htiled fun line hline => hlines.of_mem (List.mem_map_of_mem hline)
  rwa [Directive.countP_isUnended, sourceLines, Directive.map_fst_marked, Text.flatten_lines] at hcount

/-- A source with a branch that is not taken and an `#include` of a file that is not there. -/
def guardedSource : String := "#ifdef A\nx\n#endif\n#include \"f\"\ny\n"

/-- A token of a kind, as that kind. -/
def word (kind : TokenKind) (text : String) (start stop : Nat) : TokenKind × Token := (kind, ⟨kind.id, text, ⟨start, stop⟩⟩)

/-- The particles of the source. -/
def guardedParticles : List Particle :=
  [.conditional [⟨ Condition.ifdef "A", [.text "x\n"]⟩] none, .include "f" ⟨27, 30⟩, .text "y\n"]

open Directive in
/-- The source is read as its particles. -/
theorem parse_guardedSource : Directive.parse guardedSource = .ok guardedParticles := by
  let opens := [word TokenKind.ifdef "#ifdef" 0 6, word .identifier "A" 7 8, word .newline "\n" 8 9]
  let body := [word .text "x\n" 9 11]
  let closes := [word .endif "#endif" 11 17, word .newline "\n" 17 18]
  let file := [word .include_ "#include" 18 26, word .string "\"f\"" 27 30, word .newline "\n" 30 31]
  let last := [word .text "y\n" 31 33]
  have htokens : (opens ++ body ++ closes ++ file ++ last).map Prod.snd = tokens guardedSource := by decide +kernel
  have hown : ∀ r ∈ opens ++ body ++ closes ++ file ++ last, alphabet.IsOwn r := by
    simp [opens, body, closes, file, last, word, Alphabet.IsOwn, alphabet]
  have hreads : ∀ number, ReadsAs number alphabet.root (opens ++ body ++ closes ++ file ++ last) (.file guardedParticles) := by
    intro number
    have htoken : ∀ (kind : TokenKind) (text : String) (start stop : Nat), alphabet.Admits kind (word kind text start stop).2 :=
      fun _ _ _ _ => .inl rfl
    have hnil : ReadsAs number .particleList [] (.particles []) := reads_rule 3 (by rfl) (by rfl) .nil rfl
    have hcons : ∀ {front back particles particle}, ReadsAs number .particleList front (.particles particles) →
        ReadsAs number .particle back (.particle particle) →
        ReadsAs number .particleList (front ++ back) (.particles (particles ++ [particle])) := fun hfront hback =>
      reads_rule 4 (by rfl) (by rfl) (Alphabet.readsBody_node hfront (Alphabet.readsBody_last hback)) rfl
    have htext : ∀ text start stop, ReadsAs number .particle [word .text text start stop] (.particle (.text text)) :=
      fun _ _ _ => reads_rule 5 (by rfl) (by rfl) (Alphabet.readsBody_token rfl .nil) rfl
    have hopens : ReadsAs number .ifdefDirective opens (.condition ( Condition.ifdef "A")) := reads_rule 53 (by rfl) (by rfl)
      (Alphabet.readsBody_token rfl (Alphabet.readsBody_token rfl (Alphabet.readsBody_token rfl .nil))) rfl
    have hcloses : ReadsAs number .endifDirective closes .marker := reads_rule 57 (by rfl) (by rfl)
      (Alphabet.readsBody_token rfl (Alphabet.readsBody_token rfl .nil)) rfl
    have hfile : ReadsAs number .includeDirective file (.particle (.include "f" ⟨27, 30⟩)) :=
      reads_rule 31 (by rfl) (by rfl)
        (Alphabet.readsBody_token rfl (Alphabet.readsBody_token rfl (Alphabet.readsBody_token rfl .nil))) (by rfl)
    have hbranch : ReadsAs number .ifPart (opens ++ body) (.branch ⟨ Condition.ifdef "A", [.text "x\n"]⟩) :=
      reads_rule 44 (by rfl) (by rfl) (Alphabet.readsBody_node hopens (Alphabet.readsBody_last (hcons hnil (htext _ _ _)))) rfl
    have hconditional : ReadsAs number .conditionalDirective (opens ++ body ++ closes)
        (.particle (.conditional [⟨ Condition.ifdef "A", [.text "x\n"]⟩] none)) :=
      reads_rule 41 (by rfl) (by rfl) (Alphabet.readsBody_node hbranch (Alphabet.readsBody_last hcloses)) rfl
    have hfirst : ReadsAs number .particle _ _ := reads_rule 6 (by rfl) (by rfl) (Alphabet.readsBody_last
      (reads_rule 16 (by rfl) (by rfl) (Alphabet.readsBody_last hconditional) rfl)) rfl
    have hsecond : ReadsAs number .particle _ _ := reads_rule 6 (by rfl) (by rfl) (Alphabet.readsBody_last
      (reads_rule 11 (by rfl) (by rfl) (Alphabet.readsBody_last hfile) rfl)) rfl
    have hlist := hcons (hcons (hcons hnil hfirst) hsecond) (htext "y\n" 31 33)
    exact reads_rule 1 (by rfl) (by rfl) (Alphabet.readsBody_last hlist) rfl
  have hparse := alphabet_covers.parse_reads tameness hown hreads
  rw [htokens] at hparse
  exact congrArg particlesOf hparse

/-- Without files, the source gives five lines, of which only the last one is not empty. -/
theorem process_aligned_guarded :
    let p := ofLibrary .none
    Directive.Apart (sourceLines guardedSource) ∧ (∃ path s, .included path s ∈ p.steps guardedSource) ∧
      ∃ out, (p.process guardedSource).1 = .ok out ∧ newlineCount out.toList = 5 ∧
        ∀ i < 4, (Text.lines out.toList)[i]? = some ['\n'] := by
  intro p
  have hapart : Directive.Apart (sourceLines guardedSource) := by
    rw [Directive.Apart]
    decide +kernel
  obtain ⟨s, macros, hlibrary, hsteps⟩ : ∃ s macros, s.library = .none ∧ p.steps guardedSource =
      [.directive, .skipped "x\n", .directive, .included "f" s, .expanded "y\n" macros] := by
    have hdefined : (State.initial p.options p.state.library).macros.isDefined "A" = false := by decide +kernel
    rw [steps, parse_guardedSource, stepsOf, guardedParticles]
    simp only [traceAll, trace, traceBranches, State.decide, hdefined, if_neg Bool.false_ne_true, Directive.stretchesAll,
      Directive.Particle.stretches, List.append_nil, List.map_cons, List.map_nil, skip, List.cons_append, List.nil_append]
    refine ⟨_, _, ?_, rfl⟩
    simp only [visit, visitBranches, State.decide, hdefined, if_neg Bool.false_ne_true]
    rfl
  have hfails : ∀ path s, .included path s ∈ p.steps guardedSource →
      ∃ message, IncludeFails p.options s path p.options.maxIncludeDepth message := by
    intro path s' hmem
    obtain ⟨rfl, rfl⟩ : path = "f" ∧ s' = s := by simpa [hsteps] using hmem
    have hresolve : (s'.library.resolve ⟨["f"]⟩).1 = .error (.fileNotFound "f (no include directory)") := by
      rw [hlibrary]
      rfl
    exact ⟨_, .unresolved (by decide) hresolve⟩
  obtain ⟨out, hout⟩ : ∃ out, (p.process guardedSource).1 = .ok out := ⟨_, process_of_parse rfl parse_guardedSource⟩
  obtain ⟨hcount, hdirectives, -, -, hpositions⟩ := process_aligned (p := p) rfl (List.forall_mem_nil _) hapart hfails hout
  refine ⟨hapart, ⟨"f", s, by simp [hsteps]⟩, out, hout, hcount.trans (by decide +kernel), fun i hi => ?_⟩
  interval_cases i
  · exact hdirectives 0 "#ifdef A\n".toList (by decide +kernel)
  · obtain ⟨before, here, after, -, -, hhere, -, hbefore, -, hempty⟩ := hpositions [.directive] (.skipped "x\n") _ hsteps
    have hlength : before.length = 1 := by simpa [Preprocess.outOf, Step.out, newlineCount] using hbefore.symm
    simpa only [hlength] using hempty rfl 0 (List.length_pos_of_ne_nil hhere.ne_nil)
  · exact hdirectives 2 "#endif\n".toList (by decide +kernel)
  · exact hdirectives 3 "#include \"f\"\n".toList (by decide +kernel)

end Preprocessor

end ShaderFront
