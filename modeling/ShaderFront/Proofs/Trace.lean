import Mathlib
import ShaderFront.Preprocess.Basic
import ShaderFront.Proofs.Layout
import ShaderFront.Proofs.Newlines

/-!
# What a visit does

A visit goes over the stretches of a source in order. At each it takes a step: it carries out a directive, expands a run of text,
or skips what stands in a branch that is not taken (`traceAll`). The steps go over the stretches that were read
(`stretches_traceAll`), and their outputs together are the output of the visit (`out_traceAll`). Main statement: if the includes
that are carried out fail, no step meets a macro with a line break in its body (`flat_traceAll`).
-/

namespace ShaderFront.Preprocess

open Directive (Particle Condition BranchOf Stretch lineCount branchLines stretchesAll branchStretches bodiesAll branchBodies)

/-- A step of a visit. -/
inductive Step where
  | directive
  /-- An `#include` that is carried out in a state. -/
  | included (path : String) (s : State)
  | skipped (text : String)
  /-- A run of text that is expanded with some macros. -/
  | expanded (text : String) (macros : MacroTable)

/-- The stretch that a step goes over. -/
def Step.stretch : Step → Stretch
  | .directive | .included _ _ => .directive
  | .skipped text | .expanded text _ => .text text

/-- The step over a stretch that is skipped. -/
def skip : Stretch → Step
  | .text text => .skipped text
  | .directive => .directive

mutual

/-- The steps of a visit of a particle. -/
def trace (options : Options) (includer : Includer) : Particle → State → List Step
  | .text text, s => [.expanded text s.macros]
  | .include path _, s => [.included path s]
  | .conditional branches none, s => traceBranches options includer false branches s ++ [.directive]
  | .conditional branches (some body), s =>
    let (_, taken, after) := visitBranches options includer false branches s
    traceBranches options includer false branches s ++
      .directive :: (if taken then (stretchesAll body).map skip else traceAll options includer body after) ++ [.directive]
  | _, _ => [.directive]

/-- The steps of a visit of some particles. -/
def traceAll (options : Options) (includer : Includer) : List Particle → State → List Step
  | [], _ => []
  | p :: rest, s => trace options includer p s ++ traceAll options includer rest (visit options includer p s).2

/-- The steps of a visit of some branches, given whether one was taken before. -/
def traceBranches (options : Options) (includer : Includer) : Bool → List (BranchOf Particle) → State → List Step
  | _, [], _ => []
  | true, ⟨_, body⟩ :: rest, s =>
    .directive :: (stretchesAll body).map skip ++ traceBranches options includer true rest s
  | false, ⟨condition, body⟩ :: rest, s =>
    let (holds, s) := s.decide options condition
    if holds then
      .directive :: traceAll options includer body s ++
        traceBranches options includer true rest (visitAll options includer body s).2
    else .directive :: (stretchesAll body).map skip ++ traceBranches options includer false rest s

end

variable {options : Options} {includer : Includer}

@[simp]
theorem stretch_comp_skip : Step.stretch ∘ skip = id := by
  funext stretch
  cases stretch <;> rfl

mutual

/-- The steps of a visit go over the stretches of the particle. -/
theorem stretches_trace : ∀ (p : Particle) (s : State), (trace options includer p s).map Step.stretch = p.stretches
  | .text _, _ | .define _, _ | .undef _, _ | .error _, _ | .extension _, _ | .include _ _, _ | .line _ _, _ | .null, _
  | .pragma _, _ | .version _ _, _ => by simp [trace, Particle.stretches, Step.stretch]
  | .conditional branches none, s => by
    rw [trace, List.map_append, stretches_traceBranches branches false s, Particle.stretches]
    rfl
  | .conditional branches (some body), s => by
    have hbody := stretches_traceAll body (visitBranches options includer false branches s).2.2
    simp only [trace, List.map_append, List.map_cons, stretches_traceBranches branches false s, Particle.stretches]
    split <;> simp [hbody, Step.stretch]

theorem stretches_traceAll : ∀ (ps : List Particle) (s : State), (traceAll options includer ps s).map Step.stretch = stretchesAll ps
  | [], _ => by simp [traceAll, stretchesAll]
  | p :: rest, s => by rw [traceAll, List.map_append, stretches_trace p s, stretches_traceAll rest _, stretchesAll]

theorem stretches_traceBranches : ∀ (branches : List (BranchOf Particle)) (taken : Bool) (s : State),
    (traceBranches options includer taken branches s).map Step.stretch = branchStretches branches
  | [], _, _ => by simp [traceBranches, branchStretches]
  | ⟨_, body⟩ :: rest, true, s => by
    rw [traceBranches, List.map_append, List.map_cons, List.map_map, stretch_comp_skip, List.map_id,
      stretches_traceBranches rest true s, branchStretches]
    rfl
  | ⟨condition, body⟩ :: rest, false, s => by
    have hbody := stretches_traceAll body (s.decide options condition).2
    have hrest := fun taken s => stretches_traceBranches rest taken s
    simp only [traceBranches, branchStretches]
    split <;> simp [hbody, hrest, Step.stretch]

end

/-! ### The last step -/

/-- The step expands no text. -/
def Step.isBlank : Step → Bool
  | .expanded _ _ => false
  | _ => true

/-- The step skips text. -/
def Step.isSkip : Step → Bool
  | .skipped _ => true
  | _ => false

/-- The last of some steps skips no text. -/
def EndsOpen (steps : List Step) : Prop := ∃ front last, steps = front ++ [last] ∧ last.isSkip = false

theorem EndsOpen.append {back : List Step} (h : EndsOpen back) (front : List Step) : EndsOpen (front ++ back) := by
  obtain ⟨init, last, rfl, hlast⟩ := h
  exact ⟨front ++ init, last, (List.append_assoc ..).symm, hlast⟩

/-- The visit of a particle does not end with text that is skipped, because a conditional ends with a directive. -/
theorem endsOpen_trace (p : Particle) (s : State) : EndsOpen (trace options includer p s) := by
  cases p with
  | conditional branches otherwise => cases otherwise <;> exact ⟨_, .directive, rfl, rfl⟩
  | text text => exact ⟨[], .expanded text s.macros, rfl, rfl⟩
  | «include» path span => exact ⟨[], .included path s, rfl, rfl⟩
  | _ => exact ⟨[], .directive, rfl, rfl⟩

theorem endsOpen_traceAll : ∀ {ps : List Particle} {s : State}, traceAll options includer ps s ≠ [] →
    EndsOpen (traceAll options includer ps s)
  | [], _, h => absurd (by rw [traceAll]) h
  | p :: rest, s, _ => by
    rw [traceAll]
    cases hrest : traceAll options includer rest (visit options includer p s).2 with
    | nil =>
      rw [List.append_nil]
      exact endsOpen_trace p s
    | cons step steps =>
      rw [← hrest]
      exact (endsOpen_traceAll (by simp [hrest])).append _

/-! ## Output -/

/-- The output of a step. -/
def Step.out (options : Options) (includer : Includer) : Step → List Char
  | .directive => ['\n']
  | .included path s => (includer path s).1.toList
  | .skipped text => List.replicate (Text.newlineCount text.toList) '\n'
  | .expanded text macros => (Macro.expand macros options.maxExpansionDepth text).1.toList

/-- The output of some steps. -/
def outOf (options : Options) (includer : Includer) (steps : List Step) : List Char := steps.flatMap (Step.out options includer)

@[simp]
theorem outOf_nil : outOf options includer [] = [] := rfl

@[simp]
theorem outOf_cons (step : Step) (steps : List Step) :
    outOf options includer (step :: steps) = step.out options includer ++ outOf options includer steps := List.flatMap_cons

@[simp]
theorem outOf_append (front back : List Step) :
    outOf options includer (front ++ back) = outOf options includer front ++ outOf options includer back := List.flatMap_append

theorem toList_blankLines (n : Nat) : (blankLines n).toList = List.replicate n '\n' := by
  induction n with
  | zero => rfl
  | succ n ih =>
    have hpush : blankLines (n + 1) = (blankLines n).push '\n' := rfl
    rw [hpush, String.toList_push, ih, List.replicate_succ']

mutual

/-- What is skipped becomes empty lines. -/
theorem out_skip : ∀ p : Particle, outOf options includer (p.stretches.map skip) = List.replicate p.lines '\n'
  | .text _ | .define _ | .undef _ | .error _ | .extension _ | .include _ _ | .line _ _ | .null | .pragma _ | .version _ _ => by
    simp [Particle.stretches, Particle.lines, skip, Step.out]
  | .conditional branches none => by
    rw [Particle.stretches, Particle.lines, List.map_append, outOf_append, out_skipBranches branches, List.replicate_succ']
    rfl
  | .conditional branches (some body) => by
    rw [Particle.stretches, Particle.lines, List.map_append, List.map_append, List.map_cons, outOf_append, outOf_append, outOf_cons,
      out_skipBranches branches, out_skipAll body, List.replicate_succ', List.replicate_add, Nat.add_comm, List.replicate_succ]
    rfl

theorem out_skipAll : ∀ ps : List Particle, outOf options includer ((stretchesAll ps).map skip) = List.replicate (lineCount ps) '\n'
  | [] => by simp [stretchesAll, lineCount]
  | p :: rest => by simp [stretchesAll, lineCount, out_skip p, out_skipAll rest]

theorem out_skipBranches : ∀ branches : List (BranchOf Particle),
    outOf options includer ((branchStretches branches).map skip) = List.replicate (branchLines branches) '\n'
  | [] => by simp [branchStretches, branchLines]
  | ⟨_, body⟩ :: rest => by
    rw [branchStretches, branchLines, List.map_append, List.map_cons, outOf_append, outOf_cons, out_skipAll body,
      out_skipBranches rest, List.replicate_add, Nat.add_comm, List.replicate_succ]
    rfl

end

mutual

/-- **The outputs of the steps are the output of the visit.** -/
theorem out_trace : ∀ (p : Particle) (s : State),
    (visit options includer p s).1.toList = outOf options includer (trace options includer p s)
  | .text _, _ | .define _, _ | .undef _, _ | .error _, _ | .extension _, _ | .include _ _, _ | .line _ _, _ | .null, _
  | .pragma _, _ | .version _ _, _ => by simp [visit, trace, Step.out]
  | .conditional branches none, s => by simp [visit, trace, Step.out, out_traceBranches branches false s]
  | .conditional branches (some body), s => by
    have hbody := out_traceAll body (visitBranches options includer false branches s).2.2
    simp only [visit, trace]
    split <;> simp [out_traceBranches branches false s, hbody, Step.out, toList_blankLines, out_skipAll]

theorem out_traceAll : ∀ (ps : List Particle) (s : State),
    (visitAll options includer ps s).1.toList = outOf options includer (traceAll options includer ps s)
  | [], _ => by simp [visitAll, traceAll]
  | p :: rest, s => by simp [visitAll, traceAll, out_trace p s, out_traceAll rest _]

theorem out_traceBranches : ∀ (branches : List (BranchOf Particle)) (taken : Bool) (s : State),
    (visitBranches options includer taken branches s).1.toList = outOf options includer (traceBranches options includer taken branches s)
  | [], _, _ => by simp [visitBranches, traceBranches]
  | ⟨_, body⟩ :: rest, true, s => by
    simp [visitBranches, traceBranches, out_traceBranches rest true s, Step.out, toList_blankLines, out_skipAll]
  | ⟨condition, body⟩ :: rest, false, s => by
    have hbody := out_traceAll body (s.decide options condition).2
    have hrest := fun taken s => out_traceBranches rest taken s
    simp only [visitBranches, traceBranches]
    split <;> simp [hbody, hrest, Step.out, toList_blankLines, out_skipAll]

end

/-! ## Macros without line breaks -/

/-- An `#include` that fails is an empty line and changes no macros. -/
def Step.Fails (includer : Includer) : Step → Prop
  | .included path s => (includer path s).1 = "\n" ∧ (includer path s).2.macros = s.macros
  | _ => True

/-- A run of text meets no macro with a line break in its body. -/
def Step.Flat : Step → Prop
  | .expanded _ macros => macros.Flat
  | _ => True

@[simp]
theorem flat_skip (stretch : Stretch) : (skip stretch).Flat := by
  cases stretch <;> trivial

theorem define_flat {s : State} (hs : s.macros.Flat) {d : MacroDefinition} (hd : '\n' ∉ d.body.toList) : (s.define d).macros.Flat := by
  have hdefine := hs.define (m := .ofDefinition d) hd
  unfold State.define
  split
  · exact hs
  · simp only
    split
    · exact hdefine
    · split <;> exact hdefine

theorem undefine_flat {s : State} (hs : s.macros.Flat) (name : String) : (s.undefine name).macros.Flat := by
  have hundefine := hs.undefine name
  unfold State.undefine
  split
  · rename_i heq
    rwa [heq] at hundefine
  · exact hs

theorem setVersion_macros (s : State) (mark : Mark) : (s.setVersion mark).macros = s.macros := by
  unfold State.setVersion
  dsimp only
  split <;> rfl

theorem decide_macros (options : Options) (s : State) (condition : Condition) : (s.decide options condition).2.macros = s.macros := by
  cases condition <;> rfl

mutual

/-- **No step meets a macro with a line break in its body**, if the includes that are carried out fail. -/
theorem flat_trace : ∀ (p : Particle) (s : State), s.macros.Flat → (∀ body ∈ p.bodies, '\n' ∉ body.toList) →
    (∀ step ∈ trace options includer p s, step.Fails includer) →
    (∀ step ∈ trace options includer p s, step.Flat) ∧ (visit options includer p s).2.macros.Flat
  | .text text, s, hs, _, _ => by
    refine ⟨?_, hs⟩
    rw [trace]
    exact List.forall_mem_singleton.mpr hs
  | .define d, s, hs, hbodies, _ => ⟨by simp [trace, Step.Flat], define_flat hs (hbodies _ (by simp [Particle.bodies]))⟩
  | .undef name, s, hs, _, _ => ⟨by simp [trace, Step.Flat], undefine_flat hs name⟩
  | .include path span, s, hs, _, hfails => by
    have hfails : (includer path s).2.macros = s.macros := (hfails (.included path s) (by simp [trace])).2
    refine ⟨by simp [trace, Step.Flat], ?_⟩
    rw [visit, hfails]
    exact hs
  | .version version profile, s, hs, _, _ => by
    refine ⟨by simp [trace, Step.Flat], ?_⟩
    rw [visit, setVersion_macros]
    exact hs
  | .error _, s, hs, _, _ | .extension _, s, hs, _, _ | .line _ _, s, hs, _, _ | .null, s, hs, _, _ | .pragma _, s, hs, _, _ =>
    ⟨by simp [trace, Step.Flat], hs⟩
  | .conditional branches none, s, hs, hbodies, hfails => by
    rw [Particle.bodies] at hbodies
    rw [trace] at hfails
    obtain ⟨hflat, hafter⟩ := flat_traceBranches branches false s hs hbodies (List.forall_mem_append.mp hfails).1
    rw [trace, visit]
    exact ⟨List.forall_mem_append.mpr ⟨hflat, by simp [Step.Flat]⟩, hafter⟩
  | .conditional branches (some body), s, hs, hbodies, hfails => by
    rw [Particle.bodies] at hbodies
    obtain ⟨hbodies, hbodies'⟩ := List.forall_mem_append.mp hbodies
    simp only [trace, List.forall_mem_append, List.forall_mem_cons] at hfails
    obtain ⟨⟨hfails, -, hfails'⟩, -⟩ := hfails
    obtain ⟨hflat, hafter⟩ := flat_traceBranches branches false s hs hbodies hfails
    simp only [trace, visit, List.forall_mem_append, List.forall_mem_cons]
    split at hfails' <;> rename_i htaken
    · rw [if_pos htaken, if_pos htaken]
      exact ⟨⟨⟨hflat, trivial, List.forall_mem_map.mpr fun stretch _ => flat_skip stretch⟩, trivial, List.forall_mem_nil _⟩, hafter⟩
    · obtain ⟨hflat', hafter'⟩ := flat_traceAll body _ hafter hbodies' hfails'
      rw [if_neg htaken, if_neg htaken]
      exact ⟨⟨⟨hflat, trivial, hflat'⟩, trivial, List.forall_mem_nil _⟩, hafter'⟩

theorem flat_traceAll : ∀ (ps : List Particle) (s : State), s.macros.Flat → (∀ body ∈ bodiesAll ps, '\n' ∉ body.toList) →
    (∀ step ∈ traceAll options includer ps s, step.Fails includer) →
    (∀ step ∈ traceAll options includer ps s, step.Flat) ∧ (visitAll options includer ps s).2.macros.Flat
  | [], s, hs, _, _ => ⟨by simp [traceAll], hs⟩
  | p :: rest, s, hs, hbodies, hfails => by
    rw [bodiesAll] at hbodies
    rw [traceAll] at hfails
    obtain ⟨hbodies, hbodies'⟩ := List.forall_mem_append.mp hbodies
    obtain ⟨hfails, hfails'⟩ := List.forall_mem_append.mp hfails
    obtain ⟨hflat, hafter⟩ := flat_trace p s hs hbodies hfails
    obtain ⟨hflat', hafter'⟩ := flat_traceAll rest _ hafter hbodies' hfails'
    rw [traceAll, visitAll]
    exact ⟨List.forall_mem_append.mpr ⟨hflat, hflat'⟩, hafter'⟩

theorem flat_traceBranches : ∀ (branches : List (BranchOf Particle)) (taken : Bool) (s : State), s.macros.Flat →
    (∀ body ∈ branchBodies branches, '\n' ∉ body.toList) →
    (∀ step ∈ traceBranches options includer taken branches s, step.Fails includer) →
    (∀ step ∈ traceBranches options includer taken branches s, step.Flat) ∧
      (visitBranches options includer taken branches s).2.2.macros.Flat
  | [], taken, s, hs, _, _ => ⟨by simp [traceBranches], hs⟩
  | ⟨_, body⟩ :: rest, true, s, hs, hbodies, hfails => by
    rw [branchBodies] at hbodies
    rw [traceBranches] at hfails
    obtain ⟨hflat, hafter⟩ := flat_traceBranches rest true s hs (List.forall_mem_append.mp hbodies).2 (List.forall_mem_append.mp hfails).2
    rw [traceBranches, visitBranches]
    refine ⟨?_, hafter⟩
    simp only [List.cons_append, List.forall_mem_cons, List.forall_mem_append, List.forall_mem_map]
    exact ⟨trivial, fun stretch _ => flat_skip stretch, hflat⟩
  | ⟨condition, body⟩ :: rest, false, s, hs, hbodies, hfails => by
    rw [branchBodies] at hbodies
    obtain ⟨hbodies, hbodies'⟩ := List.forall_mem_append.mp hbodies
    have hdecided : (s.decide options condition).2.macros.Flat := by rwa [decide_macros]
    simp only [traceBranches, visitBranches] at hfails ⊢
    split at hfails <;> rename_i hholds
    · simp only [List.cons_append, List.forall_mem_cons, List.forall_mem_append] at hfails
      obtain ⟨-, hfails, hfails'⟩ := hfails
      obtain ⟨hflat, hafter⟩ := flat_traceAll body _ hdecided hbodies hfails
      obtain ⟨hflat', hafter'⟩ := flat_traceBranches rest true _ hafter hbodies' hfails'
      rw [if_pos hholds, if_pos hholds]
      simp only [List.cons_append, List.forall_mem_cons, List.forall_mem_append]
      exact ⟨⟨trivial, hflat, hflat'⟩, hafter'⟩
    · simp only [List.cons_append, List.forall_mem_cons, List.forall_mem_append] at hfails
      obtain ⟨-, -, hfails⟩ := hfails
      obtain ⟨hflat, hafter⟩ := flat_traceBranches rest false _ hdecided hbodies' hfails
      rw [if_neg hholds, if_neg hholds]
      simp only [List.cons_append, List.forall_mem_cons, List.forall_mem_append]
      exact ⟨⟨trivial, List.forall_mem_map.mpr fun stretch _ => flat_skip stretch, hflat⟩, hafter⟩

end

end ShaderFront.Preprocess
