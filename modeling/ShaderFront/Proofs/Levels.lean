import Mathlib
import ShaderFront.Proofs.Trace
import ShaderFront.Proofs.Unused

/-!
# Levels of includes

A visit looks at its includer only where it carries out an `#include`, and at the library of a state only there. So two includers that
agree on the includes that are carried out give the same visit, from states whose libraries give the same results
(`Preprocess.visitAll_like`). Main statement: unless the limit of includes is reached, one more level of includes changes nothing
(`Preprocess.includeFile_succ`).
-/

namespace ShaderFront

namespace Preprocess

open Directive (Particle Condition BranchOf)

/-- Two states differ at most in what their libraries remember. -/
structure State.Like (s t : State) : Prop where
  macros : s.macros = t.macros
  version : s.version = t.version
  line : s.line = t.line
  log : s.log = t.log
  library : s.library.Like t.library

/-- Two visits give the same and lead to such states. -/
def Alike {α : Type} (outcome outcome' : α × State) : Prop := outcome.1 = outcome'.1 ∧ outcome.2.Like outcome'.2

/-- Two includers have such outcomes on the includes that some steps carry out. -/
def AlikeOn (includer includer' : Includer) (steps : List Step) : Prop :=
  ∀ path t t', .included path t ∈ steps → t.Like t' → Alike (includer path t) (includer' path t')

variable {options : Options} {includer includer' : Includer} {s t : State}

theorem AlikeOn.mono {steps steps' : List Step} (h : AlikeOn includer includer' steps) (hsteps : steps' ⊆ steps) :
    AlikeOn includer includer' steps' := fun path t t' hmem => h path t t' (hsteps hmem)

/-! ## States -/

namespace State.Like

theorem refl (s : State) : s.Like s := ⟨rfl, rfl, rfl, rfl, .refl _⟩

theorem note (h : s.Like t) (messages : List Message) : (s.note messages).Like (t.note messages) :=
  ⟨h.macros, h.version, h.line, congrArg (· ++ messages) h.log, h.library⟩

theorem define (h : s.Like t) (d : MacroDefinition) : (s.define d).Like (t.define d) := by
  unfold State.define
  rw [h.macros]
  split
  · exact h.note _
  · simp only
    have hdefined : State.Like { s with macros := (t.macros.define (.ofDefinition d)).2 }
        { t with macros := (t.macros.define (.ofDefinition d)).2 } := ⟨rfl, h.version, h.line, h.log, h.library⟩
    split
    · exact hdefined
    · split
      · exact hdefined.note _
      · exact hdefined

theorem undefine (h : s.Like t) (name : String) : (s.undefine name).Like (t.undefine name) := by
  unfold State.undefine
  rw [h.macros]
  split
  · exact ⟨rfl, h.version, h.line, h.log, h.library⟩
  · exact h.note _

theorem setVersion (h : s.Like t) (mark : Mark) : (s.setVersion mark).Like (t.setVersion mark) := by
  unfold State.setVersion
  rw [h.version]
  simp only
  split
  · exact ⟨h.macros, rfl, h.line, (h.note _).log, h.library⟩
  · exact ⟨h.macros, rfl, h.line, h.log, h.library⟩

theorem decide (options : Options) (h : s.Like t) (condition : Condition) : (s.decide options condition).1 = (t.decide options condition).1 ∧
    (s.decide options condition).2.Like (t.decide options condition).2 := by
  cases condition with
  | holds e =>
    rw [State.decide, State.decide, h.macros]
    exact ⟨rfl, h.note _⟩
  | ifdef name =>
    rw [State.decide, State.decide, h.macros]
    exact ⟨rfl, h⟩
  | ifndef name =>
    rw [State.decide, State.decide, h.macros]
    exact ⟨rfl, h⟩

end State.Like

/-! ## Visits -/

mutual

/-- **A visit looks at its includer only where it carries out an include.** -/
theorem visit_like : ∀ (p : Particle) {s t : State}, s.Like t → AlikeOn includer includer' (trace options includer p s) →
    Alike (visit options includer p s) (visit options includer' p t)
  | .text text, s, t, h, _ => by
    simp only [visit, h.macros]
    exact ⟨rfl, h.note _⟩
  | .define d, s, t, h, _ => ⟨rfl, h.define d⟩
  | .undef name, s, t, h, _ => ⟨rfl, h.undefine name⟩
  | .error text, s, t, h, _ => ⟨rfl, h.note _⟩
  | .include path span, s, t, h, hinclude => by
    rw [visit, visit]
    exact hinclude path s t (by simp [trace]) h
  | .line line source, s, t, h, _ => ⟨rfl, h.macros, h.version, rfl, h.log, h.library⟩
  | .version version profile, s, t, h, _ => ⟨rfl, h.setVersion _⟩
  | .extension _, s, t, h, _ | .null, s, t, h, _ | .pragma _, s, t, h, _ => ⟨rfl, h⟩
  | .conditional branches none, s, t, h, hinclude => by
    rw [trace] at hinclude
    obtain ⟨hout, -, hafter⟩ := visitBranches_like branches false h (hinclude.mono (List.subset_append_left _ _))
    rw [visit, visit]
    exact ⟨congrArg (· ++ "\n") hout, hafter⟩
  | .conditional branches (some body), s, t, h, hinclude => by
    simp only [trace] at hinclude
    obtain ⟨hout, htaken, hafter⟩ := visitBranches_like branches false h
      (hinclude.mono (List.Subset.trans (List.subset_append_left _ _) (List.subset_append_left _ _)))
    simp only [visit]
    rw [← htaken, ← hout]
    split <;> rename_i hbranch
    · exact ⟨rfl, hafter⟩
    · rw [if_neg hbranch] at hinclude
      obtain ⟨hbody, hlast⟩ := visitAll_like body hafter (hinclude.mono fun step hstep => by simp [hstep])
      rw [hbody]
      exact ⟨rfl, hlast⟩

theorem visitAll_like : ∀ (ps : List Particle) {s t : State}, s.Like t → AlikeOn includer includer' (traceAll options includer ps s) →
    Alike (visitAll options includer ps s) (visitAll options includer' ps t)
  | [], s, t, h, _ => ⟨by rw [visitAll, visitAll], h⟩
  | p :: rest, s, t, h, hinclude => by
    rw [traceAll] at hinclude
    obtain ⟨hout, hafter⟩ := visit_like p h (hinclude.mono (List.subset_append_left _ _))
    obtain ⟨hothers, hlast⟩ := visitAll_like rest hafter (hinclude.mono (List.subset_append_right _ _))
    rw [visitAll, visitAll]
    exact ⟨congrArg₂ (· ++ ·) hout hothers, hlast⟩

theorem visitBranches_like : ∀ (branches : List (BranchOf Particle)) (taken : Bool) {s t : State}, s.Like t →
    AlikeOn includer includer' (traceBranches options includer taken branches s) →
    (visitBranches options includer taken branches s).1 = (visitBranches options includer' taken branches t).1 ∧
      Alike (visitBranches options includer taken branches s).2 (visitBranches options includer' taken branches t).2
  | [], taken, s, t, h, _ => by
    rw [visitBranches, visitBranches]
    exact ⟨rfl, rfl, h⟩
  | ⟨condition, body⟩ :: rest, true, s, t, h, hinclude => by
    rw [traceBranches] at hinclude
    obtain ⟨hout, hafter⟩ := visitBranches_like rest true h (hinclude.mono (List.subset_append_right _ _))
    rw [visitBranches, visitBranches]
    exact ⟨congrArg (_ ++ ·) hout, hafter⟩
  | ⟨condition, body⟩ :: rest, false, s, t, h, hinclude => by
    obtain ⟨hholds, hdecided⟩ := h.decide options condition
    simp only [traceBranches] at hinclude
    simp only [visitBranches]
    rw [← hholds]
    split <;> rename_i hbranch
    · rw [if_pos hbranch] at hinclude
      obtain ⟨hbody, hinside⟩ := visitAll_like body hdecided (hinclude.mono fun step hstep => by simp [hstep])
      obtain ⟨hout, hafter⟩ := visitBranches_like rest true hinside (hinclude.mono (List.subset_append_right _ _))
      rw [hbody, hout]
      exact ⟨rfl, hafter⟩
    · rw [if_neg hbranch] at hinclude
      obtain ⟨hout, hafter⟩ := visitBranches_like rest false hdecided (hinclude.mono (List.subset_append_right _ _))
      rw [hout]
      exact ⟨rfl, hafter⟩

end

/-! ## Libraries of a visit -/

section Libraries

variable {K : Library → Prop}

/-- What an includer keeps. -/
def Keeps (K : Library → Prop) (includer : Includer) : Prop := ∀ path t, K t.library → K (includer path t).2.library

/-- Where a step carries out an include, the library has a property. -/
def Step.Meets (K : Library → Prop) : Step → Prop
  | .included _ t => K t.library
  | _ => True

theorem meets_skip (stretch : Directive.Stretch) : (skip stretch).Meets K := by cases stretch <;> trivial

theorem library_define (s : State) (d : MacroDefinition) : (s.define d).library = s.library := by
  unfold State.define
  split
  · rfl
  · simp only
    split
    · rfl
    · split <;> rfl

theorem library_undefine (s : State) (name : String) : (s.undefine name).library = s.library := by
  unfold State.undefine
  split <;> rfl

theorem library_setVersion (s : State) (mark : Mark) : (s.setVersion mark).library = s.library := by
  unfold State.setVersion
  simp only
  split <;> rfl

theorem library_decide (options : Options) (s : State) (condition : Condition) :
    (s.decide options condition).2.library = s.library := by
  cases condition <;> rfl

mutual

/-- What the includer keeps of a library, a visit keeps. -/
theorem visit_keeps (hkeeps : Keeps K includer) : ∀ (p : Particle) {s : State}, K s.library →
    (∀ step ∈ trace options includer p s, step.Meets K) ∧ K (visit options includer p s).2.library
  | .define d, s, hs => ⟨by simp [trace, Step.Meets], by rwa [visit, library_define]⟩
  | .undef name, s, hs => ⟨by simp [trace, Step.Meets], by rwa [visit, library_undefine]⟩
  | .version version profile, s, hs => ⟨by simp [trace, Step.Meets], by rwa [visit, library_setVersion]⟩
  | .include path span, s, hs => ⟨by simpa [trace, Step.Meets] using hs, by rw [visit]; exact hkeeps path s hs⟩
  | .text _, s, hs | .error _, s, hs | .extension _, s, hs | .line _ _, s, hs | .null, s, hs | .pragma _, s, hs =>
    ⟨by simp [trace, Step.Meets], hs⟩
  | .conditional branches none, s, hs => by
    obtain ⟨hsteps, hafter⟩ := visitBranches_keeps hkeeps branches false hs
    rw [trace, visit]
    exact ⟨List.forall_mem_append.mpr ⟨hsteps, by simp [Step.Meets]⟩, hafter⟩
  | .conditional branches (some body), s, hs => by
    obtain ⟨hsteps, hafter⟩ := visitBranches_keeps hkeeps branches false hs
    obtain ⟨hbody, hlast⟩ := visitAll_keeps hkeeps body hafter
    simp only [trace, visit, List.forall_mem_append, List.forall_mem_cons]
    split
    · exact ⟨⟨⟨hsteps, trivial, List.forall_mem_map.mpr fun stretch _ => meets_skip stretch⟩, trivial, List.forall_mem_nil _⟩, hafter⟩
    · exact ⟨⟨⟨hsteps, trivial, hbody⟩, trivial, List.forall_mem_nil _⟩, hlast⟩

theorem visitAll_keeps (hkeeps : Keeps K includer) : ∀ (ps : List Particle) {s : State}, K s.library →
    (∀ step ∈ traceAll options includer ps s, step.Meets K) ∧ K (visitAll options includer ps s).2.library
  | [], s, hs => ⟨by simp [traceAll], hs⟩
  | p :: rest, s, hs => by
    obtain ⟨hsteps, hafter⟩ := visit_keeps hkeeps p hs
    obtain ⟨hrest, hlast⟩ := visitAll_keeps hkeeps rest hafter
    rw [traceAll, visitAll]
    exact ⟨List.forall_mem_append.mpr ⟨hsteps, hrest⟩, hlast⟩

theorem visitBranches_keeps (hkeeps : Keeps K includer) : ∀ (branches : List (BranchOf Particle)) (taken : Bool) {s : State},
    K s.library → (∀ step ∈ traceBranches options includer taken branches s, step.Meets K) ∧
      K (visitBranches options includer taken branches s).2.2.library
  | [], taken, s, hs => ⟨by simp [traceBranches], by rwa [visitBranches]⟩
  | ⟨_, body⟩ :: rest, true, s, hs => by
    obtain ⟨hrest, hlast⟩ := visitBranches_keeps hkeeps rest true hs
    rw [traceBranches, visitBranches]
    simp only [List.cons_append, List.forall_mem_cons, List.forall_mem_append, List.forall_mem_map]
    exact ⟨⟨trivial, fun stretch _ => meets_skip stretch, hrest⟩, hlast⟩
  | ⟨condition, body⟩ :: rest, false, s, hs => by
    have hdecided : K (s.decide options condition).2.library := by rwa [library_decide]
    simp only [traceBranches, visitBranches]
    split
    · obtain ⟨hbody, hinside⟩ := visitAll_keeps hkeeps body hdecided
      obtain ⟨hrest, hlast⟩ := visitBranches_keeps hkeeps rest true hinside
      simp only [List.cons_append, List.forall_mem_cons, List.forall_mem_append]
      exact ⟨⟨trivial, hbody, hrest⟩, hlast⟩
    · obtain ⟨hrest, hlast⟩ := visitBranches_keeps hkeeps rest false hdecided
      simp only [List.cons_append, List.forall_mem_cons, List.forall_mem_append, List.forall_mem_map]
      exact ⟨⟨trivial, fun stretch _ => meets_skip stretch, hrest⟩, hlast⟩

end

end Libraries

/-! ## Included files -/

theorem State.Like.resolve (h : s.Like t) (r : Resource) :
    State.Like { s with library := (s.library.resolve r).2 } { t with library := (t.library.resolve r).2 } where
  macros := h.macros
  version := h.version
  line := h.line
  log := h.log
  library := h.library.resolve r

section Outcomes

variable {inner : Includer} {path source : String} {r : Resource} (hpath : Resource.ofPath path = .ok r)

include hpath

/-- An include of a file that the library does not find. -/
theorem includeWith_of_missing {e : ResolveError} (hsource : (s.library.resolve r).1 = .error e) :
    includeWith options inner path s =
      ("\n", State.note { s with library := (s.library.resolve r).2 } [.error s!"cannot include `{path}`: {e.message}"]) := by
  rw [includeWith, hpath]
  dsimp only
  rw [show s.library.resolve r = (.error e, (s.library.resolve r).2) from Prod.ext hsource rfl]

/-- An include of a file whose directives cannot be read. -/
theorem includeWith_of_misread {e : LanguageError} (hsource : (s.library.resolve r).1 = .ok source)
    (hparse : Directive.parse source = .error e) : includeWith options inner path s =
      ("\n", State.note { s with library := (s.library.resolve r).2 }
        [.error s!"failed to preprocess `{r.text}`: {(Fault.directives e).message}"]) := by
  rw [includeWith, hpath]
  dsimp only
  rw [show s.library.resolve r = (.ok source, (s.library.resolve r).2) from Prod.ext hsource rfl]
  dsimp only
  rw [includeText, hparse]
  rfl

/-- An include of a file that is read as some particles. -/
theorem includeWith_of_parse {ps : List Particle} (hsource : (s.library.resolve r).1 = .ok source)
    (hparse : Directive.parse source = .ok ps) :
    includeWith options inner path s = (endLine (visitAll options inner ps { s with library := (s.library.resolve r).2 }).1,
      (visitAll options inner ps { s with library := (s.library.resolve r).2 }).2) := by
  rw [includeWith, hpath]
  dsimp only
  rw [show s.library.resolve r = (.ok source, (s.library.resolve r).2) from Prod.ext hsource rfl]
  dsimp only
  rw [includeText, hparse]
  rfl

end Outcomes

/-- Two includers that agree on the includes in a file give the same for the file. -/
theorem includeWith_like {inner inner' : Includer} {path : String} (h : s.Like t)
    (hinner : ∀ r source ps, Resource.ofPath path = .ok r → (s.library.resolve r).1 = .ok source → Directive.parse source = .ok ps →
      AlikeOn inner inner' (traceAll options inner ps { s with library := (s.library.resolve r).2 })) :
    Alike (includeWith options inner path s) (includeWith options inner' path t) := by
  cases hpath : Resource.ofPath path with
  | error e =>
    rw [includeWith, includeWith, hpath]
    exact ⟨rfl, h.note _⟩
  | ok r =>
    have hafter := h.resolve r
    have hsame := h.library [] r
    rw [Library.after_nil, Library.after_nil] at hsame
    cases hsource : (s.library.resolve r).1 with
    | error e =>
      rw [includeWith_of_missing hpath hsource, includeWith_of_missing hpath (hsame.symm.trans hsource)]
      exact ⟨rfl, hafter.note _⟩
    | ok source =>
      rw [hsource] at hsame
      cases hparse : Directive.parse source with
      | error e =>
        rw [includeWith_of_misread hpath hsource hparse, includeWith_of_misread hpath hsame.symm hparse]
        exact ⟨rfl, hafter.note _⟩
      | ok ps =>
        obtain ⟨hout, hlast⟩ := visitAll_like ps hafter (hinner r source ps hpath hsource hparse)
        rw [includeWith_of_parse hpath hsource hparse, includeWith_of_parse hpath hsame.symm hparse]
        exact ⟨congrArg endLine hout, hlast⟩

/-- From states that differ at most in what their libraries remember an include does the same. -/
theorem includeFile_like : ∀ (levels : Nat) (path : String) {s t : State}, s.Like t →
    Alike (includeFile options levels path s) (includeFile options levels path t)
  | 0, _, _, _, h => ⟨rfl, h.note _⟩
  | levels + 1, _, _, _, h => includeWith_like h fun _ _ _ _ _ _ path' _ _ _ ht => includeFile_like levels path' ht

/-- What every lookup keeps of a library, an include keeps. -/
theorem includeFile_keeps {K : Library → Prop} (hresolve : ∀ l r, K l → K (l.resolve r).2) :
    ∀ levels, Keeps K (includeFile options levels)
  | 0, _, _, ht => ht
  | levels + 1, path, s, hs => by
    rw [includeFile]
    cases hpath : Resource.ofPath path with
    | error e =>
      rw [includeWith, hpath]
      exact hs
    | ok r =>
      have hafter := hresolve _ r hs
      cases hsource : (s.library.resolve r).1 with
      | error e =>
        rw [includeWith_of_missing hpath hsource]
        exact hafter
      | ok source =>
        cases hparse : Directive.parse source with
        | error e =>
          rw [includeWith_of_misread hpath hsource hparse]
          exact hafter
        | ok ps =>
          rw [includeWith_of_parse hpath hsource hparse]
          exact (visitAll_keeps (includeFile_keeps hresolve levels) ps hafter).2

/-! ## One more level -/

/-- An `#include` of a path meets, at some level, an `#include` with no more levels to go. -/
def LimitReached (options : Options) : Nat → String → State → Prop
  | 0, _, _ => True
  | levels + 1, path, s => ∃ r source ps path' t, Resource.ofPath path = .ok r ∧ (s.library.resolve r).1 = .ok source ∧
      Directive.parse source = .ok ps ∧
      .included path' t ∈ traceAll options (includeFile options levels) ps { s with library := (s.library.resolve r).2 } ∧
      LimitReached options levels path' t

/-- **Unless the limit is reached, one more level of includes changes nothing.** -/
theorem includeFile_succ : ∀ (levels : Nat) (path : String) {s t : State}, ¬LimitReached options levels path s → s.Like t →
    Alike (includeFile options levels path s) (includeFile options (levels + 1) path t)
  | 0, _, _, _, h, _ => absurd trivial h
  | levels + 1, _, _, _, h, ht => includeWith_like ht fun r source ps hpath hsource hparse path' _ _ hmem ht' =>
    includeFile_succ levels path' (fun hlimit => h ⟨r, source, ps, path', _, hpath, hsource, hparse, hmem, hlimit⟩) ht'

end Preprocess

end ShaderFront
