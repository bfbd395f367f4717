import Mathlib
import ShaderFront.Proofs.Grafting
import ShaderFront.Proofs.Levels

/-!
# Visits of spliced particles

An `#include` that is carried out is a step of a visit. Where the particles of its file are spliced in its place, the visit goes over
them instead, in the state of that step, and goes on as before (`Preprocess.visitAll_spliced`). That is the same as carrying out the
include if the file ends with a directive and the limit of includes is not reached (`Preprocess.includeFile_content`).
-/

namespace ShaderFront.Preprocess

open Directive

variable {options : Options} {includer : Includer} {path path' : String} {content : List Particle} {n : Nat} {s s' t : State}

/-! ## Visits elsewhere -/

/-- Particles with the same stretches have the same number of lines. -/
theorem lineCount_eq {ps qs : List Particle} (h : stretchesAll ps = stretchesAll qs) : lineCount ps = lineCount qs := by
  have hskip := congrArg List.length (@out_skipAll {} (fun _ s => ("", s)) ps)
  rw [h, out_skipAll, List.length_replicate, List.length_replicate] at hskip
  exact hskip.symm

theorem lineCount_moved (f : Span → Span) (ps : List Particle) : lineCount (movedAll f ps) = lineCount ps :=
  lineCount_eq (stretchesAll_moved f ps)

mutual

/-- A visit does not look at the places of includes. -/
theorem visit_moved (f : Span → Span) : ∀ (p : Particle) (s : State),
    visit options includer (p.moved f) s = visit options includer p s ∧ trace options includer (p.moved f) s = trace options includer p s
  | .text _, s | .define _, s | .undef _, s | .error _, s | .extension _, s | .include _ _, s | .line _ _, s | .null, s | .pragma _, s
  | .version _ _, s => by simp [Particle.moved, visit, trace]
  | .conditional branches none, s => by
    obtain ⟨hvisit, htrace⟩ := visitBranches_moved f branches false s
    simp [Particle.moved, visit, trace, hvisit, htrace]
  | .conditional branches (some body), s => by
    obtain ⟨hvisit, htrace⟩ := visitBranches_moved f branches false s
    have hbody := visitAll_moved f body
    simp [Particle.moved, visit, trace, hvisit, htrace, lineCount_moved, (hbody _).1, (hbody _).2]

theorem visitAll_moved (f : Span → Span) : ∀ (ps : List Particle) (s : State),
    visitAll options includer (movedAll f ps) s = visitAll options includer ps s ∧
      traceAll options includer (movedAll f ps) s = traceAll options includer ps s
  | [], s => by simp [movedAll]
  | p :: rest, s => by
    obtain ⟨hvisit, htrace⟩ := visit_moved f p s
    have hrest := visitAll_moved f rest
    simp [movedAll, visitAll, traceAll, hvisit, htrace, (hrest _).1, (hrest _).2]

theorem visitBranches_moved (f : Span → Span) : ∀ (branches : List Branch) (taken : Bool) (s : State),
    visitBranches options includer taken (movedBranches f branches) s = visitBranches options includer taken branches s ∧
      traceBranches options includer taken (movedBranches f branches) s = traceBranches options includer taken branches s
  | [], taken, s => by simp [movedBranches]
  | ⟨condition, body⟩ :: rest, true, s => by
    obtain ⟨hvisit, htrace⟩ := visitBranches_moved f rest true s
    simp [movedBranches, visitBranches, traceBranches, hvisit, htrace, lineCount_moved]
  | ⟨condition, body⟩ :: rest, false, s => by
    have hbody := visitAll_moved f body
    have hrest := visitBranches_moved f rest
    simp [movedBranches, visitBranches, traceBranches, lineCount_moved, (hbody _).1, (hbody _).2, (hrest _ _).1, (hrest _ _).2]

end

/-! ## Visits of particles in a row -/

theorem visitAll_append (front back : List Particle) (s : State) : visitAll options includer (front ++ back) s =
    ((visitAll options includer front s).1 ++ (visitAll options includer back (visitAll options includer front s).2).1,
      (visitAll options includer back (visitAll options includer front s).2).2) := by
  induction front generalizing s with
  | nil => simp [visitAll]
  | cons p front ih => simp [visitAll, ih, String.append_assoc]

theorem traceAll_append (front back : List Particle) (s : State) : traceAll options includer (front ++ back) s =
    traceAll options includer front s ++ traceAll options includer back (visitAll options includer front s).2 := by
  induction front generalizing s with
  | nil => simp [visitAll, traceAll]
  | cons p front ih => simp [visitAll, traceAll, ih]

theorem visitBranches_append (front back : List Branch) (taken : Bool) (s : State) :
    visitBranches options includer taken (front ++ back) s =
      let before := visitBranches options includer taken front s
      let after := visitBranches options includer before.2.1 back before.2.2
      (before.1 ++ after.1, after.2) := by
  induction front generalizing taken s with
  | nil => simp [visitBranches]
  | cons b front ih =>
    obtain ⟨condition, body⟩ := b
    cases taken with
    | true => simp [visitBranches, ih, String.append_assoc]
    | false =>
      simp only [List.cons_append, visitBranches, ih]
      split <;> simp [String.append_assoc]

theorem traceBranches_append (front back : List Branch) (taken : Bool) (s : State) :
    traceBranches options includer taken (front ++ back) s = traceBranches options includer taken front s ++
      traceBranches options includer (visitBranches options includer taken front s).2.1 back
        (visitBranches options includer taken front s).2.2 := by
  induction front generalizing taken s with
  | nil => simp [visitBranches, traceBranches]
  | cons b front ih =>
    obtain ⟨condition, body⟩ := b
    cases taken with
    | true => simp [visitBranches, traceBranches, ih]
    | false =>
      simp only [List.cons_append, visitBranches, traceBranches, ih]
      split <;> simp

theorem length_traceAll (ps : List Particle) (s : State) : (traceAll options includer ps s).length = (stretchesAll ps).length := by
  rw [← @stretches_traceAll options includer ps s, List.length_map]

theorem length_trace (p : Particle) (s : State) : (trace options includer p s).length = p.stretches.length := by
  rw [← @stretches_trace options includer p s, List.length_map]

theorem length_traceBranches (branches : List Branch) (taken : Bool) (s : State) :
    (traceBranches options includer taken branches s).length = (branchStretches branches).length := by
  rw [← @stretches_traceBranches options includer branches taken s, List.length_map]

/-- What is skipped is not carried out. -/
theorem not_included_of_skip (stretches : List Stretch) (i : Nat) : (stretches.map skip)[i]? ≠ some (.included path' t) := by
  intro h
  obtain ⟨stretch, -, hstretch⟩ := List.getElem?_map .. ▸ h |> Option.map_eq_some_iff.mp
  cases stretch <;> cases hstretch

/-! ## Visits of spliced particles -/

/-- From states that differ at most in what their libraries remember an includer does the same. -/
def Steady (includer : Includer) : Prop := ∀ path t t', t.Like t' → Alike (includer path t) (includer path t')

theorem Steady.alikeOn (h : Steady includer) (steps : List Step) : AlikeOn includer includer steps := fun path t t' _ => h path t t'

/-- An include gives what the visit of some particles gives. -/
def PutsIn (options : Options) (includer : Includer) (path : String) (content : List Particle) (t : State) : Prop :=
  ∀ t', t.Like t' → Alike (includer path t) (visitAll options includer content t')

section

variable (hsteady : Steady includer)

include hsteady

mutual

/-- **Where an include is carried out, a visit goes over the spliced particles instead.** -/
theorem visitAll_spliced : ∀ {n : Nat} {ps qs : List Particle} {s s' : State}, Spliced path content n ps qs → s.Like s' →
    (traceAll options includer ps s)[n]? = some (.included path' t) →
    path' = path ∧ (PutsIn options includer path content t → Alike (visitAll options includer ps s) (visitAll options includer qs s'))
  | _, _, _, s, s', @Spliced.here _ _ front back span, hs, hstep => by
    obtain ⟨hfront, hbefore⟩ := visitAll_like front hs (hsteady.alikeOn _)
    rw [traceAll_append, ← length_traceAll front s, List.getElem?_append_right (Nat.le_refl _), Nat.sub_self, traceAll, trace] at hstep
    obtain ⟨hpath, hstate⟩ : path = path' ∧ (visitAll options includer front s).2 = t := by simpa using hstep
    refine ⟨hpath.symm, fun hputs => ?_⟩
    rw [← hstate] at hputs
    obtain ⟨hinside, hafter⟩ := hputs _ hbefore
    obtain ⟨hback, hlast⟩ := visitAll_like back hafter (hsteady.alikeOn _)
    rw [visitAll_append, visitAll_append, visitAll_append]
    simp only [visitAll, visit]
    rw [hfront, hinside, hback]
    exact ⟨by simp only [String.append_assoc], hlast⟩
  | _, _, _, s, s', @Spliced.within _ _ n front back p q h, hs, hstep => by
    obtain ⟨hfront, hbefore⟩ := visitAll_like front hs (hsteady.alikeOn _)
    rw [traceAll_append, ← length_traceAll front s, List.getElem?_append_right (Nat.le_add_right _ _), Nat.add_sub_cancel_left,
      traceAll, List.getElem?_append_left (by rw [length_trace]; exact h.lt)] at hstep
    obtain ⟨hpath, hvisit⟩ := visit_spliced h hbefore hstep
    refine ⟨hpath, fun hputs => ?_⟩
    obtain ⟨hinside, hafter⟩ := hvisit hputs
    obtain ⟨hback, hlast⟩ := visitAll_like back hafter (hsteady.alikeOn _)
    rw [visitAll_append, visitAll_append]
    simp only [visitAll]
    rw [hfront, hinside, hback]
    exact ⟨rfl, hlast⟩

theorem visit_spliced : ∀ {n : Nat} {p q : Particle} {s s' : State}, SplicedIn path content n p q → s.Like s' →
    (trace options includer p s)[n]? = some (.included path' t) →
    path' = path ∧ (PutsIn options includer path content t → Alike (visit options includer p s) (visit options includer q s'))
  | _, _, _, s, s', @SplicedIn.branches _ _ n bs cs none h, hs, hstep => by
    rw [trace, List.getElem?_append_left (by rw [length_traceBranches]; exact h.lt)] at hstep
    obtain ⟨hpath, hvisit⟩ := visitBranches_spliced h hs hstep
    refine ⟨hpath, fun hputs => ?_⟩
    obtain ⟨hout, -, hafter⟩ := hvisit hputs
    rw [visit, visit]
    exact ⟨congrArg (· ++ "\n") hout, hafter⟩
  | _, _, _, s, s', @SplicedIn.branches _ _ n bs cs (some body) h, hs, hstep => by
    simp only [trace, List.append_assoc] at hstep
    rw [List.getElem?_append_left (by rw [length_traceBranches]; exact h.lt)] at hstep
    obtain ⟨hpath, hvisit⟩ := visitBranches_spliced h hs hstep
    refine ⟨hpath, fun hputs => ?_⟩
    obtain ⟨hout, htaken, hafter⟩ := hvisit hputs
    obtain ⟨hbody, hlast⟩ := @visitAll_like options _ _ body _ _ hafter (hsteady.alikeOn _)
    simp only [visit]
    rw [← htaken, ← hout, hbody]
    split
    · exact ⟨rfl, hafter⟩
    · exact ⟨rfl, hlast⟩
  | _, _, _, s, s', @SplicedIn.otherwise _ _ n bs body body' h, hs, hstep => by
    obtain ⟨hout, htaken, hafter⟩ := visitBranches_like bs false hs (hsteady.alikeOn _)
    simp only [trace] at hstep
    rw [List.append_assoc, ← length_traceBranches bs false s, Nat.add_assoc,
      List.getElem?_append_right (Nat.le_add_right _ _), Nat.add_sub_cancel_left, List.cons_append, Nat.add_comm 1,
      List.getElem?_cons_succ] at hstep
    split at hstep <;> rename_i hbranch
    · rw [List.getElem?_append_left (by rw [List.length_map]; exact h.lt)] at hstep
      exact absurd hstep (not_included_of_skip _ _)
    · rw [List.getElem?_append_left (by rw [length_traceAll]; exact h.lt)] at hstep
      obtain ⟨hpath, hvisit⟩ := visitAll_spliced h hafter hstep
      refine ⟨hpath, fun hputs => ?_⟩
      obtain ⟨hbody, hlast⟩ := hvisit hputs
      simp only [visit]
      rw [← htaken, ← hout, if_neg hbranch, if_neg hbranch, hbody]
      exact ⟨rfl, hlast⟩

theorem visitBranches_spliced : ∀ {n : Nat} {bs cs : List Branch} {taken : Bool} {s s' : State},
    SplicedBranches path content n bs cs → s.Like s' → (traceBranches options includer taken bs s)[n]? = some (.included path' t) →
    path' = path ∧ (PutsIn options includer path content t →
      (visitBranches options includer taken bs s).1 = (visitBranches options includer taken cs s').1 ∧
        Alike (visitBranches options includer taken bs s).2 (visitBranches options includer taken cs s').2)
  | _, _, _, taken, s, s', @SplicedBranches.body _ _ n front back condition body body' h, hs, hstep => by
    obtain ⟨hfront, htaken, hbefore⟩ := @visitBranches_like options _ _ front taken _ _ hs (hsteady.alikeOn _)
    rw [traceBranches_append, ← length_traceBranches front taken s, Nat.add_assoc,
      List.getElem?_append_right (Nat.le_add_right _ _), Nat.add_sub_cancel_left, Nat.add_comm 1] at hstep
    simp only [visitBranches_append]
    rw [← htaken, ← hfront]
    cases hbranch : (visitBranches options includer taken front s).2.1 with
    | true =>
      rw [hbranch, traceBranches, List.cons_append, List.getElem?_cons_succ,
        List.getElem?_append_left (by rw [List.length_map]; exact h.lt)] at hstep
      exact absurd hstep (not_included_of_skip _ _)
    | false =>
      obtain ⟨hholds, hdecided⟩ := hbefore.decide options condition
      rw [hbranch] at hstep
      simp only [traceBranches] at hstep
      split at hstep <;> rename_i hcondition
      · rw [List.cons_append, List.getElem?_cons_succ, List.getElem?_append_left (by rw [length_traceAll]; exact h.lt)] at hstep
        obtain ⟨hpath, hvisit⟩ := visitAll_spliced h hdecided hstep
        refine ⟨hpath, fun hputs => ?_⟩
        obtain ⟨hbody, hinside⟩ := hvisit hputs
        obtain ⟨hback, hlast⟩ := @visitBranches_like options _ _ back true _ _ hinside (hsteady.alikeOn _)
        simp only [visitBranches]
        rw [← hholds, if_pos hcondition, if_pos hcondition, hbody, hback]
        exact ⟨rfl, hlast⟩
      · rw [List.cons_append, List.getElem?_cons_succ, List.getElem?_append_left (by rw [List.length_map]; exact h.lt)] at hstep
        exact absurd hstep (not_included_of_skip _ _)

end

end

/-! ## Files that end with a directive -/

/-- The output of a visit ends its last line, if the particles end with a directive and so does what is included. -/
theorem getLast?_visitAll {ps : List Particle} (hlast : (stretchesAll ps).getLast? = some .directive)
    (hinclude : ∀ path t, (includer path t).1.toList.getLast? = some '\n') :
    (visitAll options includer ps s).1.toList.getLast? = some '\n' := by
  obtain ⟨front, hfront⟩ := List.getLast?_eq_some_iff.mp hlast
  rw [← @stretches_traceAll options includer ps s] at hfront
  obtain ⟨steps, rest, hsteps, -, hrest⟩ := List.map_eq_append_iff.mp hfront
  obtain ⟨step, _, rfl, hstep, hnil⟩ := List.map_eq_cons_iff.mp hrest
  obtain rfl := List.map_eq_nil_iff.mp hnil
  have hout : (step.out options includer).getLast? = some '\n' := by
    cases step with
    | directive => rfl
    | «included» path t => exact hinclude path t
    | skipped text => cases hstep
    | expanded text macros => cases hstep
  rw [out_traceAll, hsteps, outOf_append, outOf_cons, outOf_nil, List.append_nil, List.getLast?_append, hout, Option.some_or]

theorem endsWith_iff (text : String) : text.endsWith "\n" = true ↔ text.toList.getLast? = some '\n' := by
  rw [String.endsWith_eq_endsWith_toSlice, String.Slice.endsWith_string_iff, String.copy_toSlice, List.getLast?_eq_some_iff]
  exact exists_congr fun front => eq_comm

theorem endLine_of_getLast? {text : String} (h : text.toList.getLast? = some '\n') : endLine text = text :=
  if_pos ((endsWith_iff text).mpr h)

theorem getLast?_endLine (text : String) : (endLine text).toList.getLast? = some '\n' := by
  rw [endLine]
  split <;> rename_i hends
  · exact (endsWith_iff text).mp hends
  · rw [String.toList_append]
    exact List.getLast?_concat

/-- What an include puts in ends its last line. -/
theorem getLast?_includeFile (levels : Nat) (path : String) (s : State) :
    (includeFile options levels path s).1.toList.getLast? = some '\n' := by
  have hblank : "\n".toList.getLast? = some '\n' := rfl
  cases levels with
  | zero => exact hblank
  | succ levels =>
    rw [includeFile, includeWith]
    split
    · exact hblank
    · split
      · exact hblank
      · rw [includeText]
        cases Directive.parse _ with
        | error e => exact hblank
        | ok ps => exact getLast?_endLine _

/-- **An include puts in what the visit of its file gives**, if the file ends with a directive and the limit is not reached. -/
theorem includeFile_content {levels : Nat} {r : Resource} {source : String} (hpath : Resource.ofPath path = .ok r)
    (hgives : s.library.Gives r source) (hparse : Directive.parse source = .ok content)
    (hlast : (stretchesAll content).getLast? = some .directive) (hlimit : ¬LimitReached options levels path s) :
    PutsIn options (includeFile options levels) path content s := by
  intro t hs
  cases levels with
  | zero => exact absurd trivial hlimit
  | succ levels =>
    have hsource : (s.library.resolve r).1 = .ok source := hgives.answer []
    have hresolved : State.Like { s with library := (s.library.resolve r).2 } t :=
      ⟨hs.macros, hs.version, hs.line, hs.log, (hgives.quiet []).trans hs.library⟩
    rw [show includeFile options (levels + 1) path s = includeWith options (includeFile options levels) path s from rfl,
      includeWith_of_parse hpath hsource hparse, endLine_of_getLast? (getLast?_visitAll hlast (getLast?_includeFile levels))]
    exact visitAll_like content hresolved fun path' _ _ hmem ht =>
      includeFile_succ levels path' (fun hreached => hlimit ⟨r, source, content, path', _, hpath, hsource, hparse, hmem, hreached⟩) ht

end ShaderFront.Preprocess
