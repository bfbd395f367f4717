import Mathlib
import ShaderFront.Preprocess.Basic

/-!
# Inactive branches

Which branch of a conditional is taken depends on the macros at that point, and so on everything visited before.
`Agree` follows a visit of its first list and compares the second one with it: what is visited has to be the same, what is
skipped only has to occupy the same number of lines. A condition that is not looked at may be anything.

Main statement: `inactive_branches_ignored`. Output and state are those of the first list, whatever the skipped parts hold.
-/

namespace ShaderFront.Preprocess

open Directive (Particle Condition BranchOf lineCount)

section Agreement

variable (options : Options) (includer : Includer)

mutual

/-- Two lists of particles differ only in what is skipped when the first one is visited from a state. -/
inductive Agree : State → List Particle → List Particle → Prop
  | nil {s : State} : Agree s [] []
  | cons {s : State} {p q : Particle} {ps qs : List Particle} : AgreeAt s p q →
      Agree (visit options includer p s).2 ps qs → Agree s (p :: ps) (q :: qs)

/-- Two particles differ only in what is skipped when the first one is visited from a state. -/
inductive AgreeAt : State → Particle → Particle → Prop
  | same {s : State} {p : Particle} : AgreeAt s p p
  | conditional {s : State} {bs cs : List (BranchOf Particle)} : AgreeIn false s bs cs →
      AgreeAt s (.conditional bs none) (.conditional cs none)
  /-- A branch was taken, so the body of `#else` is skipped. -/
  | skipped {s : State} {bs cs : List (BranchOf Particle)} {body body' : List Particle} : AgreeIn false s bs cs →
      (visitBranches options includer false bs s).2.1 = true → lineCount body = lineCount body' →
      AgreeAt s (.conditional bs (some body)) (.conditional cs (some body'))
  /-- No branch was taken, so the body of `#else` is visited. -/
  | otherwise {s : State} {bs cs : List (BranchOf Particle)} {body body' : List Particle} : AgreeIn false s bs cs →
      (visitBranches options includer false bs s).2.1 = false →
      Agree (visitBranches options includer false bs s).2.2 body body' →
      AgreeAt s (.conditional bs (some body)) (.conditional cs (some body'))

/-- Two lists of branches differ only in what is skipped when the first one is visited from a state, given whether a branch
was taken before. -/
inductive AgreeIn : Bool → State → List (BranchOf Particle) → List (BranchOf Particle) → Prop
  | nil {taken : Bool} {s : State} : AgreeIn taken s [] []
  /-- After a branch was taken neither the condition nor the body counts. -/
  | past {s : State} {condition condition' : Condition} {body body' : List Particle} {bs cs : List (BranchOf Particle)} :
      lineCount body = lineCount body' → AgreeIn true s bs cs →
      AgreeIn true s (⟨condition, body⟩ :: bs) (⟨condition', body'⟩ :: cs)
  | fails {s : State} {condition : Condition} {body body' : List Particle} {bs cs : List (BranchOf Particle)} :
      (s.decide options condition).1 = false → lineCount body = lineCount body' →
      AgreeIn false (s.decide options condition).2 bs cs →
      AgreeIn false s (⟨condition, body⟩ :: bs) (⟨condition, body'⟩ :: cs)
  | holds {s : State} {condition : Condition} {body body' : List Particle} {bs cs : List (BranchOf Particle)} :
      (s.decide options condition).1 = true → Agree (s.decide options condition).2 body body' →
      AgreeIn true (visitAll options includer body (s.decide options condition).2).2 bs cs →
      AgreeIn false s (⟨condition, body⟩ :: bs) (⟨condition, body'⟩ :: cs)

end

end Agreement

variable {options : Options} {includer : Includer}

/-! ## Visits of lists that agree -/

mutual

/-- Particles that agree have the same output and lead to the same state. -/
theorem AgreeAt.visit_eq : ∀ {s : State} {p q : Particle}, AgreeAt options includer s p q →
    visit options includer p s = visit options includer q s
  | _, _, _, .same => rfl
  | _, _, _, .conditional hbranches => by
    simp only [visit]
    rw [hbranches.visitBranches_eq]
  | _, _, _, .skipped hbranches htaken hlines => by
    rw [hbranches.visitBranches_eq] at htaken
    simp only [visit]
    rw [hbranches.visitBranches_eq, if_pos htaken, if_pos htaken, hlines]
  | _, _, _, .otherwise hbranches htaken hbody => by
    have hbody := hbody.visitAll_eq
    rw [hbranches.visitBranches_eq] at htaken hbody
    simp only [visit]
    rw [hbranches.visitBranches_eq, htaken, if_neg Bool.false_ne_true, if_neg Bool.false_ne_true, hbody]

theorem Agree.visitAll_eq : ∀ {s : State} {ps qs : List Particle}, Agree options includer s ps qs →
    visitAll options includer ps s = visitAll options includer qs s
  | _, _, _, .nil => rfl
  | _, _, _, .cons hp hps => by
    have hps := hps.visitAll_eq
    rw [hp.visit_eq] at hps
    simp only [visitAll]
    rw [hp.visit_eq, hps]

theorem AgreeIn.visitBranches_eq : ∀ {taken : Bool} {s : State} {bs cs : List (BranchOf Particle)},
    AgreeIn options includer taken s bs cs → visitBranches options includer taken bs s = visitBranches options includer taken cs s
  | _, _, _, _, .nil => rfl
  | _, _, _, _, .past hlines hrest => by
    simp only [visitBranches]
    rw [hrest.visitBranches_eq, hlines]
  | _, _, _, _, .fails hcondition hlines hrest => by
    simp only [visitBranches]
    rw [hcondition, if_neg Bool.false_ne_true, if_neg Bool.false_ne_true, hrest.visitBranches_eq, hlines]
  | _, _, _, _, .holds hcondition hbody hrest => by
    have hrest := hrest.visitBranches_eq
    rw [hbody.visitAll_eq] at hrest
    simp only [visitBranches]
    rw [hcondition, if_pos rfl, if_pos rfl, hbody.visitAll_eq, hrest]

end

/-- **Inactive branches have no influence.** Two lists of particles that differ only in bodies that are not visited, and in
conditions after a branch that was taken, have the same output and lead to the same state. -/
theorem inactive_branches_ignored (options : Options) (includer : Includer) (s : State) (ps qs : List Particle)
    (h : Agree options includer s ps qs) :
    visitAll options includer ps s = visitAll options includer qs s :=
  h.visitAll_eq

/-- Defines `A`, and then takes the second of three branches, which undefines `A` again. The particle is skipped four times,
once inside the branch that is taken, and the condition is not looked at. -/
def guarding (skipped : Particle) (condition : Condition) : List Particle :=
  [.define ⟨"A", none, "1"⟩,
    .conditional
      [⟨ Condition.ifdef "B", [skipped]⟩,
        ⟨ Condition.ifdef "A", [ Particle.undef "A", .conditional [⟨ Condition.ifdef "A", [skipped]⟩] none]⟩,
        ⟨condition, [skipped]⟩]
      (some [skipped])]

theorem agree_guarding {p q : Particle} (hlines : lineCount [p] = lineCount [q]) (c d : Condition) :
    Agree {} includer (.initial {} .none) (guarding p c) (guarding q d) := by
  have hinner : ∀ s : State, (s.decide {} ( Condition.ifdef "A")).1 = false →
      AgreeAt {} includer s (.conditional [⟨ Condition.ifdef "A", [p]⟩] none)
        (.conditional [⟨ Condition.ifdef "A", [q]⟩] none) :=
    fun s hs => .conditional (.fails hs hlines .nil)
  refine .cons .same (.cons (.skipped (.fails rfl hlines (.holds rfl ?_ (.past hlines .nil))) ?_ hlines) .nil)
  · exact .cons .same (.cons (hinner _ rfl) .nil)
  · rfl

/-- A definition and a division by zero leave no trace where they are skipped. -/
theorem inactive_branches_ignored_guarding :
    let divides := Condition.holds (.binary .divide (.int 1) (.int 0))
    let defines := Particle.define ⟨"B", none, "1"⟩
    Agree {} (includeFile {} 16) (.initial {} .none) (guarding .null ( Condition.ifdef "C")) (guarding defines divides) ∧
      visitAll {} (includeFile {} 16) (guarding .null ( Condition.ifdef "C")) (.initial {} .none) =
        visitAll {} (includeFile {} 16) (guarding defines divides) (.initial {} .none) :=
  have hlines : lineCount [.null] = lineCount [.define ⟨"B", none, "1"⟩] := rfl
  ⟨agree_guarding hlines _ _, inactive_branches_ignored _ _ _ _ _ (agree_guarding hlines _ _)⟩

end ShaderFront.Preprocess
