import Mathlib
import ShaderFront.Proofs.Settling

/-!
# Expansions as runs of a machine

A machine goes from state to state by steps, until it has none. `Orderly` says that it comes to an end, that the names it keeps are
different and no more than a bound, and that it has the same names after something nested as before it.

An expansion is a run of a machine that holds the passes under way, innermost first, and the names of the macros whose bodies they
go over (`Macro.step`). A name is added where a pass is opened, and the last one is taken off where a pass is closed. Main statement:
these runs are orderly, and they end with the expansion of the text (`Macro.orderly`).
-/

namespace ShaderFront

/-! ## Runs -/

section Runs

variable {M : Type} {step : M → Option M} {P Q : M → Prop} {a b c : M}

/-- A machine gets from one state to another by steps. The states before the last one have a property. -/
inductive Leads (step : M → Option M) (P : M → Prop) : M → M → Prop
  | refl {a : M} : Leads step P a a
  | next {a b c : M} : P a → step a = some b → Leads step P b c → Leads step P a c

theorem Leads.single (ha : P a) (h : step a = some b) : Leads step P a b := .next ha h .refl

theorem Leads.trans (h : Leads step P a b) (h' : Leads step P b c) : Leads step P a c := by
  induction h with
  | refl => exact h'
  | next ha hstep _ ih => exact .next ha hstep (ih h')

theorem Leads.mono (h : Leads step P a b) (hPQ : ∀ m, P m → Q m) : Leads step Q a b := by
  induction h with
  | refl => exact .refl
  | next ha hstep _ ih => exact .next (hPQ _ ha) hstep ih

/-- What every step keeps holds of every state that is reached. -/
theorem Leads.keeps {I : M → Prop} (hI : ∀ {a b}, I a → step a = some b → I b) (h : Leads step P a b) (ha : I a) : I b := by
  induction h with
  | refl => exact ha
  | next _ hstep _ ih => exact ih (hI ha hstep)

/-- A machine that keeps some names comes from its start to its end. The names are always different, and there are never too many of
them. Where the machine goes deeper it comes back, and then it keeps the same names as before. -/
structure Orderly (step : M → Option M) (names : M → List String) (depth : M → Nat) (maxDepth : Nat) (start finish : M) : Prop where
  ends : Leads step (fun _ => True) start finish
  stops : step finish = none
  bounded : ∀ {m : M}, Leads step (fun _ => True) start m → (names m).Nodup ∧ (names m).length ≤ maxDepth
  restored : ∀ {m deeper : M}, Leads step (fun _ => True) start m → step m = some deeper → depth m < depth deeper →
    ∃ back, Leads step (fun between => depth m < depth between) deeper back ∧ depth back = depth m ∧ names back = names m

end Runs

namespace Macro

/-! ## The machine of an expansion -/

/-- A pass over a text: what it has put out, what is left of the text, and the line breaks that come after the replacement under way
inside of it. -/
structure Pass where
  out : List Char
  rest : List Char
  newlines : Nat := 0

/-- An expansion under way: its passes, innermost first, the names of the macros whose bodies they go over, and the messages so far. -/
structure Machine where
  passes : List Pass
  active : List String
  log : List Message

/-- The messages about a word itself. -/
def wordLog (scope : Scope) (word after : List Char) : List Message := (replaceWord (fun _ _ => ⟨[], []⟩) scope word after).log

/-- A pass goes over the word at its front. A macro that is replaced opens a pass over its replacement. -/
def stepWord (scope : Scope) (out word after : List Char) (passes : List Pass) (log : List Message) : Machine :=
  match verdict scope word after with
  | .becomes replacement consumed newlines =>
    ⟨⟨[], replacement, 0⟩ :: ⟨out, after.drop consumed, newlines⟩ :: passes, scope.active ++ [String.ofList word], log⟩
  | kept =>
    ⟨⟨out ++ (word ++ after.take kept.consumed), after.drop kept.consumed, 0⟩ :: passes, scope.active, log ++ wordLog scope word after⟩

/-- One step: over the piece at the front of the innermost pass, or out of that pass if it is at its end. -/
def step (macros : MacroTable) (maxDepth : Nat) : Machine → Option Machine
  | ⟨[], _, _⟩ => none
  | ⟨⟨out, [], _⟩ :: passes, active, log⟩ =>
    match passes with
    | [] => none
    | below :: passes =>
      some ⟨⟨below.out ++ (out ++ List.replicate below.newlines '\n'), below.rest, 0⟩ :: passes, active.dropLast, log⟩
  | ⟨⟨out, c :: rest, _⟩ :: passes, active, log⟩ =>
    let piece := c :: rest.take (pieceMore c rest)
    let after := rest.drop (pieceMore c rest)
    if isWordStart c then some (stepWord ⟨macros, maxDepth, active⟩ out piece after passes log)
    else some ⟨⟨out ++ piece, after, 0⟩ :: passes, active, log⟩

/-- The machine before the expansion of a text. -/
def Machine.start (text : List Char) : Machine := ⟨[⟨[], text, 0⟩], [], []⟩

/-- What the passes of a machine have put out, the outermost pass first, and the messages so far. -/
def Machine.result (m : Machine) : String × List Message := (String.ofList (m.passes.reverse.flatMap (·.out)), m.log)

/-- The number of passes under way. -/
def Machine.depth (m : Machine) : Nat := m.passes.length

/-! ## Messages of a pass -/

theorem log_replaceCall (inner : String → List Char → Expansion) (m : Macro) (parameters : List String) (word after : List Char) :
    (replaceCall inner m parameters word after).log =
      match callVerdict m parameters after with
      | .becomes replacement _ _ => (inner (String.ofList word) replacement).log
      | _ => (replaceCall (fun _ _ => ⟨[], []⟩) m parameters word after).log := by
  simp only [replaceCall, callVerdict]
  split
  · rename_i rest hdrop
    rw [hdrop]
    split
    · simp [keep, *]
    · split <;> simp [keep, *]
  · rename_i hdrop
    rw [readCall?_eq_none hdrop]

/-- A replacement has its own messages, any other word has the messages about itself. -/
theorem log_replaceWord (inner : String → List Char → Expansion) (scope : Scope) (word after : List Char) :
    (replaceWord inner scope word after).log =
      match verdict scope word after with
      | .becomes replacement _ _ => (inner (String.ofList word) replacement).log
      | _ => wordLog scope word after := by
  rw [wordLog, replaceWord, replaceWord, verdict]
  cases hm : scope.macros.get? (String.ofList word) with
  | none => rfl
  | some m =>
    by_cases hactive : String.ofList word ∈ scope.active
    · simp [hactive]
    · by_cases hdepth : scope.maxDepth ≤ scope.active.length
      · simp [hactive, hdepth]
      · simp only [hactive, hdepth, if_false, or_self]
        cases hparameters : m.parameters with
        | none => rfl
        | some parameters => exact log_replaceCall inner m parameters word after

section Pass

variable (inner : String → List Char → Expansion) (scope : Scope) {c : Char} (rest : List Char)

theorem log_expandWith_word (hc : isWordStart c = true) :
    let word := c :: rest.take (pieceMore c rest)
    let after := rest.drop (pieceMore c rest)
    (expandWith inner scope (c :: rest)).log =
      (replaceWord inner scope word after).log ++ (expandWith inner scope (after.drop (verdict scope word after).consumed)).log := by
  intro word after
  obtain ⟨-, hconsumed⟩ := replaceWord_spec inner scope word after
  rw [expandWith, commentLength?_of_ne (ne_slash_of_isWordStart hc)]
  simp only [isNumber_of_isWordStart hc, hc, if_true, ← pieceMore_of_isWordStart hc]
  simp only [Expansion.noting, Expansion.after, Bool.false_eq_true, if_false]
  rw [← hconsumed]

theorem log_expandWith_plain (hc : isWordStart c = false) :
    (expandWith inner scope (c :: rest)).log = (expandWith inner scope (rest.drop (pieceMore c rest))).log := by
  rw [expandWith, pieceMore]
  cases commentLength? (c :: rest) with
  | some n => simp [Expansion.after]
  | none =>
    by_cases hnumber : isNumber c rest = true
    · simp [Expansion.after, hnumber]
    · simp [Expansion.after, hnumber, hc]

end Pass

/-! ## The run of an expansion -/

variable {macros : MacroTable} {maxDepth : Nat}

/-- What the names of a machine are in every state. -/
structure Machine.Sound (maxDepth : Nat) (m : Machine) : Prop where
  nodup : m.active.Nodup
  bounded : m.active.length ≤ maxDepth

theorem Machine.Sound.push {maxDepth : Nat} {m : Machine} (h : m.Sound maxDepth) {name : String} (hname : name ∉ m.active)
    (hdepth : m.active.length < maxDepth) (passes : List Pass) (log : List Message) :
    Machine.Sound maxDepth ⟨passes, m.active ++ [name], log⟩ :=
  ⟨List.nodup_append.mpr ⟨h.nodup, List.nodup_singleton name, fun a ha b hb hab => hname (List.mem_singleton.mp hb ▸ hab ▸ ha)⟩,
    by simpa using hdepth⟩

/-- **Every step keeps the names different and bounded.** -/
theorem Machine.Sound.step {a b : Machine} (h : a.Sound maxDepth) (hstep : Macro.step macros maxDepth a = some b) :
    b.Sound maxDepth := by
  obtain ⟨passes, active, log⟩ := a
  match passes with
  | [] => cases hstep
  | [⟨out, [], newlines⟩] => cases hstep
  | ⟨out, [], newlines⟩ :: below :: passes =>
    cases hstep
    exact ⟨h.nodup.sublist (List.dropLast_sublist active), (List.dropLast_sublist active).length_le.trans h.bounded⟩
  | ⟨out, c :: rest, newlines⟩ :: passes =>
    rw [Macro.step] at hstep
    split at hstep
    · obtain rfl := Option.some.inj hstep
      unfold stepWord
      split
      · rename_i hv
        obtain ⟨-, -, hname, hdepth, -⟩ := verdict_becomes hv
        exact h.push hname hdepth _ _
      · exact ⟨h.nodup, h.bounded⟩
    · cases hstep
      exact ⟨h.nodup, h.bounded⟩

theorem step_word (scope : Scope) {c : Char} (hc : isWordStart c = true) (out rest : List Char) (newlines : Nat) (passes : List Pass)
    (log : List Message) : step scope.macros scope.maxDepth ⟨⟨out, c :: rest, newlines⟩ :: passes, scope.active, log⟩ =
      some (stepWord scope out (c :: rest.take (pieceMore c rest)) (rest.drop (pieceMore c rest)) passes log) := by
  simp [step, hc]

/-- A pass comes to its end if the passes over the replacements in it do. -/
theorem leads_expandWith (inner : String → List Char → Expansion) (scope : Scope)
    (hinner : scope.active.length < scope.maxDepth → ∀ (name : String) (replacement : List Char) (passes : List Pass) (log : List Message),
      ∃ newlines, Leads (step scope.macros scope.maxDepth) (fun m => passes.length < m.depth)
        ⟨⟨[], replacement, 0⟩ :: passes, scope.active ++ [name], log⟩
        ⟨⟨(inner name replacement).text, [], newlines⟩ :: passes, scope.active ++ [name], log ++ (inner name replacement).log⟩)
    (text out : List Char) (newlines : Nat) (passes : List Pass) (log : List Message) : ∃ newlines',
      Leads (step scope.macros scope.maxDepth) (fun m => passes.length < m.depth) ⟨⟨out, text, newlines⟩ :: passes, scope.active, log⟩
        ⟨⟨out ++ (expandWith inner scope text).text, [], newlines'⟩ :: passes, scope.active, log ++ (expandWith inner scope text).log⟩ := by
  induction hlength : text.length using Nat.strongRecOn generalizing text out newlines log with
  | ind length ih =>
  subst hlength
  have hdeep : ∀ p log, passes.length < (⟨p :: passes, scope.active, log⟩ : Machine).depth := fun _ _ => Nat.lt_succ_self _
  cases text with
  | nil => exact ⟨newlines, by simpa [expandWith] using Leads.refl⟩
  | cons c rest =>
    have hlt : ∀ n, ((rest.drop (pieceMore c rest)).drop n).length < (c :: rest).length := by
      intro n
      simp only [List.length_drop, List.length_cons]
      omega
    by_cases hc : isWordStart c = true
    · have hstep := step_word scope hc out rest newlines passes log
      have htext := text_expandWith_word inner scope rest hc
      have hlog := log_expandWith_word inner scope rest hc
      dsimp only at htext hlog
      rw [log_replaceWord] at hlog
      rw [htext, hlog]
      generalize c :: rest.take (pieceMore c rest) = word at *
      generalize rest.drop (pieceMore c rest) = after at *
      unfold stepWord at hstep
      cases hv : verdict scope word after with
      | stays =>
        rw [hv] at hstep
        obtain ⟨newlines', hrest⟩ := ih _ (hlt 0) (after.drop 0) (out ++ (word ++ after.take 0)) 0 (log ++ wordLog scope word after) rfl
        refine ⟨newlines', .next (hdeep _ _) hstep ?_⟩
        simpa [Verdict.text, Verdict.consumed] using hrest
      | keeps n =>
        rw [hv] at hstep
        obtain ⟨newlines', hrest⟩ := ih _ (hlt n) (after.drop n) (out ++ (word ++ after.take n)) 0 (log ++ wordLog scope word after) rfl
        refine ⟨newlines', .next (hdeep _ _) hstep ?_⟩
        simpa [Verdict.text, Verdict.consumed] using hrest
      | becomes replacement n lines =>
        rw [hv] at hstep
        obtain ⟨-, -, -, hdepth, -⟩ := verdict_becomes hv
        obtain ⟨newlines₁, hnested⟩ := hinner hdepth (String.ofList word) replacement (⟨out, after.drop n, lines⟩ :: passes) log
        obtain ⟨newlines₂, hrest⟩ := ih _ (hlt n) (after.drop n)
          (out ++ ((inner (String.ofList word) replacement).text ++ List.replicate lines '\n')) 0
          (log ++ (inner (String.ofList word) replacement).log) rfl
        refine ⟨newlines₂, .next (hdeep _ _) hstep ((hnested.mono fun m hm => Nat.lt_of_succ_lt hm).trans (.next ?_ rfl ?_))⟩
        · exact Nat.lt_add_of_pos_right Nat.two_pos
        · simpa [Verdict.text, Verdict.consumed] using hrest
    · have hc : isWordStart c = false := by simpa using hc
      have hstep : step scope.macros scope.maxDepth ⟨⟨out, c :: rest, newlines⟩ :: passes, scope.active, log⟩ =
          some ⟨⟨out ++ c :: rest.take (pieceMore c rest), rest.drop (pieceMore c rest), 0⟩ :: passes, scope.active, log⟩ := by
        simp [step, hc]
      obtain ⟨newlines', hrest⟩ := ih _ (hlt 0) (rest.drop (pieceMore c rest)) (out ++ c :: rest.take (pieceMore c rest)) 0 log rfl
      refine ⟨newlines', .next (hdeep _ _) hstep ?_⟩
      rw [text_expandWith_plain inner scope rest hc, log_expandWith_plain inner scope rest hc]
      simpa using hrest

/-- **A pass comes to its end**, and puts out the expansion of its text. The passes below it stay as they are, and so do the names. -/
theorem leads_expandLevels (macros : MacroTable) {maxDepth : Nat} : ∀ (levels : Nat) {active : List String},
    active.length + levels = maxDepth → ∀ (text out : List Char) (newlines : Nat) (passes : List Pass) (log : List Message),
    ∃ newlines', Leads (step macros maxDepth) (fun m => passes.length < m.depth) ⟨⟨out, text, newlines⟩ :: passes, active, log⟩
      ⟨⟨out ++ (expandLevels macros maxDepth levels active text).text, [], newlines'⟩ :: passes, active,
        log ++ (expandLevels macros maxDepth levels active text).log⟩
  | 0, active, hlevels => leads_expandWith _ ⟨macros, maxDepth, active⟩ fun hdepth => by
    have hdepth : active.length < maxDepth := hdepth
    omega
  | levels + 1, active, hlevels => leads_expandWith _ ⟨macros, maxDepth, active⟩ fun _ name replacement =>
    have hnested : (active ++ [name]).length + levels = maxDepth := by rw [List.length_append, List.length_singleton]; omega
    leads_expandLevels macros levels hnested replacement [] 0

/-- **Expansions are orderly runs.** -/
theorem orderly (macros : MacroTable) (maxDepth : Nat) (text : String) : ∃ finish : Machine,
    finish.result = expand macros maxDepth text ∧
      Orderly (step macros maxDepth) Machine.active Machine.depth maxDepth (.start text.toList) finish := by
  obtain ⟨newlines, hrun⟩ := @leads_expandLevels macros maxDepth maxDepth [] (Nat.zero_add maxDepth) text.toList [] 0 [] []
  have hsound : ∀ {m}, Leads (step macros maxDepth) (fun _ => True) (.start text.toList) m → m.Sound maxDepth := fun h =>
    h.keeps Machine.Sound.step ⟨List.nodup_nil, Nat.zero_le _⟩
  refine ⟨_, by simp [Machine.result, expand], hrun.mono fun _ _ => trivial, rfl, fun h => ⟨(hsound h).nodup, (hsound h).bounded⟩, ?_⟩
  intro m deeper hm hstep hdepth
  obtain ⟨passes, active, log⟩ := m
  rcases passes with _ | ⟨⟨out, unread, newlines⟩, passes⟩
  · cases hstep
  rcases unread with _ | ⟨c, rest⟩
  · rcases passes with _ | ⟨below, passes⟩
    · cases hstep
    · cases hstep
      exact absurd hdepth (by simp [Machine.depth])
  · rw [step] at hstep
    split at hstep
    · obtain rfl := Option.some.inj hstep
      unfold stepWord at hdepth ⊢
      split at hdepth
      · rename_i replacement consumed lines hv
        obtain ⟨-, -, -, hlt, -⟩ := verdict_becomes hv
        obtain ⟨levels, hlevels⟩ := Nat.exists_eq_add_of_lt hlt
        dsimp only at hlt hlevels ⊢
        obtain ⟨newlines', hnested⟩ := @leads_expandLevels macros maxDepth levels
          (active ++ [String.ofList (c :: rest.take (pieceMore c rest))])
          (by rw [List.length_append, List.length_singleton]; omega) replacement [] 0
          (⟨out, (rest.drop (pieceMore c rest)).drop consumed, lines⟩ :: passes) log
        refine ⟨_, hnested.trans (.single ?_ rfl), rfl, List.dropLast_concat⟩
        exact Nat.lt_succ_self _
      · exact absurd hdepth (by simp [Machine.depth])
    · cases hstep
      exact absurd hdepth (by simp [Machine.depth])

end Macro

end ShaderFront
