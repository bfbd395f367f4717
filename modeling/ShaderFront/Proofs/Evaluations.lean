import Mathlib
import ShaderFront.Directive.Evaluate
import ShaderFront.Proofs.Machines

/-!
# Evaluations as runs of a machine

An evaluation is a run of a machine that holds an expression or its value, and what waits for the value (`Directive.step`). A macro
is evaluated as the expression its body reads as, so the expressions that are still to come are not known beforehand; its name is
kept as long. Main statement: expansions and evaluations come to an end, whatever the macros (`runs_end`).
-/

namespace ShaderFront

namespace Directive

/-! ## The machine of an evaluation -/

/-- What waits for a value. -/
inductive Waiting where
  | unary (operator : UnaryOperator)
  /-- The right operand comes next. -/
  | left (operator : BinaryOperator) (right : Expression)
  | right (operator : BinaryOperator) (left : Int64)
  /-- The call of a macro, with the values of its arguments so far and the arguments to come. -/
  | argument (name : String) (parameters : List String) (body : String) (values : List Int64) (rest : List Expression)
  /-- The body of a macro is evaluated, and its name is kept. -/
  | body

/-- What a machine is at: an expression or its value. -/
inductive Focus where
  | expression (e : Expression)
  | value (v : Int64)

/-- An evaluation under way: what it is at, what waits for the value, innermost first, the names of the macros whose bodies are
evaluated, and the messages so far. -/
structure Machine where
  focus : Focus
  waiting : List Waiting
  active : List String
  log : List Message

/-- The number of bodies among what waits. -/
def bodyCount (waiting : List Waiting) : Nat := waiting.countP fun w => w matches .body

namespace Machine

/-- The machine before the evaluation of an expression. -/
def start (e : Expression) : Machine := ⟨.expression e, [], [], []⟩

/-- The machine after an evaluation. -/
def finish (e : Evaluation) : Machine := ⟨.value e.value, [], [], e.log⟩

/-- The number of macros whose bodies are evaluated. -/
def depth (m : Machine) : Nat := bodyCount m.waiting

/-- The value 0 and a message why. -/
def fail (waiting : List Waiting) (active : List String) (log : List Message) (message : String) : Machine :=
  ⟨.value 0, waiting, active, log ++ [.error message]⟩

/-- The machine goes on with what the text of a macro reads as. -/
def enterRead (waiting : List Waiting) (active : List String) (log : List Message) (name : String) :
    Except LanguageError Expression → Machine
  | .ok e => ⟨.expression e, .body :: waiting, active ++ [name], log⟩
  | .error e => fail waiting active log s!"macro `{name}` is not an integer expression: {e.message}"

/-- The machine goes on with the text that a macro stands for. -/
def enter (waiting : List Waiting) (active : List String) (log : List Message) (name text : String) : Machine :=
  enterRead waiting active log name (parseExpression text)

/-- The machine goes on with the next argument of a call, or with the body of the macro if there is none. -/
def argue (waiting : List Waiting) (active : List String) (log : List Message) (name : String) (parameters : List String) (body : String)
    (values : List Int64) : List Expression → Machine
  | [] => enter waiting active log name (String.ofList (Macro.substitute parameters (values.map argumentText) body.toList))
  | e :: rest => ⟨.expression e, .argument name parameters body values rest :: waiting, active, log⟩

end Machine

/-- The step from an expression. -/
def stepExpression (scope : Scope) (waiting : List Waiting) (log : List Message) : Expression → Machine
  | .int v => ⟨.value v, waiting, scope.active, log⟩
  | .defined name => ⟨.value (ofBool (scope.macros.isDefined name)), waiting, scope.active, log⟩
  | .object name =>
    match admitted scope name with
    | .error message => .fail waiting scope.active log message
    | .ok m =>
      match m.parameters with
      | none => .enter waiting scope.active log name m.body
      | some _ => .fail waiting scope.active log s!"function-like macro `{name}` used without arguments"
  | .call name arguments =>
    match callee scope name arguments.length with
    | .error message => .fail waiting scope.active log message
    | .ok (parameters, body) => .argue waiting scope.active log name parameters body [] arguments
  | .unary operator operand => ⟨.expression operand, .unary operator :: waiting, scope.active, log⟩
  | .binary operator left right => ⟨.expression left, .left operator right :: waiting, scope.active, log⟩

/-- The value of a logical operation that does not need its right operand. -/
def decided? : BinaryOperator → Int64 → Option Int64
  | .logicalAnd, v => if v = 0 then some 0 else none
  | .logicalOr, v => if v ≠ 0 then some 1 else none
  | _, _ => none

/-- The step from a value to what waits for it. -/
def stepValue (v : Int64) (waiting : List Waiting) (active : List String) (log : List Message) : Waiting → Machine
  | .unary operator => ⟨.value (operator.apply v), waiting, active, log⟩
  | .left operator right =>
    match decided? operator v with
    | some v => ⟨.value v, waiting, active, log⟩
    | none => ⟨.expression right, .right operator v :: waiting, active, log⟩
  | .right operator left =>
    let e := binaryValue operator left v
    ⟨.value e.value, waiting, active, log ++ e.log⟩
  | .argument name parameters body values rest => .argue waiting active log name parameters body (values ++ [v]) rest
  | .body => ⟨.value v, waiting, active.dropLast, log⟩

/-- One step. A value that nothing waits for is the end. -/
def step (macros : MacroTable) (maxDepth : Nat) : Machine → Option Machine
  | ⟨.expression e, waiting, active, log⟩ => some (stepExpression ⟨macros, maxDepth, active⟩ waiting log e)
  | ⟨.value v, w :: waiting, active, log⟩ => some (stepValue v waiting active log w)
  | ⟨.value _, [], _, _⟩ => none

variable {macros : MacroTable} {maxDepth : Nat} {scope : Scope} {name body text : String} {parameters : List String}
  {waiting : List Waiting} {active : List String} {log : List Message}

theorem bodyCount_le (w : Waiting) (waiting : List Waiting) : bodyCount waiting ≤ bodyCount (w :: waiting) := by
  rw [bodyCount, bodyCount, List.countP_cons]
  exact Nat.le_add_right _ _

theorem bodyCount_body (waiting : List Waiting) : bodyCount (.body :: waiting) = bodyCount waiting + 1 := List.countP_cons_of_pos rfl

/-- Where the body of a macro has a value, the name of the macro is taken off. -/
theorem step_body (v : Int64) : step macros maxDepth ⟨.value v, .body :: waiting, active ++ [name], log⟩ =
    some ⟨.value v, waiting, active, log⟩ := by
  rw [step, stepValue, List.dropLast_concat]

/-! ## Names -/

/-- Whether a macro may be evaluated beside those whose names are kept. -/
def Open (maxDepth : Nat) (active : List String) (name : String) : Prop := name ∉ active ∧ active.length < maxDepth

theorem open_of_admitted {m : Macro} (h : admitted scope name = .ok m) : Open scope.maxDepth scope.active name := by
  unfold admitted at h
  split at h
  · cases h
  · split at h
    · cases h
    · rename_i hactive
      split at h
      · cases h
      · rename_i hdepth
        exact ⟨hactive, Nat.lt_of_not_le hdepth⟩

theorem open_of_callee {count : Nat} (h : callee scope name count = .ok (parameters, body)) : Open scope.maxDepth scope.active name := by
  unfold callee at h
  split at h
  · cases h
  · rename_i hadmitted
    exact open_of_admitted hadmitted

/-- The names are those of the bodies that wait, outermost first. Each of them could be added when it was, and so can that of a call
whose arguments are evaluated. -/
def Kept (maxDepth : Nat) : List Waiting → List String → Prop
  | [], active => active = []
  | w :: waiting, active =>
    match w with
    | .body => ∃ below name, active = below ++ [name] ∧ Open maxDepth below name ∧ Kept maxDepth waiting below
    | .argument name _ _ _ _ => Open maxDepth active name ∧ Kept maxDepth waiting active
    | _ => Kept maxDepth waiting active

theorem Kept.bounded (h : Kept maxDepth waiting active) : active.Nodup ∧ active.length ≤ maxDepth := by
  induction waiting generalizing active with
  | nil =>
    obtain rfl : active = [] := h
    exact ⟨List.nodup_nil, Nat.zero_le _⟩
  | cons w waiting ih =>
    cases w with
    | body =>
      obtain ⟨below, name, rfl, hopen, h⟩ := h
      refine ⟨List.nodup_append.mpr ⟨(ih h).1, List.nodup_singleton name, fun a ha b hb hab => hopen.1 ?_⟩, ?_⟩
      · rwa [← List.mem_singleton.mp hb, ← hab]
      · rw [List.length_append, List.length_singleton]
        exact hopen.2
    | argument name parameters body values rest => exact ih h.2
    | unary operator => exact ih h
    | left operator right => exact ih h
    | right operator left => exact ih h

/-- What `Kept` says of a machine. -/
abbrev Machine.Kept (maxDepth : Nat) (m : Machine) : Prop := Directive.Kept maxDepth m.waiting m.active

theorem Kept.enter (h : Kept maxDepth waiting active) (hopen : Open maxDepth active name) (log : List Message) (text : String) :
    (Machine.enter waiting active log name text).Kept maxDepth := by
  rw [Machine.enter]
  cases parseExpression text with
  | ok e => exact ⟨active, name, rfl, hopen, h⟩
  | error e => exact h

theorem Kept.argue (h : Kept maxDepth waiting active) (hopen : Open maxDepth active name) (log : List Message) (parameters : List String)
    (body : String) (values : List Int64) (rest : List Expression) :
    (Machine.argue waiting active log name parameters body values rest).Kept maxDepth := by
  cases rest with
  | nil => exact h.enter hopen log _
  | cons e rest => exact ⟨hopen, h⟩

theorem Kept.stepExpression (h : Kept scope.maxDepth waiting scope.active) (e : Expression) :
    (stepExpression scope waiting log e).Kept scope.maxDepth := by
  cases e with
  | int v => exact h
  | defined name => exact h
  | object name =>
    rw [Directive.stepExpression]
    split
    · exact h
    · rename_i hadmitted
      split
      · exact h.enter (open_of_admitted hadmitted) _ _
      · exact h
  | call name arguments =>
    rw [Directive.stepExpression]
    split
    · exact h
    · rename_i hcallee
      exact h.argue (open_of_callee hcallee) _ _ _ _ _
  | unary operator operand => exact h
  | binary operator left right => exact h

theorem Kept.stepValue {v : Int64} {w : Waiting} (h : Kept maxDepth (w :: waiting) active) :
    (stepValue v waiting active log w).Kept maxDepth := by
  cases w with
  | unary operator => exact h
  | left operator right =>
    rw [Directive.stepValue]
    cases decided? operator v with
    | some v => exact h
    | none => exact h
  | right operator left => exact h
  | argument name parameters body values rest => exact Kept.argue h.2 h.1 _ _ _ _ _
  | body =>
    obtain ⟨below, name, rfl, -, h⟩ := h
    rw [Directive.stepValue, Machine.Kept, List.dropLast_concat]
    exact h

/-- **Every step keeps the names those of the bodies that wait.** -/
theorem Machine.Kept.step {a b : Machine} (h : a.Kept maxDepth) (hstep : Directive.step macros maxDepth a = some b) : b.Kept maxDepth := by
  obtain ⟨focus, waiting, active, log⟩ := a
  match focus, waiting with
  | .expression e, waiting =>
    cases hstep
    exact @Kept.stepExpression ⟨macros, maxDepth, active⟩ waiting log h e
  | .value v, [] => cases hstep
  | .value v, w :: waiting =>
    cases hstep
    exact Kept.stepValue h

/-! ## The run of an evaluation -/

/-- The right operand is evaluated unless the left one decides. -/
theorem evaluateWith_binary (inner : String → Expression → Evaluation) (scope : Scope) (operator : BinaryOperator)
    (left right : Expression) : evaluateWith inner scope (.binary operator left right) =
      let l := evaluateWith inner scope left
      match decided? operator l.value with
      | some v => { l with value := v }
      | none =>
        let r := evaluateWith inner scope right
        (binaryValue operator l.value r.value).noting (l.log ++ r.log) := by
  cases operator with
  | logicalAnd =>
    by_cases h : (evaluateWith inner scope left).value = 0
    · simp [evaluateWith, decided?, h]
    · simp [evaluateWith, decided?, h, binaryValue, BinaryOperator.apply, Evaluation.noting]
  | logicalOr =>
    by_cases h : (evaluateWith inner scope left).value = 0
    · simp [evaluateWith, decided?, h, binaryValue, BinaryOperator.apply, Evaluation.noting]
    · simp [evaluateWith, decided?, h]
  | _ => simp only [evaluateWith, decided?]

theorem noting_nil (e : Evaluation) : e.noting [] = e := rfl

theorem noting_noting (e : Evaluation) (front back : List Message) : (e.noting back).noting front = e.noting (front ++ back) := by
  simp [Evaluation.noting]

section Level

variable (inner : String → Expression → Evaluation) (scope : Scope)
  (hinner : scope.active.length < scope.maxDepth → ∀ (name : String) (e : Expression) (waiting : List Waiting) (log : List Message),
    Leads (step scope.macros scope.maxDepth) (fun m => bodyCount waiting < m.depth)
      ⟨.expression e, .body :: waiting, scope.active ++ [name], log⟩
      ⟨.value (inner name e).value, waiting, scope.active, log ++ (inner name e).log⟩)

/-- A machine comes to a value and notes some messages, with the names of a scope. What waits is not touched before. -/
abbrev Comes (waiting : List Waiting) (m : Machine) (log : List Message) (result : Evaluation) : Prop :=
  Leads (step scope.macros scope.maxDepth) (fun m => bodyCount waiting ≤ m.depth) m
    ⟨.value result.value, waiting, scope.active, log ++ result.log⟩

theorem comes_value (waiting : List Waiting) (v : Int64) (log : List Message) :
    Comes scope waiting ⟨.value v, waiting, scope.active, log⟩ log ⟨v, []⟩ := by
  rw [Comes, List.append_nil]
  exact .refl

theorem comes_noting {waiting : List Waiting} {m : Machine} {log more : List Message} {result : Evaluation}
    (h : Comes scope waiting m (log ++ more) result) : Comes scope waiting m log (result.noting more) := by
  rw [Comes, Evaluation.noting, ← List.append_assoc]
  exact h

include hinner

theorem leads_enter (hdepth : scope.active.length < scope.maxDepth) (waiting : List Waiting) (log : List Message) (name text : String) :
    Comes scope waiting (.enter waiting scope.active log name text) log (evaluateBody inner name text) := by
  rw [Machine.enter, evaluateBody]
  cases parseExpression text with
  | error e => exact .refl
  | ok e => exact (hinner hdepth name e waiting log).mono fun _ => Nat.le_of_lt

mutual

/-- An evaluation comes to its end if those of the bodies of macros in it do. -/
theorem leads_expression (waiting : List Waiting) (log : List Message) : ∀ e : Expression,
    Comes scope waiting ⟨.expression e, waiting, scope.active, log⟩ log (evaluateWith inner scope e)
  | .int v => by
    rw [evaluateWith]
    exact .next le_rfl rfl (comes_value scope waiting v log)
  | .defined name => by
    rw [evaluateWith]
    exact .next le_rfl rfl (comes_value scope waiting _ log)
  | .object name => by
    refine .next le_rfl rfl ?_
    rw [evaluateWith, evaluateObject, stepExpression]
    cases hadmitted : admitted scope name with
    | error message => exact .refl
    | ok m =>
      dsimp only
      cases m.parameters with
      | none => exact leads_enter inner scope hinner (open_of_admitted hadmitted).2 waiting log name m.body
      | some parameters => exact .refl
  | .call name arguments => by
    refine .next le_rfl rfl ?_
    rw [evaluateWith, stepExpression]
    cases hcallee : callee scope name arguments.length with
    | error message => exact .refl
    | ok found => exact leads_arguments (open_of_callee hcallee).2 waiting name found.1 found.2 arguments [] log
  | .unary operator operand => by
    have hoperand := leads_expression (.unary operator :: waiting) log operand
    rw [evaluateWith]
    exact .next le_rfl rfl (hoperand.trans (.single le_rfl rfl))
  | .binary operator left right => by
    have hleft := leads_expression (.left operator right :: waiting) log left
    refine .next le_rfl rfl (hleft.trans (.next le_rfl rfl ?_))
    rw [evaluateWith_binary, stepValue]
    dsimp only
    cases decided? operator (evaluateWith inner scope left).value with
    | some v => exact .refl
    | none =>
      have hright := leads_expression (.right operator (evaluateWith inner scope left).value :: waiting)
        (log ++ (evaluateWith inner scope left).log) right
      refine hright.trans (.next le_rfl rfl ?_)
      rw [stepValue, List.append_assoc log]
      exact @comes_noting scope waiting _ _ _ (binaryValue _ _ _) .refl

/-- The arguments of a call are evaluated in order, and the body of its macro after them. -/
theorem leads_arguments (hdepth : scope.active.length < scope.maxDepth) (waiting : List Waiting) (name : String)
    (parameters : List String) (body : String) : ∀ (rest : List Expression) (values : List Int64) (log : List Message),
    Comes scope waiting (.argue waiting scope.active log name parameters body values rest) log
      ((evaluateBody inner name (String.ofList (Macro.substitute parameters
        ((values ++ (evaluateAll inner scope rest).1).map argumentText) body.toList))).noting (evaluateAll inner scope rest).2)
  | [], values, log => by
    rw [evaluateAll, List.append_nil, noting_nil]
    exact leads_enter inner scope hinner hdepth waiting log name _
  | e :: rest, values, log => by
    have he := leads_expression (.argument name parameters body values rest :: waiting) log e
    have hrest := comes_noting scope (leads_arguments hdepth waiting name parameters body rest
      (values ++ [(evaluateWith inner scope e).value]) (log ++ (evaluateWith inner scope e).log))
    rw [noting_noting, List.append_assoc, List.singleton_append] at hrest
    rw [evaluateAll]
    refine he.trans (.next le_rfl rfl ?_)
    rw [stepValue]
    generalize evaluateAll inner scope rest = found at hrest ⊢
    obtain ⟨values', log'⟩ := found
    exact hrest

end

end Level

/-- **An evaluation comes to its end.** What waits below stays as it is, and so do the names. -/
theorem leads_evaluateLevels (macros : MacroTable) {maxDepth : Nat} : ∀ (levels : Nat) {active : List String},
    active.length + levels = maxDepth → ∀ (waiting : List Waiting) (log : List Message) (e : Expression),
    Leads (step macros maxDepth) (fun m => bodyCount waiting ≤ m.depth) ⟨.expression e, waiting, active, log⟩
      ⟨.value (evaluateLevels macros maxDepth levels active e).value, waiting, active,
        log ++ (evaluateLevels macros maxDepth levels active e).log⟩
  | 0, active, hlevels => leads_expression _ ⟨macros, maxDepth, active⟩ fun hdepth => by
    have hdepth : active.length < maxDepth := hdepth
    omega
  | levels + 1, active, hlevels => leads_expression _ ⟨macros, maxDepth, active⟩ fun _ name e waiting log => by
    have hlevels : (active ++ [name]).length + levels = maxDepth := by rw [List.length_append, List.length_singleton]; omega
    have hnested := leads_evaluateLevels macros levels hlevels (.body :: waiting) log e
    refine (hnested.mono fun m hm => ?_).trans (.single ?_ (step_body _))
    · rwa [bodyCount_body] at hm
    · rw [Machine.depth, bodyCount_body]
      exact Nat.lt_succ_self _

/-! ## The names of a run -/

theorem enter_deeper (h : bodyCount waiting < (Machine.enter waiting active log name text).depth) :
    ∃ e, Machine.enter waiting active log name text = ⟨.expression e, .body :: waiting, active ++ [name], log⟩ := by
  rw [Machine.enter] at h ⊢
  cases hread : parseExpression text with
  | ok e => exact ⟨e, rfl⟩
  | error e =>
    rw [hread] at h
    exact absurd h (Nat.lt_irrefl _)

theorem argue_deeper {values : List Int64} {rest : List Expression}
    (h : bodyCount waiting < (Machine.argue waiting active log name parameters body values rest).depth) :
    ∃ e, Machine.argue waiting active log name parameters body values rest =
      ⟨.expression e, .body :: waiting, active ++ [name], log⟩ := by
  cases rest with
  | nil => exact enter_deeper h
  | cons e rest => exact absurd h (Nat.lt_irrefl _)

/-- A machine goes deeper where it goes on with the body of a macro. -/
theorem step_deeper {a b : Machine} (hstep : step macros maxDepth a = some b) (hdepth : a.depth < b.depth) :
    ∃ e waiting name log, b = ⟨.expression e, .body :: waiting, a.active ++ [name], log⟩ ∧ bodyCount waiting = a.depth := by
  obtain ⟨focus, waiting, active, log⟩ := a
  match focus, waiting with
  | .expression e, waiting =>
    obtain rfl := Option.some.inj hstep
    cases e with
    | object name =>
      rw [stepExpression] at hdepth ⊢
      cases hadmitted : admitted ⟨macros, maxDepth, active⟩ name with
      | error message =>
        rw [hadmitted] at hdepth
        exact absurd hdepth (Nat.lt_irrefl _)
      | ok m =>
        rw [hadmitted] at hdepth
        dsimp only at hdepth ⊢
        cases hparameters : m.parameters with
        | none =>
          rw [hparameters] at hdepth
          obtain ⟨e, henter⟩ := enter_deeper hdepth
          exact ⟨e, waiting, name, log, henter, rfl⟩
        | some parameters =>
          rw [hparameters] at hdepth
          exact absurd hdepth (Nat.lt_irrefl _)
    | call name arguments =>
      rw [stepExpression] at hdepth ⊢
      cases hcallee : callee ⟨macros, maxDepth, active⟩ name arguments.length with
      | error message =>
        rw [hcallee] at hdepth
        exact absurd hdepth (Nat.lt_irrefl _)
      | ok found =>
        rw [hcallee] at hdepth
        obtain ⟨e, hargue⟩ := argue_deeper hdepth
        exact ⟨e, waiting, name, log, hargue, rfl⟩
    | int v => exact absurd hdepth (Nat.lt_irrefl _)
    | defined name => exact absurd hdepth (Nat.lt_irrefl _)
    | unary operator operand => exact absurd hdepth (Nat.lt_irrefl _)
    | binary operator left right => exact absurd hdepth (Nat.lt_irrefl _)
  | .value v, [] => cases hstep
  | .value v, w :: waiting =>
    obtain rfl := Option.some.inj hstep
    cases w with
    | argument name parameters body values rest =>
      have hdepth : bodyCount waiting < (Machine.argue waiting active log name parameters body (values ++ [v]) rest).depth := hdepth
      obtain ⟨e, hargue⟩ := argue_deeper hdepth
      exact ⟨e, waiting, name, log, hargue, rfl⟩
    | left operator right =>
      rw [stepValue] at hdepth
      cases hdecided : decided? operator v <;> rw [hdecided] at hdepth <;> exact absurd hdepth (Nat.lt_irrefl _)
    | unary operator => exact absurd hdepth (Nat.lt_irrefl _)
    | right operator left => exact absurd hdepth (Nat.lt_irrefl _)
    | body => exact absurd hdepth (Nat.not_lt.mpr (bodyCount_le _ _))

/-- **Evaluations are orderly runs.** -/
theorem orderly (macros : MacroTable) (maxDepth : Nat) (e : Expression) :
    Orderly (step macros maxDepth) Machine.active Machine.depth maxDepth (.start e) (.finish (evaluate macros maxDepth e)) := by
  have hrun := @leads_evaluateLevels macros maxDepth maxDepth [] (Nat.zero_add maxDepth) [] [] e
  have hkept : ∀ {m}, Leads (step macros maxDepth) (fun _ => True) (.start e) m → m.Kept maxDepth := fun h =>
    h.keeps Machine.Kept.step rfl
  refine ⟨hrun.mono fun _ _ => trivial, rfl, fun h => (hkept h).bounded, ?_⟩
  intro m deeper hm hstep hdepth
  obtain ⟨e, waiting, name, log, rfl, hcount⟩ := step_deeper hstep hdepth
  obtain ⟨levels, hlevels⟩ := Nat.exists_eq_add_of_le (((hkept hm).step hstep).bounded).2
  have hnested := leads_evaluateLevels macros levels hlevels.symm (.body :: waiting) log e
  refine ⟨_, (hnested.mono fun between hbetween => ?_).trans (.single ?_ (step_body _)), hcount, rfl⟩
  · rwa [bodyCount_body, hcount] at hbetween
  · rw [← hcount, Machine.depth, bodyCount_body]
    exact Nat.lt_succ_self _

end Directive

/-- **Expansions and evaluations come to an end**, whatever the macros are. The names of the macros under way are always different and
no more than the greatest depth, and they are the same after a nested expansion or evaluation as before it. -/
theorem runs_end (macros : MacroTable) (maxDepth : Nat) :
    (∀ text : String, ∃ finish : Macro.Machine, finish.result = Macro.expand macros maxDepth text ∧
      Orderly (Macro.step macros maxDepth) Macro.Machine.active Macro.Machine.depth maxDepth (.start text.toList) finish) ∧
    ∀ e : Directive.Expression, Orderly (Directive.step macros maxDepth) Directive.Machine.active Directive.Machine.depth maxDepth
      (.start e) (.finish (Directive.evaluate macros maxDepth e)) :=
  ⟨Macro.orderly macros maxDepth, Directive.orderly macros maxDepth⟩

end ShaderFront
