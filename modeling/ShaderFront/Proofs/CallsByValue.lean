import Mathlib
import ShaderFront.Directive.Evaluate
import ShaderFront.Proofs.Pasting

/-!
# Calls by value

A macro whose body is a formula in its parameters is called by value: a call has the value of the formula for the values of the
arguments, although these are pasted into the body as texts, which is read again (`evaluateIn_call`).

The least number is an exception. Its digits are read before its sign, and they are too large a number
(`evaluateIn_call_minValue`).
-/

namespace ShaderFront.Directive

namespace Expression

/-- Whether an expression is built of numbers, operators and some names. -/
def isFormula (names : List String) : Expression → Bool
  | .int _ => true
  | .object name => name ∈ names
  | .defined _ | .call _ _ => false
  | .unary _ operand => operand.isFormula names
  | .binary _ left right => left.isFormula names && right.isFormula names

/-- The value of a formula for the values of its names, with a message for each division by zero. The right operand of `&&` and of
`||` counts only where it is needed. -/
def valueIn (values : String → Int64) : Expression → Evaluation
  | .int v => ⟨v, []⟩
  | .object name => ⟨values name, []⟩
  | .defined _ | .call _ _ => ⟨0, []⟩
  | .unary operator operand => ⟨operator.apply (operand.valueIn values).value, (operand.valueIn values).log⟩
  | .binary operator left right =>
    let l := left.valueIn values
    let r := right.valueIn values
    match operator with
    | .logicalAnd => if l.value = 0 then ⟨0, l.log⟩ else ⟨ofBool (r.value ≠ 0), l.log ++ r.log⟩
    | .logicalOr => if l.value ≠ 0 then ⟨1, l.log⟩ else ⟨ofBool (r.value ≠ 0), l.log ++ r.log⟩
    | operator => (binaryValue operator l.value r.value).noting (l.log ++ r.log)

/-- An expression with other expressions for its names. -/
def bind (bound : String → Expression) : Expression → Expression
  | .int v => .int v
  | .defined name => .defined name
  | .object name => bound name
  | .call name arguments => .call name arguments
  | .unary operator operand => .unary operator (operand.bind bound)
  | .binary operator left right => .binary operator (left.bind bound) (right.bind bound)

/-- A value as an expression. -/
def ofValue (v : Int64) : Expression := if v < 0 then .unary .minus (.int (-v)) else .int v

theorem mem_names_of_isFormula {names : List String} : ∀ {e : Expression}, e.isFormula names = true → ∀ name ∈ e.names, name ∈ names
  | .int _, _, _, hname => by cases hname
  | .object _, h, _, hname => by
    rw [Expression.names, List.mem_singleton] at hname
    subst hname
    exact of_decide_eq_true h
  | .unary _ operand, h, name, hname => mem_names_of_isFormula (e := operand) h name hname
  | .binary _ left right, h, name, hname => by
    rw [isFormula, Bool.and_eq_true] at h
    rw [Expression.names] at hname
    rcases List.mem_append.mp hname with hname | hname
    · exact mem_names_of_isFormula h.1 name hname
    · exact mem_names_of_isFormula h.2 name hname

end Expression

open Expression (Phrased Spelled ofValue)

/-! ## Evaluation of formulas -/

section Values

variable {inner : String → Expression → Evaluation} {scope : Scope}

theorem evaluateWith_ofValue (v : Int64) : evaluateWith inner scope (ofValue v) = ⟨v, []⟩ := by
  rw [ofValue]
  split
  · simp [evaluateWith, UnaryOperator.apply]
  · rw [evaluateWith]

/-- **A formula with values for its names has the value of the formula.** -/
theorem evaluateWith_bind {names : List String} (values : String → Int64) : ∀ {e : Expression}, e.isFormula names = true →
    evaluateWith inner scope (e.bind fun name => ofValue (values name)) = e.valueIn values
  | .int _, _ => by rw [Expression.bind, evaluateWith, Expression.valueIn]
  | .object _, _ => by rw [Expression.bind, evaluateWith_ofValue, Expression.valueIn]
  | .unary _ operand, h => by
    rw [Expression.bind, evaluateWith, evaluateWith_bind values (e := operand) h, Expression.valueIn]
  | .binary operator left right, h => by
    rw [Expression.isFormula, Bool.and_eq_true] at h
    have hleft := evaluateWith_bind values (e := left) h.1
    have hright := evaluateWith_bind values (e := right) h.2
    cases operator <;> simp only [Expression.bind, evaluateWith, hleft, hright, Expression.valueIn]

theorem evaluateAll_eq : ∀ arguments : List Expression, evaluateAll inner scope arguments =
    (arguments.map fun e => (evaluateWith inner scope e).value, arguments.flatMap fun e => (evaluateWith inner scope e).log)
  | [] => by rw [evaluateAll]; rfl
  | e :: rest => by
    rw [evaluateAll, evaluateAll_eq rest]
    rfl

/-- A call is evaluated as the body of its macro with the texts of the values of its arguments. -/
theorem evaluateWith_call {name body : String} {parameters : List String} {arguments : List Expression}
    (h : callee scope name arguments.length = .ok (parameters, body)) : evaluateWith inner scope (.call name arguments) =
      (evaluateBody inner name (String.ofList (Macro.substitute parameters
        ((arguments.map fun e => (evaluateWith inner scope e).value).map argumentText) body.toList))).noting
        (arguments.flatMap fun e => (evaluateWith inner scope e).log) := by
  rw [evaluateWith, h]
  simp only [evaluateAll_eq]

end Values

/-! ## Values as texts -/

/-- The digits of a value without its sign. -/
def magnitude (v : Int64) : String := String.ofList (Nat.toDigits 10 v.toInt.natAbs)

/-- The words of a value as an argument. -/
def valueWords (v : Int64) : List Written :=
  if v < 0 then enclosed [UnaryOperator.minus.written, (.intConstant, magnitude v)] else [(.intConstant, magnitude v)]

/-- The text of a value is its words, one after the other. -/
theorem argumentText_eq (v : Int64) : argumentText v = (valueWords v).flatMap (·.2.toList) := by
  rw [argumentText, valueWords, magnitude]
  split
  · rename_i hv
    have hlt : v.toInt < 0 := by simpa using Int64.lt_iff_toInt_lt.mp hv
    obtain ⟨n, hn⟩ := Int.eq_negSucc_of_lt_zero hlt
    rw [String.toList_append, String.toList_append, Integer.text, hn, Integer.toString_negSucc]
    simp [enclosed, opening, closing, UnaryOperator.written, UnaryOperator.text]
  · rename_i hv
    have hv := Int64.not_lt.mp hv
    have hint : 0 ≤ v.toInt := by simpa using Int64.le_iff_toInt_le.mp hv
    rw [Integer.text_of_nonneg hv, show v.toInt.toNat = v.toInt.natAbs by omega]
    simp

/-- Only the least value has no opposite. -/
theorem neg_text {v : Int64} (hv : v < 0) (hmin : v ≠ Int64.minValue) : 0 ≤ -v ∧ magnitude v = Integer.text (-v) := by
  have hlt : v.toInt < 0 := by simpa using Int64.lt_iff_toInt_lt.mp hv
  have hle : -2 ^ 63 ≤ v.toInt := Int64.le_toInt v
  have hne : v.toInt ≠ -2 ^ 63 := fun heq => hmin (Int64.toInt_inj.mp (heq.trans Int64.toInt_minValue.symm))
  have hneg : (-v).toInt = -v.toInt := by
    rw [Int64.toInt_neg]
    exact Int.bmod_eq_of_le (by omega) (by omega)
  have hnonneg : 0 ≤ -v := by
    rw [Int64.le_iff_toInt_le, hneg]
    simp
    omega
  refine ⟨hnonneg, ?_⟩
  rw [Integer.text_of_nonneg hnonneg, hneg, magnitude, show v.toInt.natAbs = (-v.toInt).toNat by omega]

/-- **The words of a value spell it**, unless it is the least value. -/
theorem spelled_valueWords {v : Int64} (hmin : v ≠ Int64.minValue) (level : Nat) : Spelled level (ofValue v) (valueWords v) := by
  rw [ofValue, valueWords]
  split
  · rename_i hv
    obtain ⟨hneg, htext⟩ := neg_text hv hmin
    rw [htext]
    exact .parentheses (.unary (by decide) (.int hneg))
  · rename_i hv
    have hv := Int64.not_lt.mp hv
    have hint : 0 ≤ v.toInt := by simpa using Int64.le_iff_toInt_le.mp hv
    have htext : magnitude v = Integer.text v := by
      rw [Integer.text_of_nonneg hv, magnitude, show v.toInt.natAbs = v.toInt.toNat by omega]
    rw [htext]
    exact .int hv

/-- The least value without its sign is too large a number. -/
theorem not_readable_minValue : ¬Readable (valueWords Int64.minValue) := fun h =>
  absurd (h (.intConstant, magnitude Int64.minValue) (by decide) rfl) (by decide)

theorem isLiteral_magnitude (v : Int64) : Numeral.IsLiteral (magnitude v).toList := by
  rw [magnitude, String.toList_ofList, ← List.append_nil (Nat.toDigits _ _)]
  exact .decimal (Integer.isDigit_toDigits _) Nat.toDigits_ne_nil (by decide)

/-- A value can be pasted beside anything. -/
theorem quiet_argumentText (v : Int64) : Macro.Quiet (argumentText v) := by
  have hdigit : ∀ c : Char, c.isDigit = true → c ≠ '*' ∧ c ≠ '\n' := by
    intro c hc
    constructor <;> (rintro rfl; cases hc)
  have hdigits : ∀ c ∈ (magnitude v).toList, c.isDigit = true := by
    rw [magnitude, String.toList_ofList]
    exact Integer.isDigit_toDigits _
  rw [argumentText_eq, valueWords]
  split
  · refine ⟨⟨'(', _, rfl, .inr rfl⟩, fun c hc => ?_⟩
    simp only [enclosed, opening, closing, UnaryOperator.written, UnaryOperator.text, List.flatMap_cons, List.flatMap_nil,
      List.cons_append, List.nil_append, List.mem_append, List.append_nil] at hc
    rcases hc with hc | hc | hc | hc
    · rw [List.mem_singleton.mp hc]
      decide
    · rw [List.mem_singleton.mp hc]
      decide
    · exact hdigit c (hdigits c hc)
    · rw [List.mem_singleton.mp hc]
      decide
  · obtain ⟨c, more, htext, hc⟩ := (isLiteral_magnitude v).exists_cons
    rw [List.flatMap_singleton]
    exact ⟨⟨c, more, htext, .inl hc⟩, fun c hc => hdigit c (hdigits c hc)⟩

/-- A closing parenthesis is cut off, whatever follows it. -/
theorem cutsOff_closing (rest : List Char) : CutsOff (some closing.1) closing.2.toList rest := by
  have hmarks : ∀ entry ∈ marks, entry.1.head?.any (· ≠ ')') = true ∨ entry.1 = [')'] := by decide
  have hlongest : longestLiteral marks (')' :: rest) = longestLiteral marks [')'] := by
    refine longestLiteral_congr fun entry hentry => ?_
    rcases hmarks entry hentry with hhead | heq
    · cases hliteral : entry.1 with
      | nil => simp [hliteral] at hhead
      | cons c literal =>
        have hc : c ≠ ')' := by simpa [hliteral] using hhead
        simp [List.isPrefixOf, beq_eq_false_iff_ne.mpr hc]
    · rw [heq]
      rfl
  refine ⟨')', [], rfl, ?_⟩
  rw [List.nil_append, cut_of_isOrdinary (by decide) (commentLength?_of_ne (by decide) _),
    numeral_eq_none (by decide) (by decide)]
  simp only [cutPlain, if_neg (show ¬isWordStart ')' = true by decide), hlongest]
  rfl

theorem ne_define_of_mem_valueWords {v : Int64} {word : Written} (h : word ∈ valueWords v) : word.1 ≠ .define := by
  rw [valueWords] at h
  split at h
  · simp only [enclosed, List.cons_append, List.nil_append, List.mem_cons, List.not_mem_nil, or_false] at h
    rcases h with rfl | rfl | rfl | rfl <;> exact TokenKind.noConfusion
  · rw [List.mem_singleton.mp h]
    exact TokenKind.noConfusion

/-- **The text of a value stands for its words.** -/
theorem stands_argumentText (v : Int64) : Stands (argumentText v) (valueWords v) := by
  intro rest others hrest h
  have hint : ∀ {rest others}, Numeral.Parts rest → ShaderFront.Divides cut rest others → ShaderFront.Divides cut
      ((magnitude v).toList ++ rest) ((.intConstant, magnitude v) :: others) := fun {rest others} hrest h =>
    @ShaderFront.Divides.word _ cut (.intConstant, magnitude v) rest others (cutsOff_literal (isLiteral_magnitude v) hrest) h
  rw [argumentText_eq, valueWords]
  split
  · have hclosing : ShaderFront.Divides cut (closing.2.toList ++ rest) (closing :: others) := .word (cutsOff_closing rest) h
    have hcalm : Calm ((magnitude v).toList ++ (closing.2.toList ++ rest)) := by
      obtain ⟨c, more, htext, hc⟩ := (isLiteral_magnitude v).exists_cons
      rw [htext]
      rintro _ ⟨⟩ hmem
      fin_cases hmem <;> cases hc
    have hminus : ShaderFront.Divides cut (UnaryOperator.minus.written.2.toList ++ _) (UnaryOperator.minus.written :: _) :=
      .word (cutsOff_mark (unary_mem_marks .minus) hcalm) (hint (by rintro _ ⟨⟩; decide) hclosing)
    have hopening : ShaderFront.Divides cut (opening.2.toList ++ _) (opening :: _) :=
      .word (cutsOff_mark (by decide) (by rintro _ ⟨⟩; decide)) hminus
    simpa [enclosed] using hopening
  · rw [List.flatMap_singleton]
    exact hint hrest h

/-! ## Reading the pasted text -/

/-- The names among the words of a formula are its names; `defined` is not among them. -/
theorem mem_names_of_phrased {names : List String} : ∀ {level : Nat} {e : Expression} {words : List Written},
    Phrased level e words → e.isFormula names = true →
    (∀ word ∈ words, word.1 ≠ .defined) ∧ ∀ name, writtenName name ∈ words ↔ name ∈ e.names
  | _, _, _, .int _, _ => by simp [writtenName, Expression.names]
  | _, _, _, .object, _ => by simp [writtenName, Expression.names]
  | _, _, _, @Phrased.unary _ operator _ _ _ _ hoperand, h => by
    obtain ⟨hdefined, hnames⟩ := mem_names_of_phrased hoperand h
    have hkind : operator.kind ≠ .defined ∧ .identifier ≠ operator.kind := by cases operator <;> decide
    refine ⟨List.forall_mem_cons.mpr ⟨hkind.1, hdefined⟩, fun name => ?_⟩
    rw [Expression.names, ← hnames, List.mem_cons]
    exact or_iff_right fun heq => hkind.2 (Prod.mk.inj heq).1
  | _, _, _, @Phrased.binary _ operator _ _ _ _ _ _ hleft hright, h => by
    rw [Expression.isFormula, Bool.and_eq_true] at h
    obtain ⟨hdefined, hnames⟩ := mem_names_of_phrased hleft h.1
    obtain ⟨hdefined', hnames'⟩ := mem_names_of_phrased hright h.2
    have hkind : operator.kind ≠ .defined ∧ .identifier ≠ operator.kind := by cases operator <;> decide
    refine ⟨List.forall_mem_append.mpr ⟨hdefined, List.forall_mem_cons.mpr ⟨hkind.1, hdefined'⟩⟩, fun name => ?_⟩
    rw [Expression.names, List.mem_append, List.mem_append, List.mem_cons, ← hnames, ← hnames']
    exact or_congr_right (or_iff_right fun heq => hkind.2 (Prod.mk.inj heq).1)
  | _, _, _, .parentheses hinner, h => by
    obtain ⟨hdefined, hnames⟩ := mem_names_of_phrased hinner h
    refine ⟨by simpa [or_imp, forall_and] using hdefined, fun name => ?_⟩
    rw [← hnames]
    simp [writtenName]

variable {number : Nonterminal → SymbolId} {bound : String → Expression} {paste : String → List Written}

/-- **The words of a formula, with those of expressions for its names, are read as the formula with the expressions.** -/
theorem reads_pasted {names : List String} : ∀ {level : Nat} {e : Expression} {words : List Written},
    Phrased level e words → e.isFormula names = true →
    (∀ name ∈ e.names, ∀ level, Spelled level (bound name) (paste name)) → level ≤ 12 →
    ∀ {front : List (TokenKind × Token)}, Carries front (words.flatMap (pastedWord paste)) →
      ReadsAs number (tier level) front (.expression (e.bind bound))
  | level, _, _, @Phrased.int _ value text hread, _, _, hlevel, front, hfront => by
    obtain ⟨token, rfl, htext, hadmits⟩ := hfront.singleton
    have hbuild : (integerOf token).map (fun i => Node.expression (.int i)) = .ok (.expression (.int value)) := by
      rw [integerOf, htext, hread]
      rfl
    exact reads_tier_of_le hlevel le_rfl
      (reads_rule 101 (by rfl) (by rfl) (.token hadmits (fun _ _ => trivial) .nil) hbuild)
  | level, _, _, @Phrased.object _ name, _, hspelled, hlevel, front, hfront => by
    rw [List.flatMap_singleton] at hfront
    exact (hspelled name (List.mem_singleton_self name) level).reads hlevel hfront
  | level, _, _, @Phrased.unary _ operator _ text words hunary hoperand, h, hspelled, hlevel, front, hfront => by
    have hkind : operator.kind ≠ .identifier := by cases operator <;> decide
    rw [List.flatMap_cons, pastedWord_of_ne hkind, List.singleton_append] at hfront
    obtain ⟨token, rest, rfl, -, hadmits, hrest⟩ := hfront.cons
    exact reads_tier_of_le hunary (by decide) (reads_unary operator hadmits (reads_pasted hoperand h hspelled (by decide) hrest))
  | level, _, _, @Phrased.binary _ operator left right text words others hle hleft hright, h, hspelled, hlevel, front, hfront => by
    have hkind : operator.kind ≠ .identifier := by cases operator <;> decide
    have hoperator : operator.level ≤ 10 := by cases operator <;> decide
    have hright' : operator.level + 1 ≤ 12 := Nat.le_succ_of_le (Nat.succ_le_succ hoperator)
    rw [Expression.isFormula, Bool.and_eq_true] at h
    rw [Expression.names] at hspelled
    obtain ⟨hspelled, hspelled'⟩ := List.forall_mem_append.mp hspelled
    rw [List.flatMap_append, List.flatMap_cons, pastedWord_of_ne hkind, List.singleton_append] at hfront
    obtain ⟨leftFront, _, rfl, hleftFront, hback⟩ := hfront.append
    obtain ⟨token, rest, rfl, -, hadmits, hrest⟩ := hback.cons
    exact reads_tier_of_le hle (Nat.le_of_succ_le hright') (reads_binary operator
      (reads_pasted hleft h.1 hspelled (Nat.le_of_succ_le hright') hleftFront) hadmits
      (reads_pasted hright h.2 hspelled' hright' hrest))
  | level, e, _, @Phrased.parentheses _ _ left right words hinner, h, hspelled, hlevel, front, hfront => by
    rw [List.cons_append, List.flatMap_cons, List.flatMap_append, List.flatMap_singleton, pastedWord_of_ne (by decide),
      pastedWord_of_ne (by decide), List.singleton_append] at hfront
    obtain ⟨left, _, rfl, -, hleft, hback⟩ := hfront.cons
    obtain ⟨inner, _, rfl, hinnerFront, hlast⟩ := hback.append
    obtain ⟨right, rfl, -, hright⟩ := hlast.singleton
    exact reads_tier_of_le hlevel le_rfl (reads_rule 102 (by rfl) (by rfl) (.token hleft (fun _ _ => trivial)
      (.node (reads_pasted hinner h hspelled (by decide) hinnerFront) (fun _ _ => trivial)
        (.token hright (fun _ _ => trivial) .nil))) (by rfl))

/-! ## Calls -/

/-- The values of parameters. -/
def binding (parameters : List String) (values : List Int64) (name : String) : Int64 :=
  ((parameters.zip values).lookup name).getD 0

/-- The text for a parameter is that of its value. -/
theorem argument?_binding {name : String} : ∀ {parameters : List String} {values : List Int64}, parameters.length = values.length →
    name ∈ parameters →
    Macro.argument? parameters (values.map argumentText) name.toList = some (argumentText (binding parameters values name))
  | [], _, _, hname => by cases hname
  | p :: parameters, [], hlength, _ => by cases hlength
  | p :: parameters, v :: values, hlength, hname => by
    by_cases hp : p = name
    · subst hp
      simp [Macro.argument?, binding, List.findIdx?_cons]
    · have hne : name ≠ p := fun heq => hp heq.symm
      have hrest := argument?_binding (Nat.succ.inj hlength) ((List.mem_cons.mp hname).resolve_left hne)
      have hlookup : binding (p :: parameters) (v :: values) name = binding parameters values name := by
        simp [binding, List.lookup, beq_eq_false_iff_ne.mpr hne]
      have htoList : p.toList ≠ name.toList := fun heq => hp (String.toList_inj.mp heq)
      rw [hlookup, ← hrest]
      simp only [Macro.argument?, List.findIdx?_cons, decide_eq_false htoList, Bool.false_eq_true, if_false, List.map_cons]
      cases parameters.findIdx? (·.toList = name.toList) <;> rfl

section Bodies

variable {body : String} {e : Expression} {parameters : List String} {values : List Int64} (hbody : parseExpression body = .ok e)
  (hformula : e.isFormula parameters = true) (hlength : parameters.length = values.length)

include hbody hformula hlength

/-- The body of a macro with the texts of values in it is divided into the words of both. -/
theorem divides_call : ShaderFront.Divides cut (Macro.substitute parameters (values.map argumentText) body.toList)
    ((wordsFrom 0 body.toList).flatMap (pastedWord fun name => valueWords (binding parameters values name))) := by
  have hphrased := parseExpression_phrased hbody
  obtain ⟨hdefined, hnames⟩ := mem_names_of_phrased hphrased hformula
  have harguments : ∀ a ∈ values.map argumentText, Macro.Quiet a := by
    intro a ha
    obtain ⟨v, -, rfl⟩ := List.mem_map.mp ha
    exact quiet_argumentText v
  exact divides_substitute harguments 0 body.toList hphrased.alternates hdefined fun name hname =>
    ⟨_, argument?_binding hlength (Expression.mem_names_of_isFormula hformula name ((hnames name).mp hname)), stands_argumentText _⟩

/-- **The body of a macro with the texts of values in it is read as the formula with the values.** -/
theorem parseExpression_substitute (hvalues : ∀ name ∈ e.names, binding parameters values name ≠ Int64.minValue) :
    parseExpression (String.ofList (Macro.substitute parameters (values.map argumentText) body.toList)) =
      .ok (e.bind fun name => ofValue (binding parameters values name)) := by
  have hphrased := parseExpression_phrased hbody
  have hdivides := divides_call hbody hformula hlength
  rw [← String.toList_ofList (l := Macro.substitute _ _ _)] at hdivides
  refine parseExpression_of_reads hdivides (fun word hword => ?_) fun hfront => reads_pasted hphrased hformula
    (fun name hname => spelled_valueWords (hvalues name hname)) (by decide) hfront
  obtain ⟨⟨kind, text⟩, horigin, hword⟩ := List.mem_flatMap.mp hword
  by_cases hkind : kind = .identifier
  · subst hkind
    exact ne_define_of_mem_valueWords hword
  · rw [pastedWord_of_ne hkind, List.mem_singleton] at hword
    have hphrase := hphrased.alternates.isPhrase _ horigin
    rintro hdefine
    rw [← hword, hdefine] at hphrase
    cases hphrase

/-- **With the least value for one of its names it is not read.** -/
theorem parseExpression_minValue (hvalue : ∃ name ∈ e.names, binding parameters values name = Int64.minValue) (e' : Expression) :
    parseExpression (String.ofList (Macro.substitute parameters (values.map argumentText) body.toList)) ≠ .ok e' := by
  intro hread
  obtain ⟨name, hname, hmin⟩ := hvalue
  have hname := ((mem_names_of_phrased (parseExpression_phrased hbody) hformula).2 name).mpr hname
  have hreadable := (parseExpression_phrased hread).readable
  rw [wordsFrom, String.toList_ofList, (divides_call hbody hformula hlength).lexemes 0] at hreadable
  refine not_readable_minValue fun word hword => hreadable word (List.mem_flatMap.mpr ⟨_, hname, ?_⟩)
  rw [← hmin] at hword
  exact hword

end Bodies

variable {macros : MacroTable} {maxDepth : Nat} {active : List String}

/-- Evaluates an expression while some macros are being evaluated. -/
def evaluateIn (macros : MacroTable) (maxDepth : Nat) (active : List String) (e : Expression) : Evaluation :=
  evaluateLevels macros maxDepth (maxDepth - active.length) active e

/-- Below the greatest depth, the body of a macro is evaluated while the macro is. -/
theorem exists_inner (macros : MacroTable) (hdepth : active.length < maxDepth) : ∃ inner : String → Expression → Evaluation,
    (∀ name body, inner name body = evaluateIn macros maxDepth (active ++ [name]) body) ∧
      ∀ e, evaluateIn macros maxDepth active e = evaluateWith inner ⟨macros, maxDepth, active⟩ e := by
  obtain ⟨levels, hlevels⟩ := Nat.exists_eq_add_of_lt hdepth
  have hmore : maxDepth - active.length = levels + 1 := by omega
  refine ⟨fun name body => evaluateLevels macros maxDepth levels (active ++ [name]) body, fun name body => ?_, fun e => ?_⟩
  · rw [evaluateIn, List.length_append, List.length_singleton, ← Nat.sub_sub, hmore, Nat.add_sub_cancel]
  · rw [evaluateIn, hmore, evaluateLevels]

/-- At any depth an expression is evaluated with the same macros. -/
theorem exists_evaluateIn (macros : MacroTable) (maxDepth : Nat) (active : List String) (e : Expression) :
    ∃ inner, evaluateIn macros maxDepth active e = evaluateWith inner ⟨macros, maxDepth, active⟩ e := by
  rw [evaluateIn]
  cases maxDepth - active.length with
  | zero => exact ⟨_, by rw [evaluateLevels]⟩
  | succ levels => exact ⟨_, by rw [evaluateLevels]⟩

section Calls

variable {name : String} {m : Macro} {parameters : List String} {body : Expression} {arguments : List Expression}
  (hm : macros.get? name = some m) (hparameters : m.parameters = some parameters) (hbody : parseExpression m.body = .ok body)
  (hformula : body.isFormula parameters = true) (hlength : parameters.length = arguments.length) (hactive : name ∉ active)
  (hdepth : active.length < maxDepth)

include hm hparameters hlength hactive hdepth

/-- A call is evaluated as the body of its macro with the texts of the values of its arguments. -/
theorem evaluateIn_substitute : evaluateIn macros maxDepth active (.call name arguments) =
    (evaluateRead (fun name => evaluateIn macros maxDepth (active ++ [name])) name (parseExpression (String.ofList (Macro.substitute
      parameters ((arguments.map fun e => (evaluateIn macros maxDepth active e).value).map argumentText) m.body.toList)))).noting
      (arguments.flatMap fun e => (evaluateIn macros maxDepth active e).log) := by
  obtain ⟨inner, hinner, heval⟩ := exists_inner macros hdepth
  obtain rfl : inner = fun name => evaluateIn macros maxDepth (active ++ [name]) := funext fun name => funext (hinner name)
  have hcallee : callee ⟨macros, maxDepth, active⟩ name arguments.length = .ok (parameters, m.body) := by
    rw [callee, admitted]
    simp [hm, hactive, Nat.not_le.mpr hdepth, hparameters, hlength]
  simp only [heval (.call name arguments), evaluateWith_call hcallee, evaluateBody, ← heval]

include hbody hformula

/-- With the least value for a parameter in the formula the call fails. -/
theorem evaluateIn_call_minValue (hvalue : ∃ p ∈ body.names,
      binding parameters (arguments.map fun e => (evaluateIn macros maxDepth active e).value) p = Int64.minValue) :
    ∃ error : LanguageError, evaluateIn macros maxDepth active (.call name arguments) =
      (Evaluation.failed s!"macro `{name}` is not an integer expression: {error.message}").noting
        (arguments.flatMap fun e => (evaluateIn macros maxDepth active e).log) := by
  have hvaluesLength : parameters.length = (arguments.map fun e => (evaluateIn macros maxDepth active e).value).length := by
    rw [List.length_map, hlength]
  have hfails := parseExpression_minValue hbody hformula hvaluesLength hvalue
  rw [evaluateIn_substitute hm hparameters hlength hactive hdepth]
  cases hread : parseExpression (String.ofList (Macro.substitute parameters
    ((arguments.map fun e => (evaluateIn macros maxDepth active e).value).map argumentText) m.body.toList)) with
  | ok e => exact absurd hread (hfails e)
  | error error => exact ⟨error, rfl⟩

/-- **A macro whose body is a formula is called by value**: the call has the value of the formula for the values of its arguments,
and its messages are those of the arguments and those of the formula. The parameters in the formula must not have the least value. -/
theorem evaluateIn_call (hvalues : ∀ p ∈ body.names,
      binding parameters (arguments.map fun e => (evaluateIn macros maxDepth active e).value) p ≠ Int64.minValue) :
    evaluateIn macros maxDepth active (.call name arguments) =
      (body.valueIn (binding parameters (arguments.map fun e => (evaluateIn macros maxDepth active e).value))).noting
        (arguments.flatMap fun e => (evaluateIn macros maxDepth active e).log) := by
  have hvaluesLength : parameters.length = (arguments.map fun e => (evaluateIn macros maxDepth active e).value).length := by
    rw [List.length_map, hlength]
  rw [evaluateIn_substitute hm hparameters hlength hactive hdepth,
    parseExpression_substitute hbody hformula hvaluesLength hvalues, evaluateRead]
  -- the formula with the values holds no macros
  generalize binding parameters (arguments.map fun e => (evaluateIn macros maxDepth active e).value) = values
  obtain ⟨inner, hinner⟩ := exists_evaluateIn macros maxDepth (active ++ [name])
    (body.bind fun p => ofValue (values p))
  rw [hinner, evaluateWith_bind values hformula]

end Calls

/-- `SUB(-3, 2)` with `x - y` for `SUB(x, y)`. -/
theorem evaluateIn_call_difference : evaluateIn (({} : MacroTable).define ⟨"SUB", some ["x", "y"], "x - y", true⟩).2 64 []
    (.call "SUB" [.unary .minus (.int 3), .int 2]) = ⟨-5, []⟩ := by
  have hbody : parseExpression "x - y" = .ok (.binary .subtract (.object "x") (.object "y")) := by
    have hwords : Expression.Spelled 1 (.binary .subtract (.object "x") (.object "y"))
        ([writtenName "x"] ++ BinaryOperator.subtract.written :: [writtenName "y"]) := .binary (by decide) .object .object
    have hspaced : spaced ([writtenName "x"] ++ BinaryOperator.subtract.written :: [writtenName "y"]) = "x - y" := by decide +kernel
    rw [← hspaced]
    exact parseExpression_of_divides (divides_spaced (hwords.isWord (by decide +kernel))) hwords
  refine (evaluateIn_call (m := ⟨"SUB", some ["x", "y"], "x - y", true⟩) (by decide +kernel) rfl hbody (by decide +kernel) rfl
    (by simp) (by decide) (by decide +kernel)).trans ?_
  rfl

/-- **The least number is no value for a parameter**: with `x` for `ID(x)`, the call `ID(-9223372036854775807 - 1)` has the value 0,
not that of its argument. -/
theorem evaluateIn_call_least : parseExpression "x" = .ok (.object "x") ∧
    (evaluateIn (({} : MacroTable).define ⟨"ID", some ["x"], "x", true⟩).2 64 []
      (.binary .subtract (.unary .minus (.int Int64.maxValue)) (.int 1))).value = Int64.minValue ∧
    (evaluateIn (({} : MacroTable).define ⟨"ID", some ["x"], "x", true⟩).2 64 []
      (.call "ID" [.binary .subtract (.unary .minus (.int Int64.maxValue)) (.int 1)])).value = 0 := by
  have hbody : parseExpression "x" = .ok (.object "x") := by
    have hwords : Expression.Spelled 1 (.object "x") [writtenName "x"] := .object
    exact parseExpression_of_divides (divides_spaced (hwords.isWord (by decide +kernel))) hwords
  have hm : (({} : MacroTable).define ⟨"ID", some ["x"], "x", true⟩).2.get? "ID" = some ⟨"ID", some ["x"], "x", true⟩ := by
    decide +kernel
  have hlength : ["x"].length = [Expression.binary .subtract (.unary .minus (.int Int64.maxValue)) (.int 1)].length := rfl
  have hactive : "ID" ∉ ([] : List String) := by simp
  have hdepth : ([] : List String).length < 64 := by decide
  refine ⟨hbody, by decide +kernel, ?_⟩
  obtain ⟨error, hcall⟩ := evaluateIn_call_minValue hm rfl hbody (by decide +kernel) hlength hactive hdepth
    ⟨"x", by decide +kernel, by decide +kernel⟩
  rw [hcall]
  rfl

end ShaderFront.Directive
