import Mathlib
import ShaderFront.Preprocess.Basic
import ShaderFront.Proofs.Excerpts
import ShaderFront.Proofs.Libraries
import ShaderFront.Proofs.Merged
import ShaderFront.Proofs.Words

/-!
# Macros that are not used

A macro whose name occurs in no text that the preprocessor comes across changes nothing: every step of a run gives the same output
with and without it, and leaves states that differ in this macro alone (`Preprocess.visit_adding`). The names that a run looks up
are parts of texts, and no text that it puts together has the name if the texts it is put together from lack it.

Main statement: `Preprocessor.process_unused`.
-/

namespace ShaderFront

open Macro (Lacks)

/-! ## Conditions -/

namespace Directive

theorem ne_nil_of_isIdentifier {word : List Char} (h : isIdentifier word = true) : word ≠ [] := by
  rintro rfl
  cases h

theorem isWordChar_of_isIdentifier {word : List Char} (h : isIdentifier word = true) : ∀ c ∈ word, isWordChar c = true := by
  cases word with
  | nil => cases h
  | cons c rest =>
    obtain ⟨hc, hrest⟩ := (Bool.and_eq_true _ _).mp h
    exact List.forall_mem_cons.mpr ⟨Macro.isWordChar_of_isWordStart hc, List.all_eq_true.mp hrest⟩

theorem isWordStart_of_isDigit {c : Char} (h : c.isDigit = true) : isWordStart c = false := by
  rw [Bool.eq_false_iff]
  intro hstart
  rw [(isOrdinary_of_isWordStart hstart).2.1] at h
  cases h

/-- The text of a number has no character that begins an identifier. -/
theorem isWordStart_of_mem_text (value : Int64) : ∀ c ∈ (Integer.text value).toList, isWordStart c = false := by
  have hdigits : ∀ n : Nat, ∀ c ∈ (Nat.repr n).toList, isWordStart c = false := by
    intro n c hc
    rw [Nat.repr_eq_ofList_toDigits, String.toList_ofList] at hc
    exact isWordStart_of_isDigit (Nat.isDigit_of_mem_toDigits (by omega) (by omega) hc)
  rw [Integer.text]
  cases value.toInt with
  | ofNat n => exact hdigits n
  | negSucc n =>
    have htext : (toString (Int.negSucc n)).toList = '-' :: (Nat.repr (n + 1)).toList := by
      rw [show toString (Int.negSucc n) = "-" ++ Nat.repr (n + 1) from rfl, String.toList_append]
      rfl
    rw [htext]
    exact List.forall_mem_cons.mpr ⟨by decide, hdigits (n + 1)⟩

/-- An identifier occurs only where one begins. -/
theorem lacks_of_isWordStart {word : List Char} (h : isIdentifier word = true) {text : List Char}
    (htext : ∀ c ∈ text, isWordStart c = false) : Lacks word text := by
  intro hword
  cases word with
  | nil => cases h
  | cons c rest =>
    have hc := htext c (hword.subset List.mem_cons_self)
    rw [((Bool.and_eq_true _ _).mp h).1] at hc
    cases hc

theorem lacks_argumentText {word : List Char} (h : isIdentifier word = true) (value : Int64) : Lacks word (argumentText value) := by
  have hall : ∀ c ∈ argumentText value, isWordStart c = false := by
    intro c hc
    rw [argumentText] at hc
    split at hc
    · simp only [String.toList_append, List.mem_append] at hc
      rcases hc with (hc | hc) | hc
      · obtain rfl := List.mem_singleton.mp hc
        decide
      · exact isWordStart_of_mem_text value c hc
      · obtain rfl := List.mem_singleton.mp hc
        decide
    · exact isWordStart_of_mem_text value c hc
  exact lacks_of_isWordStart h hall

theorem evaluateBody_congr {inner inner' : String → Expression → Evaluation} {name body : String}
    (h : ∀ e, parseExpression body = .ok e → inner' name e = inner name e) :
    evaluateBody inner' name body = evaluateBody inner name body := by
  rw [evaluateBody, evaluateBody]
  cases hparse : parseExpression body with
  | error e => rfl
  | ok e => exact h e hparse

section Frame

variable {m : Macro} (hname : isIdentifier m.name.toList = true) {t : MacroTable} (ht : t.Lacks m.name) (maxDepth : Nat)

theorem ne_of_lacks {name other : String} (h : Lacks name.toList other.toList) : other ≠ name := by
  rintro rfl
  exact h List.infix_rfl

theorem admitted_adding (active : List String) {name : String} (h : name ≠ m.name) :
    admitted ⟨t.adding m, maxDepth, active⟩ name = admitted ⟨t, maxDepth, active⟩ name := by
  simp only [admitted, t.get?_adding m h]

theorem get?_of_admitted {scope : Scope} {name : String} {found : Macro} (h : admitted scope name = .ok found) :
    scope.macros.get? name = some found := by
  rw [admitted] at h
  split at h
  · cases h
  · rename_i heq
    split at h
    · cases h
    · split at h <;> cases h
      exact heq

theorem callee_adding (active : List String) {name : String} (h : name ≠ m.name) (count : Nat) :
    callee ⟨t.adding m, maxDepth, active⟩ name count = callee ⟨t, maxDepth, active⟩ name count := by
  simp only [callee, admitted_adding maxDepth active h]

theorem get?_of_callee {scope : Scope} {name : String} {count : Nat} {parameters : List String} {body : String}
    (h : callee scope name count = .ok (parameters, body)) : ∃ found, scope.macros.get? name = some found ∧ found.body = body := by
  rw [callee] at h
  split at h
  · cases h
  · rename_i found heq
    split at h
    · cases h
    · split at h <;> cases h
      exact ⟨found, get?_of_admitted heq, rfl⟩

/-- Two ways to evaluate bodies agree on expressions that lack a name. -/
def AgreeWithout (name : String) (inner inner' : String → Expression → Evaluation) : Prop :=
  ∀ callee e, (∀ other ∈ e.names, Lacks name.toList other.toList) → inner' callee e = inner callee e

variable {inner inner' : String → Expression → Evaluation} (hinner : AgreeWithout m.name inner inner')

include hname hinner in
theorem evaluateBody_adding (callee : String) {body : String} (hbody : Lacks m.name.toList body.toList) :
    evaluateBody inner' callee body = evaluateBody inner callee body :=
  evaluateBody_congr fun e he => hinner callee e
    (parseExpression_lacks (ne_nil_of_isIdentifier hname) (isWordChar_of_isIdentifier hname) hbody he)

include hname ht hinner in
theorem evaluateObject_adding (active : List String) {name : String} (h : name ≠ m.name) :
    evaluateObject inner' ⟨t.adding m, maxDepth, active⟩ name = evaluateObject inner ⟨t, maxDepth, active⟩ name := by
  rw [evaluateObject, evaluateObject, admitted_adding maxDepth active h]
  cases hadmitted : admitted ⟨t, maxDepth, active⟩ name with
  | error message => rfl
  | ok found =>
    dsimp only
    split
    · exact evaluateBody_adding hname hinner name (ht name found h (get?_of_admitted hadmitted))
    · rfl

mutual

/-- A macro that no name of an expression mentions changes nothing in its value. -/
theorem evaluateWith_adding (hname : isIdentifier m.name.toList = true) (ht : t.Lacks m.name)
    (hinner : AgreeWithout m.name inner inner') (active : List String) : ∀ e : Expression,
    (∀ name ∈ e.names, Lacks m.name.toList name.toList) → evaluateWith inner' ⟨t.adding m, maxDepth, active⟩ e = evaluateWith inner ⟨t, maxDepth, active⟩ e
  | .int value, _ => by rw [evaluateWith, evaluateWith]
  | .defined name, h => by
    have hne := ne_of_lacks (h name (by simp [Expression.names]))
    simp only [evaluateWith, MacroTable.isDefined, t.get?_adding m hne]
  | .object name, h => by
    rw [evaluateWith, evaluateWith]
    exact evaluateObject_adding hname ht maxDepth hinner active (ne_of_lacks (h name (by simp [Expression.names])))
  | .call name arguments, h => by
    rw [Expression.names] at h
    obtain ⟨hname', harguments⟩ := List.forall_mem_cons.mp h
    have hne := ne_of_lacks hname'
    rw [evaluateWith, evaluateWith, callee_adding maxDepth active hne, evaluateAll_adding hname ht hinner active arguments harguments]
    cases hcallee : callee ⟨t, maxDepth, active⟩ name arguments.length with
    | error message => rfl
    | ok found =>
      obtain ⟨parameters, body⟩ := found
      obtain ⟨found, hfound, rfl⟩ := get?_of_callee hcallee
      have hbody : Lacks m.name.toList found.body.toList := ht name found hne hfound
      have hvalues : ∀ values : List Int64, ∀ a ∈ values.map argumentText, Lacks m.name.toList a := by
        intro values a ha
        obtain ⟨value, -, rfl⟩ := List.mem_map.mp ha
        exact lacks_argumentText hname value
      have htext : ∀ values : List Int64, Lacks m.name.toList
          (String.ofList (Macro.substitute parameters (values.map argumentText) found.body.toList)).toList := by
        intro values
        rw [String.toList_ofList]
        exact hbody.substitute (ne_nil_of_isIdentifier hname) (isWordChar_of_isIdentifier hname) (hvalues values)
      dsimp only
      rw [evaluateBody_adding hname hinner name (htext _)]
  | .unary operator operand, h => by
    rw [Expression.names] at h
    rw [evaluateWith, evaluateWith, evaluateWith_adding hname ht hinner active operand h]
  | .binary operator left right, h => by
    rw [Expression.names] at h
    obtain ⟨hleft, hright⟩ := List.forall_mem_append.mp h
    have hleft := evaluateWith_adding hname ht hinner active left hleft
    have hright := evaluateWith_adding hname ht hinner active right hright
    cases operator <;> simp only [evaluateWith, hleft, hright]

theorem evaluateAll_adding (hname : isIdentifier m.name.toList = true) (ht : t.Lacks m.name)
    (hinner : AgreeWithout m.name inner inner') (active : List String) : ∀ es : List Expression,
    (∀ name ∈ namesAll es, Lacks m.name.toList name.toList) → evaluateAll inner' ⟨t.adding m, maxDepth, active⟩ es = evaluateAll inner ⟨t, maxDepth, active⟩ es
  | [], _ => by rw [evaluateAll, evaluateAll]
  | e :: rest, h => by
    rw [namesAll] at h
    obtain ⟨he, hrest⟩ := List.forall_mem_append.mp h
    rw [evaluateAll, evaluateAll, evaluateWith_adding hname ht hinner active e he, evaluateAll_adding hname ht hinner active rest hrest]

end

include hname ht in
theorem evaluateLevels_adding : ∀ (levels : Nat) (active : List String) {e : Expression},
    (∀ name ∈ e.names, Lacks m.name.toList name.toList) →
    evaluateLevels (t.adding m) maxDepth levels active e = evaluateLevels t maxDepth levels active e
  | 0, active, e, h => by
    rw [evaluateLevels, evaluateLevels]
    exact evaluateWith_adding maxDepth hname ht (fun _ _ _ => rfl) active e h
  | levels + 1, active, e, h => by
    rw [evaluateLevels, evaluateLevels]
    exact evaluateWith_adding maxDepth hname ht
      (fun callee _ hbody => evaluateLevels_adding levels (active ++ [callee]) hbody) active e h

end Frame

end Directive

/-! ## Directives -/

theorem OrderedMap.insert_comm {ν : Type} (entries : OrderedMap String ν) {k k' : String} (h : k ≠ k') (v v' : ν) :
    (entries.insert k v).insert k' v' = (entries.insert k' v').insert k v := by
  refine OrderedMap.ext fun name => ?_
  simp only [OrderedMap.get?_insert]
  by_cases hk : k = name <;> by_cases hk' : k' = name <;> simp_all

namespace MacroTable

theorem define_adding (t : MacroTable) {m n : Macro} (h : n.name ≠ m.name) :
    (t.adding m).define n = ((t.define n).1, (t.define n).2.adding m) :=
  Prod.ext (get?_adding t m h) (congrArg MacroTable.mk (t.entries.insert_comm h.symm m n))

theorem undefine_adding (t : MacroTable) (m : Macro) {name : String} (h : name ≠ m.name) :
    (t.adding m).undefine name = ((t.undefine name).1, (t.undefine name).2.adding m) := by
  rw [undefine, undefine, get?_adding t m h]
  cases t.get? name with
  | none => rfl
  | some found => exact congrArg (fun entries => (true, MacroTable.mk entries)) (t.entries.insert_comm h.symm m _)

theorem Lacks.define {t : MacroTable} {name : String} (h : t.Lacks name) {n : Macro}
    (hbody : Macro.Lacks name.toList n.body.toList) : (t.define n).2.Lacks name := by
  intro other m hother hm
  rw [MacroTable.define, get?, OrderedMap.get?_insert] at hm
  split at hm
  · obtain ⟨hn, -⟩ := Option.filter_eq_some_iff.mp hm
    cases hn
    exact hbody
  · exact h other m hother hm

theorem Lacks.undefine {t : MacroTable} {name : String} (h : t.Lacks name) (undefined : String) :
    (t.undefine undefined).2.Lacks name := by
  rw [MacroTable.undefine]
  split
  · rename_i found hfound
    intro other m hother hm
    rw [get?, OrderedMap.get?_insert] at hm
    split at hm
    · obtain ⟨hn, hdefined⟩ := Option.filter_eq_some_iff.mp hm
      cases hn
      cases hdefined
    · exact h other m hother hm
  · exact h

end MacroTable

namespace Preprocess

open Directive (Particle Condition BranchOf isIdentifier wordsAll branchWords)

/-- A state with one macro more. -/
def State.adding (s : State) (m : Macro) : State := { s with macros := s.macros.adding m }

/-- The macros and the files of a state lack a name. -/
structure State.Lacks (s : State) (name : String) : Prop where
  macros : s.macros.Lacks name
  library : s.library.AllTexts fun text => Macro.Lacks name.toList text.toList

variable {m : Macro} {s : State}

theorem State.define_adding {d : MacroDefinition} (h : d.name ≠ m.name) :
    (s.adding m).define d = (s.define d).adding m := by
  have hdefine : (s.macros.adding m).define (.ofDefinition d) =
      ((s.macros.define (.ofDefinition d)).1, (s.macros.define (.ofDefinition d)).2.adding m) := s.macros.define_adding h
  rw [define, define]
  split
  · rfl
  · simp only [adding, hdefine]
    split
    · rfl
    · split <;> rfl

theorem State.undefine_adding {name : String} (h : name ≠ m.name) :
    (s.adding m).undefine name = (s.undefine name).adding m := by
  have hundefine := s.macros.undefine_adding m h
  simp only [undefine, adding, hundefine]
  cases s.macros.undefine name with
  | mk old macros => cases old <;> rfl

theorem State.Lacks.define {name : String} (h : s.Lacks name) {d : MacroDefinition} (hbody : Macro.Lacks name.toList d.body.toList) :
    (s.define d).Lacks name := by
  have hmacros : (s.macros.define (.ofDefinition d)).2.Lacks name := h.macros.define hbody
  rw [State.define]
  split
  · exact ⟨h.macros, h.library⟩
  · dsimp only
    split
    · exact ⟨hmacros, h.library⟩
    · split <;> exact ⟨hmacros, h.library⟩

theorem State.Lacks.undefine {name : String} (h : s.Lacks name) (undefined : String) : (s.undefine undefined).Lacks name := by
  have hmacros := h.macros.undefine undefined
  rw [State.undefine]
  split
  · rename_i macros hundefine
    rw [hundefine] at hmacros
    exact ⟨hmacros, h.library⟩
  · exact ⟨h.macros, h.library⟩

/-- With one macro more an outcome is the same, up to this macro in the state; the state still lacks its name. -/
def Frames (m : Macro) (outcome outcome' : String × State) : Prop :=
  outcome' = (outcome.1, outcome.2.adding m) ∧ outcome.2.Lacks m.name

section Visit

variable (hname : isIdentifier m.name.toList = true) (options : Options) (macros : List (String × String))

include hname

theorem decide_adding (hs : s.Lacks m.name) {condition : Condition}
    (h : ∀ name ∈ condition.names, Macro.Lacks m.name.toList name.toList) :
    (s.adding m).decide { options with predefined := macros } condition =
        ((s.decide options condition).1, (s.decide options condition).2.adding m) ∧
      (s.decide options condition).2.Lacks m.name := by
  cases condition with
  | holds e =>
    have hevaluate := Directive.evaluateLevels_adding hname hs.macros options.maxExpansionDepth options.maxExpansionDepth [] h
    have hnote : ∀ log, (s.note log).Lacks m.name := fun _ => ⟨hs.macros, hs.library⟩
    refine ⟨?_, hnote _⟩
    have hvalue : Directive.evaluate (s.adding m).macros options.maxExpansionDepth e =
        Directive.evaluate s.macros options.maxExpansionDepth e := hevaluate
    simp only [State.decide, hvalue]
    rfl
  | ifdef name =>
    have hne := Directive.ne_of_lacks (h name (List.mem_singleton_self name))
    refine ⟨?_, hs⟩
    simp only [State.decide, State.adding, MacroTable.isDefined, s.macros.get?_adding m hne]
  | ifndef name =>
    have hne := Directive.ne_of_lacks (h name (List.mem_singleton_self name))
    refine ⟨?_, hs⟩
    simp only [State.decide, State.adding, MacroTable.isDefined, s.macros.get?_adding m hne]

theorem expand_adding (maxDepth : Nat) (hs : s.Lacks m.name) {text : String} (h : Macro.Lacks m.name.toList text.toList) :
    Macro.expand (s.adding m).macros maxDepth text = Macro.expand s.macros maxDepth text := by
  have hexpand := Macro.expandLevels_adding (Directive.ne_nil_of_isIdentifier hname) (Directive.isWordChar_of_isIdentifier hname)
    hs.macros maxDepth maxDepth [] h
  have hmacros : (s.adding m).macros = s.macros.adding m := rfl
  rw [Macro.expand, Macro.expand, hmacros, hexpand]

end Visit

variable {options : Options} {macros : List (String × String)} {includer includer' : Includer}

mutual

/-- **A macro that a particle does not mention changes nothing in its output.** -/
theorem visit_adding (hname : isIdentifier m.name.toList = true)
    (hinclude : ∀ path s, s.Lacks m.name → Frames m (includer path s) (includer' path (s.adding m))) : ∀ (p : Particle) {s : State},
    s.Lacks m.name → (∀ word ∈ p.words, Macro.Lacks m.name.toList word.toList) →
    Frames m (visit options includer p s) (visit { options with predefined := macros } includer' p (s.adding m))
  | .text text, s, hs, h => by
    have htext := expand_adding hname options.maxExpansionDepth hs (h text (List.mem_singleton_self text))
    simp only [visit, htext]
    exact ⟨rfl, hs.macros, hs.library⟩
  | .define d, s, hs, h => by
    obtain ⟨hd, hbody⟩ := List.forall_mem_cons.mp h
    simp only [visit, State.define_adding (Directive.ne_of_lacks hd)]
    exact ⟨rfl, hs.define (hbody d.body (List.mem_singleton_self _))⟩
  | .undef name, s, hs, h => by
    have hne := Directive.ne_of_lacks (h name (List.mem_singleton_self name))
    simp only [visit, State.undefine_adding hne]
    exact ⟨rfl, hs.undefine name⟩
  | .error text, s, hs, _ => ⟨by simp only [visit]; rfl, hs.macros, hs.library⟩
  | .extension text, s, hs, _ => ⟨by simp only [visit], hs⟩
  | .include path span, s, hs, _ => by
    simp only [visit]
    exact hinclude path s hs
  | .line line source, s, hs, _ => ⟨by simp only [visit]; rfl, hs.macros, hs.library⟩
  | .null, s, hs, _ => ⟨by simp only [visit], hs⟩
  | .pragma text, s, hs, _ => ⟨by simp only [visit], hs⟩
  | .version version profile, s, hs, _ => by
    simp only [visit, State.setVersion]
    have hversion : (s.adding m).version = s.version := rfl
    rw [hversion]
    split <;> exact ⟨rfl, hs.macros, hs.library⟩
  | .conditional branches none, s, hs, h => by
    rw [Particle.words] at h
    obtain ⟨hbranches, hlacks⟩ := visitBranches_adding hname hinclude false branches hs h
    simp only [visit, hbranches]
    exact ⟨rfl, hlacks⟩
  | .conditional branches (some body), s, hs, h => by
    rw [Particle.words] at h
    obtain ⟨hbranchWords, hbody⟩ := List.forall_mem_append.mp h
    obtain ⟨hbranches, hlacks⟩ := visitBranches_adding hname hinclude false branches hs hbranchWords
    obtain ⟨hall, hlacksAll⟩ := visitAll_adding hname hinclude body hlacks hbody
    simp only [visit, hbranches]
    split
    · exact ⟨rfl, hlacks⟩
    · rw [hall]
      exact ⟨rfl, hlacksAll⟩

theorem visitAll_adding (hname : isIdentifier m.name.toList = true)
    (hinclude : ∀ path s, s.Lacks m.name → Frames m (includer path s) (includer' path (s.adding m))) :
    ∀ (ps : List Particle) {s : State}, s.Lacks m.name → (∀ word ∈ wordsAll ps, Macro.Lacks m.name.toList word.toList) →
    Frames m (visitAll options includer ps s) (visitAll { options with predefined := macros } includer' ps (s.adding m))
  | [], s, hs, _ => ⟨by rw [visitAll, visitAll], hs⟩
  | p :: rest, s, hs, h => by
    rw [wordsAll] at h
    obtain ⟨hwords, hrest⟩ := List.forall_mem_append.mp h
    obtain ⟨hp, hlacks⟩ := visit_adding hname hinclude p hs hwords
    obtain ⟨hall, hlacksAll⟩ := visitAll_adding hname hinclude rest hlacks hrest
    simp only [visitAll, hp, hall]
    exact ⟨rfl, hlacksAll⟩

theorem visitBranches_adding (hname : isIdentifier m.name.toList = true)
    (hinclude : ∀ path s, s.Lacks m.name → Frames m (includer path s) (includer' path (s.adding m))) :
    ∀ (taken : Bool) (branches : List (BranchOf Particle)) {s : State}, s.Lacks m.name →
    (∀ word ∈ branchWords branches, Macro.Lacks m.name.toList word.toList) →
    let outcome := visitBranches options includer taken branches s
    visitBranches { options with predefined := macros } includer' taken branches (s.adding m) =
        (outcome.1, outcome.2.1, outcome.2.2.adding m) ∧ outcome.2.2.Lacks m.name
  | taken, [], s, hs, _ => by
    simp only [visitBranches]
    exact ⟨trivial, hs⟩
  | true, ⟨condition, body⟩ :: rest, s, hs, h => by
    rw [branchWords] at h
    obtain ⟨hrest, hlacks⟩ := visitBranches_adding hname hinclude true rest hs (List.forall_mem_append.mp h).2
    simp only [visitBranches, hrest]
    exact ⟨trivial, hlacks⟩
  | false, ⟨condition, body⟩ :: rest, s, hs, h => by
    rw [branchWords] at h
    obtain ⟨hfront, hrest⟩ := List.forall_mem_append.mp h
    obtain ⟨hcondition, hbody⟩ := List.forall_mem_append.mp hfront
    obtain ⟨hdecide, hlacks⟩ := decide_adding hname options macros hs hcondition
    simp only [visitBranches, hdecide]
    split
    · obtain ⟨hall, hlacksAll⟩ := visitAll_adding hname hinclude body hlacks hbody
      obtain ⟨hbranches, hlacksBranches⟩ := visitBranches_adding hname hinclude true rest hlacksAll hrest
      simp only [hall, hbranches]
      exact ⟨trivial, hlacksBranches⟩
    · obtain ⟨hbranches, hlacksBranches⟩ := visitBranches_adding hname hinclude false rest hlacks hrest
      simp only [hbranches]
      exact ⟨trivial, hlacksBranches⟩

end

/-! ## Files and sources -/

section Files

variable (options macros) (hname : isIdentifier m.name.toList = true)

include hname

theorem includeText_adding
    (hinclude : ∀ path s, s.Lacks m.name → Frames m (includer path s) (includer' path (s.adding m))) (resource : Resource)
    {source : String} (hsource : Macro.Lacks m.name.toList source.toList) {s : State} (hs : s.Lacks m.name) :
    Frames m (includeText options includer resource source s)
      (includeText { options with predefined := macros } includer' resource source (s.adding m)) := by
  rw [includeText, includeText]
  cases hparse : Directive.parse source with
  | error e => exact ⟨rfl, hs.macros, hs.library⟩
  | ok particles =>
    have hwords := Directive.parse_lacks (Directive.ne_nil_of_isIdentifier hname) (Directive.isWordChar_of_isIdentifier hname)
      hsource hparse
    have hall : Frames m (visitAll options includer particles s)
        (visitAll { options with predefined := macros } includer' particles (s.adding m)) :=
      visitAll_adding hname hinclude particles hs hwords
    simp only [includeParticles, hall.1]
    exact ⟨rfl, hall.2⟩

theorem includeFile_adding : ∀ (levels : Nat) (path : String) (s : State), s.Lacks m.name →
    Frames m (includeFile options levels path s) (includeFile { options with predefined := macros } levels path (s.adding m))
  | 0, path, s, hs => ⟨rfl, hs.macros, hs.library⟩
  | levels + 1, path, s, hs => by
    have hlibrary : (s.adding m).library = s.library := rfl
    rw [includeFile, includeFile, includeWith, includeWith, hlibrary]
    cases Resource.ofPath path with
    | error e => exact ⟨rfl, hs.macros, hs.library⟩
    | ok resource =>
      dsimp only
      have hresolved := hs.library.resolve resource
      have hsource : ∀ source, (s.library.resolve resource).1 = .ok source → _ := fun _ => hs.library.of_resolve
      cases hresolve : s.library.resolve resource with
      | mk result library =>
        rw [hresolve] at hresolved hsource
        cases result with
        | error e => exact ⟨rfl, hs.macros, hresolved⟩
        | ok source =>
          have hs' : { s with library }.Lacks m.name := ⟨hs.macros, hresolved⟩
          exact includeText_adding options macros hname (includeFile_adding levels) resource (hsource source rfl) hs'

end Files

/-- A run with one macro more ends alike. -/
def Ends (m : Macro) (outcome outcome' : Except Diagnostic String × State) : Prop :=
  outcome' = (outcome.1, outcome.2.adding m) ∧ outcome.2.Lacks m.name

theorem Ends.map {outcome outcome' : Except Diagnostic String × State} (h : Ends m outcome outcome') (f : String → String) :
    Ends m (outcome.map (Except.map f) id) (outcome'.map (Except.map f) id) := by
  obtain ⟨rfl, hs⟩ := h
  exact ⟨rfl, hs⟩

section Sources

variable (options macros) (hname : isIdentifier m.name.toList = true)

include hname

theorem processSource_adding {source : String} (hsource : Macro.Lacks m.name.toList source.toList) {s : State}
    (hs : s.Lacks m.name) :
    Ends m (processSource options source s) (processSource { options with predefined := macros } source (s.adding m)) := by
  rw [processSource, processSource]
  cases hparse : Directive.parse source with
  | error e => exact ⟨rfl, hs⟩
  | ok particles =>
    have hwords := Directive.parse_lacks (Directive.ne_nil_of_isIdentifier hname) (Directive.isWordChar_of_isIdentifier hname)
      hsource hparse
    have hall : Frames m (visitAll options (includeFile options options.maxIncludeDepth) particles s)
        (visitAll { options with predefined := macros }
          (includeFile { options with predefined := macros } options.maxIncludeDepth) particles (s.adding m)) :=
      visitAll_adding hname (includeFile_adding options macros hname options.maxIncludeDepth) particles hs hwords
    simp only [processParticles, hall.1]
    exact ⟨rfl, hall.2⟩

theorem processHeader_adding {header : String} (hheader : Macro.Lacks m.name.toList header.toList) {s : State}
    (hs : s.Lacks m.name) :
    Ends m (processHeader options header s) (processHeader { options with predefined := macros } header (s.adding m)) := by
  rw [processHeader, processHeader]
  by_cases hempty : header.isEmpty = true
  · rw [if_pos hempty, if_pos hempty]
    exact ⟨rfl, hs⟩
  · rw [if_neg hempty, if_neg hempty]
    exact (processSource_adding options macros hname hheader hs).map endLine

theorem processAfter_adding {source : String} (hsource : Macro.Lacks m.name.toList source.toList)
    {front front' : Except Diagnostic String × State} (hfront : Ends m front front') :
    Ends m (processAfter options source front) (processAfter { options with predefined := macros } source front') := by
  obtain ⟨rfl, hs⟩ := hfront
  obtain ⟨result, s⟩ := front
  cases result with
  | error e => exact ⟨rfl, hs⟩
  | ok out => exact (processSource_adding options macros hname hsource hs).map (out ++ ·)

end Sources

end Preprocess

namespace MacroTable

theorem defineAll_adding (m : Macro) : ∀ (macros : List (String × String)) (t : MacroTable), (∀ entry ∈ macros, entry.1 ≠ m.name) →
    (t.adding m).defineAll macros = (t.defineAll macros).adding m
  | [], _, _ => rfl
  | (name, body) :: macros, t, h => by
    obtain ⟨hname, hmacros⟩ := List.forall_mem_cons.mp h
    have hdefine : ((t.adding m).define { name, body }).2 = (t.define { name, body }).2.adding m := by
      rw [t.define_adding hname]
    have hrest := defineAll_adding m macros (t.define { name, body }).2 hmacros
    rw [← hdefine] at hrest
    exact hrest

theorem Lacks.defineAll {name : String} : ∀ (macros : List (String × String)) {t : MacroTable}, t.Lacks name →
    (∀ entry ∈ macros, Macro.Lacks name.toList entry.2.toList) → (t.defineAll macros).Lacks name
  | [], _, ht, _ => ht
  | (other, body) :: macros, t, ht, h => by
    obtain ⟨hbody, hmacros⟩ := List.forall_mem_cons.mp h
    exact Lacks.defineAll macros (ht.define (n := { name := other, body }) hbody) hmacros

/-- The bodies of the macros every source starts from are numbers. -/
theorem lacks_predefined {name : String} (hname : Directive.isIdentifier name.toList = true) : predefined.Lacks name := by
  have hempty : MacroTable.Lacks {} name := by
    intro other m _ hm
    have hnone : (∅ : OrderedMap String Macro).get? other = none := rfl
    rw [get?, hnone] at hm
    cases hm
  have hdigits : ∀ entry ∈ [("__FILE__", "0"), ("__LINE__", "0"), ("__VERSION__", "150")],
      ∀ c ∈ entry.2.toList, isWordStart c = false := by
    simp only [List.forall_mem_cons]
    refine ⟨?_, ?_, ?_, List.forall_mem_nil _⟩ <;> simp <;> decide
  rw [predefined]
  exact Lacks.defineAll _ hempty fun entry hentry => Directive.lacks_of_isWordStart hname (hdigits entry hentry)

end MacroTable

namespace Preprocessor

open Preprocess Directive

/-- **A macro that is not used changes nothing.** If a name occurs in no text, neither in the source, the header and the files
nor in the names and values of the predefined macros, then with one more predefined macro of this name the processing gives the
same result and leaves the same version, line and log, and the same macros up to this one. -/
theorem process_unused (p : Preprocessor) (source : String) {name value : String} {front back : List (String × String)}
    (hname : isIdentifier name.toList = true) (hoptions : p.options.predefined = front ++ back)
    (hsource : Lacks name.toList source.toList) (hheader : Lacks name.toList p.header.toList)
    (hfiles : p.state.library.AllTexts fun text => Lacks name.toList text.toList)
    (hpredefined : ∀ entry ∈ p.options.predefined, Lacks name.toList entry.1.toList ∧ Lacks name.toList entry.2.toList) :
    let outcome := p.process source
    let outcome' := (p.setOptions { p.options with predefined := front ++ (name, value) :: back }).process source
    outcome'.1 = outcome.1 ∧ outcome'.2.state.version = outcome.2.state.version ∧ outcome'.2.state.line = outcome.2.state.line ∧
      outcome'.2.state.log = outcome.2.state.log ∧
      outcome'.2.state.macros = outcome.2.state.macros.adding { name, body := value } := by
  let m : Macro := { name, body := value }
  have hback : ∀ entry ∈ back, entry.1 ≠ m.name := by
    intro entry hentry
    exact ne_of_lacks (hpredefined entry (by rw [hoptions]; exact List.mem_append_right front hentry)).1
  have hinitial : State.initial { p.options with predefined := front ++ (name, value) :: back } p.state.library =
      (State.initial p.options p.state.library).adding m := by
    have hmacros := MacroTable.defineAll_adding m back (MacroTable.predefined.defineAll front) hback
    simp only [State.initial, State.adding, hoptions, MacroTable.defineAll, List.foldl_append, List.foldl_cons] at hmacros ⊢
    rw [← hmacros]
    rfl
  have hstart : (State.initial p.options p.state.library).Lacks m.name :=
    ⟨(MacroTable.lacks_predefined hname).defineAll _ fun entry hentry => (hpredefined entry hentry).2, hfiles⟩
  have hends := processAfter_adding (m := m) p.options (front ++ (name, value) :: back) hname hsource
    (processHeader_adding (m := m) p.options (front ++ (name, value) :: back) hname hheader hstart)
  rw [← hinitial] at hends
  have heq : (p.setOptions { p.options with predefined := front ++ (name, value) :: back }).process source =
      ((p.process source).1, { p.setOptions { p.options with predefined := front ++ (name, value) :: back } with
        state := (p.process source).2.state.adding m }) := by
    rw [process, process]
    exact congrArg (fun outcome => (outcome.1, ({ p.setOptions { p.options with predefined := front ++ (name, value) :: back } with
      state := outcome.2 } : Preprocessor))) hends.1
  simp only [heq]
  exact ⟨trivial, rfl, rfl, rfl, rfl⟩

/-- A macro `N` is not used where all texts, also that of a file, mention only `A` and `B`. -/
theorem process_unused_beside_others :
    let p : Preprocessor :=
      { options := { predefined := [("A", "B")] }, header := "#define B(x) x\n"
        state := .initial {} (.inMemory [(⟨["f"]⟩, "#if A\nB(A)\n#endif\n")]) }
    let p' := p.setOptions { p.options with predefined := [("A", "B"), ("N", "A")] }
    let source := "#include \"f\"\nB(A)\n"
    isIdentifier "N".toList = true ∧ Lacks "N".toList source.toList ∧
      (p.state.library.AllTexts fun text => Lacks "N".toList text.toList) ∧
      (p'.process source).1 = (p.process source).1 ∧
      (p'.process source).2.state.macros = (p.process source).2.state.macros.adding { name := "N", body := "A" } := by
  intro p p' source
  have hsource : Lacks "N".toList source.toList := by
    rw [Lacks]
    decide
  have hheader : Lacks "N".toList p.header.toList := by
    rw [Lacks]
    decide
  have hfile : Lacks "N".toList "#if A\nB(A)\n#endif\n".toList := by
    rw [Lacks]
    decide
  have hfiles : p.state.library.AllTexts fun text => Lacks "N".toList text.toList :=
    Library.allTexts_inMemory (List.forall_mem_singleton.mpr hfile)
  have hpredefined : ∀ entry ∈ p.options.predefined, Lacks "N".toList entry.1.toList ∧ Lacks "N".toList entry.2.toList := by
    refine List.forall_mem_singleton.mpr ?_
    rw [Lacks, Lacks]
    decide
  have hunused := @process_unused p source "N" "A" [("A", "B")] [] (by decide) rfl hsource hheader hfiles hpredefined
  exact ⟨by decide, hsource, hfiles, hunused.1, hunused.2.2.2.2⟩

end Preprocessor

end ShaderFront
