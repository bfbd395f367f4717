import Mathlib
import ShaderFront.Proofs.Builder

/-!
# Builders with tables

A builder can be searched for a name or a number, or it can keep two tables beside its symbols: the index of each name, and the
index of the terminal with each number (`Builder.Indexed`). A symbol is written into the tables when it is added, and the calls look
names and numbers up in them.

The tables hold what a search finds, whatever is asked of the builder (`Builder.Indexed.Coherent`), so that the calls with tables
do what the calls without them do (`Builder.Indexed.Follows`). Main statement: `Builder.Indexed.coherent_after`.
-/

namespace ShaderFront.Builder

/-- A builder, and what it knows its symbols by. -/
structure Indexed where
  builder : Builder := {}
  /-- The index of the symbol with a name. -/
  names : String → Option Nat := Function.update (fun _ => none) Symbol.startName (some 0)
  /-- The index of the terminal with a number. -/
  numbers : SymbolId → Option Nat := fun _ => none

namespace Indexed

/-! ## Calls -/

/-- A call on a builder with tables. -/
abbrev Call (α : Type) := Indexed → Except GrammarError α × Indexed

/-- Adds a symbol, and writes it into the tables. -/
def push (s : PendingSymbol) (x : Indexed) : Indexed :=
  { builder := { x.builder with symbols := x.builder.symbols.push s }
    names := Function.update x.names s.name (some x.builder.symbols.size)
    numbers :=
      match s.terminal with
      | some id => Function.update x.numbers id (some x.builder.symbols.size)
      | none => x.numbers }

/-- The name of the symbol at an index. -/
def nameAt (x : Indexed) (index : Nat) : String :=
  match x.builder.symbols[index]? with
  | some s => s.name
  | none => ""

/-- Registers a terminal with the number its lexer gives it. -/
def addTerminal (name : String) (id : SymbolId) (role : Role) : Call Unit := fun x =>
  if (x.names name).isSome then (.error (.duplicateSymbol name), x)
  else
    match x.numbers id with
    | some other => (.error (.duplicateId name id (x.nameAt other)), x)
    | none =>
      if role ≠ .common && x.builder.symbols.any (·.role = role) then (.error (.duplicateRole role), x)
      else (.ok (), x.push { name, role, terminal := some id })

/-- The wildcard will not stand in for this terminal. -/
def excludeFromWildcard (name : String) : Call Unit := fun x =>
  match x.names name with
  | some index =>
    if x.builder.isTerminalAt index then
      let exclusions := x.builder.exclusions
      (.ok (), if index ∈ exclusions then x else { x with builder := { x.builder with exclusions := exclusions ++ [index] } })
    else (.error (.notATerminal name), x)
  | none => (.error (.notATerminal name), x)

/-- The index of a name. A name that is not known yet becomes a nonterminal. -/
def intern (name : String) (x : Indexed) : Nat × Indexed :=
  match x.names name with
  | some index => (index, x)
  | none => (x.builder.symbols.size, x.push { name })

/-- The indices of some names, in order. -/
def internAll : List String → Indexed → List Nat × Indexed
  | [], x => ([], x)
  | name :: rest, x =>
    let (index, x) := intern name x
    let (indices, x) := internAll rest x
    (index :: indices, x)

/-- Adds an alternative for a head. The empty symbol stands for nothing in a body. -/
def addProductionSymbols (head : String) (body : List String) : Call ProductionId := fun x =>
  let (headIndex, x) := intern head x
  if x.builder.isTerminalAt headIndex then (.error (.terminalHead head), x)
  else
    let (interned, x) := internAll (body.filter (· ≠ Symbol.emptyName)) x
    let b := x.builder
    let indices := interned.filter fun index => !b.isEmptyAt index
    let duplicate := (b.alternativesAt headIndex).any fun id => b.productions[id]?.any (·.body = indices)
    if duplicate then (.error (.duplicateProduction head (" ".intercalate body)), x)
    else (.ok b.productions.size, { x with builder := b.pushProduction headIndex indices })

/-- Adds an alternative whose body is a text of symbol names between blanks. -/
def addProduction (head body : String) : Call ProductionId := addProductionSymbols head (Text.words body)

/-- Adds rules whose production numbers must be `index`, `index + 1`, ... . Stops at the first failure. -/
def addRulesFrom (index : Nat) : List (String × String) → Call Unit
  | [], x => (.ok (), x)
  | (head, body) :: rest, x =>
    match addProduction head body x with
    | (.error e, x) => (.error e, x)
    | (.ok id, x) =>
      if id = index then addRulesFrom (index + 1) rest x
      else (.error (.unexpectedProductionId (head ++ " ::= " ++ body) id index), x)

/-- The builder after a request, granted or not. -/
def apply (x : Indexed) : Request → Indexed
  | .terminal name id role => (addTerminal name id role x).2
  | .exclude name => (excludeFromWildcard name x).2
  | .production head body => (addProduction head body x).2
  | .symbols head body => (addProductionSymbols head body x).2
  | .rules list => (addRulesFrom 0 list x).2

/-- A new builder after some requests. -/
def after (requests : List Request) : Indexed := requests.foldl apply {}

/-! ## The invariant -/

/-- The tables hold what a search of the symbols finds. -/
structure Coherent (x : Indexed) : Prop where
  names : ∀ name, x.names name = x.builder.indexOf? name
  numbers : ∀ id, x.numbers id = x.builder.symbols.findIdx? (·.terminal = some id)

variable {x : Indexed} {b : Builder}

/-- The symbols determine the tables. -/
theorem Coherent.eq {y : Indexed} (hx : x.Coherent) (hy : y.Coherent) (h : x.builder = y.builder) : x = y := by
  obtain ⟨b, names, numbers⟩ := x
  obtain ⟨b', names', numbers'⟩ := y
  obtain rfl : b = b' := h
  obtain rfl : names = names' := funext fun name => (hx.names name).trans (hy.names name).symm
  obtain rfl : numbers = numbers' := funext fun id => (hx.numbers id).trans (hy.numbers id).symm
  rfl

theorem coherent_new : Coherent {} := by
  constructor
  · intro name
    simp [Builder.indexOf?, Function.update_apply, eq_comm]
  · intro id
    simp

/-- A symbol may be added if its name and its number are new. -/
theorem Coherent.push (h : x.Coherent) {s : PendingSymbol} (hname : x.names s.name = none)
    (hnumber : ∀ id, s.terminal = some id → x.numbers id = none) : (x.push s).Coherent := by
  constructor
  · intro name
    change Function.update x.names _ _ _ = Array.findIdx? (fun t : PendingSymbol => t.name = name) (x.builder.symbols.push s)
    rw [Array.findIdx?_push, ← Builder.indexOf?, ← h.names, Function.update_apply]
    by_cases heq : name = s.name
    · rw [if_pos heq, heq, hname]
      simp
    · simp [heq, Ne.symm heq]
  · intro id
    change _ = Array.findIdx? (fun t : PendingSymbol => t.terminal = some id) (x.builder.symbols.push s)
    rw [Array.findIdx?_push, ← h.numbers]
    cases hs : s.terminal with
    | none => simp [Indexed.push, hs]
    | some own =>
      have hown : (x.push s).numbers = Function.update x.numbers own (some x.builder.symbols.size) := by
        simp [Indexed.push, hs]
      rw [hown, Function.update_apply]
      by_cases heq : id = own
      · rw [if_pos heq, heq, hnumber own hs]
        simp
      · simp [heq, Ne.symm heq]

/-- A change of one symbol that a test does not see moves no hit. -/
theorem findIdx?_modify {α : Type} {p : α → Bool} {f : α → α} (h : ∀ a, p (f a) = p a) (xs : Array α) (i : Nat) :
    (xs.modify i f).findIdx? p = xs.findIdx? p := by
  have hmap : (xs.modify i f).map p = xs.map p := by
    apply Array.ext
    · simp
    · intro j hj hj'
      simp only [Array.getElem_map, Array.getElem_modify]
      split
      · exact h _
      · rfl
  simpa [Array.findIdx?_map] using congrArg (Array.findIdx? id) hmap

/-- A new production changes neither names nor numbers. -/
theorem Coherent.pushProduction (h : x.Coherent) (head : Nat) (body : List Nat) :
    Coherent { x with builder := x.builder.pushProduction head body } := by
  constructor
  · intro name
    rw [h.names, Builder.indexOf?, Builder.indexOf?, Builder.pushProduction, findIdx?_modify]
    exact fun _ => rfl
  · intro id
    rw [h.numbers, Builder.pushProduction, findIdx?_modify]
    exact fun _ => rfl

/-! ## Calls with and without tables -/

/-- A call with tables gives the answer and the builder of a call without them, and leaves tables that hold what a search finds. -/
structure Follows {α : Type} (call : α × Indexed) (plain : α × Builder) : Prop where
  answer : call.1 = plain.1
  builder : call.2.builder = plain.2
  coherent : call.2.Coherent

/-- The name of the terminal with a number, by its index. -/
theorem terminalWithId?_eq (b : Builder) (id : SymbolId) : b.terminalWithId? id =
    (b.symbols.findIdx? (·.terminal = some id)).bind fun i => b.symbols[i]?.map (·.name) := by
  rw [terminalWithId?, Array.find?_eq_bind_findIdx?_getElem?, Option.map_bind]
  rfl

theorem Coherent.addTerminal (h : x.Coherent) (name : String) (id : SymbolId) (role : Role) :
    Follows (addTerminal name id role x) (Builder.addTerminal name id role x.builder) := by
  unfold Indexed.addTerminal Builder.addTerminal
  rw [h.names, h.numbers, terminalWithId?_eq]
  split
  · exact ⟨rfl, rfl, h⟩
  · rename_i hname
    cases hid : x.builder.symbols.findIdx? (·.terminal = some id) with
    | some other =>
      obtain ⟨hlt, -⟩ := Array.findIdx?_eq_some_iff_getElem.mp hid
      simp only [Option.bind_some, Array.getElem?_eq_getElem hlt, Option.map_some]
      exact ⟨by simp [Indexed.nameAt, hlt], rfl, h⟩
    | none =>
      simp only [Option.bind_none]
      split
      · exact ⟨rfl, rfl, h⟩
      · refine ⟨rfl, rfl, h.push ?_ ?_⟩
        · rw [h.names]
          simpa using hname
        · intro own hown
          cases hown
          rw [h.numbers, hid]

theorem Coherent.excludeFromWildcard (h : x.Coherent) (name : String) :
    Follows (excludeFromWildcard name x) (Builder.excludeFromWildcard name x.builder) := by
  unfold Indexed.excludeFromWildcard Builder.excludeFromWildcard
  rw [h.names]
  cases x.builder.indexOf? name with
  | none => exact ⟨rfl, rfl, h⟩
  | some index =>
    dsimp only
    split
    · split
      · exact ⟨rfl, rfl, h⟩
      · exact ⟨rfl, rfl, h.names, h.numbers⟩
    · exact ⟨rfl, rfl, h⟩

theorem Coherent.intern (h : x.Coherent) (name : String) :
    Follows (intern name x) (Builder.intern name x.builder) := by
  unfold Indexed.intern Builder.intern
  rw [h.names]
  cases hname : x.builder.indexOf? name with
  | some index => exact ⟨rfl, rfl, h⟩
  | none => exact ⟨rfl, rfl, h.push ((h.names name).trans hname) (fun _ hnone => by cases hnone)⟩

theorem Coherent.internAll : ∀ (names : List String) {x : Indexed}, x.Coherent →
    Follows (internAll names x) (Builder.internAll names x.builder)
  | [], _, h => ⟨rfl, rfl, h⟩
  | name :: rest, x, h => by
    have hfirst := h.intern name
    have hrest := Coherent.internAll rest hfirst.coherent
    rw [hfirst.builder] at hrest
    exact ⟨congrArg₂ List.cons hfirst.answer hrest.answer, hrest.builder, hrest.coherent⟩

theorem Coherent.addProductionSymbols (h : x.Coherent) (head : String) (body : List String) :
    Follows (addProductionSymbols head body x) (Builder.addProductionSymbols head body x.builder) := by
  have hhead := h.intern head
  have hbody := Coherent.internAll (body.filter (· ≠ Symbol.emptyName)) hhead.coherent
  rw [hhead.builder] at hbody
  unfold Indexed.addProductionSymbols Builder.addProductionSymbols
  simp only [hhead.answer, hhead.builder, hbody.answer, hbody.builder]
  split
  · exact ⟨rfl, hhead.builder, hhead.coherent⟩
  · split
    · exact ⟨rfl, hbody.builder, hbody.coherent⟩
    · refine ⟨rfl, rfl, ?_⟩
      have hpush := hbody.coherent.pushProduction
      rw [hbody.builder] at hpush
      exact hpush _ _

theorem Coherent.addRulesFrom : ∀ (rules : List (String × String)) (index : Nat) {x : Indexed}, x.Coherent →
    Follows (addRulesFrom index rules x) (Builder.addRulesFrom index rules x.builder)
  | [], _, _, h => ⟨rfl, rfl, h⟩
  | (head, body) :: rest, index, x, h => by
    obtain ⟨hanswer, hbuilder, hcoherent⟩ := h.addProductionSymbols head (Text.words body)
    unfold Indexed.addRulesFrom Builder.addRulesFrom Indexed.addProduction Builder.addProduction
    generalize Indexed.addProductionSymbols head (Text.words body) x = call at *
    generalize Builder.addProductionSymbols head (Text.words body) x.builder = plain at *
    obtain ⟨answer, y⟩ := call
    obtain ⟨_, _⟩ := plain
    cases hanswer
    cases hbuilder
    cases answer with
    | error e => exact ⟨rfl, rfl, hcoherent⟩
    | ok id =>
      dsimp only
      split
      · exact Coherent.addRulesFrom rest _ hcoherent
      · exact ⟨rfl, rfl, hcoherent⟩

/-! ## All requests -/

/-- One request does the same with and without tables. -/
theorem Coherent.apply (h : x.Coherent) (request : Request) :
    (x.apply request).builder = request.apply x.builder ∧ (x.apply request).Coherent := by
  cases request with
  | terminal name id role => exact ⟨(h.addTerminal name id role).builder, (h.addTerminal name id role).coherent⟩
  | exclude name => exact ⟨(h.excludeFromWildcard name).builder, (h.excludeFromWildcard name).coherent⟩
  | production head body => exact ⟨(h.addProductionSymbols head _).builder, (h.addProductionSymbols head _).coherent⟩
  | symbols head body => exact ⟨(h.addProductionSymbols head body).builder, (h.addProductionSymbols head body).coherent⟩
  | rules list => exact ⟨(Coherent.addRulesFrom list 0 h).builder, (Coherent.addRulesFrom list 0 h).coherent⟩

/-- **Requests do the same with and without tables**, and the tables hold what a search finds. -/
theorem coherent_after (requests : List Request) :
    (after requests).builder = Builder.after requests ∧ (after requests).Coherent := by
  suffices h : ∀ x : Indexed, x.Coherent → (requests.foldl apply x).builder = requests.foldl Request.apply x.builder ∧
      (requests.foldl apply x).Coherent from h {} coherent_new
  induction requests with
  | nil => exact fun _ h => ⟨rfl, h⟩
  | cons request rest ih =>
    intro x h
    obtain ⟨hbuilder, hcoherent⟩ := h.apply request
    rw [List.foldl_cons, List.foldl_cons, ← hbuilder]
    exact ih _ hcoherent

end Indexed

end ShaderFront.Builder
