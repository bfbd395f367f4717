import Mathlib
import ShaderFront.Proofs.Buildable
import ShaderFront.Proofs.Indices

/-!
# Refused calls

A call on a builder that is refused leaves no trace. Most calls are refused before they write anything. Adding a production is not:
its head and the names of its body become symbols before the head is found to be a terminal or the body to be known. But a terminal
was known before, and so were all the symbols of a known body, so that nothing was written after all
(`Builder.WellFormed.addProductionSymbols_refused`).

Main statement: `Builder.refused_unchanged`. Adding a list of rules is not meant: the rules before the one that is refused stay.
-/

namespace ShaderFront.Builder

variable {b : Builder}

/-! ## Names that are looked up -/

/-- A name whose index was an index before is known. -/
theorem intern_of_lt {name : String} (h : (intern name b).1 < b.symbols.size) : (intern name b).2 = b := by
  unfold intern at h ⊢
  split
  · rfl
  · rename_i hnone
    rw [hnone] at h
    exact absurd h (lt_irrefl _)

theorem internAll_of_lt : ∀ {names : List String} {b : Builder}, (∀ i ∈ (internAll names b).1, i < b.symbols.size) →
    (internAll names b).2 = b
  | [], _, _ => rfl
  | name :: rest, b, h => by
    obtain ⟨hfirst, hrest⟩ := List.forall_mem_cons.mp h
    have hb := intern_of_lt hfirst
    change ∀ i ∈ (internAll rest (intern name b).2).1, i < b.symbols.size at hrest
    change (internAll rest (intern name b).2).2 = b
    rw [hb] at hrest ⊢
    exact internAll_of_lt hrest

/-- A symbol that is new after a name was looked up is a nonterminal without alternatives. -/
theorem eq_of_intern {name : String} {i : Nat} {s : PendingSymbol} (hs : (intern name b).2.symbols[i]? = some s)
    (hi : ¬ i < b.symbols.size) : s = { name } :=
  (intern_cases hs).resolve_left fun hold => hi (Array.getElem?_eq_some_iff.mp hold).1

/-- A name that turns out to be a terminal was known. -/
theorem intern_of_isTerminalAt {name : String} (h : (intern name b).2.isTerminalAt (intern name b).1 = true) :
    (intern name b).2 = b := by
  refine intern_of_lt ?_
  by_contra hi
  obtain ⟨s, hs⟩ := intern_known name b
  rw [isTerminalAt, hs, eq_of_intern hs hi] at h
  cases h

/-- A name that turns out to have alternatives was known. -/
theorem intern_of_mem_alternativesAt {name : String} {id : ProductionId}
    (h : id ∈ (intern name b).2.alternativesAt (intern name b).1) : (intern name b).2 = b := by
  refine intern_of_lt ?_
  by_contra hi
  obtain ⟨s, hs⟩ := intern_known name b
  rw [alternativesAt, hs, eq_of_intern hs hi] at h
  cases h

/-- A symbol that is new after the names of a body were looked up does not stand for the empty string. -/
theorem isEmptyAt_internAll {names : List String} {i : Nat} (hi : ¬ i < b.symbols.size) :
    (internAll names b).2.isEmptyAt i = false := by
  rw [isEmptyAt]
  cases hs : (internAll names b).2.symbols[i]? with
  | none => rfl
  | some s =>
    rcases internAll_cases hs with hold | ⟨name, -, rfl⟩
    · exact absurd (Array.getElem?_eq_some_iff.mp hold).1 hi
    · rfl

/-- If a production has the body that some names stand for, the names were known. -/
theorem WellFormed.internAll_of_body (h : b.WellFormed) {names : List String} {id : ProductionId} {p : PendingProduction}
    (hp : b.productions[id]? = some p)
    (hbody : p.body = (Builder.internAll names b).1.filter fun i => !(Builder.internAll names b).2.isEmptyAt i) :
    (Builder.internAll names b).2 = b := by
  refine internAll_of_lt fun i hi => ?_
  by_contra hnew
  have hmem : i ∈ p.body := by
    rw [hbody]
    exact List.mem_filter.mpr ⟨hi, by rw [isEmptyAt_internAll hnew]; rfl⟩
  obtain ⟨s, hs, -⟩ := h.body hp i hmem
  exact hnew (Array.getElem?_eq_some_iff.mp hs).1

/-! ## Refused calls -/

theorem addTerminal_refused {name : String} {id : SymbolId} {role : Role} {e : GrammarError}
    (he : (addTerminal name id role b).1 = .error e) : (addTerminal name id role b).2 = b := by
  unfold addTerminal at he ⊢
  split
  · rfl
  · rename_i hname
    split
    · rfl
    · rename_i hid
      split
      · rfl
      · rename_i hrole
        rw [if_neg hname, hid] at he
        dsimp only at he
        rw [if_neg hrole] at he
        cases he

theorem excludeFromWildcard_refused {name : String} {e : GrammarError} (he : (excludeFromWildcard name b).1 = .error e) :
    (excludeFromWildcard name b).2 = b := by
  unfold excludeFromWildcard at he ⊢
  split
  · rename_i hindex
    split
    · rename_i hterminal
      rw [hindex] at he
      dsimp only at he
      rw [if_pos hterminal] at he
      cases he
    · rfl
  · rfl

/-- **A production that is refused leaves the builder as it was**, although its names were looked up before. -/
theorem WellFormed.addProductionSymbols_refused (h : b.WellFormed) {head : String} {body : List String} {e : GrammarError}
    (he : (Builder.addProductionSymbols head body b).1 = .error e) : (Builder.addProductionSymbols head body b).2 = b := by
  unfold Builder.addProductionSymbols at he ⊢
  simp only at he ⊢
  split
  · rename_i hterminal
    exact intern_of_isTerminalAt hterminal
  · rename_i hterminal
    split
    · rename_i hduplicate
      obtain ⟨id, hid, hsame⟩ := List.any_eq_true.mp hduplicate
      obtain ⟨p, hp, hbody⟩ := (Option.any_eq_true _ _).mp hsame
      -- the body of a production is looked up, so that no name of it is new
      have hnames : (Builder.internAll (body.filter (· ≠ Symbol.emptyName)) (Builder.intern head b).2).2 =
          (Builder.intern head b).2 := by
        rw [(internAll_extends _ _).productions] at hp
        exact (h.intern head).internAll_of_body hp (of_decide_eq_true hbody)
      rw [hnames] at hid ⊢
      -- and a head with an alternative is not new either
      exact intern_of_mem_alternativesAt hid
    · rename_i hduplicate
      rw [if_neg hterminal, if_neg hduplicate] at he
      cases he

/-! ## Builders with tables -/

/-- A call does the same with and without tables, and if it is refused, it changes neither the builder nor the tables. -/
structure Traceless {α : Type} (call : Indexed.Call α) (plain : Call α) (x : Indexed) : Prop where
  answer : (call x).1 = (plain x.builder).1
  builder : (call x).2.builder = (plain x.builder).2
  refused : ∀ e, (call x).1 = .error e → (call x).2 = x

theorem traceless_of_follows {α : Type} {call : Indexed.Call α} {plain : Call α} {x : Indexed} (hx : x.Coherent)
    (h : Indexed.Follows (call x) (plain x.builder))
    (hrefused : ∀ e, (plain x.builder).1 = .error e → (plain x.builder).2 = x.builder) : Traceless call plain x :=
  ⟨h.answer, h.builder, fun e he => h.coherent.eq hx (h.builder.trans (hrefused e (h.answer.symm.trans he)))⟩

/-- **A refused call leaves no trace**: whatever was asked of a builder before, a call that is refused leaves the symbols with their
names and numbers, the productions and the exclusions as they were, and the tables of names and numbers, too. -/
theorem refused_unchanged (requests : List Request) :
    (Indexed.after requests).builder = after requests ∧
      (∀ name id role, Traceless (Indexed.addTerminal name id role) (addTerminal name id role) (Indexed.after requests)) ∧
      (∀ head body, Traceless (Indexed.addProduction head body) (addProduction head body) (Indexed.after requests)) ∧
      (∀ head body, Traceless (Indexed.addProductionSymbols head body) (addProductionSymbols head body)
        (Indexed.after requests)) ∧
      ∀ name, Traceless (Indexed.excludeFromWildcard name) (excludeFromWildcard name) (Indexed.after requests) := by
  obtain ⟨hbuilder, hx⟩ := Indexed.coherent_after requests
  have h : (Indexed.after requests).builder.WellFormed := hbuilder ▸ wellFormed_after requests
  refine ⟨hbuilder, fun name id role => ?_, fun head body => ?_, fun head body => ?_, fun name => ?_⟩
  · exact traceless_of_follows hx (hx.addTerminal name id role) fun _ => addTerminal_refused
  · exact traceless_of_follows hx (hx.addProductionSymbols head _) fun _ => h.addProductionSymbols_refused
  · exact traceless_of_follows hx (hx.addProductionSymbols head body) fun _ => h.addProductionSymbols_refused
  · exact traceless_of_follows hx (hx.excludeFromWildcard name) fun _ => excludeFromWildcard_refused

/-- Requests for nested parentheses, with a terminal that stands for the empty string. -/
def guardedRequests : List Request :=
  [.terminal "(" 1 .common, .terminal ")" 2 .common, .terminal "nil" 3 .empty, .symbols "$START$" ["S"],
    .symbols "S" ["(", "S", ")"], .symbols "S" []]

/-- A name, a number and a role that are taken, a terminal as a head, a rule that is known up to the empty symbol, and a nonterminal
for the wildcard are refused. -/
theorem refused_unchanged_guarded :
    let x := Indexed.after guardedRequests
    Indexed.addTerminal "S" 9 .common x = (.error (.duplicateSymbol "S"), x) ∧
      Indexed.addTerminal "[" 1 .common x = (.error (.duplicateId "[" 1 "("), x) ∧
      Indexed.addTerminal "none" 9 .empty x = (.error (.duplicateRole .empty), x) ∧
      Indexed.addProductionSymbols "(" ["T"] x = (.error (.terminalHead "("), x) ∧
      Indexed.addProduction "S" "( nil S )" x = (.error (.duplicateProduction "S" "( nil S )"), x) ∧
      Indexed.excludeFromWildcard "S" x = (.error (.notATerminal "S"), x) := by
  intro x
  obtain ⟨-, hterminal, hproduction, hsymbols, hexclude⟩ := refused_unchanged guardedRequests
  have refused : ∀ {α : Type} {call : Indexed.Call α} {plain : Call α} {e : GrammarError}, Traceless call plain x →
      (call x).1 = .error e → call x = (.error e, x) := fun h he => Prod.ext he (h.refused _ he)
  refine ⟨refused (hterminal "S" 9 .common) ?_, refused (hterminal "[" 1 .common) ?_, refused (hterminal "none" 9 .empty) ?_,
    refused (hsymbols "(" ["T"]) ?_, refused (hproduction "S" "( nil S )") ?_, refused (hexclude "S") ?_⟩
  all_goals decide +kernel

end ShaderFront.Builder
