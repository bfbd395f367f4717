import Mathlib
import ShaderFront.Parse.Language

/-!
# Elements taken by a cursor

A cursor that is asked for elements of some kinds gives the elements of its body as they are, if these are their kinds
(`Cursor.elementsOf_map_kind`), and otherwise an error that has no place (`Cursor.elementsOf_eq_error`). So a language builds a node
by the rule itself wherever the elements are what the words of the rule stand for (`Language.semantics_of_kinds`).
-/

namespace ShaderFront

variable {N : Type}

namespace Cursor

variable {id : ProductionId} {kind : ElementKind} {e : ParseError}

theorem element_cons (first : Matched N) (rest : List (Matched N)) : (⟨id, first :: rest⟩ : Cursor N).element kind =
    if first.kind = kind then .ok (first, ⟨id, rest⟩) else .error (.semantic s!"production {id}: expected a {kind.text}") := by
  simp only [element, take, next]
  by_cases hkind : first.kind = kind
  · simp only [if_pos hkind]
  · simp only [if_neg hkind]

/-- **Elements of the kinds that are asked for are taken as they are.** -/
theorem elementsOf_map_kind (elements : List (Matched N)) :
    (⟨id, elements⟩ : Cursor N).elementsOf (elements.map Matched.kind) = .ok elements := by
  induction elements with
  | nil => rfl
  | cons first rest ih =>
    rw [List.map_cons, elementsOf, element_cons, if_pos rfl]
    simp only [ih]
    rfl

/-- The errors of a cursor have no place. -/
theorem elementsOf_eq_error {elements : List (Matched N)} {kinds : List ElementKind}
    (h : (⟨id, elements⟩ : Cursor N).elementsOf kinds = .error e) : e.span? = none := by
  induction kinds generalizing elements with
  | nil => cases h
  | cons kind kinds ih =>
    cases elements with
    | nil =>
      cases h
      rfl
    | cons first rest =>
      rw [elementsOf, element_cons] at h
      by_cases hkind : first.kind = kind
      · simp only [if_pos hkind] at h
        cases hrest : (⟨id, rest⟩ : Cursor N).elementsOf kinds with
        | error e' =>
          rw [hrest] at h
          cases h
          exact ih hrest
        | ok others =>
          rw [hrest] at h
          cases h
      · simp only [if_neg hkind] at h
        cases h
        rfl

/-- A cursor takes the images of elements where it takes the elements. -/
theorem elementsOf_map {f : Matched N → Matched N} (hf : ∀ first, (f first).kind = first.kind) (elements : List (Matched N))
    (kinds : List ElementKind) : (⟨id, elements.map f⟩ : Cursor N).elementsOf kinds =
      ((⟨id, elements⟩ : Cursor N).elementsOf kinds).map (·.map f) := by
  induction kinds generalizing elements with
  | nil => rfl
  | cons kind kinds ih =>
    cases elements with
    | nil => rfl
    | cons first rest =>
      rw [List.map_cons, elementsOf, elementsOf, element_cons, element_cons, hf]
      by_cases hkind : first.kind = kind
      · simp only [if_pos hkind, ih]
        cases (⟨id, rest⟩ : Cursor N).elementsOf kinds <;> rfl
      · simp only [if_neg hkind]
        rfl

end Cursor

namespace Language

variable {l : Language N} {id : ProductionId} {r : Rule N} {elements : List (Matched N)}

/-- **Elements of the right kinds come to the rule as they are.** -/
theorem semantics_of_kinds (hr : l.rules[id]? = some r) (hkinds : elements.map Matched.kind = l.kinds (Text.words r.body))
    (memory : Unit) : l.semantics id elements memory = (r.build elements, memory) := by
  simp only [semantics, List.getElem?_toArray, hr, ← hkinds, Cursor.elementsOf_map_kind]

theorem kinds_cons (l : Language N) (word : String) (words : List String) :
    l.kinds (word :: words) = (if l.terminals.any (·.name = word) then .token else .node) :: l.kinds words := rfl

theorem kinds_cons_of_mem {t : Terminal} (ht : t ∈ l.terminals) (words : List String) :
    l.kinds (t.name :: words) = .token :: l.kinds words := by
  rw [kinds_cons, if_pos (List.any_eq_true.mpr ⟨t, ht, decide_eq_true rfl⟩)]

theorem kinds_cons_of_forall_ne {word : String} (h : ∀ t ∈ l.terminals, t.name ≠ word) (words : List String) :
    l.kinds (word :: words) = .node :: l.kinds words := by
  rw [kinds_cons, if_neg]
  intro hany
  obtain ⟨t, ht, hname⟩ := List.any_eq_true.mp hany
  exact h t ht (of_decide_eq_true hname)

end Language

end ShaderFront
