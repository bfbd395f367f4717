import Mathlib
import ShaderFront.Proofs.Answers
import ShaderFront.Tag.Language

/-!
# The rules of annotations, spelled

The alphabet of annotations (`Tag.alphabet_covers`), and the sort of the node of each nonterminal. Every rule builds a node of
the sort of its head, or refuses the text of a number (`Tag.rules_fit`).
-/

namespace ShaderFront.Tag

/-- The nonterminals, in the order of their first appearance. -/
inductive Nonterminal where
  | start
  | tagList
  | tag
  | tagAssignment
  | valueList
  | singleValue
  | tagName
deriving DecidableEq

/-- The name of a nonterminal in the rules. -/
def Nonterminal.name : Nonterminal → String
  | .start => "$START$"
  | .tagList => "tag-list"
  | .tag => "tag"
  | .tagAssignment => "tag-assignment"
  | .valueList => "value-list"
  | .singleValue => "single-value"
  | .tagName => "tag-name"

/-- The productions, in the order of the rules. -/
def productions : List (Spelling TokenKind Nonterminal) :=
  [ ⟨.start, [.node .tagList]⟩,
    ⟨.tagList, [.node .tag]⟩,
    ⟨.tagList, [.node .tagList, .node .tag]⟩,
    ⟨.tagList, [.node .tagList, .token .comma, .node .tag]⟩,
    ⟨.tag, [.node .tagAssignment, .token .bracketLeft, .node .valueList, .token .bracketRight]⟩,
    ⟨.tag, [.node .tagAssignment, .node .singleValue]⟩,
    ⟨.tagAssignment, [.node .tagName, .token .equal]⟩,
    ⟨.tagAssignment, [.node .tagAssignment, .node .tagName, .token .equal]⟩,
    ⟨.tagName, [.token .at, .token .identifier]⟩,
    ⟨.valueList, [.node .singleValue]⟩,
    ⟨.valueList, [.node .valueList, .token .comma, .node .singleValue]⟩,
    ⟨.singleValue, [.token .true_]⟩,
    ⟨.singleValue, [.token .false_]⟩,
    ⟨.singleValue, [.token .intConstant]⟩,
    ⟨.singleValue, [.token .floatConstant]⟩,
    ⟨.singleValue, [.token .string]⟩,
    ⟨.singleValue, [.token .character]⟩ ]

/-- The alphabet of annotations. -/
def alphabet : Alphabet TokenKind Nonterminal where
  kinds := TokenKind.all
  terminal kind := { name := kind.name, id := kind.id }
  heads := [.start, .tagList, .tag, .tagAssignment, .valueList, .singleValue, .tagName]
  nonterminal := Nonterminal.name
  rank := Nonterminal.ctorIdx
  start := .start
  root := .tagList
  productions := productions

/-- **The productions are the rules.** -/
theorem rules_spelled : rules.map (fun r => (r.head, Text.words r.body)) =
    productions.map fun p => (p.head.name, p.body.map alphabet.name) := by
  simp only [rules, productions, List.map_cons, List.map_nil, List.cons.injEq, Prod.mk.injEq, Alphabet.name, alphabet,
    Nonterminal.name, TokenKind.name, true_and, and_true]
  and_intros <;> exact Text.words_ofList _

theorem alphabet_covers : alphabet.Covers language where
  mem_kinds kind := by cases kind <;> decide
  mem_heads head := by cases head <;> decide
  terminals := rfl
  rules := rules_spelled
  ids := by decide +kernel
  roles := by decide +kernel
  wildcards := by decide +kernel
  names := by decide +kernel
  ranks := by decide +kernel
  empty := by decide +kernel
  startName := rfl
  startRank := rfl
  startBody := by decide +kernel
  start_not_mem := by decide +kernel
  different := by decide +kernel
  defined := by decide +kernel

/-- The tables of the alphabet have no conflicts and parse in few moves. -/
def tameness : alphabet.outline.Tame := ⟨3, 200, 60, by decide +kernel⟩

/-! ## Sorts -/

/-- The node of a nonterminal has the sort of the nonterminal. -/
@[simp]
def Sorted : Nonterminal → List Token → Node → Prop
  | .start, _, node | .tagList, _, node | .tag, _, node => ∃ tags, node = .tags tags
  | .tagAssignment, _, node | .tagName, _, node => ∃ names, node = .names names
  | .valueList, _, node => ∃ values, node = .values values
  | .singleValue, _, node => ∃ value, node = .value value

theorem integerOf_cases (token : Token) :
    (∃ i, integerOf token = .ok i) ∨ ∃ e, integerOf token = .error e ∧ Misread token e := by
  rw [integerOf]
  split
  · exact .inl ⟨_, rfl⟩
  · exact .inr ⟨_, rfl, .integer⟩

theorem floatOf_cases (token : Token) :
    (∃ x, floatOf token = .ok x) ∨ ∃ e, floatOf token = .error e ∧ Misread token e := by
  rw [floatOf]
  split
  · exact .inl ⟨_, rfl⟩
  · exact .inr ⟨_, rfl, .float⟩

/-- **Every rule fits its production.** -/
theorem rules_fit : List.Forall₂ (alphabet.Fits (fun _ => True) Sorted Misread) rules productions := by
  simp only [rules, productions, List.forall₂_cons, List.forall₂_nil_left_iff, and_true, Alphabet.Fits,
    Alphabet.forall_fills_node, Alphabet.forall_fills_token, Alphabet.forall_fills_nil, Sorted, forall_exists_index]
  and_intros
  on_goal 15 =>
    intro token _ _
    exact answers_map (floatOf_cases token) List.mem_cons_self fun x => ⟨_, rfl⟩
  on_goal 14 =>
    intro token _ _
    exact answers_map (integerOf_cases token) List.mem_cons_self fun i => ⟨_, rfl⟩
  all_goals
    intros
    subst_vars
    exact .inl ⟨_, rfl, _, rfl⟩

end ShaderFront.Tag
