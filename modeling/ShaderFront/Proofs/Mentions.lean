import Mathlib
import ShaderFront.Proofs.Opaque

/-!
# What a shader mentions

The identifiers, the built-in types and the annotation comments of a shader are its mentions. They stand among the tokens of
the source, and again in the tree of its declarations, where a walk in the order of the source finds them. Main statement: the
walk finds the mentions of the tokens, each once and in the same order (`Shader.parse_mentions`).

The walk is a function on each part of the tree. That a rule keeps the mentions of its body is checked rule by rule
(`Shader.rules_keep`).
-/

namespace ShaderFront.Shader

/-- A text that a shader mentions, with the kind of its token. -/
abbrev Mention := TokenKind × String

/-- Whether the tokens of a kind are mentions. -/
@[simp]
def TokenKind.isMention : TokenKind → Bool
  | .identifier | .nativeType | .leadingTags | .trailingTags => true
  | _ => false

/-- A token as a mention. -/
def mention? (token : Token) : Option Mention :=
  (TokenKind.ofId? token.symbol).bind fun kind => if kind.isMention then some (kind, token.text) else none

/-- The mentions among some tokens, in order. -/
def mentions (tokens : List Token) : List Mention := tokens.filterMap mention?

@[simp]
theorem mentions_nil : mentions [] = [] := rfl

@[simp]
theorem mentions_cons (token : Token) (tokens : List Token) :
    mentions (token :: tokens) = (mention? token).toList ++ mentions tokens := by
  rw [mentions, List.filterMap_cons]
  cases mention? token <;> rfl

@[simp]
theorem mentions_append (front back : List Token) : mentions (front ++ back) = mentions front ++ mentions back :=
  List.filterMap_append

/-! ## The walk -/

/-- An identifier that is mentioned. -/
@[simp]
def identifierMention (name : String) : Mention := (.identifier, name)

/-- The mentions of an optional part. -/
@[simp]
def optionMentions {α : Type} (walk : α → List Mention) (part : Option α) : List Mention := part.toList.flatMap walk

/-- Comments are mentions, of the kind that their place gives them. -/
@[simp]
def commentMentions (kind : TokenKind) (comments : List TagComment) : List Mention :=
  comments.map fun comment => (kind, comment.text)

@[simp]
def TokenList.mentions (l : TokenList) : List Mention := Shader.mentions l.tokens

@[simp]
def ArraySpecifier.mentions (a : ArraySpecifier) : List Mention := a.dimensions.flatMap TokenList.mentions

@[simp]
def Qualifier.mentions : Qualifier → List Mention
  | .layout ids => ids.map fun id => identifierMention id.name
  | .storage _ | .interpolation _ | .invariant | .precision _ => []

@[simp]
def TypeQualifier.mentions (q : TypeQualifier) : List Mention := q.qualifiers.flatMap Qualifier.mentions

@[simp]
def MemberDeclarator.mentions (d : MemberDeclarator) : List Mention :=
  identifierMention d.name :: optionMentions ArraySpecifier.mentions d.array

mutual

@[simp]
def TypeName.mentions : TypeName → List Mention
  | .void => []
  | .native name => [(.nativeType, name)]
  | .named name => [identifierMention name]
  | .struct name members => name.toList.map identifierMention ++ memberMentions members

@[simp]
def memberMentions : List (MemberOf TypeName) → List Mention
  | [] => []
  | member :: members => MemberOf.mentions member ++ memberMentions members

@[simp]
def MemberOf.mentions : MemberOf TypeName → List Mention
  | ⟨leading, type, declarators, trailing⟩ => commentMentions .leadingTags leading ++ FullTypeOf.mentions type ++
      declarators.flatMap MemberDeclarator.mentions ++ commentMentions .trailingTags trailing

@[simp]
def FullTypeOf.mentions : FullTypeOf TypeName → List Mention
  | ⟨qualifier, specifier⟩ => optionMentions TypeQualifier.mentions qualifier ++ TypeSpecifierOf.mentions specifier

@[simp]
def TypeSpecifierOf.mentions : TypeSpecifierOf TypeName → List Mention
  | ⟨name, array⟩ => TypeName.mentions name ++ optionMentions ArraySpecifier.mentions array

end

@[simp]
def Parameter.mentions (p : Parameter) : List Mention :=
  p.type.mentions ++ p.name.toList.map identifierMention ++ optionMentions ArraySpecifier.mentions p.array

@[simp]
def Prototype.mentions (p : Prototype) : List Mention :=
  p.returnType.mentions ++ identifierMention p.name :: p.parameters.flatMap Parameter.mentions

@[simp]
def Declarator.mentions (d : Declarator) : List Mention :=
  identifierMention d.name :: optionMentions ArraySpecifier.mentions d.array ++ optionMentions TokenList.mentions d.initializer

@[simp]
def VariableList.mentions (vs : VariableList) : List Mention :=
  vs.type.mentions ++ vs.declarators.flatMap Declarator.mentions

@[simp]
def Block.mentions (b : Block) : List Mention :=
  b.qualifier.mentions ++ identifierMention b.name :: memberMentions b.members ++ b.inst.toList.map identifierMention ++
    optionMentions ArraySpecifier.mentions b.array

@[simp]
def Declaration.mentions : Declaration → List Mention
  | .prototype p => p.mentions
  | .variableList vs => vs.mentions
  | .precision _ type => type.mentions
  | .block b => b.mentions
  | .qualifier q => q.mentions

@[simp]
def External.mentions : External → List Mention
  | .declaration leading d trailing =>
    commentMentions .leadingTags leading ++ d.mentions ++ commentMentions .trailingTags trailing
  | .function leading p body => commentMentions .leadingTags leading ++ p.mentions ++ body.mentions

/-- **The mentions of a shader**, in the order of the source. -/
def CompilationUnit.mentions (unit : CompilationUnit) : List Mention := unit.declarations.flatMap External.mentions

/-- The mentions of a node. -/
@[simp]
def Node.mentions (comment : TokenKind) : Node → List Mention
  | .unit ds => ds.flatMap External.mentions
  | .external d => d.mentions
  | .comments cs => commentMentions comment cs
  | .declaration d => d.mentions
  | .prototype p => p.mentions
  | .parameters ps => ps.flatMap Parameter.mentions
  | .parameter p => p.mentions
  | .variableList vs => vs.mentions
  | .declarator d => d.mentions
  | .fullType t => t.mentions
  | .typeQualifier q => q.mentions
  | .qualifier q => q.mentions
  | .layoutIds ids => ids.map fun id => identifierMention id.name
  | .layoutId id => [identifierMention id.name]
  | .typeSpecifier t => t.mentions
  | .typeName n => n.mentions
  | .members ms => memberMentions ms
  | .member m => m.mentions
  | .memberDeclarators ds => ds.flatMap MemberDeclarator.mentions
  | .memberDeclarator d => d.mentions
  | .array a => a.mentions
  | .tokens ts => Shader.mentions ts
  | .parameterQualifiers _ | .parameterQualifier _ | .storage _ | .interpolation _ | .precision _ => []

/-- The kind of the comments that a nonterminal reads. -/
@[simp]
def Nonterminal.comment : Nonterminal → TokenKind
  | .trailingAnnotations => .trailingTags
  | _ => .leadingTags

/-- The node of a nonterminal has its sort, and the mentions of the tokens it covers. -/
def Keeps (head : Nonterminal) (tokens : List Token) (node : Node) : Prop :=
  Sorted head tokens node ∧ Shader.mentions tokens = node.mentions head.comment

@[simp]
theorem memberMentions_append (front back : List Member) :
    memberMentions (front ++ back) = memberMentions front ++ memberMentions back := by
  induction front with
  | nil => simp [memberMentions]
  | cons member front ih => simp [memberMentions, ih]

/-- **Every rule keeps the mentions of its body.** -/
theorem rules_keep : List.Forall₂ (alphabet.Builds (fun _ => True) Keeps) rules productions := by
  simp only [rules, productions, unitRules, unitProductions, declarationRules, declarationProductions, functionRules,
    functionProductions, variableRules, variableProductions, qualifierRules, qualifierProductions, typeRules, typeProductions,
    tokenRules, tokenProductions, List.cons_append, List.nil_append, List.forall₂_cons, List.forall₂_nil_left_iff, and_true]
  and_intros
  all_goals
    simp only [Alphabet.builds_iff, Alphabet.forall_fills_node, Alphabet.forall_fills_token, Alphabet.forall_fills_nil, Keeps, Sorted,
      and_imp, forall_exists_index, ne_eq, reduceCtorEq, not_false_eq_true, admits_iff]
    intros
    subst_vars
    rename_i hbuild
    -- the number of a layout may be misread; all other rules build a node
    first
      | cases hbuild
      | obtain ⟨i, rfl⟩ := eq_of_map_eq_ok hbuild
    refine ⟨⟨_, rfl⟩, ?_⟩
    simp [*, mention?]

/-- **The tree mentions what the source mentions**, each text once and in the order of the source: the identifiers, the built-in
types and the annotation comments among the tokens are those that a walk over the declarations meets. -/
theorem parse_mentions {source : String} {unit : CompilationUnit} (hparse : parse source = .ok unit) :
    unit.mentions = mentions (tokens source) := by
  have hkinds : ∀ token ∈ tokens source, ∃ kind, token.symbol = (alphabet.terminal kind).id :=
    fun token htoken => exists_kind_of_mem_classify htoken
  have hnode := eq_unit_of_unitOf hparse
  have hkeeps : Keeps .translationUnit (tokens source) (.unit unit.declarations) :=
    alphabet_covers.parse_attribute rules_keep hkinds (fun _ _ => trivial) hnode
  exact hkeeps.2.symm

/-- The names in an initializer are mentioned after the variable. -/
theorem parse_mentions_initializer : ∃ unit, parse "float x = f(a, vec2(b[0]));" = .ok unit ∧
    unit.mentions = [(.nativeType, "float"), (.identifier, "x"), (.identifier, "f"), (.identifier, "a"), (.nativeType, "vec2"),
      (.identifier, "b")] := by
  -- the tokens of the text are evaluated once for all that is asked of them
  obtain ⟨front, list, back, hsplit, hfront, hback, hnested, houtside, hne, hmentions⟩ : ∃ front list back,
      tokens "float x = f(a, vec2(b[0]));" = front ++ list ++ back ∧
      front.map Token.written = (tokens "float x =").map Token.written ∧ back.map Token.written = (tokens ";").map Token.written ∧
      isNested [] list = true ∧ (∀ token ∈ outside 0 list, isItemSeparator token = false) ∧ list ≠ [] ∧
      mentions (front ++ list ++ back) = [(.nativeType, "float"), (.identifier, "x"), (.identifier, "f"), (.identifier, "a"),
        (.nativeType, "vec2"), (.identifier, "b")] :=
    ⟨(tokens "float x = f(a, vec2(b[0]));").take 3, ((tokens "float x = f(a, vec2(b[0]));").drop 3).dropLast,
      [(tokens "float x = f(a, vec2(b[0]));").getLast!], by decide +kernel⟩
  have hknown : Known list := fun token htoken =>
    exists_kind_of_mem_classify (show token ∈ tokens "float x = f(a, vec2(b[0]));" by simp [hsplit, htoken])
  obtain ⟨leading, type, span, trailing, hparse⟩ :=
    parse_initializer ⟨hfront, hback⟩ hknown (balanced_false_iff.mpr ⟨hnested, houtside⟩) hne
  rw [← hsplit] at hparse hmentions
  exact ⟨_, hparse, (parse_mentions hparse).trans hmentions⟩

end ShaderFront.Shader
