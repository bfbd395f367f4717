import Mathlib
import ShaderFront.Proofs.Spelling.Directive
import ShaderFront.Proofs.Spelling.Shader
import ShaderFront.Proofs.Spelling.Tag
import ShaderFront.Proofs.Tokens

/-!
# The parsers of the three languages

Shader declarations, annotations, sources with directives and single expressions are parsed. Whatever the text, the parser gives
a result, or it says what is wrong with the text (`parsers_answer`): the tables have no conflicts, every rule fits its body, and
the root of the tree has the sort that the parser asks for.
-/

namespace ShaderFront

/-- A parser gives a result, or says what is wrong with the tokens: one of them stands at a wrong place, the input ends too early,
or the text of one is not read as a number. -/
def Answers {α : Type} (tokens : List Token) (result : Except LanguageError α) : Prop :=
  (∃ value, result = .ok value) ∨ ∃ e, result = .error (.parse e) ∧ InputError Misread tokens e

theorem Shader.parse_answers (source : String) : Answers (tokens source) (parse source) := by
  rcases alphabet_covers.parse_answers tameness rules_fit (fun _ h => exists_kind_of_mem_classify h)
    (fun _ _ => trivial) with ⟨_, hparse, declarations, rfl⟩ | ⟨e, hparse, he⟩
  · exact .inl ⟨_, congrArg unitOf hparse⟩
  · exact .inr ⟨e, congrArg unitOf hparse, he⟩

theorem Tag.parse_answers (text : String) (offset : Nat) : Answers (tokens text offset) (parse text offset) := by
  rcases alphabet_covers.parse_answers tameness rules_fit (fun _ h => exists_kind_of_mem_tokens h)
    (fun _ _ => trivial) with ⟨_, hparse, tags, rfl⟩ | ⟨e, hparse, he⟩
  · exact .inl ⟨_, congrArg tagsOf hparse⟩
  · exact .inr ⟨e, congrArg tagsOf hparse, he⟩

namespace Directive

/-- The tokens of a source begin no single expression. -/
theorem plain_tokens (source : String) : Plain (tokens source) := by
  intro token htoken
  obtain ⟨kind, hkind, hsymbol⟩ := exists_kind_of_mem_lineTokens htoken
  rw [hsymbol]
  refine id_injective.ne ?_
  rintro rfl
  simp [TokenKind.isInner, TokenKind.isWritten] at hkind

theorem exists_kind_of_mem_tokens (source : String) :
    ∀ token ∈ tokens source, ∃ kind, token.symbol = (alphabet.terminal kind).id := fun _ htoken =>
  (exists_kind_of_mem_lineTokens htoken).imp fun _ => And.right

theorem parse_answers (source : String) : Answers (tokens source) (parse source) := by
  rcases alphabet_covers.parse_answers tameness rules_fit (exists_kind_of_mem_tokens source) (fun _ _ => trivial) with
    ⟨_, hparse, -, ⟨particles, rfl, -⟩ | ⟨_, rfl, hsingle⟩⟩ | ⟨e, hparse, he⟩
  · exact .inl ⟨particles, congrArg particlesOf hparse⟩
  · exact absurd (plain_tokens source) hsingle
  · exact .inr ⟨e, congrArg particlesOf hparse, he⟩

theorem exists_kind_of_mem_expressionTokens (text : String) :
    ∀ token ∈ expressionTokens text, ∃ kind, token.symbol = (alphabet.terminal kind).id := by
  refine List.forall_mem_cons.mpr ⟨⟨.expressionStart, rfl⟩, fun token htoken => ?_⟩
  exact (exists_kind_of_mem_piecesTokens htoken).imp fun _ => And.right

theorem parseExpression_answers (text : String) : Answers (expressionTokens text) (parseExpression text) := by
  rcases alphabet_covers.parse_answers tameness rules_fit (exists_kind_of_mem_expressionTokens text) (fun _ _ => trivial) with
    ⟨_, hparse, -, ⟨_, rfl, hplain⟩ | ⟨expression, rfl, -⟩⟩ | ⟨e, hparse, he⟩
  · exact absurd rfl (hplain _ List.mem_cons_self)
  · exact .inl ⟨expression, congrArg expressionOf hparse⟩
  · exact .inr ⟨e, congrArg expressionOf hparse, he⟩

end Directive

/-- **The rules of the three languages fit their grammars**: on every text each of the four parsers gives a result or an error of
the input, and no other error. -/
theorem parsers_answer :
    (∀ source, Answers (Shader.tokens source) (Shader.parse source)) ∧
    (∀ text offset, Answers (Tag.tokens text offset) (Tag.parse text offset)) ∧
    (∀ source, Answers (Directive.tokens source) (Directive.parse source)) ∧
    ∀ text, Answers (Directive.expressionTokens text) (Directive.parseExpression text) :=
  ⟨Shader.parse_answers, Tag.parse_answers, Directive.parse_answers, Directive.parseExpression_answers⟩

end ShaderFront
