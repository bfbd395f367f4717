import Mathlib
import ShaderFront.Proofs.Parsers
import ShaderFront.Proofs.Unshadowed

/-!
# The parenthesis of a definition

The tokens of a macro body are taken as the wildcard. No other action of the table is in the way of that, except after the name
of a `#define`: a parenthesis that touches the name is read there as the one that gives the macro its parameters. What the rules
of directives read without taking that parenthesis for the first token of a body is parsed (`Directive.language_parse_of_reads`).
-/

namespace ShaderFront.Directive

open Outline (place At marked_of_first marked_of_follow look)

/-- The definition of a macro without parameters whose body has tokens. -/
def bodied : Spelling TokenKind Nonterminal :=
  ⟨.defDirective, [.token .define, .token .identifier, .node .tokenList, .token .newline]⟩

/-- A token after a dot is not the parenthesis of a definition, taken as the first token of a body. -/
def Opens (id dot : Nat) (r : TokenKind × Token) : Prop :=
  productions[id]? = some bodied → dot = 2 → r.1 = .any → r.2.symbol ≠ TokenKind.macroParen.id

/-- What is known of the words after a dot and of the heads, once the rules are looked through. -/
def survey : Outline.Survey := .grown alphabet.outline tameness.rounds

/-- The places where the wildcard is waited for. -/
def waiting : Nat := Outline.marks survey (alphabet.code (.token .any)) 0 alphabet.outline

/-- The places after the name of a `#define`, where a body may begin. -/
def begins : Nat := 2 ^ place 18 2 ||| 2 ^ place 23 0 ||| 2 ^ place 24 0

/-- The places where the wildcard is waited for inside of a body, and where a body begins that no parenthesis can stand before. -/
def within : Nat := waiting ^^^ (waiting &&& begins)

/-- The codes of the kinds that the wildcard stands in for, without the parenthesis of a definition. -/
def plainCodes : Nat := alphabet.wildCodes .any ^^^ 2 ^ alphabet.code (.token .macroParen)

/-- The rules looked through once for both checks: the kernel evaluates what they share a single time. -/
theorem lone_survey : alphabet.outline.isLone survey waiting plainCodes tameness.fuel = true ∧
    alphabet.outline.isLone survey within (2 ^ alphabet.code (.token .macroParen)) tameness.fuel = true := by decide +kernel

theorem alone_plain : alphabet.Alone tameness .any plainCodes waiting where
  lone := lone_survey.1
  ends := marked_of_follow

theorem testBit_within {p : Nat} (hwaiting : waiting.testBit p = true) (hbegins : begins.testBit p = false) :
    within.testBit p = true := by
  rw [within, Nat.testBit_xor, Nat.testBit_and, hwaiting, hbegins]
  rfl

theorem testBit_begins {id dot : Nat} (hdot : dot < 16) (h18 : ¬(id = 18 ∧ dot = 2)) (h23 : ¬(id = 23 ∧ dot = 0))
    (h24 : ¬(id = 24 ∧ dot = 0)) : begins.testBit (place id dot) = false := by
  have h : place id dot ≠ place 18 2 ∧ place id dot ≠ place 23 0 ∧ place id dot ≠ place 24 0 := by
    simp only [place]
    omega
  simp [begins, Nat.testBit_or, h.1.symm, h.2.1.symm, h.2.2.symm]

theorem length_body_lt : ∀ entry ∈ alphabet.outline, entry.2.length < 16 := by decide

theorem alone_macroParen : alphabet.Alone tameness .any (2 ^ alphabet.code (.token .macroParen)) within where
  lone := lone_survey.2
  ends := by
    intro id head body ho hfollow
    refine testBit_within (marked_of_follow ho hfollow) (testBit_begins (length_body_lt _ (List.mem_of_getElem? ho)) ?_ ?_ ?_) <;>
    · rintro ⟨rfl, hlength⟩
      cases ho
      revert hlength
      decide

theorem testBit_plainCodes {kind : TokenKind} (hwild : kind.isWild = true) (hany : kind ≠ .any) (hparen : kind ≠ .macroParen) :
    plainCodes.testBit (alphabet.code (.token kind)) = true := by
  have hne : alphabet.code (.token .macroParen) ≠ alphabet.code (.token kind) := fun heq =>
    hparen (Word.token.inj (alphabet_covers.code_injective heq)).symm
  rw [plainCodes, Nat.testBit_xor, Nat.testBit_two_pow_of_ne hne,
    Alphabet.testBit_wildCodes (alphabet_covers.mem_kinds kind) hwild (id_injective.ne hany)]
  rfl

/-- **What the rules of directives read is parsed**, if no parenthesis of a definition is taken for the first token of a body. -/
theorem language_parse_of_reads {front : List (TokenKind × Token)} {node : Node}
    (hfront : ∀ r ∈ front, alphabet.Admits r.1 r.2 ∧ ∃ kind : TokenKind, r.2.symbol = kind.id)
    (hfirst : ∀ r ∈ front.head?, r.2.symbol = r.1.id)
    (hreads : ∀ number, alphabet.Reads language number Opens alphabet.root front node) :
    language.parse table (front.map Prod.snd) = .ok node := by
  have hrole : (alphabet.terminal .any).role = .wildcard := rfl
  refine alphabet_covers.parse_clear tameness hrole (fun kind hwild hany => ?_) hfront hfirst hreads
  by_cases hparen : kind = .macroParen
  · subst hparen
    refine ⟨_, within, alone_macroParen, Nat.testBit_two_pow_self, ?_⟩
    rintro id dot token hsymbol ⟨hopens, hpos, head, body, ho, hbody⟩
    have hdot : dot < body.length := by
      by_contra hdot
      simp [List.drop_eq_nil_of_le (not_lt.mp hdot), Outline.Survey.firstOfAll] at hbody
    refine testBit_within (marked_of_first ho hbody)
      (testBit_begins (hdot.trans (length_body_lt _ (List.mem_of_getElem? ho))) ?_ (fun h => ?_) fun h => ?_)
    · rintro ⟨rfl, rfl⟩
      exact hopens rfl rfl rfl hsymbol
    · exact absurd h.2 hpos.ne'
    · exact absurd h.2 hpos.ne'
  · refine ⟨plainCodes, waiting, alone_plain, testBit_plainCodes hwild hany hparen, ?_⟩
    rintro id dot token - ⟨-, -, head, body, ho, hbody⟩
    exact marked_of_first ho hbody

end ShaderFront.Directive
