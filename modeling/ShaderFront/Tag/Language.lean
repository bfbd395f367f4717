import ShaderFront.Parse.Language
import ShaderFront.Tag.Basic
import ShaderFront.Tag.Token
import ShaderFront.Text.Decimal

/-!
# The language of annotations

Tags follow each other, with or without a comma between them. A tag assigns one value or a bracketed list of
values to one or more names: `@min = @softMin = 0.0` is two tags.

Main content: `Tag.language`, `Tag.grammar`, `Tag.table`, `Tag.parse`.
-/

namespace ShaderFront.Tag

/-- The node of a nonterminal. -/
inductive Node where
  | tags (tags : List Tag)
  | names (names : List String)
  | values (values : List TagValue)
  | value (value : TagValue)
deriving Repr

/-- The characters without the first and the last one. -/
def unquote (text : String) : String := String.ofList text.toList.tail.dropLast

/-- The value of an integer literal with its sign. -/
def integerOf (token : Token) : Except ParseError Int64 :=
  let value? :=
    match token.text.toList with
    | '-' :: digits => (Integer.readChars? digits).map (- ·)
    | cs => Integer.readChars? (cs.dropWhile (· = '+'))
  match value? with
  | some i => .ok i
  | none => .error (.semantic s!"invalid integer `{token.text}`")

/-- The value of a floating-point literal. -/
def floatOf (token : Token) : Except ParseError Binary64 :=
  match Decimal.read? (token.text.toList.reverse.dropWhile fun c => c = 'f' || c = 'F').reverse with
  | some x => .ok x
  | none => .error (.semantic s!"invalid float `{token.text}`")

/-- The tags of an assignment: each name has all the values. -/
def assign (names : List String) (values : List TagValue) : List Tag := names.map fun name => ⟨name, values⟩

/-- The rules. The number of a production is the position of its rule. -/
def rules : List (Rule Node) :=
  [ ⟨"$START$", "tag-list", fun
      | [.node _ n] => .ok n
      | _ => unfit⟩,
    ⟨"tag-list", "tag", fun
      | [.node _ (.tags ts)] => .ok (.tags ts)
      | _ => unfit⟩,
    ⟨"tag-list", "tag-list tag", fun
      | [.node _ (.tags ts), .node _ (.tags us)] => .ok (.tags (ts ++ us))
      | _ => unfit⟩,
    ⟨"tag-list", "tag-list , tag", fun
      | [.node _ (.tags ts), _, .node _ (.tags us)] => .ok (.tags (ts ++ us))
      | _ => unfit⟩,
    ⟨"tag", "tag-assignment [ value-list ]", fun
      | [.node _ (.names ns), _, .node _ (.values vs), _] => .ok (.tags (assign ns vs))
      | _ => unfit⟩,
    ⟨"tag", "tag-assignment single-value", fun
      | [.node _ (.names ns), .node _ (.value v)] => .ok (.tags (assign ns [v]))
      | _ => unfit⟩,
    ⟨"tag-assignment", "tag-name =", fun
      | [.node _ (.names ns), _] => .ok (.names ns)
      | _ => unfit⟩,
    ⟨"tag-assignment", "tag-assignment tag-name =", fun
      | [.node _ (.names ns), .node _ (.names ms), _] => .ok (.names (ns ++ ms))
      | _ => unfit⟩,
    ⟨"tag-name", "@ IDENTIFIER", fun
      | [_, .token n] => .ok (.names [n.text])
      | _ => unfit⟩,
    ⟨"value-list", "single-value", fun
      | [.node _ (.value v)] => .ok (.values [v])
      | _ => unfit⟩,
    ⟨"value-list", "value-list , single-value", fun
      | [.node _ (.values vs), _, .node _ (.value v)] => .ok (.values (vs ++ [v]))
      | _ => unfit⟩,
    ⟨"single-value", "true", fun
      | [_] => .ok (.value (.bool true))
      | _ => unfit⟩,
    ⟨"single-value", "false", fun
      | [_] => .ok (.value (.bool false))
      | _ => unfit⟩,
    ⟨"single-value", "INTCONSTANT", fun
      | [.token t] => (integerOf t).map fun i => .value (.int i)
      | _ => unfit⟩,
    ⟨"single-value", "FLOATCONSTANT", fun
      | [.token t] => (floatOf t).map fun x => .value (.float x)
      | _ => unfit⟩,
    ⟨"single-value", "STRING", fun
      | [.token t] => .ok (.value (.string (unquote t.text)))
      | _ => unfit⟩,
    ⟨"single-value", "CHARACTER", fun
      | [.token t] => .ok (.value (.char (unquote t.text)))
      | _ => unfit⟩ ]

/-- The terminals. -/
def terminals : List Terminal := TokenKind.all.map fun kind => { name := kind.name, id := kind.id }

/-- The language of annotations. -/
def language : Language Node := { terminals, rules }

/-- The grammar of annotations. -/
def grammar : Except GrammarError Grammar := language.grammar

/-- The parser table of annotations. -/
def table : Except GrammarError Table := language.table

/-- The tags of the tree of an annotation. -/
def tagsOf : Except LanguageError Node → Except LanguageError (List Tag)
  | .ok (.tags ts) => .ok ts
  | .ok _ => .error (.parse (.semantic "the parse tree is not a list of tags"))
  | .error e => .error e

/-- Parses the text of an annotation that begins at a byte offset of its source. -/
def parse (text : String) (offset : Nat) : Except LanguageError (List Tag) :=
  tagsOf (language.parse table (tokens text offset))

end ShaderFront.Tag
