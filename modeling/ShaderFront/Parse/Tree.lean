import ShaderFront.Parse.Engine

/-!
# Parse trees

The tree of a parse holds the reductions made and the tokens shifted. `Tree.build` is the semantics that keeps
everything.
-/

namespace ShaderFront

/-- A token, or a production with the trees of its body. -/
inductive Tree where
  | leaf (token : Token)
  | node (production : ProductionId) (children : List Tree)
deriving Repr, Inhabited

namespace Tree

mutual

/-- The tree as a text: a token as it is, a reduction as its production and its children in parentheses. -/
def text : Tree → String
  | .leaf token => token.text
  | .node production children => "(" ++ toString production ++ textAll children ++ ")"

/-- The children of a tree, each after a blank. -/
def textAll : List Tree → String
  | [] => ""
  | child :: rest => " " ++ text child ++ textAll rest

end

/-- The tree of a stack element. -/
def ofMatched : Matched Tree → Tree
  | .token t => .leaf t
  | .node _ tree => tree

/-- The semantics that builds the whole tree. -/
def build : Semantics Unit Tree := fun production body memory => (.ok (.node production (body.map ofMatched)), memory)

end Tree

end ShaderFront
