import ShaderFront.Parse.Engine

/-!
# Body cursors

A cursor takes the elements of a reduced production body one by one, in order, and says what is missing when the
body does not have the expected shape.

Main content: `Cursor`, `Cursor.token`, `Cursor.node`, `Cursor.skip`, `Cursor.elementsOf`.
-/

namespace ShaderFront

/-- The elements of a body that are not taken yet. -/
structure Cursor (N : Type) where
  production : ProductionId
  elements : List (Matched N)

namespace Cursor

variable {N : Type}

/-- Takes the next element; `what` names it in the error. -/
def next (c : Cursor N) (what : String) : Except ParseError (Matched N × Cursor N) :=
  match c.elements with
  | [] => .error (.semantic s!"production {c.production}: body too short, expected a {what}")
  | element :: rest => .ok (element, { c with elements := rest })

/-- Takes a part of the next element, which has it if it is what is expected. -/
def take {α : Type} (c : Cursor N) (kind : ElementKind) (part? : Matched N → Option α) : Except ParseError (α × Cursor N) :=
  match c.next kind.text with
  | .error e => .error e
  | .ok (element, c) =>
    match part? element with
    | some part => .ok (part, c)
    | none => .error (.semantic s!"production {c.production}: expected a {kind.text}")

/-- Takes a token. -/
def token (c : Cursor N) : Except ParseError (Token × Cursor N) := c.take .token Matched.token?

/-- Takes a node. -/
def node (c : Cursor N) : Except ParseError (N × Cursor N) := c.take .node Matched.node?

/-- Takes an element as it is. -/
def element (c : Cursor N) (kind : ElementKind) : Except ParseError (Matched N × Cursor N) :=
  c.take kind fun e => if e.kind = kind then some e else none

/-- Takes elements of some kinds one after another. -/
def elementsOf (c : Cursor N) : List ElementKind → Except ParseError (List (Matched N))
  | [] => .ok []
  | kind :: kinds =>
    match c.element kind with
    | .error e => .error e
    | .ok (first, c) => (c.elementsOf kinds).map (first :: ·)

/-- Drops the next element. -/
def skip (c : Cursor N) : Except ParseError (Cursor N) :=
  match c.next "symbol" with
  | .error e => .error e
  | .ok (_, c) => .ok c

end Cursor

end ShaderFront
