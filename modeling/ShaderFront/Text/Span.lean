/-!
# Spans

A `Span` is a half-open range of byte offsets into a UTF-8 text. Every position the library reports is one.

Main content:

* `Span`, with `Span.emptyAt`, `Span.extend` and `Span.shifted`;
* `byteLength`, the number of bytes a list of characters occupies.
-/

namespace ShaderFront

/-- A half-open range of byte offsets. -/
structure Span where
  start : Nat := 0
  stop : Nat := 0
deriving DecidableEq, Inhabited, Repr

namespace Span

/-- The empty span at a position. -/
def emptyAt (pos : Nat) : Span := ⟨pos, pos⟩

/-- The span from the start of the first to the stop of the second. -/
def extend (a b : Span) : Span := ⟨a.start, b.stop⟩

/-- The span moved to the right. -/
def shifted (a : Span) (offset : Nat) : Span := ⟨a.start + offset, a.stop + offset⟩

/-- The number of bytes covered. -/
def length (a : Span) : Nat := a.stop - a.start

end Span

/-- The number of bytes of the UTF-8 encoding of some characters. -/
def byteLength : List Char → Nat
  | [] => 0
  | c :: rest => c.utf8Size + byteLength rest

@[simp]
theorem byteLength_nil : byteLength [] = 0 := rfl

@[simp]
theorem byteLength_cons (c : Char) (cs : List Char) : byteLength (c :: cs) = c.utf8Size + byteLength cs := rfl

@[simp]
theorem byteLength_append (cs ds : List Char) : byteLength (cs ++ ds) = byteLength cs + byteLength ds := by
  induction cs with
  | nil => simp
  | cons c cs ih => simp [ih, Nat.add_assoc]

end ShaderFront
