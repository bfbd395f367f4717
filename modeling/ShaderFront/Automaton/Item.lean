import ShaderFront.Grammar.First
import ShaderFront.Ordered.Map

/-!
# Items

An LR(1) item is a production with a dot in its body and one lookahead terminal. Item sets are ordered by
production, then dot, then lookahead.

Main content:

* `Item`, `ItemSet`, `Kernel`;
* `Grammar.nextSymbol`, `Grammar.kernel`, `Grammar.itemText`.
-/

namespace ShaderFront

/-- A production and the position of the dot in its body. -/
structure Core where
  production : ProductionId
  dot : Nat
deriving DecidableEq, Repr, Inhabited

/-- A production, the position of the dot in its body, and one lookahead terminal. -/
structure Item where
  production : ProductionId
  dot : Nat
  lookahead : SymbolId
deriving DecidableEq, Repr, Inhabited

namespace Core

instance : Ord Core := ⟨compareLex (compareOn Core.production) (compareOn Core.dot)⟩

instance : Std.TransOrd Core :=
  inferInstanceAs (Std.TransCmp (compareLex (compareOn Core.production) (compareOn Core.dot)))

instance : Std.LawfulEqOrd Core where
  eq_of_compare := by
    rintro ⟨p, d⟩ ⟨q, e⟩ h
    obtain ⟨hp, hd⟩ := Ordering.then_eq_eq.mp h
    obtain rfl : p = q := Nat.compare_eq_eq.mp hp
    obtain rfl : d = e := Nat.compare_eq_eq.mp hd
    rfl

end Core

namespace Item

instance : Ord Item :=
  ⟨compareLex (compareOn Item.production) (compareLex (compareOn Item.dot) (compareOn Item.lookahead))⟩

instance : Std.TransOrd Item :=
  inferInstanceAs (Std.TransCmp
    (compareLex (compareOn Item.production) (compareLex (compareOn Item.dot) (compareOn Item.lookahead))))

instance : Std.LawfulEqOrd Item where
  eq_of_compare := by
    rintro ⟨p, d, a⟩ ⟨q, e, b⟩ h
    obtain ⟨hp, h⟩ := Ordering.then_eq_eq.mp h
    obtain ⟨hd, ha⟩ := Ordering.then_eq_eq.mp h
    obtain rfl : p = q := Nat.compare_eq_eq.mp hp
    obtain rfl : d = e := Nat.compare_eq_eq.mp hd
    obtain rfl : a = b := Nat.compare_eq_eq.mp ha
    rfl

/-- The item without its lookahead. -/
def core (i : Item) : Core := ⟨i.production, i.dot⟩

/-- The item with the dot moved over one symbol. -/
def advanced (i : Item) : Item := { i with dot := i.dot + 1 }

end Item

/-- A set of items. -/
abbrev ItemSet := OrderedSet Item

/-- The cores of the items that identify a state. Two states may be merged iff their kernels are equal. -/
abbrev Kernel := OrderedSet Core

/-- The cores of the items that satisfy a test. -/
def ItemSet.coresWhere (set : ItemSet) (p : Item → Bool) : Kernel :=
  .ofList ((set.toList.filter p).map Item.core)

namespace Grammar

/-- The symbol right after the dot. -/
def nextSymbol (g : Grammar) (item : Item) : Option SymbolId :=
  (g.production? item.production).bind (·.symbolAt item.dot)

/-- The symbol right before the dot. -/
def previousSymbol (g : Grammar) (item : Item) : Option SymbolId :=
  match item.dot with
  | 0 => none
  | dot + 1 => (g.production? item.production).bind (·.symbolAt dot)

/-- Whether an item identifies its state: its dot has moved, or it belongs to a start production. -/
def isKernelItem (g : Grammar) (item : Item) : Bool :=
  item.dot > 0 || (g.production? item.production).any (·.head = g.start)

/-- The kernel of a set of items. -/
def kernel (g : Grammar) (set : ItemSet) : Kernel := set.coresWhere g.isKernelItem

/-- The symbols that stand right after a dot in a set. -/
def nextSymbols (g : Grammar) (set : ItemSet) : OrderedSet SymbolId :=
  .ofList (set.toList.filterMap g.nextSymbol)

/-- The item as a rule with a dot, followed by its lookahead. -/
def itemText (g : Grammar) (item : Item) : String :=
  match g.production? item.production with
  | none => s!"<unknown production {item.production}>"
  | some p =>
    let body := (p.before item.dot).map g.symbolText ++ ["."] ++ (p.after item.dot).map g.symbolText
    g.symbolText p.head ++ " ::= " ++ " ".intercalate body ++ " , " ++ g.symbolText item.lookahead

end Grammar

end ShaderFront
