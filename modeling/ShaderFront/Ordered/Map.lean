import Std.Data.TreeSet

/-!
# Ordered maps

A finite map over an ordered key type, held as its entries in strictly ascending order of their keys. There is one entry
list for each map.

Main content: `OrderedMap`, with `get?`, `insert` and `keys`, and the lookup law `get?_insert`.
-/

namespace ShaderFront

/-- A finite map as the list of its entries, strictly ascending by key. -/
structure OrderedMap (κ : Type) (ν : Type) [Ord κ] where
  toList : List (κ × ν)
  ascending : toList.Pairwise fun a b => compare a.1 b.1 = .lt

namespace OrderedMap

variable {κ ν : Type} [Ord κ]

/-- Sets the entry of a key in a list of entries that is ascending by key. -/
def insertList (k : κ) (v : ν) : List (κ × ν) → List (κ × ν)
  | [] => [(k, v)]
  | e :: rest =>
    match compare k e.1 with
    | .lt => (k, v) :: e :: rest
    | .eq => (k, v) :: rest
    | .gt => e :: insertList k v rest

theorem mem_insertList_imp {k : κ} {v : ν} {x : κ × ν} {l : List (κ × ν)} (h : x ∈ insertList k v l) :
    x = (k, v) ∨ x ∈ l := by
  induction l with
  | nil => simpa [insertList] using h
  | cons e rest ih =>
    rw [insertList] at h
    split at h <;> simp_all
    · rcases h with h | h
      · exact .inl h
      · exact .inr (.inr h)
    · rcases h with h | h
      · exact .inr (.inl h)
      · exact (ih h).imp id .inr

theorem insertList_ascending [Std.TransOrd κ] (k : κ) (v : ν) {l : List (κ × ν)}
    (h : l.Pairwise fun a b => compare a.1 b.1 = .lt) :
    (insertList k v l).Pairwise fun a b => compare a.1 b.1 = .lt := by
  induction l with
  | nil => simp [insertList]
  | cons e rest ih =>
    have he := List.pairwise_cons.1 h
    rw [insertList]
    split
    · rename_i hk
      refine List.pairwise_cons.2 ⟨fun x hx => ?_, h⟩
      rcases List.mem_cons.1 hx with rfl | hx
      · exact hk
      · exact Std.TransCmp.lt_trans hk (he.1 x hx)
    · rename_i hk
      exact List.pairwise_cons.2 ⟨fun x hx => Std.TransCmp.lt_of_eq_of_lt hk (he.1 x hx), he.2⟩
    · rename_i hk
      refine List.pairwise_cons.2 ⟨fun x hx => ?_, ih he.2⟩
      rcases mem_insertList_imp hx with rfl | hx
      · exact Std.OrientedCmp.lt_of_gt hk
      · exact he.1 x hx

/-- The map without entries. -/
def empty : OrderedMap κ ν := ⟨[], .nil⟩

instance : EmptyCollection (OrderedMap κ ν) := ⟨empty⟩
instance : Inhabited (OrderedMap κ ν) := ⟨empty⟩

theorem eq_of_toList_eq {m n : OrderedMap κ ν} (h : m.toList = n.toList) : m = n := by
  cases m; cases n; simp_all

instance [DecidableEq κ] [DecidableEq ν] : DecidableEq (OrderedMap κ ν) := fun m n =>
  decidable_of_iff (m.toList = n.toList) ⟨eq_of_toList_eq, fun h => h ▸ rfl⟩

/-- The value of a key in a list of entries. -/
def lookup [DecidableEq κ] (k : κ) : List (κ × ν) → Option ν
  | [] => none
  | e :: rest => if e.1 = k then some e.2 else lookup k rest

/-- The value of a key. -/
def get? [DecidableEq κ] (m : OrderedMap κ ν) (k : κ) : Option ν := lookup k m.toList

/-- The keys, in ascending order. -/
def keys (m : OrderedMap κ ν) : List κ := m.toList.map (·.1)

theorem lookup_insertList [DecidableEq κ] [Std.LawfulEqOrd κ] (k : κ) (v : ν) (x : κ) (l : List (κ × ν)) :
    lookup x (insertList k v l) = if k = x then some v else lookup x l := by
  induction l with
  | nil => simp [insertList, lookup]
  | cons e rest ih =>
    rw [insertList]
    split
    · simp [lookup]
    · rename_i h
      have : k = e.1 := Std.LawfulEqCmp.eq_of_compare h
      grind [lookup]
    · rename_i h
      have : k ≠ e.1 := by
        intro hk
        rw [hk] at h
        simp at h
      grind [lookup]

variable [Std.TransOrd κ]

/-- The map with the entry of one key set. -/
def insert (m : OrderedMap κ ν) (k : κ) (v : ν) : OrderedMap κ ν :=
  ⟨insertList k v m.toList, insertList_ascending k v m.ascending⟩

/-- Only the entry of the inserted key changes. -/
theorem get?_insert [DecidableEq κ] [Std.LawfulEqOrd κ] (m : OrderedMap κ ν) (k : κ) (v : ν) (x : κ) :
    (m.insert k v).get? x = if k = x then some v else m.get? x :=
  lookup_insertList k v x m.toList

end OrderedMap

end ShaderFront
