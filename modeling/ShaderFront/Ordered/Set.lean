import Std.Data.TreeSet

/-!
# Ordered sets

A finite set over an ordered type, held as its strictly ascending list of elements. There is one list for each set, so
two ordered sets with the same elements are equal (`OrderedSet.ext`).

Main content:

* `OrderedSet`, with `insert`, `union`, `erase`, `ofList`, `containsAll`;
* the membership lemmas `mem_insert`, `mem_union`, `mem_ofList`, `mem_erase`.
-/

namespace ShaderFront

/-- A finite set as the strictly ascending list of its elements. -/
structure OrderedSet (α : Type) [Ord α] where
  toList : List α
  ascending : toList.Pairwise fun a b => compare a b = .lt

namespace OrderedSet

variable {α : Type} [Ord α]

/-! ## Ascending lists -/

/-- Puts an element at its place in an ascending list, unless it is there already. -/
def insertList (a : α) : List α → List α
  | [] => [a]
  | b :: rest =>
    match compare a b with
    | .lt => a :: b :: rest
    | .eq => b :: rest
    | .gt => b :: insertList a rest

/-- Merges two ascending lists, keeping one of two equal elements. -/
def mergeLists : List α → List α → List α
  | [], bs => bs
  | as, [] => as
  | a :: as, b :: bs =>
    match compare a b with
    | .lt => a :: mergeLists as (b :: bs)
    | .eq => a :: mergeLists as bs
    | .gt => b :: mergeLists (a :: as) bs
termination_by as bs => as.length + bs.length

theorem mem_insertList_imp {a x : α} {l : List α} (h : x ∈ insertList a l) : x = a ∨ x ∈ l := by
  induction l with
  | nil => simpa [insertList] using h
  | cons b rest ih =>
    rw [insertList] at h
    split at h <;> simp_all
    · rcases h with h | h
      · exact .inr (.inl h)
      · exact (ih h).imp id .inr

theorem mem_mergeLists_imp {x : α} {as bs : List α} (h : x ∈ mergeLists as bs) : x ∈ as ∨ x ∈ bs := by
  fun_induction mergeLists as bs with
  | case1 bs => exact .inr h
  | case2 as => exact .inl h
  | case3 a as b bs _ ih => grind
  | case4 a as b bs _ ih => grind
  | case5 a as b bs _ ih => grind

section Ascending

variable [Std.TransOrd α]

theorem insertList_ascending (a : α) {l : List α} (h : l.Pairwise fun a b => compare a b = .lt) :
    (insertList a l).Pairwise fun a b => compare a b = .lt := by
  induction l with
  | nil => simp [insertList]
  | cons b rest ih =>
    have hb := List.pairwise_cons.1 h
    rw [insertList]
    split
    · rename_i hab
      refine List.pairwise_cons.2 ⟨fun x hx => ?_, h⟩
      rcases List.mem_cons.1 hx with rfl | hx
      · exact hab
      · exact Std.TransCmp.lt_trans hab (hb.1 x hx)
    · exact h
    · rename_i hab
      refine List.pairwise_cons.2 ⟨fun x hx => ?_, ih hb.2⟩
      rcases mem_insertList_imp hx with rfl | hx
      · exact Std.OrientedCmp.lt_of_gt hab
      · exact hb.1 x hx

theorem mergeLists_ascending {as bs : List α} (ha : as.Pairwise fun a b => compare a b = .lt)
    (hb : bs.Pairwise fun a b => compare a b = .lt) :
    (mergeLists as bs).Pairwise fun a b => compare a b = .lt := by
  fun_induction mergeLists as bs with
  | case1 bs => exact hb
  | case2 as => exact ha
  | case3 a as b bs hab ih =>
    have ha' := List.pairwise_cons.1 ha
    have hb' := List.pairwise_cons.1 hb
    refine List.pairwise_cons.2 ⟨fun x hx => ?_, ih ha'.2 hb⟩
    rcases mem_mergeLists_imp hx with hx | hx
    · exact ha'.1 x hx
    · rcases List.mem_cons.1 hx with rfl | hx
      · exact hab
      · exact Std.TransCmp.lt_trans hab (hb'.1 x hx)
  | case4 a as b bs hab ih =>
    have ha' := List.pairwise_cons.1 ha
    have hb' := List.pairwise_cons.1 hb
    refine List.pairwise_cons.2 ⟨fun x hx => ?_, ih ha'.2 hb'.2⟩
    rcases mem_mergeLists_imp hx with hx | hx
    · exact ha'.1 x hx
    · exact Std.TransCmp.lt_of_eq_of_lt hab (hb'.1 x hx)
  | case5 a as b bs hab ih =>
    have ha' := List.pairwise_cons.1 ha
    have hb' := List.pairwise_cons.1 hb
    refine List.pairwise_cons.2 ⟨fun x hx => ?_, ih ha hb'.2⟩
    have hba := Std.OrientedCmp.lt_of_gt hab
    rcases mem_mergeLists_imp hx with hx | hx
    · rcases List.mem_cons.1 hx with rfl | hx
      · exact hba
      · exact Std.TransCmp.lt_trans hba (ha'.1 x hx)
    · exact hb'.1 x hx

end Ascending

section Equality

variable [Std.LawfulEqOrd α]

theorem mem_insertList {a x : α} {l : List α} : x ∈ insertList a l ↔ x = a ∨ x ∈ l := by
  induction l with
  | nil => simp [insertList]
  | cons b rest ih =>
    rw [insertList]
    split
    · simp
    · rename_i h
      have : a = b := Std.LawfulEqCmp.eq_of_compare h
      grind
    · grind

theorem mem_mergeLists {x : α} {as bs : List α} : x ∈ mergeLists as bs ↔ x ∈ as ∨ x ∈ bs := by
  fun_induction mergeLists as bs with
  | case1 bs => simp
  | case2 as => simp
  | case3 a as b bs h ih => grind
  | case4 a as b bs h ih =>
    have : a = b := Std.LawfulEqCmp.eq_of_compare h
    grind
  | case5 a as b bs h ih => grind

end Equality

/-! ## Sets -/

instance : Membership α (OrderedSet α) := ⟨fun s a => a ∈ s.toList⟩

theorem mem_def {a : α} {s : OrderedSet α} : a ∈ s ↔ a ∈ s.toList := Iff.rfl

theorem eq_of_toList_eq {s t : OrderedSet α} (h : s.toList = t.toList) : s = t := by
  cases s; cases t; simp_all

instance [DecidableEq α] : DecidableEq (OrderedSet α) := fun s t =>
  decidable_of_iff (s.toList = t.toList) ⟨eq_of_toList_eq, fun h => h ▸ rfl⟩

instance [DecidableEq α] (a : α) (s : OrderedSet α) : Decidable (a ∈ s) :=
  inferInstanceAs (Decidable (a ∈ s.toList))

/-- The set without elements. -/
def empty : OrderedSet α := ⟨[], .nil⟩

instance : EmptyCollection (OrderedSet α) := ⟨empty⟩
instance : Inhabited (OrderedSet α) := ⟨empty⟩

/-- The set of one element. -/
def singleton (a : α) : OrderedSet α := ⟨[a], List.pairwise_singleton _ _⟩

@[simp]
theorem mem_empty {x : α} : ¬ x ∈ (∅ : OrderedSet α) := by
  change ¬ x ∈ []
  simp

@[simp]
theorem mem_singleton {x a : α} : x ∈ singleton a ↔ x = a := by
  simp [mem_def, singleton]

/-- The number of elements. -/
def size (s : OrderedSet α) : Nat := s.toList.length

/-- Whether there is no element. -/
def isEmpty (s : OrderedSet α) : Bool := s.toList.isEmpty

/-- The elements that satisfy a test. -/
def filter (p : α → Bool) (s : OrderedSet α) : OrderedSet α := ⟨s.toList.filter p, s.ascending.filter p⟩

theorem mem_filter {p : α → Bool} {s : OrderedSet α} {x : α} : x ∈ s.filter p ↔ x ∈ s ∧ p x := by
  simp [mem_def, filter]

/-- The set without one element. -/
def erase [DecidableEq α] (s : OrderedSet α) (a : α) : OrderedSet α := s.filter (· ≠ a)

theorem mem_erase [DecidableEq α] {s : OrderedSet α} {a x : α} : x ∈ s.erase a ↔ x ∈ s ∧ x ≠ a := by
  simp [erase, mem_filter]

/-- No element is listed twice. -/
theorem nodup_toList [Std.ReflOrd α] (s : OrderedSet α) : s.toList.Nodup :=
  s.ascending.imp fun hlt heq => by
    subst heq
    simp at hlt

variable [Std.TransOrd α]

/-- The set with one more element. -/
def insert (s : OrderedSet α) (a : α) : OrderedSet α := ⟨insertList a s.toList, insertList_ascending a s.ascending⟩

/-- The elements of both sets. -/
def union (s t : OrderedSet α) : OrderedSet α :=
  ⟨mergeLists s.toList t.toList, mergeLists_ascending s.ascending t.ascending⟩

instance : Union (OrderedSet α) := ⟨union⟩

/-- The elements of a list, in any order and with repetitions. -/
def ofList (l : List α) : OrderedSet α := l.foldr (fun a s => s.insert a) ∅

/-- Whether every element of `t` is in `s`: then adding them changes nothing. -/
def containsAll [DecidableEq α] (s t : OrderedSet α) : Bool := s ∪ t = s

/-! ## Membership -/

variable [Std.LawfulEqOrd α]

@[simp]
theorem mem_insert {s : OrderedSet α} {a x : α} : x ∈ s.insert a ↔ x = a ∨ x ∈ s := mem_insertList

@[simp]
theorem mem_union {s t : OrderedSet α} {x : α} : x ∈ s ∪ t ↔ x ∈ s ∨ x ∈ t := mem_mergeLists

@[simp]
theorem mem_ofList {l : List α} {x : α} : x ∈ ofList l ↔ x ∈ l := by
  induction l with
  | nil => simp [ofList]
  | cons a rest ih =>
    have : ofList (a :: rest) = (ofList rest).insert a := rfl
    rw [this, mem_insert, ih, List.mem_cons]

/-- Two sets with the same elements are equal. -/
theorem ext {s t : OrderedSet α} (h : ∀ x, x ∈ s ↔ x ∈ t) : s = t := by
  apply eq_of_toList_eq
  have key : ∀ l₁ l₂ : List α, l₁.Pairwise (fun a b => compare a b = .lt) →
      l₂.Pairwise (fun a b => compare a b = .lt) → (∀ x, x ∈ l₁ ↔ x ∈ l₂) → l₁ = l₂ := by
    intro l₁
    induction l₁ with
    | nil =>
      intro l₂ _ _ h
      cases l₂ with
      | nil => rfl
      | cons b bs => exact absurd ((h b).2 (.head _)) (by simp)
    | cons a as ih =>
      intro l₂ h₁ h₂ h
      cases l₂ with
      | nil => exact absurd ((h a).1 (.head _)) (by simp)
      | cons b bs =>
        have h₁' := List.pairwise_cons.1 h₁
        have h₂' := List.pairwise_cons.1 h₂
        have irrefl : ∀ c : α, ¬ compare c c = .lt := fun c hc => by simp at hc
        have hab : a = b := by
          rcases List.mem_cons.1 ((h a).1 (.head _)) with hab | hab
          · exact hab
          · rcases List.mem_cons.1 ((h b).2 (.head _)) with hba | hba
            · exact hba.symm
            · exact absurd (Std.TransCmp.lt_trans (h₁'.1 b hba) (h₂'.1 a hab)) (irrefl a)
        subst hab
        have tails : ∀ x, x ∈ as ↔ x ∈ bs := by
          intro x
          constructor
          · intro hx
            rcases List.mem_cons.1 ((h x).1 (.tail _ hx)) with rfl | hx'
            · exact absurd (h₁'.1 x hx) (irrefl x)
            · exact hx'
          · intro hx
            rcases List.mem_cons.1 ((h x).2 (.tail _ hx)) with rfl | hx'
            · exact absurd (h₂'.1 x hx) (irrefl x)
            · exact hx'
        rw [ih bs h₁'.2 h₂'.2 tails]
  exact key _ _ s.ascending t.ascending h

end OrderedSet

end ShaderFront
