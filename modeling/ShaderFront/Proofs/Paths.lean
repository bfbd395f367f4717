import Mathlib
import ShaderFront.Include.Resource
import ShaderFront.Proofs.Identifiers

/-!
# The paths of includes

A path is followed part by part, with the names so far on a stack. It leaves the directory at the first parent part
that finds no name (`follow_eq_none_iff`), and what is left at the end is as many names as the parts have more than
parents (`length_follow`). A resource so found is normal (`IsNormal`), and a normal resource is the one its text names
(`ofPath_text`), so that equal files have equal resources.
-/

namespace ShaderFront.Resource

/-! ## Names and parents -/

/-- An ordinary part: a name. -/
def IsName (part : String) : Prop := part ≠ "" ∧ part ≠ "." ∧ part ≠ ".."

instance : DecidablePred IsName := fun part =>
  inferInstanceAs (Decidable (part ≠ "" ∧ part ≠ "." ∧ part ≠ ".."))

/-- How many of the parts are names. -/
def nameCount (parts : List String) : Nat := parts.countP (IsName ·)

/-- How many of the parts lead to the parent. -/
def parentCount (parts : List String) : Nat := parts.count ".."

/-- Whether a character divides the parts of a path. -/
def isPathSeparator (c : Char) : Bool := c = '/' || c = '\\'

/-- A resource as a path names it: at least one component, all of them names without a separator. -/
def IsNormal (r : Resource) : Prop :=
  r.components ≠ [] ∧ ∀ name ∈ r.components, IsName name ∧ ∀ c ∈ name.toList, isPathSeparator c = false

/-- Two paths that differ in their separators only. -/
def Exchanged (path other : String) : Prop :=
  List.Forall₂ (fun c d => c = d ∨ isPathSeparator c = true ∧ isPathSeparator d = true) path.toList other.toList

@[simp] theorem nameCount_nil : nameCount [] = 0 := rfl

@[simp] theorem parentCount_nil : parentCount [] = 0 := rfl

theorem nameCount_cons (part : String) (parts : List String) :
    nameCount (part :: parts) = nameCount parts + if IsName part then 1 else 0 := by
  simp [nameCount, List.countP_cons]

theorem parentCount_cons (part : String) (parts : List String) :
    parentCount (part :: parts) = parentCount parts + if part = ".." then 1 else 0 := by
  simp [parentCount, List.count_cons]

/-! ## Following the parts -/

theorem exists_prefix_cons {P : List String → Prop} {part : String} {parts : List String} :
    (∃ front, front <+: part :: parts ∧ P front) ↔ P [] ∨ ∃ front, front <+: parts ∧ P (part :: front) := by
  constructor
  · rintro ⟨front, hfront, hP⟩
    rcases List.prefix_cons_iff.mp hfront with rfl | ⟨rest, rfl, hrest⟩
    · exact .inl hP
    · exact .inr ⟨rest, hrest, hP⟩
  · rintro (hP | ⟨front, hfront, hP⟩)
    · exact ⟨[], List.nil_prefix, hP⟩
    · exact ⟨part :: front, (List.prefix_cons_inj part).mpr hfront, hP⟩

/-- A path leaves the directory exactly where the parents of a front outnumber its names and those before it. -/
theorem follow_eq_none_iff (names parts : List String) :
    follow names parts = none ↔
      ∃ front, front <+: parts ∧ names.length + nameCount front < parentCount front := by
  fun_induction follow names parts with
  | case1 names => simp
  | case2 names part rest hblank ih =>
    have hname : ¬ IsName part := by rcases Bool.or_eq_true_iff.mp hblank with h | h <;> simp_all [IsName]
    have hparent : part ≠ ".." := by rcases Bool.or_eq_true_iff.mp hblank with h | h <;> simp_all
    simp [exists_prefix_cons, ih, nameCount_cons, parentCount_cons, hname, hparent]
  | case3 rest hblank =>
    rw [exists_prefix_cons]
    exact iff_of_true rfl (.inr ⟨[], List.nil_prefix, by simp [nameCount_cons, parentCount_cons, IsName]⟩)
  | case4 rest hblank name names ih =>
    simp [exists_prefix_cons, ih, nameCount_cons, parentCount_cons, IsName]
    grind
  | case5 names part rest hblank hparent ih =>
    have hname : IsName part := by simp_all [IsName]
    simp [exists_prefix_cons, ih, nameCount_cons, parentCount_cons, hname, hparent]
    grind

/-- What is left at the end. -/
theorem length_follow {names parts out : List String} (h : follow names parts = some out) :
    out.length + parentCount parts = names.length + nameCount parts := by
  fun_induction follow names parts with
  | case1 names => simp_all
  | case2 names part rest hblank ih =>
    have := ih h
    rcases Bool.or_eq_true_iff.mp hblank with hp | hp <;> simp_all [nameCount_cons, parentCount_cons, IsName]
  | case3 rest hblank => cases h
  | case4 rest hblank name names ih =>
    have := ih h
    simp [nameCount_cons, parentCount_cons, IsName]
    omega
  | case5 names part rest hblank hparent ih =>
    have := ih h
    have hname : IsName part := by simp_all [IsName]
    simp_all [nameCount_cons, parentCount_cons]
    omega

/-- Nothing is left of the parts of a path if they have as many parents as names. -/
theorem follow_eq_some_nil_iff (parts : List String) :
    follow [] parts = some [] ↔ follow [] parts ≠ none ∧ nameCount parts = parentCount parts := by
  cases hfollow : follow [] parts with
  | none => simp
  | some names =>
    have hlength := length_follow hfollow
    have hnil : names = [] ↔ names.length = 0 := List.length_eq_zero_iff.symm
    simp only [List.length_nil, Nat.zero_add] at hlength
    simp only [Option.some.injEq, hnil, ne_eq, reduceCtorEq, not_false_eq_true, true_and]
    omega

/-- What is left are names of the path. -/
theorem mem_follow {names parts out : List String} (h : follow names parts = some out) {name : String}
    (hname : name ∈ out) : name ∈ names ∨ name ∈ parts ∧ IsName name := by
  fun_induction follow names parts with
  | case1 names => simp_all
  | case2 names part rest hblank ih => grind
  | case3 rest hblank => cases h
  | case4 rest hblank top names ih => grind
  | case5 names part rest hblank hparent ih =>
    rcases ih h with hmem | ⟨hmem, hname⟩
    · rcases List.mem_cons.mp hmem with rfl | hmem
      · exact .inr ⟨List.mem_cons_self, by simp_all [IsName]⟩
      · exact .inl hmem
    · exact .inr ⟨List.mem_cons_of_mem _ hmem, hname⟩

/-- Names are kept as they are. -/
theorem follow_names (names : List String) {parts : List String} (h : ∀ part ∈ parts, IsName part) :
    follow names parts = some (parts.reverse ++ names) := by
  induction parts generalizing names with
  | nil => rfl
  | cons part parts ih =>
    obtain ⟨hempty, hdot, hparent⟩ := h part List.mem_cons_self
    have hrest := ih (part :: names) fun other hother => h other (List.mem_cons_of_mem _ hother)
    simp [follow.eq_def names (part :: parts), hempty, hdot, hparent, hrest]

/-! ## The parts of a text -/

theorem not_of_mem_splitAt {p : Char → Bool} {text part : List Char} (h : part ∈ Text.splitAt p text) {c : Char}
    (hc : c ∈ part) : p c = false := by
  fun_induction Text.splitAt p text generalizing part with
  | case1 => simp_all
  | case2 d rest hd ih => grind
  | case3 d rest hd first others hsplit ih => grind
  | case4 d rest hd hsplit ih => grind

/-- Texts without separators are the parts of what a separator joins. -/
theorem splitAt_intercalate {p : Char → Bool} {c : Char} (hc : p c = true) {texts : List (List Char)}
    (hne : texts ≠ []) (h : ∀ text ∈ texts, ∀ d ∈ text, p d = false) :
    Text.splitAt p ([c].intercalate texts) = texts := by
  induction texts with
  | nil => exact absurd rfl hne
  | cons text texts ih =>
    have hfirst := Macro.splitAt_of_forall (h text List.mem_cons_self)
    cases texts with
    | nil => simpa [List.intercalate] using hfirst
    | cons next texts =>
      have hrest := ih (List.cons_ne_nil _ _) fun t ht => h t (List.mem_cons_of_mem _ ht)
      rw [List.intercalate_cons_cons, List.append_assoc, List.singleton_append, Macro.splitAt_append_cons hc, hfirst,
        hrest, List.singleton_append]

/-- The parts of a text depend on where its separators stand, not on which they are. -/
theorem splitAt_exchanged {p : Char → Bool} {text other : List Char}
    (h : List.Forall₂ (fun c d => c = d ∨ p c = true ∧ p d = true) text other) :
    Text.splitAt p text = Text.splitAt p other := by
  induction h with
  | nil => rfl
  | cons hcd _ ih =>
    rcases hcd with rfl | ⟨hc, hd⟩
    · rw [Text.splitAt, Text.splitAt, ih]
    · rw [Text.splitAt, Text.splitAt, if_pos hc, if_pos hd, ih]

theorem parts_text {r : Resource} (hr : r.IsNormal) : parts isPathSeparator r.text = r.components := by
  have hsplit : Text.splitAt isPathSeparator (['/'].intercalate (r.components.map String.toList)) =
      r.components.map String.toList := by
    refine splitAt_intercalate rfl (by simpa using hr.1) fun text htext => ?_
    obtain ⟨name, hname, rfl⟩ := List.mem_map.mp htext
    exact (hr.2 name hname).2
  have hnames : (r.components.map String.toList).map String.ofList = r.components := by simp
  rw [parts, text, String.toList_intercalate, show "/".toList = ['/'] from rfl, hsplit, hnames]

/-! ## Resources -/

/-- What becomes of a path, by what is left of its parts. -/
theorem ofPath_eq (path : String) :
    ofPath path =
      match follow [] (parts isPathSeparator path) with
      | none | some [] => .error (.invalidResource path)
      | some names => .ok ⟨names.reverse⟩ := by
  rcases hfollow : follow [] (parts isPathSeparator path) with _ | _ | _ <;>
    rw [ofPath, show (fun c : Char => decide (c = '/') || decide (c = '\\')) = isPathSeparator from rfl, hfollow]

theorem ofPath_eq_ok_iff (path : String) (r : Resource) :
    ofPath path = .ok r ↔ r.components ≠ [] ∧ follow [] (parts isPathSeparator path) = some r.components.reverse := by
  obtain ⟨components⟩ := r
  rw [ofPath_eq]
  rcases follow [] (parts isPathSeparator path) with _ | _ | ⟨name, names⟩
  · simp
  · simp
  · simp only [Except.ok.injEq, Resource.mk.injEq, Option.some.injEq]
    constructor
    · rintro rfl
      simp
    · rintro ⟨-, hnames⟩
      rw [hnames, List.reverse_reverse]

/-- A path is refused with its own text. -/
theorem ofPath_eq_error_iff (path : String) (e : ResolveError) :
    ofPath path = .error e ↔ e = .invalidResource path ∧
      (follow [] (parts isPathSeparator path) = none ∨ follow [] (parts isPathSeparator path) = some []) := by
  rw [ofPath_eq]
  rcases follow [] (parts isPathSeparator path) with _ | _ | _ <;> simp [eq_comm]

theorem isNormal_of_ofPath {path : String} {r : Resource} (h : ofPath path = .ok r) : r.IsNormal := by
  obtain ⟨hne, hfollow⟩ := (ofPath_eq_ok_iff path r).mp h
  refine ⟨hne, fun name hname => ?_⟩
  rcases mem_follow hfollow (List.mem_reverse.mpr hname) with hmem | ⟨hmem, hname⟩
  · cases hmem
  · obtain ⟨part, hpart, rfl⟩ := List.mem_map.mp hmem
    exact ⟨hname, fun c hc => not_of_mem_splitAt hpart (by simpa using hc)⟩

/-- A normal resource is the one that its text names. -/
theorem ofPath_text {r : Resource} (hr : r.IsNormal) : ofPath r.text = .ok r := by
  rw [ofPath_eq_ok_iff, parts_text hr, follow_names [] fun name hname => (hr.2 name hname).1]
  exact ⟨hr.1, by simp⟩

/-- A path is refused exactly if a front of its parts has more parents than names, or all of them have as many; otherwise
it names a normal resource, which its own text names too. Which separators divide the parts does not matter. -/
theorem ofPath_normalizes (path : String) :
    ((∃ e, ofPath path = .error e) ↔
      (∃ front, front <+: parts isPathSeparator path ∧ nameCount front < parentCount front) ∨
        nameCount (parts isPathSeparator path) = parentCount (parts isPathSeparator path)) ∧
    (∀ e, ofPath path = .error e → e = .invalidResource path) ∧
    (∀ r, ofPath path = .ok r → r.IsNormal ∧ ofPath r.text = .ok r) ∧
    ∀ other, Exchanged path other → (ofPath other).toOption = (ofPath path).toOption := by
  refine ⟨?_, fun e he => ((ofPath_eq_error_iff path e).mp he).1,
    fun r hr => ⟨isNormal_of_ofPath hr, ofPath_text (isNormal_of_ofPath hr)⟩, fun other hother => ?_⟩
  · have hleaves := follow_eq_none_iff [] (parts isPathSeparator path)
    simp only [List.length_nil, Nat.zero_add] at hleaves
    simp only [ofPath_eq_error_iff, exists_eq_left, follow_eq_some_nil_iff, ← hleaves]
    by_cases hnone : follow [] (parts isPathSeparator path) = none <;> simp [hnone]
  · have hparts : parts isPathSeparator other = parts isPathSeparator path := by
      rw [parts, parts, splitAt_exchanged hother]
    rw [ofPath_eq, ofPath_eq, hparts]
    rcases follow [] (parts isPathSeparator path) with _ | _ | _ <;> rfl

/-- A path that goes up again names the same file with its separators exchanged. -/
theorem ofPath_normalizes_climbing :
    ofPath "lib\\a/.././light.glsl" = .ok ⟨["lib", "light.glsl"]⟩ ∧
    Exchanged "lib\\a/.././light.glsl" "lib/a\\..\\./light.glsl" ∧
    IsNormal ⟨["lib", "light.glsl"]⟩ ∧ ofPath "lib/light.glsl" = .ok ⟨["lib", "light.glsl"]⟩ ∧
    (ofPath "lib/a\\..\\./light.glsl").toOption = some ⟨["lib", "light.glsl"]⟩ := by
  have hok : ofPath "lib\\a/.././light.glsl" = .ok ⟨["lib", "light.glsl"]⟩ := by decide
  have hother : Exchanged "lib\\a/.././light.glsl" "lib/a\\..\\./light.glsl" := by
    rw [Exchanged]
    decide
  obtain ⟨-, -, hnormal, hexchanged⟩ := ofPath_normalizes "lib\\a/.././light.glsl"
  obtain ⟨hr, htext⟩ := hnormal _ hok
  refine ⟨hok, hother, hr, htext, ?_⟩
  rw [hexchanged _ hother, hok]
  rfl

end ShaderFront.Resource
