import Mathlib
import ShaderFront.Lex.Scan

/-!
# Dividing a text into words

A scanner that cuts one piece after the other off the front of a text finds its words (`Divides.lexemes`). That a piece is cut off
as a whole depends on what follows it, so it is said of a piece and the rest of the text together (`CutsOff`). Whether a comment begins
depends on two characters (`commentLength?_cons_eq_none`).
-/

namespace ShaderFront

/-! ## Where comments begin -/

/-- A comment begins with two slashes, or with a slash and a star. -/
theorem commentLength?_cons_eq_none {c : Char} {rest : List Char} :
    commentLength? (c :: rest) = none ↔ (c = '/' → ∀ d ∈ rest.head?, d ≠ '/' ∧ d ≠ '*') := by
  constructor
  · rintro h rfl d hd
    obtain ⟨more, rfl⟩ := List.head?_eq_some_iff.mp hd
    constructor <;> (rintro rfl; cases h)
  · intro h
    unfold commentLength?
    split
    · rename_i heq
      obtain ⟨rfl, rfl⟩ := List.cons.inj heq
      exact absurd rfl (h rfl '/' rfl).1
    · rename_i heq
      obtain ⟨rfl, rfl⟩ := List.cons.inj heq
      exact absurd rfl (h rfl '*' rfl).2
    · rfl

theorem commentLength?_of_ne {c : Char} (hc : c ≠ '/') (rest : List Char) : commentLength? (c :: rest) = none :=
  commentLength?_cons_eq_none.mpr fun h => absurd h hc

theorem eq_slash_of_commentLength? {c : Char} {rest : List Char} {n : Nat} (h : commentLength? (c :: rest) = some n) : c = '/' := by
  by_contra hc
  rw [commentLength?_of_ne hc] at h
  cases h

/-! ## Cutting off pieces -/

variable {κ : Type} {rule : Char → List Char → Cut κ}

/-- A piece of a kind is cut off the front of a text. -/
def CutsOff (rule : Char → List Char → Cut κ) (kind : Option κ) (piece rest : List Char) : Prop :=
  ∃ c more, piece = c :: more ∧ rule c (more ++ rest) = ⟨kind, more.length⟩

theorem CutsOff.scan_eq {kind : Option κ} {piece rest : List Char} (h : CutsOff rule kind piece rest) (pos : Nat) :
    scan rule pos (piece ++ rest) =
      ⟨kind, piece, ⟨pos, pos + byteLength piece⟩⟩ :: scan rule (pos + byteLength piece) rest := by
  obtain ⟨c, more, rfl, hcut⟩ := h
  rw [List.cons_append, scan, hcut]
  simp only [List.take_left, List.drop_left]

/-- A text is divided into words, with skipped pieces between them. -/
inductive Divides (rule : Char → List Char → Cut κ) : List Char → List (κ × String) → Prop
  | nil : Divides rule [] []
  | gap {piece rest : List Char} {words : List (κ × String)} : CutsOff rule none piece rest → Divides rule rest words →
      Divides rule (piece ++ rest) words
  | word {word : κ × String} {rest : List Char} {words : List (κ × String)} : CutsOff rule (some word.1) word.2.toList rest →
      Divides rule rest words → Divides rule (word.2.toList ++ rest) (word :: words)

/-- **The lexemes of a divided text are its words.** -/
theorem Divides.lexemes {cs : List Char} {words : List (κ × String)} (h : Divides rule cs words) : ∀ pos,
    ((scan rule pos cs).filterMap Piece.lexeme?).map (fun l => (l.kind, l.text)) = words := by
  induction h with
  | nil =>
    intro pos
    rw [scan]
    rfl
  | gap hcuts _ ih =>
    intro pos
    rw [hcuts.scan_eq pos, List.filterMap_cons_none rfl]
    exact ih _
  | @word word rest words hcuts _ ih =>
    intro pos
    rw [hcuts.scan_eq pos, List.filterMap_cons_some (f := Piece.lexeme?) rfl, List.map_cons, String.ofList_toList, ih]

/-- What follows the first part comes with a separator before each part. -/
theorem intercalate_cons {α : Type} (separator first : List α) (rest : List (List α)) :
    separator.intercalate (first :: rest) = first ++ rest.flatMap (separator ++ ·) := by
  induction rest generalizing first with
  | nil => simp
  | cons next rest ih => simp [List.intercalate_cons_cons, ih]

theorem toList_intercalate_cons (separator first : String) (rest : List String) :
    (separator.intercalate (first :: rest)).toList =
      first.toList ++ rest.flatMap fun part => separator.toList ++ part.toList := by
  rw [String.toList_intercalate, List.map_cons, intercalate_cons, List.flatMap_map]

end ShaderFront
