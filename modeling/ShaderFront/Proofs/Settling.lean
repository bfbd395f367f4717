import Mathlib
import ShaderFront.Proofs.Expansion

/-!
# Expanding twice

A table is acyclic if no macro mentions its own name, directly or through the bodies of other macros
(`MacroTable.Acyclic`). With such a table and enough depth, an expansion leaves no macro without parameters: a pass keeps
its name only while its own body is being expanded, and no text in there mentions it (`Macro.Underway`).

Expanding the result once more can still change it (`Macro.expand_not_settled`). Two things must not happen. The parts
that the result is put together from must not run together (`Macro.Separate`), and no name of a macro with parameters must
come to stand before an argument list (`Macro.callsLeft`). Then the result is final (`Macro.expand_settles`).
-/

namespace ShaderFront

/-! ## Acyclic tables -/

namespace MacroTable

variable {macros : MacroTable}

/-- The body of a macro mentions a name. -/
def Mentions (macros : MacroTable) (a b : String) : Prop :=
  ∃ m, macros.get? a = some m ∧ b.toList ∈ Macro.identifiers m.body.toList

/-- No macro mentions its own name, directly or through the bodies of other macros. -/
def Acyclic (macros : MacroTable) : Prop := ∀ a, ¬Relation.TransGen macros.Mentions a a

/-- Whether a name stands for a macro without parameters. -/
def isObjectLike (macros : MacroTable) (name : String) : Bool := (macros.get? name).any (·.parameters.isNone)

/-- Whether a name stands for a macro with parameters. -/
def isFunctionLike (macros : MacroTable) (name : String) : Bool := (macros.get? name).any (·.parameters.isSome)

theorem mem_of_lookup {name : String} {m : Macro} {entries : List (String × Macro)}
    (h : OrderedMap.lookup name entries = some m) : (name, m) ∈ entries := by
  induction entries with
  | nil => simp [OrderedMap.lookup] at h
  | cons e entries ih =>
    rw [OrderedMap.lookup] at h
    split at h
    · rename_i hname
      obtain rfl := Option.some.inj h
      rw [← hname]
      exact List.mem_cons_self
    · exact List.mem_cons_of_mem e (ih h)

theorem get?_eq_some {name : String} {m : Macro} (h : macros.get? name = some m) :
    (name, m) ∈ macros.entries.toList ∧ m.defined = true := by
  rw [get?, Option.filter_eq_some_iff] at h
  exact ⟨mem_of_lookup h.1, h.2⟩

/-- Macros that mention only names of a lower rank form an acyclic table. -/
theorem acyclic_of_rank (rank : String → Nat)
    (h : ∀ e ∈ macros.entries.toList, ∀ word ∈ Macro.identifiers e.2.body.toList,
      rank (String.ofList word) < rank e.1) :
    macros.Acyclic := by
  have hstep : ∀ {a b}, macros.Mentions a b → rank b < rank a := by
    rintro a b ⟨m, hm, hb⟩
    simpa using h (a, m) (get?_eq_some hm).1 b.toList hb
  have hrun : ∀ {a b}, Relation.TransGen macros.Mentions a b → rank b < rank a := by
    intro a b hab
    induction hab with
    | single hab => exact hstep hab
    | tail _ hbc ih => exact (hstep hbc).trans ih
  exact fun a ha => Nat.lt_irrefl _ (hrun ha)

/-- There are no more names of defined macros than there are defined macros. -/
theorem length_le_of_nodup {names : List String} (hnodup : names.Nodup)
    (hdefined : ∀ name ∈ names, (macros.get? name).isSome = true) : names.length ≤ macros.toList.length := by
  have hsub : names ⊆ (macros.entries.toList.filter (·.2.defined)).map (·.1) := by
    intro name hname
    obtain ⟨m, hm⟩ := Option.isSome_iff_exists.mp (hdefined name hname)
    obtain ⟨hmem, hdef⟩ := get?_eq_some hm
    exact List.mem_map.mpr ⟨(name, m), List.mem_filter.mpr ⟨hmem, hdef⟩, rfl⟩
  have hle := (List.subperm_of_subset hnodup hsub).length_le
  rw [List.length_map] at hle
  rw [toList, List.filter_map, List.length_map]
  exact hle

end MacroTable

namespace Macro

variable {macros : MacroTable} {maxDepth : Nat}

/-! ## The parts of a result -/

/-- A part of an expanded text. -/
inductive Part where
  | piece (chars : List Char)
  /-- A call with the wrong number of arguments, which is left as it is. -/
  | call (chars : List Char)
deriving DecidableEq

namespace Part

/-- The characters of a part. -/
def chars : Part → List Char
  | .piece chars => chars
  | .call chars => chars

/-- The pieces of a part. -/
def pieces : Part → List (List Char)
  | .piece chars => [chars]
  | .call chars => Macro.pieces chars

end Part

/-- The text of parts. -/
def flatten (parts : List Part) : List Char := parts.flatMap Part.chars

@[simp] theorem flatten_nil : flatten [] = [] := rfl

@[simp] theorem flatten_cons (p : Part) (parts : List Part) : flatten (p :: parts) = p.chars ++ flatten parts := by
  simp [flatten]

@[simp] theorem flatten_append (left right : List Part) : flatten (left ++ right) = flatten left ++ flatten right := by
  simp [flatten]

/-- The parts that stand for a word and the characters after it. -/
def Verdict.parts (inner : List Char → List Part) (word after : List Char) : Verdict → List Part
  | .stays => [.piece word]
  | .keeps n => [.call (word ++ after.take n)]
  | .becomes replacement _ newlines => inner replacement ++ List.replicate newlines (.piece ['\n'])

/-- The parts of the result of one pass. `inner` gives the parts of the replacement of a macro. -/
def partsWith (inner : String → List Char → List Part) (scope : Scope) : List Char → List Part
  | [] => []
  | c :: rest =>
    let front := c :: rest.take (pieceMore c rest)
    let after := rest.drop (pieceMore c rest)
    if isWordStart c then
      let v := verdict scope front after
      v.parts (inner (String.ofList front)) front after ++ partsWith inner scope (after.drop v.consumed)
    else .piece front :: partsWith inner scope after
termination_by text => text.length
decreasing_by all_goals (simp only [List.length_cons, List.length_drop]; omega)

/-- The parts of an expanded text, with `levels` more levels of macros to go. -/
def partsLevels (macros : MacroTable) (maxDepth : Nat) : Nat → List String → List Char → List Part
  | 0, active, text => partsWith (fun _ replacement => [.piece replacement]) ⟨macros, maxDepth, active⟩ text
  | levels + 1, active, text =>
    partsWith (fun name replacement => partsLevels macros maxDepth levels (active ++ [name]) replacement)
      ⟨macros, maxDepth, active⟩ text

/-- The parts that the result of an expansion is put together from. -/
def expandParts (macros : MacroTable) (maxDepth : Nat) (text : String) : List Part :=
  partsLevels macros maxDepth maxDepth [] text.toList

theorem flatten_parts {inner : List Char → List Part} {innerText : List Char → List Char}
    (h : ∀ r, flatten (inner r) = innerText r) (word after : List Char) (v : Verdict) :
    flatten (v.parts inner word after) = v.text innerText word after := by
  cases v with
  | stays => simp [Verdict.parts, Verdict.text, Part.chars]
  | keeps n => simp [Verdict.parts, Verdict.text, Part.chars]
  | becomes r n newlines =>
    have hnewlines : flatten (List.replicate newlines (.piece ['\n'])) = List.replicate newlines '\n' := by
      simp [flatten, Part.chars, List.flatMap_replicate]
    rw [Verdict.parts, Verdict.text, flatten_append, h, hnewlines]

theorem flatten_partsWith {inner : String → List Char → List Part} {innerText : String → List Char → Expansion}
    (h : ∀ name r, flatten (inner name r) = (innerText name r).text) (scope : Scope) (text : List Char) :
    flatten (partsWith inner scope text) = (expandWith innerText scope text).text := by
  fun_induction partsWith inner scope text with
  | case1 => simp [expandWith]
  | case2 c rest front after hc v ih => 
    rw [text_expandWith_word innerText scope rest hc, flatten_append, ih, flatten_parts (h _)]
  | case3 c rest front after hc ih =>
    rw [text_expandWith_plain innerText scope rest (by simpa using hc), flatten_cons, ih]
    rfl

theorem flatten_partsLevels (macros : MacroTable) (maxDepth levels : Nat) (active : List String) (text : List Char) :
    flatten (partsLevels macros maxDepth levels active text) =
      (expandLevels macros maxDepth levels active text).text := by
  induction levels generalizing active text with
  | zero => exact flatten_partsWith (fun _ _ => by simp [Part.chars]) _ text
  | succ levels ih => exact flatten_partsWith (fun _ _ => ih _ _) _ text

/-! ## Macros whose expansion is under way -/

/-- What is known of a text that is expanded in the bodies of active macros: each of those without parameters mentions
all that the text mentions. -/
structure Underway (macros : MacroTable) (active : List String) (text : List Char) : Prop where
  nodup : active.Nodup
  defined : ∀ name ∈ active, (macros.get? name).isSome = true
  mentioned : ∀ name ∈ active, macros.isObjectLike name = true → ∀ word ∈ identifiers text,
    Relation.TransGen macros.Mentions name (String.ofList word)

namespace Underway

variable {active : List String} {text word after : List Char}

theorem start (macros : MacroTable) (text : List Char) : Underway macros [] text :=
  ⟨.nil, by simp, by simp⟩

/-- The rest of a text after a seam. -/
theorem mono (h : Underway macros active text) {rest : List Char}
    (hsub : ∀ word ∈ identifiers rest, word ∈ identifiers text) : Underway macros active rest :=
  ⟨h.nodup, h.defined, fun name hname hobject word hword => h.mentioned name hname hobject word (hsub word hword)⟩

/-- What a macro of the text becomes is expanded with one more active macro. -/
theorem becomes (h : Underway macros active text) (hword : word ∈ identifiers text)
    (hafter : ∀ w ∈ identifiers after, w ∈ identifiers text) {replacement : List Char} {n newlines : Nat}
    (hv : verdict ⟨macros, maxDepth, active⟩ word after = .becomes replacement n newlines) :
    Underway macros (active ++ [String.ofList word]) replacement := by
  obtain ⟨m, hm, hfresh, -, hcases⟩ := verdict_becomes hv
  have hbody : ∀ w ∈ identifiers m.body.toList, macros.Mentions (String.ofList word) (String.ofList w) :=
    fun w hw => ⟨m, hm, by simpa using hw⟩
  -- An identifier of the replacement stands in the body, or in an argument and so in the text.
  have hsource : ∀ w ∈ identifiers replacement, w ∈ identifiers m.body.toList ∨ w ∈ identifiers text := by
    intro w hw
    rcases hcases with ⟨-, rfl, -, -⟩ | ⟨parameters, call, -, hcall, rfl, -, -⟩
    · exact Or.inl hw
    · refine (mem_identifiers_substitute hw).imp_right ?_
      rintro ⟨a, ha, hwa⟩
      have hdropped := mem_identifiers_callArguments hcall ha hwa
      obtain ⟨rest, hrest, -⟩ := readCall?_eq_some hcall
      refine hafter w ?_
      rw [← List.take_append_drop (runLength Text.isBlank after) after, hrest,
        identifiers_append (Or.inr (by simp [BeginsPlain]; decide)), ← hrest]
      exact List.mem_append_right _ hdropped
  refine ⟨?_, ?_, ?_⟩
  · exact List.nodup_middle.mpr (by simpa using ⟨hfresh, h.nodup⟩)
  · intro name hname
    rcases List.mem_append.mp hname with hname | hname
    · exact h.defined name hname
    · rw [List.mem_singleton.mp hname, hm]
      rfl
  · intro name hname hobject w hw
    rcases List.mem_append.mp hname with hname | hname
    · rcases hsource w hw with hw | hw
      · exact (h.mentioned name hname hobject word hword).tail (hbody w hw)
      · exact h.mentioned name hname hobject w hw
    · obtain rfl := List.mem_singleton.mp hname
      rcases hcases with ⟨-, rfl, -, -⟩ | ⟨parameters, call, hparameters, -⟩
      · exact .single (hbody w hw)
      · simp [MacroTable.isObjectLike, hm, hparameters] at hobject

/-- A name of a macro without parameters does not stay. -/
theorem not_isObjectLike (h : Underway macros active text) (acyclic : macros.Acyclic)
    (hdepth : macros.toList.length < maxDepth) (hword : word ∈ identifiers text)
    (hv : verdict ⟨macros, maxDepth, active⟩ word after = .stays) :
    macros.isObjectLike (String.ofList word) = false := by
  by_contra hobject
  simp only [Bool.not_eq_false] at hobject
  obtain ⟨m, hm, hparameters⟩ : ∃ m, macros.get? (String.ofList word) = some m ∧ m.parameters = none := by
    simpa [MacroTable.isObjectLike, Option.any_eq_true] using hobject
  have hlength := MacroTable.length_le_of_nodup h.nodup h.defined
  by_cases hactive : String.ofList word ∈ active
  · exact acyclic _ (h.mentioned _ hactive hobject word hword)
  · have hnot : ¬(String.ofList word ∈ active ∨ maxDepth ≤ active.length) := by
      rintro (hin | hle)
      · exact hactive hin
      · omega
    rw [verdict] at hv
    simp [hm, hnot, hparameters] at hv

end Underway

/-! ## Parts at rest -/

/-- What a part of a result is known to be: a piece is no name of a macro without parameters, and a call is kept by
every pass to come. -/
def Part.AtRest (macros : MacroTable) (maxDepth : Nat) : Part → Prop
  | .piece chars => isWord chars = true → macros.isObjectLike (String.ofList chars) = false
  | .call chars => ∀ (inner : String → List Char → Expansion) (tail : List Char),
      (expandWith inner ⟨macros, maxDepth, []⟩ (chars ++ tail)).text =
        chars ++ (expandWith inner ⟨macros, maxDepth, []⟩ tail).text

/-- Outside of all bodies, a macro with parameters goes by its call. -/
theorem verdict_of_parameters {m : Macro} {parameters : List String} {word : List Char} (hdepth : 0 < maxDepth)
    (hm : macros.get? (String.ofList word) = some m) (hparameters : m.parameters = some parameters) (after : List Char) :
    verdict ⟨macros, maxDepth, []⟩ word after = callVerdict m parameters after := by
  have hguard : ¬(String.ofList word ∈ ([] : List String) ∨ maxDepth ≤ ([] : List String).length) := by simp; omega
  rw [verdict]
  simp only [hm, hparameters, if_neg hguard]

/-- A call that a pass keeps is kept by every other pass. -/
theorem atRest_call {active : List String} {c : Char} (hc : isWordStart c = true) (rest : List Char) {n : Nat}
    (hdepth : 0 < maxDepth)
    (h : verdict ⟨macros, maxDepth, active⟩ (c :: rest.take (pieceMore c rest)) (rest.drop (pieceMore c rest)) =
      .keeps n) :
    (Part.call (c :: rest.take (pieceMore c rest) ++ (rest.drop (pieceMore c rest)).take n)).AtRest
      macros maxDepth := by
  obtain ⟨m, parameters, hm, hparameters, hkeeps⟩ := verdict_keeps h
  obtain ⟨call, last, hafter, rfl, hclosed, hplain, hagain⟩ := callVerdict_keeps hkeeps
  rw [hafter, List.take_left' rfl]
  have hwordchars : ∀ d ∈ rest.take (pieceMore c rest), isWordChar d = true := by
    rw [pieceMore_of_isWordStart hc]
    exact fun d hd => of_mem_take_runLength hd
  revert hm hwordchars
  generalize rest.take (pieceMore c rest) = word
  intro hm hwordchars inner tail
  have hbreak : BeginsPlain (call ++ tail) := by
    obtain ⟨d, call, rfl⟩ := List.exists_cons_of_ne_nil (by rintro rfl; simp at hclosed : call ≠ [])
    exact hplain
  have hmore : pieceMore c (word ++ (call ++ tail)) = word.length := by
    rw [pieceMore_of_isWordStart hc, runLength_run hwordchars hbreak]
  have hverdict : verdict ⟨macros, maxDepth, []⟩ (c :: word) (call ++ tail) = .keeps call.length :=
    (verdict_of_parameters hdepth hm hparameters _).trans (hagain tail)
  have htext := text_expandWith_word inner ⟨macros, maxDepth, []⟩ (word ++ (call ++ tail)) hc
  simp only [hmore, List.take_left', List.drop_left', hverdict, Verdict.text, Verdict.consumed] at htext
  rw [List.cons_append, List.cons_append, List.append_assoc, htext]
  simp

/-- The parts of one pass are at rest if those of the replacements are. -/
theorem atRest_partsWith {active : List String} {text : List Char} (acyclic : macros.Acyclic)
    (hdepth : macros.toList.length < maxDepth) {inner : String → List Char → List Part}
    (hinner : ∀ name r, Underway macros (active ++ [name]) r → ∀ p ∈ inner name r, p.AtRest macros maxDepth)
    (h : Underway macros active text) :
    ∀ p ∈ partsWith inner ⟨macros, maxDepth, active⟩ text, p.AtRest macros maxDepth := by
  intro p hp
  fun_induction partsWith inner ⟨macros, maxDepth, active⟩ text with
  | case1 => simp at hp
  | case2 c rest front after hc v ih =>
    have htext := identifiers_piece c rest
    have hfront : front ∈ identifiers (c :: rest) := by
      have hone := identifiers_front hc rest
      rw [← pieceMore_of_isWordStart hc] at hone
      rw [htext, hone]
      exact List.mem_append_left _ (List.mem_singleton_self _)
    have hafter : ∀ w ∈ identifiers after, w ∈ identifiers (c :: rest) := by
      intro w hw
      rw [htext]
      exact List.mem_append_right _ hw
    rcases List.mem_append.mp hp with hp | hp
    · cases hv : v with
      | stays =>
        obtain rfl : p = .piece front := by simpa [hv, Verdict.parts] using hp
        exact fun _ => h.not_isObjectLike acyclic hdepth hfront hv
      | keeps n =>
        obtain rfl : p = .call (front ++ after.take n) := by simpa [hv, Verdict.parts] using hp
        exact atRest_call hc rest (by omega) hv
      | becomes r n newlines =>
        rw [hv, Verdict.parts, List.mem_append] at hp
        rcases hp with hp | hp
        · exact hinner _ r (h.becomes hfront hafter hv) p hp
        · rw [List.eq_of_mem_replicate hp]
          exact fun hword => absurd hword (by decide)
    · refine ih (h.mono fun w hw => hafter w ?_) hp
      rw [← List.take_append_drop v.consumed after, identifiers_append (broken_verdict _ front after)]
      exact List.mem_append_right _ hw
  | case3 c rest front after hc ih =>
    rcases List.mem_cons.mp hp with rfl | hp
    · intro hword
      simp [isWord, front, hc] at hword
    · refine ih (h.mono fun w hw => ?_) hp
      rw [identifiers_piece c rest]
      exact List.mem_append_right _ hw

/-- **The parts of a result are at rest:** with an acyclic table and enough depth, no name of a macro without parameters
is left. -/
theorem atRest_partsLevels (acyclic : macros.Acyclic) (hdepth : macros.toList.length < maxDepth) :
    ∀ (levels : Nat) {active : List String} {text : List Char}, active.length + levels = maxDepth →
      Underway macros active text → ∀ p ∈ partsLevels macros maxDepth levels active text, p.AtRest macros maxDepth
  | 0, active, text, hlevels, h => by
    have hlength := MacroTable.length_le_of_nodup h.nodup h.defined
    omega
  | levels + 1, active, text, hlevels, h => by
    refine atRest_partsWith acyclic hdepth (fun name r hr => ?_) h
    exact atRest_partsLevels acyclic hdepth levels (by simp; omega) hr

/-! ## The second pass -/

/-- The result is read as the pieces it was put together from: no part runs together with its surroundings. -/
def Separate (parts : List Part) : Prop := pieces (flatten parts) = parts.flatMap Part.pieces

instance (parts : List Part) : Decidable (Separate parts) := inferInstanceAs (Decidable (_ = _))

/-- Whether an argument list follows, after blanks. -/
def opensCall (after : List Char) : Bool := (readCall? (after.drop (runLength Text.isBlank after))).isSome

/-- Whether a name of a macro with parameters is left before an argument list. -/
def callsLeft (macros : MacroTable) : List Part → Bool
  | [] => false
  | .piece chars :: parts =>
    (isWord chars && macros.isFunctionLike (String.ofList chars) && opensCall (flatten parts)) || callsLeft macros parts
  | .call _ :: parts => callsLeft macros parts

theorem verdict_stays {word after : List Char} (hdepth : 0 < maxDepth)
    (hobject : macros.isObjectLike (String.ofList word) = false)
    (hcall : (macros.isFunctionLike (String.ofList word) && opensCall after) = false) :
    verdict ⟨macros, maxDepth, []⟩ word after = .stays := by
  cases hm : macros.get? (String.ofList word) with
  | none =>
    rw [verdict]
    simp only [hm]
  | some m =>
    cases hparameters : m.parameters with
    | none => simp [MacroTable.isObjectLike, hm, hparameters] at hobject
    | some parameters =>
      have hread : readCall? (after.drop (runLength Text.isBlank after)) = none := by
        simpa [MacroTable.isFunctionLike, hm, hparameters, opensCall] using hcall
      rw [verdict_of_parameters hdepth hm hparameters, callVerdict]
      simp only [hread]

/-- A pass over parts at rest changes nothing if they are separate and no call is left. -/
theorem text_expandWith_flatten (inner : String → List Char → Expansion) (hdepth : 0 < maxDepth) {parts : List Part}
    (hrest : ∀ p ∈ parts, p.AtRest macros maxDepth) (hseparate : Separate parts)
    (hcalls : callsLeft macros parts = false) :
    (expandWith inner ⟨macros, maxDepth, []⟩ (flatten parts)).text = flatten parts := by
  induction parts with
  | nil => simp [expandWith]
  | cons p parts ih =>
    have hlater : ∀ q ∈ parts, q.AtRest macros maxDepth := fun q hq => hrest q (List.mem_cons_of_mem p hq)
    cases p with
    | call chars =>
      have hseparate' : Separate parts := pieces_of_append hseparate
      have hkept := hrest _ List.mem_cons_self inner (flatten parts)
      rw [flatten_cons, Part.chars, hkept, ih hlater hseparate' hcalls]
    | piece chars =>
      rw [callsLeft, Bool.or_eq_false_iff] at hcalls
      rw [Separate, flatten_cons, Part.chars, List.flatMap_cons, Part.pieces, List.singleton_append] at hseparate
      cases htext : chars ++ flatten parts with
      | nil => simp [htext, pieces] at hseparate
      | cons c rest =>
        -- The piece is the first one of the text, so what follows it is the text of the other parts.
        rw [htext, pieces, List.cons_eq_cons] at hseparate
        obtain ⟨rfl, hpieces⟩ := hseparate
        have hafter : rest.drop (pieceMore c rest) = flatten parts := by
          have hrestText := (List.cons_eq_cons.mp htext).2
          nth_rewrite 3 [← List.take_append_drop (pieceMore c rest) rest] at hrestText
          exact (List.append_cancel_left hrestText).symm
        rw [hafter] at hpieces
        have hih := ih hlater hpieces hcalls.2
        rw [flatten_cons, Part.chars, htext]
        by_cases hc : isWordStart c = true
        · have hword : isWord (c :: rest.take (pieceMore c rest)) = true := by simpa [isWord] using hc
          have hstays := verdict_stays hdepth (hrest _ List.mem_cons_self hword) (by simpa [hword] using hcalls.1)
          have hpass := text_expandWith_word inner ⟨macros, maxDepth, []⟩ rest hc
          simp only [hafter, hstays, Verdict.text, Verdict.consumed, List.drop_zero, hih] at hpass
          rw [hpass, htext]
        · rw [text_expandWith_plain inner _ rest (by simpa using hc), hafter, hih, htext]

/-! ## Expanding the result of an expansion -/

/-- **With an acyclic table and more depth than there are macros, an expansion leaves no macro without parameters, and
its result is final** unless parts of it run together or the name of a macro with parameters is left before an argument
list. -/
theorem expand_settles (macros : MacroTable) (maxDepth : Nat) (text : String) (acyclic : macros.Acyclic)
    (hdepth : macros.toList.length < maxDepth) :
    let result := (expand macros maxDepth text).1
    let parts := expandParts macros maxDepth text
    result.toList = flatten parts ∧
      (∀ word, .piece word ∈ parts → isWord word = true → macros.isObjectLike (String.ofList word) = false) ∧
      (Separate parts → callsLeft macros parts = false → (expand macros maxDepth result).1 = result) := by
  intro result parts
  have hresult : result = String.ofList (flatten parts) :=
    congrArg String.ofList (flatten_partsLevels macros maxDepth maxDepth [] text.toList).symm
  have hrest : ∀ p ∈ parts, p.AtRest macros maxDepth :=
    atRest_partsLevels acyclic hdepth maxDepth (by simp) (Underway.start macros text.toList)
  refine ⟨by simp [hresult], fun word hword => hrest _ hword, fun hseparate hcalls => ?_⟩
  obtain ⟨levels, rfl⟩ : ∃ levels, maxDepth = levels + 1 := ⟨maxDepth - 1, by omega⟩
  have hpass := text_expandWith_flatten
    (fun name r => expandLevels macros (levels + 1) levels ([] ++ [name]) r) (by omega) hrest hseparate hcalls
  rw [hresult]
  simp only [expand, String.toList_ofList, expandLevels]
  rw [hpass]

/-- The table of some macros. -/
def tableOf (macros : List Macro) : MacroTable := macros.foldl (fun t m => (t.define m).2) {}

/-- Macros with and without parameters that use each other. -/
def sizes : MacroTable :=
  tableOf [{ name := "N", body := "4" }, { name := "SIZE", body := "(N * N)" },
    { name := "ADD", parameters := some ["a", "b"], body := "a + b" },
    { name := "MAX", parameters := some ["a", "b"], body := "max(a, ADD(b, N))" }]

/-- A call over two lines, calls in its arguments and in bodies, and a call with too few arguments. -/
def sizesText : String := "x = MAX(f(1, 2),\n  SIZE) + ADD(N); // N"

theorem acyclic_sizes : sizes.Acyclic :=
  MacroTable.acyclic_of_rank
    (fun name => if name = "MAX" ∨ name = "SIZE" then 2 else if name = "ADD" ∨ name = "N" then 1 else 0)
    (by decide +kernel)

/-- Calls in arguments and over two lines are expanded for good, beside a call with too few arguments. -/
theorem expand_settles_sizes :
    sizes.Acyclic ∧ sizes.toList.length < 16 ∧ Separate (expandParts sizes 16 sizesText) ∧
      callsLeft sizes (expandParts sizes 16 sizesText) = false ∧
      (expand sizes 16 sizesText).1 = "x = max(f(1, 2), (4 * 4) + 4)\n + ADD(N); // N" ∧
      (expand sizes 16 (expand sizes 16 sizesText).1).1 = (expand sizes 16 sizesText).1 := by
  have hseparate : Separate (expandParts sizes 16 sizesText) := by decide +kernel
  have hcalls : callsLeft sizes (expandParts sizes 16 sizesText) = false := by decide +kernel
  refine ⟨acyclic_sizes, by decide +kernel, hseparate, hcalls, by decide +kernel, ?_⟩
  exact (expand_settles sizes 16 sizesText acyclic_sizes (by decide +kernel)).2.2 hseparate hcalls

/-! ## Results that are not final -/

/-- A macro that adds one to its argument. -/
def successor : MacroTable := tableOf [{ name := "F", parameters := some ["x"], body := "x+1" }]

/-- A macro that gives its argument, and another name for it. -/
def renamed : MacroTable :=
  tableOf [{ name := "F", parameters := some ["x"], body := "x" }, { name := "G", body := "F" }]

/-- A macro that gives its argument, and a macro whose name can be put together from two pieces. -/
def glued : MacroTable :=
  tableOf [{ name := "AB", body := "1" }, { name := "F", parameters := some ["x"], body := "x" }]

/-- **Expanding a result again can change it.** A call in an argument of the same macro is left by the first pass, a name
left by a replacement can stand before an argument list, and a replacement can run together with the word after it. -/
theorem expand_not_settled :
    (successor.Acyclic ∧ successor.toList.length < 16 ∧
      (expand successor 16 "F(F(1))").1 = "F(1)+1" ∧ (expand successor 16 "F(1)+1").1 = "1+1+1") ∧
    (renamed.Acyclic ∧ renamed.toList.length < 16 ∧
      (expand renamed 16 "G(1)").1 = "F(1)" ∧ (expand renamed 16 "F(1)").1 = "1") ∧
    (glued.Acyclic ∧ glued.toList.length < 16 ∧
      (expand glued 16 "F(A)B").1 = "AB" ∧ (expand glued 16 "AB").1 = "1") := by
  have hsuccessor : successor.Acyclic :=
    MacroTable.acyclic_of_rank (fun name => if name = "F" then 1 else 0) (by decide +kernel)
  have hrenamed : renamed.Acyclic :=
    MacroTable.acyclic_of_rank (fun name => if name = "G" then 2 else if name = "F" then 1 else 0) (by decide +kernel)
  have hglued : glued.Acyclic :=
    MacroTable.acyclic_of_rank (fun name => if name = "AB" ∨ name = "F" then 1 else 0) (by decide +kernel)
  refine ⟨⟨hsuccessor, ?_, ?_, ?_⟩, ⟨hrenamed, ?_, ?_, ?_⟩, ⟨hglued, ?_, ?_, ?_⟩⟩ <;> decide +kernel

end Macro

end ShaderFront
