import Mathlib
import ShaderFront.Proofs.Alignment
import ShaderFront.Proofs.Coverage

/-!
# The comments of a scan

Two readers look for comments. A text is scanned from its start, where the scan jumps over each comment that it comes upon
(`Directive.passages`). The lines of a source are searched one after the other for what opens or closes a comment, and a flag is carried
over (`Directive.searchedOpen`, which is `Directive.endsInComment`).

Main statement: `Directive.comments_agree`, the flag at the end of a line says whether a block comment of the scan goes on there.
-/

namespace ShaderFront

namespace Text

/-- What follows a pattern is shorter than the text. -/
theorem length_of_splitOnce? {pattern : List Char} : ∀ {cs before after : List Char}, splitOnce? pattern cs = some (before, after) →
    after.length + pattern.length ≤ cs.length
  | [], _, _, h => by
    rw [splitOnce?] at h
    split at h
    · rename_i hempty
      cases h
      simp [List.isEmpty_iff.mp hempty]
    · cases h
  | c :: rest, before, after, h => by
    rw [splitOnce?] at h
    split at h
    · rename_i hfront
      cases h
      have hle := (List.isPrefixOf_iff_prefix.mp hfront).length_le
      rw [List.length_drop]
      omega
    · obtain ⟨found, hfound, heq⟩ := Option.map_eq_some_iff.mp h
      cases heq
      have hle := length_of_splitOnce? hfound
      rw [List.length_cons]
      omega

/-- A pattern that a text does not begin with occurs one character later than in the rest. -/
theorem splitOnce?_cons {pattern : List Char} {c : Char} {rest : List Char} (h : pattern.isPrefixOf (c :: rest) = false) :
    splitOnce? pattern (c :: rest) = (splitOnce? pattern rest).map fun (before, after) => (c :: before, after) := by
  rw [splitOnce?, if_neg (by simp [h])]

end Text

namespace Directive

open Text (IsWhole EndsLine splitOnce?)

/-! ## Searching a line -/

/-- Whether a block comment is open at the end of a line, given whether one is open at its start: inside of a comment the nearest `*/`
closes it, and outside the nearer of `/*` and `//` opens one. -/
def searchedOpen (inside : Bool) (line : List Char) : Bool :=
  if inside then
    match _h : splitOnce? ['*', '/'] line with
    | some (_, rest) => searchedOpen false rest
    | none => true
  else
    match _h : splitOnce? ['/', '*'] line, splitOnce? ['/', '/'] line with
    | some (before, rest), some (before', _) => if before'.length < before.length then false else searchedOpen true rest
    | some (_, rest), none => searchedOpen true rest
    | none, _ => false
termination_by line.length
decreasing_by
  all_goals
    have hle := Text.length_of_splitOnce? _h
    simp only [List.length_cons, List.length_nil] at hle
    omega

/-- A text begins with two characters if and only if they are its first two. -/
theorem isPrefixOf_pair_eq_false {a b c : Char} {rest : List Char} (h : ∀ more, c = a → rest = b :: more → False) :
    [a, b].isPrefixOf (c :: rest) = false := by
  rw [Bool.eq_false_iff]
  intro hfront
  obtain ⟨more, hmore⟩ := List.isPrefixOf_iff_prefix.mp hfront
  obtain ⟨rfl, rfl⟩ := List.cons_eq_cons.mp hmore
  exact h more rfl rfl

theorem searchedOpen_close (rest : List Char) : searchedOpen true ('*' :: '/' :: rest) = searchedOpen false rest := by
  rw [searchedOpen]
  simp [splitOnce?, List.isPrefixOf]

theorem searchedOpen_inside {c : Char} {rest : List Char} (h : ['*', '/'].isPrefixOf (c :: rest) = false) :
    searchedOpen true (c :: rest) = searchedOpen true rest := by
  rw [searchedOpen, searchedOpen, if_pos rfl, if_pos rfl, Text.splitOnce?_cons h]
  cases splitOnce? ['*', '/'] rest <;> rfl

/-- A `/*` at the front is nearer than every `//`. -/
theorem searchedOpen_open (rest : List Char) : searchedOpen false ('/' :: '*' :: rest) = searchedOpen true rest := by
  have hblock : splitOnce? ['/', '*'] ('/' :: '*' :: rest) = some ([], rest) := by simp [splitOnce?, List.isPrefixOf]
  rw [searchedOpen, if_neg Bool.false_ne_true, hblock]
  cases splitOnce? ['/', '/'] ('/' :: '*' :: rest) with
  | none => rfl
  | some found => exact if_neg (Nat.not_lt_zero _)

/-- A `//` at the front is nearer than every `/*`. -/
theorem searchedOpen_line (rest : List Char) : searchedOpen false ('/' :: '/' :: rest) = false := by
  have hline : splitOnce? ['/', '/'] ('/' :: '/' :: rest) = some ([], rest) := by simp [splitOnce?, List.isPrefixOf]
  have hblock : splitOnce? ['/', '*'] ('/' :: '/' :: rest) =
      (splitOnce? ['/', '*'] ('/' :: rest)).map fun (before, after) => ('/' :: before, after) :=
    Text.splitOnce?_cons (by simp [List.isPrefixOf])
  rw [searchedOpen, if_neg Bool.false_ne_true, hline, hblock]
  cases splitOnce? ['/', '*'] ('/' :: rest) with
  | none => rfl
  | some found => exact if_pos (Nat.succ_pos _)

theorem searchedOpen_outside {c : Char} {rest : List Char} (hblock : ['/', '*'].isPrefixOf (c :: rest) = false)
    (hline : ['/', '/'].isPrefixOf (c :: rest) = false) : searchedOpen false (c :: rest) = searchedOpen false rest := by
  rw [searchedOpen, searchedOpen, if_neg Bool.false_ne_true, if_neg Bool.false_ne_true, Text.splitOnce?_cons hblock,
    Text.splitOnce?_cons hline]
  cases splitOnce? ['/', '*'] rest with
  | none => rfl
  | some found =>
    cases splitOnce? ['/', '/'] rest with
    | none => rfl
    | some found' => simp

/-- **The nearest mark decides**: a line that is searched for marks ends inside of a comment if it does so character by character. -/
theorem endsInComment_eq_searchedOpen (inside : Bool) (line : List Char) : endsInComment inside line = searchedOpen inside line := by
  fun_induction endsInComment inside line with
  | case1 inside => cases inside <;> rw [searchedOpen] <;> rfl
  | case2 rest ih => rw [searchedOpen_close, ih]
  | case3 c rest hclose ih => rw [searchedOpen_inside (isPrefixOf_pair_eq_false hclose), ih]
  | case4 rest ih => rw [searchedOpen_open, ih]
  | case5 rest => rw [searchedOpen_line]
  | case6 c rest hopen hline ih =>
    rw [searchedOpen_outside (isPrefixOf_pair_eq_false hopen) (isPrefixOf_pair_eq_false hline), ih]

/-! ## Scanning a text -/

/-- A comment that a scan comes upon, between two positions. -/
structure Passage where
  start : Nat
  stop : Nat
  isBlock : Bool
  /-- Whether there is a `*/` to close it. -/
  closed : Bool
deriving DecidableEq, Repr

/-- The comments of a text that begins at a position. A scan jumps over each comment that it comes upon, and goes on by one character
elsewhere. -/
def passages (pos : Nat) : List Char → List Passage
  | [] => []
  | c :: rest =>
    match commentLength? (c :: rest) with
    | some n => ⟨pos, pos + n, isBlockComment (c :: rest), hasClose (rest.drop 1)⟩ :: passages (pos + n) (rest.drop (n - 1))
    | none => passages (pos + 1) rest
termination_by cs => cs.length
decreasing_by all_goals (simp only [List.length_cons, List.length_drop]; omega)

/-- Whether a position lies inside of a block comment. A comment without an end goes on at the end of the text. -/
def Passage.Holds (p : Passage) (at_ : Nat) : Prop := p.isBlock = true ∧ p.start < at_ ∧ (at_ < p.stop ∨ p.closed = false)

instance (p : Passage) (at_ : Nat) : Decidable (p.Holds at_) := inferInstanceAs (Decidable (_ ∧ _))

/-- The comments of a text begin where it begins or later. -/
theorem le_start_of_mem_passages (pos : Nat) (text : List Char) : ∀ p ∈ passages pos text, pos ≤ p.start := by
  fun_induction passages pos text with
  | case1 => exact List.forall_mem_nil _
  | case2 pos c rest n _ ih =>
    exact List.forall_mem_cons.mpr ⟨le_rfl, fun p hp => (Nat.le_add_right _ _).trans (ih p hp)⟩
  | case3 pos c rest _ ih => exact fun p hp => (Nat.le_succ _).trans (ih p hp)

/-- The comments of a text are not empty, and end where it ends or before. -/
theorem stop_le_of_mem_passages (pos : Nat) (text : List Char) :
    ∀ p ∈ passages pos text, p.start < p.stop ∧ p.stop ≤ pos + text.length := by
  fun_induction passages pos text with
  | case1 => exact List.forall_mem_nil _
  | case2 pos c rest n hn ih =>
    have hpos := Macro.two_le_commentLength hn
    have hle := Macro.commentLength?_le hn
    rw [List.length_cons] at hle ⊢
    refine List.forall_mem_cons.mpr ⟨⟨Nat.lt_add_of_pos_right (by omega), Nat.add_le_add_left hle pos⟩, fun p hp => ?_⟩
    obtain ⟨hstart, hstop⟩ := ih p hp
    rw [List.length_drop] at hstop
    exact ⟨hstart, by omega⟩
  | case3 pos c rest _ ih =>
    intro p hp
    obtain ⟨hstart, hstop⟩ := ih p hp
    rw [List.length_cons]
    exact ⟨hstart, by omega⟩

/-- No comment holds the position where the text begins. -/
theorem not_holds_start (pos : Nat) (text : List Char) : ¬∃ p ∈ passages pos text, p.Holds pos := by
  rintro ⟨p, hp, -, hlt, -⟩
  exact absurd (le_start_of_mem_passages pos text p hp) (Nat.not_le_of_lt hlt)

/-- A block comment that nothing closes goes on to the end of the text. -/
theorem stop_of_not_closed (pos : Nat) (text : List Char) :
    ∀ p ∈ passages pos text, p.isBlock = true → p.closed = false → p.stop = pos + text.length := by
  fun_induction passages pos text with
  | case1 => exact List.forall_mem_nil _
  | case2 pos c rest n hn ih =>
    refine List.forall_mem_cons.mpr ⟨fun hblock hopen => ?_, fun p hp hblock hopen => ?_⟩
    · unfold isBlockComment at hblock
      split at hblock
      · rename_i more hcs
        obtain ⟨rfl, rfl⟩ := List.cons_eq_cons.mp hcs
        replace hopen : hasClose more = false := hopen
        rw [commentLength?, closeLength_of_hasClose hopen] at hn
        exact congrArg (pos + ·) (Option.some.inj hn).symm
      · cases hblock
    · have hle := Macro.commentLength?_le hn
      have hpos := Macro.two_le_commentLength hn
      rw [ih p hp hblock hopen, List.length_drop]
      rw [List.length_cons] at hle ⊢
      omega
  | case3 pos c rest _ ih =>
    intro p hp hblock hopen
    rw [ih p hp hblock hopen, List.length_cons, Nat.add_assoc, Nat.add_comm 1]

/-- The block comments that hold the end of a text are those that nothing closes. -/
theorem holds_end_iff {pos : Nat} {text : List Char} {p : Passage} (hp : p ∈ passages pos text) :
    p.Holds (pos + text.length) ↔ p.isBlock = true ∧ p.closed = false ∧ p.stop = pos + text.length := by
  obtain ⟨hstart, hstop⟩ := stop_le_of_mem_passages pos text p hp
  refine and_congr_right fun hblock => ⟨fun h => ?_, fun h => ⟨hstart.trans_le hstop, .inr h.1⟩⟩
  have hopen := h.2.resolve_left (Nat.not_lt_of_le hstop)
  exact ⟨hopen, stop_of_not_closed pos text p hp hblock hopen⟩

/-! ### The state of a scan inside of comments -/

theorem commentOpen_plain {c : Char} {rest : List Char} (h : commentLength? (c :: rest) = none) :
    commentOpen false (c :: rest) = commentOpen false rest := by
  rw [commentOpen]
  · rintro more rfl rfl
    cases h
  · rintro more rfl rfl
    cases h

/-- A comment that nothing closes stays open. -/
theorem commentOpen_of_hasClose {text : List Char} (h : hasClose text = false) : commentOpen true text = true := by
  induction text with
  | nil => rw [commentOpen]
  | cons c text ih =>
    rw [hasClose_cons, Bool.or_eq_false_iff] at h
    rw [commentOpen, ih h.2]
    rintro more rfl rfl
    exact of_decide_eq_false h.1 ⟨rfl, rfl⟩

/-- A comment is closed by the first `*/`. -/
theorem commentOpen_close {front : List Char} (h : hasClose (front ++ ['*']) = false) (rest : List Char) :
    commentOpen true (front ++ '*' :: '/' :: rest) = commentOpen false rest := by
  induction front with
  | nil => rw [List.nil_append, commentOpen]
  | cons c front ih =>
    rw [List.cons_append, hasClose_cons, Bool.or_eq_false_iff] at h
    rw [List.cons_append, commentOpen, ih h.2]
    rintro more rfl hmore
    refine of_decide_eq_false h.1 ⟨rfl, ?_⟩
    cases front with
    | nil => cases hmore
    | cons d front =>
      obtain ⟨rfl, -⟩ := List.cons_eq_cons.mp hmore
      rfl

/-- The front of a text without a `*/` has none. -/
theorem hasClose_front {front text : List Char} (hfront : front <+: text) (h : hasClose text = false) :
    hasClose front = false := by
  obtain ⟨back, rfl⟩ := hfront
  induction front with
  | nil => rfl
  | cons c front ih =>
    rw [List.cons_append, hasClose_cons, Bool.or_eq_false_iff] at h
    rw [hasClose_cons, ih h.2, Bool.or_false]
    refine decide_eq_false fun hstar => of_decide_eq_false h.1 ⟨hstar.1, ?_⟩
    obtain ⟨more, rfl⟩ := List.head?_eq_some_iff.mp hstar.2
    rfl

theorem hasClose_of_close (front rest : List Char) : hasClose (front ++ '*' :: '/' :: rest) = true := by
  induction front with
  | nil => rfl
  | cons c front ih => rw [List.cons_append, hasClose_cons, ih, Bool.or_true]

/-! ### One step of a scan -/

theorem passages_comment (pos : Nat) {comment rest : List Char} (h : Shader.Comment comment rest) :
    passages pos (comment ++ rest) =
      ⟨pos, pos + comment.length, isBlockComment (comment ++ rest), hasClose ((comment ++ rest).drop 2)⟩ ::
        passages (pos + comment.length) rest := by
  have hlength := h.commentLength?
  obtain ⟨c, more, rfl⟩ : ∃ c more, comment = c :: more := by
    cases h with
    | line => exact ⟨_, _, rfl⟩
    | block => exact ⟨_, _, rfl⟩
    | unclosed => exact ⟨_, _, rfl⟩
  rw [List.cons_append] at hlength ⊢
  rw [passages, hlength]
  simp

/-- The state at the end of the front of a text says whether a block comment of the scan goes on there. -/
def Flags (pos : Nat) (front back : List Char) : Prop :=
  commentOpen false front = true ↔ ∃ p ∈ passages pos (front ++ back), p.Holds (pos + front.length)

variable {pos : Nat} {front back body : List Char}

theorem flags_nil (pos : Nat) (back : List Char) : Flags pos [] back := by
  rw [Flags, commentOpen]
  exact iff_of_false Bool.false_ne_true (not_holds_start pos back)

theorem flags_plain {c : Char} (h : commentLength? (c :: (front ++ back)) = none) (ih : Flags (pos + 1) front back) :
    Flags pos (c :: front) back := by
  rw [Flags, commentOpen_plain (Macro.commentLength?_front h), List.cons_append, passages, h, List.length_cons, Nat.add_comm front.length,
    ← Nat.add_assoc]
  exact ih

/-- A scan jumps over a comment that ends in the front. -/
theorem flags_comment {comment : List Char} (h : Shader.Comment comment (front ++ back))
    (hopen : commentOpen false (comment ++ front) = commentOpen false front)
    (hended : isBlockComment (comment ++ (front ++ back)) = true → hasClose ((comment ++ (front ++ back)).drop 2) = true)
    (ih : Flags (pos + comment.length) front back) : Flags pos (comment ++ front) back := by
  rw [Flags] at ih
  rw [Flags, hopen, List.append_assoc, passages_comment pos h, List.length_append, ← Nat.add_assoc, ih, List.exists_mem_cons_iff]
  refine (or_iff_right ?_).symm
  rintro ⟨hblock, -, hlt | hopen⟩
  · exact absurd hlt (Nat.not_lt_of_le (Nat.le_add_right _ _))
  · exact absurd (hended hblock) (Bool.eq_false_iff.mp hopen)

/-- A line comment that ends in the front. -/
theorem flags_line (hbody : '\n' ∉ body) (hhead : ∀ c ∈ (front ++ back).head?, c = '\n')
    (ih : Flags (pos + ('/' :: '/' :: body).length) front back) : Flags pos ('/' :: '/' :: body ++ front) back := by
  refine flags_comment (.line hbody hhead) ?_ (fun h => by cases h) ih
  have hall : ∀ c ∈ body, decide (c ≠ '\n') = true := fun c hc => decide_eq_true fun heq => hbody (heq ▸ hc)
  rw [List.cons_append, List.cons_append, commentOpen, List.dropWhile_append_of_pos hall]
  cases front with
  | nil => rfl
  | cons c front => rw [List.dropWhile_cons_of_neg (by simpa using hhead c rfl)]

/-- A block comment that is closed in the front. -/
theorem flags_closed (hbody : hasClose (body ++ ['*']) = false)
    (ih : Flags (pos + ('/' :: '*' :: (body ++ ['*', '/'])).length) front back) :
    Flags pos ('/' :: '*' :: (body ++ ['*', '/']) ++ front) back := by
  have happend : ∀ rest : List Char, '/' :: '*' :: (body ++ ['*', '/']) ++ rest = '/' :: '*' :: (body ++ '*' :: '/' :: rest) := by simp
  refine flags_comment (.block hbody) ?_ (fun _ => ?_) ih
  · rw [happend, commentOpen, commentOpen_close hbody]
  · rw [happend]
    exact hasClose_of_close body (front ++ back)

/-- A block comment that is open at the end of the front. -/
theorem flags_inside (hfront : hasClose front = false)
    (h : hasClose (front ++ back) = false ∨ front.length < closeLength (front ++ back)) : Flags pos ('/' :: '*' :: front) back := by
  have hopen : commentOpen false ('/' :: '*' :: front) = true := by
    rw [commentOpen]
    exact commentOpen_of_hasClose hfront
  rw [Flags, hopen, List.cons_append, List.cons_append, passages, commentLength?]
  refine iff_of_true rfl ⟨_, List.mem_cons_self, rfl, ?_, h.symm.imp (fun hlt => ?_) id⟩
  · exact Nat.lt_add_of_pos_right (Nat.succ_pos _)
  · simp only [List.length_cons]
    omega

theorem endsLine_of_append (first : List Char) {last : List Char} (h : EndsLine (first ++ last)) : EndsLine last := by
  refine (eq_or_ne last []).imp id fun hne => ?_
  rcases h with h | h
  · exact absurd (List.append_eq_nil_iff.mp h).2 hne
  · rwa [List.getLast?_append_of_ne_nil _ hne] at h

/-- What a front that ends with a line break has of a block comment. -/
theorem eq_open_cons {more : List Char} (hne : front ≠ []) (hends : EndsLine front) (h : front ++ more = '/' :: '*' :: body) :
    ∃ front', front = '/' :: '*' :: front' ∧ front' ++ more = body := by
  have hlast := hends.resolve_left hne
  match front with
  | [] => exact absurd rfl hne
  | [c] =>
    obtain ⟨rfl, -⟩ := List.cons_eq_cons.mp h
    exact absurd hlast (by decide)
  | c :: d :: front' =>
    obtain ⟨hc, hrest⟩ := List.cons_eq_cons.mp h
    obtain ⟨hd, hrest⟩ := List.cons_eq_cons.mp hrest
    exact ⟨front', by rw [hc, hd], hrest⟩

/-- A comment that goes on after the front. Only a block comment has a line break. -/
theorem flags_cut {comment more after : List Char} (h : Shader.Comment comment after) (hcut : front ++ more = comment) (hmore : more ≠ [])
    (hne : front ≠ []) (hends : EndsLine front) : Flags pos front (more ++ after) := by
  cases h with
  | @line body _ hbody _ =>
    have hmem : '\n' ∈ '/' :: '/' :: body := hcut ▸ List.mem_append_left more (List.mem_of_getLast? (hends.resolve_left hne))
    exact absurd hmem (by simpa using hbody)
  | @block body _ hbody =>
    obtain ⟨front', rfl, hbody'⟩ := eq_open_cons hne hends hcut
    have hlt : front'.length < body.length + 2 := by
      have hlength := congrArg List.length hbody'
      have hpos := List.length_pos_iff.mpr hmore
      simp only [List.length_append, List.length_cons, List.length_nil] at hlength
      omega
    have hprefix : front' <+: body ++ ['*'] := by
      have hclosed : body ++ ['*'] <+: body ++ ['*', '/'] := ⟨['/'], by simp⟩
      refine List.prefix_of_prefix_length_le ⟨more, hbody'⟩ hclosed ?_
      simpa using Nat.le_of_lt_succ hlt
    refine flags_inside (hasClose_front hprefix hbody) (.inr ?_)
    rw [← List.append_assoc, hbody', List.append_assoc]
    exact hlt.trans_eq (closeLength_front hbody after).symm
  | @unclosed body hbody =>
    obtain ⟨front', rfl, rfl⟩ := eq_open_cons hne hends hcut
    rw [List.append_nil]
    exact flags_inside (hasClose_front (List.prefix_append _ _) hbody) (.inl hbody)

/-- A comment at the front of a text ends in a part of the text or goes on after it. -/
theorem ends_or_goesOn {comment rest : List Char} (h : comment ++ rest = front ++ back) :
    (∃ front', front = comment ++ front' ∧ rest = front' ++ back) ∨
      ∃ more, more ≠ [] ∧ front ++ more = comment ∧ back = more ++ rest := by
  rcases List.append_eq_append_iff.mp h with h | ⟨more, hcomment, hback⟩
  · exact .inl h
  · rcases eq_or_ne more [] with rfl | hmore
    · exact .inl ⟨[], by simpa using hcomment.symm, by simpa using hback.symm⟩
    · exact .inr ⟨more, hmore, hcomment.symm, hback⟩

/-- **The front of a text ends inside of a block comment of the scan if and only if the state says so**, for a front that ends with a
line break and for the whole text. -/
theorem flags (pos : Nat) (front back : List Char) (h : EndsLine front ∨ back = []) : Flags pos front back := by
  -- the scan goes on after a character, or after a comment that ends in the front
  induction hsize : front.length using Nat.strong_induction_on generalizing pos front with
  | _ size ih =>
  subst hsize
  rcases eq_or_ne front [] with rfl | hne
  · exact flags_nil pos back
  cases hlength : commentLength? (front ++ back) with
  | none =>
    obtain ⟨c, front, rfl⟩ := List.exists_cons_of_ne_nil hne
    exact flags_plain hlength (ih _ (Nat.lt_succ_self _) _ front (h.imp_left (endsLine_of_append [c])) rfl)
  | some n =>
    have hcomment := Shader.comment_of_commentLength? hlength
    have hsplit := List.take_append_drop n (front ++ back)
    generalize (front ++ back).take n = comment at hcomment hsplit
    generalize (front ++ back).drop n = rest at hcomment hsplit
    rcases ends_or_goesOn hsplit with ⟨front', rfl, rfl⟩ | ⟨more, hmore, hcut, rfl⟩
    · have hrest (hpos : 0 < comment.length) : Flags (pos + comment.length) front' back := by
        refine ih _ ?_ _ front' (h.imp_left (endsLine_of_append comment)) rfl
        rw [List.length_append]
        exact Nat.lt_add_of_pos_left hpos
      generalize hafter : front' ++ back = after at hcomment
      cases hcomment with
      | line hbody hhead => exact flags_line hbody (hafter ▸ hhead) (hrest (Nat.succ_pos _))
      | block hbody => exact flags_closed hbody (hrest (Nat.succ_pos _))
      | unclosed hbody =>
        obtain ⟨rfl, rfl⟩ := List.append_eq_nil_iff.mp hafter
        rw [List.append_nil]
        exact flags_inside hbody (.inl (by rwa [List.append_nil]))
    · exact flags_cut hcomment hcut hmore hne (h.resolve_right (by simp [hmore]))

/-! ## Lines -/

/-- The state at the end of a text is that of its lines one after the other. The last line may have no line break. -/
theorem foldl_endsInComment {lines : List (List Char)} (hwhole : ∀ line ∈ lines.dropLast, IsWhole line)
    (hlast : ∀ line ∈ lines.getLast?, IsWhole line ∨ '\n' ∉ line) :
    lines.foldl endsInComment false = commentOpen false lines.flatten := by
  rcases lines.eq_nil_or_concat with rfl | ⟨front, line, rfl⟩
  · simp [commentOpen]
  · rw [List.concat_eq_append] at *
    rw [List.dropLast_concat] at hwhole
    have hcloses : Closes line [] := by
      rcases hlast line (by simp) with h | h
      · exact .inr (.inl h)
      · exact .inr (.inr ⟨h, rfl⟩)
    have hend : commentOpen (front.foldl endsInComment false) (line ++ []) = _ := commentOpen_append hcloses
    rw [List.append_nil, commentOpen] at hend
    rw [List.flatten_append, List.flatten_singleton, commentOpen_flatten hwhole, hend, List.foldl_concat]

/-- **Two readers find the same comments.** A line is searched for the nearest marks, and whether a block comment is open is handed from
line to line. It is open at the end of the text if and only if the scan of the whole text ends in a block comment that nothing closes,
and between two lines if and only if a block comment of the scan goes on there. -/
theorem comments_agree {lines : List (List Char)} (hwhole : ∀ line ∈ lines.dropLast, IsWhole line)
    (hlast : ∀ line ∈ lines.getLast?, IsWhole line ∨ '\n' ∉ line) :
    (∀ inside line, endsInComment inside line = searchedOpen inside line) ∧
    (lines.foldl endsInComment false = true ↔
      ∃ p ∈ passages 0 lines.flatten, p.isBlock = true ∧ p.closed = false ∧ p.stop = lines.flatten.length) ∧
    ∀ front back, lines = front ++ back → back ≠ [] →
      (front.foldl endsInComment false = true ↔ ∃ p ∈ passages 0 lines.flatten, p.Holds front.flatten.length) := by
  refine ⟨endsInComment_eq_searchedOpen, ?_, fun front back hsplit hback => ?_⟩
  · have hflags := flags 0 lines.flatten [] (.inr rfl)
    rw [Flags, List.append_nil] at hflags
    rw [foldl_endsInComment hwhole hlast, hflags]
    refine exists_congr fun p => and_congr_right fun hp => ?_
    rw [holds_end_iff hp, Nat.zero_add]
  · have hfront : ∀ line ∈ front, IsWhole line := by
      intro line hline
      refine hwhole line ?_
      rw [hsplit, List.dropLast_append_of_ne_nil hback]
      exact List.mem_append_left _ hline
    have hflags := flags 0 front.flatten back.flatten (.inl (Text.endsLine_flatten hfront))
    have hfold := commentOpen_flatten hfront false []
    rw [List.append_nil, commentOpen] at hfold
    rw [Flags, Nat.zero_add] at hflags
    rw [hsplit, List.flatten_append, ← hfold, hflags]

/-- The marks of three lines overlap. The comment of the first line is closed in the third line, where another begins. -/
theorem comments_agree_overlapping : ∃ p ∈ passages 0 "/*/\n//*\n*//*".toList,
    p.isBlock = true ∧ p.closed = false ∧ p.stop = "/*/\n//*\n*//*".toList.length := by
  have hwhole : ∀ line ∈ ["/*/\n".toList, "//*\n".toList, "*//*".toList].dropLast, IsWhole line := by
    intro line hline
    rcases List.mem_pair.mp hline with rfl | rfl
    · exact ⟨"/*/".toList, rfl, by decide⟩
    · exact ⟨"//*".toList, rfl, by decide⟩
  have hlast : ∀ line ∈ ["/*/\n".toList, "//*\n".toList, "*//*".toList].getLast?, IsWhole line ∨ '\n' ∉ line := by
    rintro line ⟨⟩
    exact .inr (by decide)
  exact (comments_agree hwhole hlast).2.1.mp (by simp [endsInComment])

end Directive

end ShaderFront
