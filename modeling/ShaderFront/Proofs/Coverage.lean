import Mathlib
import ShaderFront.Proofs.Atoms
import ShaderFront.Proofs.Characters
import ShaderFront.Proofs.Partition

/-!
# Tokens and gaps cover a shader

No character of a shader is lost. Between the tokens there are only blanks and complete comments (`Shader.Gap`), so that tokens and
gaps together are the source (`Shader.Threaded`). The comments that hold annotations are tokens: comments are found here by a walk
that looks at one character after the other and passes over each comment it meets (`Shader.Comments`), and the lexer, which cuts
off words, numerals and marks on its way, meets the same comments, since a comment begins at no character inside of these
(`Shader.cut_plain`).
-/

namespace ShaderFront.Shader

open Directive (hasClose)

/-! ## Comments -/

/-- **A complete comment** and what follows it: it reaches to the end of the line, or through the first `*/`, or to the end of the
text if there is none. -/
inductive Comment : List Char → List Char → Prop
  | line {body rest : List Char} : '\n' ∉ body → (∀ c ∈ rest.head?, c = '\n') → Comment ('/' :: '/' :: body) rest
  | block {body rest : List Char} : hasClose (body ++ ['*']) = false → Comment ('/' :: '*' :: (body ++ ['*', '/'])) rest
  | unclosed {body : List Char} : hasClose body = false → Comment ('/' :: '*' :: body) []

/-- Whether a comment begins at the front of a text. -/
def OpensComment (cs : List Char) : Prop := ['/', '/'] <+: cs ∨ ['/', '*'] <+: cs

/-- The comments of a text that begins at a byte offset, with their spans: the walk goes on after the end of a comment, and
wherever none begins it goes on with the next character. -/
inductive Comments : Nat → List Char → List (Span × List Char) → Prop
  | nil {pos : Nat} : Comments pos [] []
  | skip {pos : Nat} {c : Char} {rest : List Char} {found : List (Span × List Char)} : ¬OpensComment (c :: rest) →
      Comments (pos + c.utf8Size) rest found → Comments pos (c :: rest) found
  | comment {pos : Nat} {text rest : List Char} {found : List (Span × List Char)} : Comment text rest →
      Comments (pos + byteLength text) rest found →
      Comments pos (text ++ rest) ((⟨pos, pos + byteLength text⟩, text) :: found)

/-- The characters between tokens and what follows them: blanks, and complete comments without annotations. -/
inductive Gap : List Char → List Char → Prop
  | nil {rest : List Char} : Gap [] rest
  | blank {c : Char} {gap rest : List Char} : c ∈ [' ', '\t', '\r', '\n', '\x0c', '\x0b'] → Gap gap rest → Gap (c :: gap) rest
  | comment {text gap rest : List Char} : Comment text (gap ++ rest) → isTagComment text = false → Gap gap rest →
      Gap (text ++ gap) rest

/-- **A text and its tokens**, from a byte offset: gaps and the texts of the tokens take turns, and together they are the text. -/
inductive Threaded : Nat → List Char → List Token → Prop
  | stop {pos : Nat} {gap : List Char} : Gap gap [] → Threaded pos gap []
  | token {pos : Nat} {gap chars rest : List Char} {token : Token} {tokens : List Token} : Gap gap (chars ++ rest) → chars ≠ [] →
      token.text = String.ofList chars →
      token.span = ⟨pos + byteLength gap, pos + byteLength gap + byteLength chars⟩ →
      Threaded (pos + byteLength gap + byteLength chars) rest tokens → Threaded pos (gap ++ (chars ++ rest)) (token :: tokens)

/-- The tokens that hold annotations, with their texts. -/
def tagTokens (tokens : List Token) : List (Span × List Char) :=
  (tokens.filter fun t => t.symbol = TokenKind.leadingTags.id || t.symbol = TokenKind.trailingTags.id).map
    fun t => (t.span, t.text.toList)

/-! ### The length of a comment -/

theorem commentLength?_eq_none_iff (cs : List Char) : commentLength? cs = none ↔ ¬OpensComment cs := by
  unfold commentLength? OpensComment
  split
  · simp
  · simp
  · rename_i hline hblock
    refine iff_of_true rfl ?_
    rintro (⟨rest, rfl⟩ | ⟨rest, rfl⟩)
    · exact hline rest rfl
    · exact hblock rest rfl

/-- The characters at the front of a text up to the length of the comment are a comment. -/
theorem comment_of_commentLength? {cs : List Char} {n : Nat} (h : commentLength? cs = some n) :
    Comment (cs.take n) (cs.drop n) := by
  unfold commentLength? at h
  split at h
  · rename_i rest
    cases h
    refine .line (fun hmem => ?_) fun c hc => ?_
    · simpa using Macro.of_mem_take_runLength hmem
    · rw [List.drop_succ_cons, List.drop_succ_cons] at hc
      simpa using Directive.head?_drop_runLength rest c hc
  · rename_i rest
    cases h
    rcases Directive.closeLength_cases rest with ⟨hclose, hlength⟩ | ⟨front, back, rfl, hclose, hlength⟩
    · rw [hlength, List.take_succ_cons, List.take_succ_cons, List.take_length, List.drop_succ_cons, List.drop_succ_cons,
        List.drop_length]
      exact .unclosed hclose
    · have happend : front ++ '*' :: '/' :: back = (front ++ ['*', '/']) ++ back := by simp
      have hlength' : front.length + 2 = (front ++ ['*', '/']).length := by simp
      rw [hlength, List.take_succ_cons, List.take_succ_cons, List.drop_succ_cons, List.drop_succ_cons, happend, hlength',
        List.take_left, List.drop_left]
      exact .block hclose
  · cases h

theorem Comment.commentLength? {text rest : List Char} (h : Comment text rest) :
    ShaderFront.commentLength? (text ++ rest) = some text.length := by
  cases h with
  | line hbody hrest => exact Macro.commentLength?_line hbody hrest
  | @block body _ hclose =>
    have hlength := Directive.closeLength_front hclose rest
    simp [ShaderFront.commentLength?, hlength]
  | unclosed hclose =>
    simp [ShaderFront.commentLength?, Directive.closeLength_of_hasClose hclose]

theorem Comment.opensComment {text rest : List Char} (h : Comment text rest) : OpensComment (text ++ rest) := by
  by_contra hopens
  rw [← commentLength?_eq_none_iff, h.commentLength?] at hopens
  cases hopens

/-- A text has only one comment at its front. -/
theorem Comment.unique {text rest text' rest' : List Char} (h : Comment text rest) (h' : Comment text' rest')
    (heq : text ++ rest = text' ++ rest') : text = text' ∧ rest = rest' := by
  have hlength : text.length = text'.length :=
    Option.some.inj (h.commentLength?.symm.trans ((congrArg ShaderFront.commentLength? heq).trans h'.commentLength?))
  exact List.append_inj heq hlength

/-- Whether a comment holds annotations is said by its own characters. -/
theorem Comment.isTagComment_append {text rest : List Char} (h : Comment text rest) :
    isTagComment (text ++ rest) = isTagComment text := by
  cases h with
  | @line body _ _ hrest =>
    cases body with
    | nil =>
      cases rest with
      | nil => rfl
      | cons c rest =>
        obtain rfl := hrest c rfl
        rfl
    | cons c body =>
      by_cases hc : c = '$'
      · subst hc
        rfl
      · simp [isTagComment, hc]
  | @block body _ _ =>
    cases body with
    | nil => rfl
    | cons c body =>
      by_cases hc : c = '$'
      · subst hc
        rfl
      · simp [isTagComment, hc]
  | unclosed => rw [List.append_nil]

/-! ## The walk over the comments -/

/-- There is exactly one list of comments. -/
def Determined (pos : Nat) (cs : List Char) (found : List (Span × List Char)) : Prop :=
  ∀ other, Comments pos cs other ↔ other = found

theorem determined_nil (pos : Nat) : Determined pos [] [] := by
  refine fun other => ⟨fun h => ?_, fun h => h ▸ .nil⟩
  generalize hcs : ([] : List Char) = cs at h
  cases h with
  | nil => rfl
  | skip => cases hcs
  | comment hcomment =>
    have hopens := hcomment.opensComment
    rw [← hcs] at hopens
    rcases hopens with ⟨_, h⟩ | ⟨_, h⟩ <;> cases h

variable {pos : Nat} {c : Char} {cs front rest text : List Char} {found : List (Span × List Char)}

theorem Determined.skip (hopens : ¬OpensComment (c :: rest)) (h : Determined (pos + c.utf8Size) rest found) :
    Determined pos (c :: rest) found := by
  refine fun other => ⟨fun hother => ?_, fun heq => .skip hopens ((h other).mpr heq)⟩
  generalize hcs : c :: rest = cs at hother
  cases hother with
  | nil => cases hcs
  | skip _ hrest =>
    obtain ⟨rfl, rfl⟩ := List.cons.inj hcs
    exact (h other).mp hrest
  | comment hcomment => exact absurd (hcs ▸ hcomment.opensComment) hopens

theorem Determined.comment (hcomment : Comment text rest) (h : Determined (pos + byteLength text) rest found) :
    Determined pos (text ++ rest) ((⟨pos, pos + byteLength text⟩, text) :: found) := by
  refine fun other => ⟨fun hother => ?_, fun heq => heq ▸ .comment hcomment ((h found).mpr rfl)⟩
  generalize hcs : text ++ rest = cs at hother
  cases hother with
  | nil =>
    obtain ⟨rfl, rfl⟩ := List.append_eq_nil_iff.mp hcs
    cases hcomment
  | skip hopens => exact absurd (hcs ▸ hcomment.opensComment) hopens
  | comment hother hrest =>
    obtain ⟨rfl, rfl⟩ := hcomment.unique hother hcs
    rw [(h _).mp hrest]

/-- A comment begins at no character but a slash. -/
theorem not_opensComment_of_ne (hc : c ≠ '/') (rest : List Char) : ¬OpensComment (c :: rest) := by
  rintro (⟨_, h⟩ | ⟨_, h⟩) <;> exact hc (List.cons.inj h).1.symm

theorem Determined.slashless (hfront : '/' ∉ front) (h : Determined (pos + byteLength front) rest found) :
    Determined pos (front ++ rest) found := by
  induction front generalizing pos with
  | nil => simpa using h
  | cons c front ih =>
    obtain ⟨hc, hfront⟩ := not_or.mp (List.mem_cons.not.mp hfront)
    exact .skip (not_opensComment_of_ne (Ne.symm hc) _) (ih hfront (by rwa [byteLength_cons, ← Nat.add_assoc] at h))

/-! ## What the lexer cuts off -/

theorem commentSpan?_eq (cs : List Char) : commentSpan? cs = commentLength? cs := by
  unfold commentSpan?
  split
  · rename_i rest
    simp [commentLength?, closeLength]
  · rfl

theorem isGap_iff (c : Char) : isGap c = true ↔ c ∈ [' ', '\t', '\r', '\n', '\x0c', '\x0b'] := by
  simp [isGap, or_assoc]

theorem cut_gap (hc : isGap c = true) (rest : List Char) : cut c rest = ⟨none, runLength isGap rest⟩ := if_pos hc

/-- A comment is cut off as a whole, and it is a token if it holds annotations. -/
theorem cut_comment {n : Nat} (h : commentLength? (c :: rest) = some n) :
    Comment (c :: rest.take (cut c rest).more) (rest.drop (cut c rest).more) ∧
      (cut c rest).kind = if isTagComment (c :: rest.take (cut c rest).more) then some .leadingTags else none := by
  have hc := eq_slash_of_commentLength? h
  have hcut : cut c rest = ⟨if isTagComment (c :: rest) then some .leadingTags else none, n - 1⟩ := by
    subst hc
    rw [cut, if_neg (by decide), commentSpan?_eq, h]
  have hmore : n = (n - 1) + 1 := by
    have := Macro.two_le_commentLength h
    omega
  have hcomment := comment_of_commentLength? h
  rw [hmore, List.take_succ_cons, List.drop_succ_cons] at hcomment
  rw [hcut]
  refine ⟨hcomment, ?_⟩
  rw [← hcomment.isTagComment_append, List.cons_append, List.take_append_drop]

/-- Whether a token of a kind holds annotations. -/
def TokenKind.isTags (kind : TokenKind) : Bool := kind = .leadingTags || kind = .trailingTags

theorem isTags_wordKind (word : List Char) : (wordKind word).isTags = false := by
  unfold wordKind
  split
  · rename_i kind hfound
    have hwords : ∀ kind ∈ reservedWords, kind.isTags = false := by decide
    exact hwords kind (List.mem_of_find?_eq_some hfound)
  · split
    · rfl
    · split <;> rfl

/-- Everything else is a token, and no comment begins inside of it. -/
theorem cut_plain (hc : isGap c = false) (h : commentLength? (c :: rest) = none) :
    ∃ kind, (cut c rest).kind = some kind ∧ kind.isTags = false ∧ '/' ∉ rest.take (cut c rest).more := by
  have hmarks : ∀ entry ∈ marks, entry.2.isTags = false ∧ '/' ∉ entry.1.tail := by decide
  rw [cut, if_neg (by simp [hc]), commentSpan?_eq, h]
  dsimp only
  split
  · rename_i m hread
    exact ⟨_, rfl, by split <;> rfl, (Numeral.front_read? hread).tail.not_mem (by decide)⟩
  split
  · have hword : FrontOf isWordChar (runLength isWordChar rest) rest := .runLength (fun _ h => h) rest
    exact ⟨_, rfl, isTags_wordKind _, hword.not_mem (by decide)⟩
  split
  · rename_i kind length hfound
    obtain ⟨literal, hmem, hprefix, rfl⟩ := longestLiteral_eq_some hfound
    obtain ⟨hkind, htail⟩ := hmarks _ hmem
    obtain ⟨back, hback⟩ := List.isPrefixOf_iff_prefix.mp hprefix
    refine ⟨kind, rfl, hkind, fun hslash => htail ?_⟩
    cases literal with
    | nil => simp at hslash
    | cons d literal =>
      obtain ⟨rfl, rfl⟩ := List.cons.inj hback
      change '/' ∈ (literal ++ back).take literal.length at hslash
      rwa [List.take_left] at hslash
  · exact ⟨_, rfl, rfl, by simp⟩

/-! ## Gaps -/

theorem Gap.append {gap more : List Char} (h : Gap gap (more ++ rest)) (hmore : Gap more rest) : Gap (gap ++ more) rest := by
  generalize hback : more ++ rest = back at h
  induction h with
  | nil => exact hmore
  | blank hc _ ih => exact .blank hc (ih hback)
  | comment hcomment htags _ ih =>
    subst hback
    rw [List.append_assoc]
    exact .comment (by rwa [List.append_assoc]) htags (ih rfl)

theorem gap_of_forall {gap : List Char} (h : ∀ c ∈ gap, isGap c = true) (rest : List Char) : Gap gap rest := by
  induction gap with
  | nil => exact .nil
  | cons c gap ih =>
    obtain ⟨hc, hgap⟩ := List.forall_mem_cons.mp h
    exact .blank ((isGap_iff c).mp hc) (ih hgap)

variable {row : List Token}

/-- A gap before a text goes on with the gap at its front. -/
theorem Threaded.gap {gap : List Char} (hgap : Gap gap rest) (h : Threaded (pos + byteLength gap) rest row) :
    Threaded pos (gap ++ rest) row := by
  cases h with
  | stop hrest => exact .stop (Gap.append (by rwa [List.append_nil]) hrest)
  | @token _ front chars rest token row hfront hne htext hspan hrest =>
    have hstart : pos + byteLength gap + byteLength front = pos + byteLength (gap ++ front) := by
      rw [byteLength_append, Nat.add_assoc]
    rw [hstart] at hspan hrest
    rw [← List.append_assoc]
    exact .token (Gap.append hgap hfront) hne htext hspan hrest

/-- A token at the front of a text. -/
theorem Threaded.cons {chars : List Char} {token : Token} (hne : chars ≠ []) (htext : token.text = String.ofList chars)
    (hspan : token.span = ⟨pos, pos + byteLength chars⟩) (h : Threaded (pos + byteLength chars) rest row) :
    Threaded pos (chars ++ rest) (token :: row) :=
  .token .nil hne htext hspan h

/-! ## The tokens of a shader -/

theorem isTags_of_symbol (kind : TokenKind) :
    (kind.id = TokenKind.leadingTags.id || kind.id = TokenKind.trailingTags.id) = kind.isTags := by
  cases kind <;> rfl

theorem tagTokens_cons (kind : TokenKind) (text : List Char) (span : Span) (row : List Token) :
    tagTokens (⟨kind.id, String.ofList text, span⟩ :: row) =
      if kind.isTags then (span, text) :: tagTokens row else tagTokens row := by
  rw [tagTokens, List.filter_cons]
  simp only [isTags_of_symbol]
  split
  · rw [List.map_cons, String.toList_ofList]
    rfl
  · rfl

theorem classify_skipped {kind? : Option TokenKind} (hkind : kind? = none) (chars : List Char) (span : Span)
    (pieces : List (Piece TokenKind)) (sameLine : Bool) :
    ∃ sameLine', classify sameLine (⟨kind?, chars, span⟩ :: pieces) = classify sameLine' pieces := by
  subst hkind
  exact ⟨_, rfl⟩

/-- An annotation is leading or trailing, and any other piece has its own kind. -/
theorem classify_token {kind? : Option TokenKind} {kind : TokenKind} (hkind : kind? = some kind) (chars : List Char) (span : Span)
    (pieces : List (Piece TokenKind)) (sameLine : Bool) : ∃ (own : TokenKind) (sameLine' : Bool), own.isTags = kind.isTags ∧
      classify sameLine (⟨kind?, chars, span⟩ :: pieces) = ⟨own.id, String.ofList chars, span⟩ :: classify sameLine' pieces := by
  subst hkind
  refine ⟨_, _, ?_, rfl⟩
  by_cases htags : kind = .leadingTags
  · subst htags
    cases sameLine <;> rfl
  · simp [htags]

/-- Nothing of a text is lost: it is threaded by its tokens, and those that hold annotations are the comments that do. -/
def Covered (pos : Nat) (cs : List Char) (row : List Token) : Prop :=
  Threaded pos cs row ∧ ∃ found, Determined pos cs found ∧
    found.filter (fun entry => isTagComment entry.2) = tagTokens row

theorem Covered.blanks (hblanks : ∀ d ∈ text, isGap d = true) (h : Covered (pos + byteLength text) rest row) :
    Covered pos (text ++ rest) row := by
  obtain ⟨hthreaded, found, hfound, htags⟩ := h
  have hslash : '/' ∉ text := fun hmem => absurd (hblanks _ hmem) (by decide)
  exact ⟨.gap (gap_of_forall hblanks rest) hthreaded, found, .slashless hslash hfound, htags⟩

theorem Covered.comment (hcomment : Comment text rest) (htag : isTagComment text = false)
    (h : Covered (pos + byteLength text) rest row) : Covered pos (text ++ rest) row := by
  obtain ⟨hthreaded, found, hfound, htags⟩ := h
  have hgap : Gap (text ++ []) rest := .comment hcomment htag .nil
  rw [List.append_nil] at hgap
  refine ⟨.gap hgap hthreaded, _, .comment hcomment hfound, ?_⟩
  rw [List.filter_cons_of_neg (by simp [htag]), htags]

theorem Covered.tags (hcomment : Comment text rest) (htag : isTagComment text = true) {kind : TokenKind} (hkind : kind.isTags = true)
    (h : Covered (pos + byteLength text) rest row) :
    Covered pos (text ++ rest) (⟨kind.id, String.ofList text, ⟨pos, pos + byteLength text⟩⟩ :: row) := by
  obtain ⟨hthreaded, found, hfound, htags⟩ := h
  have hne : text ≠ [] := by
    rintro rfl
    cases hcomment
  refine ⟨.cons hne rfl rfl hthreaded, _, .comment hcomment hfound, ?_⟩
  rw [List.filter_cons_of_pos (by simp [htag]), htags, tagTokens_cons, if_pos hkind]

theorem Covered.plain (hopens : ¬OpensComment (c :: (front ++ rest))) (hslash : '/' ∉ front) {kind : TokenKind}
    (hkind : kind.isTags = false) (h : Covered (pos + byteLength (c :: front)) rest row) :
    Covered pos (c :: front ++ rest)
      (⟨kind.id, String.ofList (c :: front), ⟨pos, pos + byteLength (c :: front)⟩⟩ :: row) := by
  obtain ⟨hthreaded, found, hfound, htags⟩ := h
  refine ⟨.cons (List.cons_ne_nil _ _) rfl rfl hthreaded, found, .skip hopens (.slashless hslash ?_), ?_⟩
  · rwa [Nat.add_assoc]
  · rw [tagTokens_cons, hkind, htags]
    rfl

/-- **The lexer loses nothing.** -/
theorem covered_classify (pos : Nat) (cs : List Char) (sameLine : Bool) :
    Covered pos cs (classify sameLine (scan cut pos cs)) := by
  fun_induction scan cut pos cs generalizing sameLine with
  | case1 pos => exact ⟨.stop .nil, [], determined_nil pos, rfl⟩
  | case2 pos c rest next chars stop ih =>
    have hsplit : c :: rest = chars ++ rest.drop next.more := by rw [List.cons_append, List.take_append_drop]
    by_cases hc : isGap c = true
    · have hnext : next = ⟨none, runLength isGap rest⟩ := cut_gap hc rest
      have hblanks : ∀ d ∈ chars, isGap d = true := by
        rw [show chars = c :: rest.take next.more from rfl, hnext]
        exact List.forall_mem_cons.mpr ⟨hc, fun d hd => Macro.of_mem_take_runLength hd⟩
      obtain ⟨sameLine', hclassify⟩ := classify_skipped (congrArg Cut.kind hnext) chars ⟨pos, stop⟩
        (scan cut stop (rest.drop next.more)) sameLine
      rw [hclassify, hsplit]
      exact .blanks hblanks (ih sameLine')
    cases hlength : commentLength? (c :: rest) with
    | some n =>
      obtain ⟨hcomment, hkind⟩ := cut_comment hlength
      cases htag : isTagComment chars with
      | false =>
        obtain ⟨sameLine', hclassify⟩ := classify_skipped (hkind.trans (if_neg (Bool.eq_false_iff.mp htag))) chars
          ⟨pos, stop⟩ (scan cut stop (rest.drop next.more)) sameLine
        rw [hclassify, hsplit]
        exact .comment hcomment htag (ih sameLine')
      | true =>
        obtain ⟨own, sameLine', hown, hclassify⟩ := classify_token (hkind.trans (if_pos htag)) chars ⟨pos, stop⟩
          (scan cut stop (rest.drop next.more)) sameLine
        rw [hclassify, hsplit]
        exact .tags hcomment htag hown (ih sameLine')
    | none =>
      obtain ⟨kind, hkind, hplain, hslash⟩ := cut_plain (by simpa using hc) hlength
      obtain ⟨own, sameLine', hown, hclassify⟩ := classify_token hkind chars ⟨pos, stop⟩
        (scan cut stop (rest.drop next.more)) sameLine
      have hopens := (commentLength?_eq_none_iff _).mp hlength
      rw [hclassify, hsplit]
      rw [hsplit] at hopens
      exact .plain hopens hslash (hown.trans hplain) (ih sameLine')

/-- Threaded tokens have their places in the text. -/
theorem Threaded.slices {source before : List Char} (h : Threaded pos cs row) (hpos : pos = byteLength before)
    (hsource : source = before ++ cs) :
    (∀ token ∈ row, pos ≤ token.span.start ∧ token.span.start < token.span.stop ∧
      token.span.stop ≤ byteLength source ∧ token.text.toList = Text.slice token.span source) ∧
    row.Pairwise fun a b => a.span.stop ≤ b.span.start := by
  induction h generalizing before with
  | stop => simp
  | @token pos gap chars rest token row _ hne htext hspan _ ih =>
    subst hpos hsource
    obtain ⟨hrest, hapart⟩ := @ih (before ++ gap ++ chars) (by simp [Nat.add_assoc]) (by simp)
    have hlength := Directive.byteLength_pos hne
    have hslice := Text.slice_append (before ++ gap) chars rest
    rw [byteLength_append, List.append_assoc] at hslice
    refine ⟨List.forall_mem_cons.mpr ⟨?_, fun t ht => ?_⟩, List.pairwise_cons.mpr ⟨fun t ht => ?_, hapart⟩⟩
    · rw [hspan, htext, String.toList_ofList, hslice]
      simp
      omega
    · obtain ⟨hstart, hrest⟩ := hrest t ht
      exact ⟨by omega, hrest⟩
    · rw [hspan]
      exact (hrest t ht).1

/-- **No character of a shader is lost**: the spans of the tokens are not empty, lie in the source one after the other and hold the
texts of the tokens, only blanks and complete comments stand between them, and the comments that hold annotations are, one by one,
the tokens that do. -/
theorem tokens_cover (source : String) :
    (∀ token ∈ tokens source, token.span.start < token.span.stop ∧ token.span.stop ≤ byteLength source.toList ∧
      token.text.toList = Text.slice token.span source.toList) ∧
    (tokens source).Pairwise (fun a b => a.span.stop ≤ b.span.start) ∧
    Threaded 0 source.toList (tokens source) ∧
    ∃ found, (∀ other, Comments 0 source.toList other ↔ other = found) ∧
      found.filter (fun entry => isTagComment entry.2) = tagTokens (tokens source) := by
  obtain ⟨hthreaded, found, hfound, htags⟩ := covered_classify 0 source.toList false
  obtain ⟨hslices, hapart⟩ := @Threaded.slices _ _ _ source.toList [] hthreaded rfl rfl
  exact ⟨fun token htoken => (hslices token htoken).2, hapart, hthreaded, found, hfound, htags⟩

/-- Of three comments, the first with the mark of another one inside and the last one not closed, the two with a dollar are annotations. -/
theorem tokens_cover_tags :
    ∃ token ∈ tokens "in /* // */ v; //$ @x\n/*$", token.symbol = TokenKind.trailingTags.id ∧ token.span = ⟨15, 21⟩ ∧
      Text.slice ⟨15, 21⟩ "in /* // */ v; //$ @x\n/*$".toList = token.text.toList ∧
      ∃ found, (∀ other, Comments 0 "in /* // */ v; //$ @x\n/*$".toList other ↔ other = found) ∧
        found.filter (fun entry => isTagComment entry.2) =
          [(⟨15, 21⟩, "//$ @x".toList), (⟨22, 25⟩, "/*$".toList)] := by
  have htokens : tokens "in /* // */ v; //$ @x\n/*$" =
      [⟨TokenKind.in_.id, "in", ⟨0, 2⟩⟩, ⟨TokenKind.identifier.id, "v", ⟨12, 13⟩⟩, ⟨TokenKind.semicolon.id, ";", ⟨13, 14⟩⟩,
        ⟨TokenKind.trailingTags.id, "//$ @x", ⟨15, 21⟩⟩, ⟨TokenKind.leadingTags.id, "/*$", ⟨22, 25⟩⟩] := by decide +kernel
  obtain ⟨hslices, -, -, found, hfound, htags⟩ := tokens_cover "in /* // */ v; //$ @x\n/*$"
  have hmem : (⟨TokenKind.trailingTags.id, "//$ @x", ⟨15, 21⟩⟩ : Token) ∈ tokens "in /* // */ v; //$ @x\n/*$" := by
    rw [htokens]
    simp
  refine ⟨_, hmem, rfl, rfl, (hslices _ hmem).2.2.symm, found, hfound, htags.trans ?_⟩
  rw [htokens]
  rfl

end ShaderFront.Shader
