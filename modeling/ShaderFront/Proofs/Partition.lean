import Mathlib
import ShaderFront.Proofs.Alignment
import ShaderFront.Proofs.Excerpts
import ShaderFront.Proofs.Pasting

/-!
# Tokens divide a source by its lines

The tokens of a source fall into parts: the token of a run of text, and the tokens of a directive, which end with a newline token
(`Directive.Part`). A part covers whole lines, from the start of the line where its first token stands to the end of its last
token. Main statement: the parts of a source cover its lines one after the other, and what they cover is the source
(`Directive.tokens_partition`).
-/

namespace ShaderFront

namespace Text

/-! ## Slices -/

/-- The characters that begin before a byte offset. -/
def takeBytes : Nat → List Char → List Char
  | _, [] => []
  | n, c :: rest => if n = 0 then [] else c :: takeBytes (n - c.utf8Size) rest

/-- The characters that begin at a byte offset or after it. -/
def dropBytes : Nat → List Char → List Char
  | _, [] => []
  | n, c :: rest => if n = 0 then c :: rest else dropBytes (n - c.utf8Size) rest

/-- The characters of a text in a span. -/
def slice (span : Span) (text : List Char) : List Char := takeBytes span.length (dropBytes span.start text)

/-- The byte offset where the line of an offset begins. -/
def lineStart (offset : Nat) (text : List Char) : Nat := byteLength ((takeBytes offset text).rdropWhile (· ≠ '\n'))

theorem takeBytes_append (front back : List Char) : takeBytes (byteLength front) (front ++ back) = front := by
  induction front with
  | nil => cases back <;> simp [takeBytes]
  | cons c front ih =>
    have hne : byteLength (c :: front) ≠ 0 := (Directive.byteLength_pos (List.cons_ne_nil c front)).ne'
    rw [List.cons_append, takeBytes, if_neg hne, byteLength_cons, Nat.add_sub_cancel_left, ih]

theorem dropBytes_append (front back : List Char) : dropBytes (byteLength front) (front ++ back) = back := by
  induction front with
  | nil => cases back <;> simp [dropBytes]
  | cons c front ih =>
    have hne : byteLength (c :: front) ≠ 0 := (Directive.byteLength_pos (List.cons_ne_nil c front)).ne'
    rw [List.cons_append, dropBytes, if_neg hne, byteLength_cons, Nat.add_sub_cancel_left, ih]

theorem slice_append (front middle back : List Char) :
    slice ⟨byteLength front, byteLength front + byteLength middle⟩ (front ++ (middle ++ back)) = middle := by
  rw [slice, Span.length, dropBytes_append, Nat.add_sub_cancel_left, takeBytes_append]

/-- A line begins after the lines before it. -/
theorem lineStart_append {front more : List Char} (hfront : EndsLine front) (hmore : '\n' ∉ more) (back : List Char) :
    lineStart (byteLength front + byteLength more) (front ++ (more ++ back)) = byteLength front := by
  have hdrop : (front ++ more).rdropWhile (· ≠ '\n') = front := by
    rw [List.rdropWhile, List.reverse_append, List.dropWhile_append_of_pos, ← List.rdropWhile, List.rdropWhile_eq_self_iff]
    · rcases hfront with rfl | hlast
      · exact fun h => absurd rfl h
      · intro h
        rw [List.getLast?_eq_getLast_of_ne_nil h] at hlast
        simpa using hlast
    · intro c hc
      simpa using fun heq : c = '\n' => hmore (heq ▸ List.mem_reverse.mp hc)
  rw [lineStart, ← byteLength_append, ← List.append_assoc, takeBytes_append, hdrop]

theorem endsLine_flatten {front : List (List Char)} (h : ∀ line ∈ front, IsWhole line) : EndsLine front.flatten := by
  induction front with
  | nil => exact .inl rfl
  | cons line front ih =>
    obtain ⟨⟨body, rfl, -⟩, hfront⟩ := List.forall_mem_cons.mp h
    exact EndsLine.append (.inr (by simp)) (ih hfront)

end Text

namespace Directive

open Text (AreLines IsWhole EndsLine lineStart slice)

/-! ## Parts -/

/-- A part of a source: some lines with their text token, or the lines of a directive with its tokens. -/
inductive Part where
  | text (lines : List (List Char)) (token : Token)
  /-- The tokens inside of the directive come before its newline token. -/
  | directive (lines : List (List Char)) (inner : List Token) (newline : Token)

namespace Part

/-- The lines of a part. -/
def lines : Part → List (List Char)
  | .text lines _ => lines
  | .directive lines _ _ => lines

/-- The tokens of a part. -/
def tokens : Part → List Token
  | .text _ token => [token]
  | .directive _ inner newline => inner ++ [newline]

/-- Whether a part is a run of text. -/
def isText : Part → Bool
  | .text _ _ => true
  | .directive _ _ _ => false

/-- A part has lines, and its tokens have the kinds they should have: the newline token is the only one of its kind. -/
def IsSound : Part → Prop
  | .text lines token => lines ≠ [] ∧ token.symbol = TokenKind.text.id
  | .directive lines inner newline => lines ≠ [] ∧ newline.symbol = TokenKind.newline.id ∧
      ∀ token ∈ inner, token.symbol ≠ TokenKind.newline.id ∧ token.symbol ≠ TokenKind.text.id

/-- What a part covers: its text token, or the directive from the start of the line of its first token to the end of its newline
token. -/
def extent (source : List Char) : Part → Span
  | .text _ token => token.span
  | .directive _ inner newline => ⟨lineStart (inner.head?.getD newline).span.start source, newline.span.stop⟩

end Part

/-- Parts cover their lines, one part after the other, from a byte offset on. -/
def Placed (source : List Char) : Nat → List Part → Prop
  | _, [] => True
  | pos, p :: rest => p.extent source = ⟨pos, pos + byteLength p.lines.flatten⟩ ∧ Placed source (pos + byteLength p.lines.flatten) rest

/-- What placed parts cover is the text of their lines. -/
theorem Placed.slices {source front back : List Char} {parts : List Part} (h : Placed source (byteLength front) parts)
    (hsource : source = front ++ ((parts.flatMap Part.lines).flatten ++ back)) :
    (parts.flatMap fun p => slice (p.extent source) source) = (parts.flatMap Part.lines).flatten := by
  induction parts generalizing front with
  | nil => rfl
  | cons p parts ih =>
    obtain ⟨hextent, hparts⟩ := h
    rw [List.flatMap_cons, List.flatten_append] at hsource
    have hrest := @ih (front ++ p.lines.flatten) (by rwa [byteLength_append]) (by rw [hsource]; simp)
    rw [List.flatMap_cons, List.flatMap_cons, List.flatten_append, hrest, hextent, hsource, List.append_assoc, Text.slice_append]

/-! ## The first token of a directive -/

/-- A piece with a kind is the first lexeme. -/
theorem exists_lexeme_of_kind {c : Char} {cs : List Char} {kind : TokenKind} (hkind : (cut c cs).kind = some kind) (pos : Nat) :
    ∃ l more, (scan cut pos (c :: cs)).filterMap Piece.lexeme? = l :: more ∧ l.span.start = pos := by
  rw [scan, List.filterMap_cons_some (f := Piece.lexeme?) (by rw [Piece.lexeme?, hkind]; rfl)]
  exact ⟨_, _, rfl, rfl⟩

theorem kind_hash_ne_none (rest : List Char) : (cut '#' rest).kind ≠ none := by
  intro hnone
  rcases cut_skipped hnone with ⟨hgap, -⟩ | ⟨hc, -⟩ | ⟨n, hcomment, -⟩
  · cases hgap
  · cases hc
  · cases hcomment

/-- A run of gaps before a hash ends at the hash at the latest. -/
theorem lexemes_of_gaps {c : Char} {blanks rest : List Char} (hkind : (cut c (blanks ++ '#' :: rest)).kind = none)
    (hmore : (cut c (blanks ++ '#' :: rest)).more = runLength isGap (blanks ++ '#' :: rest)) (pos : Nat) :
    (scan cut pos (c :: blanks ++ '#' :: rest)).filterMap Piece.lexeme? =
      (scan cut (pos + byteLength (c :: blanks.take (runLength isGap blanks)))
        (blanks.drop (runLength isGap blanks) ++ '#' :: rest)).filterMap Piece.lexeme? := by
  rw [Macro.runLength_append_stop blanks (by rintro _ ⟨⟩; decide)] at hmore
  obtain ⟨-, hle⟩ := Numeral.take_runLength isGap blanks
  rw [List.cons_append, scan, List.filterMap_cons_none (f := Piece.lexeme?) (by rw [Piece.lexeme?, hkind]; rfl), hmore,
    List.take_append_of_le_length hle, List.drop_append_of_le_length hle]

/-- The first piece of a directive that is no gap stands in its first line. -/
theorem first_lexeme {blanks : List Char} (hblanks : ∀ c ∈ blanks, Text.isBlank c = true) (rest : List Char) (pos : Nat) :
    ∃ front l more, front <+: blanks ∧ (scan cut pos (blanks ++ '#' :: rest)).filterMap Piece.lexeme? = l :: more ∧
      l.span.start = pos + byteLength front := by
  induction hlength : blanks.length using Nat.strongRecOn generalizing blanks pos with
  | ind length ih =>
  subst hlength
  cases blanks with
  | nil =>
    obtain ⟨kind, hkind⟩ := Option.ne_none_iff_exists'.mp (kind_hash_ne_none rest)
    obtain ⟨l, more, hscan, hstart⟩ := exists_lexeme_of_kind hkind pos
    exact ⟨[], l, more, List.prefix_rfl, hscan, hstart⟩
  | cons c blanks =>
    obtain ⟨hc, hblanks⟩ := List.forall_mem_cons.mp hblanks
    cases hkind : (cut c (blanks ++ '#' :: rest)).kind with
    | some kind =>
      obtain ⟨l, more, hscan, hstart⟩ := exists_lexeme_of_kind hkind pos
      exact ⟨[], l, more, List.nil_prefix, hscan, hstart⟩
    | none =>
      rcases cut_skipped hkind with ⟨-, hmore⟩ | ⟨rfl, -⟩ | ⟨n, hcomment, -⟩
      · have hlt : (blanks.drop (runLength isGap blanks)).length < (c :: blanks).length := by
          rw [List.length_drop, List.length_cons]
          omega
        obtain ⟨front, l, more, hfront, hscan, hstart⟩ := ih _ hlt (fun d hd => hblanks d (List.mem_of_mem_drop hd))
          (pos + byteLength (c :: blanks.take (runLength isGap blanks))) rfl
        refine ⟨c :: blanks.take (runLength isGap blanks) ++ front, l, more, ?_, (lexemes_of_gaps hkind hmore pos).trans hscan, ?_⟩
        · rw [List.cons_append, List.cons_prefix_cons]
          refine ⟨rfl, ?_⟩
          conv_rhs => rw [← List.take_append_drop (runLength isGap blanks) blanks]
          exact (List.prefix_append_right_inj _).mpr hfront
        · rw [hstart, byteLength_append, Nat.add_assoc]
      · cases hc
      · obtain rfl := eq_slash_of_commentLength? hcomment
        cases hc

/-- The line break that ends a directive comes after all its other characters. -/
theorem withoutLineBreak_behind {c : Char} (hc : c ∉ ['\n', '\r']) (front rest : List Char) :
    ∃ rest', withoutLineBreak (front ++ c :: rest) = front ++ c :: rest' := by
  have hreverse : (front ++ c :: rest).reverse = rest.reverse ++ c :: front.reverse := by simp
  -- without the line break, what follows the character is shorter by as much
  have hdrop : ∀ {lineBreak back : List Char}, lineBreak ⊆ ['\n', '\r'] → (front ++ c :: rest).reverse = lineBreak ++ back →
      ∃ rest', back.reverse = front ++ c :: rest' := by
    intro lineBreak back hbreak h
    rw [hreverse, List.append_eq_append_iff] at h
    obtain ⟨more, rfl, h⟩ | ⟨more, -, rfl⟩ := h
    · cases more with
      | nil => exact ⟨[], by rw [← List.nil_append back, ← h]; simp⟩
      | cons d more =>
        obtain ⟨rfl, -⟩ := List.cons.inj h
        exact absurd (hbreak (List.mem_append_right _ List.mem_cons_self)) hc
    · exact ⟨more.reverse, by simp⟩
  unfold withoutLineBreak
  split
  · rename_i back h
    exact @hdrop ['\n', '\r'] _ (by simp) h
  · rename_i back _ h
    exact @hdrop ['\n'] _ (by simp) h
  · rename_i back h
    exact @hdrop ['\r'] _ (by simp) h
  · exact ⟨rest, rfl⟩

/-- The first token of a directive stands in its first line. -/
theorem first_directiveTokens {line : List Char} (hhash : (line.find? fun c => !Text.isBlank c) = some '#')
    (hline : IsWhole line ∨ '\n' ∉ line) (more : List Char) (pos : Nat) :
    ∃ front back token others, line ++ more = front ++ back ∧ '\n' ∉ front ∧
      piecesTokens pos (withoutLineBreak (line ++ more)) = token :: others ∧ token.span.start = pos + byteLength front := by
  obtain ⟨-, blanks, rest, rfl, hblanks⟩ := List.find?_eq_some_iff_append.mp hhash
  have hflat : '\n' ∉ blanks := by
    rcases hline with ⟨body, hbody, hflat⟩ | hflat
    · rcases List.append_eq_append_iff.mp hbody with ⟨more, rfl, -⟩ | ⟨last, rfl, hlast⟩
      · exact fun hmem => hflat (List.mem_append_left _ hmem)
      · cases last <;> simp at hlast
    · exact fun hmem => hflat (List.mem_append_left _ hmem)
  obtain ⟨rest', hcontent⟩ := @withoutLineBreak_behind '#' (by decide) blanks (rest ++ more)
  obtain ⟨front, l, lexemes, hfront, hscan, hstart⟩ := first_lexeme (fun c hc => by simpa using hblanks c hc) rest' pos
  obtain ⟨back, rfl⟩ := hfront
  have htokens : ∃ token others, piecesTokens pos (withoutLineBreak (front ++ back ++ '#' :: rest ++ more)) = token :: others ∧
      token.span = l.span := by
    rw [List.append_assoc (front ++ back), List.cons_append, hcontent, piecesTokens, hscan, classify]
    exact ⟨_, _, rfl, rfl⟩
  obtain ⟨token, others, htokens, hspan⟩ := htokens
  exact ⟨front, back ++ '#' :: (rest ++ more), token, others, by simp, fun hmem => hflat (List.mem_append_left _ hmem), htokens,
    by rw [hspan, hstart]⟩

/-! ## The parts of a source -/

/-- The rest of the lines of a source, after some text. -/
structure Standing (source front : List Char) (ls : List Scanned) : Prop where
  ends : ls ≠ [] → EndsLine front
  all : source = front ++ ls.flatMap (·.line)
  lines : AreLines (ls.map (·.line))
  opens : ∀ l ∈ ls, (∃ directive, l.role = .opens directive) → (l.line.find? fun c => !Text.isBlank c) = some '#'

theorem Standing.behind {source front : List Char} {run rest : List Scanned} (h : Standing source front (run ++ rest)) (hrun : run ≠ []) :
    Standing source (front ++ run.flatMap (·.line)) rest where
  ends hne := by
    have hlines := h.lines
    rw [List.map_append] at hlines
    rw [List.flatMap_def]
    exact (h.ends (by simp [hrun])).append (Text.endsLine_flatten (hlines.front (by simpa using hne)))
  all := by rw [h.all, List.flatMap_append, List.append_assoc]
  lines := by
    have hlines := h.lines
    rw [List.map_append] at hlines
    exact hlines.suffix
  opens l hl := h.opens l (List.mem_append_right _ hl)

/-- The parts of lines in their roles, from a byte offset on, with their tokens. -/
structure Parted (source : List Char) (pos : Nat) (ls : List Scanned) (tokens : List Token) (parts : List Part) : Prop where
  tokens : parts.flatMap Part.tokens = tokens
  lines : parts.flatMap Part.lines = ls.map (·.line)
  sound : ∀ p ∈ parts, p.IsSound
  apart : parts.IsChain fun p q => ¬(p.isText = true ∧ q.isText = true)
  /-- Lines that do not begin with text begin with a directive. -/
  head : (∀ l ∈ ls.head?, l.role ≠ .text) → ∀ p ∈ parts.head?, p.isText = false
  placed : Placed source pos parts

section Parted

variable {source : List Char} {pos : Nat} {rest : List Scanned} {tokens : List Token} {parts : List Part}

theorem Parted.nil : Parted source pos [] [] [] := ⟨rfl, rfl, List.forall_mem_nil _, .nil, by simp, trivial⟩

/-- A run of text in front of what begins with no text. -/
theorem Parted.text {run : List Scanned} {chars : List Char} (hrun : run ≠ []) (htext : ∀ l ∈ run, l.role = .text)
    (hrest : ∀ l ∈ rest.head?, l.role ≠ .text) (hchars : chars = run.flatMap (·.line))
    (h : Parted source (pos + byteLength chars) rest tokens parts) :
    Parted source pos (run ++ rest) (⟨TokenKind.text.id, String.ofList chars, ⟨pos, pos + byteLength chars⟩⟩ :: tokens)
      (.text (run.map (·.line)) ⟨TokenKind.text.id, String.ofList chars, ⟨pos, pos + byteLength chars⟩⟩ :: parts) where
  tokens := by
    rw [List.flatMap_cons, h.tokens]
    rfl
  lines := by
    rw [List.flatMap_cons, h.lines, List.map_append]
    rfl
  sound := List.forall_mem_cons.mpr ⟨⟨by simpa using hrun, rfl⟩, h.sound⟩
  apart := List.isChain_cons.mpr ⟨fun p hp => by simp [h.head hrest p hp], h.apart⟩
  head hhead := by
    obtain ⟨l, run, rfl⟩ := List.exists_cons_of_ne_nil hrun
    exact absurd (htext l List.mem_cons_self) (hhead l rfl)
  placed := by
    rw [Placed, Part.lines, ← List.flatMap_def, ← hchars]
    exact ⟨rfl, h.placed⟩

/-- The lines of a directive, from the one with its first token on. -/
theorem Parted.directive {front directive : List Char} {first : Scanned} {more : List Scanned} (hfirst : ∃ b, first.role = .opens b)
    (hdirective : directive = first.line ++ more.flatMap (·.line)) (hstanding : Standing source front (first :: more ++ rest))
    (h : Parted source (byteLength front + byteLength directive) rest tokens parts) :
    Parted source (byteLength front) (first :: more ++ rest) (directiveTokens (byteLength front) directive ++ tokens)
      (.directive ((first :: more).map (·.line)) (piecesTokens (byteLength front) (withoutLineBreak directive))
        ⟨TokenKind.newline.id, "\n", ⟨byteLength front + byteLength (withoutLineBreak directive),
          byteLength front + byteLength directive⟩⟩ :: parts) where
  tokens := by
    rw [List.flatMap_cons, h.tokens]
    rfl
  lines := by
    rw [List.flatMap_cons, h.lines, List.map_append]
    rfl
  sound := by
    refine List.forall_mem_cons.mpr ⟨⟨by simp, rfl, fun t ht => ?_⟩, h.sound⟩
    obtain ⟨kind, hkind, hsymbol⟩ := exists_kind_of_mem_piecesTokens ht
    rw [hsymbol]
    constructor <;> (refine id_injective.ne ?_; rintro rfl; cases hkind)
  apart := List.isChain_cons.mpr ⟨fun p _ => by simp [Part.isText], h.apart⟩
  head _ p hp := by
    cases hp
    rfl
  placed := by
    have hflatten : ((first :: more).map (·.line)).flatten = directive := by rw [hdirective, ← List.flatMap_def, List.flatMap_cons]
    rw [Placed, Part.lines, hflatten]
    refine ⟨?_, h.placed⟩
    have hwhole : IsWhole first.line ∨ '\n' ∉ first.line := hstanding.lines.of_mem (by simp)
    obtain ⟨blanks, back, token, others, hsplit, hflat, htokens, hstart⟩ := first_directiveTokens
      (hstanding.opens first List.mem_cons_self hfirst) hwhole (more.flatMap (·.line)) (byteLength front)
    rw [← hdirective] at hsplit htokens
    have hsource : source = front ++ (blanks ++ (back ++ rest.flatMap (·.line))) := by
      rw [hstanding.all, List.flatMap_append, List.flatMap_cons, ← hdirective, hsplit, List.append_assoc]
    rw [Part.extent, htokens, List.head?_cons, Option.getD_some, hstart, hsource,
      Text.lineStart_append (hstanding.ends (by simp)) hflat]

end Parted

/-- Text tokens and the tokens of directives are those of parts. -/
theorem Grouped.exists_parts {source : List Char} {pos : Nat} {ls : List Scanned} {tokens : List Token} (h : Grouped pos ls tokens) :
    ∀ {front : List Char}, byteLength front = pos → Standing source front ls → ∃ parts, Parted source pos ls tokens parts := by
  induction h with
  | nil => exact fun _ _ => ⟨[], .nil⟩
  | text hrun htext hrest hchars _ ih =>
    rintro front rfl hstanding
    obtain ⟨parts, h⟩ := ih (byteLength_append ..) (hchars ▸ hstanding.behind hrun)
    exact ⟨_, .text hrun htext hrest hchars h⟩
  | directive hfirst _ _ hdirective _ ih =>
    rintro front rfl hstanding
    have hbehind := hstanding.behind (List.cons_ne_nil _ _)
    rw [List.flatMap_cons, ← hdirective] at hbehind
    obtain ⟨parts, h⟩ := ih (byteLength_append ..) hbehind
    exact ⟨_, .directive ⟨_, hfirst⟩ hdirective hstanding h⟩

/-- Tokens that stand one after the other in a text have spans in order. -/
theorem Excerpts.spans {pos : Nat} {cs : List Char} {tokens : List Token} (h : Excerpts pos cs tokens) :
    tokens.Pairwise (fun a b => a.span.stop ≤ b.span.start) ∧
      ∀ t ∈ tokens, pos ≤ t.span.start ∧ t.span.start ≤ t.span.stop ∧ t.span.stop ≤ pos + byteLength cs := by
  have hcons : ∀ {pos : Nat} {piece cs : List Char} {token : Token} {tokens : List Token},
      token.span = ⟨pos, pos + byteLength piece⟩ → tokens.Pairwise (fun a b => a.span.stop ≤ b.span.start) ∧
        (∀ t ∈ tokens, pos + byteLength piece ≤ t.span.start ∧ t.span.start ≤ t.span.stop ∧
          t.span.stop ≤ pos + byteLength piece + byteLength cs) →
      (token :: tokens).Pairwise (fun a b => a.span.stop ≤ b.span.start) ∧ ∀ t ∈ token :: tokens,
        pos ≤ t.span.start ∧ t.span.start ≤ t.span.stop ∧ t.span.stop ≤ pos + byteLength (piece ++ cs) := by
    intro pos piece cs token tokens hspan ⟨hpairwise, hbounds⟩
    refine ⟨List.pairwise_cons.mpr ⟨fun t ht => ?_, hpairwise⟩, List.forall_mem_cons.mpr ⟨?_, fun t ht => ?_⟩⟩
    · rw [hspan]
      exact (hbounds t ht).1
    · rw [hspan, byteLength_append]
      dsimp only
      omega
    · have := hbounds t ht
      rw [byteLength_append]
      omega
  induction h with
  | done => exact ⟨.nil, List.forall_mem_nil _⟩
  | skip _ _ ih =>
    refine ⟨ih.1, fun t ht => ?_⟩
    have := ih.2 t ht
    rw [byteLength_append]
    omega
  | token hspan _ _ ih => exact hcons hspan ih
  | newline hspan _ _ ih => exact hcons hspan ih

/-- **The tokens of a source divide it by its lines.** The tokens are those of parts: text tokens, no two of them next to each
other, and directives, which end with their only newline token. Every line belongs to one part. A part covers its lines, one part
comes after the other, and what they cover is the source. -/
theorem tokens_partition (source : String) : ∃ parts : List Part,
    parts.flatMap Part.tokens = tokens source ∧ parts.flatMap Part.lines = Text.lines source.toList ∧
    (∀ p ∈ parts, p.IsSound) ∧ (parts.IsChain fun p q => ¬(p.isText = true ∧ q.isText = true)) ∧
    Placed source.toList 0 parts ∧ (parts.flatMap fun p => slice (p.extent source.toList) source.toList) = source.toList ∧
    (tokens source).Pairwise (fun a b => a.span.stop ≤ b.span.start) ∧
    ∀ t ∈ tokens source, t.span.start ≤ t.span.stop ∧ t.span.stop ≤ byteLength source.toList := by
  have hlines := map_line_scanLines (fun _ => false) false [] (Text.lines source.toList)
  have hgrouped : Grouped 0 (scanLines (fun _ => false) false [] (Text.lines source.toList)) (tokens source) :=
    grouped_lineTokens false 0 [] _ false 0 [] rfl (List.forall_mem_nil _) (Text.areLines_lines _) rfl rfl
  have hsource : (scanLines (fun _ => false) false [] (Text.lines source.toList)).flatMap (·.line) = source.toList := by
    rw [List.flatMap_def, hlines, Text.flatten_lines]
  have hstanding : Standing source.toList [] (scanLines (fun _ => false) false [] (Text.lines source.toList)) :=
    ⟨fun _ => .inl rfl, hsource.symm, by rw [hlines]; exact Text.areLines_lines _,
      fun l hl hopens => ((opens_iff_of_mem_scanLines l hl).mp hopens).2.1⟩
  obtain ⟨parts, htokens, hcover, hsound, hchain, -, hplaced⟩ := hgrouped.exists_parts rfl hstanding
  rw [hlines] at hcover
  have hflatten : (parts.flatMap Part.lines).flatten = source.toList := by rw [hcover, Text.flatten_lines]
  obtain ⟨hpairwise, hbounds⟩ := (excerpts_tokens source).spans
  refine ⟨parts, htokens, hcover, hsound, hchain, hplaced, ?_, hpairwise, fun t ht => ⟨(hbounds t ht).2.1, ?_⟩⟩
  · rw [@Placed.slices _ [] [] _ hplaced (by simp [hflatten]), hflatten]
  · simpa using (hbounds t ht).2.2

end Directive

end ShaderFront
