import Mathlib
import ShaderFront.Proofs.Partition
import ShaderFront.Proofs.Recorded
import ShaderFront.Proofs.Seams
import ShaderFront.Proofs.Splices

/-!
# Includes are spliced texts

The line of an `#include` and the text of its file stand for the same particles, one after the other or read on its own, if the text
begins and ends with a directive (`Directive.parse_spliced`). Main statement: a source with the line and one with the text in its place
have the same output, macros, version, line and log (`Preprocessor.process_spliced`).
-/

namespace ShaderFront

open Text (EndsLine)

namespace Directive

/-! ## The ends of texts -/

/-- The last token of a source ends a stretch. -/
theorem tokenStretches_getLast {inside : Bool} {offset : Nat} {run all : List (List Char)} :
    ∀ t ∈ (lineTokens inside offset run all).getLast?, tokenStretches t ≠ [] := by
  have hnewline : ∀ offset chars, ∀ t ∈ (directiveTokens offset chars).getLast?, tokenStretches t ≠ [] := by
    intro offset chars t ht
    rw [directiveTokens, List.getLast?_concat] at ht
    cases ht
    simp [tokenStretches]
  fun_induction lineTokens inside offset run all with
  | case1 inside offset run =>
    intro t ht
    have htext := exists_kind_of_mem_textTokens (List.mem_of_getLast? ht)
    rw [tokenStretches, htext, if_neg (id_injective.ne (by decide)), if_pos rfl]
    exact List.cons_ne_nil _ _
  | case2 inside offset run line rest hline joined ih =>
    intro t ht
    rw [List.getLast?_append] at ht
    cases hlast : (lineTokens false (offset + byteLength joined.1) [] joined.2).getLast? with
    | some last =>
      rw [hlast] at ht
      cases ht
      exact ih _ hlast
    | none =>
      rw [hlast, Option.none_or, List.getLast?_append] at ht
      have hsome : (directiveTokens offset joined.1).getLast? ≠ none := by simp [directiveTokens]
      obtain ⟨last, hlast⟩ := Option.ne_none_iff_exists'.mp hsome
      rw [hlast] at ht
      cases ht
      exact hnewline _ _ _ hlast
  | case3 inside offset run line rest hline ih => exact ih

/-- Lines that end with a directive end with its stretch. -/
theorem getLast?_stretches {ending : Ending} {offset : Nat} {run all : List (List Char)} {chars : List Char} {before : List Stretch}
    (hbefore : ∀ chars, ending = .directive chars → run = [] ∧ before.getLast? = some .directive)
    (hends : ending.after all = .directive chars) :
    (before ++ (lineTokens ending.inside offset run all).flatMap tokenStretches).getLast? = some .directive := by
  fun_induction Ending.after ending all generalizing offset run before with
  | case1 ending =>
    obtain ⟨rfl, hlast⟩ := hbefore chars hends
    rw [lineTokens]
    simpa [textTokens] using hlast
  | case2 ending line rest hline ih =>
    rw [lineTokens, if_pos hline]
    dsimp only
    rw [List.flatMap_append, List.flatMap_append, stretches_directiveTokens, ← List.append_assoc]
    exact ih (fun _ _ => ⟨rfl, by rw [← List.append_assoc]; exact List.getLast?_concat⟩) hends
  | case3 ending line rest hline ih =>
    rw [lineTokens, if_neg hline]
    exact ih (fun _ heq => by cases heq) hends

/-- The last stretch of a source that ends with a directive. -/
theorem getLast?_stretches_tokens {source : String} {chars : List Char} (h : endingOf source = .directive chars) :
    ((tokens source).flatMap tokenStretches).getLast? = some .directive :=
  @getLast?_stretches (.text false) 0 [] _ chars [] nofun h

/-! ## Strings -/

/-- A text that can stand in quotes. -/
def Quotable (text : List Char) : Prop := '"' ∉ text ∧ '\n' ∉ text

/-- What is cut off as a string is a text in quotes. -/
theorem quotable_of_cutString {rest : List Char} (h : (cutString rest).kind = some .string) :
    ∃ inner, rest.take (cutString rest).more = inner ++ ['"'] ∧ Quotable inner := by
  unfold cutString at h ⊢
  dsimp only at h ⊢
  split at h
  · rename_i back hback
    have hinner := (Numeral.take_runLength (fun c => c ≠ '"' && c ≠ '\n') rest).1
    refine ⟨rest.take (runLength (fun c => c ≠ '"' && c ≠ '\n') rest), ?_, fun hmem => ?_, fun hmem => ?_⟩
    · rw [List.take_add_one, ← List.head?_drop, hback]
      rfl
    · simpa using hinner _ hmem
    · simpa using hinner _ hmem
  · cases h

/-- A string begins with its quote. -/
theorem cutString_of_cut {c : Char} {rest : List Char} (h : (cut c rest).kind = some .string) : c = '"' ∧ cut c rest = cutString rest := by
  have hhash : .string ∉ hashKinds := by decide
  have hmarks : .string ∉ marks.map Prod.snd := by decide
  generalize hnext : cut c rest = next at h ⊢
  cases cutting hnext with
  | gap | continued | comment | other => cases h
  | hash => exact absurd (mem_hashKinds h) hhash
  | string hquote => exact ⟨hquote, rfl⟩
  | numeral | word =>
    dsimp only at h
    split at h <;> cases h
  | mark _ hlongest =>
    cases h
    exact absurd (mem_marks_of_longestLiteral hlongest) hmarks

/-- A string token is a text in quotes. -/
theorem quotable_of_mem_lineTokens {token : Token} {inside : Bool} {offset : Nat} {run lines : List (List Char)}
    (h : token ∈ lineTokens inside offset run lines) (hstring : token.symbol = TokenKind.string.id) :
    ∃ inner, token.text.toList = '"' :: (inner ++ ['"']) ∧ Quotable inner := by
  fun_induction lineTokens inside offset run lines with
  | case1 => exact absurd (id_injective ((exists_kind_of_mem_textTokens h).symm.trans hstring)) (by decide)
  | case2 inside offset run line rest hline joined ih =>
    rcases List.mem_append.mp h with h | h
    · rcases List.mem_append.mp h with h | h
      · exact absurd (id_injective ((exists_kind_of_mem_textTokens h).symm.trans hstring)) (by decide)
      · rcases List.mem_append.mp h with h | h
        · obtain ⟨l, hl, htext, kind, hkind, hid⟩ := exists_kind_of_mem_classify h
          obtain rfl := id_injective (hid.symm.trans hstring)
          obtain ⟨c, rest, hcut, hchars⟩ := mem_lexemes hl
          rw [← hkind.resolve_left (by simp)] at hcut
          obtain ⟨rfl, heq⟩ := cutString_of_cut hcut
          rw [heq] at hcut hchars
          obtain ⟨inner, hinner, hquotable⟩ := quotable_of_cutString hcut
          exact ⟨inner, by rw [htext, hchars, hinner, String.toList_ofList], hquotable⟩
        · rw [List.mem_singleton.mp h] at hstring
          exact absurd (id_injective hstring) (by decide)
    · exact ih h
  | case3 _ _ _ _ _ _ ih => exact ih h

theorem dropWhile_quote {text : List Char} (h : '"' ∉ text) : text.dropWhile (· = '"') = text := by
  cases text with
  | nil => rfl
  | cons c text => rw [List.dropWhile_cons_of_neg (by simpa using Ne.symm (List.ne_of_not_mem_cons h))]

/-- The text between the quotes of a string. -/
theorem toList_unquote {text : String} {inner : List Char} (h : text.toList = '"' :: (inner ++ ['"'])) (hquotable : Quotable inner) :
    (unquote text).toList = inner := by
  rw [unquote, h, String.toList_ofList, List.dropWhile_cons_of_pos (by rfl)]
  cases inner with
  | nil => rfl
  | cons c inner =>
    have hc : c ≠ '"' := Ne.symm (List.ne_of_not_mem_cons hquotable.1)
    have hback : '"' ∉ (c :: inner).reverse := List.mem_reverse.not.mpr hquotable.1
    rw [List.cons_append, List.dropWhile_cons_of_neg (by simpa using hc), ← List.cons_append, List.reverse_append,
      List.reverse_singleton, List.singleton_append, List.dropWhile_cons_of_pos (by rfl), dropWhile_quote hback, List.reverse_reverse]

/-! ## The line of an include -/

/-- The line of an `#include` of a path. -/
def includeLine (path : String) : String := "#include \"" ++ path ++ "\"\n"

theorem cutsOff_include (rest : List Char) : CutsOff (some .include_) "#include".toList rest :=
  @cutsOff_hash ("include".toList, .include_) (by decide) rest

theorem cutsOff_string {inner : List Char} (h : Quotable inner) (rest : List Char) :
    CutsOff (some .string) ('"' :: (inner ++ ['"'])) rest := by
  have hcut : ∀ text, cut '"' text = cutString text := fun _ => rfl
  have hinner : ∀ c ∈ inner, (c ≠ '"' && c ≠ '\n') = true := fun c hc => by
    simpa using And.intro (ne_of_mem_of_not_mem hc h.1) (ne_of_mem_of_not_mem hc h.2)
  have hrun : runLength (fun c => c ≠ '"' && c ≠ '\n') (inner ++ '"' :: rest) = inner.length :=
    Macro.runLength_run hinner (by rintro _ ⟨⟩; decide)
  refine ⟨'"', inner ++ ['"'], rfl, ?_⟩
  rw [hcut, cutString, List.append_assoc, List.singleton_append]
  simp only [hrun, List.drop_left, List.length_append, List.length_singleton]

/-- The first line of a text begins as the text does. -/
theorem lines_front {front : List Char} (hne : front ≠ []) (hflat : '\n' ∉ front) (rest : List Char) :
    ∃ more others, Text.lines (front ++ rest) = (front ++ more) :: others := by
  induction front with
  | nil => exact absurd rfl hne
  | cons c front ih =>
    obtain ⟨hc, hflat⟩ := not_or.mp (List.mem_cons.not.mp hflat)
    rw [List.cons_append, Text.lines, if_neg (Ne.symm hc)]
    by_cases hnil : front = []
    · subst hnil
      cases hlines : Text.lines ([] ++ rest) with
      | nil => exact ⟨[], [], rfl⟩
      | cons line others => exact ⟨line, others, rfl⟩
    · obtain ⟨more, others, hlines⟩ := ih hnil hflat
      rw [hlines]
      exact ⟨more, others, rfl⟩

/-- What begins with the line of an include begins with its token. -/
theorem exists_include_token (path post : String) : ∃ token rest, tokens (includeLine path ++ post) = token :: rest ∧
    token.symbol = TokenKind.include_.id := by
  have hfront : (includeLine path ++ post).toList = "#include \"".toList ++ (path.toList ++ '"' :: '\n' :: post.toList) := by
    simp [includeLine]
  obtain ⟨more, others, hlines⟩ := @lines_front "#include \"".toList (by decide) (by decide) (path.toList ++ '"' :: '\n' :: post.toList)
  obtain ⟨tail, -, hjoined, -⟩ := joinContinued_eq ("#include \"".toList ++ more) others
  obtain ⟨content, hcontent⟩ := @withoutLineBreak_behind '"' (by decide) "#include ".toList (more ++ tail.flatten)
  have hdirective : (!false && isDirective ("#include \"".toList ++ more)) = true := rfl
  have hbody : withoutLineBreak (joinContinued ("#include \"".toList ++ more) others).1 =
      "#include".toList ++ (' ' :: '"' :: content) := by
    rw [hjoined, List.append_assoc]
    exact hcontent
  have hpieces : ∃ token rest, piecesTokens 0 ("#include".toList ++ (' ' :: '"' :: content)) = token :: rest ∧
      token.symbol = TokenKind.include_.id := by
    rw [piecesTokens, ← lexemesFrom, lexemesFrom_word (cutsOff_include _), classify_cons (by decide)]
    exact ⟨_, _, rfl, rfl⟩
  obtain ⟨token, rest, hfirst, hsymbol⟩ := hpieces
  rw [tokens, hfront, hlines, lineTokens, if_pos hdirective]
  dsimp only
  rw [directiveTokens, hbody, hfirst]
  exact ⟨token, _, rfl, hsymbol⟩

/-- The line of an include without its line break. -/
def bareInclude (path : String) : String := "#include \"" ++ path ++ "\""

theorem toList_bareInclude (path : String) :
    (bareInclude path).toList = "#include".toList ++ ([' '] ++ ('"' :: (path.toList ++ ['"']) ++ [])) := by
  simp [bareInclude]

theorem includeLine_eq (path : String) : includeLine path = bareInclude path ++ "\n" := by
  simp [includeLine, bareInclude, String.append_assoc]

section Quotable

variable {path : String} (h : Quotable path.toList)

include h

theorem flat_bareInclude : '\n' ∉ (bareInclude path).toList := by
  have hwords : '\n' ∉ "#include \"".toList ∧ '\n' ∉ "\"".toList := by decide
  rw [bareInclude, String.toList_append, String.toList_append]
  exact fun hmem => (List.mem_append.mp hmem).elim
    (fun hmem => (List.mem_append.mp hmem).elim hwords.1 h.2) hwords.2

theorem lines_includeLine : Text.lines (includeLine path).toList = [(bareInclude path).toList ++ ['\n']] := by
  rw [includeLine_eq, String.toList_append]
  exact lines_flat (flat_bareInclude h)

/-- The line of an include is a directive that does not go on. -/
theorem exists_ending_includeLine : ∃ chars, endingOf (includeLine path) = .directive chars ∧ continues chars = false := by
  have hback : ((bareInclude path).toList ++ ['\n']).reverse = '\n' :: '"' :: ("#include \"".toList ++ path.toList).reverse := by
    simp [bareInclude]
  have hdirective : (!(Ending.text false).inside && isDirective ((bareInclude path).toList ++ ['\n'])) = true := by
    rw [toList_bareInclude]
    rfl
  refine ⟨(bareInclude path).toList ++ ['\n'], ?_, ?_⟩
  · rw [endingOf, lines_includeLine h, Ending.after, if_pos hdirective, joinContinued, Ending.after]
  · rw [continues, hback]
    rfl

/-- The line of an include has three tokens. -/
theorem length_tokens_includeLine : (tokens (includeLine path)).length = 3 := by
  have hhash : (bareInclude path).toList.head? = some '#' := by
    rw [toList_bareInclude]
    rfl
  have hlast : (bareInclude path).toList.getLast? ≠ some '\r' := by
    rw [bareInclude, String.toList_append, List.getLast?_append, show "\"".toList.getLast? = some '"' from rfl, Option.some_or]
    decide
  obtain ⟨close, -, htokens⟩ := tokens_line hhash (flat_bareInclude h) hlast
  have hdivides : ShaderFront.Divides cut (bareInclude path).toList
      [(.include_, "#include"), (.string, String.ofList ('"' :: (path.toList ++ ['"'])))] := by
    have hstring := cutsOff_string h []
    have hquoted := @ShaderFront.Divides.word _ cut (.string, String.ofList ('"' :: (path.toList ++ ['"']))) [] []
      (by rwa [String.toList_ofList]) .nil
    rw [String.toList_ofList] at hquoted
    rw [toList_bareInclude]
    exact @ShaderFront.Divides.word _ cut (.include_, "#include") _ _ (cutsOff_include _)
      (.gap (cutsOff_gap (by rintro _ ⟨⟩; decide)) hquoted)
  obtain ⟨front, hcarries, hpieces⟩ := carries_of_divides hdivides (by simp) 0
  have hlength := congrArg List.length hcarries.written
  rw [includeLine_eq, htokens, hpieces]
  simpa using hlength

end Quotable

/-! ## Texts that can be put together -/

/-- A text ends its last line, with no block comment open and no directive going on. -/
structure Closed (text : String) : Prop where
  ends : EndsLine text.toList
  free : (endingOf text).IsFree

/-- A text begins with a directive and ends with a directive that does not go on, and with its line break. -/
structure Enclosed (text : String) : Prop where
  begins : beginsWithDirective text = true
  ends : EndsLine text.toList
  closes : ∃ chars, endingOf text = .directive chars ∧ continues chars = false

/-- The number of stretches of a text. -/
def stretchCount (text : String) : Nat := ((tokens text).flatMap tokenStretches).length

theorem meets_of_begins (ending : Ending) {back : String} (h : beginsWithDirective back = true) :
    Meets ending (Text.lines back.toList) := by
  refine .inr fun line hline => ?_
  rw [beginsWithDirective, show (Text.lines back.toList).head? = some line from hline] at h
  exact h

theorem begins_append {text : String} (hbegins : beginsWithDirective text = true) (hends : EndsLine text.toList) (post : String) :
    beginsWithDirective (text ++ post) = true := by
  rw [beginsWithDirective] at hbegins ⊢
  rw [String.toList_append, Text.lines_append hends]
  cases hlines : Text.lines text.toList with
  | nil =>
    rw [hlines] at hbegins
    cases hbegins
  | cons line others =>
    rw [hlines] at hbegins
    exact hbegins

theorem begins_includeLine (path post : String) : beginsWithDirective (includeLine path ++ post) = true := by
  obtain ⟨more, others, hlines⟩ := @lines_front "#".toList (by decide) (by decide)
    ("include \"".toList ++ (path.toList ++ '"' :: '\n' :: post.toList))
  have hfront : (includeLine path ++ post).toList =
      "#".toList ++ ("include \"".toList ++ (path.toList ++ '"' :: '\n' :: post.toList)) := by
    simp [includeLine]
  rw [beginsWithDirective, hfront, hlines]
  rfl

theorem Enclosed.tokens_append {text : String} (h : Enclosed text) (post : String) :
    tokens (text ++ post) = tokens text ++ (tokens post).map (·.shifted (byteLength text.toList)) := by
  obtain ⟨chars, hends, hstops⟩ := h.closes
  exact Directive.tokens_append h.ends (by rw [hends]; exact hstops) (.inl ⟨chars, hends⟩)

theorem enclosed_includeLine {path : String} (h : Quotable path.toList) : Enclosed (includeLine path) where
  begins := by simpa using begins_includeLine path ""
  ends := by
    rw [includeLine_eq, String.toList_append]
    exact .inr List.getLast?_concat
  closes := exists_ending_includeLine h

/-! ## Readings -/

theorem exists_unmoved {front : List (TokenKind × Token)} {ts : List Token} {offset : Nat}
    (h : front.map Prod.snd = ts.map (·.shifted offset)) : ∃ still, still.map Prod.snd = ts ∧ front = movedFront offset still := by
  induction ts generalizing front with
  | nil => exact ⟨[], rfl, List.map_eq_nil_iff.mp h⟩
  | cons t ts ih =>
    obtain ⟨r, rest, rfl, hr, hrest⟩ := List.map_eq_cons_iff.mp h
    obtain ⟨still, hstill, rfl⟩ := ih hrest
    exact ⟨(r.1, t) :: still, congrArg (t :: ·) hstill, congrArg (· :: _) (Prod.ext rfl hr)⟩

theorem map_snd_movedFront (offset : Nat) (front : List (TokenKind × Token)) :
    (movedFront offset front).map Prod.snd = (front.map Prod.snd).map (·.shifted offset) := by
  simp [movedFront, Function.comp_def]

theorem movedFront_movedFront (a b : Nat) (front : List (TokenKind × Token)) :
    movedFront a (movedFront b front) = movedFront (b + a) front := by
  simp [movedFront, Token.shifted, Span.shifted, Nat.add_assoc]

theorem movedFront_zero (front : List (TokenKind × Token)) : movedFront 0 front = front := by
  simp [movedFront, Token.shifted, Span.shifted]

mutual

theorem Particle.moved_zero : ∀ p : Particle, p.moved (·.shifted 0) = p
  | .text _ | .define _ | .undef _ | .error _ | .extension _ | .include _ _ | .line _ _ | .null | .pragma _ | .version _ _ => by
    simp [Particle.moved, Span.shifted]
  | .conditional branches none => by simp [Particle.moved, movedBranches_zero branches]
  | .conditional branches (some body) => by simp [Particle.moved, movedBranches_zero branches, movedAll_zero body]

theorem movedAll_zero : ∀ ps : List Particle, movedAll (·.shifted 0) ps = ps
  | [] => by simp [movedAll]
  | p :: rest => by simp [movedAll, Particle.moved_zero p, movedAll_zero rest]

theorem movedBranches_zero : ∀ branches : List (BranchOf Particle), movedBranches (·.shifted 0) branches = branches
  | [] => by simp [movedBranches]
  | ⟨_, body⟩ :: rest => by simp [movedBranches, movedAll_zero body, movedBranches_zero rest]

end

/-- Particles are read whatever the numbers of the nonterminals. -/
theorem read_number {number number' : Nonterminal → SymbolId} {front : List (TokenKind × Token)} {ps : List Particle}
    (h : Read number .particleList front (.particles ps)) : Read number' .particleList front (.particles ps) := by
  have hread : ∃ node, Read number' .particleList front node ∧ node.shifted 0 = (Node.particles ps).shifted 0 := Read.relocate h rfl
  obtain ⟨node, hread, hnode⟩ := hread
  obtain ⟨qs, rfl, hqs⟩ := Node.shifted_eq_particles.mp hnode
  rw [movedAll_zero, movedAll_zero] at hqs
  rwa [← hqs]

/-- The particles of a source, read at another place. -/
theorem exists_read_moved {source : String} {ps : List Particle} (number : Nonterminal → SymbolId) (offset : Nat)
    (h : parse source = .ok ps) : ∃ front qs, front.map Prod.snd = (tokens source).map (·.shifted offset) ∧
      Read number .particleList front (.particles qs) ∧ movedAll nowhere qs = movedAll nowhere ps := by
  obtain ⟨_, front, hfront, hread⟩ := exists_read h
  have hlist := read_of_program hread fun r hr => plain_tokens source r.2 (hfront ▸ List.mem_map_of_mem hr)
  have hmoved : ∃ node, Read number .particleList (movedFront offset front) node ∧
      node.shifted 0 = (Node.particles ps).shifted offset := Read.relocate hlist (movedFront_zero _)
  obtain ⟨node, hmoved, hnode⟩ := hmoved
  obtain ⟨qs, rfl, hqs⟩ := Node.shifted_eq_particles.mp hnode
  exact ⟨_, qs, by rw [map_snd_movedFront, hfront], hmoved, movedAll_nowhere hqs⟩

/-- What is read of a source with an include between two other texts. -/
structure Surrounded (number : Nonterminal → SymbolId) (pre path post : String) (ps : List Particle)
    (before : List (TokenKind × Token)) (opening : TokenKind × Token) (after : List (TokenKind × Token)) : Prop where
  read : Read number .particleList (before ++ opening :: after) (.particles ps)
  before : before.map Prod.snd = tokens pre
  include_ : opening.2.symbol = TokenKind.include_.id
  line : opening.2 :: after.map Prod.snd = (tokens (includeLine path ++ post)).map (·.shifted (byteLength pre.toList))

theorem exists_surrounded {pre path post : String} {ps : List Particle} (hpre : Closed pre)
    (h : parse (pre ++ includeLine path ++ post) = .ok ps) : ∃ number before opening after,
      Surrounded number pre path post ps before opening after := by
  obtain ⟨number, front, hfront, hread⟩ := exists_read h
  have hlist := read_of_program hread fun r hr => plain_tokens _ r.2 (hfront ▸ List.mem_map_of_mem hr)
  obtain ⟨token, more, htokens, hsymbol⟩ := exists_include_token path post
  rw [String.append_assoc, tokens_append hpre.ends hpre.free (meets_of_begins _ (begins_includeLine path post))] at hfront
  obtain ⟨before, behind, rfl, hbefore, hbehind⟩ := List.map_eq_append_iff.mp hfront
  obtain ⟨opening, after, rfl, hopening, hafter⟩ := List.map_eq_cons_iff.mp (hbehind.trans (congrArg _ htokens))
  exact ⟨number, before, opening, after, hlist, hbefore, by rw [hopening]; exact hsymbol, hbehind⟩

namespace Surrounded

variable {number : Nonterminal → SymbolId} {pre path post : String} {ps : List Particle} {before after : List (TokenKind × Token)}
  {opening : TokenKind × Token}

theorem hasInclude (h : Surrounded number pre path post ps before opening after) : HasInclude (before ++ opening :: after) before after where
  stands := ⟨opening, rfl, h.include_⟩
  begins r hr := by
    have hlast : r.2 ∈ (tokens pre).getLast? := by
      rw [← h.before, List.getLast?_map, show before.getLast? = some r from hr]
      rfl
    exact tokenStretches_getLast r.2 hlast

theorem length_stretches (h : Surrounded number pre path post ps before opening after) :
    (stretchesOf before).length = stretchCount pre := by
  rw [stretchCount, ← h.before, List.flatMap_map]
  rfl

/-- The string of the include is a path in quotes. -/
theorem quotable (h : Surrounded number pre path post ps before opening after) {token close : Token} {rest : List (TokenKind × Token)}
    (hafter : after = (.string, token) :: (.newline, close) :: rest) : Quotable (unquote token.text).toList := by
  have hmem : (TokenKind.string, token) ∈ before ++ opening :: after := by simp [hafter]
  have hsymbol : token.symbol = TokenKind.string.id := symbol_of_admits (by decide) (h.read.admits _ hmem)
  have hmoved : token ∈ opening.2 :: after.map Prod.snd := by simp [hafter]
  rw [h.line] at hmoved
  obtain ⟨still, hstill, rfl⟩ := List.mem_map.mp hmoved
  obtain ⟨inner, htext, hquotable⟩ := quotable_of_mem_lineTokens hstill hsymbol
  rw [Token.text_shifted, toList_unquote htext hquotable]
  exact hquotable

/-- The tokens after the line of the include. -/
theorem exists_rest (h : Surrounded number pre path post ps before opening after) (hpath : Quotable path.toList) {token close : Token}
    {rest : List (TokenKind × Token)} (hafter : after = (.string, token) :: (.newline, close) :: rest) :
    ∃ still, still.map Prod.snd = tokens post ∧
      rest = movedFront (byteLength (includeLine path).toList + byteLength pre.toList) still := by
  have hline := h.line
  rw [(enclosed_includeLine hpath).tokens_append, List.map_append, hafter] at hline
  have hdrop := congrArg (List.drop 3) hline
  have hlength : ((tokens (includeLine path)).map (·.shifted (byteLength pre.toList))).length = 3 := by
    rw [List.length_map, length_tokens_includeLine hpath]
  rw [← hlength, List.drop_left, hlength] at hdrop
  refine exists_unmoved (hdrop.trans ?_)
  simp [Token.shifted, Span.shifted, Nat.add_assoc]

end Surrounded

/-- **A source with the text of a file in the place of an include is read as the same particles**, with those of the text in the
place of the include. -/
theorem parse_spliced {pre c post path : String} {ps content : List Particle} (hpre : Closed pre) (hc : Enclosed c)
    (hparse : parse (pre ++ includeLine path ++ post) = .ok ps) (hcontent : parse c = .ok content) :
    ∃ q, (∃ qs, Spliced q (movedAll nowhere content) (stretchCount pre) (movedAll nowhere ps) qs) ∧ (q = path →
      ∃ qs, parse (pre ++ c ++ post) = .ok qs ∧
        Spliced q (movedAll nowhere content) (stretchCount pre) (movedAll nowhere ps) (movedAll nowhere qs)) := by
  obtain ⟨number, before, opening, after, h⟩ := exists_surrounded hpre hparse
  obtain ⟨graft, inside, hgraft, hread, hinside⟩ := exists_read_moved number (byteLength pre.toList) hcontent
  obtain ⟨token, close, rest, hafter, hgrafted⟩ := Read.graft 0 0 h.read h.hasInclude hread
  rw [h.length_stretches, hinside] at hgrafted
  refine ⟨unquote token.text, ?_, fun hpath => ?_⟩
  · obtain ⟨qs, -, hspliced⟩ := hgrafted rest rfl
    exact ⟨_, hspliced⟩
  · have hquotable := h.quotable hafter
    rw [hpath] at hquotable
    obtain ⟨still, hstill, hrest⟩ := h.exists_rest hquotable hafter
    obtain ⟨token', close', rest', hafter', hgrafted⟩ := Read.graft (byteLength c.toList + byteLength pre.toList)
      (byteLength (includeLine path).toList + byteLength pre.toList) h.read h.hasInclude hread
    obtain ⟨rfl, -, rfl⟩ : token = token' ∧ close = close' ∧ rest = rest' := by simpa [hafter] using hafter'
    rw [h.length_stretches, hinside] at hgrafted
    obtain ⟨qs, hqs, hspliced⟩ := hgrafted (movedFront (byteLength c.toList + byteLength pre.toList) still) (by
      rw [hrest, movedFront_movedFront, movedFront_movedFront, Nat.add_comm])
    refine ⟨qs, parse_of_read ?_ fun number' => read_number hqs, hspliced⟩
    rw [String.append_assoc, Directive.tokens_append hpre.ends hpre.free (meets_of_begins _ (begins_append hc.begins hc.ends post)),
      hc.tokens_append, List.map_append, List.map_append, map_snd_movedFront, h.before, hgraft, hstill]
    simp [Token.shifted, Span.shifted, Nat.add_assoc]

/-- The stretches of the particles of a source are those of its tokens. -/
theorem stretches_of_parse {source : String} {ps : List Particle} (h : parse source = .ok ps) :
    (tokens source).flatMap tokenStretches = stretchesAll ps := by
  obtain ⟨_, front, hfront, hread⟩ := exists_read h
  have hlist := read_of_program hread fun r hr => plain_tokens source r.2 (hfront ▸ List.mem_map_of_mem hr)
  rw [← hfront, List.flatMap_map]
  exact hlist.laid.1

end Directive

/-! ## Sources -/

namespace Preprocess

variable {K : Library → Prop} {options : Options} {s : State}

/-- What every lookup keeps of a library, the processing of a header keeps. -/
theorem processHeader_keeps (hresolve : ∀ l r, K l → K (l.resolve r).2) (header : String) (hs : K s.library) :
    K (processHeader options header s).2.library := by
  rw [processHeader]
  split
  · exact hs
  · rw [processSource]
    cases Directive.parse header with
    | error e => exact hs
    | ok ps => exact (visitAll_keeps (includeFile_keeps hresolve _) ps hs).2

end Preprocess

namespace Preprocessor

open Preprocess
open Directive (Closed Enclosed includeLine stretchCount Particle TokenKind movedAll nowhere)

/-- The state after the header. -/
def headed (p : Preprocessor) : State := (processHeader p.options p.header (.initial p.options p.state.library)).2

/-- The steps of the visit of what a source reads as, after the header. -/
def stepsAfter (p : Preprocessor) : Except LanguageError (List Particle) → List Step
  | .error _ => []
  | .ok particles => traceAll p.options (includeFile p.options p.options.maxIncludeDepth) particles p.headed

/-- What a source gives that is read as some particles. -/
theorem process_of_headed (p : Preprocessor) {source front : String} {particles : List Particle}
    (hheader : (processHeader p.options p.header (.initial p.options p.state.library)).1 = .ok front)
    (hparse : Directive.parse source = .ok particles) : p.process source =
      (.ok (front ++ (visitAll p.options (includeFile p.options p.options.maxIncludeDepth) particles p.headed).1),
        { p with state := (visitAll p.options (includeFile p.options p.options.maxIncludeDepth) particles p.headed).2 }) := by
  have hbefore : processHeader p.options p.header (.initial p.options p.state.library) = (.ok front, p.headed) := Prod.ext hheader rfl
  rw [process, hbefore, processAfter, processSource, hparse]
  rfl

/-- **An include is textual splicing.** The text that the library gives for the path begins and ends with a directive and can be
read; the library may be any that gives the text whenever it is asked for it, as each does that answers it once and whose answers
do not depend on what it was asked before (`Library.Fixed.gives_iff`). The text before the include ends its last line, with no
block comment open and no directive going on. If the include is carried out and the limit of includes is not reached, then the
source with the text in the place of the include has the same output and leaves the same macros, version, line and log. -/
theorem process_spliced (p : Preprocessor) {pre c post path out : String} {r : Resource} {content : List Particle} {s : State}
    (hpath : Resource.ofPath path = .ok r) (hgives : p.state.library.Gives r c) (hc : Enclosed c)
    (hcontent : Directive.parse c = .ok content) (hpre : Closed pre)
    (hout : (p.process (pre ++ includeLine path ++ post)).1 = .ok out)
    (hincluded : (p.stepsAfter (Directive.parse (pre ++ includeLine path ++ post)))[stretchCount pre]? = some (.included path s))
    (hlimit : ¬LimitReached p.options p.options.maxIncludeDepth path s) :
    let included := (p.process (pre ++ includeLine path ++ post)).2.state
    let spliced := (p.process (pre ++ c ++ post)).2.state
    (p.process (pre ++ c ++ post)).1 = .ok out ∧ spliced.macros = included.macros ∧ spliced.version = included.version ∧
      spliced.line = included.line ∧ spliced.log = included.log := by
  -- the header is read, and so is the source
  obtain ⟨front, hheader⟩ : ∃ front, (processHeader p.options p.header (.initial p.options p.state.library)).1 = .ok front := by
    rcases processHeader_cases p.options p.header (.initial p.options p.state.library) with ⟨-, front, s', h⟩ | ⟨d, -, -, h⟩
    · exact ⟨front, by rw [h]⟩
    · rw [process, h] at hout
      cases hout
  cases hparse : Directive.parse (pre ++ includeLine path ++ post) with
  | error e =>
    rw [hparse] at hincluded
    cases hincluded
  | ok ps =>
    rw [hparse, stepsAfter, ← (visitAll_moved nowhere ps p.headed).2] at hincluded
    have hheaded : p.headed.library.Gives r c :=
      @processHeader_keeps _ _ (.initial p.options p.state.library) Library.Gives.resolve p.header hgives
    have hkeeps : Keeps (Library.Gives r c) (includeFile p.options p.options.maxIncludeDepth) :=
      includeFile_keeps Library.Gives.resolve _
    have hmeets : s.library.Gives r c := (visitAll_keeps hkeeps (movedAll nowhere ps) hheaded).1 _ (List.mem_of_getElem? hincluded)
    have hlast : (Directive.stretchesAll content).getLast? = some .directive := by
      obtain ⟨chars, hends, -⟩ := hc.closes
      rw [← Directive.stretches_of_parse hcontent]
      exact Directive.getLast?_stretches_tokens hends
    have hputs : PutsIn p.options (includeFile p.options p.options.maxIncludeDepth) path (movedAll nowhere content) s := by
      intro t ht
      rw [(visitAll_moved nowhere content t).1]
      exact includeFile_content hpath hmeets hcontent hlast hlimit t ht
    have hsteady : Steady (includeFile p.options p.options.maxIncludeDepth) := fun path t t' => includeFile_like _ path
    obtain ⟨q, ⟨qs, hspliced⟩, hnext⟩ := Directive.parse_spliced hpre hc hparse hcontent
    have hq : path = q := (visitAll_spliced hsteady hspliced (State.Like.refl p.headed) hincluded).1
    obtain ⟨qs, hparse', hspliced⟩ := hnext hq.symm
    rw [hq] at hputs hincluded
    obtain ⟨hsame, hafter⟩ := (visitAll_spliced hsteady hspliced (State.Like.refl p.headed) hincluded).2 hputs
    rw [(visitAll_moved nowhere ps p.headed).1, (visitAll_moved nowhere qs p.headed).1] at hsame hafter
    rw [p.process_of_headed hheader hparse] at hout ⊢
    rw [p.process_of_headed hheader hparse', ← hsame]
    exact ⟨hout, hafter.macros.symm, hafter.version.symm, hafter.line.symm, hafter.log.symm⟩

/-- What stands before the include of the guarded source. -/
def guardedFront : String := "#ifdef A\nx\n#endif\n"

/-- A file that is one definition. -/
def definingFile : String := "#define y 1\n"

theorem parse_definingFile : Directive.parse definingFile = .ok [.define ⟨"y", none, "1"⟩] := by
  have htokens : Directive.tokens definingFile = ⟨TokenKind.define.id, "#define", ⟨0, 7⟩⟩ :: ⟨TokenKind.identifier.id, "y", ⟨8, 9⟩⟩ ::
      [⟨TokenKind.intConstant.id, "1", ⟨10, 11⟩⟩] ++ [⟨TokenKind.newline.id, "\n", ⟨11, 12⟩⟩] := by decide +kernel
  exact Directive.parse_definition htokens rfl rfl rfl (by simp) (by simpa using ⟨.intConstant, rfl, rfl⟩) (by decide)

/-- A definition that is included behind a conditional stands for its text. -/
theorem process_spliced_guarded :
    let p := ofLibrary (.inMemory [(⟨["f"]⟩, definingFile)])
    let included := p.process (guardedFront ++ includeLine "f" ++ "y\n")
    let spliced := p.process (guardedFront ++ definingFile ++ "y\n")
    Enclosed definingFile ∧ Closed guardedFront ∧ (∃ s, .included "f" s ∈ p.stepsAfter (Directive.parse guardedSource) ∧
        ¬LimitReached p.options p.options.maxIncludeDepth "f" s) ∧
      ∃ out, included.1 = .ok out ∧ spliced.1 = .ok out ∧ spliced.2.state.macros = included.2.state.macros := by
  intro p included spliced
  have hsource : guardedFront ++ includeLine "f" ++ "y\n" = guardedSource := by decide
  have hc : Enclosed definingFile := ⟨by decide, .inr (by decide), definingFile.toList, by cbv, by decide⟩
  have hfront : Directive.endingOf guardedFront = .directive "#endif\n".toList := by cbv
  have hpre : Closed guardedFront := by
    refine ⟨.inr (by decide), ?_⟩
    rw [hfront]
    exact show Directive.continues "#endif\n".toList = false by decide
  obtain ⟨s, macros, hlibrary, hsteps⟩ : ∃ s macros, s.library = p.state.library ∧ p.stepsAfter (Directive.parse guardedSource) =
      [.directive, .skipped "x\n", .directive, .included "f" s, .expanded "y\n" macros] := by
    have hheaded : p.headed = .initial p.options p.state.library := congrArg Prod.snd (if_pos rfl)
    have hdefined : (State.initial p.options p.state.library).macros.isDefined "A" = false := by decide +kernel
    rw [parse_guardedSource, stepsAfter, guardedParticles, hheaded]
    simp only [traceAll, trace, traceBranches, State.decide, hdefined, if_neg Bool.false_ne_true, Directive.stretchesAll,
      Directive.Particle.stretches, List.append_nil, List.map_cons, List.map_nil, skip, List.cons_append, List.nil_append]
    refine ⟨_, _, ?_, rfl⟩
    simp only [visit, visitBranches, State.decide, hdefined, if_neg Bool.false_ne_true]
    rfl
  have hincluded : (p.stepsAfter (Directive.parse (guardedFront ++ includeLine "f" ++ "y\n")))[stretchCount guardedFront]? =
      some (.included "f" s) := by
    have hcount : stretchCount guardedFront = 3 := by decide +kernel
    rw [hsource, hsteps, hcount]
    rfl
  have hpath : Resource.ofPath "f" = .ok ⟨["f"]⟩ := by decide
  have hlimit : ¬LimitReached p.options p.options.maxIncludeDepth "f" s := by
    rintro ⟨r, source, ps, path, t, hr, htext, hps, hmem, -⟩
    obtain rfl := Except.ok.inj (hr.symm.trans hpath)
    rw [hlibrary] at htext
    obtain rfl : source = definingFile := Except.ok.inj (htext.symm.trans (by decide))
    obtain rfl := Except.ok.inj (hps.symm.trans parse_definingFile)
    simp [traceAll, trace] at hmem
  have hparse : Directive.parse (guardedFront ++ includeLine "f" ++ "y\n") = .ok guardedParticles := by
    rw [hsource, parse_guardedSource]
  obtain ⟨out, hout⟩ : ∃ out, included.1 = .ok out := ⟨_, process_of_parse rfl hparse⟩
  have hgives : p.state.library.Gives ⟨["f"]⟩ definingFile := (Library.fixed_inMemory _).gives_iff.mpr rfl
  obtain ⟨hspliced, hmacros, -⟩ := process_spliced p hpath hgives hc parse_definingFile hpre hout hincluded hlimit
  exact ⟨hc, hpre, ⟨s, by simp [hsteps], hlimit⟩, out, hout, hspliced, hmacros⟩

end Preprocessor

end ShaderFront
