import Mathlib
import ShaderFront.Proofs.Definitions
import ShaderFront.Proofs.Rejoining

/-!
# Recorded macros

The body that a definition of one line records has the tokens of the body that was written (`Directive.Defines.expressionTokens`). The
macro printed as a directive defines it again (`Directive.Defines.reread`): its heading is cut into the tokens of a heading
(`Directive.Heading.exists_classify`), and its body was joined before, so it is joined to itself. Only a carriage return at the end of
the body is lost: printed, it is part of the line break.
-/

namespace ShaderFront

namespace Directive

variable {d : MacroDefinition} {opening body ts : List Token} {close : Token} {line content cs rest : List Char}

/-! ## One line -/

/-- A line with its line break is one line. -/
theorem lines_flat (h : '\n' ∉ content) : Text.lines (content ++ ['\n']) = [content ++ ['\n']] := by
  induction content with
  | nil => rfl
  | cons c content ih =>
    obtain ⟨hc, hcontent⟩ := not_or.mp (List.mem_cons.not.mp h)
    rw [List.cons_append, Text.lines, if_neg (Ne.symm hc), ih hcontent]

theorem tokens_of_line {source : String} (hline : Text.lines source.toList = [line]) :
    tokens source = if isDirective line then directiveTokens 0 line else textTokens (byteLength line) [line] := by
  rw [tokens, hline, lineTokens]
  cases isDirective line with
  | true => simp [joinContinued, lineTokens, textTokens]
  | false => simp [lineTokens]

theorem Heading.length_le (h : Heading d opening) : 2 ≤ opening.length := by
  cases h <;> simp

/-- A definition of one line is a directive. -/
theorem Defines.pieces {source : String} (h : Defines d (tokens source) opening body close)
    (hline : Text.lines source.toList = [line]) : piecesTokens 0 (withoutLineBreak line) = opening ++ body := by
  have hall := h.all
  rw [tokens_of_line hline] at hall
  split at hall
  · exact (List.append_inj' hall rfl).1
  · have hlength := congrArg List.length hall
    have hopening := h.heading.length_le
    simp only [textTokens, List.isEmpty_cons, Bool.false_eq_true, if_false, List.length_append, List.length_singleton] at hlength
    omega

theorem flat_of_lines {source : String} (hline : Text.lines source.toList = [line]) : '\n' ∉ withoutLineBreak line := by
  refine withoutLineBreak_flat ((Text.areLines_lines source.toList).of_mem ?_)
  rw [hline]
  exact List.mem_singleton_self line

/-! ## The body -/

/-- The body of a definition was cut off after its name or its parameters. -/
theorem Defines.exists_tail {source : String} (h : Defines d (tokens source) opening body close)
    (hline : Text.lines source.toList = [line]) (hne : body ≠ []) : ∃ start tail after, '\n' ∉ tail ∧ Begins tail ∧
      classify after (lexemesFrom start tail) = body ∧ after.last ≠ some .define ∧
        ∀ t ∈ body.head?, t.symbol ≠ TokenKind.macroParen.id := by
  obtain ⟨start, tail, after, htail, hbegins, hbody, -, hlast⟩ := exists_suffix 0 _ {} opening body hne (h.pieces hline)
  have hflat : '\n' ∉ tail := fun hmem => flat_of_lines hline (htail.subset hmem)
  have hright : ∀ {t : Token}, t ∈ opening.getLast? → t.symbol = TokenKind.parenRight.id → after.last = some .parenRight := by
    intro t ht hsymbol
    obtain ⟨kind, hafter, hkind⟩ := hlast t ht
    rw [hafter, id_injective (hkind.symm.trans hsymbol)]
  have hclosed : after.last = some .parenRight → after.last ≠ some .define ∧ ∀ t ∈ body.head?, t.symbol ≠ TokenKind.macroParen.id := by
    intro hafter
    refine ⟨by simp [hafter], hbody ▸ hbegins.not_macroParen ?_⟩
    rw [hafter]
    nofun
  refine ⟨start, tail, after, hflat, hbegins, hbody, ?_⟩
  cases h.heading with
  | @plain opening name hopening hname htext hnone =>
    refine ⟨?_, h.opens hnone⟩
    obtain ⟨kind, hafter, hkind⟩ := hlast name rfl
    rw [hafter, id_injective (hkind.symm.trans hname)]
    decide
  | empty hopening hname htext hleft hright' => exact hclosed (hright rfl hright')
  | formals hopening hname htext hleft hright' => exact hclosed (hright (List.getLast?_concat ..) hright')

/-- **The recorded body has the tokens of the body that was written.** -/
theorem Defines.expressionTokens {source : String} (h : Defines d (tokens source) opening body close)
    (hline : Text.lines source.toList = [line]) (hhash : '#' ∉ d.body.toList) :
    (Directive.expressionTokens d.body).map Token.written = (TokenKind.expressionStart.id, "") :: body.map Token.written := by
  rw [Directive.expressionTokens, List.map_cons]
  refine congrArg _ ?_
  rw [← h.joined] at hhash ⊢
  by_cases hne : body = []
  · subst hne
    rw [joinTokens, piecesTokens, String.toList_empty, scan]
    rfl
  obtain ⟨start, tail, after, hflat, hbegins, hbody, hlast, hparen⟩ := h.exists_tail hline hne
  obtain ⟨words, hdivides, hkinds, hwords⟩ := hbegins.divides_joinTokens hbody hflat hlast hparen hhash
  obtain ⟨front, hcarries, hpieces⟩ := carries_of_divides hdivides hkinds 0
  rw [hpieces, hwords, ← hcarries.written, List.map_map, List.map_map]
  exact List.map_congr_left fun r hr => Prod.ext (hcarries.own r hr) rfl

/-! ## The heading -/

theorem isName_of_cut {c : Char} (h : (cut c rest).kind = some .identifier) :
    isName (String.ofList (c :: rest.take (cut c rest).more)) = true := by
  have horigin := cut_phrase h rfl
  generalize (cut c rest).more = more at horigin
  generalize hkind : TokenKind.identifier = kind at horigin
  cases horigin with
  | literal => cases hkind
  | label hstart =>
    have hdefined : c :: rest.take (runLength isWordChar rest) ≠ "defined".toList := by
      intro heq
      rw [if_pos heq] at hkind
      cases hkind
    rw [isName, String.toList_ofList, isIdentifier, hstart, Bool.true_and, Bool.and_eq_true]
    refine ⟨List.all_eq_true.mpr fun d hd => Macro.of_mem_take_runLength hd, decide_eq_true fun heq => hdefined ?_⟩
    rw [← heq, String.toList_ofList]
  | mark _ hlongest =>
    subst hkind
    exact absurd (mem_marks_of_longestLiteral hlongest) (by decide)

/-- An identifier of a directive is a name. -/
theorem isName_of_mem {t : Token} {pos : Nat} (h : t ∈ piecesTokens pos cs) (hsymbol : t.symbol = TokenKind.identifier.id) :
    isName t.text = true := by
  obtain ⟨l, hl, htext, kind, hkind, hid⟩ := exists_kind_of_mem_classify h
  obtain rfl := id_injective (hid.symm.trans hsymbol)
  obtain ⟨c, rest, hcut, hchars⟩ := mem_lexemes hl
  rw [← hkind.resolve_left (by simp)] at hcut
  rw [htext, hchars]
  exact isName_of_cut hcut

/-- The parameters of a definition as a text. -/
def parametersText : Option (List String) → String
  | none => ""
  | some names => "(" ++ ", ".intercalate names ++ ")"

/-- The text of a definition in front of its body. -/
def headingText (d : MacroDefinition) : String := "#define " ++ d.name ++ parametersText d.parameters

theorem text_ofDefinition (d : MacroDefinition) : (Macro.ofDefinition d).text =
    headingText d ++ if d.body = "" then "" else " " ++ d.body := by
  obtain ⟨name, parameters, body⟩ := d
  unfold Macro.text headingText
  generalize "#define " = start
  dsimp only [Macro.ofDefinition]
  cases parameters <;> by_cases hbody : body = "" <;> simp [hbody, parametersText]

theorem toList_headingText (d : MacroDefinition) : (headingText d).toList =
    "#define".toList ++ ([' '] ++ (d.name.toList ++ (parametersText d.parameters).toList)) := by
  rw [headingText]
  simp

theorem Lists.ne_nil {names : List String} (h : Lists names ts) : names ≠ [] := by
  cases h <;> simp

theorem Lists.isName {names : List String} (h : Lists names ts)
    (hts : ∀ t ∈ ts, t.symbol = TokenKind.identifier.id → Directive.isName t.text = true) :
    ∀ name ∈ names, Directive.isName name = true := by
  induction h with
  | one hname => simpa using hts _ List.mem_cons_self hname
  | more _ _ hname ih =>
    obtain ⟨hfront, hback⟩ := List.forall_mem_append.mp hts
    exact List.forall_mem_append.mpr ⟨ih hfront, by simpa using hback _ (by simp) hname⟩

theorem classify_cons {context : Context} {l : Lexeme TokenKind} (h : l.kind ≠ .parenLeft) (lexemes : List (Lexeme TokenKind)) :
    classify context (l :: lexemes) = (Lexeme.own l).2 :: classify ⟨some l.kind, context.last, l.span.stop⟩ lexemes := by
  rw [classify]
  simp [h, Lexeme.own]

theorem stops_append {c : Char} (h : c ∈ [' ', '(', ')', ',']) (rest : List Char) : Stops ([c] ++ rest) := by
  rintro _ ⟨⟩
  exact h

/-- The token of a name at a byte offset. -/
def nameToken (name : String) (pos : Nat) : Token := ⟨TokenKind.identifier.id, name, ⟨pos, pos + byteLength name.toList⟩⟩

theorem classify_name {name : String} (hname : isName name = true) (hrest : Stops rest) (pos : Nat) (context : Context) :
    classify context (lexemesFrom pos (name.toList ++ rest)) = nameToken name pos ::
      classify ⟨some .identifier, context.last, pos + byteLength name.toList⟩ (lexemesFrom (pos + byteLength name.toList) rest) := by
  have hcuts : CutsOff (some .identifier) name.toList rest := (IsWord.name hname).cutsOff hrest
  rw [lexemesFrom_word hcuts, classify_cons (by simp), String.ofList_toList]
  rfl

/-- A name does not begin with white space. -/
theorem isGap_name {name : String} (hname : isName name = true) : ∀ c ∈ (name.toList ++ rest).head?, isGap c = false :=
  ((fronts_name hname).append rest).isGap_head

theorem intercalate_concat {names : List String} (hne : names ≠ []) (name : String) : (", ".intercalate (names ++ [name])).toList =
    (", ".intercalate names).toList ++ ([','] ++ ([' '] ++ name.toList)) := by
  obtain ⟨first, names, rfl⟩ := List.exists_cons_of_ne_nil hne
  rw [List.cons_append, toList_intercalate_cons, toList_intercalate_cons, List.flatMap_append, List.flatMap_singleton,
    List.append_assoc]
  rfl

theorem Lists.fronts {names : List String} (h : Lists names ts) (hnames : ∀ name ∈ names, Directive.isName name = true) :
    Fronts (", ".intercalate names).toList := by
  induction h with
  | one hname =>
    rw [String.intercalate_singleton]
    exact fronts_name (hnames _ List.mem_cons_self)
  | @more names ts comma name hlists _ _ ih =>
    rw [intercalate_concat hlists.ne_nil]
    exact (ih (List.forall_mem_append.mp hnames).1).append _

/-- The parameters of a definition are read again. -/
theorem Lists.exists_classify {names : List String} (h : Lists names ts) : (∀ name ∈ names, Directive.isName name = true) →
    ∀ {rest : List Char}, Stops rest → ∀ pos context, ∃ ts' next after, Lists names ts' ∧
      classify context (lexemesFrom pos ((", ".intercalate names).toList ++ rest)) = ts' ++ classify after (lexemesFrom next rest) := by
  induction h with
  | @one name hname =>
    intro hnames rest hrest pos context
    rw [String.intercalate_singleton, classify_name (hnames _ List.mem_cons_self) hrest]
    exact ⟨[_], _, _, @Lists.one (nameToken name.text pos) rfl, rfl⟩
  | @more names ts comma name hlists hcomma hname ih =>
    intro hnames rest hrest pos context
    obtain ⟨hfront, hback⟩ := List.forall_mem_append.mp hnames
    have hlast := hback _ List.mem_cons_self
    obtain ⟨ts', next, after, hlists', hclassify⟩ := @ih hfront ([','] ++ ([' '] ++ (name.text.toList ++ rest)))
      (stops_append (by simp) _) pos context
    have hmark : CutsOff (some .comma) [','] ([' '] ++ (name.text.toList ++ rest)) :=
      @cutsOff_mark (.comma, ",") (by decide) _ (stops_append (by simp) _).calm
    rw [intercalate_concat hlists.ne_nil, List.append_assoc, List.append_assoc, List.append_assoc, hclassify, lexemesFrom_word hmark,
      classify_cons (by simp), lexemesFrom_gap (cutsOff_gap (isGap_name hlast)), classify_name hlast hrest]
    have hmore := @Lists.more _ _ ⟨TokenKind.comma.id, ",", ⟨next, next + 1⟩⟩ (nameToken name.text (next + 1 + 1)) hlists' rfl rfl
    exact ⟨_, _, _, hmore, (List.append_assoc ts' [_, _] _).symm⟩

theorem eq_of_directiveWords_isPrefix : ∀ entry ∈ directiveWords, ∀ other ∈ directiveWords, entry.1 <+: other.1 → other = entry := by
  decide

/-- A directive word is cut off with its hash, whatever follows it. -/
theorem cutHash_word {entry : List Char × TokenKind} (hentry : entry ∈ directiveWords) (rest : List Char) :
    cutHash (entry.1 ++ rest) = ⟨some entry.2, entry.1.length⟩ := by
  have hbegins : ∀ entry ∈ directiveWords, entry.1.head?.any (fun c => c ≠ ' ' && c ≠ '\t') = true := by decide
  obtain ⟨c, hc, hplain⟩ := (Option.any_eq_true _ _).mp (hbegins entry hentry)
  obtain ⟨more, hmore⟩ := List.head?_eq_some_iff.mp hc
  have hblanks : runLength (fun c => c = ' ' || c = '\t') (entry.1 ++ rest) = 0 := by
    have hc : ¬(decide (c = ' ') || decide (c = '\t')) = true := by simpa using hplain
    rw [hmore, List.cons_append, runLength, if_neg hc]
  have hword : longestLiteral directiveWords (entry.1 ++ rest) = some (entry.2, entry.1.length) := by
    refine longestLiteral_eq hentry (by rw [hmore]; exact List.cons_ne_nil _ _) (List.prefix_append _ _) fun other hother hfront => ?_
    -- no directive word is the front of another one
    rcases List.prefix_or_prefix_of_prefix hfront (List.prefix_append entry.1 rest) with h | h
    · exact .inl (eq_of_directiveWords_isPrefix other hother entry hentry h).symm
    · exact .inl (eq_of_directiveWords_isPrefix entry hentry other hother h)
  unfold cutHash
  simp only [hblanks, List.drop_zero, Nat.zero_add, hword]

theorem cutsOff_hash {entry : List Char × TokenKind} (hentry : entry ∈ directiveWords) (rest : List Char) :
    CutsOff (some entry.2) ('#' :: entry.1) rest := by
  have hcut : ∀ text, cut '#' text = cutHash text := fun _ => rfl
  exact ⟨'#', entry.1, rfl, by rw [hcut, cutHash_word hentry]⟩

theorem cutsOff_define (rest : List Char) : CutsOff (some .define) "#define".toList rest :=
  @cutsOff_hash ("define".toList, .define) (by decide) rest

/-- The token that begins a definition. -/
def defineToken : Token := ⟨TokenKind.define.id, "#define", ⟨0, 7⟩⟩

/-- The heading of a definition is read again, up to its name. -/
theorem classify_define {name : String} (hname : isName name = true) (hrest : Stops rest) :
    classify {} (lexemesFrom 0 ("#define".toList ++ ([' '] ++ (name.toList ++ rest)))) =
      defineToken :: nameToken name 8 ::
        classify ⟨some .identifier, some .define, 8 + byteLength name.toList⟩ (lexemesFrom (8 + byteLength name.toList) rest) := by
  have hlength : byteLength "#define".toList = 7 := by decide
  rw [lexemesFrom_word (cutsOff_define _), classify_cons (by simp), lexemesFrom_gap (cutsOff_gap (isGap_name hname)),
    hlength, classify_name hname hrest, Lexeme.own, String.ofList_toList]
  rfl

/-- A parenthesis that touches the name gives the parameters. -/
theorem classify_macroParen (pos : Nat) (hrest : Calm rest) :
    classify ⟨some .identifier, some .define, pos⟩ (lexemesFrom pos (['('] ++ rest)) =
      ⟨TokenKind.macroParen.id, "(", ⟨pos, pos + 1⟩⟩ :: classify ⟨some .macroParen, some .identifier, pos + 1⟩ (lexemesFrom (pos + 1) rest) := by
  have hmark : CutsOff (some .parenLeft) ['('] rest := @cutsOff_mark (.parenLeft, "(") (by decide) _ hrest
  rw [lexemesFrom_word hmark, classify, if_pos (by simp)]
  rfl

theorem classify_parenRight (pos : Nat) (context : Context) (hrest : Calm rest) :
    classify context (lexemesFrom pos ([')'] ++ rest)) =
      ⟨TokenKind.parenRight.id, ")", ⟨pos, pos + 1⟩⟩ :: classify ⟨some .parenRight, context.last, pos + 1⟩ (lexemesFrom (pos + 1) rest) := by
  have hmark : CutsOff (some .parenRight) [')'] rest := @cutsOff_mark (.parenRight, ")") (by decide) _ hrest
  rw [lexemesFrom_word hmark, classify_cons (by simp)]
  rfl

/-- **The heading of a definition is read again.** -/
theorem Heading.exists_classify (h : Heading d opening) (hnames : ∀ t ∈ opening, t.symbol = TokenKind.identifier.id → isName t.text = true)
    (hrest : Stops rest) : ∃ opening' next after, Heading d opening' ∧
      classify {} (lexemesFrom 0 ((headingText d).toList ++ rest)) = opening' ++ classify after (lexemesFrom next rest) ∧
        (after.last = some .identifier → after.lastEnd = next) := by
  rw [toList_headingText, List.append_assoc, List.append_assoc, List.append_assoc]
  cases h with
  | @plain opening name hopening hname htext hnone =>
    have hisName : isName d.name = true := htext ▸ hnames name (by simp) hname
    have hplain := @Heading.plain d defineToken (nameToken d.name 8) rfl rfl rfl hnone
    rw [hnone, parametersText, String.toList_empty, List.nil_append, classify_define hisName hrest]
    exact ⟨_, _, _, hplain, rfl, fun _ => rfl⟩
  | @empty opening name left right hopening hname htext hleft hright hsome =>
    have hisName : isName d.name = true := htext ▸ hnames name (by simp) hname
    have hparameters : (parametersText (some [])).toList = ['('] ++ [')'] := by decide
    have hleft' : Stops (['('] ++ ([')'] ++ rest)) := stops_append (by simp) _
    have hright' : Stops ([')'] ++ rest) := stops_append (by simp) _
    have hempty := fun n => @Heading.empty d defineToken (nameToken d.name 8) ⟨TokenKind.macroParen.id, "(", ⟨n, n + 1⟩⟩
      ⟨TokenKind.parenRight.id, ")", ⟨n + 1, n + 1 + 1⟩⟩ rfl rfl rfl rfl rfl hsome
    rw [hsome, hparameters, List.append_assoc, classify_define hisName hleft', classify_macroParen _ hright'.calm,
      classify_parenRight _ _ hrest.calm]
    exact ⟨_, _, _, hempty _, rfl, nofun⟩
  | @formals opening name left right names ts hopening hname htext hleft hright hlists hsome =>
    have hisName : isName d.name = true := htext ▸ hnames name (by simp) hname
    have hparameters : (parametersText (some names)).toList = ['('] ++ ((", ".intercalate names).toList ++ [')']) := by
      simp [parametersText]
    have hnames' := hlists.isName fun t ht => hnames t (by simp [ht])
    have hleft' : Stops (['('] ++ ((", ".intercalate names).toList ++ ([')'] ++ rest))) := stops_append (by simp) _
    have hright' : Stops ([')'] ++ rest) := stops_append (by simp) _
    obtain ⟨ts', next, after, hlists', hclassify⟩ := hlists.exists_classify hnames' hright' (8 + byteLength d.name.toList + 1)
      ⟨some .macroParen, some .identifier, 8 + byteLength d.name.toList + 1⟩
    have hformals := fun n => @Heading.formals d defineToken (nameToken d.name 8) ⟨TokenKind.macroParen.id, "(", ⟨n, n + 1⟩⟩
      ⟨TokenKind.parenRight.id, ")", ⟨next, next + 1⟩⟩ names ts' rfl rfl rfl rfl rfl hlists' hsome
    rw [hsome, hparameters, List.append_assoc, List.append_assoc, classify_define hisName hleft',
      classify_macroParen _ ((hlists.fronts hnames').append _).calm, hclassify, classify_parenRight _ _ hrest.calm]
    exact ⟨_, _, _, hformals _, (List.append_assoc (_ :: _ :: _ :: ts') [_] _).symm, nofun⟩

/-! ## The definition again -/

/-- Whether a character is part of no line break. -/
def isInline (c : Char) : Bool := c ≠ '\n' && c ≠ '\r'

theorem isInline_of_isWordChar {c : Char} (h : isWordChar c = true) : isInline c = true := by
  have hne : ∀ d : Char, isWordChar d = false → c ≠ d := by
    rintro d hd rfl
    rw [hd] at h
    cases h
  simp [isInline, hne '\n' (by decide), hne '\r' (by decide)]

theorem isInline_name {name : String} (h : isName name = true) : ∀ c ∈ name.toList, isInline c = true := by
  have hidentifier := ((Bool.and_eq_true _ _).mp h).1
  intro c hc
  refine isInline_of_isWordChar ?_
  cases hname : name.toList with
  | nil =>
    rw [hname] at hc
    cases hc
  | cons d rest =>
    rw [hname] at hidentifier hc
    obtain ⟨hstart, hrest⟩ := (Bool.and_eq_true _ _).mp hidentifier
    rcases List.mem_cons.mp hc with rfl | hc
    · exact Macro.isWordChar_of_isWordStart hstart
    · exact List.all_eq_true.mp hrest c hc

theorem Lists.isInline {names : List String} (h : Lists names ts) (hnames : ∀ name ∈ names, Directive.isName name = true) :
    ∀ c ∈ (", ".intercalate names).toList, Directive.isInline c = true := by
  induction h with
  | one =>
    rw [String.intercalate_singleton]
    exact isInline_name (hnames _ List.mem_cons_self)
  | @more names ts comma name hlists _ _ ih =>
    obtain ⟨hfront, hback⟩ := List.forall_mem_append.mp hnames
    rw [intercalate_concat hlists.ne_nil]
    refine List.forall_mem_append.mpr ⟨ih hfront, ?_⟩
    simpa [Directive.isInline] using isInline_name (hback _ List.mem_cons_self)

theorem Heading.isInline (h : Heading d opening)
    (hnames : ∀ t ∈ opening, t.symbol = TokenKind.identifier.id → isName t.text = true) :
    ∀ c ∈ (headingText d).toList, Directive.isInline c = true := by
  have hdefine : ∀ c ∈ "#define".toList ++ [' '], Directive.isInline c = true := List.all_eq_true.mp (by decide)
  have hall : isName d.name = true → (∀ c ∈ (parametersText d.parameters).toList, Directive.isInline c = true) →
      ∀ c ∈ (headingText d).toList, Directive.isInline c = true := by
    intro hname hparameters
    rw [toList_headingText, ← List.append_assoc]
    exact List.forall_mem_append.mpr ⟨hdefine, List.forall_mem_append.mpr ⟨isInline_name hname, hparameters⟩⟩
  cases h with
  | @plain opening name hopening hname htext hnone =>
    refine hall (htext ▸ hnames name (by simp) hname) ?_
    rw [hnone, parametersText, String.toList_empty]
    exact List.forall_mem_nil _
  | @empty opening name left right hopening hname htext hleft hright hsome =>
    refine hall (htext ▸ hnames name (by simp) hname) ?_
    rw [hsome]
    exact List.all_eq_true.mp (by decide)
  | @formals opening name left right names ts hopening hname htext hleft hright hlists hsome =>
    refine hall (htext ▸ hnames name (by simp) hname) ?_
    have hparameters : (parametersText (some names)).toList = ['('] ++ ((", ".intercalate names).toList ++ [')']) := by
      simp [parametersText]
    have hinner := hlists.isInline (hlists.isName fun t ht => hnames t (by simp [ht]))
    rw [hsome, hparameters]
    exact List.forall_mem_append.mpr ⟨by simp [Directive.isInline], List.forall_mem_append.mpr ⟨hinner, by simp [Directive.isInline]⟩⟩

theorem withoutLineBreak_line (hlast : content.getLast? ≠ some '\r') : withoutLineBreak (content ++ ['\n']) = content := by
  have hreverse : (content ++ ['\n']).reverse = '\n' :: content.reverse := by simp
  rw [withoutLineBreak, hreverse]
  split
  · rename_i rest heq
    obtain ⟨-, heq⟩ := List.cons.inj heq
    rw [← List.head?_reverse, heq] at hlast
    exact absurd rfl hlast
  · rename_i rest _ heq
    rw [← (List.cons.inj heq).2, List.reverse_reverse]
  · rename_i heq
    cases heq
  · rename_i hnewline _
    exact absurd rfl (hnewline _)

/-- The tokens of a directive that is one line. -/
theorem tokens_line {text : String} (hhash : text.toList.head? = some '#') (hflat : '\n' ∉ text.toList)
    (hlast : text.toList.getLast? ≠ some '\r') : ∃ close : Token, close.symbol = TokenKind.newline.id ∧
      tokens (text ++ "\n") = piecesTokens 0 text.toList ++ [close] := by
  have hline : Text.lines (text ++ "\n").toList = [text.toList ++ ['\n']] := by
    rw [String.toList_append]
    exact lines_flat hflat
  have hdirective : isDirective (text.toList ++ ['\n']) = true := by
    obtain ⟨rest, hrest⟩ := List.head?_eq_some_iff.mp hhash
    rw [hrest]
    rfl
  rw [tokens_of_line hline, if_pos hdirective, directiveTokens, withoutLineBreak_line hlast]
  exact ⟨_, rfl, rfl⟩

/-- **A definition is read from the text of its heading**, if what follows is read as its body. -/
theorem Heading.reread (h : Heading d opening) (hnames : ∀ t ∈ opening, t.symbol = TokenKind.identifier.id → isName t.text = true)
    {text : String} (htext : text.toList = (headingText d).toList ++ rest) (hrest : Stops rest) (hflat : '\n' ∉ rest)
    (hlast : rest.getLast? ≠ some '\r')
    (hbody : ∀ next after, (after.last = some .identifier → after.lastEnd = next) →
      joinTokens (classify after (lexemesFrom next rest)) = d.body ∧
        ∀ t ∈ (classify after (lexemesFrom next rest)).head?, t.symbol ≠ TokenKind.macroParen.id) :
    parse (text ++ "\n") = .ok [.define d] := by
  obtain ⟨opening', next, after, hheading, hclassify, hafter⟩ := h.exists_classify hnames hrest
  obtain ⟨hjoined, hparen⟩ := hbody next after hafter
  have hinline := h.isInline hnames
  have hhead : text.toList.head? = some '#' := by
    have hdefine : "#define".toList = '#' :: "define".toList := by decide
    rw [htext, toList_headingText, hdefine]
    rfl
  have hne : '\n' ∉ text.toList := by
    rw [htext]
    exact List.not_mem_append (fun hmem => absurd (hinline _ hmem) (by decide)) hflat
  have hend : text.toList.getLast? ≠ some '\r' := by
    intro hend
    rw [htext, List.getLast?_append, Option.or_eq_some_iff] at hend
    rcases hend with hend | ⟨-, hend⟩
    · exact hlast hend
    · exact absurd (hinline _ (List.mem_of_getLast? hend)) (by decide)
  obtain ⟨close, hclose, htokens⟩ := tokens_line hhead hne hend
  have hpieces : piecesTokens 0 text.toList = opening' ++ classify after (lexemesFrom next rest) := by
    rw [htext]
    exact hclassify
  refine parse_define_iff.mpr ⟨opening', _, close, ⟨by rw [htokens, hpieces], hheading, hjoined, fun t ht => ?_, hclose, fun _ => hparen⟩⟩
  obtain ⟨kind, hkind, hsymbol⟩ := exists_kind_of_mem_piecesTokens (hpieces ▸ List.mem_append_right _ ht)
  refine admits_any hsymbol ?_
  cases kind <;> first | rfl | cases hkind

theorem Begins.lexemesFrom_blank (h : Begins cs) (pos : Nat) : lexemesFrom pos ([' '] ++ cs) = lexemesFrom (pos + 1) cs := by
  obtain ⟨c, rest, kind, rfl, hkind⟩ := h
  exact lexemesFrom_gap (cutsOff_blank hkind) pos

/-- **The printed macro is read as its definition**, unless a carriage return at its end is taken for part of the line break. -/
theorem Defines.reread {source : String} (h : Defines d (tokens source) opening body close)
    (hline : Text.lines source.toList = [line]) (hhash : '#' ∉ d.body.toList) (hlast : d.body.toList.getLast? ≠ some '\r') :
    parse ((Macro.ofDefinition d).text ++ "\n") = .ok [.define d] := by
  have hnames : ∀ t ∈ opening, t.symbol = TokenKind.identifier.id → isName t.text = true := fun t ht =>
    isName_of_mem (h.pieces hline ▸ List.mem_append_left body ht)
  rw [text_ofDefinition]
  by_cases hne : body = []
  · have hempty : d.body = "" := by
      rw [← h.joined, hne]
      rfl
    have hnil : ∀ next after, classify after (lexemesFrom next []) = [] := by
      intro next after
      rw [lexemesFrom, scan]
      rfl
    rw [if_pos hempty]
    refine @Heading.reread d opening [] h.heading hnames _ (by simp) (by simp [Stops]) (by simp) (by simp) fun next after _ => ?_
    rw [hnil, hempty]
    exact ⟨rfl, by simp⟩
  · obtain ⟨start, tail, after, hflat, hbegins, hbody, -, -⟩ := h.exists_tail hline hne
    have hjoined : d.body.toList = respelled false tail := by rw [← h.joined, ← hbody, hbegins.toList_joinTokens]
    rw [hjoined] at hhash hlast
    have hagain : respelled false (respelled false tail) = respelled false tail := respelled_respelled hflat hhash false
    have hbegins' := hbegins.respelled hflat hhash
    obtain ⟨c, rest, kind, hcons, -⟩ := hbegins'
    have hempty : d.body ≠ "" := by
      intro hempty
      rw [hempty, hcons] at hjoined
      cases hjoined
    rw [if_neg hempty]
    refine @Heading.reread d opening ([' '] ++ respelled false tail) h.heading hnames _ ?_ (stops_append (by simp) _) ?_ ?_ ?_
    · rw [String.toList_append, String.toList_append, hjoined]
      rfl
    · exact List.not_mem_append (by simp) (flat_respelled hflat)
    · rwa [List.getLast?_append_of_ne_nil _ (by simp [hcons])]
    · intro next after hafter
      rw [(hbegins.respelled hflat hhash).lexemesFrom_blank]
      refine ⟨String.toList_inj.mp ?_, (hbegins.respelled hflat hhash).not_macroParen fun hlast => ?_⟩
      · rw [(hbegins.respelled hflat hhash).toList_joinTokens, hagain, hjoined]
      · rw [hafter hlast]
        exact Nat.ne_of_lt (Nat.lt_succ_self next)

/-- **A recorded macro means what was written.** The body that a definition of one line records has the tokens of the body that was
written, and the macro printed as a directive defines it again, unless its body ends in a carriage return. -/
theorem define_reread {source : String} {d : MacroDefinition} (hline : ∃ line, Text.lines source.toList = [line])
    (hparse : parse source = .ok [.define d]) (hhash : '#' ∉ d.body.toList) :
    (∃ opening body close, Defines d (tokens source) opening body close ∧
      (expressionTokens d.body).map Token.written = (TokenKind.expressionStart.id, "") :: body.map Token.written) ∧
    (d.body.toList.getLast? ≠ some '\r' → parse ((Macro.ofDefinition d).text ++ "\n") = .ok [.define d]) := by
  obtain ⟨line, hline⟩ := hline
  obtain ⟨opening, body, close, hdefines⟩ := parse_define_iff.mp hparse
  exact ⟨⟨opening, body, close, hdefines, hdefines.expressionTokens hline hhash⟩, hdefines.reread hline hhash⟩

/-- The body of a macro with a parameter touches the parameters, and a comment is a gap in it. -/
theorem define_reread_comment :
    let source := "#define F(x)(x)/* c */+1\n"
    let d : MacroDefinition := ⟨"F", some ["x"], "(x) +1"⟩
    (∃ line, Text.lines source.toList = [line]) ∧ parse source = .ok [.define d] ∧ '#' ∉ d.body.toList ∧
      (∃ opening body close, Defines d (tokens source) opening body close ∧
        (expressionTokens d.body).map Token.written = (TokenKind.expressionStart.id, "") :: body.map Token.written) ∧
      d.body.toList.getLast? ≠ some '\r' ∧ parse ((Macro.ofDefinition d).text ++ "\n") = .ok [.define d] := by
  intro source d
  have hline : ∃ line, Text.lines source.toList = [line] := ⟨source.toList, by decide +kernel⟩
  have hhash : '#' ∉ d.body.toList := by decide +kernel
  have hlast : d.body.toList.getLast? ≠ some '\r' := by decide +kernel
  have hdefines : Defines d (tokens source) [⟨TokenKind.define.id, "#define", ⟨0, 7⟩⟩, ⟨TokenKind.identifier.id, "F", ⟨8, 9⟩⟩,
      ⟨TokenKind.macroParen.id, "(", ⟨9, 10⟩⟩, ⟨TokenKind.identifier.id, "x", ⟨10, 11⟩⟩, ⟨TokenKind.parenRight.id, ")", ⟨11, 12⟩⟩]
      [⟨TokenKind.parenLeft.id, "(", ⟨12, 13⟩⟩, ⟨TokenKind.identifier.id, "x", ⟨13, 14⟩⟩, ⟨TokenKind.parenRight.id, ")", ⟨14, 15⟩⟩,
        ⟨TokenKind.plus.id, "+", ⟨22, 23⟩⟩, ⟨TokenKind.intConstant.id, "1", ⟨23, 24⟩⟩] ⟨TokenKind.newline.id, "\n", ⟨24, 25⟩⟩ := by
    have hlists : Lists ["x"] [⟨TokenKind.identifier.id, "x", ⟨10, 11⟩⟩] :=
      @Lists.one ⟨TokenKind.identifier.id, "x", ⟨10, 11⟩⟩ rfl
    refine ⟨by decide +kernel, .formals rfl rfl rfl rfl rfl hlists rfl, by decide +kernel, ?_, rfl, nofun⟩
    simp only [List.forall_mem_cons]
    exact ⟨@admits_any .parenLeft _ rfl rfl, @admits_any .identifier _ rfl rfl, @admits_any .parenRight _ rfl rfl,
      @admits_any .plus _ rfl rfl, @admits_any .intConstant _ rfl rfl, List.forall_mem_nil _⟩
  have hparse : parse source = .ok [.define d] := parse_define_iff.mpr ⟨_, _, _, hdefines⟩
  obtain ⟨hbody, hprinted⟩ := define_reread hline hparse hhash
  exact ⟨hline, hparse, hhash, hbody, hlast, hprinted hlast⟩

/-- **A carriage return at the end of a body is lost.** A string that is not closed takes the first of two carriage returns; printed,
it is part of the line break. -/
theorem define_reread_return :
    let source := "#define A \"x\r\r\n"
    let d : MacroDefinition := ⟨"A", none, "\"x\r"⟩
    (∃ line, Text.lines source.toList = [line]) ∧ parse source = .ok [.define d] ∧ '#' ∉ d.body.toList ∧
      parse ((Macro.ofDefinition d).text ++ "\n") = .ok [.define ⟨"A", none, "\"x"⟩] ∧ d ≠ ⟨"A", none, "\"x"⟩ := by
  intro source d
  have hwild : ∃ kind : TokenKind, kind.isWild = true ∧ TokenKind.other.id = kind.id := ⟨.other, rfl, rfl⟩
  have hparse : parse source = .ok [.define d] := by
    have htokens : tokens source = ⟨TokenKind.define.id, "#define", ⟨0, 7⟩⟩ :: ⟨TokenKind.identifier.id, "A", ⟨8, 9⟩⟩ ::
        [⟨TokenKind.other.id, "\"x\r", ⟨10, 13⟩⟩] ++ [⟨TokenKind.newline.id, "\n", ⟨13, 15⟩⟩] := by decide +kernel
    exact parse_definition htokens rfl rfl rfl (by simp) (by simpa using hwild) (by decide)
  have hprinted : parse ((Macro.ofDefinition d).text ++ "\n") = .ok [.define ⟨"A", none, "\"x"⟩] := by
    have htokens : tokens ((Macro.ofDefinition d).text ++ "\n") = ⟨TokenKind.define.id, "#define", ⟨0, 7⟩⟩ ::
        ⟨TokenKind.identifier.id, "A", ⟨8, 9⟩⟩ :: [⟨TokenKind.other.id, "\"x", ⟨10, 12⟩⟩] ++
        [⟨TokenKind.newline.id, "\n", ⟨12, 14⟩⟩] := by decide +kernel
    exact parse_definition htokens rfl rfl rfl (by simp) (by simpa using hwild) (by decide)
  exact ⟨⟨source.toList, by decide +kernel⟩, hparse, by decide +kernel, hprinted, by decide⟩

end Directive

end ShaderFront
