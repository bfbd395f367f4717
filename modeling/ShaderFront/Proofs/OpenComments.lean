import Mathlib
import ShaderFront.Proofs.Lines

/-!
# Block comments over lines

A scan of a source from its start says of every line whether a block comment is open where it begins, and whether it begins a
directive, goes on with one or is text (`Directive.scanned`). The tokens of a source are those of its directives, and one text
token for each run of text lines (`Directive.Grouped`). Main statement: `Directive.grouped_of_closing`, the two agree on every
source in which no directive leaves a block comment open.

A directive that leaves a comment open is followed by lines that begin inside of it. They are read as if it were closed
(`Directive.hash_in_comment`).
-/

namespace ShaderFront.Directive

open Text (AreLines IsWhole)

/-! ## The state of a scan -/

/-- Whether a block comment is open at the end of some lines, given whether one is open at their start. A line comment hides what
stands after it on its line. -/
def commentOpen : Bool → List Char → Bool
  | inside, [] => inside
  | true, '*' :: '/' :: rest => commentOpen false rest
  | true, _ :: rest => commentOpen true rest
  | false, '/' :: '*' :: rest => commentOpen true rest
  | false, '/' :: '/' :: rest => commentOpen false (rest.dropWhile (· ≠ '\n'))
  | false, _ :: rest => commentOpen false rest
termination_by _ cs => cs.length
decreasing_by
  all_goals simp only [List.length_cons]
  all_goals first | omega | exact Nat.lt_succ_of_lt (Nat.lt_succ_of_le (List.dropWhile_suffix _).length_le)

/-- What is left of a line, and what follows it: only the last line may have no line break. -/
def Closes (line rest : List Char) : Prop := line = [] ∨ IsWhole line ∨ '\n' ∉ line ∧ rest = []

theorem Closes.tail {c : Char} {line rest : List Char} (h : Closes (c :: line) rest) :
    Closes line rest ∧ (line = [] → c = '\n' ∨ rest = []) := by
  rcases h with h | ⟨body, hbody, hflat⟩ | ⟨hflat, rfl⟩
  · cases h
  · cases body with
    | nil =>
      cases hbody
      exact ⟨.inl rfl, fun _ => .inl rfl⟩
    | cons d body =>
      obtain ⟨rfl, rfl⟩ := List.cons.inj hbody
      exact ⟨.inr (.inl ⟨body, rfl, fun h => hflat (List.mem_cons_of_mem c h)⟩), fun h => absurd h (by simp)⟩
  · exact ⟨.inr (.inr ⟨fun h => hflat (List.mem_cons_of_mem c h), rfl⟩), fun _ => .inr rfl⟩

/-- Two characters that begin or end a comment stand on one line. -/
theorem Closes.eq_cons {c d : Char} {line rest tail : List Char} (h : Closes (c :: line) rest) (hc : c ≠ '\n')
    (heq : line ++ rest = d :: tail) : ∃ line', line = d :: line' := by
  cases line with
  | nil =>
    obtain rfl := (h.tail.2 rfl).resolve_left hc
    cases heq
  | cons d' line' =>
    obtain rfl := (List.cons.inj heq).1
    exact ⟨line', rfl⟩

/-- A line comment ends with its line. -/
theorem Closes.dropWhile {line rest : List Char} (h : Closes line rest) :
    (line ++ rest).dropWhile (· ≠ '\n') = [] ∧ rest = [] ∨ (line ++ rest).dropWhile (· ≠ '\n') = '\n' :: rest ∨ line = [] := by
  rcases h with h | ⟨body, rfl, hflat⟩ | ⟨hflat, rfl⟩
  · exact .inr (.inr h)
  · refine .inr (.inl ?_)
    rw [List.append_assoc, List.dropWhile_append_of_pos fun c hc => ?_]
    · rfl
    · simpa using fun heq : c = '\n' => hflat (heq ▸ hc)
  · refine .inl ⟨?_, rfl⟩
    rw [List.append_nil, List.dropWhile_eq_nil_iff]
    intro c hc
    simpa using fun heq : c = '\n' => hflat (heq ▸ hc)

/-- **The comment state goes from line to line.** -/
theorem commentOpen_append {inside : Bool} {line rest : List Char} (h : Closes line rest) :
    commentOpen inside (line ++ rest) = commentOpen (endsInComment inside line) rest := by
  fun_induction endsInComment inside line with
  | case1 => rfl
  | case2 line ih =>
    rw [List.cons_append, List.cons_append, commentOpen]
    exact ih h.tail.1.tail.1
  | case3 c line hclose ih =>
    rw [List.cons_append, commentOpen, ih h.tail.1]
    rintro tail rfl htail
    obtain ⟨line', rfl⟩ := h.eq_cons (by decide) htail
    exact hclose line' rfl rfl
  | case4 line ih =>
    rw [List.cons_append, List.cons_append, commentOpen]
    exact ih h.tail.1.tail.1
  | case5 line =>
    rw [List.cons_append, List.cons_append, commentOpen]
    rcases h.tail.1.tail.1.dropWhile with ⟨hdrop, rfl⟩ | hdrop | rfl
    · rw [hdrop]
    · rw [hdrop, commentOpen]
      · nofun
      · nofun
    · obtain rfl := (h.tail.1.tail.2 rfl).resolve_left (by decide)
      rfl
  | case6 c line hopen hline ih =>
    rw [List.cons_append, commentOpen, ih h.tail.1]
    · rintro tail rfl htail
      obtain ⟨line', rfl⟩ := h.eq_cons (by decide) htail
      exact hopen line' rfl rfl
    · rintro tail rfl htail
      obtain ⟨line', rfl⟩ := h.eq_cons (by decide) htail
      exact hline line' rfl rfl

/-- Over whole lines the comment state is that of the lines one after the other. -/
theorem commentOpen_flatten {front : List (List Char)} (hfront : ∀ line ∈ front, IsWhole line) (start : Bool) (rest : List Char) :
    commentOpen start (front.flatten ++ rest) = commentOpen (front.foldl endsInComment start) rest := by
  induction front generalizing start with
  | nil => rfl
  | cons line front ih =>
    obtain ⟨hline, hfront⟩ := List.forall_mem_cons.mp hfront
    rw [List.flatten_cons, List.append_assoc, commentOpen_append (.inr (.inl hline)), ih hfront, List.foldl_cons]

/-! ## The scan of a source -/

/-- What a line is: it begins a directive, goes on with one, or is text. -/
inductive Role where
  /-- The directive comes with the lines it goes on with. -/
  | opens (directive : List Char)
  | goesOn
  | text
deriving DecidableEq, Repr

/-- A line of a source, with whether a block comment is open where it begins; a line that goes on with a directive belongs to
that. -/
structure Scanned where
  line : List Char
  inside : Bool
  role : Role
deriving DecidableEq, Repr

/-- Whether a text has a `*/`. -/
def hasClose : List Char → Bool
  | [] => false
  | '*' :: '/' :: _ => true
  | _ :: rest => hasClose rest

/-- Whether a directive leaves a block comment open: a `/*` is skipped that no `*/` follows. -/
def leavesOpen (directive : List Char) : Bool :=
  (scan cut 0 (withoutLineBreak directive)).any fun p => p.kind.isNone && isBlockComment p.chars && !hasClose (p.chars.drop 2)

/-- The lines of a text in order. `leaves` says which directives leave a block comment open, `run` is the text since the last
directive, and `start` says whether a block comment is open where that begins. -/
def scanLines (leaves : List Char → Bool) (start : Bool) (run : List Char) : List (List Char) → List Scanned
  | [] => []
  | line :: rest =>
    let inside := commentOpen start run
    if !inside && (line.find? fun c => !Text.isBlank c) = some '#' then
      let joined := joinContinued line rest
      ⟨line, inside, .opens joined.1⟩ :: (rest.take (rest.length - joined.2.length)).map (⟨·, false, .goesOn⟩) ++
        scanLines leaves (leaves joined.1) [] joined.2
    else ⟨line, inside, .text⟩ :: scanLines leaves start (run ++ line) rest
termination_by lines => lines.length
decreasing_by
  · exact Nat.lt_succ_of_le (length_joinContinued_le line rest)
  · simp

/-- The lines of a source, scanned from its start. -/
def scanned (leaves : List Char → Bool) (source : String) : List Scanned := scanLines leaves false [] (Text.lines source.toList)

/-- Tokens of scanned lines that begin at a byte offset: those of each directive, and one for each run of text lines. -/
inductive Grouped : Nat → List Scanned → List Token → Prop
  | nil {pos : Nat} : Grouped pos [] []
  | text {pos : Nat} {run rest : List Scanned} {chars : List Char} {tokens : List Token} : run ≠ [] → (∀ l ∈ run, l.role = .text) →
      (∀ l ∈ rest.head?, l.role ≠ .text) → chars = run.flatMap (·.line) → Grouped (pos + byteLength chars) rest tokens →
      Grouped pos (run ++ rest) (⟨TokenKind.text.id, String.ofList chars, ⟨pos, pos + byteLength chars⟩⟩ :: tokens)
  | directive {pos : Nat} {first : Scanned} {more rest : List Scanned} {directive : List Char} {tokens : List Token} :
      first.role = .opens directive → (∀ l ∈ more, l.role = .goesOn) → (∀ l ∈ rest.head?, l.role ≠ .goesOn) →
      directive = first.line ++ more.flatMap (·.line) → Grouped (pos + byteLength directive) rest tokens →
      Grouped pos (first :: more ++ rest) (directiveTokens pos directive ++ tokens)

/-- A directive and the lines it goes on with are the first of the lines. -/
theorem joinContinued_eq (directive : List Char) (all : List (List Char)) : ∃ more, all = more ++ (joinContinued directive all).2 ∧
    (joinContinued directive all).1 = directive ++ more.flatten ∧
    all.take (all.length - (joinContinued directive all).2.length) = more := by
  suffices h : ∃ more, all = more ++ (joinContinued directive all).2 ∧ (joinContinued directive all).1 = directive ++ more.flatten by
    obtain ⟨more, hall, hdirective⟩ := h
    refine ⟨more, hall, hdirective, ?_⟩
    generalize (joinContinued directive all).2 = rest at *
    rw [hall, List.length_append, Nat.add_sub_cancel, List.take_left']
    rfl
  induction all generalizing directive with
  | nil => exact ⟨[], rfl, by simp [joinContinued]⟩
  | cons line rest ih =>
    rw [joinContinued]
    split
    · obtain ⟨more, hrest, hdirective⟩ := ih (directive ++ line)
      exact ⟨line :: more, congrArg (line :: ·) hrest, by rw [hdirective, List.flatten_cons, List.append_assoc]⟩
    · exact ⟨[], rfl, by simp⟩

theorem isDirective_eq (line : List Char) : isDirective line = decide ((line.find? fun c => !Text.isBlank c) = some '#') := by
  rw [isDirective, Text.trimLeft, List.find?_not_eq_head?_dropWhile]

theorem head?_scanLines_ne {leaves : List Char → Bool} {start : Bool} {run : List Char} {all : List (List Char)} :
    ∀ l ∈ (scanLines leaves start run all).head?, l.role ≠ .goesOn := by
  intro l hl
  cases all with
  | nil =>
    rw [scanLines] at hl
    cases hl
  | cons line rest =>
    rw [scanLines] at hl
    split at hl <;> cases hl <;> nofun

/-! ## The tokens of a scanned source -/

/-- A run of text lines has one token, and none if it is empty. -/
theorem Grouped.run {pos offset : Nat} {run : List (List Char)} {before rest : List Scanned} {tokens : List Token}
    (hlines : before.map (·.line) = run.reverse) (htext : ∀ l ∈ before, l.role = .text)
    (hoffset : pos + byteLength run.reverse.flatten = offset) (hrest : ∀ l ∈ rest.head?, l.role ≠ .text)
    (h : Grouped offset rest tokens) : Grouped pos (before ++ rest) (textTokens offset run ++ tokens) := by
  cases run with
  | nil =>
    obtain rfl := List.map_eq_nil_iff.mp hlines
    rw [List.reverse_nil, List.flatten_nil] at hoffset
    obtain rfl : pos = offset := hoffset
    exact h
  | cons line run =>
    have hne : before ≠ [] := fun hnil => by simp [hnil] at hlines
    have hchars : (line :: run).reverse.flatten = before.flatMap (·.line) := by rw [← hlines, List.flatMap_def]
    have hgrouped := Grouped.text hne htext hrest hchars (by rwa [hoffset])
    rw [textTokens, ← hoffset, Nat.add_sub_cancel]
    exact hgrouped

/-- The tokens of lines are those of the lines scanned as if every directive closed its comments. -/
theorem grouped_lineTokens (inside : Bool) (offset : Nat) (run all : List (List Char)) : ∀ (start : Bool) (pos : Nat)
    (before : List Scanned), before.map (·.line) = run.reverse → (∀ l ∈ before, l.role = .text) → AreLines (run.reverse ++ all) →
    run.reverse.foldl endsInComment start = inside → pos + byteLength run.reverse.flatten = offset →
    Grouped pos (before ++ scanLines (fun _ => false) start run.reverse.flatten all) (lineTokens inside offset run all) := by
  have hopen : ∀ {start inside : Bool} {run rest : List (List Char)} {line : List Char}, AreLines (run.reverse ++ line :: rest) →
      run.reverse.foldl endsInComment start = inside → commentOpen start run.reverse.flatten = inside := by
    intro start inside run rest line hall hinside
    rw [← List.append_nil run.reverse.flatten, commentOpen_flatten (hall.front (List.cons_ne_nil line rest)), hinside, commentOpen]
  fun_induction lineTokens inside offset run all with
  | case1 inside offset run =>
    intro start pos before hlines htext _ _ hoffset
    have hgrouped : Grouped pos (before ++ []) (textTokens offset run ++ []) := .run hlines htext hoffset (by simp) .nil
    rw [scanLines]
    rwa [List.append_nil (textTokens offset run)] at hgrouped
  | case2 inside offset run line rest hdirective joined ih =>
    intro start pos before hlines htext hall hinside hoffset
    obtain ⟨more, hrest, hjoined, htake⟩ := joinContinued_eq line rest
    have hlast : AreLines joined.2 := by
      rw [hrest, ← List.cons_append, ← List.append_assoc] at hall
      exact hall.suffix
    have hgrouped := ih false (offset + byteLength joined.1) [] rfl (List.forall_mem_nil _) hlast rfl (by simp)
    rw [isDirective_eq] at hdirective
    rw [scanLines, hopen hall hinside, if_pos hdirective, List.append_assoc]
    refine .run hlines htext hoffset (fun l hl => ?_) (.directive rfl ?_ head?_scanLines_ne ?_ hgrouped)
    · cases hl
      exact Role.noConfusion
    · exact List.forall_mem_map.mpr fun _ _ => rfl
    · rw [htake, List.flatMap_map]
      simpa using hjoined
  | case3 inside offset run line rest hdirective ih =>
    intro start pos before hlines htext hall hinside hoffset
    have hline : (line :: run).reverse = run.reverse ++ [line] := List.reverse_cons
    have hgrouped := ih start pos (before ++ [⟨line, inside, .text⟩]) (by simp [hlines]) ?_ ?_ ?_ ?_
    · rw [isDirective_eq] at hdirective
      rw [scanLines, hopen hall hinside, if_neg hdirective]
      simpa using hgrouped
    · exact List.forall_mem_append.mpr ⟨htext, List.forall_mem_singleton.mpr rfl⟩
    · rwa [hline, List.append_assoc]
    · rw [hline, List.foldl_append, hinside]
      rfl
    · rw [hline, List.flatten_append, byteLength_append, ← Nat.add_assoc, hoffset]
      simp

/-- The lines of a scan are those of the text. -/
theorem map_line_scanLines (leaves : List Char → Bool) (start : Bool) (run : List Char) (all : List (List Char)) :
    (scanLines leaves start run all).map (·.line) = all := by
  fun_induction scanLines leaves start run all with
  | case1 => rfl
  | case2 start run line rest inside hdirective joined ih =>
    obtain ⟨more, hrest, -, htake⟩ := joinContinued_eq line rest
    rw [htake, List.map_append, ih, List.map_cons, List.map_map, List.cons_append]
    simpa [Function.comp_def] using hrest.symm
  | case3 start run line rest inside hdirective ih => rw [List.map_cons, ih]

/-- A line begins a directive if it goes on with none, its first character that is not blank is a `#`, and no comment is open. -/
theorem opens_iff_of_mem_scanLines {leaves : List Char → Bool} {start : Bool} {run : List Char} {all : List (List Char)} :
    ∀ l ∈ scanLines leaves start run all, (∃ directive, l.role = .opens directive) ↔
      l.role ≠ .goesOn ∧ (l.line.find? fun c => !Text.isBlank c) = some '#' ∧ l.inside = false := by
  fun_induction scanLines leaves start run all with
  | case1 => exact List.forall_mem_nil _
  | case2 start run line rest inside hdirective joined ih =>
    obtain ⟨hinside, hhash⟩ := (Bool.and_eq_true _ _).mp hdirective
    refine List.forall_mem_append.mpr ⟨List.forall_mem_cons.mpr ⟨?_, List.forall_mem_map.mpr fun _ _ => by simp⟩, ih⟩
    exact iff_of_true ⟨_, rfl⟩ ⟨nofun, of_decide_eq_true hhash, (Bool.not_eq_true' _).mp hinside⟩
  | case3 start run line rest inside hdirective ih =>
    refine List.forall_mem_cons.mpr ⟨iff_of_false nofun ?_, ih⟩
    rintro ⟨-, hhash, hinside⟩
    have hinside : inside = false := hinside
    exact hdirective (by simp [show (line.find? fun c => !Text.isBlank c) = some '#' from hhash, hinside])

/-- If no directive leaves a comment open, the scan is that in which every directive closes its comments. -/
theorem scanLines_eq_of_closing {leaves : List Char → Bool} {start : Bool} {run : List Char} {all : List (List Char)}
    (h : ∀ l ∈ scanLines leaves start run all, ∀ directive, l.role = .opens directive → leaves directive = false) :
    scanLines leaves start run all = scanLines (fun _ => false) start run all := by
  fun_induction scanLines leaves start run all with
  | case1 => rw [scanLines]
  | case2 start run line rest inside hdirective joined ih =>
    obtain ⟨hfirst, hrest⟩ := List.forall_mem_append.mp h
    have hjoined : leaves joined.1 = false := hfirst _ List.mem_cons_self _ rfl
    rw [hjoined] at ih hrest ⊢
    conv_rhs => rw [scanLines, if_pos hdirective]
    rw [ih hrest]
  | case3 start run line rest inside hdirective ih =>
    conv_rhs => rw [scanLines, if_neg hdirective]
    rw [ih (List.forall_mem_cons.mp h).2]

/-- **A `#` inside of a block comment begins no directive.** If no directive of a source leaves a block comment open, the tokens
are those of the scanned lines: a line begins a directive if and only if it goes on with none, its first character that is not
blank is a `#`, and no block comment is open where it begins; the other lines that go on with no directive are text. -/
theorem grouped_of_closing {source : String}
    (h : ∀ l ∈ scanned leavesOpen source, ∀ directive, l.role = .opens directive → leavesOpen directive = false) :
    (scanned leavesOpen source).map (·.line) = Text.lines source.toList ∧ Grouped 0 (scanned leavesOpen source) (tokens source) ∧
      ∀ l ∈ scanned leavesOpen source, (∃ directive, l.role = .opens directive) ↔
        l.role ≠ .goesOn ∧ (l.line.find? fun c => !Text.isBlank c) = some '#' ∧ l.inside = false := by
  refine ⟨map_line_scanLines .., ?_, opens_iff_of_mem_scanLines⟩
  rw [scanned, scanLines_eq_of_closing h]
  exact grouped_lineTokens false 0 [] _ false 0 [] rfl (List.forall_mem_nil _) (Text.areLines_lines _) rfl rfl

/-- A comment over two lines hides a `#`, and one that a directive closes hides nothing. -/
theorem grouped_of_closing_hidden :
    let source := "#define A /* x */\nint /* y\n#define B\n*/\n#define C \\\n1\n"
    (∀ l ∈ scanned leavesOpen source, ∀ directive, l.role = .opens directive → leavesOpen directive = false) ∧
      (scanned leavesOpen source).map (·.inside) = [false, false, true, true, false, false] ∧
      Grouped 0 (scanned leavesOpen source) (tokens source) := by
  intro source
  have hscanned : scanned leavesOpen source =
      [⟨"#define A /* x */\n".toList, false, .opens "#define A /* x */\n".toList⟩, ⟨"int /* y\n".toList, false, .text⟩,
        ⟨"#define B\n".toList, true, .text⟩, ⟨"*/\n".toList, true, .text⟩,
        ⟨"#define C \\\n".toList, false, .opens "#define C \\\n1\n".toList⟩, ⟨"1\n".toList, false, .goesOn⟩] := by decide +kernel
  have hcloses : leavesOpen "#define A /* x */\n".toList = false ∧ leavesOpen "#define C \\\n1\n".toList = false := by
    decide +kernel
  have h : ∀ l ∈ scanned leavesOpen source, ∀ directive, l.role = .opens directive → leavesOpen directive = false := by
    rw [hscanned]
    simpa using hcloses
  exact ⟨h, by rw [hscanned]; rfl, (grouped_of_closing h).2.1⟩

/-! ### Directives that leave a comment open -/

/-- There are as many newline tokens as lines that begin a directive. -/
theorem Grouped.count {pos : Nat} {ls : List Scanned} {tokens : List Token} (h : Grouped pos ls tokens) :
    tokens.countP (·.symbol = TokenKind.newline.id) = ls.countP fun l => l.role ≠ .goesOn ∧ l.role ≠ .text := by
  induction h with
  | nil => rfl
  | @text pos run rest chars tokens _ htext _ _ _ ih =>
    have hrun : run.countP (fun l => l.role ≠ .goesOn ∧ l.role ≠ .text) = 0 :=
      List.countP_eq_zero.mpr fun l hl => by simp [htext l hl]
    rw [List.countP_cons_of_neg (by simp [id_injective.eq_iff]), ih, List.countP_append, hrun, Nat.zero_add]
  | @directive pos first more rest directive tokens hfirst hmore _ _ _ ih =>
    have hpieces : (piecesTokens pos (withoutLineBreak directive)).countP (·.symbol = TokenKind.newline.id) = 0 := by
      refine List.countP_eq_zero.mpr fun token htoken => ?_
      obtain ⟨kind, hkind, hsymbol⟩ := exists_kind_of_mem_piecesTokens htoken
      simp only [hsymbol, id_injective.eq_iff, decide_eq_true_eq]
      rintro rfl
      cases hkind
    have hmore : more.countP (fun l => l.role ≠ .goesOn ∧ l.role ≠ .text) = 0 :=
      List.countP_eq_zero.mpr fun l hl => by simp [hmore l hl]
    have hlines : (first :: more).countP (fun l => l.role ≠ .goesOn ∧ l.role ≠ .text) = 1 := by
      rw [List.countP_cons_of_pos (by simp [hfirst]), hmore]
    rw [List.countP_append, directiveTokens, List.countP_append, hpieces, ih, List.countP_append, hlines]
    rfl

/-- **A `#` inside of a block comment can begin a directive.** The first directive leaves a comment open, so that the second line
begins inside of it; it is read as a directive all the same. -/
theorem hash_in_comment : ∃ source, ¬Grouped 0 (scanned leavesOpen source) (tokens source) := by
  refine ⟨"#define A /* x\n#define B 1\n*/\n", fun h => absurd h.count ?_⟩
  decide +kernel

end ShaderFront.Directive
