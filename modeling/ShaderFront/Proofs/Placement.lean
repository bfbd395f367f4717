import Mathlib
import ShaderFront.Proofs.Identifiers
import ShaderFront.Proofs.Parsers

/-!
# Where the errors of an annotation are

The text of an annotation begins at a byte offset of its source, and the spans of its tokens move with this offset
(`Tag.tokens_shifted`). The engine and the rules look at no span, so a parse of moved tokens is the same parse with the
error moved (`Engine.run_shifted`), and an error is never outside the text (`Engine.run_within`). Before the first
token the engine is at the beginning of the source, whatever the offset: the error of a text without tokens does not
move (`Tag.parse_blank`).
-/

namespace ShaderFront

/-! ## What is moved -/

/-- Whether a span lies in a range of byte offsets. -/
def Span.Within (span : Span) (low high : Nat) : Prop := low ≤ span.start ∧ span.start ≤ span.stop ∧ span.stop ≤ high

/-- The piece moved to the right. -/
def Piece.shifted {κ : Type} (offset : Nat) (piece : Piece κ) : Piece κ := { piece with span := piece.span.shifted offset }

/-- The token moved to the right. -/
def Token.shifted (offset : Nat) (token : Token) : Token := { token with span := token.span.shifted offset }

@[simp] theorem Token.symbol_shifted (offset : Nat) (token : Token) : (token.shifted offset).symbol = token.symbol := rfl

@[simp] theorem Token.text_shifted (offset : Nat) (token : Token) : (token.shifted offset).text = token.text := rfl

/-- The element with its token moved to the right. -/
def Matched.shifted {N : Type} (offset : Nat) : Matched N → Matched N
  | .token t => .token (t.shifted offset)
  | .node s n => .node s n

/-- The error with its place moved to the right. -/
def LanguageError.shifted (offset : Nat) : LanguageError → LanguageError
  | .grammar e => .grammar e
  | .parse e => .parse (e.shifted offset)

section Matched

variable {N : Type} {offset : Nat} {element : Matched N}

@[simp] theorem Matched.symbol_shifted : (element.shifted offset).symbol = element.symbol := by cases element <;> rfl

@[simp] theorem Matched.kind_shifted : (element.shifted offset).kind = element.kind := by cases element <;> rfl

@[simp] theorem Matched.shifted_eq_node {symbol : SymbolId} {node : N} :
    element.shifted offset = .node symbol node ↔ element = .node symbol node := by
  cases element <;> simp [Matched.shifted]

@[simp] theorem Matched.shifted_eq_token {token : Token} :
    element.shifted offset = .token token ↔ ∃ before, element = .token before ∧ before.shifted offset = token := by
  cases element <;> simp [Matched.shifted]

end Matched

theorem ParseError.message_shifted (offset : Nat) (e : ParseError) : (e.shifted offset).message = e.message := by
  cases e <;> rfl

/-- An error without a place does not move. -/
theorem ParseError.shifted_of_span?_eq_none {e : ParseError} (h : e.span? = none) (offset : Nat) : e.shifted offset = e := by
  cases e <;> first | rfl | cases h

/-! ## Scanning from another offset -/

/-- A scan looks at no position. -/
theorem scan_shifted {κ : Type} (rule : Char → List Char → Cut κ) (offset pos : Nat) (cs : List Char) :
    scan rule (pos + offset) cs = (scan rule pos cs).map (·.shifted offset) := by
  fun_induction scan rule pos cs with
  | case1 pos => simp [scan]
  | case2 pos c rest cut chars stop ih =>
    rw [scan, List.map_cons, ← ih]
    have hstop : pos + offset + byteLength (c :: rest.take (rule c rest).more) = stop + offset := by
      simp only [stop, chars, cut]
      omega
    rw [hstop]
    rfl

/-- The pieces of a scan lie in its text. -/
theorem within_of_mem_scan {κ : Type} {rule : Char → List Char → Cut κ} {pos : Nat} {cs : List Char} {piece : Piece κ}
    (h : piece ∈ scan rule pos cs) : piece.span.Within pos (pos + byteLength cs) := by
  fun_induction scan rule pos cs with
  | case1 => cases h
  | case2 pos c rest cut chars stop ih =>
    have hlength : byteLength (c :: rest) = byteLength chars + byteLength (rest.drop cut.more) := by
      rw [← byteLength_append, List.cons_append, List.take_append_drop]
    rw [hlength]
    rcases List.mem_cons.mp h with rfl | hrest
    · exact ⟨Nat.le_refl _, Nat.le_add_right _ _, by simp only; omega⟩
    · obtain ⟨hstart, horder, hstop⟩ := ih hrest
      exact ⟨by omega, horder, by omega⟩

/-! ## Parsing moved tokens -/

namespace Engine

variable {σ N : Type} {t : Tables} {semantics : Semantics σ N} {offset : Nat}

/-- The stack element moved to the right. -/
def Frame.shifted (offset : Nat) (frame : Frame N) : Frame N := { frame with element := frame.element.shifted offset }

/-- The configuration with all tokens moved to the right. -/
def Config.shifted (offset : Nat) (c : Config σ N) : Config σ N where
  frames := c.frames.map (·.shifted offset)
  lookahead := c.lookahead.shifted offset
  rest := c.rest.map (·.shifted offset)
  lastEnd := c.lastEnd + offset
  memory := c.memory

/-- The outcome with its error moved to the right. -/
def Outcome.shifted (offset : Nat) (outcome : Outcome σ N) : Outcome σ N :=
  { outcome with result := outcome.result.mapError (·.shifted offset) }

/-- The move with all places moved to the right. -/
def Move.shifted (offset : Nat) : Move σ N → Move σ N
  | .next c => .next (c.shifted offset)
  | .done outcome => .done (outcome.shifted offset)

/-- The nodes do not depend on where the tokens are, and an error moves with them. -/
def Follows (semantics : Semantics σ N) (offset : Nat) : Prop := ∀ id body memory,
  semantics id (body.map (·.shifted offset)) memory =
    ((semantics id body memory).1.mapError (·.shifted offset), (semantics id body memory).2)

theorem nextToken_shifted (t : Tables) (offset lastEnd : Nat) (tokens : List Token) :
    nextToken t (lastEnd + offset) (tokens.map (·.shifted offset)) =
      ((nextToken t lastEnd tokens).1.shifted offset, (nextToken t lastEnd tokens).2.1.map (·.shifted offset),
        (nextToken t lastEnd tokens).2.2 + offset) := by
  cases tokens <;> rfl

theorem topState_shifted (frames : List (Frame N)) : topState (frames.map (·.shifted offset)) = topState frames := by
  cases frames <;> rfl

theorem stateStack_shifted (frames : List (Frame N)) : stateStack (frames.map (·.shifted offset)) = stateStack frames := by
  rw [stateStack, stateStack, List.map_map]
  rfl

theorem mismatch?_shifted (symbols : List SymbolId) (elements : List (Matched N)) :
    mismatch? t symbols (elements.map (·.shifted offset)) = mismatch? t symbols elements := by
  induction symbols generalizing elements with
  | nil => simp [mismatch?]
  | cons expected symbols ih =>
    cases elements with
    | nil => simp [mismatch?]
    | cons element elements => simp [mismatch?, ih]

theorem syntaxError_shifted (t : Tables) (offset : Nat) (state : StateId) (lookahead : Token) :
    syntaxError t state (lookahead.shifted offset) = (syntaxError t state lookahead).shifted offset := by
  rw [syntaxError, syntaxError]
  by_cases hend : lookahead.symbol = t.endOfInput
  · rw [if_pos (show (lookahead.shifted offset).symbol = t.endOfInput from hend), if_pos hend]
    rfl
  · rw [if_neg (show (lookahead.shifted offset).symbol ≠ t.endOfInput from hend), if_neg hend]
    rfl

theorem logEntry_shifted (offset : Nat) (e : ParseError) (frames : List (Frame N)) :
    logEntry (e.shifted offset) (frames.map (·.shifted offset)) = logEntry e frames := by
  rw [logEntry, logEntry, ParseError.message_shifted, stateStack_shifted]

theorem reduce_shifted (h : Follows semantics offset) (c : Config σ N) (id : ProductionId) :
    reduce t semantics (c.shifted offset) id = (reduce t semantics c id).shifted offset := by
  unfold reduce
  cases t.production? id with
  | none => rfl
  | some p =>
    have hlength : (c.shifted offset).frames.length = c.frames.length := List.length_map _
    have hbody : (((c.shifted offset).frames.take p.body.length).map (·.element)).reverse =
        (((c.frames.take p.body.length).map (·.element)).reverse).map (·.shifted offset) := by
      simp [Config.shifted, Frame.shifted, ← List.map_take, Function.comp_def]
    have hbelow : (c.shifted offset).frames.drop p.body.length = (c.frames.drop p.body.length).map (·.shifted offset) :=
      List.map_drop.symm
    have hmemory : (c.shifted offset).memory = c.memory := rfl
    simp only [hlength, hbody, mismatch?_shifted, hmemory, h id, hbelow, topState_shifted]
    split
    · rfl
    cases mismatch? t p.body (((c.frames.take p.body.length).map (·.element)).reverse) with
    | some found => rfl
    | none =>
      generalize semantics id (((c.frames.take p.body.length).map (·.element)).reverse) c.memory = built
      rcases built with ⟨_ | node, memory⟩
      · rfl
      · simp only [Except.mapError]
        cases t.goto (topState (c.frames.drop p.body.length)) p.head <;> rfl

theorem step_shifted (h : Follows semantics offset) (c : Config σ N) :
    step t semantics (c.shifted offset) = (step t semantics c).shifted offset := by
  have htop : topState (c.shifted offset).frames = topState c.frames := topState_shifted c.frames
  have hsymbol : (c.shifted offset).lookahead.symbol = c.lookahead.symbol := rfl
  unfold step
  rw [htop, hsymbol]
  cases t.action (topState c.frames) c.lookahead.symbol with
  | shift target =>
    have hnext := nextToken_shifted t offset c.lastEnd c.rest
    simp only [show (c.shifted offset).lastEnd = c.lastEnd + offset from rfl,
      show (c.shifted offset).rest = c.rest.map (·.shifted offset) from rfl, hnext]
    rfl
  | reduce id => exact reduce_shifted h c id
  | accept => rcases c with ⟨_ | ⟨⟨state, _ | _⟩, frames⟩, _⟩ <;> rfl
  | error =>
    have herror := syntaxError_shifted t offset (topState c.frames) c.lookahead
    have hlog := logEntry_shifted offset (syntaxError t (topState c.frames) c.lookahead) c.frames
    simp only [show (c.shifted offset).lookahead = c.lookahead.shifted offset from rfl,
      show (c.shifted offset).frames = c.frames.map (·.shifted offset) from rfl, herror, hlog]
    rfl

/-- A run over moved tokens. -/
theorem run_shifted (h : Follows semantics offset) (fuel : Nat) (c : Config σ N) :
    run t semantics fuel (c.shifted offset) = (run t semantics fuel c).shifted offset := by
  induction fuel generalizing c with
  | zero => rfl
  | succ fuel ih =>
    rw [run, run, step_shifted h]
    cases step t semantics c with
    | next d => exact ih d
    | done outcome => rfl

/-- A parse of moved tokens; without a token, there is nothing that moves. -/
theorem parse_shifted (h : Follows semantics offset) (fuel : Nat) {tokens : List Token} (hne : tokens ≠ []) (memory : σ) :
    parse t semantics fuel (tokens.map (·.shifted offset)) memory = (parse t semantics fuel tokens memory).shifted offset := by
  obtain ⟨token, rest, rfl⟩ := List.exists_cons_of_ne_nil hne
  exact run_shifted h fuel (start t (token :: rest) memory)

/-! ## Errors in the text -/

/-- All places of a configuration lie in a range. -/
structure Config.Within (low high : Nat) (c : Config σ N) : Prop where
  lookahead : c.lookahead.span.Within low high
  rest : ∀ token ∈ c.rest, token.span.Within low high
  lastEnd : low ≤ c.lastEnd ∧ c.lastEnd ≤ high

variable {low high : Nat}

theorem nextToken_within (t : Tables) {lastEnd : Nat} {tokens : List Token} (htokens : ∀ token ∈ tokens, token.span.Within low high)
    (hlow : low ≤ lastEnd) (hhigh : lastEnd ≤ high) :
    (nextToken t lastEnd tokens).1.span.Within low high ∧
      (∀ token ∈ (nextToken t lastEnd tokens).2.1, token.span.Within low high) ∧
      low ≤ (nextToken t lastEnd tokens).2.2 ∧ (nextToken t lastEnd tokens).2.2 ≤ high := by
  cases tokens with
  | nil => exact ⟨⟨hlow, Nat.le_refl _, hhigh⟩, htokens, hlow, hhigh⟩
  | cons token rest =>
    obtain ⟨htoken, hrest⟩ := List.forall_mem_cons.mp htokens
    obtain ⟨hstart, horder, hstop⟩ := htoken
    exact ⟨⟨hstart, horder, hstop⟩, hrest, hstart.trans horder, hstop⟩

theorem start_within {tokens : List Token} (htokens : ∀ token ∈ tokens, token.span.Within 0 high) (memory : σ) :
    (start t tokens memory : Config σ N).Within 0 high := by
  obtain ⟨hlookahead, hrest, hlast⟩ := nextToken_within t htokens (Nat.le_refl 0) (Nat.zero_le high)
  exact ⟨hlookahead, hrest, hlast⟩

/-- What the semantics refuses has no place. -/
def Placeless (semantics : Semantics σ N) : Prop :=
  ∀ {id body memory e}, (semantics id body memory).1 = .error e → e.span? = none

/-- One move stays in the range, or reports an error there. -/
theorem step_within (t : Tables) (h : Placeless semantics) {c : Config σ N} (hc : c.Within low high) :
    (∀ d, step t semantics c = .next d → d.Within low high) ∧
      ∀ outcome e span, step t semantics c = .done outcome → outcome.result = .error e → e.span? = some span →
        span.Within low high := by
  refine ⟨fun d hd => ?_, fun outcome e span hdone he hspan => ?_⟩
  · cases moving hd with
    | shift =>
      obtain ⟨hlookahead, hrest, hlast⟩ := nextToken_within t hc.rest hc.lastEnd.1 hc.lastEnd.2
      exact ⟨hlookahead, hrest, hlast⟩
    | reduce _ hreduce =>
      -- a reduction reads no token
      cases reducing hreduce with
      | built => exact ⟨hc.lookahead, hc.rest, hc.lastEnd⟩
  · cases moving hdone with
    | accept => cases he
    | bare =>
      cases he
      cases hspan
    | refuse =>
      cases he
      have hplace : (syntaxError t (topState c.frames) c.lookahead).span? = some c.lookahead.span := by
        rw [syntaxError]
        split <;> rfl
      obtain rfl := Option.some.inj (hplace.symm.trans hspan)
      exact hc.lookahead
    | reduce _ hreduce =>
      -- its errors have no place
      cases reducing hreduce with
      | unknown | short | mismatched | lost =>
        cases he
        cases hspan
      | refused _ hfail =>
        cases he
        rw [h (congrArg Prod.fst hfail)] at hspan
        cases hspan

/-- The error of a run is in the range of its tokens. -/
theorem run_within (h : Placeless semantics) {fuel : Nat} {c : Config σ N} (hc : c.Within low high) {e : ParseError}
    {span : Span} (he : (run t semantics fuel c).result = .error e) (hspan : e.span? = some span) :
    span.Within low high := by
  induction fuel generalizing c with
  | zero =>
    cases he
    cases hspan
  | succ fuel ih =>
    obtain ⟨hnext, hdone⟩ := step_within t h hc
    rw [run] at he
    cases hstep : step t semantics c with
    | next d =>
      rw [hstep] at he
      exact ih (hnext d hstep) he
    | done outcome =>
      rw [hstep] at he
      exact hdone outcome e span hstep he hspan

end Engine

namespace Language

variable {N : Type} {l : Language N} {offset : Nat}

theorem follows (h : ∀ r ∈ l.rules, ∀ elements,
    r.build (elements.map (·.shifted offset)) = (r.build elements).mapError (·.shifted offset)) :
    Engine.Follows l.semantics offset := by
  intro id body memory
  simp only [semantics, List.getElem?_toArray]
  cases hrule : l.rules[id]? with
  | none => rfl
  | some r =>
    simp only [Cursor.elementsOf_map fun _ => Matched.kind_shifted]
    cases htaken : (Cursor.mk id body).elementsOf (l.kinds (Text.words r.body)) with
    | error e =>
      have hplace := ParseError.shifted_of_span?_eq_none (Cursor.elementsOf_eq_error htaken) offset
      exact congrArg (fun e => (Except.error e, memory)) hplace.symm
    | ok elements => exact congrArg (·, memory) (h r (List.mem_of_getElem? hrule) elements)

theorem placeless (h : ∀ r ∈ l.rules, ∀ elements e, r.build elements = .error e → e.span? = none) :
    Engine.Placeless l.semantics := by
  intro id body memory e he
  simp only [semantics, List.getElem?_toArray] at he
  cases hrule : l.rules[id]? with
  | none =>
    rw [hrule] at he
    cases he
    rfl
  | some r =>
    rw [hrule] at he
    simp only at he
    split at he
    · exact h r (List.mem_of_getElem? hrule) _ e he
    · rename_i e' hfail
      cases he
      exact Cursor.elementsOf_eq_error hfail

theorem parse_shifted (h : Engine.Follows l.semantics offset) (table : Except GrammarError Table) {tokens : List Token}
    (hne : tokens ≠ []) :
    l.parse table (tokens.map (·.shifted offset)) = (l.parse table tokens).mapError (·.shifted offset) := by
  cases table with
  | error e => rfl
  | ok t =>
    simp only [parse, List.length_map, Engine.parse_shifted h _ hne]
    generalize Engine.parse t.tables l.semantics (t.moveBound tokens.length) tokens () = outcome
    rcases outcome with ⟨_ | node, _, _⟩ <;> rfl

theorem parse_within (h : Engine.Placeless l.semantics) {table : Except GrammarError Table} {tokens : List Token} {high : Nat}
    (htokens : ∀ token ∈ tokens, token.span.Within 0 high) {e : LanguageError} {span : Span}
    (he : l.parse table tokens = .error e) (hspan : e.span? = some span) : span.Within 0 high := by
  cases table with
  | error e' =>
    cases he
    cases hspan
  | ok t =>
    simp only [parse] at he
    split at he
    · cases he
    · rename_i e' hresult
      cases he
      exact Engine.run_within h (Engine.start_within htokens ()) hresult hspan

end Language

/-! ## Annotations -/

namespace Tag

variable {offset : Nat}

@[simp] theorem integerOf_shifted (token : Token) : integerOf (token.shifted offset) = integerOf token := rfl

@[simp] theorem floatOf_shifted (token : Token) : floatOf (token.shifted offset) = floatOf token := rfl

/-- No rule looks at a span. -/
theorem build_shifted : ∀ r ∈ rules, ∀ elements, r.build (elements.map (·.shifted offset)) = r.build elements := by
  simp only [rules, List.forall_mem_cons, List.not_mem_nil, false_implies, implies_true, and_true]
  and_intros <;> intro elements
  all_goals
    split <;> split <;> simp_all [List.map_eq_cons_iff] <;>
      grind [Token.text_shifted, integerOf_shifted, floatOf_shifted]

/-- What a rule refuses has no place. -/
theorem span?_of_build : ∀ r ∈ rules, ∀ elements e, r.build elements = .error e → e.span? = none := by
  have hinteger : ∀ {token : Token} {f : Int64 → Node} {e : ParseError}, (integerOf token).map f = .error e → e.span? = none := by
    intro token f e he
    rcases integerOf_cases token with ⟨i, hi⟩ | ⟨e', he', hmisread⟩
    · rw [hi] at he
      cases he
    · rw [he'] at he
      cases he
      cases hmisread <;> rfl
  have hfloat : ∀ {token : Token} {f : Binary64 → Node} {e : ParseError}, (floatOf token).map f = .error e → e.span? = none := by
    intro token f e he
    rcases floatOf_cases token with ⟨x, hx⟩ | ⟨e', he', hmisread⟩
    · rw [hx] at he
      cases he
    · rw [he'] at he
      cases he
      cases hmisread <;> rfl
  simp only [rules, List.forall_mem_cons, List.not_mem_nil, false_implies, implies_true, and_true]
  and_intros <;> intro elements e he
  all_goals
    split at he
    · first | exact hinteger he | exact hfloat he | cases he
    · cases he
      rfl

theorem follows (offset : Nat) : Engine.Follows language.semantics offset := by
  refine Language.follows fun r hr elements => ?_
  rw [build_shifted r hr]
  cases hbuild : r.build elements with
  | ok node => rfl
  | error e => exact congrArg _ (ParseError.shifted_of_span?_eq_none (span?_of_build r hr elements e hbuild) offset).symm

theorem placeless : Engine.Placeless language.semantics := Language.placeless span?_of_build

/-- The tokens move with the text. -/
theorem tokens_shifted (text : String) (offset : Nat) : tokens text offset = (tokens text 0).map (·.shifted offset) := by
  have hscan := scan_shifted cut offset 0 text.toList
  rw [Nat.zero_add] at hscan
  rw [tokens, tokens, hscan, List.filterMap_map, List.map_map, List.map_filterMap, List.map_filterMap]
  congr 1
  funext piece
  simp only [Function.comp_apply, Piece.lexeme?, Piece.shifted, Option.map_map]
  rfl

theorem tokens_within (text : String) : ∀ token ∈ tokens text 0, token.span.Within 0 (byteLength text.toList) := by
  intro token htoken
  obtain ⟨lexeme, hlexeme, rfl⟩ := List.mem_map.mp htoken
  obtain ⟨piece, hpiece, hsome⟩ := List.mem_filterMap.mp hlexeme
  obtain ⟨kind, -, rfl⟩ := Option.map_eq_some_iff.mp hsome
  simpa using within_of_mem_scan hpiece

/-- Only gaps are skipped. -/
theorem kind_cut_isSome {c : Char} (hc : isGap c = false) (rest : List Char) : (cut c rest).kind.isSome := by
  rw [cut, if_neg (by simp [hc])]
  dsimp only [cutQuoted]
  split
  · split <;> rfl
  split
  · split <;> rfl
  split
  · rfl
  split
  · rfl
  split <;> rfl

/-- A text has no tokens if all its characters are skipped. -/
theorem tokens_eq_nil_iff (text : String) (offset : Nat) : tokens text offset = [] ↔ ∀ c ∈ text.toList, isGap c = true := by
  rw [tokens, List.map_eq_nil_iff]
  generalize text.toList = cs
  fun_induction scan cut offset cs with
  | case1 => simp
  | case2 pos c rest next chars stop ih =>
    by_cases hc : isGap c = true
    · have hnext : next = ⟨none, runLength isGap rest⟩ := if_pos hc
      rw [List.filterMap_cons_none (by rw [hnext]; rfl), ih, hnext]
      have hfront : ∀ d ∈ rest.take (runLength isGap rest), isGap d = true := fun d hd => Macro.of_mem_take_runLength hd
      conv_rhs => rw [← List.take_append_drop (runLength isGap rest) rest]
      simp only [List.forall_mem_cons, List.forall_mem_append, hc, true_and]
      exact (and_iff_right hfront).symm
    · obtain ⟨kind, hkind⟩ := Option.isSome_iff_exists.mp (kind_cut_isSome (by simpa using hc) rest)
      rw [List.filterMap_cons_some (b := ⟨kind, String.ofList chars, ⟨pos, stop⟩⟩)
        (by rw [Piece.lexeme?, show next.kind = some kind from hkind]; rfl)]
      simp [hc]

/-- Every production reads a token. -/
theorem rules_read : List.Forall₂ (alphabet.Builds (fun _ => True) fun _ tokens _ => tokens ≠ []) rules productions := by
  simp only [rules, productions, List.forall₂_cons, List.forall₂_nil_left_iff, and_true, Alphabet.builds_iff,
    Alphabet.forall_fills_node, Alphabet.forall_fills_token, Alphabet.forall_fills_nil]
  simp only [ne_eq, List.append_eq_nil_iff, reduceCtorEq, not_false_eq_true, implies_true, and_true, not_and]
  tauto

/-- **The error of a text without tokens does not move**: it is at the beginning of the source. -/
theorem parse_blank (text : String) (h : ∀ c ∈ text.toList, isGap c = true) (offset : Nat) :
    ∃ expected, parse text offset = .error (.parse (.unexpectedEnd expected ⟨0, 0⟩)) := by
  have htokens := (tokens_eq_nil_iff text offset).mpr h
  rcases alphabet_covers.parse_answers tameness rules_fit (fun _ h => exists_kind_of_mem_tokens h)
    (fun _ _ => trivial) with ⟨node, hnode, -⟩ | ⟨e, he, herror⟩
  · exact absurd htokens (alphabet_covers.parse_attribute rules_read (fun _ h => exists_kind_of_mem_tokens h)
      (fun _ _ => trivial) hnode)
  · have hspan : ∀ span, e.span? = some span → span.Within 0 0 := fun span hspan =>
      Language.parse_within placeless (by simp [htokens]) he hspan
    rw [htokens] at herror
    cases herror with
    | unexpectedToken expected hmem => cases hmem
    | refused hmem => cases hmem
    | unexpectedEnd expected span =>
      obtain ⟨hstart, horder, hstop⟩ := hspan span rfl
      obtain ⟨start, stop⟩ := span
      obtain rfl : start = 0 := by simp_all
      obtain rfl : stop = 0 := by simp_all
      exact ⟨expected, congrArg tagsOf he⟩

/-- **The error of a text with a token moves with the text**, and it is in the text. -/
theorem parse_moved {text : String} (h : ∃ c ∈ text.toList, isGap c = false) (offset : Nat) :
    parse text offset = (parse text 0).mapError (·.shifted offset) := by
  have hne : tokens text 0 ≠ [] := by
    rw [ne_eq, tokens_eq_nil_iff]
    grind
  rw [parse, parse, tokens_shifted, Language.parse_shifted (follows offset) table hne]
  generalize language.parse table (tokens text 0) = parsed
  rcases parsed with _ | _ | _ | _ | _ <;> rfl

/-- The error of a text that begins its source is in the text. -/
theorem parse_within {text : String} {e : LanguageError} {span : Span} (he : parse text 0 = .error e)
    (hspan : e.span? = some span) : span.Within 0 (byteLength text.toList) := by
  rw [parse] at he
  cases hparsed : language.parse table (tokens text 0) with
  | ok node =>
    rw [hparsed] at he
    cases node <;> cases he
    all_goals cases hspan
  | error e' =>
    rw [hparsed] at he
    cases he
    exact Language.parse_within placeless (tokens_within text) hparsed hspan

theorem span?_shifted (offset : Nat) (e : LanguageError) : (e.shifted offset).span? = e.span?.map (·.shifted offset) := by
  rcases e with _ | e
  · rfl
  · cases e <;> rfl

/-- **Where the error of an annotation is**: in a text with a token it moves with the text and is in the text; without a
token it is at the beginning of the source. -/
theorem parse_placed (text : String) (offset : Nat) :
    ((∃ c ∈ text.toList, isGap c = false) →
      parse text offset = (parse text 0).mapError (·.shifted offset) ∧
      ∀ e span, parse text offset = .error e → e.span? = some span →
        span.Within offset (offset + byteLength text.toList)) ∧
    ((∀ c ∈ text.toList, isGap c = true) →
      ∃ expected, parse text offset = .error (.parse (.unexpectedEnd expected ⟨0, 0⟩))) := by
  refine ⟨fun h => ⟨parse_moved h offset, fun e span he hspan => ?_⟩, fun h => parse_blank text h offset⟩
  rw [parse_moved h offset] at he
  cases hparse : parse text 0 with
  | ok tags =>
    rw [hparse] at he
    cases he
  | error before =>
    rw [hparse] at he
    cases he
    rw [span?_shifted] at hspan
    obtain ⟨span, hbefore, rfl⟩ := Option.map_eq_some_iff.mp hspan
    obtain ⟨hstart, horder, hstop⟩ := parse_within hparse hbefore
    exact ⟨Nat.le_add_left _ _, Nat.add_le_add_right horder _, by simp only [Span.shifted]; omega⟩

/-- The error of an unclosed list moves with the annotation and is in it; that of a blank annotation is at the front. -/
theorem parse_placed_unclosed :
    parse " @range = [0, " 7 = (parse " @range = [0, " 0).mapError (·.shifted 7) ∧
    (∀ e span, parse " @range = [0, " 7 = .error e → e.span? = some span → span.Within 7 21) ∧
    ∃ expected, parse " \t" 7 = .error (.parse (.unexpectedEnd expected ⟨0, 0⟩)) := by
  obtain ⟨hmoved, hwithin⟩ := (parse_placed " @range = [0, " 7).1 ⟨'@', by simp, rfl⟩
  exact ⟨hmoved, hwithin, (parse_placed " \t" 7).2 (by simp [isGap])⟩

/-- The error of an empty annotation stays where it is, so that it is not in the annotation. -/
theorem empty_not_moved : parse "" 5 ≠ (parse "" 0).mapError (·.shifted 5) ∧
    ∃ e, parse "" 5 = .error e ∧ ∀ span, e.span? = some span → ¬ span.Within 5 5 := by
  obtain ⟨expected, hfive⟩ := parse_blank "" (by simp) 5
  obtain ⟨expected', hzero⟩ := parse_blank "" (by simp) 0
  refine ⟨?_, _, hfive, ?_⟩
  · rw [hfive, hzero]
    simp [Except.mapError, LanguageError.shifted, ParseError.shifted, Span.shifted]
  · rintro span hspan ⟨hstart, -, -⟩
    cases hspan
    cases hstart

end Tag

end ShaderFront
