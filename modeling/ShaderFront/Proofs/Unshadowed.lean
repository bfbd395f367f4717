import Mathlib
import ShaderFront.Proofs.Reading

/-!
# Where the wildcard is not shadowed

A token is taken as the wildcard where it has no action of its own. Merging states can give it one from another context
(`Grammar.wildcard_shadowed`), so that a table may refuse what its rules allow. `Outline.isLone` checks that this does not
happen: in every state that waits for the wildcard, no other terminal that it stands in for can be read or ends a production.

With that, what the rules read is parsed, whichever tokens are taken as the wildcard (`Alphabet.Covers.parse_admitted`).
-/

namespace ShaderFront

namespace Grammar

variable {g : Grammar} {c : Collection} {Q : Type} {holds : Q → Core → Prop} {follow : SymbolId → SymbolId → Prop}
  {marked : Core → Prop} {wild : SymbolId → Prop}

/-- A token that no item of a state demands an action for has the action of the wildcard. -/
theorem alike_of_undemanded {i : StateId} {S : ItemSet} {r : Taken} (hS : c.states[i]? = some S)
    (hstands : (g.tableOf c).standsFor r.symbol r.token.symbol = true)
    (hnone : ∀ item ∈ S, ∀ action, g.demand? (c.transitionsAt i) item ≠ some (.act r.token.symbol action)) :
    g.Alike c i r := by
  obtain ⟨hwildcard, hend, hexcluded⟩ := standsFor_iff.mp hstands
  have hget : (g.row (c.transitionsAt i) S).actions.get? r.token.symbol = none := by
    by_contra hsome
    obtain ⟨action, haction⟩ := Option.ne_none_iff_exists'.mp hsome
    obtain ⟨item, hitem, hdemand⟩ := mem_demands.mp ((meets_row i S).kept haction)
    exact hnone item hitem action hdemand
  have hrow : (g.tableOf c).rows[i]? = some (g.row (c.transitionsAt i) S) := by rw [getElem?_rows_tableOf, hS]; rfl
  have hopen : (g.tableOf c).isExcluded r.token.symbol = false := by
    have : ¬(r.token.symbol = (g.tableOf c).grammar.endOfInput ∨ r.token.symbol ∈ (g.tableOf c).grammar.exclusions) :=
      not_or.mpr ⟨hend, hexcluded⟩
    simpa [Table.isExcluded] using this
  have hwildcard' : (g.tableOf c).grammar.wildcard = some r.symbol := hwildcard
  simp only [Alike, Table.action, hrow, hget, hwildcard', hopen]
  cases (g.row (c.transitionsAt i) S).actions.get? r.symbol <;> simp

/-- On two accounts the wildcard is alone: where a core is marked, none of some terminals can be read, and none of them follows a
production that ends. -/
structure Lone (g : Grammar) (holds : Q → Core → Prop) (follow : SymbolId → SymbolId → Prop) (marked : Core → Prop)
    (wild : SymbolId → Prop) : Prop where
  covers : g.CoresWithin holds
  follows : g.Follows follow
  shift : ∀ {q : Q} {core core' : Core} {p : Production} {a : SymbolId}, holds q core → marked core → holds q core' →
    g.production? core'.production = some p → p.body[core'.dot]? = some a → g.isTerminal a = true → ¬wild a
  reduce : ∀ {q : Q} {core : Core} {id : ProductionId} {p : Production} {a : SymbolId}, holds q core → marked core →
    g.production? id = some p → holds q ⟨id, p.body.length⟩ → follow p.head a → ¬wild a

/-- A state with a marked core demands no action for those terminals. -/
theorem Lone.undemanded (h : g.Lone holds follow marked wild) (wf : g.WellFormed) (hc : g.Automaton c) {i : StateId}
    {S : ItemSet} {item : Item} (hS : c.states[i]? = some S) (hitem : item ∈ S) (hmarked : marked item.core) {a : SymbolId}
    (ha : wild a) : ∀ other ∈ S, ∀ action, g.demand? (c.transitionsAt i) other ≠ some (.act a action) := by
  intro other hother action hdemand
  have hjoined := hc.joined hS
  obtain ⟨q, hq⟩ := h.covers.joined wf hjoined
  rcases demand?_eq_act hdemand with ⟨t, hnext, hterminal, -, -⟩ | ⟨p, hp, hnone, hcase⟩
  · obtain ⟨p, hp, hsymbol⟩ := nextSymbol_eq_some.mp hnext
    exact h.shift (hq item hitem) hmarked (hq other hother) hp hsymbol hterminal ha
  · have hcore := hq other hother
    rw [Item.core, ((hjoined.isState wf).valid other hother).dot_eq hp hnone] at hcore
    have hlookahead : a = other.lookahead := by
      rcases hcase with ⟨-, hend, rfl, -⟩ | ⟨-, rfl, -⟩
      · exact hend.symm
      · rfl
    refine h.reduce (hq item hitem) hmarked hp hcore ?_ ha
    rw [hlookahead]
    exact h.follows.joined wf hjoined other hother p hp

end Grammar

/-! ## Outlines -/

namespace Outline

/-- The places of a body that wait for a code: it begins what is left of the body, or follows the head at the end. -/
def marksIn (s : Survey) (code head : Nat) : Nat → List Nat → Nat
  | at_, [] => bif (look s.follow head).testBit code then 2 ^ at_ else 0
  | at_, x :: rest =>
    Nat.lor (bif (s.firstOfAll (x :: rest)).testBit code then 2 ^ at_ else 0) (marksIn s code head (at_ + 1) rest)

/-- The places of an outline that wait for a code, from a production on. -/
def marks (s : Survey) (code : Nat) : Nat → Outline → Nat
  | _, [] => 0
  | id, (head, body) :: rest => Nat.lor (marksIn s code head (place id 0) body) (marks s code (id + 1) rest)

/-- Whether no terminal of a set can be read or ends a production at some places. -/
def isLone (o : Outline) (s : Survey) (places wild fuel : Nat) : Bool :=
  o.isSwept s ((places, wild) :: ends s 0 o) fuel

variable {o : Outline} {g : Grammar} {number : Nat → SymbolId} {s : Survey} {code : Nat}

theorem testBit_marksIn_first {head : Nat} : ∀ {body : List Nat} {at_ dot : Nat},
    (s.firstOfAll (body.drop dot)).testBit code = true → (marksIn s code head at_ body).testBit (at_ + dot) = true
  | [], _, _, h => by simp [Survey.firstOfAll] at h
  | x :: rest, at_, 0, h => by
    change ((bif _ then 2 ^ at_ else 0) ||| _).testBit at_ = true
    rw [List.drop_zero] at h
    rw [h, Nat.testBit_or, cond_true, Nat.testBit_two_pow_self, Bool.true_or]
  | x :: rest, at_, dot + 1, h => by
    have hrest : (marksIn s code head (at_ + 1) rest).testBit (at_ + 1 + dot) = true := testBit_marksIn_first h
    change (_ ||| marksIn s code head (at_ + 1) rest).testBit (at_ + (dot + 1)) = true
    rw [Nat.testBit_or, show at_ + (dot + 1) = at_ + 1 + dot by omega, hrest, Bool.or_true]

theorem testBit_marksIn_follow {head : Nat} (h : (look s.follow head).testBit code = true) : ∀ {body : List Nat} {at_ : Nat},
    (marksIn s code head at_ body).testBit (at_ + body.length) = true
  | [], at_ => by
    rw [marksIn, h, cond_true]
    exact Nat.testBit_two_pow_self
  | x :: rest, at_ => by
    have hrest : (marksIn s code head (at_ + 1) rest).testBit (at_ + 1 + rest.length) = true := testBit_marksIn_follow h
    change (_ ||| marksIn s code head (at_ + 1) rest).testBit (at_ + (rest.length + 1)) = true
    rw [Nat.testBit_or, show at_ + (rest.length + 1) = at_ + 1 + rest.length by omega, hrest, Bool.or_true]

/-- The marks of a production are marks of the outline. -/
theorem testBit_marks : ∀ {o : Outline} {start id head dot : Nat} {body : List Nat}, o[id]? = some (head, body) →
    (marksIn s code head (place (start + id) 0) body).testBit (place (start + id) 0 + dot) = true →
    (marks s code start o).testBit (place (start + id) dot) = true
  | [], _, _, _, _, _, h, _ => by simp at h
  | (head, body) :: rest, start, 0, head', dot, body', h, hbit => by
    cases h
    rw [Nat.add_zero] at hbit
    change (marksIn s code head (place start 0) body ||| _).testBit (place start dot) = true
    rw [Nat.testBit_or, show place start dot = place start 0 + dot by simp [place], hbit, Bool.true_or]
  | (head, body) :: rest, start, id + 1, head', dot, body', h, hbit => by
    rw [show start + (id + 1) = start + 1 + id by omega] at hbit ⊢
    have hrest : (marks s code (start + 1) rest).testBit (place (start + 1 + id) dot) = true :=
      testBit_marks (show rest[id]? = some (head', body') from h) hbit
    change (_ ||| marks s code (start + 1) rest).testBit _ = true
    rw [Nat.testBit_or, hrest, Bool.or_true]

/-- A core that waits for a code. -/
def Marked (o : Outline) (s : Survey) (code : Nat) (core : Core) : Prop :=
  (marks s code 0 o).testBit (place core.production core.dot) = true

theorem marked_of_first {id head dot : Nat} {body : List Nat} (ho : o[id]? = some (head, body))
    (h : (s.firstOfAll (body.drop dot)).testBit code = true) : o.Marked s code ⟨id, dot⟩ := by
  have hbit : (o.marks s code 0).testBit (place (0 + id) dot) = true := testBit_marks ho (testBit_marksIn_first h)
  rwa [Nat.zero_add] at hbit

theorem marked_of_follow {id head : Nat} {body : List Nat} (ho : o[id]? = some (head, body))
    (h : (look s.follow head).testBit code = true) : o.Marked s code ⟨id, body.length⟩ := by
  have hbit : (o.marks s code 0).testBit (place (0 + id) body.length) = true := testBit_marks ho (testBit_marksIn_follow h)
  rwa [Nat.zero_add] at hbit

/-- A symbol whose code is in a set, if it has one. -/
def Among (o : Outline) (number : Nat → SymbolId) (wild : Nat) (symbol : SymbolId) : Prop :=
  ∀ x, o.Mentions x → number x = symbol → wild.testBit x = true

/-- A core at one of some places. -/
def At (places : Nat) (core : Core) : Prop := places.testBit (place core.production core.dot) = true

/-- **An outline that passes the check keeps the wildcard alone** at the places. -/
theorem Describes.lone (h : o.Describes g number) (hs : s.isClosed o = true) (hdeep : o.isDeep s = true)
    {places wild fuel : Nat} (hlone : o.isLone s places wild fuel = true) :
    ∃ all, g.Lone (Holds (o.gates s) all) (s.Follow o number) (At places) (o.Among number wild) := by
  obtain ⟨all, hstart, hall⟩ := isSwept_settles hlone
  have hcores := h.coresWithin hs hdeep hstart hall
  -- in a set with a mark, the terminals are neither read nor taken
  have hmark : ∀ {set : Nat} {core : Core}, Holds (o.gates s) all set core → At places core →
      meets wild (readable (o.gates s) (expanded (o.gates s) set)) = false ∧
        apart (expanded (o.gates s) set) (ends s 0 o)
          (Nat.lor wild (readable (o.gates s) (expanded (o.gates s) set))) = true := by
    rintro set core ⟨hset, hbit⟩ hmarked
    have hfine := (hall set hset).1
    rw [isFine, apart_cons, meets_of_testBit hbit hmarked, cond_true, Bool.and_eq_true, Bool.not_eq_true'] at hfine
    exact hfine
  refine ⟨all, hcores, h.follows hs, ?_, ?_⟩
  · intro set core core' p a hcore hmarked hcore' hp ha hterminal hwild
    obtain ⟨head, body, x, ho, -, -, hx, rfl, hmx⟩ := h.exists_code hp ha
    rw [h.isTerminal hmx] at hterminal
    have hread := testBit_readable (gate_mem (s := s) ho (List.mem_of_getElem? hx)) (meets_gate hs ho hx hcore'.2)
      (show (s.gate x).read.testBit x = true by simp [Survey.gate, hterminal, Nat.testBit_two_pow_self])
    have hmeets := meets_of_testBit (hwild x hmx rfl) hread
    rw [(hmark hcore hmarked).1] at hmeets
    cases hmeets
  · intro set core id p a hcore hmarked hp hid hends hwild
    obtain ⟨stop, follow, y, hget, hmeets, hy, rfl, hfollow⟩ := h.exists_end hp hid.2 hends
    have htaken := apart_taken (hmark hcore hmarked).2 hget hmeets hfollow
    rw [show Nat.lor wild _ = wild ||| _ from rfl, Nat.testBit_or, hwild y hy rfl] at htaken
    cases htaken

theorem Tame.isClosed (tame : o.Tame) : (Survey.grown o tame.rounds).isClosed o = true ∧
    o.isDeep (Survey.grown o tame.rounds) = true := by
  have h := tame.isTame
  simp only [Outline.isTame, isSimple, Bool.and_eq_true] at h
  exact h.1.1

end Outline

/-! ## Alphabets -/

namespace Alphabet

open Outline

variable {K H N : Type} {a : Alphabet K H} {l : Language N} {s : Survey}

/-- The codes of the kinds that a kind stands in for, without itself. -/
def wildCodes (a : Alphabet K H) (any : K) : Nat :=
  a.kinds.foldr (fun kind codes => bif (a.terminal kind).wild && !Nat.beq (a.terminal kind).id (a.terminal any).id then
    Nat.lor (2 ^ a.code (.token kind)) codes else codes) 0

theorem testBit_wildCodes {any kind : K} (hmem : kind ∈ a.kinds) (hwild : (a.terminal kind).wild = true)
    (hne : (a.terminal kind).id ≠ (a.terminal any).id) : (a.wildCodes any).testBit (a.code (.token kind)) = true := by
  rw [wildCodes]
  generalize a.kinds = kinds at hmem
  have hbeq : Nat.beq (a.terminal kind).id (a.terminal any).id = false :=
    Bool.eq_false_iff.mpr fun heq => hne (Nat.eq_of_beq_eq_true heq)
  induction kinds with
  | nil => cases hmem
  | cons other kinds ih =>
    rw [List.foldr_cons]
    rcases List.mem_cons.mp hmem with rfl | hmem
    · rw [hwild, hbeq]
      exact (Nat.testBit_or ..).trans (by rw [Nat.testBit_two_pow_self, Bool.true_or])
    · cases (a.terminal other).wild && !Nat.beq (a.terminal other).id (a.terminal any).id with
      | false => exact ih hmem
      | true => exact (Nat.testBit_or ..).trans (by rw [ih hmem, Bool.or_true])

/-- **The wildcard of an alphabet is never shadowed** by the kinds it stands in for. -/
structure Unshadowed (a : Alphabet K H) (tame : a.outline.Tame) (any : K) : Prop where
  role : (a.terminal any).role = .wildcard
  lone : a.outline.isLone (Survey.grown a.outline tame.rounds)
    (marks (Survey.grown a.outline tame.rounds) (a.code (.token any)) 0 a.outline) (a.wildCodes any) tame.fuel = true

/-- Some kinds do not shadow the wildcard at some places, among which are all where a production ends before it. -/
structure Alone (a : Alphabet K H) (tame : a.outline.Tame) (any : K) (wild places : Nat) : Prop where
  lone : a.outline.isLone (Survey.grown a.outline tame.rounds) places wild tame.fuel = true
  ends : ∀ {id head : Nat} {body : List Nat}, a.outline[id]? = some (head, body) →
    (look (Survey.grown a.outline tame.rounds).follow head).testBit (a.code (.token any)) = true → At places ⟨id, body.length⟩

/-! ### What is read begins as the survey says -/

theorem getElem?_outline {id : Nat} {p : Spelling K H} (hp : a.productions[id]? = some p) :
    a.outline[id]? = some (a.code (.node p.head), p.body.map a.code) := by
  rw [outline, List.getElem?_map, hp]
  rfl

@[simp]
theorem isToken_code_token (kind : K) : isToken (a.code (.token kind)) = true := by
  simp [isToken, code]

@[simp]
theorem isToken_code_node (head : H) : isToken (a.code (.node head)) = false := by
  rw [isToken, code, Nat.mul_add_mod]
  rfl

/-- The first token of a sequence is one that the survey has, and a sequence without tokens may vanish. -/
def Begins (a : Alphabet K H) (first : Nat) (vanishes : Bool) (front : List (K × Token)) : Prop :=
  (∀ r ∈ front.head?, first.testBit (a.code (.token r.1)) = true) ∧ (front = [] → vanishes = true)

theorem Begins.token (kind : K) (token : Token) (rest : List (K × Token)) (codes : List Nat) :
    a.Begins (s.firstOfAll (a.code (.token kind) :: codes)) (s.vanishes (a.code (.token kind) :: codes))
      ((kind, token) :: rest) := by
  refine ⟨fun r hr => ?_, nofun⟩
  cases hr
  have hfirst : (s.firstOf (a.code (.token kind))).testBit (a.code (.token kind)) = true := by
    rw [Survey.firstOf, isToken_code_token, cond_true, Nat.testBit_two_pow_self]
  rw [Survey.firstOfAll]
  cases s.vanishing.testBit (a.code (.token kind)) with
  | false => exact hfirst
  | true => exact (Nat.testBit_or ..).trans (by rw [hfirst, Bool.true_or])

theorem Begins.node {head : H} {front rest : List (K × Token)} {codes : List Nat}
    (hfront : a.Begins (look s.first (a.code (.node head))) (s.vanishing.testBit (a.code (.node head))) front)
    (hrest : a.Begins (s.firstOfAll codes) (s.vanishes codes) rest) :
    a.Begins (s.firstOfAll (a.code (.node head) :: codes)) (s.vanishes (a.code (.node head) :: codes)) (front ++ rest) := by
  have hfirst : s.firstOf (a.code (.node head)) = look s.first (a.code (.node head)) := by
    rw [Survey.firstOf, isToken_code_node, cond_false]
  rw [Survey.firstOfAll, Survey.vanishes, List.all_cons, hfirst]
  cases front with
  | nil =>
    have hvanish := hfront.2 rfl
    rw [hvanish, cond_true, Bool.true_and, List.nil_append]
    exact ⟨fun r hr => (Nat.testBit_or ..).trans (by rw [hrest.1 r hr, Bool.or_true]), hrest.2⟩
  | cons r front =>
    refine ⟨fun r' hr' => ?_, fun hnil => absurd hnil (List.cons_ne_nil _ _)⟩
    have hbit := hfront.1 r' hr'
    cases s.vanishing.testBit (a.code (.node head)) with
    | false => exact hbit
    | true => exact (Nat.testBit_or ..).trans (by rw [hbit, Bool.true_or])

/-- A token comes after the dot of a production where the survey has it. -/
def Foreseen (a : Alphabet K H) (s : Survey) (id dot : Nat) (r : K × Token) : Prop :=
  ∃ head body, a.outline[id]? = some (head, body) ∧ (s.firstOfAll (body.drop dot)).testBit (a.code (.token r.1)) = true

/-- What is known of a token that comes after a dot, besides what is required of it. -/
def Inside (a : Alphabet K H) (s : Survey) (clear : Nat → Nat → K × Token → Prop) (id dot : Nat) (r : K × Token) : Prop :=
  clear id dot r ∧ 0 < dot ∧ a.Foreseen s id dot r

variable {number : H → SymbolId} {clear : Nat → Nat → K × Token → Prop}

mutual

theorem Reads.inside (hs : s.isClosed a.outline = true) : ∀ {head : H} {front : List (K × Token)} {node : N},
    a.Reads l number clear head front node → a.Reads l number (a.Inside s clear) head front node ∧
      a.Begins (look s.first (a.code (.node head))) (s.vanishing.testBit (a.code (.node head))) front
  | _, _, _, @Reads.rule _ _ _ _ _ _ _ id r p elements front node hr hp hbody hbuild => by
    have ho := getElem?_outline hp
    obtain ⟨hbody, hbegins⟩ := ReadsAll.inside hs ho hbody (List.drop_zero ..)
    have hfits := Survey.fits hs ho
    exact ⟨.rule hr hp hbody hbuild, fun r hr => hfits.first (hbegins.1 r hr), fun hnil => hfits.vanishing (hbegins.2 hnil)⟩

theorem ReadsAll.inside (hs : s.isClosed a.outline = true) {head : Nat} {body : List Nat} : ∀ {id dot : Nat}
    {words : List (Word K H)} {elements : List (Matched N)} {front : List (K × Token)}, a.outline[id]? = some (head, body) →
    a.ReadsAll l number clear id dot words elements front → body.drop dot = words.map a.code →
    a.ReadsAll l number (a.Inside s clear) id dot words elements front ∧
      a.Begins (s.firstOfAll (words.map a.code)) (s.vanishes (words.map a.code)) front
  | _, _, _, _, _, _, .nil, _ => ⟨.nil, nofun, fun _ => rfl⟩
  | id, dot, _, _, _, ho, @ReadsAll.token _ _ _ _ _ _ _ _ _ kind token words elements rest hadmits hclear hrest, hdrop => by
    have hnext := (getElem?_of_drop hdrop).2
    obtain ⟨hrest, hbegins⟩ := ReadsAll.inside hs ho hrest hnext
    refine ⟨.token hadmits (fun r hr => ⟨hclear r hr, Nat.succ_pos dot, head, body, ho, ?_⟩) hrest,
      Begins.token kind token rest _⟩
    rw [hnext]
    exact hbegins.1 r hr
  | id, dot, _, _, _, ho, @ReadsAll.node _ _ _ _ _ _ _ _ _ head' front node words elements rest hread hclear hrest, hdrop => by
    have hnext := (getElem?_of_drop hdrop).2
    obtain ⟨hrest, hbegins⟩ := ReadsAll.inside hs ho hrest hnext
    obtain ⟨hread, hfront⟩ := Reads.inside hs hread
    refine ⟨.node hread (fun r hr => ⟨hclear r hr, Nat.succ_pos dot, head, body, ho, ?_⟩) hrest, Begins.node hfront hbegins⟩
    rw [hnext]
    exact hbegins.1 r hr

end

namespace Covers

variable (h : a.Covers l) {g : Grammar} {names : String → SymbolId} {codes : Nat → SymbolId} {c : Collection} {any : K}
  {clear : Nat → Nat → K × Token → Prop}

include h

/-- A code of the outline that has the number of a word is the code of the word. -/
theorem code_eq (hnumber : l.Numbered g names) (hdescribes : a.outline.Describes g codes)
    (hcodes : ∀ word, codes (a.code word) = names (a.name word)) {x : Nat} (hx : a.outline.Mentions x) {word : Word K H}
    (heq : codes x = names (a.name word)) : x = a.code word := by
  rcases h.exists_word hx with rfl | ⟨other, rfl⟩
  · rw [← hdescribes.endOfInput] at heq
    exact absurd heq.symm (hnumber.endOfInput (h.uses word))
  · rw [hcodes] at heq
    rw [h.name_injective (hnumber.injective (h.uses other) (h.uses word) heq)]

/-- A token of a kind that does not shadow the wildcard can be taken as it, where it is clear. -/
theorem canTake_alone (hnumber : l.Numbered g names) (hc : g.Automaton c) {tame : a.outline.Tame}
    (hrole : (a.terminal any).role = .wildcard) {wild places : Nat} (halone : a.Alone tame any wild places) {kind : K}
    {token : Token} (hsymbol : token.symbol = (a.terminal kind).id) (hwild : (a.terminal kind).wild = true)
    (hcode : wild.testBit (a.code (.token kind)) = true)
    (hclear : ∀ id dot, clear id dot (any, token) → places.testBit (place id dot) = true) :
    a.CanTake g c clear (any, token) := by
  obtain ⟨codes, hdescribes, hcodes⟩ := h.exists_describes hnumber
  obtain ⟨hclosed, hdeep⟩ := tame.isClosed
  obtain ⟨all, hlone⟩ := hdescribes.lone hclosed hdeep halone.lone
  have wf := hnumber.wellFormed
  have hstands : (g.tableOf c).standsFor (a.terminal any).id token.symbol = true := by
    refine Grammar.standsFor_iff.mpr ⟨?_, ?_, fun hmem => ?_⟩
    · obtain ⟨symbol, hsome⟩ := Option.isSome_iff_exists.mp (hnumber.wildcard_isSome _ (h.terminal_mem any) hrole)
      obtain ⟨t, ht, hrole', rfl⟩ := hnumber.wildcard hsome
      obtain ⟨other, rfl⟩ := h.exists_kind ht
      rwa [h.wildcards any (h.mem_kinds any) other (h.mem_kinds other) hrole hrole']
    · rw [hsymbol, ← h.number_token hnumber kind]
      exact hnumber.endOfInput (h.uses _)
    · obtain ⟨t, ht, htame, hid⟩ := hnumber.tame _ hmem
      obtain ⟨other, rfl⟩ := h.exists_kind ht
      rw [h.id_injective (hid.trans hsymbol), hwild] at htame
      cases htame
  have hamong : a.outline.Among codes wild token.symbol := by
    intro x hx hcode'
    rw [hsymbol, ← h.number_token hnumber kind] at hcode'
    rwa [h.code_eq hnumber hdescribes hcodes hx hcode']
  have halike : ∀ {i : StateId} {S : ItemSet} {item : Item}, c.states[i]? = some S → item ∈ S → At places item.core →
      g.Alike c i (a.taken (any, token)) := fun hS hitem hmarked =>
    Grammar.alike_of_undemanded hS hstands (hlone.undemanded wf hc hS hitem hmarked hamong)
  refine ⟨⟨.inr hstands, ?_⟩, ?_⟩
  · intro i S item p hS hitem hp hdot hlookahead
    refine halike hS hitem ?_
    obtain ⟨head, body, ho, hphead, hpbody⟩ := hdescribes.production hp
    obtain ⟨x, y, hx, hy, hxhead, hylookahead, hfollow⟩ := hlone.follows.joined wf (hc.joined hS) item hitem p hp
    obtain rfl := hdescribes.injective hx (mentions_of_getElem? ho).1 (hxhead.trans hphead)
    rw [hlookahead] at hylookahead
    obtain rfl := h.code_eq hnumber hdescribes hcodes hy (hylookahead.trans (h.number_token hnumber any).symm)
    have hplace := halone.ends ho hfollow
    rwa [At, Item.core, hdot, hpbody, List.length_map]
  · rintro id dot hplace i S item hS hitem rfl rfl
    exact halike hS hitem (hclear _ _ hplace)

/-- A token of a kind that the wildcard stands in for can be taken as the wildcard. -/
theorem canTake_wild (hnumber : l.Numbered g names) (hc : g.Automaton c) (tame : a.outline.Tame)
    (hunshadowed : a.Unshadowed tame any) {kind : K} {token : Token} (hsymbol : token.symbol = (a.terminal kind).id)
    (hwild : (a.terminal kind).wild = true) (hne : kind ≠ any) :
    a.CanTake g c (a.Foreseen (Survey.grown a.outline tame.rounds)) (any, token) := by
  have halone : a.Alone tame any (a.wildCodes any) (marks (Survey.grown a.outline tame.rounds) (a.code (.token any)) 0 a.outline) :=
    ⟨hunshadowed.lone, marked_of_follow⟩
  refine h.canTake_alone hnumber hc hunshadowed.role halone hsymbol hwild
    (testBit_wildCodes (h.mem_kinds kind) hwild fun hid => hne (h.id_injective hid)) ?_
  rintro id dot ⟨head, body, ho, hfirst⟩
  exact marked_of_first ho hfirst

/-- A token can be taken as every kind that admits it. -/
theorem canTake (hnumber : l.Numbered g names) (hc : g.Automaton c) (tame : a.outline.Tame) (hunshadowed : a.Unshadowed tame any)
    {r : K × Token} (hadmits : a.Admits r.1 r.2) (hkind : ∃ kind, r.2.symbol = (a.terminal kind).id) :
    a.CanTake g c (a.Foreseen (Survey.grown a.outline tame.rounds)) r := by
  rcases hadmits with hown | ⟨hrole, htame⟩
  · exact IsOwn.canTake hown
  · obtain ⟨kind, token⟩ := r
    obtain ⟨own, hsymbol⟩ := hkind
    obtain rfl : kind = any := h.wildcards kind (h.mem_kinds kind) any (h.mem_kinds any) hrole hunshadowed.role
    by_cases hown : own = kind
    · exact IsOwn.canTake (hown ▸ hsymbol)
    · refine h.canTake_wild hnumber hc tame hunshadowed hsymbol ?_ hown
      by_contra hwild
      exact htame own (by simpa using hwild) hsymbol

/-- The first token of the root can be taken in the start state. -/
theorem alike_start (hnumber : l.Numbered g names) (hconflictless : g.Conflictless c) {r : K × Token}
    (htake : a.CanTake g c (a.Foreseen s) r)
    (hfirst : (look s.first (a.code (.node a.root))).testBit (a.code (.token r.1)) = true) :
    g.Alike c Engine.startState (a.taken r) := by
  obtain ⟨rule, hrule, hhead⟩ := h.exists_rule a.start
  obtain ⟨id, hid⟩ := List.mem_iff_getElem?.mp hrule
  obtain ⟨p, hp, hphead, -⟩ := h.exists_spelling hid
  have hstart := h.head_eq_start (hphead.symm.trans (hhead.trans h.startName))
  obtain ⟨S, hS, -, hsub⟩ := hconflictless.automaton.start
  have hitem : ⟨id, 0, g.endOfInput⟩ ∈ S := by
    refine hsub _ (hconflictless.wellFormed.mem_initialItemSet.mpr ?_)
    refine ⟨id, _, h.production_of_rule hnumber hid hp, ?_, Grammar.Yields.refl _⟩
    rw [hnumber.start, hstart, h.startName]
  refine htake.clear id 0 ⟨_, _, getElem?_outline hp, ?_⟩ hS hitem rfl rfl
  rw [h.startBody p (List.mem_of_getElem? hp) hstart, List.map_singleton, List.drop_zero, Survey.firstOfAll, Survey.firstOf,
    isToken_code_node, cond_false]
  cases s.vanishing.testBit (a.code (.node a.root)) with
  | false => exact hfirst
  | true => exact (Nat.testBit_or ..).trans (by rw [hfirst, Bool.true_or])

/-- **What is read by the rules is parsed**, where the wildcard stands in for other tokens and is not shadowed. -/
theorem parse_admitted (tame : a.outline.Tame) (hunshadowed : a.Unshadowed tame any) {front : List (K × Token)} {node : N}
    (hfront : ∀ r ∈ front, a.Admits r.1 r.2 ∧ ∃ kind, r.2.symbol = (a.terminal kind).id)
    (hreads : ∀ number, a.Reads l number (fun _ _ _ => True) a.root front node) :
    l.parse l.table (front.map Prod.snd) = .ok node := by
  have hclosed := tame.isClosed.1
  have hforeseen := fun number => (Reads.inside hclosed (hreads number)).1.mono fun _ _ _ hinside => hinside.2.2
  refine h.parse_of_canTake tame hforeseen fun hnumber hconflictless => ?_
  have htake := fun r hr => h.canTake hnumber hconflictless.automaton tame hunshadowed (hfront r hr).1 (hfront r hr).2
  refine ⟨htake, fun r hr => ?_⟩
  have hbegins := (Reads.inside hclosed (hreads fun _ => 0)).2
  exact h.alike_start hnumber hconflictless (htake r (List.mem_of_mem_head? hr)) (hbegins.1 r hr)

/-- **What is read by the rules is parsed**, where the tokens after a dot are clear and a clear token is not shadowed as the
wildcard. -/
theorem parse_clear (tame : a.outline.Tame) (hrole : (a.terminal any).role = .wildcard) {front : List (K × Token)} {node : N}
    (halone : ∀ kind, (a.terminal kind).wild = true → kind ≠ any → ∃ wild places, a.Alone tame any wild places ∧
      wild.testBit (a.code (.token kind)) = true ∧ ∀ id dot token, token.symbol = (a.terminal kind).id →
        a.Inside (Survey.grown a.outline tame.rounds) clear id dot (any, token) → places.testBit (place id dot) = true)
    (hfront : ∀ r ∈ front, a.Admits r.1 r.2 ∧ ∃ kind, r.2.symbol = (a.terminal kind).id) (hfirst : ∀ r ∈ front.head?, a.IsOwn r)
    (hreads : ∀ number, a.Reads l number clear a.root front node) : l.parse l.table (front.map Prod.snd) = .ok node := by
  refine h.parse_of_canTake tame (fun number => (Reads.inside tame.isClosed.1 (hreads number)).1) fun hnumber hconflictless =>
    ⟨fun r hr => ?_, fun r hr => ?_⟩
  · obtain ⟨hadmits, own, hsymbol⟩ := hfront r hr
    rcases hadmits with hown | ⟨hrole', htame⟩
    · exact IsOwn.canTake hown
    · obtain ⟨kind, token⟩ := r
      obtain rfl : kind = any := h.wildcards kind (h.mem_kinds kind) any (h.mem_kinds any) hrole' hrole
      by_cases hown : own = kind
      · exact IsOwn.canTake (hown ▸ hsymbol)
      · have hwild : (a.terminal own).wild = true := by
          by_contra hwild
          exact htame own (by simpa using hwild) hsymbol
        obtain ⟨wild, places, halone, hcode, hclear⟩ := halone own hwild hown
        exact h.canTake_alone hnumber hconflictless.automaton hrole halone hsymbol hwild hcode
          fun id dot hinside => hclear id dot token hsymbol hinside
  · rw [(hfirst r hr).taken_eq]
    exact Grammar.alike_plain _ _

end Covers

end Alphabet

end ShaderFront
