import Mathlib
import ShaderFront.Proofs.Simple

/-!
# Outlines

The outline of a grammar is its productions with codes for the symbols. It is small enough to be explored by evaluation:
sets of codes and sets of dotted productions are natural numbers, a member for each bit, and a table of sets is a number too.

A `Survey` guesses for each nonterminal what it begins with, what follows it and which productions its expansion brings in,
and for each symbol the places before it. Whether a survey is right is checked production by production
(`Outline.isClosed`). With it, `Outline.sweep` goes through the states up to lookaheads and checks that no two actions meet in
any of them. If both checks succeed, no table of the grammar has a conflict (`Outline.Describes.conflicts_eq_nil`).
-/

namespace ShaderFront

/-- The productions of a grammar, each with the code of its head and the codes of its body. Odd codes stand for nonterminals,
`1` for the start symbol; even codes stand for terminals, `0` for the end of the input. -/
abbrev Outline := List (Nat × List Nat)

namespace Outline

/-- Whether a code stands for a terminal. -/
def isToken (code : Nat) : Bool := Nat.beq (code % 2) 0

/-- A code stands for the end of the input or the start symbol, or in a production. -/
def Mentions (o : Outline) (code : Nat) : Prop := code = 0 ∨ code = 1 ∨ ∃ p ∈ o, code = p.1 ∨ code ∈ p.2

/-- A grammar has the productions of an outline, with numbers for codes. -/
structure Describes (o : Outline) (g : Grammar) (number : Nat → SymbolId) : Prop where
  wellFormed : g.WellFormed
  production : ∀ {id : ProductionId} {p : Production}, g.production? id = some p →
    ∃ head body, o[id]? = some (head, body) ∧ p.head = number head ∧ p.body = body.map number
  isTerminal : ∀ {code : Nat}, o.Mentions code → g.isTerminal (number code) = isToken code
  injective : ∀ {a b : Nat}, o.Mentions a → o.Mentions b → number a = number b → a = b
  start : g.start = number 1
  endOfInput : g.endOfInput = number 0

/-! ## Sets of numbers as numbers -/

/-- Every bit of one number is a bit of another. -/
def within (a b : Nat) : Bool := Nat.beq (Nat.land a b) a

/-- Two numbers have a bit in common. -/
def meets (a b : Nat) : Bool := !Nat.beq (Nat.land a b) 0

theorem within_testBit {a b : Nat} (h : within a b = true) {i : Nat} (hi : a.testBit i = true) : b.testBit i = true := by
  have heq : a &&& b = a := Nat.eq_of_beq_eq_true h
  rw [← heq, Nat.testBit_and, Bool.and_eq_true] at hi
  exact hi.2

theorem meets_of_testBit {a b i : Nat} (ha : a.testBit i = true) (hb : b.testBit i = true) : meets a b = true := by
  rw [meets, Bool.not_eq_true', Bool.eq_false_iff]
  intro hzero
  have heq : a &&& b = 0 := Nat.eq_of_beq_eq_true hzero
  have hbit : (a &&& b).testBit i = true := by rw [Nat.testBit_and, ha, hb]; rfl
  rw [heq, Nat.zero_testBit] at hbit
  cases hbit

/-- The set of a code in a table of sets, which has 2048 bits for each code. A table is a guess that is checked, so no proof asks
whether its sets fit. -/
def look (table code : Nat) : Nat := Nat.mod (Nat.shiftRight table (2048 * code)) (2 ^ 2048)

/-- Adds a set to that of a code. -/
def grow (code set table : Nat) : Nat := Nat.lor table (Nat.shiftLeft set (2048 * code))

/-! ## Surveys -/

/-- What is said about the symbols of an outline. -/
structure Survey where
  /-- The codes that may vanish. -/
  vanishing : Nat
  /-- The terminals each nonterminal may begin with. -/
  first : Nat
  /-- The terminals that may follow each nonterminal. -/
  follow : Nat
  /-- The places that each nonterminal brings in when it is expanded. -/
  entry : Nat
  /-- The places right before each symbol. -/
  before : Nat

/-- The bit of a place: a production, and a dot in its body. -/
def place (id dot : Nat) : Nat := 16 * id + dot

namespace Survey

variable (s : Survey)

/-- The terminals a symbol may begin with. -/
def firstOf (code : Nat) : Nat := bif isToken code then 2 ^ code else look s.first code

/-- The terminals a sequence may begin with. -/
def firstOfAll : List Nat → Nat
  | [] => 0
  | x :: rest => bif s.vanishing.testBit x then Nat.lor (s.firstOf x) (firstOfAll rest) else s.firstOf x

/-- Whether a sequence may vanish. -/
def vanishes (codes : List Nat) : Bool := codes.all fun x => s.vanishing.testBit x

/-- Whether the symbols of a body are followed by what stands after them. -/
def followed (head : Nat) : List Nat → Bool
  | [] => true
  | x :: rest =>
    (bif isToken x then true
      else within (s.firstOfAll rest) (look s.follow x) &&
        (!s.vanishes rest || within (look s.follow head) (look s.follow x))) && followed head rest

/-- Whether the places of a body, from a place on, are those before its symbols. -/
def placed (at_ : Nat) : List Nat → Bool
  | [] => true
  | x :: rest => (look s.before x).testBit at_ && placed (at_ + 1) rest

/-- Whether the survey agrees with one production. -/
def agrees (id head : Nat) (body : List Nat) : Bool :=
  within (s.firstOfAll body) (look s.first head) && (!s.vanishes body || s.vanishing.testBit head) &&
    s.followed head body && (look s.entry head).testBit (place id 0) && s.placed (place id 0) body

/-- Whether the survey agrees with the productions from a number on. -/
def agreesFrom (id : Nat) : Outline → Bool
  | [] => true
  | (head, body) :: rest => s.agrees id head body && agreesFrom (id + 1) rest

/-- Whether the survey agrees with an outline. -/
def isClosed (o : Outline) : Bool := (look s.follow 1).testBit 0 && s.agreesFrom 0 o

/-! A survey is found by going through the productions a few times and adding what is missing. -/

/-- Adds what the bodies begin with, the last production first. -/
def growFirst (s : Survey) : Outline → Survey
  | [] => s
  | (head, body) :: rest =>
    let s := growFirst s rest
    { s with
      first := grow head (s.firstOfAll body) s.first
      vanishing := bif s.vanishes body then Nat.lor s.vanishing (2 ^ head) else s.vanishing }

/-- Adds the places that come in with the first symbols of the bodies, the last production first. -/
def growEntry (s : Survey) (id : Nat) : Outline → Survey
  | [] => s
  | (head, body) :: rest =>
    let s := growEntry s (id + 1) rest
    { s with entry := grow head (Nat.lor (2 ^ place id 0) (look s.entry (body.headD 0))) s.entry }

/-- Adds what follows the symbols of one body. -/
def growFollowIn (s : Survey) (head : Nat) : List Nat → Survey
  | [] => s
  | x :: rest =>
    let behind := Nat.lor (s.firstOfAll rest) (bif s.vanishes rest then look s.follow head else 0)
    growFollowIn (bif isToken x then s else { s with follow := grow x behind s.follow }) head rest

/-- Adds what follows the symbols of the bodies. -/
def growFollow (s : Survey) : Outline → Survey
  | [] => s
  | (head, body) :: rest => growFollow (growFollowIn s head body) rest

/-- Adds the places of a body, from a place on, to those before its symbols. -/
def growBeforeIn (at_ table : Nat) : List Nat → Nat
  | [] => table
  | x :: rest => growBeforeIn (at_ + 1) (grow x (2 ^ at_) table) rest

/-- Adds the places of the bodies. -/
def growBefore (id table : Nat) : Outline → Nat
  | [] => table
  | (_, body) :: rest => growBefore (id + 1) (growBeforeIn (place id 0) table body) rest

/-- Adds what is missing some number of times, what symbols begin with before what follows them. -/
def grown (o : Outline) (rounds : Nat) : Survey :=
  let first := Nat.repeat (growFirst · o) rounds ⟨0, 0, grow 1 1 0, 0, growBefore 0 0 o⟩
  Nat.repeat (growFollow · o) rounds (Nat.repeat (growEntry · 0 o) rounds first)

variable {s} {o : Outline} {g : Grammar} {number : Nat → SymbolId}

theorem agrees_of_agreesFrom : ∀ {o : Outline} {id : Nat}, s.agreesFrom id o = true → ∀ {k head : Nat} {body : List Nat},
    o[k]? = some (head, body) → s.agrees (id + k) head body = true
  | [], _, _, _, _, _, hk => by simp at hk
  | (head, body) :: rest, id, h, k, head', body', hk => by
    obtain ⟨hfirst, hrest⟩ := (Bool.and_eq_true _ _).mp h
    cases k with
    | zero =>
      cases hk
      exact hfirst
    | succ k =>
      rw [Nat.add_comm k 1, ← Nat.add_assoc]
      exact agrees_of_agreesFrom hrest hk

/-- What the check of a survey says of each production. -/
structure Fits (s : Survey) (id head : Nat) (body : List Nat) : Prop where
  first : ∀ {i : Nat}, (s.firstOfAll body).testBit i = true → (look s.first head).testBit i = true
  vanishing : s.vanishes body = true → s.vanishing.testBit head = true
  followed : s.followed head body = true
  entry : (look s.entry head).testBit (place id 0) = true
  placed : s.placed (place id 0) body = true

theorem fits (h : s.isClosed o = true) {id head : Nat} {body : List Nat} (hp : o[id]? = some (head, body)) :
    s.Fits id head body := by
  have hagrees := agrees_of_agreesFrom ((Bool.and_eq_true _ _).mp h).2 hp
  rw [Nat.zero_add] at hagrees
  simp only [agrees, Bool.and_eq_true, Bool.or_eq_true, Bool.not_eq_true'] at hagrees
  obtain ⟨⟨⟨⟨hfirst, hvanish⟩, hfollowed⟩, hentry⟩, hplaced⟩ := hagrees
  refine ⟨within_testBit hfirst, fun hv => hvanish.resolve_left fun hno => ?_, hfollowed, hentry, hplaced⟩
  rw [hv] at hno
  cases hno

/-- What the check of a body says of each of its nonterminals. -/
theorem followed_spec {head : Nat} : ∀ {body : List Nat}, s.followed head body = true → ∀ {dot x : Nat},
    body[dot]? = some x → isToken x = false →
    within (s.firstOfAll (body.drop (dot + 1))) (look s.follow x) = true ∧
      (s.vanishes (body.drop (dot + 1)) = true → within (look s.follow head) (look s.follow x) = true)
  | [], _, _, _, hx, _ => by simp at hx
  | y :: rest, h, dot, x, hx, hodd => by
    rw [followed, Bool.and_eq_true] at h
    cases dot with
    | succ dot => exact followed_spec h.2 hx hodd
    | zero =>
      cases hx
      rw [hodd, cond_false, Bool.and_eq_true, Bool.or_eq_true] at h
      refine ⟨h.1.1, fun hv => h.1.2.resolve_left fun hno => ?_⟩
      rw [List.drop_one, List.tail_cons] at hv
      simp [hv] at hno

theorem placed_spec {x : Nat} : ∀ {body : List Nat} {at_ dot : Nat}, s.placed at_ body = true → body[dot]? = some x →
    (look s.before x).testBit (at_ + dot) = true
  | [], _, _, _, hx => by simp at hx
  | y :: rest, at_, dot, h, hx => by
    obtain ⟨hfirst, hrest⟩ := (Bool.and_eq_true _ _).mp h
    cases dot with
    | zero =>
      cases hx
      exact hfirst
    | succ dot =>
      rw [Nat.add_comm dot 1, ← Nat.add_assoc]
      exact placed_spec hrest hx

/-- A place before a code is among those before it. -/
theorem testBit_before (h : s.isClosed o = true) {id head dot code : Nat} {body : List Nat} (ho : o[id]? = some (head, body))
    (hdot : body[dot]? = some code) : (look s.before code).testBit (place id dot) = true :=
  placed_spec (fits h ho).placed hdot

end Survey

variable {o : Outline} {g : Grammar} {number : Nat → SymbolId} {s : Survey}

theorem mentions_of_getElem? {id head : Nat} {body : List Nat} (hp : o[id]? = some (head, body)) :
    o.Mentions head ∧ ∀ x ∈ body, o.Mentions x :=
  have hmem := List.mem_of_getElem? hp
  ⟨.inr (.inr ⟨_, hmem, .inl rfl⟩), fun _ hx => .inr (.inr ⟨_, hmem, .inr hx⟩)⟩

namespace Describes

theorem head_odd (h : o.Describes g number) {id : ProductionId} {p : Production} (hp : g.production? id = some p) {head : Nat}
    {body : List Nat} (ho : o[id]? = some (head, body)) (hhead : p.head = number head) : isToken head = false := by
  rw [← h.isTerminal (mentions_of_getElem? ho).1, ← hhead]
  obtain ⟨sym, hs, hnone⟩ := h.wellFormed.head hp
  simp [Grammar.isTerminal, hs, hnone]

/-- What vanishes may vanish by the survey. -/
theorem vanishes (h : o.Describes g number) (hs : s.isClosed o = true) {allowed : SymbolId → Prop} {l : List SymbolId}
    (hl : g.Vanishes allowed l) : ∀ {codes : List Nat}, l = codes.map number → (∀ x ∈ codes, o.Mentions x) →
      s.vanishes codes = true := by
  induction hl with
  | nil =>
    intro codes heq _
    rw [List.map_eq_nil_iff.mp heq.symm]
    rfl
  | @cons id p rest hp _ _ _ ihbody ihrest =>
    intro codes heq hcodes
    cases codes with
    | nil => cases heq
    | cons x xs =>
      obtain ⟨hhead, hrest⟩ := List.cons.inj heq
      obtain ⟨hx, hxs⟩ := List.forall_mem_cons.mp hcodes
      obtain ⟨head, body, ho, hphead, hpbody⟩ := h.production hp
      obtain ⟨hmhead, hmbody⟩ := mentions_of_getElem? ho
      obtain rfl := h.injective hx hmhead (hhead.symm.trans hphead)
      rw [Survey.vanishes, List.all_cons, Bool.and_eq_true]
      exact ⟨(Survey.fits hs ho).vanishing (ihbody hpbody hmbody), ihrest hrest hxs⟩

/-- What a sequence starts with is in the survey. -/
theorem starts (h : o.Describes g number) (hs : s.isClosed o = true) {a : SymbolId} {l : List SymbolId} (hl : g.Starts a l) :
    ∀ {codes : List Nat}, l = codes.map number → (∀ x ∈ codes, o.Mentions x) →
      ∃ c, o.Mentions c ∧ number c = a ∧ (s.firstOfAll codes).testBit c = true := by
  -- the first symbol of a sequence counts whether it vanishes or not
  have hfirst : ∀ {x c : Nat} {xs : List Nat}, (s.firstOf x).testBit c = true →
      (s.firstOfAll (x :: xs)).testBit c = true := by
    intro x c xs hc
    rw [Survey.firstOfAll]
    cases s.vanishing.testBit x with
    | false => exact hc
    | true =>
      change (s.firstOf x ||| s.firstOfAll xs).testBit c = true
      rw [Nat.testBit_or, hc, Bool.true_or]
  induction hl with
  | @here rest hterminal =>
    intro codes heq hcodes
    cases codes with
    | nil => cases heq
    | cons x xs =>
      obtain ⟨rfl, -⟩ := List.cons.inj heq
      have hx := hcodes x List.mem_cons_self
      rw [h.isTerminal hx] at hterminal
      refine ⟨x, hx, rfl, hfirst ?_⟩
      rw [Survey.firstOf, hterminal, cond_true, Nat.testBit_two_pow_self]
  | @skip symbol rest hvanishes _ ih =>
    intro codes heq hcodes
    cases codes with
    | nil => cases heq
    | cons x xs =>
      obtain ⟨rfl, hrest⟩ := List.cons.inj heq
      obtain ⟨hx, hxs⟩ := List.forall_mem_cons.mp hcodes
      obtain ⟨c, hc, hnumber, hbit⟩ := ih hrest hxs
      refine ⟨c, hc, hnumber, ?_⟩
      have hv : s.vanishes [x] = true := h.vanishes hs hvanishes rfl (List.forall_mem_singleton.mpr hx)
      rw [Survey.firstOfAll, show s.vanishing.testBit x = true by simpa [Survey.vanishes] using hv]
      change (s.firstOf x ||| s.firstOfAll xs).testBit c = true
      rw [Nat.testBit_or, hbit, Bool.or_true]
  | @into id p rest hp _ ih =>
    intro codes heq hcodes
    cases codes with
    | nil => cases heq
    | cons x xs =>
      obtain ⟨hhead, -⟩ := List.cons.inj heq
      obtain ⟨head, body, ho, hphead, hpbody⟩ := h.production hp
      obtain ⟨hmhead, hmbody⟩ := mentions_of_getElem? ho
      obtain rfl := h.injective (hcodes x List.mem_cons_self) hmhead (hhead.symm.trans hphead)
      obtain ⟨c, hc, hnumber, hbit⟩ := ih hpbody hmbody
      refine ⟨c, hc, hnumber, hfirst ?_⟩
      rw [Survey.firstOf, h.head_odd hp ho hphead, cond_false]
      exact (Survey.fits hs ho).first hbit

end Describes

/-! ## Following terminals -/

/-- A terminal follows a nonterminal by a survey. -/
def Survey.Follow (s : Survey) (o : Outline) (number : Nat → SymbolId) (symbol a : SymbolId) : Prop :=
  ∃ x c, o.Mentions x ∧ o.Mentions c ∧ number x = symbol ∧ number c = a ∧ (look s.follow x).testBit c = true

/-- A symbol of a body, with the codes of the production it stands in. -/
theorem Describes.exists_code (h : o.Describes g number) {id : ProductionId} {p : Production} (hp : g.production? id = some p)
    {dot : Nat} {symbol : SymbolId} (hsymbol : p.body[dot]? = some symbol) : ∃ head body x, o[id]? = some (head, body) ∧
      p.head = number head ∧ p.body = body.map number ∧ body[dot]? = some x ∧ symbol = number x ∧ o.Mentions x := by
  obtain ⟨head, body, ho, hhead, hbody⟩ := h.production hp
  rw [hbody, List.getElem?_map] at hsymbol
  obtain ⟨x, hx, rfl⟩ := Option.map_eq_some_iff.mp hsymbol
  exact ⟨head, body, x, ho, hhead, hbody, hx, rfl, (mentions_of_getElem? ho).2 x (List.mem_of_getElem? hx)⟩

theorem Describes.follows (h : o.Describes g number) (hs : s.isClosed o = true) : g.Follows (s.Follow o number) := by
  have hstart := ((Bool.and_eq_true _ _).mp hs).1
  have wf := h.wellFormed
  -- the symbols after a dot, none of which is the empty symbol
  have hrest : ∀ {id : ProductionId} {p : Production} {head : Nat} {body : List Nat} (dot : Nat), g.production? id = some p →
      o[id]? = some (head, body) → p.body = body.map number → p.body.drop dot = (body.drop dot).map number ∧
        (∀ x ∈ body.drop dot, o.Mentions x) ∧ ∀ symbol ∈ p.body.drop dot, symbol ≠ g.empty := by
    intro id p head body dot hp ho hbody
    refine ⟨by rw [hbody, List.map_drop], fun x hx => (mentions_of_getElem? ho).2 x (List.mem_of_mem_drop hx), ?_⟩
    exact fun symbol hmem => (wf.body hp symbol (List.mem_of_mem_drop hmem)).2
  refine ⟨⟨1, 0, .inr (.inl rfl), .inl rfl, h.start.symm, h.endOfInput.symm, hstart⟩, ?_, ?_⟩ <;>
    intro id p dot symbol a hp hsymbol hterminal
  · intro ha hne
    obtain ⟨head, body, x, ho, -, hbody, hx, rfl, hmx⟩ := h.exists_code hp hsymbol
    rw [h.isTerminal hmx] at hterminal
    obtain ⟨hdrop, hmrest, hnonempty⟩ := hrest (dot + 1) hp ho hbody
    obtain ⟨c, hc, rfl, hbit⟩ := h.starts hs ((wf.mem_first_iff hnonempty hne).mp ha) hdrop hmrest
    have hfollowed := Survey.followed_spec (Survey.fits hs ho).followed hx hterminal
    exact ⟨x, c, hmx, hc, rfl, rfl, within_testBit hfollowed.1 hbit⟩
  · rintro ha ⟨y, c, hy, hc, hhead, rfl, hbit⟩
    obtain ⟨head, body, x, ho, hphead, hbody, hx, rfl, hmx⟩ := h.exists_code hp hsymbol
    obtain rfl := h.injective hy (mentions_of_getElem? ho).1 (hhead.trans hphead)
    rw [h.isTerminal hmx] at hterminal
    obtain ⟨hdrop, hmrest, hnonempty⟩ := hrest (dot + 1) hp ho hbody
    have hvanishes := h.vanishes hs ((wf.empty_mem_first_iff hnonempty).mp ha) hdrop hmrest
    have hfollowed := Survey.followed_spec (Survey.fits hs ho).followed hx hterminal
    exact ⟨x, c, hmx, hc, rfl, rfl, within_testBit (hfollowed.2 hvanishes) hbit⟩

/-! ## States up to lookaheads -/

/-- What a code means for a set of places: the places before it, the places it brings in, and the terminal it is. -/
structure Gate where
  before : Nat
  entry : Nat
  read : Nat

/-- The gate of a code. -/
def Survey.gate (s : Survey) (code : Nat) : Gate :=
  ⟨look s.before code, look s.entry code, bif isToken code then 2 ^ code else 0⟩

/-- A number above all codes in the bodies. -/
def top : Outline → Nat
  | [] => 0
  | (_, body) :: rest => max (body.foldr (fun x n => max (x + 1) n) 0) (top rest)

/-- The gates of all codes. -/
def gates (o : Outline) (s : Survey) : List Gate := (List.range o.top).map s.gate

/-- A fold by the recursor itself. The checks fold over all gates in each state, and the kernel evaluates the recursor in a third
of the steps that it takes for a definition by matching. -/
def fold {α β : Type} (f : α → β → β) (init : β) (l : List α) : β := l.rec init fun x _ rest => f x rest

/-- A set of places, and those that expansion brings in. -/
def expanded (gates : List Gate) (set : Nat) : Nat :=
  fold (fun gate rest => bif meets set gate.before then Nat.lor gate.entry rest else rest) set gates

theorem expanded_cons (gate : Gate) (rest : List Gate) (set : Nat) : expanded (gate :: rest) set =
    bif meets set gate.before then Nat.lor gate.entry (expanded rest set) else expanded rest set := rfl

/-- The places after each code that can be read, in the order of the gates. -/
def successors (gates : List Gate) (set : Nat) : List Nat :=
  fold (fun gate rest => bif meets set gate.before then 2 * Nat.land set gate.before :: rest else rest) [] gates

theorem successors_cons (gate : Gate) (rest : List Gate) (set : Nat) : successors (gate :: rest) set =
    bif meets set gate.before then 2 * Nat.land set gate.before :: successors rest set else successors rest set := rfl

/-- The terminals that can be read. -/
def readable (gates : List Gate) (set : Nat) : Nat :=
  fold (fun gate rest => bif meets set gate.before then Nat.lor gate.read rest else rest) 0 gates

theorem readable_cons (gate : Gate) (rest : List Gate) (set : Nat) : readable (gate :: rest) set =
    bif meets set gate.before then Nat.lor gate.read (readable rest set) else readable rest set := rfl

/-- Whether a set of places has all that its expansion brings in. -/
def isExpanded (gates : List Gate) (set : Nat) : Bool :=
  gates.all fun gate => !meets set gate.before || within gate.entry set

/-- The ends of the productions, each with what follows its head. -/
def ends (s : Survey) : Nat → Outline → List (Nat × Nat)
  | _, [] => []
  | id, (head, body) :: rest => (2 ^ place id body.length, look s.follow head) :: ends s (id + 1) rest

/-- Whether the productions that end in a set of places are followed by different terminals, none of which is taken. -/
def apart (set : Nat) (ends : List (Nat × Nat)) : Nat → Bool :=
  fold (fun last rest taken =>
    bif meets set last.1 then !meets last.2 taken && rest (Nat.lor last.2 taken) else rest taken) (fun _ => true) ends

theorem apart_cons (set stop follow : Nat) (rest : List (Nat × Nat)) (taken : Nat) : apart set ((stop, follow) :: rest) taken =
    bif meets set stop then !meets follow taken && apart set rest (Nat.lor follow taken) else apart set rest taken := rfl

/-- Adds what is new to a list of things to do and to the things seen. -/
def enqueue : List Nat → List Nat → Std.TreeSet Nat → List Nat × Std.TreeSet Nat
  | [], todo, seen => (todo, seen)
  | x :: rest, todo, seen =>
    bif seen.contains x then enqueue rest todo seen else enqueue rest (x :: todo) (seen.insert x)

/-- Whether no two actions meet in a set of places. -/
def isFine (gates : List Gate) (ends : List (Nat × Nat)) (set : Nat) : Bool :=
  apart (expanded gates set) ends (readable gates (expanded gates set))

/-- Whether no two actions meet in the sets that are still to do, and in those they lead to. -/
def sweep (gates : List Gate) (ends : List (Nat × Nat)) : Nat → List Nat → Std.TreeSet Nat → Bool
  | _, [], _ => true
  | 0, _ :: _, _ => false
  | fuel + 1, set :: todo, seen =>
    isFine gates ends set &&
      let next := enqueue (successors gates (expanded gates set)) todo seen
      sweep gates ends fuel next.1 next.2

/-- Whether the places that each nonterminal brings in have all that their expansion brings in. -/
def isDeep (o : Outline) (s : Survey) : Bool :=
  let gates := o.gates s
  isExpanded gates (look s.entry 1) && gates.all fun gate => isExpanded gates gate.entry

/-- Whether no two actions meet in any state, where the productions end as a list says. -/
def isSwept (o : Outline) (s : Survey) (ends : List (Nat × Nat)) (fuel : Nat) : Bool :=
  sweep (o.gates s) ends fuel [look s.entry 1] {look s.entry 1}

/-- **The check of an outline with a survey.** -/
def isSimple (o : Outline) (s : Survey) (fuel : Nat) : Bool :=
  s.isClosed o && o.isDeep s && o.isSwept s (ends s 0 o) fuel

/-! ## What the sweep finds -/

theorem lt_top : ∀ {o : Outline} {id head : Nat} {body : List Nat}, o[id]? = some (head, body) → ∀ x ∈ body, x < o.top
  | [], _, _, _, h, _, _ => by simp at h
  | (head, body) :: rest, id, head', body', h, x, hx => by
    have hle : ∀ l : List Nat, x ∈ l → x < l.foldr (fun x n => max (x + 1) n) 0 := by
      intro l hl
      induction l with
      | nil => cases hl
      | cons y l ih =>
        rw [List.foldr_cons]
        rcases List.mem_cons.mp hl with rfl | hl
        · omega
        · have := ih hl
          omega
    rw [top]
    cases id with
    | zero =>
      cases h
      exact Nat.lt_of_lt_of_le (hle body hx) (Nat.le_max_left _ _)
    | succ id => exact Nat.lt_of_lt_of_le (lt_top (show rest[id]? = some (head', body') from h) x hx) (Nat.le_max_right _ _)

theorem gate_mem {id head : Nat} {body : List Nat} (h : o[id]? = some (head, body)) {x : Nat} (hx : x ∈ body) :
    s.gate x ∈ o.gates s :=
  List.mem_map.mpr ⟨x, List.mem_range.mpr (lt_top h x hx), rfl⟩

variable {gs : List Gate} {es : List (Nat × Nat)} {gate : Gate} {set : Nat}

theorem testBit_expanded {i : Nat} (hi : set.testBit i = true) : (expanded gs set).testBit i = true := by
  induction gs with
  | nil => exact hi
  | cons gate rest ih =>
    rw [expanded_cons]
    cases meets set gate.before with
    | false => exact ih
    | true => exact (Nat.testBit_or ..).trans (by rw [ih, Bool.or_true])

theorem entry_expanded (hgate : gate ∈ gs) (hmeets : meets set gate.before = true) {i : Nat}
    (hi : gate.entry.testBit i = true) : (expanded gs set).testBit i = true := by
  induction gs with
  | nil => cases hgate
  | cons other rest ih =>
    rw [expanded_cons]
    rcases List.mem_cons.mp hgate with rfl | hgate
    · rw [hmeets, cond_true]
      exact (Nat.testBit_or ..).trans (by rw [hi, Bool.true_or])
    · cases meets set other.before with
      | false => exact ih hgate
      | true => exact (Nat.testBit_or ..).trans (by rw [ih hgate, Bool.or_true])

/-- Where a place of an expanded set comes from. -/
theorem testBit_expanded_cases {i : Nat} (hi : (expanded gs set).testBit i = true) : set.testBit i = true ∨
    ∃ gate ∈ gs, meets set gate.before = true ∧ gate.entry.testBit i = true := by
  induction gs with
  | nil => exact .inl hi
  | cons gate rest ih =>
    have hlift : (expanded rest set).testBit i = true → set.testBit i = true ∨
        ∃ other ∈ gate :: rest, meets set other.before = true ∧ other.entry.testBit i = true :=
      fun h => (ih h).imp id fun ⟨other, hmem, hother⟩ => ⟨other, List.mem_cons_of_mem gate hmem, hother⟩
    rw [expanded_cons] at hi
    cases hmeets : meets set gate.before with
    | false =>
      rw [hmeets] at hi
      exact hlift hi
    | true =>
      rw [hmeets, cond_true] at hi
      rcases (Bool.or_eq_true ..).mp ((Nat.testBit_or ..).symm.trans hi) with hi | hi
      · exact .inr ⟨gate, List.mem_cons_self, hmeets, hi⟩
      · exact hlift hi

theorem mem_successors (hgate : gate ∈ gs) (hmeets : meets set gate.before = true) :
    2 * Nat.land set gate.before ∈ successors gs set := by
  induction gs with
  | nil => cases hgate
  | cons other rest ih =>
    rw [successors_cons]
    rcases List.mem_cons.mp hgate with rfl | hgate
    · rw [hmeets, cond_true]
      exact List.mem_cons_self
    · cases meets set other.before with
      | false => exact ih hgate
      | true => exact List.mem_cons_of_mem _ (ih hgate)

theorem testBit_readable (hgate : gate ∈ gs) (hmeets : meets set gate.before = true) {i : Nat}
    (hi : gate.read.testBit i = true) : (readable gs set).testBit i = true := by
  induction gs with
  | nil => cases hgate
  | cons other rest ih =>
    rw [readable_cons]
    rcases List.mem_cons.mp hgate with rfl | hgate
    · rw [hmeets, cond_true]
      exact (Nat.testBit_or ..).trans (by rw [hi, Bool.true_or])
    · cases meets set other.before with
      | false => exact ih hgate
      | true => exact (Nat.testBit_or ..).trans (by rw [ih hgate, Bool.or_true])

theorem getElem?_ends : ∀ {o : Outline} {start id head : Nat} {body : List Nat}, o[id]? = some (head, body) →
    (ends s start o)[id]? = some (2 ^ place (start + id) body.length, look s.follow head)
  | [], _, _, _, _, h => by simp at h
  | (head, body) :: rest, start, id, head', body', h => by
    cases id with
    | zero =>
      cases h
      rfl
    | succ id =>
      rw [ends, List.getElem?_cons_succ, getElem?_ends (show rest[id]? = some (head', body') from h)]
      congr 4
      omega

/-- What can be read does not follow a production that ends. -/
theorem apart_taken : ∀ {es : List (Nat × Nat)} {taken : Nat}, apart set es taken = true → ∀ {i stop follow : Nat},
    es[i]? = some (stop, follow) → meets set stop = true → ∀ {c : Nat}, follow.testBit c = true → taken.testBit c = false
  | [], _, _, _, _, _, hi, _, _, _ => by simp at hi
  | (stop, follow) :: rest, taken, h, i, stop', follow', hi, hmeets, c, hc => by
    rw [apart_cons] at h
    cases i with
    | zero =>
      cases hi
      rw [hmeets, cond_true, Bool.and_eq_true, Bool.not_eq_true'] at h
      by_contra htaken
      rw [meets_of_testBit hc (by simpa using htaken)] at h
      cases h.1
    | succ i =>
      cases hfirst : meets set stop with
      | false =>
        rw [hfirst] at h
        exact apart_taken h hi hmeets hc
      | true =>
        rw [hfirst, cond_true, Bool.and_eq_true] at h
        have hor := apart_taken h.2 hi hmeets hc
        rw [show Nat.lor follow taken = follow ||| taken from rfl, Nat.testBit_or, Bool.or_eq_false_iff] at hor
        exact hor.2

/-- Productions that end in one set are followed by different terminals. -/
theorem apart_unique : ∀ {es : List (Nat × Nat)} {taken : Nat}, apart set es taken = true →
    ∀ {i j stop stop' follow follow' : Nat}, es[i]? = some (stop, follow) → es[j]? = some (stop', follow') →
    meets set stop = true → meets set stop' = true → ∀ {c : Nat}, follow.testBit c = true → follow'.testBit c = true → i = j
  | [], _, _, _, _, _, _, _, _, hi, _, _, _, _, _, _ => by simp at hi
  | (stop, follow) :: rest, taken, h, i, j, _, _, _, _, hi, hj, hmeets, hmeets', c, hc, hc' => by
    rw [apart_cons] at h
    have hrest : ∀ {follow' : Nat} {k : Nat} {stop' : Nat}, meets set stop = true → follow.testBit c = true →
        rest[k]? = some (stop', follow') → meets set stop' = true → follow'.testBit c = true → False := by
      intro follow' k stop' hstop hfollow hk hk' hbit
      rw [hstop, cond_true, Bool.and_eq_true] at h
      have hor := apart_taken h.2 hk hk' hbit
      rw [show Nat.lor follow taken = follow ||| taken from rfl, Nat.testBit_or, hfollow] at hor
      cases hor
    cases i with
    | zero =>
      cases j with
      | zero => rfl
      | succ j =>
        cases hi
        exact (hrest hmeets hc hj hmeets' hc').elim
    | succ i =>
      cases j with
      | zero =>
        cases hj
        exact (hrest hmeets' hc' hi hmeets hc).elim
      | succ j =>
        congr 1
        cases hfirst : meets set stop with
        | false =>
          rw [hfirst] at h
          exact apart_unique h hi hj hmeets hmeets' hc hc'
        | true =>
          rw [hfirst, cond_true, Bool.and_eq_true] at h
          exact apart_unique h.2 hi hj hmeets hmeets' hc hc'

theorem enqueue_spec : ∀ (xs todo : List Nat) (seen : Std.TreeSet Nat), (∀ x ∈ xs, x ∈ (enqueue xs todo seen).2) ∧
    (∀ x ∈ seen, x ∈ (enqueue xs todo seen).2) ∧ (∀ x ∈ todo, x ∈ (enqueue xs todo seen).1) ∧
    ∀ x ∈ (enqueue xs todo seen).2, x ∈ seen ∨ x ∈ (enqueue xs todo seen).1
  | [], todo, seen => ⟨nofun, fun _ => id, fun _ => id, fun _ => .inl⟩
  | y :: xs, todo, seen => by
    rw [enqueue]
    cases hy : seen.contains y with
    | true =>
      obtain ⟨h₁, h₂, h₃, h₄⟩ := enqueue_spec xs todo seen
      exact ⟨List.forall_mem_cons.mpr ⟨h₂ y hy, h₁⟩, h₂, h₃, h₄⟩
    | false =>
      obtain ⟨h₁, h₂, h₃, h₄⟩ := enqueue_spec xs (y :: todo) (seen.insert y)
      obtain ⟨hy₃, h₃⟩ := List.forall_mem_cons.mp h₃
      have hkept : ∀ x ∈ seen, x ∈ seen.insert y := fun x hx => Std.TreeSet.mem_insert.mpr (.inr hx)
      refine ⟨List.forall_mem_cons.mpr ⟨h₂ y Std.TreeSet.mem_insert_self, h₁⟩, fun x hx => h₂ x (hkept x hx), h₃, fun x hx => ?_⟩
      rcases h₄ x hx with hmem | hmem
      · rcases Std.TreeSet.mem_insert.mp hmem with heq | hmem
        · exact .inr (Std.LawfulEqCmp.eq_of_compare heq ▸ hy₃)
        · exact .inl hmem
      · exact .inr hmem

/-- No two actions meet in a set of places, and the sets it leads to are among some. -/
def Settles (gs : List Gate) (es : List (Nat × Nat)) (all : Std.TreeSet Nat) (set : Nat) : Prop :=
  isFine gs es set = true ∧ ∀ next ∈ successors gs (expanded gs set), next ∈ all

/-- **A sweep that succeeds has gone through all sets.** -/
theorem sweep_settles : ∀ {fuel : Nat} {todo : List Nat} {seen : Std.TreeSet Nat}, sweep gs es fuel todo seen = true →
    (∀ set ∈ seen, set ∈ todo ∨ Settles gs es seen set) → ∃ all, (∀ set ∈ seen, set ∈ all) ∧ ∀ set ∈ all, Settles gs es all set
  | _, [], seen, _, hseen => ⟨seen, fun _ => id, fun set hset => (hseen set hset).resolve_left List.not_mem_nil⟩
  | 0, _ :: _, _, h, _ => by cases h
  | fuel + 1, first :: todo, seen, h, hseen => by
    obtain ⟨hfine, hnext⟩ := (Bool.and_eq_true _ _).mp h
    obtain ⟨hsuccessors, hkept, htodo, hnew⟩ := enqueue_spec (successors gs (expanded gs first)) todo seen
    obtain ⟨all, hall, hsettles⟩ := sweep_settles hnext fun set hset => by
      rcases hnew set hset with hold | hnew
      · rcases hseen set hold with hmem | hsettles
        · rcases List.mem_cons.mp hmem with rfl | hmem
          · exact .inr ⟨hfine, hsuccessors⟩
          · exact .inl (htodo set hmem)
        · exact .inr ⟨hsettles.1, fun next hmem => hkept next (hsettles.2 next hmem)⟩
      · exact .inl hnew
    exact ⟨all, fun set hset => hall set (hkept set hset), hsettles⟩

theorem isSwept_settles {fuel : Nat} (h : o.isSwept s es fuel = true) :
    ∃ all : Std.TreeSet Nat, look s.entry 1 ∈ all ∧ ∀ set ∈ all, Settles (o.gates s) es all set := by
  obtain ⟨all, hstart, hall⟩ := sweep_settles h fun set hset => by
    rcases Std.TreeSet.mem_insert.mp hset with heq | hmem
    · exact .inl (List.mem_singleton.mpr (Std.LawfulEqCmp.eq_of_compare heq).symm)
    · exact absurd hmem Std.TreeSet.not_mem_emptyc
  exact ⟨all, hstart _ Std.TreeSet.mem_insert_self, hall⟩

/-! ## Conflicts -/

/-- A set of places stands for cores. -/
def Holds (gs : List Gate) (all : Std.TreeSet Nat) (set : Nat) (core : Core) : Prop :=
  set ∈ all ∧ (expanded gs set).testBit (place core.production core.dot) = true

/-- A place before a code is met by its gate. -/
theorem meets_gate (hs : s.isClosed o = true) {id head dot code : Nat} {body : List Nat} (ho : o[id]? = some (head, body))
    (hdot : body[dot]? = some code) (hset : set.testBit (place id dot) = true) : meets set (s.gate code).before = true :=
  meets_of_testBit hset (Survey.testBit_before hs ho hdot)

theorem testBit_successor (hs : s.isClosed o = true) {id head dot code : Nat} {body : List Nat} (ho : o[id]? = some (head, body))
    (hdot : body[dot]? = some code) (hset : set.testBit (place id dot) = true) :
    (2 * Nat.land set (s.gate code).before).testBit (place id (dot + 1)) = true := by
  rw [show place id (dot + 1) = place id dot + 1 from rfl, Nat.testBit_succ, Nat.mul_div_cancel_left _ (by omega)]
  exact (Nat.testBit_and ..).trans (by rw [hset]; exact Survey.testBit_before hs ho hdot)

/-- An expanded set has all that its places bring in. -/
theorem testBit_of_isExpanded (hs : s.isClosed o = true) (h : isExpanded (o.gates s) set = true) {id head dot code : Nat}
    {body : List Nat} (ho : o[id]? = some (head, body)) (hdot : body[dot]? = some code)
    (hset : set.testBit (place id dot) = true) {i : Nat} (hi : (look s.entry code).testBit i = true) : set.testBit i = true := by
  have hclosed := List.all_eq_true.mp h _ (gate_mem (s := s) ho (List.mem_of_getElem? hdot))
  rw [meets_gate hs ho hdot hset, Bool.not_true, Bool.false_or] at hclosed
  exact within_testBit hclosed hi

/-- What a nonterminal of a body brings in is expanded. -/
theorem isExpanded_entry (hdeep : o.isDeep s = true) (hgate : gate ∈ o.gates s) :
    isExpanded (o.gates s) gate.entry = true :=
  List.all_eq_true.mp ((Bool.and_eq_true _ _).mp hdeep).2 gate hgate

theorem Describes.coresWithin (h : o.Describes g number) (hs : s.isClosed o = true) (hdeep : o.isDeep s = true)
    {all : Std.TreeSet Nat} (hstart : look s.entry 1 ∈ all) (hall : ∀ set ∈ all, Settles (o.gates s) es all set) :
    g.CoresWithin (Holds (o.gates s) all) := by
  refine ⟨⟨look s.entry 1, fun {id p} hp hhead => ⟨hstart, testBit_expanded ?_⟩⟩, ?_, fun set symbol => ?_⟩
  · obtain ⟨head, body, ho, hphead, -⟩ := h.production hp
    rw [hhead, h.start] at hphead
    rw [h.injective (.inr (.inl rfl)) (mentions_of_getElem? ho).1 hphead]
    exact (Survey.fits hs ho).entry
  · intro set core p p' id ⟨hset, hbit⟩ hp hsymbol hp'
    refine ⟨hset, ?_⟩
    obtain ⟨head, body, x, ho, -, -, hx, hpx, hmx⟩ := h.exists_code hp hsymbol
    obtain ⟨head', body', ho', hphead', -⟩ := h.production hp'
    obtain rfl := h.injective hmx (mentions_of_getElem? ho').1 (hpx.symm.trans hphead')
    have hbrings := (Survey.fits hs ho').entry
    have hgate := gate_mem (s := s) ho (List.mem_of_getElem? hx)
    -- the place is in the set itself, or was brought in by another code, together with all that it brings in
    rcases testBit_expanded_cases hbit with hin | ⟨gate, hmem, hmeets, hin⟩
    · exact entry_expanded hgate (meets_gate hs ho hx hin) hbrings
    · exact entry_expanded hmem hmeets (testBit_of_isExpanded hs (isExpanded_entry hdeep hmem) ho hx hin hbrings)
  · by_cases hcore : ∃ core p, Holds (o.gates s) all set core ∧ g.production? core.production = some p ∧
        p.body[core.dot]? = some symbol
    · obtain ⟨core, p, ⟨hset, hbit⟩, hp, hsymbol⟩ := hcore
      obtain ⟨head, body, x, ho, -, -, hx, rfl, hmx⟩ := h.exists_code hp hsymbol
      have hgate := gate_mem (s := s) ho (List.mem_of_getElem? hx)
      refine ⟨_, fun {core' p'} hcore' hp' hsymbol' =>
        ⟨(hall set hset).2 _ (mem_successors hgate (meets_gate hs ho hx hbit)), testBit_expanded ?_⟩⟩
      obtain ⟨head', body', y, ho', -, -, hy, heq, hmy⟩ := h.exists_code hp' hsymbol'
      obtain rfl := h.injective hmx hmy heq
      exact testBit_successor hs ho' hy hcore'.2
    · exact ⟨set, fun {core p} hcore' hp hsymbol => absurd ⟨core, p, hcore', hp, hsymbol⟩ hcore⟩

/-- A production that ends at a place of a set ends there with what follows its head. -/
theorem Describes.exists_end (h : o.Describes g number) {set : Nat} {id : ProductionId} {p : Production} {a : SymbolId}
    (hp : g.production? id = some p) (hbit : set.testBit (place id p.body.length) = true)
    (hfollow : s.Follow o number p.head a) : ∃ stop follow c, (ends s 0 o)[id]? = some (stop, follow) ∧
      meets set stop = true ∧ o.Mentions c ∧ number c = a ∧ follow.testBit c = true := by
  obtain ⟨x, c, hx, hc, hhead, hnumber, hfollow⟩ := hfollow
  obtain ⟨head, body, ho, hphead, hpbody⟩ := h.production hp
  obtain rfl := h.injective hx (mentions_of_getElem? ho).1 (hhead.trans hphead)
  have hget : (ends s 0 o)[id]? = some (2 ^ place (0 + id) body.length, look s.follow x) := getElem?_ends ho
  rw [Nat.zero_add] at hget
  rw [hpbody, List.length_map] at hbit
  exact ⟨_, _, c, hget, meets_of_testBit hbit Nat.testBit_two_pow_self, hc, hnumber, hfollow⟩

/-- **An outline that passes the check has no conflicts**, whatever the construction. -/
theorem Describes.conflicts_eq_nil (h : o.Describes g number) {fuel : Nat} (hsimple : o.isSimple s fuel = true)
    (construction : Construction) : (g.table construction).conflicts = [] := by
  obtain ⟨hclosed, hsweep⟩ := (Bool.and_eq_true _ _).mp hsimple
  obtain ⟨hs, hdeep⟩ := (Bool.and_eq_true _ _).mp hclosed
  obtain ⟨all, hstart, hall⟩ := isSwept_settles hsweep
  have hcores := h.coresWithin hs hdeep hstart hall
  refine h.wellFormed.conflicts_eq_nil ⟨hcores, h.follows hs, ?_, ?_⟩ construction
  · intro set id p core p' a hp hid hcore hp' ha hterminal hfollow
    obtain ⟨stop, follow, c, hget, hmeets, hmc, rfl, hc⟩ := h.exists_end hp hid.2 hfollow
    obtain ⟨head, body, x, ho, -, -, hx, heq, hmx⟩ := h.exists_code hp' ha
    obtain rfl := h.injective hmc hmx heq
    rw [h.isTerminal hmc] at hterminal
    have hread := testBit_readable (gate_mem (s := s) ho (List.mem_of_getElem? hx)) (meets_gate hs ho hx hcore.2)
      (show (s.gate c).read.testBit c = true by simp [Survey.gate, hterminal, Nat.testBit_two_pow_self])
    rw [apart_taken (hall set hcore.1).1 hget hmeets hc] at hread
    cases hread
  · intro set id id' p p' a hp hp' hid hid' hfollow hfollow'
    obtain ⟨stop, follow, c, hget, hmeets, hmc, rfl, hc⟩ := h.exists_end hp hid.2 hfollow
    obtain ⟨stop', follow', c', hget', hmeets', hmc', heq, hc'⟩ := h.exists_end hp' hid'.2 hfollow'
    obtain rfl := h.injective hmc' hmc heq
    exact apart_unique (hall set hid.1).1 hget hget' hmeets hmeets' hc hc'

end Outline

end ShaderFront
