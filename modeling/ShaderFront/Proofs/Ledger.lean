import Mathlib
import ShaderFront.Proofs.Outline
import ShaderFront.Proofs.Potential

/-!
# Ledgers

A ledger gives the symbols of an outline their worth, so that every reduction costs something. All tokens are worth the same,
more than any nonterminal. A buried token keeps its worth, unless something may vanish right after it: then the worth was
spent. Buried nonterminals are worth nothing.

Whether a ledger is right is checked production by production (`Outline.isPaid`). If it is, every parse ends in as many moves as
its tokens allow for (`Outline.Describes.budget`).
-/

namespace ShaderFront.Outline

/-- What the symbols of an outline are worth. -/
structure Ledger where
  /-- The worth of each nonterminal. -/
  worth : List (Nat × Nat)
  /-- The tokens after which something may vanish. -/
  opening : Nat
  /-- The worth of a token. -/
  cap : Nat

namespace Ledger

variable (l : Ledger)

/-- The worth of a nonterminal in a list; `0` if it is not there. -/
def rate (worth : List (Nat × Nat)) (code : Nat) : Nat :=
  match worth with
  | [] => 0
  | (x, value) :: rest => bif Nat.beq x code then value else rate rest code

/-- What a symbol is worth on top of the stack. -/
def top (code : Nat) : Nat := bif isToken code then l.cap else rate l.worth code

/-- What a symbol is worth below others. -/
def buried (code : Nat) : Nat := bif isToken code && !l.opening.testBit code then l.cap else 0

/-- What a body is worth on top of the stack. -/
def value : List Nat → Nat
  | [] => 0
  | [x] => l.top x
  | x :: rest => l.buried x + value rest

/-- Whether a nonterminal that vanishes is paid for by the symbol before it, wherever a place is brought in after that. -/
def coversIn (s : Survey) (id head : Nat) : List Nat → Bool
  | x :: y :: rest =>
    (!(look s.entry y).testBit (place id 0) || Nat.blt (l.top head + l.buried x) (l.top x)) && coversIn s id head (y :: rest)
  | _ => true

/-- Whether a production that vanishes is paid for. -/
def covers (o : Outline) (s : Survey) (id head : Nat) : Bool :=
  (!(look s.entry 1).testBit (place id 0) || Nat.blt (l.top head) l.cap) && o.all fun p => l.coversIn s id head p.2

/-- Whether the productions from a number on are paid for. -/
def paysFrom (o : Outline) (s : Survey) : Nat → Outline → Bool
  | _, [] => true
  | id, (head, body) :: rest =>
    (match body with
      | [] => l.covers o s id head
      | _ :: _ => Nat.blt (l.top head) (l.value body)) && paysFrom o s (id + 1) rest

/-! A ledger is found by going through the productions a few times: the last symbol of a body must be worth more than the
head, unless a token of the body pays. -/

/-- Raises the worth of a nonterminal above that of another. -/
def raise (code above : Nat) : List (Nat × Nat) → List (Nat × Nat)
  | [] => [(code, above + 1)]
  | (x, old) :: rest => bif Nat.beq x code then (x, max old (above + 1)) :: rest else (x, old) :: raise code above rest

/-- The last symbol of a body, unless a token before it pays. -/
def payer? : List Nat → Option Nat
  | [] => none
  | [x] => bif isToken x then none else some x
  | x :: rest => bif isToken x && !l.opening.testBit x then none else payer? rest

/-- Marks the tokens after which a production may vanish, and raises the worth of such nonterminals. -/
def openIn (s : Survey) (id head : Nat) (l : Ledger) : List Nat → Ledger
  | x :: y :: rest =>
    openIn s id head
      (bif (look s.entry y).testBit (place id 0) then
        bif isToken x then { l with opening := Nat.lor l.opening (2 ^ x) }
        else { l with worth := raise x (rate l.worth head) l.worth }
      else l) (y :: rest)
  | _ => l

/-- Raises the worth of symbols, production by production. -/
def settle (o : Outline) (s : Survey) (l : Ledger) : Nat → Outline → Ledger
  | _, [] => l
  | id, (head, body) :: rest =>
    let l :=
      match body with
      | [] => o.foldl (fun l p => openIn s id head l p.2) l
      | _ :: _ =>
        match l.payer? body with
        | none => l
        | some x => { l with worth := raise x (rate l.worth head) l.worth }
    settle o s l (id + 1) rest

/-- Goes through the productions some number of times. -/
def settled (o : Outline) (s : Survey) (cap rounds : Nat) : Ledger := Nat.repeat (settle o s · 0 o) rounds ⟨[], 0, cap⟩

end Ledger

/-- **The check of an outline with a ledger.** -/
def isPaid (o : Outline) (s : Survey) (l : Ledger) : Bool :=
  l.worth.all (fun entry => Nat.ble entry.2 l.cap) && l.paysFrom o s 0 o

variable {o : Outline} {g : Grammar} {number : Nat → SymbolId} {s : Survey} {l : Ledger}

/-! ## What the checks say -/

theorem Ledger.buried_le (code : Nat) : l.buried code ≤ l.top code := by
  rw [buried, top]
  cases isToken code with
  | false => exact Nat.zero_le _
  | true => cases l.opening.testBit code <;> simp

theorem Ledger.value_concat (init : List Nat) (last : Nat) :
    l.value (init ++ [last]) = (init.map l.buried).sum + l.top last := by
  induction init with
  | nil => simp [value]
  | cons x rest ih =>
    have hcons : l.value (x :: (rest ++ [last])) = l.buried x + l.value (rest ++ [last]) := by
      cases rest <;> rfl
    rw [List.cons_append, hcons, ih, List.map_cons, List.sum_cons, Nat.add_assoc]

theorem Ledger.paysFrom_spec : ∀ {rest : Outline} {start : Nat}, l.paysFrom o s start rest = true →
    ∀ {k head : Nat} {body : List Nat}, rest[k]? = some (head, body) →
    (body = [] → l.covers o s (start + k) head = true) ∧ (body ≠ [] → l.top head < l.value body)
  | [], _, _, _, _, _, hk => by simp at hk
  | (head, body) :: rest, start, h, k, head', body', hk => by
    obtain ⟨hfirst, hrest⟩ := (Bool.and_eq_true _ _).mp h
    cases k with
    | zero =>
      cases hk
      cases body with
      | nil => exact ⟨fun _ => hfirst, fun hne => absurd rfl hne⟩
      | cons x xs => exact ⟨nofun, fun _ => Nat.le_of_ble_eq_true hfirst⟩
    | succ k =>
      rw [Nat.add_comm k 1, ← Nat.add_assoc]
      exact paysFrom_spec hrest hk

theorem Ledger.coversIn_spec {id head : Nat} : ∀ {body : List Nat}, l.coversIn s id head body = true → ∀ {dot x y : Nat},
    body[dot]? = some x → body[dot + 1]? = some y → (look s.entry y).testBit (place id 0) = true →
    l.top head + l.buried x < l.top x
  | [], _, _, _, _, hx, _, _ => by simp at hx
  | [z], _, dot, _, _, _, hy, _ => by cases dot <;> simp at hy
  | z :: w :: rest, h, dot, x, y, hx, hy, hentry => by
    obtain ⟨hfirst, hrest⟩ := (Bool.and_eq_true _ _).mp h
    cases dot with
    | zero =>
      cases hx
      cases hy
      rw [hentry, Bool.not_true, Bool.false_or] at hfirst
      exact Nat.le_of_ble_eq_true hfirst
    | succ dot => exact coversIn_spec hrest hx hy hentry

/-- What an expansion brings in is in the survey. -/
theorem Describes.corner (h : o.Describes g number) (hs : s.isClosed o = true) {x : Nat} (hx : o.Mentions x)
    (hexpanded : isExpanded (o.gates s) (look s.entry x) = true) {id : ProductionId} (hcorner : g.Corner (number x) id) :
    (look s.entry x).testBit (place id 0) = true := by
  induction hcorner with
  | here hp hhead =>
    obtain ⟨head, body, ho, hphead, -⟩ := h.production hp
    obtain rfl := h.injective (mentions_of_getElem? ho).1 hx (hphead.symm.trans hhead)
    exact (Survey.fits hs ho).entry
  | @deeper id id' p p' _ hp hhead hp' ih =>
    obtain ⟨head, body, y, ho, -, -, hy, hpy, hmy⟩ := h.exists_code hp hhead
    obtain ⟨head', body', ho', hphead', -⟩ := h.production hp'
    obtain rfl := h.injective hmy (mentions_of_getElem? ho').1 (hpy.symm.trans hphead')
    exact testBit_of_isExpanded hs hexpanded ho hy ih (Survey.fits hs ho').entry

/-! ## Budgets -/

open Classical in
/-- The value of a code for its number. -/
noncomputable def byNumber (o : Outline) (number : Nat → SymbolId) (f : Nat → Nat) (symbol : SymbolId) : Nat :=
  if h : ∃ x, o.Mentions x ∧ number x = symbol then f h.choose else 0

theorem Describes.byNumber_eq (h : o.Describes g number) (f : Nat → Nat) {x : Nat} (hx : o.Mentions x) :
    o.byNumber number f (number x) = f x := by
  have hex : ∃ y, o.Mentions y ∧ number y = number x := ⟨x, hx, rfl⟩
  rw [byNumber, dif_pos hex, h.injective hex.choose_spec.1 hx hex.choose_spec.2]

theorem Describes.map_byNumber (h : o.Describes g number) (f : Nat → Nat) {codes : List Nat}
    (hcodes : ∀ x ∈ codes, o.Mentions x) : (codes.map number).map (o.byNumber number f) = codes.map f := by
  rw [List.map_map]
  exact List.map_congr_left fun x hx => h.byNumber_eq f (hcodes x hx)

theorem Ledger.rate_le {cap : Nat} {worth : List (Nat × Nat)} (hworth : ∀ entry ∈ worth, Nat.ble entry.2 cap = true)
    (code : Nat) : rate worth code ≤ cap := by
  induction worth with
  | nil => exact Nat.zero_le _
  | cons entry rest ih =>
    obtain ⟨hfirst, hrest⟩ := List.forall_mem_cons.mp hworth
    rw [rate]
    cases Nat.beq entry.1 code with
    | false => exact ih hrest
    | true => exact Nat.le_of_ble_eq_true hfirst

/-- **A ledger that passes the check is a budget.** -/
theorem Describes.budget (h : o.Describes g number) (hs : s.isClosed o = true) (hdeep : o.isDeep s = true)
    (hpaid : o.isPaid s l = true) : g.Budget (o.byNumber number l.top) (o.byNumber number l.buried) l.cap l.cap := by
  obtain ⟨hcap, hpays⟩ := (Bool.and_eq_true _ _).mp hpaid
  have hpay := fun {id head : Nat} {body : List Nat} (ho : o[id]? = some (head, body)) => Ledger.paysFrom_spec hpays ho
  simp only [Nat.zero_add] at hpay
  refine ⟨fun symbol => ?_, fun {symbol} _ => ?_, ?_, ?_, ?_⟩
  · rw [byNumber, byNumber]
    split
    · exact l.buried_le _
    · exact le_rfl
  · rw [byNumber]
    split
    · rw [Ledger.top]
      cases isToken _ with
      | true => exact le_rfl
      | false => exact Ledger.rate_le (List.all_eq_true.mp hcap) _
    · exact Nat.zero_le _
  · intro id p init last hp hbody
    obtain ⟨head, body, ho, hphead, hpbody⟩ := h.production hp
    obtain ⟨hmhead, hmbody⟩ := mentions_of_getElem? ho
    obtain ⟨init', hinit, last', hlast, rfl⟩ : ∃ init', init'.map number = init ∧ ∃ last', number last' = last ∧
        body = init' ++ [last'] := by
      obtain ⟨init', tail, rfl, hinit, htail⟩ := List.map_eq_append_iff.mp (hpbody.symm.trans hbody)
      obtain ⟨last', rfl, hlast⟩ := List.map_eq_singleton_iff.mp htail
      exact ⟨init', hinit, last', hlast, rfl⟩
    obtain ⟨hminit, hmlast⟩ := List.forall_mem_append.mp hmbody
    have hless := (hpay ho).2 (by simp)
    rw [Ledger.value_concat] at hless
    rw [hphead, ← hinit, ← hlast, h.byNumber_eq _ hmhead, h.byNumber_eq _ (hmlast _ List.mem_cons_self),
      h.map_byNumber _ hminit]
    exact hless
  · intro id p hp hbody hcorner
    obtain ⟨head, body, ho, hphead, hpbody⟩ := h.production hp
    obtain rfl : body = [] := by simpa [hbody] using hpbody
    have hcovers := ((Bool.and_eq_true _ _).mp ((hpay ho).1 rfl)).1
    rw [h.start] at hcorner
    rw [h.corner hs (.inr (.inl rfl)) ((Bool.and_eq_true _ _).mp hdeep).1 hcorner, Bool.not_true, Bool.false_or] at hcovers
    rw [hphead, h.byNumber_eq _ (mentions_of_getElem? ho).1]
    exact Nat.le_of_ble_eq_true hcovers
  · intro id id' p p' dot symbol next hp hbody hp' hsymbol hnext hcorner
    obtain ⟨head, body, ho, hphead, hpbody⟩ := h.production hp
    obtain rfl : body = [] := by simpa [hbody] using hpbody
    have hcovers := ((Bool.and_eq_true _ _).mp ((hpay ho).1 rfl)).2
    obtain ⟨head', body', x, ho', -, hpbody', hx, rfl, hmx⟩ := h.exists_code hp' hsymbol
    rw [hpbody', List.getElem?_map] at hnext
    obtain ⟨y, hy, rfl⟩ := Option.map_eq_some_iff.mp hnext
    have hymem := List.mem_of_getElem? hy
    have hexpanded := isExpanded_entry hdeep (gate_mem (s := s) ho' hymem)
    have hentry := h.corner hs ((mentions_of_getElem? ho').2 y hymem) hexpanded hcorner
    have hin := List.all_eq_true.mp hcovers _ (List.mem_of_getElem? ho')
    rw [hphead, h.byNumber_eq _ (mentions_of_getElem? ho).1, h.byNumber_eq _ hmx, h.byNumber_eq _ hmx]
    exact Ledger.coversIn_spec hin hx hy hentry

end ShaderFront.Outline
