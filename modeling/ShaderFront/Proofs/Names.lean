import Mathlib
import ShaderFront.Proofs.Built

/-!
# The names of a grammar

No requests make two pending symbols of one name (`Builder.namesApart_after`). Building a grammar adds an end of the input and an empty
symbol where no terminal has the role, under names of their own, and does not ask whether a symbol has such a name already. So the
names of a grammar are different, and a symbol is found by its name, if and only if these two names were kept free
(`Grammar.names_nodup_iff`). A terminal can take the name of the end of the input, and then the end of the input is not found by its
name (`Grammar.endName_twice`).
-/

namespace ShaderFront

namespace Builder

variable {b b' : Builder}

/-! ## Pending symbols -/

/-- No two pending symbols have one name. -/
structure NamesApart (b : Builder) : Prop where
  unique : ∀ {i j : Nat} {name : String}, b.Knows name i → b.Knows name j → i = j

theorem namesApart_new : NamesApart {} := by
  refine ⟨?_⟩
  rintro i j name ⟨s, hs, -⟩ ⟨t, ht, -⟩
  rw [(getElem?_symbols_new hs).1, (getElem?_symbols_new ht).1]

/-- A symbol with a new name may be added. -/
theorem NamesApart.push (h : b.NamesApart) {s : PendingSymbol} (hname : b.indexOf? s.name = none) :
    NamesApart { b with symbols := b.symbols.push s } := ⟨Knows.unique_push h.unique hname⟩

/-- Names stay apart in a builder that knows them at the same indices. -/
theorem NamesApart.of_knows (h : b.NamesApart) (hknows : ∀ {i : Nat} {name : String}, b'.Knows name i → b.Knows name i) :
    b'.NamesApart := ⟨fun hi hj => h.unique (hknows hi) (hknows hj)⟩

theorem knows_of_pushProduction {head i : Nat} {body : List Nat} {name : String} (h : (b.pushProduction head body).Knows name i) :
    b.Knows name i := by
  obtain ⟨s, hs, rfl⟩ := h
  obtain ⟨t, ht, hname, -⟩ := symbols_pushProduction hs
  exact ⟨t, ht, hname.symm⟩

theorem NamesApart.intern (h : b.NamesApart) (name : String) : (intern name b).2.NamesApart := by
  unfold Builder.intern
  split
  · exact h
  · rename_i hname
    exact h.push hname

theorem NamesApart.internAll : ∀ (names : List String) {b : Builder}, b.NamesApart → (internAll names b).2.NamesApart
  | [], _, h => h
  | name :: rest, _, h => NamesApart.internAll rest (h.intern name)

theorem NamesApart.addTerminal (h : b.NamesApart) (name : String) (id : SymbolId) (role : Role) :
    (addTerminal name id role b).2.NamesApart := by
  unfold Builder.addTerminal
  split
  · exact h
  · rename_i hname
    split
    · exact h
    · split
      · exact h
      · exact h.push (by simpa using hname)

theorem NamesApart.addProductionSymbols (h : b.NamesApart) (head : String) (body : List String) :
    (addProductionSymbols head body b).2.NamesApart := by
  have h₁ := h.intern head
  have h₂ := NamesApart.internAll (body.filter (· ≠ Symbol.emptyName)) h₁
  unfold Builder.addProductionSymbols
  simp only
  split
  · exact h₁
  · split
    · exact h₂
    · exact h₂.of_knows knows_of_pushProduction

theorem NamesApart.addRulesFrom : ∀ (rules : List (String × String)) (index : Nat) {b : Builder}, b.NamesApart →
    (addRulesFrom index rules b).2.NamesApart
  | [], _, _, h => h
  | (head, body) :: rest, index, b, h => by
    have h₁ : (Builder.addProduction head body b).2.NamesApart := h.addProductionSymbols head (Text.words body)
    unfold Builder.addRulesFrom
    split
    · rename_i hcall
      rwa [hcall] at h₁
    · rename_i hcall
      rw [hcall] at h₁
      split
      · exact NamesApart.addRulesFrom rest _ h₁
      · exact h₁

theorem NamesApart.excludeFromWildcard (h : b.NamesApart) (name : String) :
    (excludeFromWildcard name b).2.NamesApart := by
  unfold Builder.excludeFromWildcard
  split
  · split
    · dsimp only
      split
      · exact h
      · exact h.of_knows id
    · exact h
  · exact h

/-- One request keeps the names apart. -/
theorem NamesApart.apply (h : b.NamesApart) : ∀ request : Request, (request.apply b).NamesApart
  | .terminal name id role => h.addTerminal name id role
  | .exclude name => h.excludeFromWildcard name
  | .production head body => h.addProductionSymbols head (Text.words body)
  | .symbols head body => h.addProductionSymbols head body
  | .rules list => NamesApart.addRulesFrom list 0 h

/-- **No requests make two pending symbols of one name.** -/
theorem namesApart_after (requests : List Request) : (after requests).NamesApart := by
  suffices ∀ b : Builder, b.NamesApart → (requests.foldl Request.apply b).NamesApart from this {} namesApart_new
  induction requests with
  | nil => exact fun _ h => h
  | cons request rest ih => exact fun b h => ih _ (h.apply request)

/-- The name of a role is kept free: a symbol has the role, so that none is added for it, or no symbol has the name. -/
def Reserves (b : Builder) (role : Role) (name : String) : Prop :=
  (∃ s ∈ b.symbols, s.role = role) ∨ ∀ s ∈ b.symbols, s.name ≠ name

instance (b : Builder) (role : Role) (name : String) : Decidable (b.Reserves role name) :=
  inferInstanceAs (Decidable (_ ∨ _))

end Builder

/-! ## Built grammars -/

namespace Grammar

open Builder (roleSymbol Knows)

variable {b : Builder} {g : Grammar}

/-- A symbol of a grammar is in the slot of its number. -/
theorem Represents.symbol?_of_mem (h : g.Represents b) {s : Symbol} (hs : s ∈ g.symbols) : g.symbol? s.id = some s := by
  obtain ⟨slot, hslot, rfl⟩ := List.mem_filterMap.mp hs
  obtain ⟨id, hid⟩ := Array.getElem?_of_mem (Array.mem_toList_iff.mp hslot)
  have hsymbol : g.symbol? id = some s := by rw [symbol?, hid]; rfl
  rw [h.slot hsymbol, hsymbol]

/-- No symbol of a grammar is listed twice. -/
theorem Represents.nodup_symbols (h : g.Represents b) : g.symbols.Nodup := by
  have hslot : ∀ {i : Nat} {s : Symbol} (hi : i < g.slots.toList.length), g.slots.toList[i] = some s → s.id = i := by
    intro i s hi hs
    refine h.slot ?_
    rw [symbol?, Array.getElem?_eq_getElem (by simpa using hi), ← Array.getElem_toList, hs]
    rfl
  rw [List.Nodup, symbols, List.pairwise_filterMap, List.pairwise_iff_getElem]
  intro i j hi hj hij s hs t ht heq
  have hid := hslot hi hs
  rw [heq, hslot hj ht] at hid
  exact Nat.ne_of_gt hij hid

/-- A grammar adds a symbol for a role that no pending symbol has, under a number of its own. -/
structure Adds (b : Builder) (role : Role) (name : String) (s : Symbol) : Prop where
  missing : ∀ t ∈ b.symbols, t.role ≠ role
  name : s.name = name
  fresh : ∀ {i : Nat}, i < b.symbols.size → b.idAt i ≠ s.id

/-- The symbol of a role was pending, or it was added. -/
theorem fills_cases {role : Role} {name : String} {id : SymbolId} (h : b.Fills g role name id) :
    (∃ i < b.symbols.size, id = b.idAt i) ∨
      g.symbol? id = some (roleSymbol role name id) ∧ Adds b role name (roleSymbol role name id) := by
  rcases h with ⟨i, s, hs, -, rfl⟩ | ⟨hmissing, hsymbol⟩
  · exact .inl ⟨i, (Array.getElem?_eq_some_iff.mp hs).1, rfl⟩
  · refine .inr ⟨hsymbol, fun t ht => ?_, rfl, fun hi => (hmissing _ _ (Array.getElem?_eq_getElem hi)).2⟩
    obtain ⟨i, hi⟩ := Array.getElem?_of_mem ht
    exact (hmissing i t hi).1

/-- Every symbol of a grammar was pending, or was added as the end of the input or as the empty symbol. -/
theorem Represents.symbol_cases (h : g.Represents b) {s : Symbol} (hs : s ∈ g.symbols) :
    (∃ i < b.symbols.size, s.id = b.idAt i ∧ b.Knows s.name i) ∨
      s.id = g.endOfInput ∧ Adds b .endOfInput Symbol.endName s ∨ s.id = g.empty ∧ Adds b .empty Symbol.emptyName s := by
  have hsymbol := h.symbol?_of_mem hs
  have hpending : ∀ {i : Nat}, i < b.symbols.size → s.id = b.idAt i →
      ∃ i < b.symbols.size, s.id = b.idAt i ∧ b.Knows s.name i := by
    intro i hi heq
    have hfrozen := h.pending (Array.getElem?_eq_getElem hi)
    rw [← heq, hsymbol] at hfrozen
    exact ⟨i, hi, heq, _, Array.getElem?_eq_getElem hi, (congrArg Symbol.name (Option.some.inj hfrozen)).symm⟩
  rcases h.cases hsymbol with hid | hid | ⟨i, hi, hid⟩
  · rcases fills_cases h.endOfInput with ⟨i, hi, heq⟩ | ⟨hadded, hadds⟩
    · exact .inl (hpending hi (hid.trans heq))
    · rw [← hid, hsymbol] at hadded
      rw [← hid, ← Option.some.inj hadded] at hadds
      exact .inr (.inl ⟨hid, hadds⟩)
  · rcases fills_cases h.empty with ⟨i, hi, heq⟩ | ⟨hadded, hadds⟩
    · exact .inl (hpending hi (hid.trans heq))
    · rw [← hid, hsymbol] at hadded
      rw [← hid, ← Option.some.inj hadded] at hadds
      exact .inr (.inr ⟨hid, hadds⟩)
  · exact .inl (hpending hi hid)

/-- A pending symbol has the name of an added one only if the name was not kept free. -/
theorem Adds.not_knows {role : Role} {name : String} {s : Symbol} (h : Adds b role name s) (hfree : b.Reserves role name) {i : Nat} :
    ¬b.Knows s.name i := by
  rintro ⟨t, ht, htname⟩
  have hmem := Array.mem_of_getElem? ht
  rcases hfree with ⟨u, hu, hrole⟩ | hname
  · exact h.missing u hu hrole
  · exact hname t hmem (htname.trans h.name)

/-- If the names of the roles were kept free, two symbols of one name are the same. -/
theorem Represents.eq_of_name (h : g.Represents b) (hnames : b.NamesApart) (hend : b.Reserves .endOfInput Symbol.endName)
    (hempty : b.Reserves .empty Symbol.emptyName) {s t : Symbol} (hs : s ∈ g.symbols) (ht : t ∈ g.symbols) (hname : s.name = t.name) :
    s = t := by
  suffices hid : s.id = t.id by
    have hsymbol := h.symbol?_of_mem hs
    rw [hid, h.symbol?_of_mem ht] at hsymbol
    exact (Option.some.inj hsymbol).symm
  have hne : Symbol.endName ≠ Symbol.emptyName := by decide
  rcases h.symbol_cases hs with ⟨i, -, hsid, hi⟩ | ⟨hsid, hadds⟩ | ⟨hsid, hadds⟩ <;>
    rcases h.symbol_cases ht with ⟨j, -, htid, hj⟩ | ⟨htid, hadds'⟩ | ⟨htid, hadds'⟩
  · rw [hsid, htid, hnames.unique hi (hname ▸ hj)]
  · exact absurd (hname ▸ hi) (hadds'.not_knows hend)
  · exact absurd (hname ▸ hi) (hadds'.not_knows hempty)
  · exact absurd (hname ▸ hj) (hadds.not_knows hend)
  · exact hsid.trans htid.symm
  · exact absurd (hadds.name.symm.trans (hname.trans hadds'.name)) hne
  · exact absurd (hname ▸ hj) (hadds.not_knows hempty)
  · exact absurd (hadds'.name.symm.trans (hname.symm.trans hadds.name)) hne
  · exact hsid.trans htid.symm

/-- If no two symbols have one name, the name of a role was kept free. -/
theorem Represents.reserves (h : g.Represents b) (hnodup : (g.symbols.map (·.name)).Nodup) {role : Role} {name : String} {id : SymbolId}
    (hfills : b.Fills g role name id) : b.Reserves role name := by
  rcases hfills with ⟨i, s, hs, hrole, -⟩ | ⟨hmissing, hsymbol⟩
  · exact .inl ⟨s, Array.mem_of_getElem? hs, hrole⟩
  · refine .inr fun s hs hname => ?_
    obtain ⟨i, hi⟩ := Array.getElem?_of_mem hs
    have heq := List.inj_on_of_nodup_map hnodup (mem_symbols_of_symbol? (h.pending hi)) (mem_symbols_of_symbol? hsymbol) hname
    exact (hmissing i s hi).2 (congrArg Symbol.id heq)

/-- Symbols are found by their names if and only if the names are different. -/
theorem symbolNamed?_iff (hnodup : g.symbols.Nodup) :
    (∀ s ∈ g.symbols, g.symbolNamed? s.name = some s) ↔ (g.symbols.map (·.name)).Nodup := by
  rw [List.nodup_map_iff_inj_on hnodup]
  constructor
  · intro h s hs t ht hname
    have hfound := h s hs
    rw [hname, h t ht] at hfound
    exact (Option.some.inj hfound).symm
  · intro h s hs
    rw [symbolNamed?]
    cases hfound : g.symbols.find? (·.name = s.name) with
    | none => exact absurd (decide_eq_true rfl) (List.find?_eq_none.mp hfound s hs)
    | some t => rw [h t (List.mem_of_find?_eq_some hfound) s hs (by simpa using List.find?_some hfound)]

/-- **When the names of a grammar are different**: if and only if the names of the end of the input and of the empty symbol were kept
free, whatever was asked of the builder. And then, and only then, every symbol is found by its name. -/
theorem names_nodup_iff {requests : List Builder.Request} (hbuild : (Builder.after requests).build = .ok g) :
    let free := (Builder.after requests).Reserves .endOfInput Symbol.endName ∧
      (Builder.after requests).Reserves .empty Symbol.emptyName
    ((g.symbols.map (·.name)).Nodup ↔ free) ∧ ((∀ s ∈ g.symbols, g.symbolNamed? s.name = some s) ↔ free) := by
  obtain ⟨h, -⟩ := represents_of_build hbuild
  have hiff : (g.symbols.map (·.name)).Nodup ↔ (Builder.after requests).Reserves .endOfInput Symbol.endName ∧
      (Builder.after requests).Reserves .empty Symbol.emptyName := by
    constructor
    · exact fun hnodup => ⟨h.reserves hnodup h.endOfInput, h.reserves hnodup h.empty⟩
    · rintro ⟨hend, hempty⟩
      rw [List.nodup_map_iff_inj_on h.nodup_symbols]
      exact fun s hs t ht => h.eq_of_name (Builder.namesApart_after requests) hend hempty hs ht
  exact ⟨hiff, (symbolNamed?_iff h.nodup_symbols).trans hiff⟩

/-- Requests for two terminals, one of which is the end of the input. The other one has the name that an end of the input is given
if there is none. -/
def endedRequests : List Builder.Request :=
  [.terminal "eof" 7 .endOfInput, .terminal "$END$" 1 .common, .symbols "$START$" ["S"], .symbols "S" ["$END$"]]

/-- A terminal may have the name of the end of the input if another one is the end of the input. -/
theorem names_nodup_iff_ended :
    let g := (Builder.after endedRequests).freeze
    (Builder.after endedRequests).build = .ok g ∧ (g.symbols.map (·.name)).Nodup ∧
      (∀ s ∈ g.symbols, g.symbolNamed? s.name = some s) ∧ g.symbolName g.endOfInput = "eof" := by
  intro g
  have hbuild : (Builder.after endedRequests).build = .ok g := Builder.build_of_isOk (by decide +kernel)
  have hfree : (Builder.after endedRequests).Reserves .endOfInput Symbol.endName ∧
      (Builder.after endedRequests).Reserves .empty Symbol.emptyName := by decide +kernel
  obtain ⟨hnames, hfound⟩ := names_nodup_iff hbuild
  exact ⟨hbuild, hnames.mpr hfree, hfound.mpr hfree, by decide +kernel⟩

/-- **The end of the input can share its name.** A terminal without a role takes it first, and is found by it. -/
theorem endName_twice :
    let requests : List Builder.Request := [.terminal "$END$" 1 .common, .production "$START$" "$END$"]
    let g := (Builder.after requests).freeze
    (Builder.after requests).build = .ok g ∧ g.symbols.map (·.name) = ["$START$", "$END$", "$END$", "$EMPTY$"] ∧
      ¬(g.symbols.map (·.name)).Nodup ∧ g.symbolName g.endOfInput = "$END$" ∧ (g.symbolNamed? "$END$").map (·.id) = some 1 ∧
      g.endOfInput = 2 := by
  intro requests g
  exact ⟨Builder.build_of_isOk (by decide +kernel), by decide +kernel, by decide +kernel, by decide +kernel, by decide +kernel,
    by decide +kernel⟩

end Grammar

end ShaderFront
