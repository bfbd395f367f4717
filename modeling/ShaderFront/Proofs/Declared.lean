import Mathlib
import ShaderFront.Variable.Collect

/-!
# The variables of a shader and the table over whole runs

What a shader declares is said without a collector (`CompilationUnit.declared`). A visit records exactly these
variables, in their order, and notes the comments it cannot read on the way (`recorded_visit`). Recording replaces in
place or adds at the end, so that over any run of visits and selections the names stay different
(`names_nodup_after`), and a visit that begins with an empty table leaves each name in the place of its first
declaration with the record of its last one.
-/

namespace ShaderFront

open Shader (TagComment Block Declaration External CompilationUnit Storage)

/-! ## Declared variables -/

/-- The tags of the comments that can be read. -/
def readableTags (comments : List TagComment) : List Tag :=
  comments.flatMap fun comment => (Tag.parse comment.content comment.contentOffset).toOption.getD []

namespace Shader

/-- The variables of a block: one with the name of the instance, or else the members. -/
def Block.declared (block : Block) (tags : List Tag) : List Variable :=
  match block.inst with
  | some inst =>
    [Collector.variableOf ⟨some block.qualifier, ⟨.named block.name, none⟩⟩ none inst block.array tags]
  | none =>
    block.members.flatMap fun member =>
      member.declarators.map fun d =>
        Collector.variableOf member.type (some block.qualifier) d.name d.array
          (tags ++ readableTags (member.leading ++ member.trailing))

/-- The variables of a declaration with tags around it. -/
def Declaration.declared (declaration : Declaration) (tags : List Tag) : List Variable :=
  match declaration with
  | .variableList vs => vs.declarators.map fun d => Collector.variableOf vs.type none d.name d.array tags
  | .block b => b.declared tags
  | .prototype _ => []
  | .precision _ _ => []
  | .qualifier _ => []

/-- The variables of a declaration with comments. -/
def External.declared : External → List Variable
  | .declaration leading d trailing => d.declared (readableTags (leading ++ trailing))
  | .function _ _ _ => []

/-- The variables of a shader, in the order of their declarations; a name may occur in several of them. -/
def CompilationUnit.declared (unit : CompilationUnit) : List Variable := unit.declarations.flatMap External.declared

end Shader

/-! ## Placing a variable -/

namespace VariableTable

variable {v : Variable} {vs : List Variable}

/-- What is replaced is the variable of that name. -/
theorem place_fst (v : Variable) (vs : List Variable) : (place v vs).1 = vs.find? (·.name = v.name) := by
  induction vs with
  | nil => rfl
  | cons w vs ih =>
    rw [place, List.find?_cons]
    by_cases h : w.name = v.name
    · simp [h]
    · simpa [h] using ih

/-- A name keeps its place, and a new one comes last. -/
theorem names_place (v : Variable) (vs : List Variable) :
    (place v vs).2.map (·.name) =
      if v.name ∈ vs.map (·.name) then vs.map (·.name) else vs.map (·.name) ++ [v.name] := by
  induction vs with
  | nil => rfl
  | cons w vs ih =>
    rw [place]
    by_cases h : w.name = v.name
    · simp [h]
    · simp only [if_neg h, List.map_cons, ih, List.mem_cons, Ne.symm h, false_or]
      split <;> rfl

/-- A name stands for the variable placed last under it. -/
theorem find?_place (v : Variable) (vs : List Variable) (name : String) :
    (place v vs).2.find? (·.name = name) = if v.name = name then some v else vs.find? (·.name = name) := by
  induction vs with
  | nil => by_cases h : v.name = name <;> simp [place, h]
  | cons w vs ih =>
    rw [place]
    by_cases h : w.name = v.name
    · by_cases hv : v.name = name <;> simp [h, hv]
    · rw [if_neg h, List.find?_cons, List.find?_cons]
      by_cases hw : w.name = name
      · have hv : v.name ≠ name := fun hv => h (hw.trans hv.symm)
        simp [hw, hv]
      · simpa [hw] using ih

theorem names_insert (t : VariableTable) (v : Variable) :
    (t.insert v).2.names = if v.name ∈ t.names then t.names else t.names ++ [v.name] := names_place v t.entries

theorem get?_insert (t : VariableTable) (v : Variable) (name : String) :
    (t.insert v).2.get? name = if v.name = name then some v else t.get? name := find?_place v t.entries name

theorem insert_fst (t : VariableTable) (v : Variable) : (t.insert v).1 = t.get? v.name := place_fst v t.entries

theorem get?_isSome {t : VariableTable} {name : String} : (t.get? name).isSome ↔ name ∈ t.names := by
  simp [get?, names, List.find?_isSome]

end VariableTable

/-! ## Recording -/

namespace Collector

/-- The note of a second declaration. -/
def redeclaration (name : String) : String := s!"redeclaration of `{name}`"

/-- Whether a note is about a comment. -/
def AboutComment (message : String) : Prop := ∃ text problem : String, message = s!"invalid annotation `{text}`: {problem}"

/-- What a collector has done between two moments: it has recorded variables, in their order, and noted comments. -/
inductive Recorded : Collector → List Variable → Collector → Prop
  | nil (c : Collector) : Recorded c [] c
  | note {c d : Collector} {vs : List Variable} {message : String} : Recorded c vs d → AboutComment message →
      Recorded c vs (d.note message)
  | insert {c d : Collector} {vs : List Variable} (v : Variable) : Recorded c vs d → Recorded c (vs ++ [v]) (d.insert v)

theorem Recorded.trans {c d e : Collector} {vs ws : List Variable} (hcd : Recorded c vs d) (hde : Recorded d ws e) :
    Recorded c (vs ++ ws) e := by
  induction hde with
  | nil => simpa using hcd
  | note _ hmessage ih => exact ih.note hmessage
  | insert v _ ih => simpa using ih.insert v

/-- A walk over a list records what its steps record. -/
theorem recorded_foldl {α : Type} {step : Collector → α → Collector} {declared : α → List Variable} {items : List α}
    (h : ∀ c, ∀ a ∈ items, Recorded c (declared a) (step c a)) (c : Collector) :
    Recorded c (items.flatMap declared) (items.foldl step c) := by
  induction items generalizing c with
  | nil => exact .nil c
  | cons a items ih =>
    exact (h c a List.mem_cons_self).trans (ih (fun c b hb => h c b (List.mem_cons_of_mem a hb)) _)

/-- A walk that records one variable for each item. -/
theorem recorded_foldl_insert {α : Type} (f : α → Variable) (items : List α) (c : Collector) :
    Recorded c (items.map f) (items.foldl (fun c a => c.insert (f a)) c) := by
  rw [List.map_eq_flatMap]
  exact recorded_foldl (fun c a _ => (Recorded.nil c).insert (f a)) c

theorem readableTags_cons (comment : TagComment) (comments : List TagComment) :
    readableTags (comment :: comments) =
      (Tag.parse comment.content comment.contentOffset).toOption.getD [] ++ readableTags comments :=
  List.flatMap_cons

/-- A comment is read, or noted. -/
theorem readComment_spec (c : Collector) (comment : TagComment) :
    (c.readComment comment).1 = (Tag.parse comment.content comment.contentOffset).toOption.getD [] ∧
      Recorded c [] (c.readComment comment).2 := by
  rw [readComment]
  generalize Tag.parse comment.content comment.contentOffset = parsed
  cases parsed with
  | ok tags => exact ⟨rfl, .nil c⟩
  | error e => exact ⟨rfl, (Recorded.nil c).note ⟨_, _, rfl⟩⟩

theorem readComments_spec (c : Collector) (comments : List TagComment) :
    (c.readComments comments).1 = readableTags comments ∧ Recorded c [] (c.readComments comments).2 := by
  induction comments generalizing c with
  | nil => exact ⟨rfl, .nil c⟩
  | cons comment comments ih =>
    obtain ⟨htags, hrecorded⟩ := readComment_spec c comment
    obtain ⟨hothers, hrest⟩ := ih (c.readComment comment).2
    rw [readComments, readableTags_cons, ← htags, ← hothers]
    exact ⟨rfl, hrecorded.trans hrest⟩

theorem recorded_visitBlock (c : Collector) (block : Block) (tags : List Tag) :
    Recorded c (block.declared tags) (c.visitBlock block tags) := by
  rw [visitBlock, Block.declared]
  cases block.inst with
  | some inst => exact (Recorded.nil c).insert _
  | none =>
    refine recorded_foldl (fun c member _ => ?_) c
    obtain ⟨htags, hrecorded⟩ := readComments_spec c (member.leading ++ member.trailing)
    rw [← htags]
    exact hrecorded.trans (recorded_foldl_insert _ member.declarators _)

theorem recorded_visitDeclaration (c : Collector) (declaration : Declaration) (tags : List Tag) :
    Recorded c (declaration.declared tags) (c.visitDeclaration declaration tags) := by
  cases declaration with
  | variableList vs => exact recorded_foldl_insert _ vs.declarators c
  | block block => exact recorded_visitBlock c block tags
  | prototype => exact .nil c
  | precision => exact .nil c
  | qualifier => exact .nil c

theorem recorded_visitExternal (c : Collector) (item : External) :
    Recorded c item.declared (c.visitExternal item) := by
  cases item with
  | declaration leading declaration trailing =>
    obtain ⟨htags, hrecorded⟩ := readComments_spec c (leading ++ trailing)
    rw [visitExternal, External.declared, ← htags]
    exact hrecorded.trans (recorded_visitDeclaration _ declaration _)
  | function => exact .nil c

/-- A visit records the variables that the shader declares. -/
theorem recorded_visit (c : Collector) (unit : CompilationUnit) : Recorded c unit.declared (c.visit unit) :=
  recorded_foldl (fun c item _ => recorded_visitExternal c item) c

/-! ## What is recorded -/

variable {c d : Collector} {vs : List Variable}

@[simp] theorem table_note (c : Collector) (message : String) : (c.note message).table = c.table := rfl

/-- What recording a variable does to the table and to the log. -/
theorem insert_spec (c : Collector) (v : Variable) :
    (c.insert v).table = (c.table.insert v).2 ∧
      (c.insert v).log = c.log ++ if v.name ∈ c.table.names then [redeclaration v.name] else [] := by
  have hfst := VariableTable.insert_fst c.table v
  have hmem := @VariableTable.get?_isSome c.table v.name
  rw [insert]
  generalize c.table.insert v = outcome at hfst ⊢
  obtain ⟨replaced, table⟩ := outcome
  rw [← show replaced = c.table.get? v.name from hfst] at hmem
  cases replaced with
  | none => simp [← hmem]
  | some w =>
    have hname : w.name = v.name := by simpa using List.find?_some hfst.symm
    rw [if_pos (hmem.mp rfl), ← hname]
    exact ⟨rfl, rfl⟩

/-- Recording keeps the names different. -/
theorem Recorded.nodup (h : Recorded c vs d) (hc : c.table.names.Nodup) : d.table.names.Nodup := by
  induction h with
  | nil => exact hc
  | note _ _ ih => exact ih
  | insert v _ ih =>
    rw [(insert_spec _ v).1, VariableTable.names_insert]
    split
    · exact ih
    · rename_i hmem
      exact List.concat_eq_append ▸ ih.concat hmem

theorem eraseDups_concat (names : List String) (name : String) :
    (names ++ [name]).eraseDups = if name ∈ names then names.eraseDups else names.eraseDups ++ [name] := by
  rw [List.eraseDups_append]
  by_cases hmem : name ∈ names <;> simp [List.removeAll, hmem, List.eraseDups_cons]

/-- New names come in the order of their first declarations. -/
theorem Recorded.names_eq (h : Recorded c vs d) (hc : c.table.entries = []) :
    d.table.names = (vs.map (·.name)).eraseDups := by
  induction h with
  | nil => simp [VariableTable.names, hc]
  | note _ _ ih => exact ih
  | insert v _ ih =>
    rw [(insert_spec _ v).1, VariableTable.names_insert, ih, List.map_append, List.map_singleton, eraseDups_concat]
    simp only [List.mem_eraseDups]

/-- A name stands for its last declaration, or else for what it stood for. -/
theorem Recorded.get?_eq (h : Recorded c vs d) (name : String) :
    d.table.get? name = (vs.reverse.find? (·.name = name)).or (c.table.get? name) := by
  induction h with
  | nil => rfl
  | note _ _ ih => exact ih
  | insert v _ ih =>
    rw [(insert_spec _ v).1, VariableTable.get?_insert, ih, List.reverse_append, List.reverse_singleton,
      List.singleton_append, List.find?_cons]
    by_cases hv : v.name = name <;> simp [hv]

theorem toList_redeclaration (name : String) :
    (redeclaration name).toList = "redeclaration of `".toList ++ name.toList ++ "`".toList := by
  show ("redeclaration of `" ++ name ++ "`").toList = _
  rw [String.toList_append, String.toList_append]

theorem redeclaration_injective : Function.Injective redeclaration := by
  intro name other h
  have hlists := congrArg String.toList h
  rw [toList_redeclaration, toList_redeclaration] at hlists
  exact String.toList_inj.mp (List.append_cancel_left (List.append_cancel_right hlists))

theorem AboutComment.ne_redeclaration {message : String} (h : AboutComment message) (name : String) :
    message ≠ redeclaration name := by
  obtain ⟨text, problem, rfl⟩ := h
  intro heq
  have hlists := congrArg (fun m : String => m.toList.head?) heq
  rw [toList_redeclaration] at hlists
  change ("invalid annotation `" ++ text ++ "`: " ++ problem).toList.head? = _ at hlists
  rw [String.toList_append, String.toList_append, String.toList_append] at hlists
  cases hlists

/-- A declaration of a name that is in the table is noted; the first one of a new name is not. -/
theorem Recorded.count_log (h : Recorded c vs d) : ∃ added, d.log = c.log ++ added ∧ ∀ name,
    added.count (redeclaration name) + (if name ∈ d.table.names then 1 else 0) =
      (vs.map (·.name)).count name + if name ∈ c.table.names then 1 else 0 := by
  induction h with
  | nil => exact ⟨[], by simp⟩
  | @note d vs message _ hmessage ih =>
    obtain ⟨added, hlog, hcount⟩ := ih
    refine ⟨added ++ [message], by rw [Collector.note, hlog, List.append_assoc], fun name => ?_⟩
    have hother : [message].count (redeclaration name) = 0 := by simp [hmessage.ne_redeclaration name]
    rw [List.count_append, hother]
    exact hcount name
  | @insert d vs v _ ih =>
    obtain ⟨added, hlog, hcount⟩ := ih
    obtain ⟨htable, hnote⟩ := insert_spec d v
    refine ⟨added ++ _, by rw [hnote, hlog, List.append_assoc], fun name => ?_⟩
    have hbefore := hcount name
    rw [htable, VariableTable.names_insert]
    by_cases hv : v.name = name
    · subst hv
      by_cases hmem : v.name ∈ d.table.names <;> simp [hmem] at hbefore ⊢ <;> omega
    · have hne : redeclaration v.name ≠ redeclaration name := redeclaration_injective.ne hv
      by_cases hmem : v.name ∈ d.table.names <;> simp [hmem, hv, hne, Ne.symm hv] at hbefore ⊢ <;> omega

/-! ## Runs -/

/-- What can be asked of a collector. -/
inductive Request where
  | visit (unit : CompilationUnit)
  | uniforms (keep : Bool)
  | outs (keep : Bool)

/-- The collector after a request. -/
def perform (c : Collector) : Request → Collector
  | .visit unit => c.visit unit
  | .uniforms keep => (c.uniforms keep).2
  | .outs keep => (c.outs keep).2

/-- The collector after requests made of a new one. -/
def after (requests : List Request) : Collector := requests.foldl perform {}

/-- **A visit with an empty table**: each declared name is in the table once, in the order of the first declarations and with the
record of the last one, and the log has one note more for each declaration of a name after its first. -/
structure Lists (unit : CompilationUnit) (c d : Collector) : Prop where
  names : d.table.names = (unit.declared.map (·.name)).eraseDups
  record : ∀ name, d.table.get? name = unit.declared.reverse.find? (·.name = name)
  log : ∃ added, d.log = c.log ++ added ∧
    ∀ name, added.count (redeclaration name) = (unit.declared.map (·.name)).count name - 1

/-- **A selection**: exactly the variables with one of the storages, in the order of the table. The table stays as it is, or
keeps exactly the others in their order. -/
structure Selects (storages : List Storage) (keep : Bool) (c : Collector) (outcome : List Variable × Collector) : Prop where
  sublist : outcome.1.Sublist c.table.entries
  mem_iff : ∀ v, v ∈ outcome.1 ↔ v ∈ c.table.entries ∧ ∃ storage ∈ storages, v.storage = some storage
  kept : keep = true → outcome.2.table = c.table
  others : keep = false → outcome.2.table.entries.Sublist c.table.entries ∧
    ∀ v, v ∈ outcome.2.table.entries ↔ v ∈ c.table.entries ∧ v ∉ outcome.1
  log : outcome.2.log = c.log

theorem lists_visit (c : Collector) (unit : CompilationUnit) (hc : c.table.entries = []) : Lists unit c (c.visit unit) := by
  have hrecorded := recorded_visit c unit
  have hnames : c.table.names = [] := by simp [VariableTable.names, hc]
  refine ⟨hrecorded.names_eq hc, fun name => ?_, ?_⟩
  · rw [hrecorded.get?_eq, VariableTable.get?, hc, List.find?_nil, Option.or_none]
  · obtain ⟨added, hlog, hcount⟩ := hrecorded.count_log
    refine ⟨added, hlog, fun name => ?_⟩
    have hname := hcount name
    rw [hrecorded.names_eq hc, hnames] at hname
    by_cases hmem : name ∈ unit.declared.map (·.name)
    · simp only [List.mem_eraseDups, hmem, if_true, List.not_mem_nil, if_false] at hname
      omega
    · have hzero := List.count_eq_zero.mpr hmem
      simp only [List.mem_eraseDups, hmem, if_false, List.not_mem_nil] at hname
      omega

/-- A selection by a test for storages. -/
theorem selects_select {storages : List Storage} {p : Variable → Bool}
    (hp : ∀ v, p v = true ↔ ∃ storage ∈ storages, v.storage = some storage) (c : Collector) (keep : Bool) :
    Selects storages keep c ((c.table.select keep p).1, { c with table := (c.table.select keep p).2 }) where
  sublist := List.filter_sublist
  mem_iff v := by simp only [VariableTable.select, List.mem_filter, hp]
  kept hkeep := by simp [VariableTable.select, hkeep]
  others hkeep := by
    simp only [VariableTable.select, hkeep, Bool.false_eq_true, if_false]
    refine ⟨List.filter_sublist, fun v => ?_⟩
    simp only [List.mem_filter, Bool.not_eq_true', not_and, Bool.not_eq_true]
    exact and_congr_right fun hv => ⟨fun h _ => h, fun h => h hv⟩
  log := rfl

theorem selects_uniforms (c : Collector) (keep : Bool) : Selects [.uniform] keep c (c.uniforms keep) :=
  selects_select (fun v => by simp) c keep

theorem selects_outs (c : Collector) (keep : Bool) : Selects [.out, .centroidOut] keep c (c.outs keep) :=
  selects_select (fun v => by simp) c keep

/-- A selection keeps the names different. -/
theorem Selects.nodup {storages : List Storage} {keep : Bool} {outcome : List Variable × Collector}
    (h : Selects storages keep c outcome) (hc : c.table.names.Nodup) : outcome.2.table.names.Nodup := by
  cases keep with
  | true => rwa [h.kept rfl]
  | false => exact ((h.others rfl).1.map _).nodup hc

/-- A request keeps the names different. -/
theorem nodup_perform (request : Request) (hc : c.table.names.Nodup) : (c.perform request).table.names.Nodup := by
  cases request with
  | visit unit => exact (recorded_visit c unit).nodup hc
  | uniforms keep => exact (selects_uniforms c keep).nodup hc
  | outs keep => exact (selects_outs c keep).nodup hc

theorem nodup_after (requests : List Request) : (after requests).table.names.Nodup := by
  unfold after
  induction requests using List.reverseRecOn with
  | nil => exact List.nodup_nil
  | append_singleton requests request ih =>
    rw [List.foldl_concat]
    exact nodup_perform request ih

/-- **The table over whole runs**: the names are always different, a visit that begins with an empty table lists the
variables of the shader, and a selection takes exactly what it asks for. -/
theorem table_after (requests : List Request) :
    (after requests).table.names.Nodup ∧
    (∀ unit, (after requests).table.entries = [] → Lists unit (after requests) ((after requests).visit unit)) ∧
    ∀ keep, Selects [.uniform] keep (after requests) ((after requests).uniforms keep) ∧
      Selects [.out, .centroidOut] keep (after requests) ((after requests).outs keep) :=
  ⟨nodup_after requests, fun unit hempty => lists_visit _ unit hempty,
    fun keep => ⟨selects_uniforms _ keep, selects_outs _ keep⟩⟩

/-- A shader that declares `a`, `b` and, as a uniform, `a` again. -/
def twiceDeclared : CompilationUnit :=
  let float (qualifier : Option Shader.TypeQualifier) (names : List String) : External :=
    .declaration [] (.variableList ⟨⟨qualifier, ⟨.native "float", none⟩⟩, names.map fun name => ⟨name, {}, none, none⟩⟩) []
  ⟨[float none ["a", "b"], float (some ⟨[.storage .uniform]⟩) ["a"]]⟩

/-- A variable that is declared twice keeps its first place and has its second record, with one note in the log. -/
theorem table_after_twiceDeclared :
    (after [.visit twiceDeclared, .uniforms false, .outs false]).table.names = ["b"] ∧
    (after []).table.entries = [] ∧
    ((after []).visit twiceDeclared).table.names = ["a", "b"] ∧
    (((after []).visit twiceDeclared).table.get? "a").map (·.storage) = some (some .uniform) ∧
    ∃ added, ((after []).visit twiceDeclared).log = added ∧ added.count (redeclaration "a") = 1 ∧
      added.count (redeclaration "b") = 0 := by
  obtain ⟨-, hvisit, -⟩ := table_after []
  have hlists := hvisit twiceDeclared rfl
  obtain ⟨added, hlog, hcount⟩ := hlists.log
  refine ⟨by decide, rfl, hlists.names.trans (by decide), by rw [hlists.record]; decide, added, hlog, ?_, ?_⟩
  · exact (hcount "a").trans (by decide)
  · exact (hcount "b").trans (by decide)

end Collector

end ShaderFront
