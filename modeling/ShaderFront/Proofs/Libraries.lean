import Mathlib
import ShaderFront.Include.FileTree
import ShaderFront.Include.Library

/-!
# Answers of libraries

What a library answers may depend on what it was asked before (`Library.after`). It does not for a library without files, with
files in memory, on a directory, or given by a function of the resource: such a library is fixed (`Library.Fixed`). Two libraries are
alike if they give the same answers after the same requests (`Library.Like`). What is asked of the texts of a library is asked of
every text that it gives after any requests (`Library.AllTexts`).

A directory in a tree of files gives the text that was written to a path (`FileTree.resolve_write`), and goes on giving it whatever
becomes of the tree (`Directory.resolve_again`).
-/

namespace ShaderFront

variable {r r' : Resource} {text : String}

/-! ## Directories -/

namespace Directory

theorem resolve_cases (d : Directory) (r : Resource) :
    (∃ source, d.cache.lookup r = some source ∧ d.resolve r = (.ok source, d)) ∨
    (d.cache.lookup r = none ∧ ∃ source, d.read? (join d.base r.text) = some source ∧
      d.resolve r = (.ok source, { d with cache := (r, source) :: d.cache })) ∨
    ∃ e missing, d.resolve r = (.error e, { d with missing }) := by
  rw [resolve]
  cases hcache : d.cache.lookup r with
  | some source => exact .inl ⟨source, rfl, rfl⟩
  | none =>
    dsimp only
    cases hread : d.read? (join d.base r.text) with
    | some source => exact .inr (.inl ⟨rfl, source, rfl, rfl⟩)
    | none => exact .inr (.inr ⟨_, _, rfl⟩)

/-- What a directory has read or missed changes no later result. -/
theorem resolve_resolve (d : Directory) (r r' : Resource) : ((d.resolve r).2.resolve r').1 = (d.resolve r').1 := by
  have hmissing : ∀ missing, ({ d with missing }.resolve r').1 = (d.resolve r').1 := by
    intro missing
    simp only [resolve]
    cases d.cache.lookup r' with
    | some source => rfl
    | none => cases d.read? (join d.base r'.text) <;> rfl
  rcases d.resolve_cases r with ⟨source, hcache, hresolve⟩ | ⟨hcache, source, hread, hresolve⟩ | ⟨e, missing, hresolve⟩
  · rw [hresolve]
  · rw [hresolve]
    by_cases hr : r' = r
    · subst hr
      rw [hresolve, resolve]
      simp
    · have hlookup : ((r, source) :: d.cache).lookup r' = d.cache.lookup r' := by
        rw [List.lookup_cons, show (r' == r) = false by simpa using hr]
      simp only [resolve, hlookup]
      cases d.cache.lookup r' with
      | some source => rfl
      | none => cases d.read? (join d.base r'.text) <;> rfl
  · rw [hresolve]
    exact hmissing missing

/-- **A directory keeps the text it has read**, whatever becomes of the files. -/
theorem resolve_again {d : Directory} (h : (d.resolve r).1 = .ok text) (read? : String → Option String) :
    ({ (d.resolve r).2 with read? }.resolve r).1 = .ok text := by
  rcases d.resolve_cases r with ⟨source, hcache, hresolve⟩ | ⟨hcache, source, hread, hresolve⟩ | ⟨e, missing, hresolve⟩
  · rw [hresolve] at h ⊢
    cases h
    simp only [resolve, hcache]
  · rw [hresolve] at h ⊢
    cases h
    simp [resolve]
  · rw [hresolve] at h
    cases h

end Directory

/-! ## Trees of files -/

namespace FileTree

variable {t made : FileTree} {names names' parts : List String}

/-- The directories on the way to some names are there. -/
def Reached (t : FileTree) (names : List String) : Prop := ∀ front, front <+: names → t.isDirectory front = true

theorem isDirectory_insert {names inner : List String} (h : t.isDirectory names = true) :
    isDirectory { t with directories := t.directories.insert inner } names = true := by
  simp only [isDirectory, Bool.or_eq_true, List.contains_iff_mem, List.mem_insert_iff] at h ⊢
  exact h.imp id .inr

/-- A directory that is made is there, with those on the way to it. -/
theorem Reached.insert (h : t.Reached names) (part : String) :
    Reached { t with directories := t.directories.insert (names ++ [part]) } (names ++ [part]) := by
  intro front hfront
  rcases List.prefix_concat_iff.mp hfront with rfl | hfront
  · simp [isDirectory]
  · exact isDirectory_insert (h front hfront)

/-- **The directories on a path that are made are there**, those that were there stay, and the path leads to the last one. -/
theorem makeDirectories_spec (hnames : t.Reached names) (h : t.makeDirectories names parts = some (names', made)) :
    made.Reached names' ∧ made.follow names parts = some names' ∧ ∀ other, t.isDirectory other = true → made.isDirectory other = true := by
  fun_induction makeDirectories t names parts with
  | case1 t names =>
    cases h
    exact ⟨hnames, rfl, fun _ => id⟩
  | case2 t names part rest hblank ih =>
    obtain ⟨hreached, hfollow, hkeeps⟩ := ih hnames h
    refine ⟨hreached, ?_, hkeeps⟩
    rw [follow, hkeeps _ (hnames names List.prefix_rfl), if_neg (by simp), if_pos hblank, hfollow]
  | case3 => cases h
  | case4 t names rest hempty hblank ih =>
    obtain ⟨hreached, hfollow, hkeeps⟩ := ih (fun front hfront => hnames front (hfront.trans (List.dropLast_prefix names))) h
    refine ⟨hreached, ?_, hkeeps⟩
    rw [follow, hkeeps _ (hnames names List.prefix_rfl), if_neg (by simp), if_neg hblank, if_pos rfl, if_neg hempty, hfollow]
  | case5 => cases h
  | case6 t names part rest hblank hparent inner hfile ih =>
    obtain ⟨hreached, hfollow, hkeeps⟩ := ih (hnames.insert part) h
    have hkeeps' : ∀ other, t.isDirectory other = true → made.isDirectory other = true := fun other hother =>
      hkeeps other (isDirectory_insert hother)
    refine ⟨hreached, ?_, hkeeps'⟩
    rw [follow, hkeeps' _ (hnames names List.prefix_rfl), if_neg (by simp), if_neg hblank, if_neg hparent, hfollow]

theorem follow_append (names front back : List String) :
    t.follow names (front ++ back) = (t.follow names front).bind (t.follow · back) := by
  induction front generalizing names with
  | nil => rfl
  | cons part front ih =>
    simp only [List.cons_append, follow, ih]
    split_ifs <;> rfl

/-- Where a path leads depends on the directories alone. -/
theorem follow_files (files : List (List String × String)) (names parts : List String) :
    follow { t with files } names parts = t.follow names parts := by
  induction parts generalizing names with
  | nil => rfl
  | cons part parts ih =>
    simp only [follow, ih]
    rfl

/-- A path leads to a name in the last directory that is made on the way. -/
theorem follow_concat (h : t.makeDirectories [] parts = some (names, made)) {name : String}
    (hname : name ≠ "" ∧ name ≠ "." ∧ name ≠ "..") : made.follow [] (parts ++ [name]) = some (names ++ [name]) := by
  have hroot : t.Reached [] := by
    intro front hfront
    obtain rfl := List.prefix_nil.mp hfront
    rfl
  obtain ⟨hreached, hfollow, -⟩ := makeDirectories_spec hroot h
  rw [follow_append, hfollow, Option.bind_some, follow, hreached names List.prefix_rfl]
  simp [hname, follow]

/-- **A path leads to the text that was written to it**, unless no file can be there and nothing was written. -/
theorem read?_write (t : FileTree) (path text : String) :
    t.write path text = t ∨ (t.write path text).read? path = some text := by
  rw [write]
  dsimp only
  generalize hparts : Resource.parts (· = '/') path = parts
  split
  · exact .inl rfl
  rename_i hplain
  simp only [Bool.or_eq_true, decide_eq_true_eq, not_or] at hplain
  obtain ⟨⟨⟨hrelative, hempty⟩, hdot⟩, hparent⟩ := hplain
  split
  · exact .inl rfl
  rename_i names made hmade
  split
  · exact .inl rfl
  have hsplit : parts = parts.dropLast ++ [parts.getLastD ""] := by
    cases parts with
    | nil => exact absurd rfl hempty
    | cons first rest => simp [List.getLastD_eq_getLast?, List.getLast?_eq_some_getLast, List.dropLast_append_getLast]
  have hlocate : made.follow [] parts = some (names ++ [parts.getLastD ""]) :=
    (congrArg (made.follow []) hsplit).trans (follow_concat hmade ⟨hempty, hdot, hparent⟩)
  rw [read?, locate?, if_neg hrelative, hparts, follow_files, erase, follow_files, hlocate, Option.bind_some]
  exact .inr List.lookup_cons_self

/-- **A directory in a tree gives the text that was written to the path of a file**, unless no file can be there. -/
theorem resolve_write (t : FileTree) (base text : String) (r : Resource) :
    let written := t.write (Directory.join base r.text) text
    written = t ∨ (Directory.resolve { base, read? := written.read? } r).1 = .ok text := by
  intro written
  refine (t.read?_write (Directory.join base r.text) text).imp id fun hread => ?_
  have hlookup : written.read? (Directory.join base r.text) = some text := hread
  simp only [Directory.resolve, List.lookup_nil, hlookup]

end FileTree

/-! ## Requests -/

namespace Library

variable {l l' l'' : Library}

/-- A library after some requests. -/
def after (l : Library) (requests : List Resource) : Library := requests.foldl (fun l r => (l.resolve r).2) l

@[simp] theorem after_nil (l : Library) : l.after [] = l := rfl

@[simp] theorem after_cons (l : Library) (r : Resource) (requests : List Resource) :
    l.after (r :: requests) = (l.resolve r).2.after requests := rfl

/-- Two libraries give the same answers after the same requests. -/
def Like (l l' : Library) : Prop := ∀ requests r, ((l.after requests).resolve r).1 = ((l'.after requests).resolve r).1

theorem Like.refl (l : Library) : l.Like l := fun _ _ => rfl

theorem Like.trans (h : l.Like l') (h' : l'.Like l'') : l.Like l'' := fun requests r => (h requests r).trans (h' requests r)

theorem Like.resolve (h : l.Like l') (r : Resource) : (l.resolve r).2.Like (l'.resolve r).2 := fun requests => h (r :: requests)

/-! ## Libraries that do not change -/

/-- What a library was asked changes none of its answers. -/
def Fixed (l : Library) : Prop := ∀ requests r, ((l.after requests).resolve r).1 = (l.resolve r).1

/-- A library is fixed if no request changes the next answer, also after other requests. -/
theorem fixed_of_resolve {K : Library → Prop} (hresolve : ∀ l r, K l → K (l.resolve r).2 ∧
    ∀ r', ((l.resolve r).2.resolve r').1 = (l.resolve r').1) (hl : K l) : l.Fixed := by
  intro requests
  induction requests generalizing l with
  | nil => exact fun _ => rfl
  | cons r requests ih =>
    obtain ⟨hafter, hsame⟩ := hresolve l r hl
    exact fun r' => (ih hafter r').trans (hsame r')

theorem fixed_none : Library.none.Fixed :=
  fixed_of_resolve (K := (· = .none)) (by rintro _ r rfl; exact ⟨rfl, fun _ => rfl⟩) rfl

theorem fixed_inMemory (files : List (Resource × String)) : (Library.inMemory files).Fixed := by
  refine fixed_of_resolve (K := (· = .inMemory files)) ?_ rfl
  rintro _ r rfl
  have hsame : ((Library.inMemory files).resolve r).2 = .inMemory files := by
    rw [resolve]
    cases files.lookup r <;> rfl
  exact ⟨hsame, fun r' => by rw [hsame]⟩

theorem fixed_directory (d : Directory) : (Library.directory d).Fixed := by
  refine fixed_of_resolve (K := fun l => ∃ d, l = .directory d) ?_ ⟨d, rfl⟩
  rintro _ r ⟨d, rfl⟩
  exact ⟨⟨_, rfl⟩, d.resolve_resolve r⟩

/-- A library that answers by a function is fixed. -/
theorem fixed_ofAnswers (answer : Resource → Except ResolveError String) : (ofAnswers answer).Fixed := by
  refine fixed_of_resolve (K := fun l => ∃ asked, l = .other (fun _ => answer) asked) ?_ ⟨[], rfl⟩
  rintro _ r ⟨asked, rfl⟩
  exact ⟨⟨_, rfl⟩, fun _ => rfl⟩

/-! ## Texts that are given -/

/-- All texts that a library gives, whatever it was asked before, have a property. -/
def AllTexts (l : Library) (P : String → Prop) : Prop := ∀ requests r text, ((l.after requests).resolve r).1 = .ok text → P text

theorem AllTexts.of_resolve {P : String → Prop} (h : l.AllTexts P) (htext : (l.resolve r).1 = .ok text) : P text := h [] r text htext

theorem AllTexts.resolve {P : String → Prop} (h : l.AllTexts P) (r : Resource) : (l.resolve r).2.AllTexts P :=
  fun requests => h (r :: requests)

/-- A library of files in memory gives no other texts than theirs. -/
theorem allTexts_inMemory {P : String → Prop} {files : List (Resource × String)} (h : ∀ file ∈ files, P file.2) :
    (Library.inMemory files).AllTexts P := by
  intro requests r text htext
  rw [fixed_inMemory files requests r, Library.resolve] at htext
  cases hlookup : files.lookup r with
  | none =>
    rw [hlookup] at htext
    cases htext
  | some source =>
    rw [hlookup] at htext
    cases htext
    obtain ⟨front, back, rfl, -⟩ := List.lookup_eq_some_iff.mp hlookup
    exact h (r, text) (by simp)

/-- A library gives a text for a file: whenever it is asked for the file it answers with the text, and being asked for it changes
no later answer. -/
structure Gives (r : Resource) (text : String) (l : Library) : Prop where
  answer : ∀ requests, ((l.after requests).resolve r).1 = .ok text
  quiet : ∀ requests, ((l.after requests).resolve r).2.Like (l.after requests)

/-- What is looked up changes no text that the library gives. -/
theorem Gives.resolve (l : Library) (r' : Resource) (h : l.Gives r text) : (l.resolve r').2.Gives r text :=
  ⟨fun requests => h.answer (r' :: requests), fun requests => h.quiet (r' :: requests)⟩

theorem after_append (l : Library) (front back : List Resource) : l.after (front ++ back) = (l.after front).after back :=
  List.foldl_append

/-- **A fixed library gives the texts it answers with.** -/
theorem Fixed.gives_iff (h : l.Fixed) : l.Gives r text ↔ (l.resolve r).1 = .ok text := by
  refine ⟨fun hgives => hgives.answer [], fun htext => ⟨fun requests => (h requests r).trans htext, fun requests others r' => ?_⟩⟩
  rw [← after_cons, ← after_append, ← after_append]
  exact (h _ r').trans (h _ r').symm

end Library

end ShaderFront
