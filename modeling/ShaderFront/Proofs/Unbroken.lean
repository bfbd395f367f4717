import Mathlib
import ShaderFront.Proofs.Characters
import ShaderFront.Proofs.Particles
import ShaderFront.Proofs.Trace
import ShaderFront.Proofs.Unused
import ShaderFront.Proofs.Words

/-!
# Macro bodies on one line

The only token inside of a directive that holds a line break is the line break itself (`Directive.flat_of_cut`): a line break
that neither ends the directive, nor stands in a comment, nor is taken with a backslash before it. A source without such tokens is
unbroken. All macro tables that the processing of an unbroken source reaches, at whatever level of includes, hold bodies of one
line, if the files that are included are unbroken too (`Preprocessor.macros_flat`).

A line break is left over where a backslash at the end of a line belongs to something else, such as a comment. Then it is part of
the body (`Preprocessor.broken_body`).
-/

namespace ShaderFront

/-! ## Pieces -/

/-- The first characters of a text hold no line break. -/
def FlatTo (n : Nat) (cs : List Char) : Prop := '\n' ∉ cs.take n

namespace FlatTo

variable {n m : Nat} {cs : List Char}

theorem zero : FlatTo 0 cs := by simp [FlatTo]

theorem add (h : FlatTo n cs) (h' : FlatTo m (cs.drop n)) : FlatTo (n + m) cs := by
  rw [FlatTo, List.take_add]
  exact List.mem_append.not.mpr (not_or.mpr ⟨h, h'⟩)

theorem cons {c : Char} (hc : c ≠ '\n') (h : FlatTo n cs) : FlatTo (n + 1) (c :: cs) := by
  rw [FlatTo, List.take_succ_cons]
  exact List.mem_cons.not.mpr (not_or.mpr ⟨hc.symm, h⟩)

theorem tail {c : Char} (h : FlatTo n (c :: cs)) : FlatTo (n - 1) cs := by
  cases n with
  | zero => exact .zero
  | succ n => exact fun hmem => h (by rw [List.take_succ_cons]; exact List.mem_cons_of_mem c hmem)

theorem runLength {p : Char → Bool} (hp : p '\n' = false) (cs : List Char) : FlatTo (runLength p cs) cs := by
  intro h
  rw [Macro.of_mem_take_runLength h] at hp
  cases hp

theorem of_isPrefix {literal : List Char} (hliteral : '\n' ∉ literal) (h : literal <+: cs) : FlatTo literal.length cs := by
  obtain ⟨rest, rfl⟩ := h
  rwa [FlatTo, List.take_left]

end FlatTo

/-- A numeral stands on one line. -/
theorem Numeral.flat_read? {cs : List Char} {m : Numeral} (h : read? .shader cs = some m) : FlatTo m.length cs :=
  (front_read? h).not_mem (by decide)

namespace Directive

/-! ### Pieces of directives -/

variable {c : Char} {rest : List Char}

theorem flat_cutHash (rest : List Char) : FlatTo (cutHash rest).more rest := by
  have hwords : ∀ entry ∈ directiveWords, '\n' ∉ entry.1 := by decide
  have hblanks : FlatTo (runLength (fun c => c = ' ' || c = '\t') rest) rest := .runLength (by decide) rest
  unfold cutHash
  dsimp only
  split
  · rename_i hfound
    obtain ⟨literal, hmem, hprefix, rfl⟩ := longestLiteral_eq_some hfound
    exact hblanks.add (.of_isPrefix (hwords _ hmem) (List.isPrefixOf_iff_prefix.mp hprefix))
  · split
    · rename_i hdrop
      exact hblanks.add (hdrop ▸ .cons (by decide) (.cons (by decide) .zero))
    · rename_i hdrop
      exact hblanks.add (hdrop ▸ .cons (by decide) (.cons (by decide) .zero))
    · rename_i hdrop
      exact hblanks.add (hdrop ▸ .cons (by decide) (.cons (by decide) .zero))
    · exact hblanks

theorem flat_cutString (rest : List Char) : FlatTo (cutString rest).more rest := by
  have hinner : FlatTo (runLength (fun c => c ≠ '"' && c ≠ '\n') rest) rest := .runLength (by decide) rest
  unfold cutString
  dsimp only
  split
  · rename_i hdrop
    exact hinner.add (hdrop ▸ .cons (by decide) .zero)
  · exact hinner

theorem flat_of_mem_marks : ∀ entry ∈ marks, '\n' ∉ entry.1 := by
  decide

/-- A piece that is a token goes on without a line break. -/
theorem flat_cut {kind : TokenKind} (h : (cut c rest).kind = some kind) : FlatTo (cut c rest).more rest := by
  generalize hnext : cut c rest = next at h ⊢
  cases cutting hnext with
  | gap | continued | comment => cases h
  | hash => exact flat_cutHash rest
  | string => exact flat_cutString rest
  | numeral hread => exact (Numeral.flat_read? hread).tail
  | word => exact .runLength (by decide) rest
  | mark _ hlongest =>
    obtain ⟨literal, hmem, hprefix, rfl⟩ := longestLiteral_eq_some hlongest
    have hliteral : FlatTo literal.length (c :: rest) :=
      .of_isPrefix (flat_of_mem_marks _ hmem) (List.isPrefixOf_iff_prefix.mp hprefix)
    exact hliteral.tail
  | other => exact .zero

/-- A line break that is not taken with what stands before it is a token of its own. -/
theorem cut_newline (rest : List Char) : cut '\n' rest = ⟨some .other, 0⟩ := by
  have hmarks : ∀ entry ∈ marks, entry.1.head?.any (· ≠ '\n') = true := by decide
  have hnone : longestLiteral marks ('\n' :: rest) = none := by
    rw [Option.eq_none_iff_forall_ne_some]
    rintro ⟨kind, length⟩ hfound
    obtain ⟨literal, hmem, hprefix, -⟩ := longestLiteral_eq_some hfound
    have hhead := hmarks _ hmem
    cases literal with
    | nil => cases hhead
    | cons d literal =>
      obtain rfl := (List.cons_prefix_cons.mp (List.isPrefixOf_iff_prefix.mp hprefix)).1
      cases hhead
  rw [cut_of_isOrdinary (by decide) (commentLength?_of_ne (by decide) _), numeral_eq_none (by decide) (by decide)]
  simp only [cutPlain, if_neg (show ¬isWordStart '\n' = true by decide), hnone]

/-- **The only token inside of a directive that holds a line break is the line break.** -/
theorem flat_of_cut {kind : TokenKind} (h : (cut c rest).kind = some kind) :
    '\n' ∉ c :: rest.take (cut c rest).more ∨ kind = .other ∧ c :: rest.take (cut c rest).more = ['\n'] := by
  by_cases hc : c = '\n'
  · subst hc
    rw [cut_newline] at h ⊢
    exact .inr ⟨(Option.some.inj h).symm, rfl⟩
  · exact .inl (List.mem_cons.not.mpr (not_or.mpr ⟨Ne.symm hc, flat_cut h⟩))

/-! ## Sources -/

/-- No directive of a source has a line break left over: each line break in it ends it, stands in a comment, or is taken with the
backslash before it. -/
def Unbroken (source : String) : Prop := ∀ token ∈ tokens source, token.symbol = TokenKind.other.id → token.text ≠ "\n"

theorem flat_of_mem_piecesTokens {offset : Nat} {cs : List Char} {token : Token} (h : token ∈ piecesTokens offset cs)
    (hunbroken : token.symbol = TokenKind.other.id → token.text ≠ "\n") : '\n' ∉ token.text.toList := by
  obtain ⟨l, hl, htext, kind, hkind, hsymbol⟩ := exists_kind_of_mem_classify h
  obtain ⟨c, rest, hcut, hchars⟩ := mem_lexemes hl
  rw [htext, hchars, String.toList_ofList]
  refine (flat_of_cut hcut).resolve_right fun ⟨hother, hnewline⟩ => ?_
  rcases hkind with ⟨-, hparen⟩ | rfl
  · cases hparen.symm.trans hother
  · refine hunbroken (hother ▸ hsymbol) ?_
    rw [htext, hchars, hnewline]

/-- The tokens inside of the directives of an unbroken source hold no line breaks. -/
theorem Unbroken.flat {source : String} (h : Unbroken source) : ∀ token ∈ tokens source, Flat token := by
  have hlines : ∀ {inside : Bool} {offset : Nat} {run all : List (List Char)} {token : Token},
      token ∈ lineTokens inside offset run all → (token.symbol = TokenKind.other.id → token.text ≠ "\n") → Flat token := by
    intro inside offset run all token htoken hunbroken
    fun_induction lineTokens inside offset run all with
    | case1 inside offset run => exact fun _ htext => absurd (exists_kind_of_mem_textTokens htoken) htext
    | case2 inside offset run line rest hdirective joined ih =>
      rcases List.mem_append.mp htoken with htoken | htoken
      · exact flat_of_mem_directive htoken fun hinner _ _ => flat_of_mem_piecesTokens hinner hunbroken
      · exact ih htoken
    | case3 inside offset run line rest hdirective ih => exact ih htoken
  exact fun token htoken => hlines htoken (h token htoken)

/-- The bodies in an unbroken source hold no line breaks. -/
theorem Unbroken.bodies {source : String} (h : Unbroken source) {particles : List Particle} (hparse : parse source = .ok particles) :
    ∀ body ∈ bodiesAll particles, '\n' ∉ body.toList :=
  (parse_laid hparse h.flat).2

end Directive

/-! ## Visits -/

namespace Preprocess

open Directive (Particle Condition BranchOf bodiesAll branchBodies branchBodies_append)

variable {options : Options} {includer : Includer} {levels : Nat} {s t : State}

/-- No macro has a line break in its body, and no file brings one. -/
structure State.Unbroken (s : State) : Prop where
  macros : s.macros.Flat
  library : s.library.AllTexts Directive.Unbroken

/-- A visit passes through a state: between two particles, in the branch that is taken, or in a file that is included. -/
inductive Passes (options : Options) : Nat → List Particle → State → State → Prop
  | here {levels : Nat} {ps : List Particle} {s : State} : Passes options levels ps s s
  | after {levels : Nat} {p : Particle} {rest : List Particle} {s t : State} :
      Passes options levels rest (visit options (includeFile options levels) p s).2 t → Passes options levels (p :: rest) s t
  | branch {levels : Nat} {front back : List (BranchOf Particle)} {condition : Condition} {body rest : List Particle}
      {otherwise : Option (List Particle)} {out : String} {s s' t : State} :
      visitBranches options (includeFile options levels) false front s = (out, false, s') →
      (s'.decide options condition).1 = true → Passes options levels body (s'.decide options condition).2 t →
      Passes options levels (.conditional (front ++ ⟨condition, body⟩ :: back) otherwise :: rest) s t
  | otherwise {levels : Nat} {branches : List (BranchOf Particle)} {body rest : List Particle} {out : String} {s s' t : State} :
      visitBranches options (includeFile options levels) false branches s = (out, false, s') →
      Passes options levels body s' t → Passes options levels (.conditional branches (some body) :: rest) s t
  | included {levels : Nat} {path : String} {span : Span} {resource : Resource} {source : String} {library : Library}
      {ps rest : List Particle} {s t : State} : Resource.ofPath path = .ok resource →
      s.library.resolve resource = (.ok source, library) → Directive.parse source = .ok ps →
      Passes options levels ps { s with library } t → Passes options (levels + 1) (.include path span :: rest) s t

theorem State.Unbroken.of_eq (h : s.Unbroken) (hmacros : t.macros = s.macros) (hlibrary : t.library = s.library) : t.Unbroken :=
  ⟨hmacros ▸ h.macros, hlibrary ▸ h.library⟩

theorem State.Unbroken.define (h : s.Unbroken) {d : MacroDefinition} (hd : '\n' ∉ d.body.toList) : (s.define d).Unbroken := by
  refine ⟨define_flat h.macros hd, ?_⟩
  unfold State.define
  dsimp only
  repeat' split
  all_goals exact h.library

theorem State.Unbroken.undefine (h : s.Unbroken) (name : String) : (s.undefine name).Unbroken := by
  refine ⟨undefine_flat h.macros name, ?_⟩
  unfold State.undefine
  split <;> exact h.library

theorem State.Unbroken.setVersion (h : s.Unbroken) (mark : Mark) : (s.setVersion mark).Unbroken := by
  refine h.of_eq (setVersion_macros s mark) ?_
  unfold State.setVersion
  dsimp only
  split <;> rfl

theorem State.Unbroken.decide (h : s.Unbroken) (options : Options) (condition : Condition) :
    (s.decide options condition).2.Unbroken :=
  h.of_eq (decide_macros options s condition) (by cases condition <;> rfl)

mutual

/-- A visit leaves an unbroken state behind, if the includes do. -/
theorem unbroken_visit (hincluder : ∀ path s, s.Unbroken → (includer path s).2.Unbroken) : ∀ (p : Particle) (s : State),
    s.Unbroken → (∀ body ∈ p.bodies, '\n' ∉ body.toList) → (visit options includer p s).2.Unbroken
  | .text _, _, hs, _ | .error _, _, hs, _ | .extension _, _, hs, _ | .line _ _, _, hs, _ | .null, _, hs, _ | .pragma _, _, hs, _ =>
    hs.of_eq rfl rfl
  | .define d, _, hs, hbodies => hs.define (hbodies _ (by simp [Particle.bodies]))
  | .undef name, _, hs, _ => hs.undefine name
  | .include path span, s, hs, _ => hincluder path s hs
  | .version _ _, _, hs, _ => hs.setVersion _
  | .conditional branches none, s, hs, hbodies => unbroken_visitBranches hincluder branches false s hs hbodies
  | .conditional branches (some body), s, hs, hbodies => by
    obtain ⟨hbranches, hbody⟩ := List.forall_mem_append.mp hbodies
    have hafter := unbroken_visitBranches hincluder branches false s hs hbranches
    simp only [visit]
    split
    · exact hafter
    · exact unbroken_visitAll hincluder body _ hafter hbody

theorem unbroken_visitAll (hincluder : ∀ path s, s.Unbroken → (includer path s).2.Unbroken) : ∀ (ps : List Particle) (s : State),
    s.Unbroken → (∀ body ∈ bodiesAll ps, '\n' ∉ body.toList) → (visitAll options includer ps s).2.Unbroken
  | [], s, hs, _ => hs
  | p :: rest, s, hs, hbodies => by
    obtain ⟨hp, hrest⟩ := List.forall_mem_append.mp hbodies
    exact unbroken_visitAll hincluder rest _ (unbroken_visit hincluder p s hs hp) hrest

theorem unbroken_visitBranches (hincluder : ∀ path s, s.Unbroken → (includer path s).2.Unbroken) :
    ∀ (branches : List (BranchOf Particle)) (taken : Bool) (s : State), s.Unbroken →
      (∀ body ∈ branchBodies branches, '\n' ∉ body.toList) → (visitBranches options includer taken branches s).2.2.Unbroken
  | [], taken, s, hs, _ => by cases taken <;> exact hs
  | ⟨_, body⟩ :: rest, true, s, hs, hbodies =>
    unbroken_visitBranches hincluder rest true s hs (List.forall_mem_append.mp hbodies).2
  | ⟨condition, body⟩ :: rest, false, s, hs, hbodies => by
    obtain ⟨hbody, hrest⟩ := List.forall_mem_append.mp hbodies
    have hdecided := hs.decide options condition
    simp only [visitBranches]
    split
    · exact unbroken_visitBranches hincluder rest true _ (unbroken_visitAll hincluder body _ hdecided hbody) hrest
    · exact unbroken_visitBranches hincluder rest false _ hdecided hrest

end

/-- An include leaves an unbroken state behind. -/
theorem unbroken_includeFile : ∀ (levels : Nat) (path : String) (s : State), s.Unbroken →
    (includeFile options levels path s).2.Unbroken
  | 0, _, _, hs => hs.of_eq rfl rfl
  | levels + 1, path, s, hs => by
    rw [includeFile, includeWith]
    split
    · exact hs.of_eq rfl rfl
    · rename_i resource _
      have hlibrary := hs.library.resolve resource
      split <;> rename_i hresolve <;> rw [hresolve] at hlibrary
      · exact ⟨hs.macros, hlibrary⟩
      · rename_i source library
        have hsource : Directive.Unbroken source := hs.library.of_resolve (by rw [hresolve])
        rw [includeText]
        cases hparse : Directive.parse source with
        | error e => exact ⟨hs.macros, hlibrary⟩
        | ok particles =>
          exact unbroken_visitAll (unbroken_includeFile levels) particles _ ⟨hs.macros, hlibrary⟩ (hsource.bodies hparse)

/-- **Every state that a visit passes through is unbroken.** -/
theorem Passes.unbroken {ps : List Particle} (h : Passes options levels ps s t) (hs : s.Unbroken)
    (hbodies : ∀ body ∈ bodiesAll ps, '\n' ∉ body.toList) : t.Unbroken := by
  induction h with
  | here => exact hs
  | after _ ih =>
    obtain ⟨hp, hrest⟩ := List.forall_mem_append.mp hbodies
    exact ih (unbroken_visit (unbroken_includeFile _) _ _ hs hp) hrest
  | @branch levels front back condition body rest otherwise out s s' t hfront hholds _ ih =>
    have hbranches : ∀ b ∈ branchBodies (front ++ ⟨condition, body⟩ :: back), '\n' ∉ b.toList := by
      have hp := (List.forall_mem_append.mp hbodies).1
      cases otherwise with
      | none => exact hp
      | some other => exact (List.forall_mem_append.mp hp).1
    rw [branchBodies_append, List.forall_mem_append, branchBodies, List.forall_mem_append] at hbranches
    have hbefore : (visitBranches options (includeFile options levels) false front s).2.2.Unbroken :=
      unbroken_visitBranches (unbroken_includeFile levels) front false s hs hbranches.1
    rw [hfront] at hbefore
    exact ih (hbefore.decide options condition) hbranches.2.1
  | @otherwise levels branches body rest out s s' t hbranches _ ih =>
    obtain ⟨hfront, hbody⟩ := List.forall_mem_append.mp (List.forall_mem_append.mp hbodies).1
    have hbefore : (visitBranches options (includeFile options levels) false branches s).2.2.Unbroken :=
      unbroken_visitBranches (unbroken_includeFile levels) branches false s hs hfront
    rw [hbranches] at hbefore
    exact ih hbefore hbody
  | @included levels path span resource source library ps rest s t _ hresolve hparse _ ih =>
    have hsource : Directive.Unbroken source := hs.library.of_resolve (by rw [hresolve])
    have hlibrary := hs.library.resolve resource
    rw [hresolve] at hlibrary
    exact ih ⟨hs.macros, hlibrary⟩ (hsource.bodies hparse)

end Preprocess

namespace Preprocessor

open Preprocess Directive

variable {p : Preprocessor} {source : String} {s : State}

/-- The processing of a source reaches a state: at its start, while the header or the source is visited, or at its end. -/
inductive Reaches (p : Preprocessor) (source : String) : State → Prop
  | start : Reaches p source (.initial p.options p.state.library)
  | header {ps : List Particle} {s : State} : p.header ≠ "" → parse p.header = .ok ps →
      Passes p.options p.options.maxIncludeDepth ps (.initial p.options p.state.library) s → Reaches p source s
  | source {ps : List Particle} {front : String} {before s : State} :
      processHeader p.options p.header (.initial p.options p.state.library) = (.ok front, before) → parse source = .ok ps →
      Passes p.options p.options.maxIncludeDepth ps before s → Reaches p source s
  | finish : Reaches p source (p.process source).2.state

theorem unbroken_processSource {options : Options} (hs : s.Unbroken) (hsource : Directive.Unbroken source) :
    (processSource options source s).2.Unbroken := by
  rw [processSource]
  cases hparse : parse source with
  | error e => exact hs
  | ok particles => exact unbroken_visitAll (unbroken_includeFile _) particles s hs (hsource.bodies hparse)

theorem unbroken_processHeader {options : Options} {header : String} (hs : s.Unbroken) (hheader : Directive.Unbroken header) :
    (processHeader options header s).2.Unbroken := by
  rw [processHeader]
  split
  · exact hs
  · rw [Prod.map_snd, id]
    exact unbroken_processSource hs hheader

theorem unbroken_processAfter {options : Options} {outcome : Except Diagnostic String × State} (h : outcome.2.Unbroken)
    (hsource : Directive.Unbroken source) : (processAfter options source outcome).2.Unbroken := by
  obtain ⟨_ | front, s⟩ := outcome
  · exact h
  · rw [processAfter, Prod.map_snd, id]
    exact unbroken_processSource h hsource

/-- **Macro bodies hold no line breaks.** Whatever the library, the settings and the header: if the predefined values hold no line
break, and no directive of the header, the source and the files of the library has one left over, then no macro of any table
that the processing reaches has a line break in its body. -/
theorem macros_flat (hpredefined : ∀ entry ∈ p.options.predefined, '\n' ∉ entry.2.toList) (hheader : Directive.Unbroken p.header)
    (hsource : Directive.Unbroken source) (hlibrary : p.state.library.AllTexts Directive.Unbroken) (h : p.Reaches source s) : s.macros.Flat := by
  have hstart : (State.initial p.options p.state.library).Unbroken :=
    ⟨MacroTable.flat_predefined.defineAll hpredefined, hlibrary⟩
  suffices hs : s.Unbroken from hs.macros
  cases h with
  | start => exact hstart
  | header _ hparse hpasses => exact hpasses.unbroken hstart (hheader.bodies hparse)
  | source hbefore hparse hpasses =>
    have hs : (processHeader p.options p.header (.initial p.options p.state.library)).2.Unbroken := unbroken_processHeader hstart hheader
    rw [hbefore] at hs
    exact hpasses.unbroken hs (hsource.bodies hparse)
  | finish =>
    have hfinish : (p.process source).2.state =
        (processAfter p.options source (processHeader p.options p.header (.initial p.options p.state.library))).2 := rfl
    rw [hfinish]
    exact unbroken_processAfter (unbroken_processHeader hstart hheader) hsource

/-- A file with a definition that goes on with the next line. -/
def continuedFile : String := "#define A 1 \\\n2\n"

/-- In an included file a definition goes on with the next line; its body has one line. -/
theorem macros_flat_continued :
    let p := ofLibrary (.inMemory [(⟨["f"]⟩, continuedFile)])
    let source := "#include \"f\"\n"
    (∀ entry ∈ p.options.predefined, '\n' ∉ entry.2.toList) ∧ Directive.Unbroken p.header ∧ Directive.Unbroken source ∧
      p.state.library.AllTexts Directive.Unbroken ∧ ∃ s, p.Reaches source s ∧ s.macros.isDefined "A" = true ∧ s.macros.Flat := by
  intro p source
  have hheader : Directive.Unbroken p.header := by
    unfold Directive.Unbroken
    decide +kernel
  have hsource : Directive.Unbroken source := by
    unfold Directive.Unbroken
    decide +kernel
  have hfile : Directive.Unbroken continuedFile := by
    unfold Directive.Unbroken
    decide +kernel
  have hlibrary : p.state.library.AllTexts Directive.Unbroken := Library.allTexts_inMemory (List.forall_mem_singleton.mpr hfile)
  have hparse : parse source = .ok [.include "f" ⟨9, 12⟩] := by
    have htokens : tokens source = [⟨TokenKind.include_.id, "#include", ⟨0, 8⟩⟩, ⟨TokenKind.string.id, "\"f\"", ⟨9, 12⟩⟩,
      ⟨TokenKind.newline.id, "\n", ⟨12, 13⟩⟩] := by decide +kernel
    have hread := parse_include htokens rfl rfl rfl
    exact hread
  have hcontinued : parse continuedFile = .ok [.define ⟨"A", none, "1 2"⟩] := by
    have htokens : tokens continuedFile = ⟨TokenKind.define.id, "#define", ⟨0, 7⟩⟩ :: ⟨TokenKind.identifier.id, "A", ⟨8, 9⟩⟩ ::
        [⟨TokenKind.intConstant.id, "1", ⟨10, 11⟩⟩, ⟨TokenKind.intConstant.id, "2", ⟨14, 15⟩⟩] ++
        [⟨TokenKind.newline.id, "\n", ⟨15, 16⟩⟩] := by decide +kernel
    exact parse_definition htokens rfl rfl rfl (by simp) (by simpa using ⟨.intConstant, rfl, rfl⟩)
      (by decide)
  have hpasses : Passes p.options 16 [.include "f" ⟨9, 12⟩] p.state (p.state.define ⟨"A", none, "1 2"⟩) := by
    have hresource : Resource.ofPath "f" = .ok ⟨["f"]⟩ := by decide
    exact .included hresource rfl hcontinued (.after .here)
  have hreaches : p.Reaches source (p.state.define ⟨"A", none, "1 2"⟩) := .source rfl hparse hpasses
  exact ⟨List.forall_mem_nil _, hheader, hsource, hlibrary, _, hreaches, by decide +kernel,
    macros_flat (List.forall_mem_nil _) hheader hsource hlibrary hreaches⟩

/-- **A line break can be left over.** The comment takes the backslash, the directive goes on with the next line, and the line break
is part of the body. -/
theorem broken_body :
    let p := ofLibrary .none
    let source := "#define A 1 // c \\\n2\n"
    (∀ entry ∈ p.options.predefined, '\n' ∉ entry.2.toList) ∧
      ∃ s m, p.Reaches source s ∧ s.macros.get? "A" = some m ∧ m.body = "1 \n2" ∧ ¬s.macros.Flat := by
  intro p source
  have hparse : parse source = .ok [.define ⟨"A", none, "1 \n2"⟩] := by
    have htokens : tokens source = ⟨TokenKind.define.id, "#define", ⟨0, 7⟩⟩ :: ⟨TokenKind.identifier.id, "A", ⟨8, 9⟩⟩ ::
        [⟨TokenKind.intConstant.id, "1", ⟨10, 11⟩⟩, ⟨TokenKind.other.id, "\n", ⟨18, 19⟩⟩,
          ⟨TokenKind.intConstant.id, "2", ⟨19, 20⟩⟩] ++ [⟨TokenKind.newline.id, "\n", ⟨20, 21⟩⟩] := by decide +kernel
    have hone : ∃ kind : TokenKind, kind.isWild = true ∧ TokenKind.intConstant.id = kind.id := ⟨.intConstant, rfl, rfl⟩
    have hother : ∃ kind : TokenKind, kind.isWild = true ∧ TokenKind.other.id = kind.id := ⟨.other, rfl, rfl⟩
    exact parse_definition htokens rfl rfl rfl (by simp) (by simpa using ⟨hone, hother, hone⟩) (by decide)
  have hreaches : p.Reaches source (p.state.define ⟨"A", none, "1 \n2"⟩) := .source rfl hparse (.after .here)
  have hmacro : (p.state.define ⟨"A", none, "1 \n2"⟩).macros.get? "A" = some (.ofDefinition ⟨"A", none, "1 \n2"⟩) := by
    decide +kernel
  exact ⟨List.forall_mem_nil _, _, _, hreaches, hmacro, rfl, fun hflat => hflat.get? hmacro (by decide)⟩

end Preprocessor

end ShaderFront
