import Mathlib
import ShaderFront.Preprocess.Basic
import ShaderFront.Proofs.Parsers

/-!
# Containment of failures

Only a header or a source whose directives cannot be read stops the processing. An `#include` that fails, at whatever level of
includes, is an empty line of the output and one message in the log; its text is read as a whole before any of it is carried
out, so nothing of it is left behind.

Main statement: `failures_contained`.
-/

namespace ShaderFront

namespace Preprocess

open Directive (Particle)

variable {options : Options} {s : State}

/-! ## Includes -/

/-- An `#include` of a path fails in a state, with a message, when there are some number of levels to go. -/
inductive IncludeFails (options : Options) (s : State) (path : String) : Nat → Message → Prop
  | tooDeep : IncludeFails options s path 0
      (.error s!"cannot include `{path}`: {(Fault.includeDepth options.maxIncludeDepth).message}")
  | invalidPath {levels : Nat} {e : ResolveError} : Resource.ofPath path = .error e →
      IncludeFails options s path (levels + 1) (.error s!"cannot include `{path}`: {e.message}")
  | unresolved {levels : Nat} {resource : Resource} {e : ResolveError} : Resource.ofPath path = .ok resource →
      (s.library.resolve resource).1 = .error e →
      IncludeFails options s path (levels + 1) (.error s!"cannot include `{path}`: {e.message}")
  | unreadable {levels : Nat} {resource : Resource} {source : String} {e : LanguageError} :
      Resource.ofPath path = .ok resource → (s.library.resolve resource).1 = .ok source → Directive.parse source = .error e →
      IncludeFails options s path (levels + 1)
        (.error s!"failed to preprocess `{resource.text}`: {(Fault.directives e).message}")

/-- An outcome is an empty line and one more message; the library may have been asked. -/
def EmptyLine (s : State) (message : Message) (outcome : String × State) : Prop :=
  outcome.1 = "\n" ∧ ∃ library, outcome.2 = { s with library }.note [message]

/-- **An `#include` that fails is an empty line and a message.** -/
theorem IncludeFails.emptyLine {path : String} {levels : Nat} {message : Message}
    (h : IncludeFails options s path levels message) : EmptyLine s message (includeFile options levels path s) := by
  cases h with
  | tooDeep => exact ⟨rfl, s.library, rfl⟩
  | invalidPath hpath =>
    rw [includeFile, includeWith, hpath]
    exact ⟨rfl, s.library, rfl⟩
  | @unresolved _ resource e hpath hresolve =>
    rw [includeFile, includeWith, hpath]
    simp only
    rw [show s.library.resolve resource = (.error e, (s.library.resolve resource).2) from Prod.ext hresolve rfl]
    exact ⟨rfl, _, rfl⟩
  | @unreadable _ resource source e hpath hresolve hparse =>
    rw [includeFile, includeWith, hpath]
    simp only
    rw [show s.library.resolve resource = (.ok source, (s.library.resolve resource).2) from Prod.ext hresolve rfl]
    simp only [includeText, hparse]
    exact ⟨rfl, _, rfl⟩

theorem IncludeFails.level {path : String} {levels : Nat} {message : Message}
    (h : IncludeFails options s path levels message) : message.level = .error := by
  cases h <;> rfl

/-! ## Sources -/

theorem processSource_error {source : String} {e : LanguageError} (h : Directive.parse source = .error e) :
    processSource options source s = (.error { fault := .directives e, source := some source }, s) := by
  rw [processSource, h]
  rfl

theorem processSource_ok {source : String} {particles : List Particle} (h : Directive.parse source = .ok particles) :
    ∃ out s', processSource options source s = (.ok out, s') := by
  rw [processSource, h]
  exact ⟨_, _, rfl⟩

/-- A fault of the directives of a text: a token stands at a wrong place, the text ends too early, or a number in it cannot be
read. -/
def MisreadText (text : String) (d : Diagnostic) : Prop :=
  ∃ e, Directive.parse text = .error (.parse e) ∧ InputError Misread (Directive.tokens text) e ∧
    d = { fault := .directives (.parse e), source := some text }

/-- What a text gives: an output if its directives can be read, and a fault of its directives if not. -/
theorem processSource_cases (options : Options) (source : String) (s : State) :
    ((∃ particles, Directive.parse source = .ok particles) ∧ ∃ out s', processSource options source s = (.ok out, s')) ∨
      ∃ d, MisreadText source d ∧ processSource options source s = (.error d, s) := by
  rcases Directive.parse_answers source with ⟨particles, hparse⟩ | ⟨e, hparse, he⟩
  · exact .inl ⟨⟨particles, hparse⟩, processSource_ok hparse⟩
  · exact .inr ⟨_, ⟨e, hparse, he, rfl⟩, processSource_error hparse⟩

theorem MisreadText.parse {text : String} {d : Diagnostic} (h : MisreadText text d) : ∃ e, Directive.parse text = .error e :=
  let ⟨e, hparse, _⟩ := h
  ⟨.parse e, hparse⟩

/-- What a header gives. -/
theorem processHeader_cases (options : Options) (header : String) (s : State) :
    (¬ (header ≠ "" ∧ ∃ e, Directive.parse header = .error e) ∧ ∃ out s', processHeader options header s = (.ok out, s')) ∨
      ∃ d, header ≠ "" ∧ MisreadText header d ∧ processHeader options header s = (.error d, s) := by
  by_cases hempty : header = ""
  · subst hempty
    exact .inl ⟨fun h => h.1 rfl, "", s, rfl⟩
  · have hheader : processHeader options header s = (processSource options header s).map (Except.map endLine) id :=
      if_neg (by simpa using hempty)
    rw [hheader]
    rcases processSource_cases options header s with ⟨⟨particles, hparse⟩, out, s', hsource⟩ | ⟨d, hd, hsource⟩
    · refine .inl ⟨fun h => ?_, endLine out, s', by rw [hsource]; rfl⟩
      obtain ⟨e, he⟩ := h.2
      cases hparse.symm.trans he
    · exact .inr ⟨d, hempty, hd, by rw [hsource]; rfl⟩

end Preprocess

namespace Preprocessor

open Preprocess

/-- How the processing of a source ends: with an output, with a fault of the header, or with one of the source. -/
theorem process_cases (p : Preprocessor) (source : String) :
    (¬ (p.header ≠ "" ∧ ∃ e, Directive.parse p.header = .error e) ∧ (∃ particles, Directive.parse source = .ok particles) ∧
      ∃ out, (p.process source).1 = .ok out) ∨
    (∃ d, p.header ≠ "" ∧ MisreadText p.header d ∧ (p.process source).1 = .error d) ∨
    ∃ d, MisreadText source d ∧ (p.process source).1 = .error d := by
  have hprocess : (p.process source).1 =
      (processAfter p.options source (processHeader p.options p.header (.initial p.options p.state.library))).1 := rfl
  rw [hprocess]
  rcases processHeader_cases p.options p.header (.initial p.options p.state.library) with
    ⟨hread, front, s, hheader⟩ | ⟨d, hempty, hd, hheader⟩
  · rw [hheader, processAfter]
    rcases processSource_cases p.options source s with ⟨hparse, out, s', hsource⟩ | ⟨d, hd, hsource⟩
    · exact .inl ⟨hread, hparse, front ++ out, by rw [hsource]; rfl⟩
    · exact .inr (.inr ⟨d, hd, by rw [hsource]; rfl⟩)
  · rw [hheader, processAfter]
    exact .inr (.inl ⟨d, hempty, hd, rfl⟩)

/-- **Failures are contained.** Whatever the library, the settings, the header and the source, the processing stops with an error
if and only if the header is not empty and its directives cannot be read, or those of the source cannot be read; the error says
what is wrong with the text. An `#include` that fails, at any level and in any state, leaves the macros, the version and the
line as they are, gives an empty line and adds one message, an error. -/
theorem failures_contained (p : Preprocessor) (source : String) :
    ((∃ d, (p.process source).1 = .error d) ↔
      (p.header ≠ "" ∧ ∃ e, Directive.parse p.header = .error e) ∨ ∃ e, Directive.parse source = .error e) ∧
    (∀ d, (p.process source).1 = .error d → MisreadText p.header d ∨ MisreadText source d) ∧
    ∀ levels path span s message, IncludeFails p.options s path levels message →
      let outcome := visit p.options (includeFile p.options levels) (.include path span) s
      outcome.1 = "\n" ∧ outcome.2.macros = s.macros ∧ outcome.2.version = s.version ∧ outcome.2.line = s.line ∧
        outcome.2.log = s.log ++ [message] ∧ message.level = .error := by
  refine ⟨⟨?_, ?_⟩, ?_, ?_⟩
  · rintro ⟨d, hd⟩
    rcases p.process_cases source with ⟨-, -, out, hout⟩ | ⟨_, hempty, hmisread, -⟩ | ⟨_, hmisread, -⟩
    · cases hd.symm.trans hout
    · exact .inl ⟨hempty, hmisread.parse⟩
    · exact .inr hmisread.parse
  · intro hunread
    rcases p.process_cases source with ⟨hheader, ⟨particles, hsource⟩, -⟩ | ⟨d, -, -, hd⟩ | ⟨d, -, hd⟩
    · obtain ⟨e, he⟩ := hunread.resolve_left hheader
      cases hsource.symm.trans he
    · exact ⟨d, hd⟩
    · exact ⟨d, hd⟩
  · intro d hd
    rcases p.process_cases source with ⟨-, -, out, hout⟩ | ⟨d', -, hmisread, hd'⟩ | ⟨d', hmisread, hd'⟩
    · cases hd.symm.trans hout
    · cases hd.symm.trans hd'
      exact .inl hmisread
    · cases hd.symm.trans hd'
      exact .inr hmisread
  · intro levels path span s message hfails
    simp only [visit]
    obtain ⟨hout, library, hstate⟩ := hfails.emptyLine
    rw [hstate]
    exact ⟨hout, rfl, rfl, rfl, rfl, hfails.level⟩

/-- Without files every `#include` is an empty line, and at the last level it is not even looked up. -/
theorem failures_contained_without_files :
    let s := State.initial {} .none
    let unresolved := Message.error "cannot include `a`: failed to read file `a (no include directory)`"
    let tooDeep := Message.error "cannot include `a`: includes are nested more than 16 levels deep"
    (IncludeFails {} s "a" 16 unresolved ∧ (visit {} (includeFile {} 16) (.include "a" ⟨0, 0⟩) s).2.log = [unresolved]) ∧
      IncludeFails {} s "a" 0 tooDeep ∧ (visit {} (includeFile {} 0) (.include "a" ⟨0, 0⟩) s).2.log = [tooDeep] := by
  intro s unresolved tooDeep
  have hresource : Resource.ofPath "a" = .ok ⟨["a"]⟩ := by decide
  have hunresolved : IncludeFails {} s "a" 16 unresolved :=
    @IncludeFails.unresolved {} s "a" 15 ⟨["a"]⟩ (.fileNotFound "a (no include directory)") hresource rfl
  have htooDeep : IncludeFails {} s "a" 0 tooDeep := .tooDeep
  have hcontained := (failures_contained (.ofLibrary .none) "").2.2
  exact ⟨⟨hunresolved, (hcontained 16 "a" ⟨0, 0⟩ s _ hunresolved).2.2.2.2.1⟩, htooDeep,
    (hcontained 0 "a" ⟨0, 0⟩ s _ htooDeep).2.2.2.2.1⟩

end Preprocessor

end ShaderFront
