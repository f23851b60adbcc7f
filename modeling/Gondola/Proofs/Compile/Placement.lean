import Gondola.Compile
import Gondola.Proofs.Code.JavaScript
import Gondola.Proofs.Code.Native
import Gondola.Proofs.Code.Python
import Gondola.Proofs.Parser.StmtAgreement
import Gondola.Proofs.Typing.Faultless
import Gondola.Proofs.Typing.Soundness

/-! Compilation looks at tokens, not at where they stand. Texts with the same tokens have the same code, or
they fail for the same reason. -/
namespace Gondola

namespace Failure

variable {ε : Type}

/-- The same reason, at places that may differ. -/
inductive Alike : Failure ε → Failure ε → Prop
  | rejected (s s' : Span) (e : ε) : Alike (.rejected ⟨s, e⟩) (.rejected ⟨s', e⟩)
  | internal (f : Fault) : Alike (.internal f) (.internal f)

theorem Alike.symm {f f' : Failure ε} (h : Alike f f') : Alike f' f := by
  cases h with
  | rejected s s' e => exact .rejected s' s e
  | internal f => exact .internal f

theorem alike_of_mapSpan_eq {f f' : Failure ε} {σ : Span → Span} (h : f.mapSpan σ = f'.mapSpan σ) :
    Alike f f' := by
  cases f with
  | rejected e =>
    cases f' with
    | rejected e' =>
      obtain ⟨s, x⟩ := e
      obtain ⟨s', x'⟩ := e'
      have hvalue : x = x' := congrArg Located.value (Failure.rejected.inj h)
      subst hvalue
      exact .rejected s s' x
    | internal => cases h
  | internal x =>
    cases f' with
    | rejected => cases h
    | internal x' =>
      obtain rfl : x = x' := Failure.internal.inj h
      exact .internal x

/-- The line and column of a failure, if it has a place. -/
def location : Failure ε → String
  | rejected e => e.span.location
  | internal _ => ""

theorem Alike.message {f f' : Failure ε} (h : Alike f f') (stage : String) (describe : ε → String) :
    ∃ head tail, f.message stage describe = head ++ f.location ++ tail ∧
      f'.message stage describe = head ++ f'.location ++ tail := by
  cases h with
  | rejected s s' e =>
    refine ⟨stage ++ " error at ", ": " ++ describe e, ?_, ?_⟩
    · exact String.append_assoc
    · exact String.append_assoc
  | internal x =>
    have hmessage : "internal error: " ++ x.message = "internal error: " ++ "" ++ x.message := by
      rw [String.append_empty]
    exact ⟨"internal error: ", x.message, hmessage, hmessage⟩

end Failure

namespace CompileError

/-- Failures of one stage for the same reason. -/
inductive Alike : CompileError → CompileError → Prop
  | syntaxError {f f' : Failure SyntaxError} (h : f.Alike f') : Alike (.syntaxError f) (.syntaxError f')
  | typeError {f f' : Failure TypeError} (h : f.Alike f') : Alike (.typeError f) (.typeError f')

def location : CompileError → String
  | syntaxError f => f.location
  | typeError f => f.location

theorem Alike.message {x x' : CompileError} (h : Alike x x') :
    ∃ head tail, x.message = head ++ x.location ++ tail ∧ x'.message = head ++ x'.location ++ tail := by
  cases h with
  | syntaxError h => exact h.message "syntax" SyntaxError.message
  | typeError h => exact h.message "type" TypeError.message

end CompileError

/-- Reading finds the same tree up to places, or fails for the same reason. -/
def SameReading (source source' : String) : Prop :=
  (∃ p p', parseProgram source = .ok p ∧ parseProgram source' = .ok p' ∧
    p.mapSpan (fun _ => {}) = p'.mapSpan fun _ => {}) ∨
  ∃ f f', parseProgram source = .error f ∧ parseProgram source' = .error f' ∧ f.Alike f'

theorem SameReading.symm {source source' : String} (h : SameReading source source') :
    SameReading source' source := by
  rcases h with ⟨p, p', hp, hp', heq⟩ | ⟨f, f', hf, hf', halike⟩
  · exact .inl ⟨p', p, hp', hp, heq.symm⟩
  · exact .inr ⟨f', f, hf', hf, halike.symm⟩

theorem sameReading_of_words_le {source source' : String}
    (h : (Scanner.ofString source).words = (Scanner.ofString source').words)
    (hlen : (Parser.ofString source).bound ≤ (Parser.ofString source').bound) :
    SameReading source source' := by
  rcases Parser.parseProgram_agree (Parser.streams_of_words _ _ h) hlen with
    hok | ⟨⟨s, e⟩, ⟨s', e'⟩, he, he', hvalue, -⟩ | ⟨hshort, -⟩
  · exact .inl hok
  · obtain rfl : e = e' := hvalue
    exact .inr ⟨_, _, he, he', .rejected s s' e⟩
  · exact hshort.elim

theorem sameReading_of_words {source source' : String}
    (h : (Scanner.ofString source).words = (Scanner.ofString source').words) :
    SameReading source source' := by
  -- Reading takes its fuel from the length of the text, so the shorter text comes first.
  rcases Nat.le_total (Parser.ofString source).bound (Parser.ofString source').bound with hlen | hlen
  · exact sameReading_of_words_le h hlen
  · exact (sameReading_of_words_le h.symm hlen).symm

namespace Program

variable {p p' : Program}

theorem generate_mapSpan (σ : Span → Span) {T : TypeTable} (h : Typing.ProgramTyped T p) (target : Target) :
    (p.mapSpan σ).generate (T.mapSpan σ) target = p.generate T target := by
  cases target with
  | python => exact Python.generate_mapSpan σ h
  | javascript => exact JavaScript.generate_mapSpan σ h
  | native => exact Native.generate_mapSpan σ h

theorem compile_of_mapSpan_eq {σ : Span → Span} (hσ : σ {} = {}) (h : p.mapSpan σ = p'.mapSpan σ)
    (hids : p.ids.Nodup) (hids' : p'.ids.Nodup) (target : Target) :
    (∃ code, p.compile target = .ok code ∧ p'.compile target = .ok code) ∨
      ∃ f f', p.compile target = .error f ∧ p'.compile target = .error f' ∧ f.Alike f' := by
  have hcheck := check_mapSpan hσ p
  have hcheck' := check_mapSpan hσ p'
  rw [h] at hcheck
  unfold compile
  cases hp : p.check with
  | ok T =>
    cases hp' : p'.check with
    | ok T' =>
      rw [hp] at hcheck
      rw [hp'] at hcheck'
      have htable : T.mapSpan σ = T'.mapSpan σ := Except.ok.inj (hcheck.symm.trans hcheck')
      refine .inl ⟨p.generate T target, rfl, congrArg Except.ok ?_⟩
      calc p'.generate T' target
        _ = (p'.mapSpan σ).generate (T'.mapSpan σ) target :=
          (generate_mapSpan σ (Checker.typed_of_check hids' hp') target).symm
        _ = (p.mapSpan σ).generate (T.mapSpan σ) target := by rw [h, htable]
        _ = p.generate T target := generate_mapSpan σ (Checker.typed_of_check hids hp) target
    | error f' =>
      rw [hp] at hcheck
      rw [hp'] at hcheck'
      cases hcheck.symm.trans hcheck'
  | error f =>
    cases hp' : p'.check with
    | ok T' =>
      rw [hp] at hcheck
      rw [hp'] at hcheck'
      cases hcheck.symm.trans hcheck'
    | error f' =>
      rw [hp] at hcheck
      rw [hp'] at hcheck'
      have hfailure : f.mapSpan σ = f'.mapSpan σ := Except.error.inj (hcheck.symm.trans hcheck')
      exact .inr ⟨f, f', rfl, rfl, Failure.alike_of_mapSpan_eq hfailure⟩

end Program

/-- Two texts whose tokens agree in kind and text have the same code for every target, or both fail, in the same
stage and for the same reason, with messages that differ in the line and column only. -/
theorem compile_of_words_eq {source source' : String}
    (h : (Scanner.ofString source).words = (Scanner.ofString source').words) (target : Target) :
    (∃ code, compile source target = .ok code ∧ compile source' target = .ok code) ∨
      ∃ x x', compile source target = .error x ∧ compile source' target = .error x' ∧ x.Alike x' ∧
        ∃ head tail, x.message = head ++ x.location ++ tail ∧ x'.message = head ++ x'.location ++ tail := by
  unfold compile
  rcases sameReading_of_words h with ⟨p, p', hp, hp', heq⟩ | ⟨f, f', hf, hf', halike⟩
  · rw [hp, hp']
    dsimp only
    have hids := Parser.nodup_ids_of_parseProgram hp
    have hids' := Parser.nodup_ids_of_parseProgram hp'
    rcases Program.compile_of_mapSpan_eq rfl heq hids hids' target with ⟨code, hc, hc'⟩ | ⟨f, f', hf, hf', halike⟩
    · exact .inl ⟨code, by rw [hc], by rw [hc']⟩
    · have herror : (CompileError.typeError f).Alike (.typeError f') := .typeError halike
      exact .inr ⟨.typeError f, .typeError f', by rw [hf], by rw [hf'], herror, herror.message⟩
  · have herror : (CompileError.syntaxError f).Alike (.syntaxError f') := .syntaxError halike
    exact .inr ⟨.syntaxError f, .syntaxError f', by rw [hf], by rw [hf'], herror, herror.message⟩

theorem compile_of_words_eq_comment :
    (Scanner.ofString "let n = 2; // two\nfor i in [n] \x7b print(-i); \x7d").words =
        (Scanner.ofString "let n=2\n;for i in[ n ]\x7bprint(- i);\x7d").words ∧
      ∃ code, compile "let n = 2; // two\nfor i in [n] \x7b print(-i); \x7d" .native = .ok code ∧
        compile "let n=2\n;for i in[ n ]\x7bprint(- i);\x7d" .native = .ok code := by
  have hwords : (Scanner.ofString "let n = 2; // two\nfor i in [n] \x7b print(-i); \x7d").words =
      (Scanner.ofString "let n=2\n;for i in[ n ]\x7bprint(- i);\x7d").words := by decide +kernel
  have hok : (compile "let n = 2; // two\nfor i in [n] \x7b print(-i); \x7d" .native).isOk = true := by decide +kernel
  refine ⟨hwords, ?_⟩
  rcases compile_of_words_eq hwords .native with hcode | ⟨x, x', hx, -⟩
  · exact hcode
  · rw [hx] at hok
    cases hok

end Gondola
