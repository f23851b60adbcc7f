import Gondola.Proofs.Code.JavaScript
import Gondola.Proofs.Code.Native
import Gondola.Proofs.Code.Python
import Gondola.Proofs.Typing.Soundness

/-! Symbols keep their meaning in every target: the names in scope where a symbol is written lead to the
declaration that checking found for it. -/
namespace Gondola

open Typing

/-- The symbols that a target writes for a program, with the names in scope at each of them. -/
def Target.uses (target : Target) (T : TypeTable) (p : Program) : List Use :=
  match target with
  | .python => (Emit.run Python.space [] (Python.program T p)).uses
  | .javascript => (Emit.run JavaScript.space 0 (JavaScript.itemLines T p.items)).uses
  | .native => (Emit.run Native.space () (Native.sections T p.items)).uses

theorem uses_resolved_of_typed {T : TypeTable} {p : Program} (h : ProgramTyped T p) (target : Target) :
    ∀ u ∈ target.uses T p, u.Resolved T := by
  cases target with
  | python =>
    obtain ⟨_, hw⟩ := Python.writes_program (σ := id) h
    exact (hw.run ..).uses
  | javascript =>
    obtain ⟨_, hw⟩ := JavaScript.writes_itemLines (σ := id) h
    exact (hw.run ..).uses
  | native =>
    obtain ⟨_, hw⟩ := Native.writes_sections (σ := id) h
    exact (hw.run ..).uses

theorem uses_resolved_of_check {source : String} {p : Program} {T : TypeTable}
    (hp : parseProgram source = .ok p) (hc : p.check = .ok T) (target : Target) :
    ∀ u ∈ target.uses T p, u.Resolved T := by
  have hn := Parser.nodup_ids_of_parseProgram hp
  exact uses_resolved_of_typed (Checker.typed_of_check hn hc) target

/-- A variable that hides the one of its own first value, and a built-in. -/
theorem uses_resolved_shadowing :
    ∃ p T, parseProgram "let n = 1; if n < 2 \x7b let n = [n]; print(n[0]) \x7d" = .ok p ∧
      p.check = .ok T ∧ ∀ target : Target, (target.uses T p).length = 4 ∧
        ∀ u ∈ target.uses T p, u.Resolved T := by
  refine exists_accepted (fun p T => ∀ target ∈ Target.all, (target.uses T p).length = 4) (by decide +kernel)
    fun p T hp hc h target => ⟨h target ?_, uses_resolved_of_check hp hc target⟩
  cases target <;> decide

end Gondola
