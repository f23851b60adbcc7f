import Gondola.Proofs.Program.Parts
import Gondola.Proofs.Typing.Steps
import Gondola.Typing

/-! The parts of a typed expression are typed, and what a step of the check ensures if it succeeds. -/
namespace Gondola

namespace Typing

variable {T : TypeTable}

theorem WellTyped.child {Γ : Env} {e c : Expr} (h : WellTyped T Γ e) (hc : c ∈ e.children) :
    WellTyped T Γ c := by
  -- In every case the premises of the rule that gives the type.
  cases h with
  | int | string | bool | declared | builtin => cases hc
  | binary _ hl _ hr | item hl _ hr | entry hl _ hr =>
    rcases List.mem_cons.mp hc with rfl | hc
    · exact hl
    · rw [List.mem_singleton.mp hc]
      exact hr
  | unary _ he | field he | plainCase he | holdingCase he =>
    rw [List.mem_singleton.mp hc]
    exact he
  | call hcallee _ _ has | construct hcallee _ has =>
    rcases List.mem_cons.mp hc with rfl | hc
    · exact hcallee
    · obtain ⟨a, ha, rfl⟩ := List.mem_map.mp hc
      exact has a ha
  | list hes => exact hes c hc
  | map hks hvs =>
    obtain ⟨kv, hkv, hc⟩ := List.mem_flatMap.mp hc
    rcases List.mem_cons.mp hc with rfl | hc
    · exact hks kv hkv
    · rw [List.mem_singleton.mp hc]
      exact hvs kv hkv

theorem WellTyped.part {Γ : Env} {e f : Expr} (h : WellTyped T Γ e) (hf : f ∈ e.parts) :
    WellTyped T Γ f := by
  induction e using Expr.induction_children with
  | h e ih =>
    rcases Expr.mem_parts_iff.mp hf with rfl | ⟨c, hc, hf⟩
    · exact h
    · exact ih c hc (h.child hc) hf

end Typing

namespace Checker

/-- If the step succeeds, whatever it starts from, the property holds. -/
def Ensures {α : Type} (m : Check α) (P : Prop) : Prop := ∀ c r, m c = .ok r → P

section Ensures

variable {α β : Type} {m : Check α} {f : α → Check β} {P : Prop}

theorem Ensures.first (h : Ensures m P) : Ensures (m >>= f) P := by
  intro c r hr
  obtain ⟨a, q, ha, -⟩ := bind_eq_ok.mp hr
  exact h c (a, q) ha

theorem Ensures.later (h : ∀ a, Ensures (f a) P) : Ensures (m >>= f) P := by
  intro c r hr
  obtain ⟨a, q, -, hb⟩ := bind_eq_ok.mp hr
  exact h a q r hb

theorem Ensures.recorded {infer : Check Ty} {n : Node} (h : Ensures infer P) :
    Ensures (recorded n infer) P :=
  h.first

theorem ensures_throw (e : Failure TypeError) : Ensures (throw e : Check α) P :=
  fun _ _ h => absurd h throw_ne_ok

end Ensures

theorem Ensures.call {scope : Nat} {n : Node} {c : Expr} {as : List Argument} {P : Prop}
    (hargs : ∀ sig, Ensures (checkArguments scope sig 0 [] false as) P)
    (hfields : ∀ s fields, Ensures (checkFields scope s fields [] as) P) :
    Ensures (checkExpr scope (.call n c as)) P := by
  refine .recorded (.later fun type => ?_)
  split
  · split
    · exact (hargs _).first
    · exact ensures_throw _
  · exact (hfields _ _).first
  · exact ensures_throw _

end Checker

end Gondola
