import Gondola.Proofs.Typing.Reached
import Gondola.Proofs.Typing.Soundness

/-! Variables with a written type. What the type stands for is asked where the variable is declared, and again where no
names are in view, where the name of a declared type is unknown. -/
namespace Gondola

namespace Typing

variable {Γ : Env} {a : TypeExpr} {t : Ty}

theorem Denotes.of_noNames (h : a.resolve noNames = .ok t) : Denotes Γ a t := by
  have hfind : ∀ name u, noNames name = .ok (some (.metatype u)) →
      ∃ origin, Γ.lookup name = some ⟨.metatype u, origin⟩ := by
    intro name u hu
    cases hu
  exact Checker.denotes_of_resolve hfind a h

/-- The name of a type is not built in and stands for what `d` declares. -/
structure NamesType (Γ : Env) (x : Ident) (d : Declared) : Prop where
  atomic : Ty.atomic? x.name = none
  list : x.name ≠ "list"
  map : x.name ≠ "map"
  lookup : Γ.lookup x.name = some d
  type : ∃ u, d.type = .metatype u

theorem Denotes.resolve_or_named (h : Denotes Γ a t) :
    a.resolve noNames = .ok t ∨ ∃ x ∈ a.names, ∃ d, NamesType Γ x d := by
  induction h with
  | @atomic x s t hx =>
    have htype := Checker.isAtomic_iff.mp hx
    have hname : x.name ≠ "list" ∧ x.name ≠ "map" := by
      generalize x.name = name at hx
      cases hx <;> decide
    exact .inl (by simp [TypeExpr.resolve, TypeExpr.resolveName, hname, htype])
  | list hx _ ih =>
    rcases ih with ih | ⟨y, hy, h⟩
    · exact .inl (by simp [TypeExpr.resolve, hx, ih])
    · exact .inr ⟨y, by simp [TypeExpr.names, TypeExpr.namesAll, hy], h⟩
  | map hx _ _ ihk ihv =>
    rcases ihk with ihk | ⟨y, hy, h⟩
    · rcases ihv with ihv | ⟨y, hy, h⟩
      · exact .inl (by simp [TypeExpr.resolve, hx, ihk, ihv])
      · exact .inr ⟨y, by simp [TypeExpr.names, TypeExpr.namesAll, hy], h⟩
    · exact .inr ⟨y, by simp [TypeExpr.names, TypeExpr.namesAll, hy], h⟩
  | @named x s t origin hx hl hm h =>
    refine .inr ⟨x, List.mem_cons_self, _, Option.eq_none_iff_forall_ne_some.mpr fun u hu => ?_, hl, hm, h, _, rfl⟩
    exact hx u (Checker.isAtomic_iff.mpr hu)

end Typing

open Typing

/-- Where a variable with a written type is declared, it gets the type that this stands for without any names, or the
written type has a name in it that stands for a struct or an enum. -/
structure Checker.Settles (scope : Nat) (c c' : Checker) (x : Ident) (a : TypeExpr) : Prop where
  bound : ∃ i t, c'.scopes.lookup scope x.name = .ok (some (i, ⟨t, x⟩)) ∧ ∀ u, a.resolve noNames = .ok u → u = t
  named : ∀ e, a.resolve noNames = .error e → ∃ y ∈ a.names, Ty.atomic? y.name = none ∧ y.name ≠ "list" ∧
    y.name ≠ "map" ∧ ∃ i d t, c.scopes.lookup scope y.name = .ok (some (i, d)) ∧ d.type = .metatype t ∧
      t.isDeclared = true

theorem Checker.settles_of_checkStmt {scope : Nat} {c c' : Checker} {result : Option Ty} {sp : Span} {x : Ident}
    {a : TypeExpr} {e : Expr} (hs : Sound scope c)
    (h : checkStmt scope result (.letVar sp x (some a) e) c = .ok ((), c')) : Settles scope c c' x a := by
  obtain ⟨top, rest, rfl, hat, hΓ⟩ := hs
  obtain ⟨_, hat', -, t, rfl, ha⟩ := (safe_checkLet (σ := id) hΓ x (some a) e).ends c () c' hat h
  have ht := ha a rfl
  refine ⟨?_, fun err herr => ?_⟩
  · have hfind : Scopes.find ((declare x t top :: rest) ++ [builtinNames]) x.name =
        some ((rest ++ [builtinNames]).length, ⟨t, x⟩) := by
      rw [List.cons_append, Scopes.find, declare, List.lookup_cons_self]
    exact ⟨_, t, (hat'.lookup x.name).trans (congrArg _ hfind), fun u hu => (Denotes.of_noNames hu).unique ht⟩
  · obtain hok | ⟨y, hy, d, hnamed⟩ := ht.resolve_or_named
    · rw [hok] at herr
      cases herr
    · obtain ⟨u, hu⟩ := hnamed.type
      obtain ⟨i, hi⟩ := Scopes.find_of_lookup hnamed.lookup [builtinNames]
      have hlabelled : Ty.Labelled (.metatype u) := hu ▸ hΓ _ _ hnamed.lookup
      exact ⟨y, hy, hnamed.atomic, hnamed.list, hnamed.map, i, d, u, (hat.lookup y.name).trans (congrArg _ hi), hu,
        (Ty.labelled_metatype.mp hlabelled).1⟩

/-- Every variable with a written type in an accepted program gets this type, whether it is asked for among the names
of the program or without any. -/
theorem written_types_settle {p : Program} {T : TypeTable} (hc : p.check = .ok T) {sp : Span} {x : Ident}
    {a : TypeExpr} {e : Expr} (hs : .letVar sp x (some a) e ∈ p.stmts) :
    (∃ scope result c c', p.Reaches scope (.letVar sp x (some a) e) c ∧
      Checker.checkStmt scope result (.letVar sp x (some a) e) c = .ok ((), c')) ∧
    ∀ scope result c c', p.Reaches scope (.letVar sp x (some a) e) c →
      Checker.checkStmt scope result (.letVar sp x (some a) e) c = .ok ((), c') →
      Checker.Settles scope c c' x a := by
  obtain ⟨scope, c, hreaches, result, c', hok⟩ := Program.reaches_of_check hc hs
  exact ⟨⟨scope, result, c, c', hreaches, hok⟩, fun _ _ _ _ hreaches =>
    Checker.settles_of_checkStmt (Checker.sound_of_reaches hreaches)⟩

/-- Whether the statement declares a variable whose written type means nothing without the names of the program. -/
def Stmt.writesNames : Stmt → Bool
  | .letVar _ _ (some a) _ => !(a.resolve noNames).isOk
  | _ => false

theorem written_types_settle_alias :
    ∃ p T, parseProgram "struct P \x7b x: int \x7d let q = P; let ps: list<q> = [P(x: 1)];" = .ok p ∧
      p.check = .ok T ∧ ∃ sp x a e, .letVar sp x (some a) e ∈ p.stmts ∧ (a.resolve noNames).isOk = false ∧
      ∃ scope result c c', p.Reaches scope (.letVar sp x (some a) e) c ∧
        Checker.checkStmt scope result (.letVar sp x (some a) e) c = .ok ((), c') ∧
        Checker.Settles scope c c' x a := by
  refine exists_accepted (fun p _ => p.stmts.any Stmt.writesNames = true) (by decide +kernel) ?_
  intro p T _ hc hany
  obtain ⟨s, hs, hwrites⟩ := List.any_eq_true.mp hany
  cases s with
  | letVar sp x a e =>
    cases a with
    | none => cases hwrites
    | some a =>
      obtain ⟨⟨scope, result, c, c', hreaches, hok⟩, hsettles⟩ := written_types_settle hc hs
      exact ⟨sp, x, a, e, hs, Bool.not_eq_true' _ ▸ hwrites, scope, result, c, c', hreaches, hok,
        hsettles scope result c c' hreaches hok⟩
  | _ => cases hwrites

end Gondola
