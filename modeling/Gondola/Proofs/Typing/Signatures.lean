import Gondola.Proofs.Typing.Soundness

/-! What checking records: a type for each expression and the signature of each function, and nothing else. -/
namespace Gondola

namespace Typing

theorem WellTyped.typeOf {T : TypeTable} {Γ : Env} {e : Expr} (h : WellTyped T Γ e) :
    (T.typeOf? e).isSome := by
  have hsome : ∃ t, T.typeOf? e = some t := by
    cases h with
    | int h | string h | bool h | declared _ h | builtin _ _ h | binary _ _ _ _ _ h | unary _ _ _ h
    | call _ _ _ _ _ _ h | construct _ _ _ _ _ _ h | list _ _ _ h | map _ _ _ _ _ h | item _ _ _ _ h
    | entry _ _ _ _ h | field _ _ _ h | plainCase _ _ _ h | holdingCase _ _ _ h => exact ⟨_, h⟩
  exact Option.isSome_iff_exists.mpr hsome

end Typing

namespace Checker

open Typing

theorem function_of_check {p : Program} {T : TypeTable} (hn : p.ids.Nodup) (h : p.check = .ok T)
    {name : String} {sig : Signature} (hsig : T.function? name = some sig) :
    ∃ s f, .function s f ∈ p.items ∧ f.name.name = name := by
  obtain ⟨sigs, hsigs, hfuns⟩ := functions_of_check hn h
  obtain ⟨before, after, hl, -⟩ := List.lookup_eq_some_iff.mp hsig
  have hmem : (name, sig) ∈ sigs.reverse := by
    rw [← hfuns, hl]
    exact List.mem_append_right _ List.mem_cons_self
  exact hsigs.mem (List.mem_reverse.mp hmem)

end Checker

namespace Typing

/-- What a table holds of a program that it is the table of. -/
structure Records (T : TypeTable) (p : Program) : Prop where
  /-- Each expression after its parts, and all in the order of the source. -/
  numbers : p.ids = List.range p.parts.length
  types : ∀ id, (T.typeAt? id).isSome ↔ id < p.parts.length
  functions : ∃ sigs, FunctionsDenote T [] p.items sigs ∧ T.functions.Perm sigs
  names : (T.functions.map Prod.fst).Nodup

theorem records_of_check {source : String} {p : Program} {T : TypeTable}
    (hp : parseProgram source = .ok p) (hc : p.check = .ok T) : Records T p := by
  have hids : p.ids = List.range p.parts.length := by
    rw [← Program.length_ids]
    exact Parser.ids_of_parseProgram hp
  have hn : p.ids.Nodup := by
    rw [hids]
    exact List.nodup_range
  obtain ⟨sigs, hsigs, hfuns⟩ := Checker.functions_of_check hn hc
  refine ⟨hids, fun id => ⟨?_, ?_⟩, ⟨sigs, hsigs, ?_⟩, ?_⟩
  · intro hsome
    by_contra hle
    have hid : id ∉ p.ids := by
      rw [hids, List.mem_range]
      exact hle
    rw [Checker.typeAt?_eq_none_of_check hn hc hid] at hsome
    cases hsome
  · intro hlt
    have hid : id ∈ p.ids := by
      rw [hids, List.mem_range]
      exact hlt
    obtain ⟨e, he, rfl⟩ := List.mem_map.mp (p.ids_perm.mem_iff.mp hid)
    obtain ⟨Γ, hw⟩ := Checker.wellTyped_of_check hn hc he
    exact hw.typeOf
  · rw [hfuns]
    exact List.reverse_perm sigs
  · rw [hfuns, List.map_reverse]
    have hdistinct := (Checker.topLevel_names_nodup hn hc).sublist hsigs.sublist
    exact (List.reverse_perm _).nodup_iff.mpr hdistinct

/-- A group has no number, a result that is not written is void, and a parameter has a struct of the program. -/
theorem records_of_check_functions :
    ∃ p T, parseProgram ("struct P \x7b x: int \x7d fn f(p: P, n: list<int>) \x7b print((n)[p.x]) \x7d " ++
        "fn g(): int \x7b f(n: [-(1 + 2)], p: P(x: 0)); return 4 \x7d") = .ok p ∧
      p.check = .ok T ∧ Records T p :=
  exists_accepted (fun _ _ => True) (by decide +kernel) fun _ _ hp hc _ => records_of_check hp hc

end Typing

end Gondola
