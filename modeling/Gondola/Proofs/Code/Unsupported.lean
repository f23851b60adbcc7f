import Gondola.Proofs.Code.NativeLines

/-! Structs and enums in C programs. A program that declares one does not compile as C, and any other one has no
directive that would keep it from that. -/
namespace Gondola

open Text

theorem Typing.ItemsTyped.function? {T : TypeTable} {Γ : Env} {is : List Item} (h : ItemsTyped T Γ is)
    {s : Span} {f : FunctionDecl} (hf : .function s f ∈ is) :
    ∃ sig, T.function? f.name.name = some sig := by
  induction h with
  | nil => cases hf
  | function hfun _ ih =>
    rcases List.mem_cons.mp hf with heq | hf
    · obtain ⟨-, rfl⟩ := Item.function.inj heq
      obtain ⟨sig, hsig, -⟩ := hfun.body
      exact ⟨sig, hsig⟩
    · exact ih hf
  | stmt _ _ ih =>
    rcases List.mem_cons.mp hf with heq | hf
    · cases heq
    · exact ih hf

namespace Native

/-- A line of the text starts with the directive, behind its indentation. -/
def HasDirective (directive text : String) : Prop := ∃ l ∈ textLines text, directive.toList <+: l

theorem hasDirective_renderLines {ls : List Line} (h : ∀ l ∈ ls, l.Tidy) (width : Nat) :
    HasDirective "#error" (renderLines width ls) ↔ ls.any isError = true := by
  rw [HasDirective, textLines_renderLines h, List.any_eq_true]
  constructor
  · rintro ⟨cs, hcs, hprefix⟩
    rcases List.mem_append.mp hcs with hcs | hcs
    · obtain ⟨l, hl, rfl⟩ := List.mem_map.mp hcs
      exact ⟨l, hl, List.isPrefixOf_iff_prefix.mpr hprefix⟩
    · -- What follows the last line is empty.
      rw [List.mem_singleton.mp hcs] at hprefix
      exact absurd (List.prefix_nil.mp hprefix) (by decide)
  · rintro ⟨l, hl, herror⟩
    exact ⟨l.text.toList, List.mem_append_left _ (List.mem_map_of_mem hl),
      List.isPrefixOf_iff_prefix.mp herror⟩

/-- The C compiler stops at a checked program if and only if it declares a struct or an enum: anywhere, also
in the bodies of matches, which are not written. -/
theorem stops_iff_declares {source : String} {p : Program} {T : TypeTable}
    (hp : parseProgram source = .ok p) (hc : p.check = .ok T) :
    HasDirective "#error" (generate T p) ↔ ∃ s ∈ p.stmts, s.declaresType = true := by
  have hn := Parser.nodup_ids_of_parseProgram hp
  have htyped := Checker.typed_of_check hn hc
  have hlines := shows_lines (Parser.spellable_of_parseProgram hp) fun _ _ hf => htyped.function? hf
  rw [generate, hasDirective_renderLines hlines.laid.tidy, hlines.any]
  constructor
  · intro hopen
    obtain ⟨i, hi, hopen⟩ := List.any_eq_true.mp hopen
    obtain ⟨s, hs, hd⟩ := Item.exists_of_declaresOpenly hopen
    exact ⟨s, List.mem_flatMap.mpr ⟨i, hi, hs⟩, hd⟩
  · rintro ⟨s, hs, hd⟩
    exact Typing.declaresOpenly_of_check hn hc hs hd

/-- A struct in a match in a function, and a string that looks like a directive. -/
theorem stops_iff_declares_match :
    ∃ p T, parseProgram ("enum E \x7b A \x7d fn f(e: E) \x7b match e \x7b case A \x7b " ++
        "struct P \x7b x: int \x7d print(\"\\n#error\") \x7d \x7d \x7d f(E.A)") = .ok p ∧
      p.check = .ok T ∧ (HasDirective "#error" (generate T p) ↔ ∃ s ∈ p.stmts, s.declaresType = true) ∧
      HasDirective "#error" (generate T p) := by
  generalize hs : "enum E \x7b A \x7d fn f(e: E) \x7b match e \x7b case A \x7b " ++
    "struct P \x7b x: int \x7d print(\"\\n#error\") \x7d \x7d \x7d f(E.A)" = source
  have hok : ((parseProgram source).toOption.any fun p =>
      p.check.isOk && p.stmts.any Stmt.declaresType) = true := by
    subst hs
    decide +kernel
  cases hp : parseProgram source with
  | error e =>
    rw [hp] at hok
    cases hok
  | ok p =>
    rw [hp] at hok
    obtain ⟨hcheck, hdeclares⟩ := Bool.and_eq_true_iff.mp hok
    cases hc : p.check with
    | error e =>
      rw [hc] at hcheck
      cases hcheck
    | ok T =>
      have hiff := stops_iff_declares hp hc
      exact ⟨p, T, rfl, hc, hiff, hiff.mpr (List.any_eq_true.mp hdeclares)⟩

end Native

end Gondola
