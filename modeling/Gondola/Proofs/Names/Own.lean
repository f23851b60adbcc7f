import Gondola.Proofs.Code.NativeWords

/-! The names that a program in a target language has besides those of the source. No name is spelled like one of them,
with one exception: the library guards its header by a name that a program can spell. -/
namespace Gondola

/-- The name that a line defines, if it starts with the keyword of a definition. -/
def Line.defines? (keyword : String) (l : Line) : Option String :=
  if keyword.toList.isPrefixOf l.text.toList then
    some (String.ofList ((l.text.toList.drop keyword.length).takeWhile (· != '(')))
  else none

namespace Native

def libraryTypes : List String :=
  ["venice_int_t", "venice_bool_t", "venice_word_t", "venice_any_t", "venice_string_t", "venice_list_t", "venice_map_t"]

def libraryFunctions : List String :=
  ["venice_runtime_error", "venice_unsupported", "venice_malloc", "venice_realloc", "venice_string_new",
    "venice_list_from_varargs", "venice_list_length", "venice_list_index", "venice_list_set",
    "venice_map_from_varargs", "venice_map_get", "venice_map_set", "venice_print"]

/-- The first one is defined so that the header is read once only. -/
def libraryMacros : List String := ["VENICE_H_", "VENICE_WORD", "VENICE_FROM_WORD"]

/-- What the header declares that every program includes. -/
def libraryNames : List String := libraryTypes ++ libraryFunctions ++ libraryMacros

end Native

/-- The names that the output of a target relies on. -/
inductive Target.Own : Target → String → Prop
  | pythonHelper (needs : List Python.Helper) {l name} (hl : l ∈ Python.helperLines needs)
      (h : l.defines? "def " = some name) : Own .python name
  | javascriptHelper (needs : List JavaScript.Helper) {l name} (hl : l ∈ JavaScript.helperLines needs)
      (h : l.defines? "function " = some name) : Own .javascript name
  | temporary (w : Writer Nat) : Own .javascript (JavaScript.matchTemp w).value.1
  | library {name} (h : name ∈ Native.libraryNames) : Own .native name
  | functionType (f : Signature) : Own .native f.typedef.name

section Helpers

variable {name : String}

theorem ite_nil_sublist {α : Type} (p : Prop) [Decidable p] (xs : List α) : (if p then xs else []).Sublist xs := by
  split
  · exact List.Sublist.refl xs
  · exact List.nil_sublist xs

namespace Python

theorem helperLines_sublist (needs : List Helper) :
    (helperLines needs).Sublist (showLines ++ printLines ++ divideLines ++ remainderLines) :=
  (((ite_nil_sublist _ _).append (ite_nil_sublist _ _)).append (ite_nil_sublist _ _)).append (ite_nil_sublist _ _)

theorem own_iff : Target.python.Own name ↔
    name ∈ ["venice_show_", "venice_print_", "venice_div_", "venice_mod_"] := by
  have hall : (showLines ++ printLines ++ divideLines ++ remainderLines).filterMap (Line.defines? "def ") =
      ["venice_show_", "venice_print_", "venice_div_", "venice_mod_"] := by decide
  rw [← hall, List.mem_filterMap]
  constructor
  · rintro ⟨needs, hl, h⟩
    exact ⟨_, (helperLines_sublist needs).subset hl, h⟩
  · rintro ⟨l, hl, h⟩
    exact .pythonHelper [.showValue, .printValue, .divide, .remainder] hl h

end Python

namespace JavaScript

theorem helperLines_sublist (needs : List Helper) : (helperLines needs).Sublist (showLines ++ printLines) :=
  (ite_nil_sublist _ _).append (ite_nil_sublist _ _)

theorem own_iff : Target.javascript.Own name ↔
    name ∈ ["$show", "$print"] ∨ ∃ n : Nat, name = "$match" ++ toString n := by
  have hall : (showLines ++ printLines).filterMap (Line.defines? "function ") = ["$show", "$print"] := by decide
  rw [← hall, List.mem_filterMap]
  constructor
  · rintro (_ | ⟨needs, hl, h⟩ | w)
    · exact .inl ⟨_, (helperLines_sublist needs).subset hl, h⟩
    · exact .inr ⟨w.extra, rfl⟩
  · rintro (⟨l, hl, h⟩ | ⟨n, rfl⟩)
    · exact .javascriptHelper [.showValue, .printValue] hl h
    · exact .temporary ⟨{ space := space }, n⟩

theorem head?_of_own (h : Target.javascript.Own name) : name.toList.head? = some '$' := by
  rcases own_iff.mp h with h | ⟨n, rfl⟩
  · have hall : ∀ x ∈ ["$show", "$print"], x.toList.head? = some '$' := by decide
    exact hall name h
  · rw [String.toList_append]
    rfl

end JavaScript

end Helpers

namespace Namespace

variable {ns : Namespace} {x name stem : String}

theorem eq_append_of_ident_eq (ht : ns.taken name = true) (h : ns.ident x = name) :
    ns.taken x = true ∧ x ++ "_" = name := by
  unfold ident at h
  split at h
  · exact ⟨‹_›, h⟩
  · rename_i hx
    exact absurd (h ▸ ht) hx

theorem ident_ne_append (hs : ns.taken stem = false) : ns.ident x ≠ stem ++ "_" := by
  intro h
  have hend : (stem ++ "_").toList.getLast? = some '_' := by
    rw [String.toList_append]
    exact List.getLast?_concat
  obtain ⟨hx, heq⟩ := eq_append_of_ident_eq (taken_of_getLast? hend) h
  rw [(String.append_left_inj "_").mp heq, hs] at hx
  cases hx

theorem ident_ne_of_taken (ht : ns.taken name = true) (hlast : name.toList.getLast? ≠ some '_') :
    ns.ident x ≠ name := by
  intro h
  obtain ⟨-, heq⟩ := eq_append_of_ident_eq ht h
  apply hlast
  rw [← heq, String.toList_append]
  exact List.getLast?_concat

theorem fresh_ne_append_of_none (hl : ns.library = none) (hs : endsInDigit stem = false) (stem' : String) (n : Nat) :
    ns.fresh stem' n ≠ stem ++ "_" := by
  intro h
  have hlist := congrArg String.toList h
  rw [toList_fresh_of_none hl, String.toList_append] at hlist
  have hstem : stem.toList = stem'.toList ++ ['_'] ++ Nat.toDigits 10 n := by
    rw [← List.append_cancel_right hlist, List.append_cons]
  cases hlast : (Nat.toDigits 10 n).getLast? with
  | none => exact absurd (List.getLast?_eq_none_iff.mp hlast) Nat.toDigits_ne_nil
  | some c =>
    rw [endsInDigit, hstem, getLast?_append_toDigits, hlast, Option.any_some, isDigit_getLast?_toDigits hlast] at hs
    cases hs

theorem endsInDigit_fresh_of_some {start : String} (hl : ns.library = some start) (n : Nat) :
    endsInDigit (ns.fresh stem n) = true := by
  rw [endsInDigit, toList_fresh_of_some hl, String.toList_append, toList_toString, ← List.append_assoc,
    getLast?_append_toDigits]
  cases hlast : (Nat.toDigits 10 n).getLast? with
  | none => exact absurd (List.getLast?_eq_none_iff.mp hlast) Nat.toDigits_ne_nil
  | some c => exact isDigit_getLast?_toDigits hlast

end Namespace

section Own

variable {x stem : String}

namespace Python

theorem own_cases (h : Target.python.Own x) :
    ∃ stem, x = stem ++ "_" ∧ space.taken stem = false ∧ endsInDigit stem = false := by
  have hall : ∀ x ∈ ["venice_show_", "venice_print_", "venice_div_", "venice_mod_"],
      ∃ stem ∈ ["venice_show", "venice_print", "venice_div", "venice_mod"],
        x = stem ++ "_" ∧ space.taken stem = false ∧ endsInDigit stem = false := by decide
  obtain ⟨stem, -, hstem⟩ := hall x (own_iff.mp h)
  exact ⟨stem, hstem⟩

theorem not_own_text (f : Form) : ¬ Target.python.Own (f.text space) := by
  intro h
  obtain ⟨stem, heq, htaken, hdigit⟩ := own_cases h
  cases f with
  | plain x => exact Namespace.ident_ne_append htaken heq
  | fresh stem' n =>
    have hlibrary : space.library = none := rfl
    exact Namespace.fresh_ne_append_of_none hlibrary hdigit stem' n heq

end Python

namespace JavaScript

theorem not_own_text {f : Form} (hf : IsWord f.stem) : ¬ Target.javascript.Own (f.text space) := by
  intro h
  have hdollar := List.mem_of_mem_head? (head?_of_own h)
  exact absurd ((f.isWord_text (fun _ h => by cases h) hf).2 '$' hdollar) (by decide)

end JavaScript

namespace Native

/-- All names of the library are taken, and the guard is the only one of them that ends in an underscore. None ends in
a digit. -/
theorem library_cases (h : x ∈ libraryNames) :
    space.taken x = true ∧ endsInDigit x = false ∧ (x = "VENICE_H" ++ "_" ∨ x.toList.getLast? ≠ some '_') := by
  have hall : ∀ x ∈ libraryNames, space.taken x = true ∧ endsInDigit x = false ∧
      (x = "VENICE_H" ++ "_" ∨ x.toList.getLast? ≠ some '_') := by decide
  exact hall x h

theorem ident_mem_library_iff : space.ident x ∈ libraryNames ↔ x = "VENICE_H" := by
  constructor
  · intro h
    obtain ⟨htaken, -, hguard | hlast⟩ := library_cases h
    · obtain ⟨-, heq⟩ := Namespace.eq_append_of_ident_eq htaken rfl
      exact (String.append_left_inj "_").mp (heq.trans hguard)
    · exact absurd rfl (Namespace.ident_ne_of_taken htaken hlast)
  · rintro rfl
    decide

theorem own_text_iff {f : Form} (hf : IsIdentifier f.stem) :
    Target.native.Own (f.text space) ↔ f = .plain "VENICE_H" := by
  constructor
  · intro h
    generalize htext : f.text space = text at h
    cases h with
    | functionType s => exact ((known_text (D := fun _ => False) f).2 s (congrArg String.toList htext)).elim
    | library h =>
      cases f with
      | plain x =>
        rw [← htext] at h
        exact congrArg Form.plain (ident_mem_library_iff.mp h)
      | fresh stem n =>
        have hdigit := (library_cases h).2.1
        rw [← htext, Form.text, Namespace.endsInDigit_fresh_of_some rfl n] at hdigit
        cases hdigit
  · rintro rfl
    exact .library (ident_mem_library_iff.mpr rfl)

end Native

/-- Of all spellings, that of one name in one target is a name that the output relies on. -/
theorem spelling_own_iff (target : Target) (hx : IsIdentifier x) (hstem : IsIdentifier stem) (n : Nat) :
    (target.Own (target.space.ident x) ↔ target = .native ∧ x = "VENICE_H") ∧
      ¬ target.Own (target.space.fresh stem n) := by
  cases target with
  | python =>
    have hplain := Python.not_own_text (.plain x)
    exact ⟨⟨fun h => absurd h hplain, nofun⟩, Python.not_own_text (.fresh stem n)⟩
  | javascript =>
    have hplain := JavaScript.not_own_text (f := .plain x) hx.isWord
    exact ⟨⟨fun h => absurd h hplain, nofun⟩, JavaScript.not_own_text (f := .fresh stem n) hstem.isWord⟩
  | native =>
    have hplain := Native.own_text_iff (f := .plain x) hx
    have hfresh := Native.own_text_iff (f := .fresh stem n) hstem
    refine ⟨hplain.trans ⟨fun h => ⟨rfl, Form.plain.inj h⟩, fun h => congrArg Form.plain h.2⟩, fun h => ?_⟩
    cases hfresh.mp h

/-- A name that only lacks an underscore to be one of a helper keeps its spelling. -/
theorem spelling_own_show : IsIdentifier "venice_show" ∧ IsIdentifier "venice_show" ∧
    (Target.python.Own (Target.python.space.ident "venice_show") ↔
      Target.python = .native ∧ "venice_show" = "VENICE_H") ∧
    ¬ Target.python.Own (Target.python.space.fresh "venice_show" 0) := by
  have hshow : IsIdentifier "venice_show" := ⟨'v', "enice_show".toList, by decide, by decide, by rfl⟩
  exact ⟨hshow, hshow, spelling_own_iff .python hshow hshow 0⟩

/-- The spelling of a name can be the guard of the header. -/
theorem own_ident_guard : IsIdentifier "VENICE_H" ∧ Native.space.ident "VENICE_H" = "VENICE_H_" ∧
    Target.native.Own (Target.native.space.ident "VENICE_H") :=
  ⟨⟨'V', "ENICE_H".toList, by decide, by decide, by rfl⟩, by decide, .library (by decide)⟩

end Own

end Gondola
