import Gondola.Compile
import Gondola.Proofs.Code.JavaScriptLines
import Gondola.Proofs.Code.PythonLines
import Gondola.Proofs.Code.Unsupported
import Gondola.Proofs.Typing.Soundness

/-! The blocks of generated programs. The lines of a program follow the helpers, and their indentation is that of the
blocks of the target language. -/
namespace Gondola

/-- How many spaces a unit of indentation has. -/
def Target.unit : Target → Nat
  | .python => 4
  | .javascript => 2
  | .native => 4

/-- The blocks are those of the language: suites in Python, and braces elsewhere. -/
def Target.Blocks : Target → List (List Char) → Prop
  | .python => Suited Target.python.unit
  | .javascript => Braced Target.javascript.unit
  | .native => Braced Target.native.unit

namespace Program

/-- The texts in front of a program that do not depend on it but for which of them are needed. -/
def helperLines (p : Program) (T : TypeTable) : Target → List Line
  | .python => Python.helperLines (Emit.run Python.space [] (Python.program T p)).needs
  | .javascript => JavaScript.helperLines (Emit.run JavaScript.space 0 (JavaScript.itemLines T p.items)).needs
  | .native => []

/-- The lines that are written for the program itself. -/
def ownLines (p : Program) (T : TypeTable) : Target → List Line
  | .python => (Emit.run Python.space [] (Python.program T p)).value
  | .javascript => (Emit.run JavaScript.space 0 (JavaScript.itemLines T p.items)).value
  | .native => Native.lines T p

theorem generate_eq_renderLines (p : Program) (T : TypeTable) (t : Target) :
    p.generate T t = renderLines t.unit (p.helperLines T t ++ p.ownLines T t) := by
  cases t <;> rfl

end Program

/-- A text that has the given lines, and no others. No line of the program itself has a break in it, each is indented
by whole units, and together they are well-formed blocks. -/
structure Target.Structured (t : Target) (helpers own : List Line) (text : String) : Prop where
  lines : text.toList.splitOn '\n' = helpers.map (Line.chars t.unit) ++ own.map (Line.chars t.unit) ++ [[]]
  oneLine : ∀ l ∈ own, OneLine l.text
  whole : ∀ l ∈ own, t.unit ∣ indentation (l.chars t.unit)
  blocks : t.Blocks (own.map (Line.chars t.unit))

section Helpers

/-- The names that lines define, each behind a keyword. -/
def defined (keyword : String) (ls : List Line) : List String := ls.filterMap (Line.defines? keyword)

variable {ν : Type} {L : Dialect ν} {D : ν → Prop} {c : Prop} [Decidable c] {ls ms : List Line}

theorem mem_defined_append {keyword name : String} :
    name ∈ defined keyword (ls ++ ms) ↔ name ∈ defined keyword ls ∨ name ∈ defined keyword ms := by
  rw [defined, List.filterMap_append, List.mem_append]
  rfl

theorem mem_defined_ite {keyword name : String} (hc : c) (h : name ∈ defined keyword ls) :
    name ∈ defined keyword (if c then ls else []) := by
  rwa [if_pos hc]

theorem says_ite (names : List (List Char)) (h : ls.all (fun l => L.isPlain names l.text.toList) = true)
    (hD : c → ∀ w ∈ names, L.Knows D w) : ∀ l ∈ (if c then ls else []), Says L D l.text := by
  split
  · rename_i hc
    intro l hl
    have hsays := says_of_isPlain (List.all_eq_true.mp h l hl) (hD hc)
    rwa [String.ofList_toList] at hsays
  · exact List.forall_mem_nil _

namespace Python

variable {needs : List Helper}

def Provided (ls : List Line) (h : Helper) : Prop := h.name ∈ defined "def " ls

theorem provided_of_mem {h : Helper} (hm : h ∈ needs) : Provided (helperLines needs) h := by
  simp only [Provided, helperLines, mem_defined_append]
  cases h with
  | showValue => exact .inl (.inl (.inl (mem_defined_ite (by simpa using hm) (by decide))))
  | printValue => exact .inl (.inl (.inr (mem_defined_ite (by simpa using hm) (by decide))))
  | divide => exact .inl (.inr (mem_defined_ite (by simp [hm]) (by decide)))
  | remainder => exact .inr (mem_defined_ite (by simpa using hm) (by decide))

theorem provided_divide (hm : .remainder ∈ needs) : Provided (helperLines needs) .divide := by
  simp only [Provided, helperLines, mem_defined_append]
  exact .inl (.inr (mem_defined_ite (by simp [hm]) (by decide)))

theorem says_helperLines (hprint : .printValue ∈ needs → .showValue ∈ needs) :
    ∀ l ∈ helperLines needs, Says (Provided (helperLines needs)) l.text := by
  have hknows {h : Helper} (hm : h ∈ needs) := knows_name (provided_of_mem hm)
  simp only [helperLines, List.forall_mem_append]
  refine ⟨⟨⟨says_ite [Helper.showValue.name.toList] (by decide +kernel) fun hc => ?_,
    says_ite [Helper.printValue.name.toList, Helper.showValue.name.toList] (by decide +kernel) fun hc => ?_⟩,
    says_ite [Helper.divide.name.toList] (by decide +kernel) fun hc => ?_⟩,
    says_ite [Helper.remainder.name.toList, Helper.divide.name.toList] (by decide +kernel) fun hc => ?_⟩
  · have hm : .showValue ∈ needs := by simpa using hc
    exact List.forall_mem_singleton.mpr (hknows hm)
  · have hm : .printValue ∈ needs := by simpa using hc
    exact List.forall_mem_cons.mpr ⟨hknows hm, List.forall_mem_singleton.mpr (hknows (hprint hm))⟩
  · have hm : .divide ∈ needs ∨ .remainder ∈ needs := by simpa using hc
    exact List.forall_mem_singleton.mpr (knows_name (hm.elim provided_of_mem provided_divide))
  · have hm : .remainder ∈ needs := by simpa using hc
    exact List.forall_mem_cons.mpr ⟨hknows hm, List.forall_mem_singleton.mpr (knows_name (provided_divide hm))⟩

end Python

namespace JavaScript

variable {needs : List Helper}

def Provided (ls : List Line) (h : Helper) : Prop := h.name ∈ defined "function " ls

theorem provided_of_mem {h : Helper} (hm : h ∈ needs) : Provided (helperLines needs) h := by
  simp only [Provided, helperLines, mem_defined_append]
  cases h with
  | showValue => exact .inl (mem_defined_ite (by simpa using hm) (by decide))
  | printValue => exact .inr (mem_defined_ite (by simpa using hm) (by decide))

theorem says_helperLines (hprint : .printValue ∈ needs → .showValue ∈ needs) :
    ∀ l ∈ helperLines needs, Says (Provided (helperLines needs)) l.text := by
  have hknows {h : Helper} (hm : h ∈ needs) := knows_name (provided_of_mem hm)
  simp only [helperLines, List.forall_mem_append]
  refine ⟨says_ite [Helper.showValue.name.toList] (by decide +kernel) fun hc => ?_,
    says_ite [Helper.printValue.name.toList, Helper.showValue.name.toList] (by decide +kernel) fun hc => ?_⟩
  · have hm : .showValue ∈ needs := by simpa using hc
    exact List.forall_mem_singleton.mpr (hknows hm)
  · have hm : .printValue ∈ needs := by simpa using hc
    exact List.forall_mem_cons.mpr ⟨hknows hm, List.forall_mem_singleton.mpr (hknows (hprint hm))⟩

end JavaScript

end Helpers

section Own

variable {p : Program} {T : TypeTable}

theorem Line.Tidy.dvd_indentation {l : Line} (h : l.Tidy) (unit : Nat) : unit ∣ indentation (l.chars unit) := by
  by_cases hne : l.text = ""
  · rw [Line.chars, if_pos hne]
    exact Nat.dvd_zero unit
  · rw [h.indentation_chars hne]
    exact Nat.dvd_mul_right unit l.depth

theorem Python.says_lines (hp : ∀ i ∈ p.items, i.IsSpellable) :
    (∀ l ∈ p.helperLines T .python, Says (Provided (p.helperLines T .python)) l.text) ∧
      Stacked (Says (Provided (p.helperLines T .python))) 0 (p.ownLines T .python) := by
  have hgiven : Given (Provided (p.helperLines T .python)) _ (Emit.run space [] (program T p)) :=
    (emits_program hp).run (List.forall_mem_nil _)
  exact ⟨says_helperLines hgiven.needs, hgiven.value fun _ => provided_of_mem⟩

theorem JavaScript.says_lines (hp : ∀ i ∈ p.items, i.IsSpellable) :
    (∀ l ∈ p.helperLines T .javascript, Says (Provided (p.helperLines T .javascript)) l.text) ∧
      Laid (Says (Provided (p.helperLines T .javascript))) 0 0 (p.ownLines T .javascript) := by
  have hgiven : Given (Provided (p.helperLines T .javascript)) _ (Emit.run space 0 (itemLines T p.items)) :=
    (emits_itemLines hp).run True.intro
  exact ⟨says_helperLines hgiven.needs, hgiven.value fun _ => provided_of_mem⟩

theorem Program.lines_of_isSpellable (hp : ∀ i ∈ p.items, i.IsSpellable) (t : Target) :
    (∀ l ∈ p.helperLines T t, OneLine l.text) ∧ (∀ l ∈ p.ownLines T t, l.Tidy) ∧
      t.Blocks ((p.ownLines T t).map (Line.chars t.unit)) := by
  cases t with
  | python =>
    obtain ⟨hhelpers, hown⟩ := Python.says_lines (T := T) hp
    exact ⟨fun l hl => (hhelpers l hl).line, hown.tidy, hown.suited _⟩
  | javascript =>
    obtain ⟨hhelpers, hown⟩ := JavaScript.says_lines (T := T) hp
    exact ⟨fun l hl => (hhelpers l hl).line, hown.tidy, hown.braced _⟩
  | native =>
    have hown := (Native.shows_program (T := T) hp).laid
    exact ⟨List.forall_mem_nil _, hown.tidy, hown.braced _⟩

end Own

/-- A program that was read is written in well-formed blocks, in every target and with any types. -/
theorem structured_of_parseProgram {source : String} {p : Program} (h : parseProgram source = .ok p)
    (T : TypeTable) (t : Target) :
    t.Structured (p.helperLines T t) (p.ownLines T t) (p.generate T t) := by
  obtain ⟨hhelpers, htidy, hblocks⟩ := Program.lines_of_isSpellable (T := T) (Parser.spellable_of_parseProgram h) t
  have hone : ∀ l ∈ p.ownLines T t, OneLine l.text := fun l hl => (htidy l hl).oneLine
  refine ⟨?_, hone, fun l hl => (htidy l hl).dvd_indentation _, hblocks⟩
  have hall := List.forall_mem_append.mpr ⟨hhelpers, hone⟩
  rw [p.generate_eq_renderLines T t, splitOn_renderLines hall, List.map_append]

/-- An empty struct, a global that a function assigns to, an empty branch, an empty arm, and a string with a line
break and a brace in it. -/
theorem structured_nested :
    ∃ p T, parseProgram ("struct P \x7b \x7d enum E \x7b A \x7d let n = 0; fn f(e: E) \x7b " ++
        "if n < 1 \x7b \x7d else \x7b n = n / 2 \x7d " ++
        "match e \x7b case A \x7b \x7d default \x7b print(\"\n\x7b:\") \x7d \x7d \x7d") = .ok p ∧
      p.check = .ok T ∧ ∀ t : Target,
        (p.ownLines T t).any (fun l => l.opens || l.heads) = true ∧
          t.Structured (p.helperLines T t) (p.ownLines T t) (p.generate T t) := by
  refine exists_accepted (fun p T => ∀ t ∈ Target.all, (p.ownLines T t).any (fun l => l.opens || l.heads) = true)
    (by decide +kernel) fun p T hp _ hall t => ⟨hall t ?_, structured_of_parseProgram hp T t⟩
  cases t <;> decide

end Gondola
