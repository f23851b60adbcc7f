import Gondola.Proofs.Code.Parts
import Gondola.Proofs.Code.Shapes
import Gondola.Proofs.Code.Words

/-! The parts of C programs. The names of function types are words in them, and nothing else is spelled like one. -/
namespace Gondola.Native

open Text

def typedefWord : List Char := ['t', 'y', 'p', 'e', 'd', 'e', 'f']

/-- How the names of function types start. -/
def functionStart : List Char := ['v', 'e', 'n', 'i', 'c', 'e', '_', 'f', 'n', '_']

/-- A word that starts no definition, and is the name of a function type only if that is declared. -/
def Known (D : Typedef → Prop) (w : List Char) : Prop :=
  w ≠ typedefWord ∧ ∀ f : Signature, w = f.typedef.name.toList → D f.typedef

section Known

variable {D : Typedef → Prop} {w : List Char}

theorem known_of_isPrefixOf (h : (w == typedefWord || functionStart.isPrefixOf w) = false) : Known D w := by
  rw [Bool.or_eq_false_iff, beq_eq_false_iff_ne] at h
  refine ⟨h.1, ?_⟩
  rintro f rfl
  have hstarts := List.isPrefixOf_iff_prefix.mpr (name_starts f)
  exact absurd (h.2.symm.trans hstarts) Bool.false_ne_true

/-- Definitions start with a word, and function types have names, that end in a letter. -/
theorem known_of_getLast? {c : Char} (hlast : w.getLast? = some c) (hc : ('f' :: lastLetters).contains c = false) :
    Known D w := by
  -- It is enough to compare the last characters: the word has an `f` there, and the names have that of a shape.
  constructor
  · rintro rfl
    obtain rfl : 'f' = c := Option.some.inj hlast
    exact absurd hc (by decide)
  · rintro f rfl
    have hname := getLast?_name f
    rw [hlast, Option.any_some] at hname
    rw [List.contains_cons, hname, Bool.or_true] at hc
    cases hc

theorem known_append_toDigits (cs : List Char) (n : Nat) : Known D (cs ++ Nat.toDigits 10 n) := by
  cases hlast : (Nat.toDigits 10 n).getLast? with
  | none => exact absurd (List.getLast?_eq_none_iff.mp hlast) Nat.toDigits_ne_nil
  | some c =>
    have hdigits : ∀ c ∈ ['0', '1', '2', '3', '4', '5', '6', '7', '8', '9'], ('f' :: lastLetters).contains c = false :=
      forall_mem_of_all (by decide)
    refine known_of_getLast? (c := c) ?_ (hdigits c (mem_digits_of_isDigit (isDigit_getLast?_toDigits hlast)))
    rw [getLast?_append_toDigits, hlast]

theorem known_text (f : Form) : Known D (f.text space).toList := by
  cases f with
  | plain x =>
    rw [Form.text, Namespace.ident]
    split
    · -- A spelling that is taken gets an underscore at its end.
      refine known_of_getLast? (c := '_') ?_ (by decide)
      rw [String.toList_append]
      exact List.getLast?_concat
    · -- Keywords are taken, and so is all that starts like the library.
      rename_i hfree
      rw [Namespace.taken, Bool.or_eq_true, Bool.or_eq_true, not_or, not_or] at hfree
      obtain ⟨⟨hreserved, -⟩, hlibrary⟩ := hfree
      constructor
      · intro heq
        rw [(String.toList_inj.mp heq : x = "typedef")] at hreserved
        exact hreserved (by decide)
      · intro f heq
        refine absurd ?_ hlibrary
        rw [Namespace.inLibrary, heq, toList_name]
        rfl
  | fresh stem n =>
    rw [Form.text, Namespace.toList_fresh_of_some (rfl : space.library = some "venice_"), String.toList_append, toList_toString,
      ← List.append_assoc]
    exact known_append_toDigits _ n

end Known

def dialect : Dialect Typedef where
  words := words
  closed cs := Mode.code.after cs = .code
  apart c := !continuesName c
  special w := w == typedefWord || functionStart.isPrefixOf w
  space := space
  Knows := Known
  append hclosed h := by
    rw [decide_eq_true_eq] at hclosed
    rw [words_append hclosed h, Mode.after, List.foldl_append]
    exact ⟨rfl, by rw [← Mode.after, ← Mode.after, hclosed]⟩
  name h := by
    obtain ⟨hwords, hclosed⟩ := words_name h.1 h.2
    exact ⟨hwords, decide_eq_true hclosed⟩
  quoted h := by
    obtain ⟨hwords, hclosed⟩ := quotes_literal.words h
    rw [words_eq]
    exact ⟨hwords, decide_eq_true hclosed⟩
  marks := by decide
  leads := by decide
  texts := by decide
  library := by
    rintro _ ⟨⟩
    exact List.all_eq_true.mp (by decide)
  knows_of_special _ _ := known_of_isPrefixOf
  knows_number _ n := by
    rw [toList_toString]
    exact known_append_toDigits [] n
  knows_text _ _ _ := known_text _

abbrev Says (D : Typedef → Prop) (s : String) : Prop := Gondola.Says dialect D s

abbrev Part (D : Typedef → Prop) (s : String) : Prop := Gondola.Part dialect D s

abbrev Leads (D : Typedef → Prop) (s : String) : Prop := Gondola.Leads dialect D s

theorem known_of_mem_words {D : Typedef → Prop} {s : String} (h : Says D s) : ∀ w ∈ words s.toList, Known D w := h.words

theorem Part.mono {D E : Typedef → Prop} {s : String} (h : Part D s) (hsub : ∀ t, D t → E t) : Part E s :=
  ⟨⟨h.line, h.closed, fun w hw => ⟨(h.words w hw).1, fun f hf => hsub _ ((h.words w hw).2 f hf)⟩⟩, h.starts⟩

section Names

variable {D : Typedef → Prop}

theorem says_paramList {params : List String} (h : ∀ p ∈ params, Part D p) : Says D (paramList params) := by
  cases params with
  | nil => exact says_plain (by decide)
  | cons p ps => exact says_commaSeparated h

theorem isWord_name (f : Signature) : IsWord f.typedef.name := by
  refine ⟨fun hnil => ?_, continuesName_name f⟩
  have hstarts := name_starts f
  rw [hnil] at hstarts
  exact absurd (List.prefix_nil.mp hstarts) (by decide)

theorem part_typedefName {f : Signature} (h : D f.typedef) : Part D f.typedef.name := by
  refine (isWord_name f).part ⟨?_, fun g hg => ?_⟩
  · intro heq
    have hstarts := name_starts f
    rw [heq] at hstarts
    exact absurd hstarts (by decide)
  · -- Another function type of this name would be declared by the same line.
    rw [← typedef_eq_of_name (String.toList_inj.mp hg)]
    exact h

end Names

section Literals

variable {D : Typedef → Prop}

theorem part_unsupported (what : String) : Part D (unsupported what) :=
  part_around (by decide) (part_stringLiteral _ what) (by decide)

theorem isQuotable_descriptor (parts : List Descriptor.Part) : isQuotable (Descriptor.text parts).toList = true := by
  rw [Descriptor.text, String.toList_ofList, isQuotable, List.all_eq_true]
  refine List.forall_mem_map.mpr fun p _ => ?_
  cases p <;> decide

theorem says_errorLine {what : String} (h : isQuotable what.toList = true) : Says D (errorLine what).text := by
  -- The directive is written with its opening quote in one piece.
  have htext : (errorLine what).text = "#error " ++ ("\"" ++ what ++ "\"") := by
    have hstart : "#error \"" = "#error " ++ "\"" := by decide
    rw [errorLine, Line.at0, hstart]
    simp only [String.append_assoc]
  have hlead : Says D "#error " := says_plain (by decide)
  rw [htext]
  exact hlead.append_of_apart (part_quoted h).toSays (.inl (by decide))

end Literals

section Values

variable {D : Typedef → Prop} {code : String}

theorem part_word (h : Part D code) : Part D (word code) := part_around (by decide) h (by decide)

theorem part_unaryCode (op : UnaryOp) (h : Part D code) : Part D (unaryCode op code) := by
  cases op with
  | neg => exact (leads_of_isLead (by decide) : Leads D "-").append h
  | not => exact (leads_of_isLead (by decide) : Leads D "!").append h

theorem part_binary (op : BinaryOp) {rhs : String} (h : Part D code) (h' : Part D rhs) :
    Part D (code ++ " " ++ operator op ++ " " ++ rhs) := by
  have hop : Part D (operator op) := by
    cases op <;> exact part_of_isPart (by decide)
  exact ((((h.mark (by decide)).append hop).mark (by decide)).append h')

theorem part_stringCode (text : String) : Part D (stringCode text) := by
  refine Part.call (part_of_isPart (by decide)) ?_
  simp only [List.forall_mem_cons]
  exact ⟨part_stringLiteral _ text, part_toString _, List.forall_mem_nil _⟩

theorem part_listCode {items : List String} (h : ∀ i ∈ items, Part D i) : Part D (listCode items) := by
  refine Part.call (part_of_isPart (by decide)) ?_
  simp only [List.forall_mem_cons, List.forall_mem_map]
  exact ⟨part_toString _, fun i hi => part_word (h i hi)⟩

theorem part_mapCode (key : Ty) {entries : List (String × String)} (h : ∀ e ∈ entries, Part D e.1 ∧ Part D e.2) :
    Part D (mapCode key entries) := by
  -- The kind of the keys is a character literal, the only one in a program.
  have hkey : Part D ("'" ++ key.keyKind.letter.toString ++ "'") := by
    have htext : "'" ++ key.keyKind.letter.toString ++ "'" = String.ofList ['\x27', key.keyKind.letter, '\x27'] := by
      rw [← String.toList_inj]
      simp [Char.toString]
    rw [htext]
    exact part_of_isPart (by cases key.keyKind <;> decide)
  refine Part.call (part_of_isPart (by decide)) ?_
  simp only [List.forall_mem_cons]
  refine ⟨hkey, part_toString _, ?_⟩
  intro text htext
  obtain ⟨e, he, htext⟩ := List.mem_flatMap.mp htext
  simp only [List.mem_cons, List.not_mem_nil, or_false] at htext
  rcases htext with rfl | rfl
  · exact part_word (h e he).1
  · exact part_word (h e he).2

theorem part_elementCode (map : Bool) {place : String} (h : Part D code) (hp : Part D place) :
    Part D (elementCode map code place) := by
  cases map with
  | true =>
    refine Part.call (part_of_isPart (by decide)) ?_
    simp only [List.forall_mem_cons]
    exact ⟨h, part_word hp, List.forall_mem_nil _⟩
  | false =>
    refine Part.call (part_of_isPart (by decide)) ?_
    simp only [List.forall_mem_cons]
    exact ⟨h, hp, List.forall_mem_nil _⟩

theorem part_printCode (t : Ty) (h : Part D code) : Part D (printCode "venice_print" t code) := by
  refine Part.call (part_of_isPart (by decide)) ?_
  simp only [List.forall_mem_cons]
  refine ⟨?_, part_quoted (isQuotable_descriptor _), List.forall_mem_nil _⟩
  split
  · have hlead : Leads D "(" := leads_of_isLead (by decide)
    exact (((hlead.append h).mark (by decide)).append (part_unsupported _)).close (by decide)
  · exact part_word h

theorem part_loopHead {list counter : String} (hl : Part D list) (hc : Part D counter) :
    Part D (loopHead list counter) := by
  have hlead : Leads D "for (venice_int_t " := leads_of_isLead (by decide)
  exact ((((((hlead.append hc).mark (by decide)).append hc).mark (by decide)).append hl).mark (by decide)).append hc
    |>.close (by decide)

end Values

end Gondola.Native
