import Gondola.Proofs.Code.OneLine
import Gondola.Proofs.Code.Reader

/-! The parts of programs in a target language. Each is code on one line, and only what is given to it is named in it.
-/
namespace Gondola

open Text

/-- How code is read for its words. -/
structure Lexicon where
  words : List Char → List (List Char)
  /-- Whether a text leaves no literal open. -/
  closed : List Char → Bool
  /-- Whether a character is in no word and opens no literal that depends on what is before it. -/
  apart : Char → Bool
  /-- Whether a word may be the name of what is needed. -/
  special : List Char → Bool

namespace Lexicon

variable (L : Lexicon)

/-- Text on one line in which nothing is named but what is listed. -/
def isPlain (names : List (List Char)) (cs : List Char) : Bool :=
  (cs.all fun c => c != '\n' && c != '\r') && L.closed cs && (L.words cs).all fun w => !L.special w || names.contains w

/-- Text without such names that can start a line. -/
def isPart (cs : List Char) : Bool := L.isPlain [] cs && cs.head?.any fun c => !isBlank c && c != '#' && c != '\x7d'

/-- Text without such names that ends a word. -/
def isLead (cs : List Char) : Bool := L.isPart cs && cs.getLast?.all L.apart

/-- Text without such names between two words. -/
def isMark (cs : List Char) : Bool :=
  L.isPlain [] cs && cs.getLast?.all L.apart && cs.head?.all L.apart && !cs.isEmpty

end Lexicon

/-- A target language: how its names are spelled and which words of its code stand for what a program may need. -/
structure Dialect (ν : Type) extends Lexicon where
  space : Namespace
  /-- Whether a word may stand in code where some needs are given. -/
  Knows : (ν → Prop) → List Char → Prop
  append {cs ds : List Char} : closed cs = true → (cs.getLast?.all apart = true ∨ ds.head?.all apart = true) →
    words (cs ++ ds) = words cs ++ words ds ∧ closed (cs ++ ds) = closed ds
  name {s : String} : IsWord s → words s.toList = [s.toList] ∧ closed s.toList = true
  quoted {cs : List Char} : Escaped cs → words ('"' :: (cs ++ ['"'])) = [] ∧ closed ('"' :: (cs ++ ['"'])) = true
  marks : [[',', ' '], ['('], [')'], [';'], [' ', '\x7b']].all toLexicon.isMark = true
  leads : [['('], ['i', 'f', ' ', '(']].all toLexicon.isLead = true
  texts : ["", "\x7d", "\x7d else", "\x7d else if ("].all (fun s => toLexicon.isPlain [] s.toList) = true
  library : ∀ start ∈ space.library, ∀ c ∈ start.toList, continuesName c = true
  knows_of_special (D : ν → Prop) {w : List Char} : special w = false → Knows D w
  knows_number (D : ν → Prop) (n : Nat) : Knows D (toString n).toList
  knows_text (D : ν → Prop) {f : Form} : IsWord f.stem → Knows D (f.text space).toList

variable {ν : Type} {L : Dialect ν} {D : ν → Prop} {s t : String} {cs ds : List Char}

/-- Text on one line in which only what is given is named. -/
structure Says (L : Dialect ν) (D : ν → Prop) (s : String) : Prop where
  line : OneLine s
  closed : L.closed s.toList = true
  words : ∀ w ∈ L.words s.toList, L.Knows D w

/-- Such text that can start a line. -/
structure Part (L : Dialect ν) (D : ν → Prop) (s : String) : Prop extends Says L D s where
  starts : startsCode s = true

/-- Such text that a word may follow. -/
structure Leads (L : Dialect ν) (D : ν → Prop) (s : String) : Prop extends Part L D s where
  apart : s.toList.getLast?.all L.apart = true

section Plain

theorem says_of_isPlain {names : List (List Char)} (h : L.isPlain names cs = true) (hD : ∀ w ∈ names, L.Knows D w) :
    Says L D (String.ofList cs) := by
  rw [Lexicon.isPlain, Bool.and_eq_true, Bool.and_eq_true] at h
  obtain ⟨⟨hline, hclosed⟩, hwords⟩ := h
  refine ⟨oneLine_ofList hline, ?_, ?_⟩
  · rw [String.toList_ofList]
    exact hclosed
  · rw [String.toList_ofList]
    intro w hw
    have hword := List.all_eq_true.mp hwords w hw
    rw [Bool.or_eq_true, Bool.not_eq_true'] at hword
    exact hword.elim (L.knows_of_special D) fun hin => hD w (List.contains_iff_mem.mp hin)

theorem says_plain (h : L.isPlain [] cs = true) : Says L D (String.ofList cs) := says_of_isPlain h (List.forall_mem_nil _)

theorem part_naming {w : List Char} (h : L.isPlain [w] cs = true) (hstarts : startsCode (String.ofList cs) = true)
    (hD : L.Knows D w) : Part L D (String.ofList cs) :=
  ⟨says_of_isPlain h (List.forall_mem_singleton.mpr hD), hstarts⟩

theorem part_of_isPart (h : L.isPart cs = true) : Part L D (String.ofList cs) := by
  rw [Lexicon.isPart, Bool.and_eq_true] at h
  refine ⟨says_plain h.1, ?_⟩
  rw [startsCode, String.toList_ofList]
  exact h.2

theorem leads_of_isLead (h : L.isLead cs = true) : Leads L D (String.ofList cs) := by
  rw [Lexicon.isLead, Bool.and_eq_true] at h
  refine ⟨part_of_isPart h.1, ?_⟩
  rw [String.toList_ofList]
  exact h.2

end Plain

section Append

theorem Part.isCode (h : Part L D s) : IsCode s := ⟨h.line, h.starts⟩

theorem Says.append_of_apart (hs : Says L D s) (ht : Says L D t)
    (h : s.toList.getLast?.all L.apart = true ∨ t.toList.head?.all L.apart = true) : Says L D (s ++ t) := by
  obtain ⟨hwords, hclosed⟩ := L.append hs.closed h
  refine ⟨oneLine_append.mpr ⟨hs.line, ht.line⟩, ?_, ?_⟩
  · rw [String.toList_append, hclosed, ht.closed]
  · rw [String.toList_append, hwords]
    exact List.forall_mem_append.mpr ⟨hs.words, ht.words⟩

theorem Part.append_of_apart (hs : Part L D s) (ht : Says L D t)
    (h : s.toList.getLast?.all L.apart = true ∨ t.toList.head?.all L.apart = true) : Part L D (s ++ t) :=
  ⟨hs.toSays.append_of_apart ht h, (hs.isCode.append ht.line).2⟩

theorem Leads.before (hs : Leads L D s) (ht : Says L D t) : Part L D (s ++ t) :=
  hs.toPart.append_of_apart ht (.inl hs.apart)

theorem Leads.append (hs : Leads L D s) (ht : Part L D t) : Part L D (s ++ t) := hs.before ht.toSays

theorem mark_apart (h : L.isMark cs = true) :
    Says L D (String.ofList cs) ∧ (String.ofList cs).toList.head?.all L.apart = true ∧
      (s ++ String.ofList cs).toList.getLast?.all L.apart = true := by
  rw [Lexicon.isMark, Bool.and_eq_true, Bool.and_eq_true, Bool.and_eq_true] at h
  obtain ⟨⟨⟨hplain, hend⟩, hstart⟩, hne⟩ := h
  refine ⟨says_plain hplain, by rw [String.toList_ofList]; exact hstart, ?_⟩
  rw [String.toList_append, String.toList_ofList, List.getLast?_append_of_ne_nil _ (by simpa using hne)]
  exact hend

theorem Says.closeBy (hs : Says L D s) (h : L.isMark cs = true) : Says L D (s ++ String.ofList cs) := by
  obtain ⟨hwords, hstart, -⟩ := mark_apart (D := D) (s := s) h
  exact hs.append_of_apart hwords (.inr hstart)

theorem Part.mark (hs : Part L D s) (h : L.isMark cs = true) : Leads L D (s ++ String.ofList cs) := by
  obtain ⟨hwords, hstart, hend⟩ := mark_apart (D := D) (s := s) h
  exact ⟨hs.append_of_apart hwords (.inr hstart), hend⟩

theorem Part.close (hs : Part L D s) (h : L.isMark cs = true) : Part L D (s ++ String.ofList cs) := (hs.mark h).toPart

theorem Dialect.isMark_of_mem (h : cs ∈ [[',', ' '], ['('], [')'], [';'], [' ', '\x7b']]) : L.isMark cs = true :=
  List.all_eq_true.mp L.marks cs h

theorem Dialect.isLead_of_mem (h : cs ∈ [['('], ['i', 'f', ' ', '(']]) : L.isLead cs = true :=
  List.all_eq_true.mp L.leads cs h

theorem Dialect.says_of_mem (h : s ∈ ["", "\x7d", "\x7d else", "\x7d else if ("]) : Says L D s := by
  have hplain := says_plain (D := D) (List.all_eq_true.mp L.texts s h)
  rwa [String.ofList_toList] at hplain

theorem says_commaSeparated {texts : List String} (h : ∀ t ∈ texts, Part L D t) : Says L D (commaSeparated texts) := by
  induction texts with
  | nil => exact L.says_of_mem (by decide)
  | cons t ts ih =>
    have ht := h t List.mem_cons_self
    have hts := ih fun u hu => h u (List.mem_cons_of_mem _ hu)
    cases ts with
    | nil => exact ht.toSays
    | cons u us =>
      rw [commaSeparated, String.intercalate_cons_cons]
      have hcomma : Leads L D (t ++ ", ") := ht.mark (L.isMark_of_mem (by decide))
      exact (hcomma.before hts).toSays

theorem Part.call {args : List String} (hs : Part L D s) (h : ∀ t ∈ args, Part L D t) : Part L D (callCode s args) := by
  have hopen : Leads L D (s ++ "(") := hs.mark (L.isMark_of_mem (by decide))
  exact (hopen.before (says_commaSeparated h)).close (L.isMark_of_mem (by decide) : L.isMark [')'] = true)

theorem part_around (h : L.isLead cs = true) (hs : Part L D s) (h' : L.isMark ds = true) :
    Part L D (String.ofList cs ++ s ++ String.ofList ds) :=
  ((leads_of_isLead h).append hs).close h'

theorem Part.operand (hs : Part L D s) (level min : Precedence) : Part L D (operandCode level min s) := by
  unfold operandCode
  split
  · exact part_around (L.isLead_of_mem (by decide) : L.isLead ['('] = true) hs
      (L.isMark_of_mem (by decide) : L.isMark [')'] = true)
  · exact hs

end Append

section Leaves

theorem IsWord.part (h : IsWord s) (hD : L.Knows D s.toList) : Part L D s := by
  obtain ⟨hwords, hclosed⟩ := L.name h
  obtain ⟨hline, hstarts⟩ := h.isCode
  refine ⟨⟨hline, hclosed, ?_⟩, hstarts⟩
  rw [hwords]
  exact List.forall_mem_singleton.mpr hD

theorem part_toString (n : Nat) : Part L D (toString n) := (isWord_toString n).part (L.knows_number D n)

theorem part_literal (hs : s.toList = '"' :: (cs ++ ['"'])) (hline : ∀ c ∈ cs, c ≠ '\n' ∧ c ≠ '\r') (h : Escaped cs) :
    Part L D s := by
  obtain ⟨hwords, hclosed⟩ := L.quoted h
  rw [← hs] at hwords hclosed
  refine ⟨⟨?_, hclosed, ?_⟩, ?_⟩
  · rw [OneLine, hs]
    exact List.forall_mem_cons.mpr
      ⟨by decide, List.forall_mem_append.mpr ⟨hline, List.forall_mem_singleton.mpr (by decide)⟩⟩
  · rw [hwords]
    exact List.forall_mem_nil _
  · rw [startsCode, hs]
    rfl

theorem part_stringLiteral (style : ControlEscape) (text : String) : Part L D (stringLiteral style text) := by
  refine part_literal String.toList_ofList (fun c hc => ?_) (escaped_flatMap style _)
  obtain ⟨d, -, hd⟩ := List.mem_flatMap.mp hc
  exact literalChar_ne style d c hd

/-- Text that can stand between quotes as it is. -/
def isQuotable (cs : List Char) : Bool := cs.all fun c => c != '"' && c != '\\' && c != '\n' && c != '\r'

theorem part_quoted {text : String} (h : isQuotable text.toList = true) : Part L D ("\"" ++ text ++ "\"") := by
  have hchars : ∀ c ∈ text.toList, (c ≠ '"' ∧ c ≠ '\\') ∧ c ≠ '\n' ∧ c ≠ '\r' := by
    intro c hc
    have hne := List.all_eq_true.mp h c hc
    simp only [Bool.and_eq_true, bne_iff_ne] at hne
    exact ⟨hne.1.1, hne.1.2, hne.2⟩
  refine part_literal ?_ (fun c hc => (hchars c hc).2) (escaped_of_ne fun c hc => (hchars c hc).1)
  rw [String.toList_append, String.toList_append]
  rfl

theorem isQuotable_between {a name b : String} (ha : isQuotable a.toList = true) (hname : IsWord name)
    (hb : isQuotable b.toList = true) : isQuotable (a ++ name ++ b).toList = true := by
  have hquotable : isQuotable name.toList = true := by
    refine List.all_eq_true.mpr fun c hc => ?_
    simp only [Bool.and_eq_true, bne_iff_ne]
    exact ⟨⟨⟨hname.ne hc (by decide), hname.ne hc (by decide)⟩, hname.ne hc (by decide)⟩, hname.ne hc (by decide)⟩
  rw [isQuotable] at ha hb hquotable ⊢
  rw [String.toList_append, String.toList_append, List.all_append, List.all_append, ha, hb, hquotable]
  rfl

/-- A text that is the spelling of some name. -/
def IsSpelled (ns : Namespace) (s : String) : Prop := ∃ f : Form, IsWord f.stem ∧ s = f.text ns

theorem IsSpelled.isWord (h : IsSpelled L.space s) : IsWord s := by
  obtain ⟨f, hf, rfl⟩ := h
  exact f.isWord_text L.library hf

theorem IsSpelled.part (h : IsSpelled L.space s) : Part L D s := by
  obtain ⟨f, hf, rfl⟩ := h
  exact (f.isWord_text L.library hf).part (L.knows_text D hf)

end Leaves

end Gondola
