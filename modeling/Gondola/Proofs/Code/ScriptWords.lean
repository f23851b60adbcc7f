import Gondola.Proofs.Code.Parts

/-! The words of Python and JavaScript code. An `f` in front of a literal, which JavaScript never has, lets code stand
in braces in it. The text of JavaScript's templates is read as code. -/
namespace Gondola.Script

open Text

/-- Where reading has come to: outside of literals, just behind an `f` there, in a literal with or without holes, behind
a backslash in one, or in a hole. -/
inductive Mode where
  | code
  | marked
  | literal (holes : Bool)
  | escape (holes : Bool)
  | hole
  deriving DecidableEq, Repr

namespace Mode

def next (m : Mode) (c : Char) : Mode :=
  match m with
  | code | marked => if c = '"' then literal (m = marked) else if c = 'f' then marked else code
  | literal holes =>
    if c = '"' then code else if c = '\\' then escape holes else if holes ∧ c = '\x7b' then hole else literal holes
  | escape holes => literal holes
  | hole => if c = '\x7d' then literal true else hole

def isOutside : Mode → Bool
  | code | marked => true
  | _ => false

end Mode

/-- Names are those of the program and those of helpers, some of which have a dollar sign. -/
def reader : Reader Mode where
  start := .code
  next := Mode.next
  isCode m := m.isOutside || m = .hole
  inWord c := continuesName c || c == '$'
  inWord_space := by decide

section Reading

variable {m : Mode} {cs ds : List Char}

theorem isCode_of_isOutside (m : Mode) (hm : m.isOutside = true) : reader.isCode m = true :=
  Bool.or_eq_true_iff.mpr (.inl hm)

theorem isOutside_next (hm : m.isOutside = true) {c : Char} (hc : c ≠ '"') : (m.next c).isOutside = true := by
  have hnext : m.next c = if c = 'f' then .marked else .code := by
    cases m with
    | code | marked => exact if_neg hc
    | literal | escape | hole => cases hm
  rw [hnext]
  split
  · rfl
  · rfl

/-- Behind a mark and before a character that opens no literal nothing is different. -/
theorem read_outside (hm : m.isOutside = true) (h : ∀ d ∈ ds.head?, d ≠ '"') :
    reader.blanked m ds = reader.blanked .code ds ∧
      (reader.after m ds).isOutside = (reader.after .code ds).isOutside := by
  cases ds with
  | nil => exact ⟨rfl, hm⟩
  | cons d ds =>
    have hd := h d rfl
    have hnext : m.next d = Mode.code.next d := by
      cases m with
      | code => rfl
      | marked => exact (if_neg hd).trans (if_neg hd).symm
      | literal | escape | hole => cases hm
    constructor
    · have hcons (m : Mode) : reader.blanked m (d :: ds) =
          (if reader.isCode m && reader.isCode (m.next d) then d else ' ') :: reader.blanked (m.next d) ds := rfl
      rw [hcons, hcons, hnext, isCode_of_isOutside m hm]
      rfl
    · have hcons (m : Mode) : reader.after m (d :: ds) = reader.after (m.next d) ds := rfl
      rw [hcons, hcons, hnext]

def isApart (c : Char) : Bool := !reader.inWord c && c != '"'

theorem next_ne_marked (m : Mode) {c : Char} (hc : c ≠ 'f') : m.next c ≠ .marked := by
  cases m with
  | code | marked =>
    rw [Mode.next, if_neg hc]
    split <;> nofun
  | escape => nofun
  | literal | hole =>
    rw [Mode.next]
    split_ifs <;> nofun

theorem after_eq_code (hclosed : (reader.after .code cs).isOutside = true) (h : cs.getLast?.all isApart = true) :
    reader.after .code cs = .code := by
  have hne : reader.after .code cs ≠ .marked := by
    rcases List.eq_nil_or_concat' cs with rfl | ⟨cs, c, rfl⟩
    · nofun
    · have hc : isApart c = true := by simpa using h
      rw [Reader.after_append]
      exact next_ne_marked _ (by rintro rfl; exact absurd hc (by decide))
  cases hm : reader.after .code cs with
  | code => rfl
  | marked => exact absurd hm hne
  | literal | escape | hole =>
    rw [hm] at hclosed
    cases hclosed

theorem read_append (hclosed : (reader.after .code cs).isOutside = true)
    (h : cs.getLast?.all isApart = true ∨ ds.head?.all isApart = true) :
    reader.words (cs ++ ds) = reader.words cs ++ reader.words ds ∧
      (reader.after .code (cs ++ ds)).isOutside = (reader.after .code ds).isOutside := by
  have hapart {c : Char} (hc : isApart c = true) : (!reader.inWord c) = true ∧ c ≠ '"' := by
    rwa [isApart, Bool.and_eq_true, bne_iff_ne] at hc
  have hds : reader.blanked (reader.after .code cs) ds = reader.blanked .code ds ∧
      (reader.after (reader.after .code cs) ds).isOutside = (reader.after .code ds).isOutside := by
    rcases h with h | h
    · rw [after_eq_code hclosed h]
      exact ⟨rfl, rfl⟩
    · exact read_outside hclosed fun d hd => (hapart (by rwa [Option.mem_def.mp hd] at h)).2
  rw [Reader.after_append]
  refine ⟨Reader.words_append hds.1 (h.imp ?_ ?_), hds.2⟩
  all_goals
    intro hall
    rw [Option.all_eq_true] at hall ⊢
    exact fun c hc => (hapart (hall c hc)).1

theorem read_name (hne : cs ≠ []) (h : ∀ c ∈ cs, reader.inWord c = true) :
    reader.words cs = [cs] ∧ (reader.after .code cs).isOutside = true := by
  have hquote : ∀ c ∈ cs, c ≠ '"' := by
    rintro c hc rfl
    exact absurd (h _ hc) (by decide)
  obtain ⟨hblanked, hafter⟩ := reader.read_code (P := (Mode.isOutside · = true)) (m := .code) isCode_of_isOutside
    (fun _ hm c hc => isOutside_next hm (hquote c hc)) rfl
  have hwords : reader.words cs = reader.pieces (reader.blanked .code cs) := rfl
  rw [hwords, hblanked]
  exact ⟨Reader.pieces_eq_singleton hne h, hafter⟩

theorem quotes_literal : reader.Quotes (.literal false) where
  opens := rfl
  isCode := rfl
  stays _ hquote hslash := (if_neg hquote).trans ((if_neg hslash).trans (if_neg (by simp)))
  returns _ := rfl
  hidden := rfl

end Reading

/-- Whether a word starts like the names of helpers. -/
def isSpecial (w : List Char) : Bool := ['v', 'e', 'n', 'i', 'c', 'e', '_'].isPrefixOf w || (w.head? == some '$' && w != ['$'])

theorem isSpecial_toString (n : Nat) : isSpecial (toString n).toList = false := by
  have hdigits : ∀ c ∈ ['0', '1', '2', '3', '4', '5', '6', '7', '8', '9'], c ≠ 'v' ∧ c ≠ '$' :=
    forall_mem_of_all (by decide)
  rw [toList_toString]
  cases hw : Nat.toDigits 10 n with
  | nil => exact absurd hw Nat.toDigits_ne_nil
  | cons c cs =>
    have hc := Nat.isDigit_of_mem_toDigits (by decide) (by decide) (hw ▸ List.mem_cons_self : c ∈ Nat.toDigits 10 n)
    obtain ⟨hv, hdollar⟩ := hdigits c (mem_digits_of_isDigit hc)
    simp [isSpecial, List.isPrefixOf, hv.symm, hdollar]

/-- A language that is read like this, with helpers of the given names. -/
def dialect {ν : Type} (space : Namespace) (hlibrary : space.library = none) (nameOf : ν → String)
    (hspecial : ∀ h, isSpecial (nameOf h).toList = true)
    (htext : ∀ (f : Form) h, IsWord f.stem → f.text space ≠ nameOf h) : Dialect ν where
  words := reader.words
  closed cs := (reader.after .code cs).isOutside
  apart := isApart
  special := isSpecial
  space := space
  Knows D w := ∀ h, w = (nameOf h).toList → D h
  append := read_append
  name h := read_name h.1 fun c hc => Bool.or_eq_true_iff.mpr (.inl (h.2 c hc))
  quoted h := by
    obtain ⟨hwords, hafter⟩ := quotes_literal.words h
    exact ⟨hwords, congrArg Mode.isOutside hafter⟩
  marks := by decide
  leads := by decide
  texts := by decide
  library := by
    rw [hlibrary]
    nofun
  knows_of_special D w hw h heq := by
    rw [heq, hspecial] at hw
    cases hw
  knows_number D n h heq := by
    have hn := isSpecial_toString n
    rw [heq, hspecial] at hn
    cases hn
  knows_text D f hf h heq := absurd (String.toList_inj.mp heq) (htext f h hf)

/-- Text of a literal with holes, in which only known words are code. -/
structure Formatted (K : List Char → Prop) (s : String) : Prop where
  line : OneLine s
  after : reader.after (.literal true) s.toList = .literal true
  words : ∀ w ∈ reader.pieces (reader.blanked (.literal true) s.toList), K w

section Formatted

variable {K : List Char → Prop} {s t : String} {cs : List Char}

theorem Formatted.append (h : Formatted K s) (h' : Formatted K t) : Formatted K (s ++ t) := by
  refine ⟨oneLine_append.mpr ⟨h.line, h'.line⟩, ?_, ?_⟩
  · rw [String.toList_append, Reader.after_append, h.after, h'.after]
  · rw [String.toList_append, Reader.pieces_append_hidden rfl h.after]
    exact List.forall_mem_append.mpr ⟨h.words, h'.words⟩

def isText (cs : List Char) : Bool :=
  cs.all fun c => c != '"' && c != '\\' && c != '\x7b' && c != '\n' && c != '\r'

theorem formatted_text (h : isText s.toList = true) : Formatted K s := by
  have hread : ∀ cs, isText cs = true → reader.after (.literal true) cs = .literal true ∧
      reader.pieces (reader.blanked (.literal true) cs) = [] := by
    intro cs h
    induction cs with
    | nil => exact ⟨rfl, rfl⟩
    | cons c cs ih =>
      rw [isText, List.all_cons, Bool.and_eq_true] at h
      obtain ⟨hafter, hpieces⟩ := ih h.2
      have hnext : (Mode.literal true).next c = .literal true := by
        simp only [Bool.and_eq_true, bne_iff_ne] at h
        simp [Mode.next, h.1]
      have hblanked : reader.blanked (.literal true) (c :: cs) =
          ' ' :: reader.blanked ((Mode.literal true).next c) cs := rfl
      rw [hblanked, hnext, Reader.pieces_cons reader.inWord_space]
      exact ⟨(congrArg (reader.after · cs) hnext).trans hafter, hpieces⟩
  obtain ⟨hafter, hpieces⟩ := hread s.toList h
  refine ⟨fun c hc => ?_, hafter, by rw [hpieces]; exact List.forall_mem_nil _⟩
  have hne := List.all_eq_true.mp h c hc
  simp only [Bool.and_eq_true, bne_iff_ne] at hne
  exact ⟨hne.1.2, hne.2⟩

theorem formatted_word (h : IsWord s) : Formatted K s := by
  refine formatted_text (List.all_eq_true.mpr fun c hc => ?_)
  simp only [Bool.and_eq_true, bne_iff_ne]
  exact ⟨⟨⟨⟨h.ne hc (by decide), h.ne hc (by decide)⟩, h.ne hc (by decide)⟩, h.ne hc (by decide)⟩, h.ne hc (by decide)⟩

theorem formatted_braced (hs : OneLine s) (h : ∀ c ∈ s.toList, c ≠ '"' ∧ c ≠ '\x7d')
    (hw : ∀ w ∈ reader.words s.toList, K w) : Formatted K (braced s) := by
  obtain ⟨hcode, -⟩ := reader.read_code (P := (Mode.isOutside · = true)) (m := .code) isCode_of_isOutside
    (fun _ hm c hc => isOutside_next hm (h c hc).1) rfl
  obtain ⟨hhole, hafter⟩ := reader.read_code (P := (· = .hole)) (m := .hole)
    (fun _ hm => hm ▸ rfl) (fun _ hm c hc => (congrArg (Mode.next · c) hm).trans (if_neg (h c hc).2)) rfl
  have htext : (braced s).toList = '\x7b' :: (s.toList ++ ['\x7d']) := by
    rw [braced, String.toList_append, String.toList_append]
    rfl
  have hwords : reader.words s.toList = reader.pieces s.toList := congrArg reader.pieces hcode
  refine ⟨oneLine_append.mpr ⟨oneLine_append.mpr ⟨by decide, hs⟩, by decide⟩, ?_, ?_⟩
  · have hopen : reader.after (.literal true) ('\x7b' :: (s.toList ++ ['\x7d'])) =
        reader.after .hole (s.toList ++ ['\x7d']) := rfl
    rw [htext, hopen, Reader.after_append, hafter]
    rfl
  · have hopen : reader.blanked (.literal true) ('\x7b' :: (s.toList ++ ['\x7d'])) =
        ' ' :: reader.blanked .hole (s.toList ++ ['\x7d']) := rfl
    have hclose : reader.blanked .hole ['\x7d'] = [' '] := rfl
    rw [htext, hopen, Reader.pieces_cons reader.inWord_space, Reader.blanked_append, hhole, hafter, hclose,
      Reader.pieces_append_cons reader.inWord_space, ← hwords]
    exact List.forall_mem_append.mpr ⟨hw, List.forall_mem_nil _⟩

theorem formatted_commaSeparated {texts : List String} (h : ∀ t ∈ texts, Formatted K t) :
    Formatted K (commaSeparated texts) := by
  induction texts with
  | nil => exact formatted_text (by decide)
  | cons t ts ih =>
    have ht := h t List.mem_cons_self
    cases ts with
    | nil => exact ht
    | cons u us =>
      rw [commaSeparated, String.intercalate_cons_cons]
      exact (ht.append (formatted_text (by decide))).append (ih fun u hu => h u (List.mem_cons_of_mem _ hu))

end Formatted

end Gondola.Script
