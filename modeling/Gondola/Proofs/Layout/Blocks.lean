import Gondola.Proofs.Code.Parts
import Gondola.Proofs.Layout
import Mathlib.Data.List.Chain

/-! The blocks of a text that was laid out. In a text with braces the indentation of a line tells how many blocks are
open, and in one with suites it grows behind the head of a suite and nowhere else. -/
namespace Gondola

open Text

section Characters

def indentation (cs : List Char) : Nat := (cs.takeWhile (· == ' ')).length

def lineStarts (c : Char) (cs : List Char) : Bool := (cs.dropWhile (· == ' ')).head? == some c

def lineEnds (c : Char) (cs : List Char) : Bool := cs.getLast? == some c

/-- The indentation of a line is the number of blocks that are open at it, in units, and none is open in the end. -/
structure Braced (unit : Nat) (ls : List (List Char)) : Prop where
  indented : ∀ before l after, ls = before ++ l :: after → l ≠ [] →
    indentation l + unit * (before ++ [l]).countP (lineStarts '\x7d') =
      unit * before.countP (lineEnds '\x7b')
  balanced : ls.countP (lineEnds '\x7b') = ls.countP (lineStarts '\x7d')

/-- Blank lines apart, the first line is not indented, the head of a suite is followed by a line one unit deeper, and
no other line is followed by a deeper one. -/
structure Suited (unit : Nat) (ls : List (List Char)) : Prop where
  first : ∀ l after, ls.filter (· ≠ []) = l :: after → indentation l = 0
  suite : ∀ before l after, ls.filter (· ≠ []) = before ++ l :: after → lineEnds ':' l = true →
    ∃ m rest, after = m :: rest ∧ indentation m = indentation l + unit
  deeper : ∀ before l m after, ls.filter (· ≠ []) = before ++ l :: m :: after →
    indentation l < indentation m → lineEnds ':' l = true

end Characters

namespace Line

def opens (l : Line) : Bool := endsIn '\x7b' l.text

def closes (l : Line) : Bool := l.text.toList.head? == some '\x7d'

def heads (l : Line) : Bool := endsIn ':' l.text

variable {l : Line}

theorem chars_eq_nil_iff (unit : Nat) : l.chars unit = [] ↔ l.text = "" := by
  unfold chars
  split
  · simp [*]
  · simp [*]

theorem Tidy.head_ne_space (h : l.Tidy) : l.text.toList.head? ≠ some ' ' := by
  intro hs
  have hblank := h.flush ' ' hs
  rw [isBlank_space] at hblank
  cases hblank

theorem Tidy.split_chars (h : l.Tidy) (hne : l.text ≠ "") (unit : Nat) :
    ∃ c cs, l.text.toList = c :: cs ∧ (c == ' ') = false ∧
      l.chars unit = List.replicate (unit * l.depth) ' ' ++ c :: cs := by
  have hspace := h.head_ne_space
  cases hl : l.text.toList with
  | nil => exact absurd (String.toList_eq_nil_iff.mp hl) hne
  | cons c cs =>
    refine ⟨c, cs, rfl, ?_, by rw [chars, if_neg hne, hl]⟩
    rw [hl] at hspace
    simpa using hspace

theorem all_space (n : Nat) : ∀ c ∈ List.replicate n ' ', (c == ' ') = true := by
  intro c hc
  rw [List.eq_of_mem_replicate hc]
  rfl

theorem Tidy.indentation_chars (h : l.Tidy) (hne : l.text ≠ "") (unit : Nat) :
    indentation (l.chars unit) = unit * l.depth := by
  obtain ⟨c, cs, -, hc, hchars⟩ := h.split_chars hne unit
  rw [indentation, hchars, List.takeWhile_append_of_pos (all_space _), List.takeWhile_cons_of_neg (by simp [hc]),
    List.append_nil, List.length_replicate]

theorem Tidy.lineStarts_chars (h : l.Tidy) (c : Char) (unit : Nat) :
    lineStarts c (l.chars unit) = (l.text.toList.head? == some c) := by
  by_cases hne : l.text = ""
  · rw [chars, if_pos hne, hne]
    rfl
  · obtain ⟨d, ds, hl, hd, hchars⟩ := h.split_chars hne unit
    rw [lineStarts, hchars, List.dropWhile_append_of_pos (all_space _), List.dropWhile_cons_of_neg (by simp [hd]), hl]

theorem lineEnds_chars (l : Line) (c : Char) (unit : Nat) : lineEnds c (l.chars unit) = endsIn c l.text := by
  by_cases hne : l.text = ""
  · rw [chars, if_pos hne, hne]
    rfl
  · have hnil : l.text.toList ≠ [] := fun h => hne (String.toList_eq_nil_iff.mp h)
    rw [lineEnds, chars, if_neg hne, List.getLast?_append_of_ne_nil _ hnil, endsIn]

theorem tidy_of_isCode {code : String} (h : IsCode code) (depth : Nat) : Tidy ⟨depth, code⟩ := by
  refine ⟨h.1, ?_⟩
  have hstart := h.2
  intro c hc
  rw [startsCode, Option.mem_def.mp hc] at hstart
  simp only [Option.any_some, Bool.and_eq_true, Bool.not_eq_true'] at hstart
  exact hstart.1.1

theorem closes_of_isCode {code : String} (h : IsCode code) (depth : Nat) : closes ⟨depth, code⟩ = false := by
  have hstart := h.2
  rw [startsCode] at hstart
  rw [closes, beq_eq_false_iff_ne]
  intro hc
  rw [hc] at hstart
  exact absurd hstart (by decide)

theorem tidy_blank : Tidy (.at0 "") := ⟨by decide, nofun⟩

theorem Tidy.deepen (h : l.Tidy) : l.deepen.Tidy := ⟨h.oneLine, h.flush⟩

theorem opens_blank (h : l.text = "") : l.opens = false := by
  rw [opens, h]
  rfl

theorem closes_blank (h : l.text = "") : l.closes = false := by
  rw [closes, h]
  rfl

end Line

section Braces

/-- The level behind a line that is reached at the given one. The line has to stand at the level that is left when it
has closed a block. -/
def Line.levelAfter? (level : Nat) (l : Line) : Option Nat :=
  if l.text = "" then some level
  else if l.depth + l.closes.toNat = level then some (l.depth + l.opens.toNat)
  else none

/-- The level behind some lines, if each of them stands at the level where it is reached. -/
def levelAfter? (level : Nat) (ls : List Line) : Option Nat := ls.foldlM Line.levelAfter? level

/-- Tidy lines of some kind that lead from the one level to the other. -/
structure Laid (S : String → Prop) (a b : Nat) (ls : List Line) : Prop where
  lines : ∀ l ∈ ls, l.Tidy ∧ S l.text
  level : levelAfter? a ls = some b

variable {S : String → Prop} {a b c : Nat} {l : Line} {ls ms : List Line} {code head : String}

theorem Laid.tidy (h : Laid S a b ls) : ∀ l ∈ ls, l.Tidy := fun l hl => (h.lines l hl).1

theorem Line.levelAfter?_eq_some (h : l.levelAfter? a = some b) :
    l.text = "" ∧ b = a ∨ l.text ≠ "" ∧ l.depth + l.closes.toNat = a ∧ b = l.depth + l.opens.toNat := by
  unfold Line.levelAfter? at h
  split_ifs at h with hblank hdepth
  · exact .inl ⟨hblank, (Option.some.inj h).symm⟩
  · exact .inr ⟨hblank, hdepth, (Option.some.inj h).symm⟩

theorem laid_nil : Laid S a a [] := ⟨List.forall_mem_nil _, rfl⟩

theorem Laid.append (h : Laid S a b ls) (h' : Laid S b c ms) : Laid S a c (ls ++ ms) := by
  refine ⟨List.forall_mem_append.mpr ⟨h.lines, h'.lines⟩, ?_⟩
  rw [levelAfter?, List.foldlM_append, ← levelAfter?, h.level]
  exact h'.level

theorem laid_line (h : l.Tidy) (hne : l.text ≠ "") (hs : S l.text) :
    Laid S (l.depth + l.closes.toNat) (l.depth + l.opens.toNat) [l] := by
  refine ⟨List.forall_mem_singleton.mpr ⟨h, hs⟩, ?_⟩
  simp [levelAfter?, Line.levelAfter?, hne]

theorem laid_blank (hs : S "") : Laid S a a [.at0 ""] := ⟨List.forall_mem_singleton.mpr ⟨Line.tidy_blank, hs⟩, rfl⟩

theorem levelAfter?_indented (h : levelAfter? a ls = some b) : levelAfter? (a + 1) (indented ls) = some (b + 1) := by
  induction ls generalizing a with
  | nil =>
    obtain rfl := Option.some.inj h
    rfl
  | cons l ls ih =>
    rw [levelAfter?, List.foldlM_cons] at h
    obtain ⟨m, hm, hrest⟩ := Option.bind_eq_some_iff.mp h
    have hdeep : l.deepen.levelAfter? (a + 1) = some (m + 1) := by
      rcases Line.levelAfter?_eq_some hm with ⟨hblank, rfl⟩ | ⟨hne, hdepth, rfl⟩
      · exact if_pos hblank
      · have hdepth' : l.deepen.depth + l.deepen.closes.toNat = a + 1 := by
          rw [← hdepth, Nat.add_right_comm]
          rfl
        have hne' : l.deepen.text ≠ "" := hne
        rw [Line.levelAfter?, if_neg hne', if_pos hdepth', Nat.add_right_comm]
        rfl
    rw [levelAfter?, indented, List.map_cons, List.foldlM_cons, hdeep]
    exact ih hrest

theorem Laid.indented (h : Laid S a b ls) : Laid S (a + 1) (b + 1) (indented ls) :=
  ⟨List.forall_mem_map.mpr fun l hl => ⟨(h.tidy l hl).deepen, (h.lines l hl).2⟩, levelAfter?_indented h.level⟩

theorem laid_code (h : IsStatement code) (hs : S code) : Laid S 0 0 [.at0 code] := by
  have hline := laid_line (Line.tidy_of_isCode h.1 0) h.1.ne_empty hs
  rw [Line.closes_of_isCode h.1, Line.opens, h.2] at hline
  exact hline

theorem laid_map {α : Type} {xs : List α} {f : α → Line} (h : ∀ x ∈ xs, Laid S a a [f x]) :
    Laid S a a (xs.map f) := by
  induction xs with
  | nil => exact laid_nil
  | cons x xs ih =>
    exact (h x List.mem_cons_self).append (ih fun y hy => h y (List.mem_cons_of_mem _ hy))

theorem opens_openLine (head : String) : (openLine head).opens = true := by
  rw [Line.opens, openLine, Line.at0, endsIn_append _ (by decide)]
  decide

theorem laid_between (h : OneLine code) (hs : S ("\x7d else" ++ code ++ " \x7b")) :
    Laid S 1 1 [openLine ("\x7d else" ++ code)] := by
  have hhead : ("\x7d else" ++ code ++ " \x7b").toList.head? = some '\x7d' := by
    rw [String.toList_append, String.toList_append]
    rfl
  have htidy : (openLine ("\x7d else" ++ code)).Tidy := by
    refine ⟨oneLine_append.mpr ⟨oneLine_append.mpr ⟨by decide, h⟩, by decide⟩, ?_⟩
    intro c hc
    rw [openLine, Line.at0, hhead] at hc
    obtain rfl := Option.some.inj hc
    decide
  have hcloses : (openLine ("\x7d else" ++ code)).closes = true := by
    rw [Line.closes, openLine, Line.at0, hhead]
    rfl
  have hne : (openLine ("\x7d else" ++ code)).text ≠ "" := by
    intro hempty
    have hnil := congrArg (fun s => s.toList.head?) hempty
    exact absurd (hhead.symm.trans hnil) (by decide)
  have hline := laid_line htidy hne hs
  rw [hcloses, opens_openLine] at hline
  exact hline

/-- The level where a link of a chain of conditions is reached: only the first one finds no block open. -/
def chainLevel (first : Bool) : Nat := if first then 0 else 1

section Parts

variable {ν : Type} {L : Dialect ν} {D : ν → Prop} {cs : List Char}

theorem endsIn_mark (h : L.isMark cs = true) (s : String) (c : Char) :
    endsIn c (s ++ String.ofList cs) = (cs.getLast? == some c) := by
  rw [Lexicon.isMark, Bool.and_eq_true] at h
  rw [endsIn, String.toList_append, String.toList_ofList, List.getLast?_append_of_ne_nil _ (by simpa using h.2)]

theorem Part.statementBy (h : Part L D code) (hm : L.isMark cs = true) (hend : (cs.getLast? == some '\x7b') = false) :
    IsStatement (code ++ String.ofList cs) ∧ Says L D (code ++ String.ofList cs) :=
  have hpart := h.close hm
  ⟨⟨hpart.isCode, (endsIn_mark hm code _).trans hend⟩, hpart.toSays⟩

theorem Part.statement (h : Part L D code) : IsStatement (code ++ ";") ∧ Says L D (code ++ ";") :=
  h.statementBy (L.isMark_of_mem (by decide)) (by decide)

theorem Part.laid (h : Part L D code) (hm : L.isMark cs = true) (hend : (cs.getLast? == some '\x7b') = false) :
    Laid (Says L D) 0 0 [.at0 (code ++ String.ofList cs)] :=
  laid_code (h.statementBy hm hend).1 (h.statementBy hm hend).2

theorem laid_statement (h : Part L D code) : Laid (Says L D) 0 0 [.at0 (code ++ ";")] :=
  h.laid (L.isMark_of_mem (by decide)) (by decide)

theorem laid_openLine (h : Part L D head) : Laid (Says L D) 0 1 [openLine head] := by
  have hpart : Part L D (head ++ " \x7b") := h.close (L.isMark_of_mem (by decide))
  have hline := laid_line (Line.tidy_of_isCode hpart.isCode 0) hpart.isCode.ne_empty hpart.toSays
  rw [Line.closes_of_isCode hpart.isCode] at hline
  have hopens : Line.opens ⟨0, head ++ " \x7b"⟩ = true := opens_openLine head
  rw [hopens] at hline
  exact hline

theorem laid_closeLine : Laid (Says L D) 1 0 [closeLine] := by
  have htidy : closeLine.Tidy := by
    refine ⟨by decide, ?_⟩
    rintro c ⟨⟩
    decide
  exact laid_line htidy (by decide) (L.says_of_mem (by decide))

theorem laid_else : Laid (Says L D) 1 1 [openLine "\x7d else"] := by
  have helse : Says L D ("\x7d else" ++ "" ++ " \x7b") := by
    rw [String.append_empty]
    exact (L.says_of_mem (by decide)).closeBy (L.isMark_of_mem (by decide))
  have hbetween := laid_between (by decide) helse
  rwa [String.append_empty] at hbetween

theorem laid_chainHead (first : Bool) (h : Part L D code) :
    Laid (Says L D) (chainLevel first) 1 [openLine (chainHead first code)] := by
  cases first with
  | true => exact laid_openLine (part_around (L.isLead_of_mem (by decide)) h (L.isMark_of_mem (by decide)))
  | false =>
    have hapart : L.apart '(' = true :=
      (leads_of_isLead (D := D) (L.isLead_of_mem (by decide) : L.isLead ['('] = true)).apart
    have hif : Says L D "\x7d else if (" := L.says_of_mem (by decide)
    have hsays : Says L D (chainHead false code ++ " \x7b") :=
      ((hif.append_of_apart h.toSays (.inl hapart)).closeBy (L.isMark_of_mem (by decide))).closeBy
        (L.isMark_of_mem (by decide))
    have htext : chainHead false code = "\x7d else" ++ (" if (" ++ code ++ ")") := by
      rw [← String.append_assoc, ← String.append_assoc]
      rfl
    rw [htext] at hsays ⊢
    exact laid_between (oneLine_append.mpr ⟨oneLine_append.mpr ⟨by decide, h.line⟩, by decide⟩) hsays

theorem Laid.block (hhead : Part L D head) (h : Laid (Says L D) 0 0 ls) : Laid (Says L D) 0 0 (blockLines head ls) :=
  (laid_openLine hhead).append (h.indented.append laid_closeLine)

end Parts

/-- What was opened and is not closed is what the level has grown by. -/
theorem level_add_closes (h : levelAfter? a ls = some b) :
    b + ls.countP Line.closes = a + ls.countP Line.opens := by
  induction ls generalizing a with
  | nil =>
    obtain rfl := Option.some.inj h
    rfl
  | cons l ls ih =>
    rw [levelAfter?, List.foldlM_cons] at h
    obtain ⟨m, hm, hrest⟩ := Option.bind_eq_some_iff.mp h
    have hls := ih hrest
    rw [List.countP_cons, List.countP_cons]
    rcases Line.levelAfter?_eq_some hm with ⟨hblank, rfl⟩ | ⟨-, hdepth, rfl⟩
    · -- A blank line is in neither of the counts.
      rw [Line.opens_blank hblank, Line.closes_blank hblank]
      simpa using hls
    · cases hc : l.closes <;> cases ho : l.opens <;>
        simp only [hc, ho, Bool.toNat_false, Bool.toNat_true, Bool.false_eq_true, if_false, if_true] at hdepth hls ⊢ <;>
        omega

theorem depth_add_closes {before after : List Line} (h : levelAfter? a (before ++ l :: after) = some b)
    (hne : l.text ≠ "") : l.depth + (before ++ [l]).countP Line.closes = a + before.countP Line.opens := by
  rw [levelAfter?, List.foldlM_append] at h
  obtain ⟨m, hm, hrest⟩ := Option.bind_eq_some_iff.mp h
  have hbefore := level_add_closes hm
  rw [List.foldlM_cons] at hrest
  obtain ⟨n, hn, -⟩ := Option.bind_eq_some_iff.mp hrest
  rcases Line.levelAfter?_eq_some hn with ⟨hblank, -⟩ | ⟨-, hdepth, -⟩
  · exact absurd hblank hne
  · rw [List.countP_append, List.countP_singleton]
    cases hc : l.closes <;>
      simp only [hc, Bool.toNat_false, Bool.toNat_true, Bool.false_eq_true, if_false, if_true] at hdepth ⊢ <;>
      omega

theorem countP_lineEnds_chars (unit : Nat) (ls : List Line) :
    (ls.map (Line.chars unit)).countP (lineEnds '\x7b') = ls.countP Line.opens := by
  rw [List.countP_map]
  exact List.countP_congr fun l _ => by rw [Function.comp_apply, Line.lineEnds_chars, Line.opens]

theorem countP_lineStarts_chars (unit : Nat) (h : ∀ l ∈ ls, l.Tidy) :
    (ls.map (Line.chars unit)).countP (lineStarts '\x7d') = ls.countP Line.closes := by
  rw [List.countP_map]
  exact List.countP_congr fun l hl => by rw [Function.comp_apply, (h l hl).lineStarts_chars, Line.closes]

theorem Laid.braced (h : Laid S 0 0 ls) (unit : Nat) : Braced unit (ls.map (Line.chars unit)) := by
  constructor
  · intro before cs after hsplit hne
    obtain ⟨bs, rest, rfl, rfl, hrest⟩ := List.map_eq_append_iff.mp hsplit
    obtain ⟨l, as, rfl, rfl, rfl⟩ := List.map_eq_cons_iff.mp hrest
    have htext : l.text ≠ "" := fun hempty => hne ((Line.chars_eq_nil_iff unit).mpr hempty)
    have htidy : ∀ m ∈ bs ++ [l], m.Tidy := by
      intro m hm
      apply h.tidy
      simp only [List.mem_append, List.mem_cons] at hm ⊢
      tauto
    have hline := htidy l (List.mem_append_right _ (List.mem_singleton_self l))
    have hcloses := countP_lineStarts_chars unit htidy
    rw [List.map_append, List.map_singleton] at hcloses
    calc indentation (l.chars unit) +
          unit * (bs.map (Line.chars unit) ++ [l.chars unit]).countP (lineStarts '\x7d')
        = unit * (l.depth + (bs ++ [l]).countP Line.closes) := by
          rw [hline.indentation_chars htext, hcloses, Nat.mul_add]
      _ = unit * bs.countP Line.opens := by rw [depth_add_closes h.level htext, Nat.zero_add]
      _ = unit * (bs.map (Line.chars unit)).countP (lineEnds '\x7b') := by rw [countP_lineEnds_chars]
  · have hlevel := level_add_closes h.level
    rw [countP_lineEnds_chars, countP_lineStarts_chars unit h.tidy]
    omega

end Braces

section Suites

def written (ls : List Line) : List Line := ls.filter fun l => l.text ≠ ""

/-- How deep a line may be that follows another one. -/
def Line.Precedes (l m : Line) : Prop := if l.heads then m.depth = l.depth + 1 else m.depth ≤ l.depth

/-- Tidy lines of some kind, none less deep than `d`, which the first one is, that may follow each other. The last one is the head
of nothing. -/
structure Stacked (S : String → Prop) (d : Nat) (ls : List Line) : Prop where
  lines : ∀ l ∈ ls, l.Tidy ∧ S l.text
  chain : (written ls).IsChain Line.Precedes
  first : ∀ l ∈ (written ls).head?, l.depth = d
  least : ∀ l ∈ written ls, d ≤ l.depth
  last : ∀ l ∈ (written ls).getLast?, l.heads = false

/-- Lines that can stand behind a head, since they are not all blank. -/
def Suite (S : String → Prop) (d : Nat) (ls : List Line) : Prop := Stacked S d ls ∧ written ls ≠ []

variable {S : String → Prop} {d : Nat} {ls ms : List Line} {code head : String}

theorem written_append (ls ms : List Line) : written (ls ++ ms) = written ls ++ written ms :=
  List.filter_append ..

theorem stacked_nil : Stacked S d [] := ⟨nofun, .nil, nofun, nofun, nofun⟩

theorem Stacked.tidy (h : Stacked S d ls) : ∀ l ∈ ls, l.Tidy := fun l hl => (h.lines l hl).1

theorem Stacked.append (h : Stacked S d ls) (h' : Stacked S d ms) : Stacked S d (ls ++ ms) where
  lines := List.forall_mem_append.mpr ⟨h.lines, h'.lines⟩
  chain := by
    rw [written_append]
    refine List.isChain_append.mpr ⟨h.chain, h'.chain, ?_⟩
    intro l hl m hm
    -- The last of the one lines is no head, and no deeper line follows it.
    rw [Line.Precedes, h.last l hl, h'.first m hm]
    exact h.least l (List.mem_of_getLast? hl)
  first := by
    intro l hl
    rw [written_append, List.head?_append] at hl
    rcases Option.or_eq_some_iff.mp hl with hl | ⟨-, hl⟩
    · exact h.first l hl
    · exact h'.first l hl
  least := by
    rw [written_append]
    exact List.forall_mem_append.mpr ⟨h.least, h'.least⟩
  last := by
    intro l hl
    rw [written_append, List.getLast?_append] at hl
    rcases Option.or_eq_some_iff.mp hl with hl | ⟨-, hl⟩
    · exact h'.last l hl
    · exact h.last l hl

theorem Suite.append (h : Suite S d ls) (h' : Stacked S d ms) : Suite S d (ls ++ ms) := by
  refine ⟨h.1.append h', ?_⟩
  rw [written_append]
  exact List.append_ne_nil_of_left_ne_nil h.2 _

theorem Stacked.before (h : Stacked S d ls) (h' : Suite S d ms) : Suite S d (ls ++ ms) := by
  refine ⟨h.append h'.1, ?_⟩
  rw [written_append]
  exact List.append_ne_nil_of_right_ne_nil _ h'.2

theorem stacked_blank (hs : S "") : Stacked S d [.at0 ""] :=
  ⟨List.forall_mem_singleton.mpr ⟨Line.tidy_blank, hs⟩, .nil, nofun, nofun, nofun⟩

theorem stacked_map {α : Type} {xs : List α} {f : α → Line} (h : ∀ x ∈ xs, Stacked S d [f x]) :
    Stacked S d (xs.map f) := by
  induction xs with
  | nil => exact stacked_nil
  | cons x xs ih =>
    exact (h x List.mem_cons_self).append (ih fun y hy => h y (List.mem_cons_of_mem _ hy))

theorem written_indented (ls : List Line) : written (indented ls) = indented (written ls) := by
  rw [written, indented, List.filter_map]
  rfl

theorem Stacked.indented (h : Stacked S d ls) : Stacked S (d + 1) (indented ls) where
  lines := List.forall_mem_map.mpr fun l hl => ⟨(h.tidy l hl).deepen, (h.lines l hl).2⟩
  chain := by
    rw [written_indented, Gondola.indented, List.isChain_map]
    refine h.chain.imp fun l m hlm => ?_
    have hheads : l.deepen.heads = l.heads := rfl
    unfold Line.Precedes at hlm ⊢
    rw [hheads]
    split at hlm
    · rename_i hl
      rw [if_pos hl]
      exact congrArg (· + 1) hlm
    · rename_i hl
      rw [if_neg hl]
      exact Nat.succ_le_succ hlm
  first := by
    rw [written_indented, Gondola.indented, List.head?_map]
    intro l hl
    obtain ⟨m, hm, rfl⟩ := Option.map_eq_some_iff.mp hl
    exact congrArg (· + 1) (h.first m hm)
  least := by
    rw [written_indented]
    exact List.forall_mem_map.mpr fun l hl => Nat.succ_le_succ (h.least l hl)
  last := by
    rw [written_indented, Gondola.indented, List.getLast?_map]
    intro l hl
    obtain ⟨m, hm, rfl⟩ := Option.map_eq_some_iff.mp hl
    exact h.last m hm

theorem Suite.indented (h : Suite S d ls) : Suite S (d + 1) (indented ls) := by
  refine ⟨h.1.indented, ?_⟩
  rw [written_indented]
  exact fun hnil => h.2 (List.map_eq_nil_iff.mp hnil)

theorem Suite.under (h : Suite S (d + 1) ls) (hcode : IsCode head) (hend : endsIn ':' head = true) (hs : S head) :
    Suite S d (⟨d, head⟩ :: ls) := by
  have hwritten : written (⟨d, head⟩ :: ls) = ⟨d, head⟩ :: written ls :=
    List.filter_cons_of_pos (by simpa using hcode.ne_empty)
  refine ⟨⟨List.forall_mem_cons.mpr ⟨⟨Line.tidy_of_isCode hcode d, hs⟩, h.1.lines⟩, ?_, ?_, ?_, ?_⟩, ?_⟩ <;> rw [hwritten]
  · refine List.isChain_cons.mpr ⟨?_, h.1.chain⟩
    intro m hm
    have hheads : Line.heads ⟨d, head⟩ = true := hend
    rw [Line.Precedes, if_pos hheads]
    exact h.1.first m hm
  · rintro l ⟨⟩
    rfl
  · exact List.forall_mem_cons.mpr ⟨Nat.le_refl d, fun l hl => Nat.le_of_succ_le (h.1.least l hl)⟩
  · intro l hl
    rw [List.getLast?_cons] at hl
    -- The suite is not empty, so that its last line is that of the whole.
    obtain ⟨m, hm⟩ := Option.ne_none_iff_exists'.mp fun hnone => h.2 (List.getLast?_eq_none_iff.mp hnone)
    rw [hm, Option.getD_some] at hl
    obtain rfl := Option.some.inj hl
    exact h.1.last m hm
  · exact List.cons_ne_nil _ _

theorem filter_chars (unit : Nat) (ls : List Line) :
    (ls.map (Line.chars unit)).filter (· ≠ []) = (written ls).map (Line.chars unit) := by
  rw [List.filter_map, written]
  congr 1
  exact List.filter_congr fun l _ => by simp [Line.chars_eq_nil_iff]

theorem Stacked.indentation_chars (h : Stacked S d ls) {l : Line} (hl : l ∈ written ls) (unit : Nat) :
    indentation (l.chars unit) = unit * l.depth := by
  obtain ⟨hl, htext⟩ := List.mem_filter.mp hl
  exact (h.tidy l hl).indentation_chars (by simpa using htext) unit

theorem Stacked.precedes (h : Stacked S d ls) {before after : List Line} {l m : Line}
    (hsplit : written ls = before ++ l :: m :: after) : l.Precedes m := by
  have hchain := h.chain
  rw [hsplit] at hchain
  exact (List.isChain_cons_cons.mp (List.isChain_append.mp hchain).2.1).1

theorem Stacked.suited (h : Stacked S 0 ls) (unit : Nat) :
    Suited unit (ls.map (Line.chars unit)) := by
  constructor <;> rw [filter_chars]
  · intro l after hsplit
    obtain ⟨m, ms, hms, rfl, rfl⟩ := List.map_eq_cons_iff.mp hsplit
    rw [h.indentation_chars (hms ▸ List.mem_cons_self), h.first m (by rw [hms]; rfl), Nat.mul_zero]
  · intro before l after hsplit hends
    obtain ⟨bs, rest, hbs, rfl, hrest⟩ := List.map_eq_append_iff.mp hsplit
    obtain ⟨m, ms, rfl, rfl, rfl⟩ := List.map_eq_cons_iff.mp hrest
    rw [Line.lineEnds_chars] at hends
    cases ms with
    | nil =>
      -- The last line of all is no head.
      have hlast := h.last m (by rw [hbs, List.getLast?_concat]; rfl)
      rw [Line.heads, hends] at hlast
      cases hlast
    | cons n ns =>
      have hdepth : n.depth = m.depth + 1 := by
        have hfollows := h.precedes hbs
        rwa [Line.Precedes, Line.heads, if_pos hends] at hfollows
      refine ⟨n.chars unit, ns.map (Line.chars unit), rfl, ?_⟩
      calc indentation (n.chars unit)
          = unit * (m.depth + 1) := by rw [h.indentation_chars (by rw [hbs]; simp), hdepth]
        _ = unit * m.depth + unit := Nat.mul_succ unit m.depth
        _ = indentation (m.chars unit) + unit := by rw [h.indentation_chars (by rw [hbs]; simp)]
  · intro before l m after hsplit hlt
    obtain ⟨bs, rest, hbs, rfl, hrest⟩ := List.map_eq_append_iff.mp hsplit
    obtain ⟨l, rest', rfl, rfl, hrest'⟩ := List.map_eq_cons_iff.mp hrest
    obtain ⟨m, ms, rfl, rfl, rfl⟩ := List.map_eq_cons_iff.mp hrest'
    rw [h.indentation_chars (by rw [hbs]; simp), h.indentation_chars (by rw [hbs]; simp)] at hlt
    have hdeeper : l.depth < m.depth := Nat.lt_of_mul_lt_mul_left hlt
    rw [Line.lineEnds_chars]
    by_contra hends
    have hfollows := h.precedes hbs
    rw [Line.Precedes, Line.heads, if_neg hends] at hfollows
    omega

end Suites

section Phrases

variable {ν : Type} {L : Dialect ν} {D : ν → Prop} {d : Nat} {ls : List Line} {s t : String} {cs : List Char}

/-- Code that can be a line by itself, since it does not end like the head of a suite. -/
structure Phrase (L : Dialect ν) (D : ν → Prop) (s : String) : Prop extends Part L D s where
  ends : endsIn ':' s = false

theorem Phrase.suite (h : Phrase L D s) : Suite (Says L D) d [⟨d, s⟩] := by
  have hwritten : written [⟨d, s⟩] = [⟨d, s⟩] := List.filter_eq_self.mpr (by simpa using h.isCode.ne_empty)
  refine ⟨⟨List.forall_mem_singleton.mpr ⟨Line.tidy_of_isCode h.isCode d, h.toSays⟩, ?_, ?_, ?_, ?_⟩, ?_⟩ <;>
    rw [hwritten]
  · exact .singleton _
  · rintro l ⟨⟩
    rfl
  · exact List.forall_mem_singleton.mpr (Nat.le_refl d)
  · rintro l ⟨⟩
    exact h.ends
  · exact List.cons_ne_nil _ _

theorem phrase_of_isPart (h : L.isPart cs = true) (hend : (cs.getLast? == some ':') = false) :
    Phrase L D (String.ofList cs) :=
  ⟨part_of_isPart h, by rw [endsIn, String.toList_ofList, hend]⟩

theorem Leads.phrase (hs : Leads L D s) (ht : Phrase L D t) : Phrase L D (s ++ t) :=
  ⟨hs.append ht.toPart, (endsIn_append _ ht.isCode.ne_empty).trans ht.ends⟩

theorem Part.phraseBy (hs : Part L D s) (h : L.isMark cs = true) (hend : (cs.getLast? == some ':') = false) :
    Phrase L D (s ++ String.ofList cs) :=
  ⟨hs.close h, (endsIn_mark h s _).trans hend⟩

theorem Part.phraseCall {args : List String} (hs : Part L D s) (h : ∀ t ∈ args, Part L D t) :
    Phrase L D (callCode s args) :=
  ⟨hs.call h, (endsIn_append _ (by decide)).trans (by decide)⟩

theorem phrase_commaSeparated {texts : List String} (h : ∀ t ∈ texts, Phrase L D t) (hne : texts ≠ []) :
    Phrase L D (commaSeparated texts) := by
  induction texts with
  | nil => exact absurd rfl hne
  | cons t ts ih =>
    have ht := h t List.mem_cons_self
    cases ts with
    | nil => exact ht
    | cons u us =>
      have hrest := ih (fun v hv => h v (List.mem_cons_of_mem _ hv)) (List.cons_ne_nil u us)
      have hcomma : Leads L D (t ++ ", ") := ht.toPart.mark (L.isMark_of_mem (by decide))
      rw [commaSeparated, String.intercalate_cons_cons]
      exact hcomma.phrase hrest

theorem endsIn_stringLiteral (style : ControlEscape) (text : String) : endsIn ':' (stringLiteral style text) = false := by
  rw [endsIn, stringLiteral, String.toList_ofList, List.getLast?_concat]
  decide

theorem Phrase.operand (hs : Phrase L D s) (level min : Precedence) : Phrase L D (operandCode level min s) := by
  refine ⟨hs.toPart.operand level min, ?_⟩
  unfold operandCode
  split
  · exact (endsIn_append _ (by decide)).trans (by decide)
  · exact hs.ends

theorem IsSpelled.phrase (h : IsSpelled L.space s) : Phrase L D s := ⟨h.part, h.isWord.endsIn_eq_false (by decide)⟩

theorem Suite.below (h : Suite (Says L D) (d + 1) ls) (hs : Part L D s) (hm : L.isMark cs = true)
    (hend : (cs.getLast? == some ':') = true) : Suite (Says L D) d (⟨d, s ++ String.ofList cs⟩ :: ls) :=
  have hhead := hs.close hm
  h.under hhead.isCode ((endsIn_mark hm s _).trans hend) hhead.toSays

theorem Suite.belowText (h : Suite (Says L D) (d + 1) ls) (hc : L.isPart cs = true)
    (hend : (cs.getLast? == some ':') = true) : Suite (Says L D) d (⟨d, String.ofList cs⟩ :: ls) :=
  have hhead : Part L D (String.ofList cs) := part_of_isPart hc
  h.under hhead.isCode (by rw [endsIn, String.toList_ofList, hend]) hhead.toSays

end Phrases

end Gondola
