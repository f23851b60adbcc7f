import Gondola.Compile
import Gondola.Proofs.Code.Unsupported
import Mathlib.Data.List.Nodup

/-! Definitions of function types in C programs. No name is defined twice, and a function type is named only below its
definition. -/
namespace Gondola.Native

open Text

/-- The name that a line of a program defines. -/
def defined? (line : List Char) : Option (List Char) :=
  match words line with
  | first :: _ :: name :: _ => if first = typedefWord then some name else none
  | _ => none

/-- The words of a line, but for the name that it defines. -/
def mentioned (line : List Char) : List (List Char) :=
  match words line with
  | first :: result :: name :: rest =>
    if first = typedefWord then first :: result :: rest else first :: result :: name :: rest
  | ws => ws

section Texts

variable {D : Typedef → Prop} {s : String} {f g : Signature}

theorem plain_line (h : Says D s) : defined? s.toList = none ∧ mentioned s.toList = words s.toList := by
  have hfirst := known_of_mem_words h
  unfold defined? mentioned
  split
  · rename_i first result name rest hwords
    rw [hwords] at hfirst
    have hne := (hfirst first List.mem_cons_self).1
    exact ⟨if_neg hne, (if_neg hne).trans hwords.symm⟩
  · exact ⟨rfl, rfl⟩

theorem words_cType (t : Ty) : ∃ w, words (cType t).value.toList = [w] := by
  rcases shape_plain_or_function t with h | ⟨ps, ls, r, rfl⟩
  · have hplain : ∀ e ∈ plainForms, (words e.2.toList).length = 1 := by decide
    have hone : (words (cType t).value.toList).length = 1 := hplain (shape t, (cType t).value) h
    exact List.length_eq_one_iff.mp hone
  · have hname : (cType (.function ps ls r)).value = Typedef.name (Signature.typedef ⟨ps, ls, r⟩) := rfl
    rw [hname]
    exact ⟨_, (dialect.name (isWord_name ⟨ps, ls, r⟩)).1⟩

theorem part_of_typedef (f : Signature) : ∀ c ∈ f.typedef.result :: f.typedef.params, Part (fun _ => True) c :=
  List.forall_mem_cons.mpr ⟨(given_cType f.result _).value fun _ _ => True.intro,
    (given_cTypes f.params _).value fun _ _ => True.intro⟩

theorem words_text (f : Signature) : ∃ result, words f.typedef.result.toList = [result] ∧
    words f.typedef.text.toList =
      typedefWord :: result :: f.typedef.name.toList :: words (paramList f.typedef.params).toList := by
  obtain ⟨result, hresult⟩ : ∃ w, words f.typedef.result.toList = [w] := words_cType f.result
  obtain ⟨hparts, hparams⟩ := List.forall_mem_cons.mp (part_of_typedef f)
  obtain ⟨hname, hclosed⟩ := words_name (isWord_name f).1 (isWord_name f).2
  refine ⟨result, hresult, ?_⟩
  have htext : f.typedef.text.toList = ['t', 'y', 'p', 'e', 'd', 'e', 'f', ' '] ++ (f.typedef.result.toList ++
      ([' ', '(', '*'] ++ (f.typedef.name.toList ++ ([')', '('] ++ ((paramList f.typedef.params).toList ++
        [')', ';']))))) := by
    simp only [Typedef.text, String.toList_append, List.append_assoc]
    rfl
  -- Only the start has a word of its own. Where parts meet, one of the two sides is a blank or a bracket.
  have hstart : words ['t', 'y', 'p', 'e', 'd', 'e', 'f', ' '] = [typedefWord] := by decide
  have hopen : words [' ', '(', '*'] = [] := by decide
  have hmiddle : words [')', '('] = [] := by decide
  have hend : words [')', ';'] = [] := by decide
  rw [htext, words_append (by decide) (.inl (by decide)), words_append (of_decide_eq_true hparts.closed) (.inr rfl),
    words_append (by decide) (.inl (by decide)), words_append hclosed (.inr rfl),
    words_append (by decide) (.inl (by decide)), words_append (of_decide_eq_true (says_paramList hparams).closed) (.inr (by decide)),
    hstart, hresult, hopen, hname, hmiddle, hend, List.append_nil]
  rfl

theorem defined?_text (f : Signature) : defined? f.typedef.text.toList = some f.typedef.name.toList := by
  obtain ⟨result, -, hwords⟩ := words_text f
  rw [defined?, hwords]
  rfl

theorem mentioned_text (h : ∀ c ∈ f.typedef.result :: f.typedef.params, Part D c)
    (hg : g.typedef.name.toList ∈ mentioned f.typedef.text.toList) : D g.typedef := by
  obtain ⟨hresult, hparams⟩ := List.forall_mem_cons.mp h
  obtain ⟨result, hwords, htext⟩ := words_text f
  have hmentioned : mentioned f.typedef.text.toList =
      typedefWord :: result :: words (paramList f.typedef.params).toList := by
    unfold mentioned
    rw [htext]
    rfl
  rw [hmentioned] at hg
  rcases List.mem_cons.mp hg with hname | hg
  · have hstarts := name_starts g
    rw [hname] at hstarts
    exact absurd hstarts (by decide)
  · rcases List.mem_cons.mp hg with hname | hg
    · exact (known_of_mem_words hresult.toSays _ (by rw [hwords]; exact List.mem_cons_self)).2 g hname.symm
    · exact ((says_paramList hparams).words _ hg).2 g rfl

theorem typedef_text_inj : f.typedef.name = g.typedef.name ↔ f.typedef.text = g.typedef.text := by
  constructor
  · intro h
    rw [typedef_eq_of_name h]
  · intro h
    have hdefined := defined?_text f
    rw [h, defined?_text g] at hdefined
    exact String.toList_inj.mp (Option.some.inj hdefined).symm

end Texts

section Program

variable {T : TypeTable} {p : Program}

theorem textLines_generate (hp : ∀ i ∈ p.items, i.IsSpellable) : ∃ rest : List String,
    textLines (generate T p) = (["#include <venice.h>", ""] ++
      ((firstByName [] (needed T p)).map Typedef.text ++ rest)).map String.toList ∧
    ∀ s ∈ rest, Says (· ∈ needed T p) s := by
  obtain ⟨rest, hlines, hrest⟩ := shows_below (T := T) hp
  have hblank : Says (· ∈ needed T p) "" := says_plain (by decide)
  obtain ⟨blank, htypedefs, hwords⟩ : ∃ blank : List Line,
      declarations ((firstByName [] (needed T p)).map Typedef.text) =
        ((firstByName [] (needed T p)).map Typedef.text).map Line.at0 ++ blank ∧
      ∀ l ∈ blank, Says (· ∈ needed T p) l.text := by
    cases (firstByName [] (needed T p)).map Typedef.text with
    | nil => exact ⟨[], rfl, List.forall_mem_nil _⟩
    | cons t ts => exact ⟨[.at0 ""], rfl, List.forall_mem_singleton.mpr hblank⟩
  refine ⟨(blank ++ rest).map Line.text ++ [""], ?_, ?_⟩
  · rw [generate, textLines_renderLines (shows_program hp).laid.tidy, hlines, htypedefs]
    simp only [List.map_append, List.map_map, List.append_assoc]
    rfl
  · refine List.forall_mem_append.mpr ⟨List.forall_mem_map.mpr ?_, List.forall_mem_singleton.mpr hblank⟩
    exact List.forall_mem_append.mpr ⟨hwords, fun l hl => (hrest.laid.lines l hl).2⟩

theorem split_append {α : Type} {ws xs before after : List α} {x : α} (h : ws ++ xs = before ++ x :: after) :
    (∃ after', ws = before ++ x :: after') ∨ ∃ before', before = ws ++ before' ∧ xs = before' ++ x :: after := by
  rcases List.append_eq_append_iff.mp h with ⟨as, hbefore, hxs⟩ | ⟨bs, hws, hafter⟩
  · exact .inr ⟨as, hbefore, hxs⟩
  · cases bs with
    | nil => exact .inr ⟨[], by rw [hws, List.append_nil, List.append_nil], hafter.symm⟩
    | cons b bs =>
      rw [List.cons_append] at hafter
      obtain ⟨rfl, -⟩ := List.cons.inj hafter
      exact .inl ⟨bs, hws⟩

theorem nodup_defined (hp : ∀ i ∈ p.items, i.IsSpellable) :
    ((textLines (generate T p)).filterMap defined?).Nodup := by
  obtain ⟨rest, hlines, hrest⟩ := textLines_generate (T := T) hp
  -- Lines above and below the definitions define nothing, and each definition its own name.
  have hhead : ["#include <venice.h>", ""].filterMap (defined? ∘ String.toList) = [] := by decide
  have htail : rest.filterMap (defined? ∘ String.toList) = [] :=
    List.filterMap_eq_nil_iff.mpr fun s hs => (plain_line (hrest s hs)).1
  have hnames : (firstByName [] (needed T p)).filterMap ((defined? ∘ String.toList) ∘ Typedef.text) =
      ((firstByName [] (needed T p)).map Typedef.name).map String.toList := by
    rw [List.map_map, ← List.filterMap_eq_map]
    refine List.filterMap_congr fun t ht => ?_
    obtain ⟨f, rfl⟩ := (founded_defined hp).mem ht
    rw [Function.comp_apply, Function.comp_apply, defined?_text]
    rfl
  rw [hlines, List.filterMap_map, List.filterMap_append, List.filterMap_append, List.filterMap_map, hhead, htail,
    hnames, List.nil_append, List.append_nil]
  exact List.Nodup.map (fun _ _ => String.toList_inj.mp) (nodup_firstByName [] _).1

theorem text_mem_of_needed (hp : ∀ i ∈ p.items, i.IsSpellable) {f : Signature} (hf : f.typedef ∈ needed T p) :
    f.typedef.text ∈ (firstByName [] (needed T p)).map Typedef.text := by
  obtain ⟨t, ht, hname⟩ := exists_firstByName hf List.not_mem_nil
  obtain ⟨g, rfl⟩ := (founded_defined hp).mem ht
  rw [← typedef_eq_of_name hname]
  exact List.mem_map_of_mem ht

theorem text_mem_before (hp : ∀ i ∈ p.items, i.IsSpellable) {before after : List (List Char)} {line : List Char}
    (h : textLines (generate T p) = before ++ line :: after) {f : Signature}
    (hf : f.typedef.name.toList ∈ mentioned line) : f.typedef.text.toList ∈ before := by
  obtain ⟨rest, hlines, hrest⟩ := textLines_generate (T := T) hp
  rw [hlines] at h
  obtain ⟨texts, others, hsplit, rfl, hothers⟩ := List.map_eq_append_iff.mp h
  obtain ⟨text, later, rfl, rfl, -⟩ := List.map_eq_cons_iff.mp hothers
  refine List.mem_map_of_mem ?_
  -- The line stands above the definitions, among them, or below.
  rcases split_append hsplit with ⟨_, habove⟩ | ⟨texts, rfl, hlater⟩
  · have hplain : ∀ s ∈ ["#include <venice.h>", ""], Says (fun _ => False) s :=
      List.forall_mem_cons.mpr ⟨says_plain (by decide),
        List.forall_mem_singleton.mpr (says_plain (by decide))⟩
    have hline := hplain text (by rw [habove]; exact List.mem_append_right _ List.mem_cons_self)
    rw [(plain_line hline).2] at hf
    exact absurd ((hline.words _ hf).2 f rfl) id
  · refine List.mem_append_right _ ?_
    rcases split_append hlater with ⟨_, hamong⟩ | ⟨texts, rfl, hbelow⟩
    · obtain ⟨ts, others, hts, rfl, hothers⟩ := List.map_eq_append_iff.mp hamong
      obtain ⟨t, us, rfl, rfl, -⟩ := List.map_eq_cons_iff.mp hothers
      -- A definition may mention those before it only.
      have hfounded := founded_defined (T := T) hp
      rw [hts] at hfounded
      obtain ⟨⟨g, rfl⟩, hparts, -⟩ := hfounded.of_append
      rcases mentioned_text hparts hf with hin | hfalse
      · exact List.mem_map_of_mem hin
      · exact absurd hfalse id
    · have hline := hrest text (by rw [hbelow]; exact List.mem_append_right _ List.mem_cons_self)
      rw [(plain_line hline).2] at hf
      exact List.mem_append_left _ (text_mem_of_needed hp ((hline.words _ hf).2 f rfl))

theorem generate_of_compile {source code : String} (h : compile source .native = .ok code) :
    ∃ p T, parseProgram source = .ok p ∧ code = generate T p := by
  unfold compile at h
  cases hp : parseProgram source with
  | error e =>
    rw [hp] at h
    cases h
  | ok p =>
    simp only [hp, Program.compile] at h
    cases hc : p.check with
    | error e =>
      rw [hc] at h
      cases h
    | ok T =>
      rw [hc] at h
      exact ⟨p, T, rfl, (Except.ok.inj h).symm⟩

/-- A function type is written as its name and needs its definition. Function types have the same name exactly if their
definitions read the same. In a program no name is defined twice, and the name of a function type stands in a line only
if its definition is a line above. -/
theorem typedefs_consistent :
    (∀ f : Signature, (cType f.type).value = f.typedef.name ∧ f.typedef ∈ (cType f.type).needs) ∧
      (∀ f g : Signature, f.typedef.name = g.typedef.name ↔ f.typedef.text = g.typedef.text) ∧
      ∀ source code, compile source .native = .ok code →
        ((textLines code).filterMap defined?).Nodup ∧
        ∀ before line after, textLines code = before ++ line :: after →
          ∀ f : Signature, f.typedef.name.toList ∈ mentioned line →
            f.typedef.text.toList ∈ before ∧ defined? f.typedef.text.toList = some f.typedef.name.toList := by
  refine ⟨fun f => ⟨rfl, ?_⟩, fun f g => typedef_text_inj, ?_⟩
  · exact List.mem_append_right _ (List.mem_append_right _ List.mem_cons_self)
  · intro source code h
    obtain ⟨p, T, hparse, rfl⟩ := generate_of_compile h
    have hp := Parser.spellable_of_parseProgram hparse
    exact ⟨nodup_defined hp, fun before line after hlines f hf => ⟨text_mem_before hp hlines hf, defined?_text f⟩⟩

/-- A global variable that holds a function. -/
theorem typedefs_consistent_global : ∃ code before after,
    compile "fn f(x: int) -> bool \x7b return x > 0; \x7d let g = f;" .native = .ok code ∧
    textLines code = before ++ "static venice_fn_int_to_bool g;".toList :: after ∧
    "typedef venice_bool_t (*venice_fn_int_to_bool)(venice_int_t);".toList ∈ before := by
  generalize hs : "fn f(x: int) -> bool \x7b return x > 0; \x7d let g = f;" = source
  have hok : ((compile source .native).toOption.any fun code =>
      (textLines code).contains "static venice_fn_int_to_bool g;".toList) = true := by
    subst hs
    decide +kernel
  cases h : compile source .native with
  | error e =>
    rw [h] at hok
    cases hok
  | ok code =>
    rw [h] at hok
    obtain ⟨before, after, hlines⟩ := List.append_of_mem (List.contains_iff_mem.mp hok)
    have htext : Typedef.text (Signature.typedef ⟨[.int], [some "x"], .bool⟩) =
        "typedef venice_bool_t (*venice_fn_int_to_bool)(venice_int_t);" := by decide
    have hearlier := (typedefs_consistent.2.2 source code h).2 before _ after hlines ⟨[.int], [some "x"], .bool⟩
    rw [htext] at hearlier
    exact ⟨code, before, after, rfl, hlines, (hearlier (by decide)).1⟩

end Program

end Gondola.Native
