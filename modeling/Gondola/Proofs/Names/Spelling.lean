import Gondola.Code.JavaScript
import Gondola.Code.Native
import Gondola.Code.Python
import Gondola.Proofs.Text.Codes

/-! Which spellings coincide. Names of a program are spelled apart from each other and from those that are made up.
Where the number of a made-up name follows the stem directly, a stem that ends in a digit can run into it. -/
namespace Gondola

theorem append_cons_inj {α : Type} {a : α} {s t d e : List α} (hd : a ∉ d) (he : a ∉ e)
    (h : s ++ a :: d = t ++ a :: e) : s = t ∧ d = e := by
  have hsplit := List.append_eq_append_iff.mp h
  rcases hsplit with ⟨u, hu, hd'⟩ | ⟨u, hu, he'⟩
  · cases u with
    | nil =>
      rw [List.append_nil] at hu
      exact ⟨hu.symm, (List.cons.inj hd').2⟩
    | cons b u =>
      have hin : a ∈ d := by
        rw [(List.cons.inj hd').2]
        exact List.mem_append_right _ List.mem_cons_self
      exact absurd hin hd
  · cases u with
    | nil =>
      rw [List.append_nil] at hu
      exact ⟨hu, (List.cons.inj he').2.symm⟩
    | cons b u =>
      have hin : a ∈ e := by
        rw [(List.cons.inj he').2]
        exact List.mem_append_right _ List.mem_cons_self
      exact absurd hin he

theorem isDigit_getLast?_toDigits {n : Nat} {c : Char} (h : (Nat.toDigits 10 n).getLast? = some c) :
    c.isDigit = true :=
  Nat.isDigit_of_mem_toDigits (by decide) (by decide) (List.mem_of_getLast? h)

theorem getLast?_append_toDigits (cs : List Char) (n : Nat) :
    (cs ++ Nat.toDigits 10 n).getLast? = (Nat.toDigits 10 n).getLast? := by
  rw [List.getLast?_append]
  cases h : (Nat.toDigits 10 n).getLast? with
  | none => exact absurd (List.getLast?_eq_none_iff.mp h) Nat.toDigits_ne_nil
  | some c => rfl

def endsInDigit (s : String) : Bool := s.toList.getLast?.any Char.isDigit

theorem eq_nil_of_digits {text before u rest : List Char} {n : Nat}
    (ht : text.getLast?.any Char.isDigit = false) (hu : text = before ++ u)
    (hn : Nat.toDigits 10 n = u ++ rest) : u = [] := by
  cases hlast : u.getLast? with
  | none => exact List.getLast?_eq_none_iff.mp hlast
  | some c =>
    have hc : c ∈ Nat.toDigits 10 n := by
      rw [hn]
      exact List.mem_append_left _ (List.mem_of_getLast? hlast)
    have hd : c.isDigit = true := Nat.isDigit_of_mem_toDigits (by decide) (by decide) hc
    rw [hu, List.getLast?_append, hlast, Option.some_or, Option.any_some, hd] at ht
    cases ht

namespace Namespace

variable {ns : Namespace} {a b stem stem' : String} {n m : Nat}

theorem taken_of_getLast? (h : a.toList.getLast? = some '_') : ns.taken a = true := by
  rw [taken, h]
  simp

theorem ident_injective (h : ns.ident a = ns.ident b) : a = b := by
  have hmark (x y : String) (he : x ++ "_" = y) : ns.taken y = true := by
    apply taken_of_getLast?
    rw [← he, String.toList_append]
    exact List.getLast?_concat
  unfold ident at h
  split at h
  · split at h
    · have hlist := congrArg String.toList h
      rw [String.toList_append, String.toList_append] at hlist
      exact String.toList_inj.mp (List.append_cancel_right hlist)
    · rename_i hb
      exact absurd (hmark a b h) hb
  · split at h
    · rename_i ha _
      exact absurd (hmark b a h.symm) ha
    · exact h

theorem ident_not_mem_reserved (h : ∀ w ∈ ns.reserved, w.toList.getLast? ≠ some '_') :
    ns.ident a ∉ ns.reserved := by
  intro hin
  have hlast := h _ hin
  rw [ident] at hin hlast
  split at hin
  · rename_i ht
    rw [if_pos ht, String.toList_append] at hlast
    exact hlast List.getLast?_concat
  · rename_i ht
    apply ht
    rw [taken, List.contains_iff_mem.mpr hin, Bool.true_or, Bool.true_or]

theorem toList_fresh_of_none (hl : ns.library = none) :
    (ns.fresh stem n).toList = stem.toList ++ '_' :: Nat.toDigits 10 n ++ ['_'] := by
  rw [fresh, hl]
  simp only [String.toList_append, toList_toString]
  rw [List.append_assoc stem.toList]
  rfl

theorem toList_fresh_of_some {start : String} (hl : ns.library = some start) :
    (ns.fresh stem n).toList = start.toList ++ (stem ++ toString n).toList := by
  rw [fresh, hl]
  simp only [String.toList_append, List.append_assoc]

theorem fresh_inj_of_none (hl : ns.library = none) (h : ns.fresh stem n = ns.fresh stem' m) :
    stem = stem' ∧ n = m := by
  have hlist := congrArg String.toList h
  rw [toList_fresh_of_none hl, toList_fresh_of_none hl] at hlist
  have hcut := List.append_cancel_right hlist
  have hparts := append_cons_inj Nat.underscore_not_in_toDigits Nat.underscore_not_in_toDigits hcut
  exact ⟨String.toList_inj.mp hparts.1, toDigits_inj hparts.2⟩

theorem fresh_eq_iff_of_some {start : String} (hl : ns.library = some start) :
    ns.fresh stem n = ns.fresh stem' m ↔ stem ++ toString n = stem' ++ toString m := by
  rw [← String.toList_inj, toList_fresh_of_some hl, toList_fresh_of_some hl, List.append_cancel_left_eq,
    String.toList_inj]

theorem ident_ne_fresh_of_none (hl : ns.library = none)
    (hr : ∀ w ∈ ns.reserved, endsInDigit w = false) :
    ns.ident a ≠ ns.fresh stem n := by
  intro h
  have hlist := congrArg String.toList h
  rw [toList_fresh_of_none hl, ident] at hlist
  split at hlist
  · -- The name ends in a digit, like no reserved word and no name that ends in an underscore.
    rename_i ht
    rw [String.toList_append] at hlist
    have ha : a.toList = stem.toList ++ ['_'] ++ Nat.toDigits 10 n := by
      rw [List.append_cancel_right hlist, List.append_cons]
    obtain ⟨c, hc⟩ := List.getLast?_isSome.mpr (Nat.toDigits_ne_nil (n := n) (b := 10)) |>
      Option.isSome_iff_exists.mp
    have hd := isDigit_getLast?_toDigits hc
    have hlast : a.toList.getLast? = some c := by rw [ha, getLast?_append_toDigits, hc]
    rw [taken, hlast, inLibrary, hl] at ht
    simp only [Bool.or_false, Bool.or_eq_true, List.contains_iff_mem, beq_iff_eq] at ht
    rcases ht with hin | hmark
    · have hnot := hr a hin
      rw [endsInDigit, hlast, Option.any_some, hd] at hnot
      cases hnot
    · rw [Option.some.inj hmark] at hd
      cases hd
  · rename_i ht
    apply ht
    apply taken_of_getLast?
    rw [hlist]
    exact List.getLast?_concat

theorem ident_ne_fresh_of_some {start : String} (hl : ns.library = some start)
    (hs : start.toList.map Char.toLower = start.toList) : ns.ident a ≠ ns.fresh stem n := by
  intro h
  have hlist := congrArg String.toList h
  rw [toList_fresh_of_some hl, ident] at hlist
  split at hlist
  · -- One of the two ends in an underscore, and the other one in a digit.
    rw [String.toList_append, String.toList_append, toList_toString, ← List.append_assoc] at hlist
    have hlast := congrArg List.getLast? hlist
    rw [getLast?_append_toDigits] at hlast
    have hd := isDigit_getLast?_toDigits (hlast.symm.trans List.getLast?_concat)
    cases hd
  · rename_i ht
    apply ht
    have hlib : ns.inLibrary a = true := by
      rw [inLibrary, hl]
      dsimp only
      rw [hlist, ← String.length_toList, List.take_left, hs]
      exact beq_self_eq_true _
    rw [taken, hlib, Bool.or_true]

end Namespace

/-- How a spelling comes about: from a name of the program, or made up from a stem and a number. -/
inductive Form where
  | plain (name : String)
  | fresh (stem : String) (number : Nat)
  deriving DecidableEq, Repr

namespace Form

def text (ns : Namespace) : Form → String
  | plain name => ns.ident name
  | fresh stem number => ns.fresh stem number

def stem : Form → String
  | plain name => name
  | fresh stem _ => stem

/-- Two made-up names whose numbers run into their stems alike. -/
def Clash : Form → Form → Prop
  | fresh s n, fresh t m => s ++ toString n = t ++ toString m
  | _, _ => False

theorem text_inj_of_none {ns : Namespace} (hl : ns.library = none)
    (hr : ∀ w ∈ ns.reserved, endsInDigit w = false) {f g : Form}
    (h : f.text ns = g.text ns) : f = g := by
  cases f with
  | plain a =>
    cases g with
    | plain b => rw [Namespace.ident_injective h]
    | fresh t m => exact absurd h (Namespace.ident_ne_fresh_of_none hl hr)
  | fresh s n =>
    cases g with
    | plain b => exact absurd h.symm (Namespace.ident_ne_fresh_of_none hl hr)
    | fresh t m =>
      obtain ⟨rfl, rfl⟩ := Namespace.fresh_inj_of_none hl h
      rfl

theorem text_eq_iff_of_some {ns : Namespace} {start : String} (hl : ns.library = some start)
    (hs : start.toList.map Char.toLower = start.toList) {f g : Form} :
    f.text ns = g.text ns ↔ f = g ∨ f.Clash g := by
  constructor
  · intro h
    cases f with
    | plain a =>
      cases g with
      | plain b => exact .inl (by rw [Namespace.ident_injective h])
      | fresh t m => exact absurd h (Namespace.ident_ne_fresh_of_some hl hs)
    | fresh s n =>
      cases g with
      | plain b => exact absurd h.symm (Namespace.ident_ne_fresh_of_some hl hs)
      | fresh t m => exact .inr ((Namespace.fresh_eq_iff_of_some hl).mp h)
  · rintro (rfl | hc)
    · rfl
    · cases f with
      | plain a => cases hc
      | fresh s n =>
        cases g with
        | plain b => cases hc
        | fresh t m => exact (Namespace.fresh_eq_iff_of_some hl).mpr hc

theorem eq_of_clash {f g : Form} (h : f.Clash g)
    (hf : endsInDigit f.stem = false) (hg : endsInDigit g.stem = false) : f = g := by
  cases f with
  | plain a => cases h
  | fresh s n =>
    cases g with
    | plain b => cases h
    | fresh t m =>
      have hlist := congrArg String.toList h
      rw [String.toList_append, String.toList_append, toList_toString, toList_toString] at hlist
      -- One of the stems is the other one and digits, of which there can be none.
      rcases List.append_eq_append_iff.mp hlist with ⟨u, hu, hn⟩ | ⟨u, hu, hm⟩
      · obtain rfl := eq_nil_of_digits hg hu hn
        rw [List.append_nil] at hu
        rw [String.toList_inj.mp hu, toDigits_inj hn]
      · obtain rfl := eq_nil_of_digits hf hu hm
        rw [List.append_nil] at hu
        rw [String.toList_inj.mp hu, toDigits_inj hm]

end Form

/-- How each target spells names. -/
def Target.space : Target → Namespace
  | .python => Python.space
  | .javascript => JavaScript.space
  | .native => Native.space

theorem Form.text_eq_iff (target : Target) (f g : Form) :
    f.text target.space = g.text target.space ↔ f = g ∨ target = .native ∧ f.Clash g := by
  cases target with
  | python =>
    have hr : ∀ w ∈ Python.space.reserved, endsInDigit w = false := by decide
    simpa using ⟨text_inj_of_none rfl hr, congrArg _⟩
  | javascript =>
    have hr : ∀ w ∈ JavaScript.space.reserved, endsInDigit w = false := by decide
    simpa using ⟨text_inj_of_none rfl hr, congrArg _⟩
  | native =>
    have hs : "venice_".toList.map Char.toLower = "venice_".toList := by decide
    simpa using text_eq_iff_of_some rfl hs

/-- In every target, the names of a program are spelled apart from each other, from the reserved words and from
all names that can be made up. -/
theorem Target.ident_apart (target : Target) :
    Function.Injective target.space.ident ∧ ∀ x, target.space.ident x ∉ target.space.reserved ∧
      ∀ stem n, target.space.ident x ≠ target.space.fresh stem n := by
  refine ⟨fun _ _ => Namespace.ident_injective, fun x => ⟨?_, fun stem n h => ?_⟩⟩
  · apply Namespace.ident_not_mem_reserved
    cases target <;> decide
  · rcases (Form.text_eq_iff target (.plain x) (.fresh stem n)).mp h with heq | ⟨-, hclash⟩
    · cases heq
    · exact hclash

end Gondola
