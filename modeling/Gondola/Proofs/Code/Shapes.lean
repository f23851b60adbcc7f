import Gondola.Code.Native
import Gondola.Text.Classes
import Mathlib.Data.List.Basic

/-! The names of function types in C. It can be told where the shape of one part ends and that of the next one starts,
so that function types of the same name are declared alike. -/
namespace Gondola

/-- How the type of the functions with this signature is declared in C. -/
def Signature.typedef (f : Signature) : Native.Typedef :=
  ⟨"venice_" ++ Native.shape f.type, (Native.cTypes f.params).value, (Native.cType f.result).value⟩

namespace Native

/-- The shapes that are not those of functions, with their types. -/
def plainForms : List (String × String) :=
  [("bool", "venice_bool_t"), ("int", "venice_int_t"), ("string", "venice_string_t*"), ("void", "void"),
    ("any", "venice_any_t"), ("list", "venice_list_t*"), ("map", "venice_map_t*"), ("word", "venice_word_t")]

theorem shape_plain_or_function (t : Ty) :
    (shape t, (cType t).value) ∈ plainForms ∨ ∃ ps ls r, t = .function ps ls r := by
  cases t with
  | function ps ls r => exact .inr ⟨ps, ls, r, rfl⟩
  | bool | int | string | void | any | list | map | struct | enum | metatype =>
    refine .inl ?_
    simp only [shape, cType, Fragment.value_pure]
    decide

theorem toList_shape_function (ps : List Ty) (ls : List (Option String)) (r : Ty) :
    (shape (.function ps ls r)).toList =
      'f' :: 'n' :: '_' :: ((shapes ps).toList ++ 't' :: 'o' :: '_' :: (shape r).toList) := by
  rw [shape, String.toList_append, String.toList_append, String.toList_append, List.append_assoc, List.append_assoc]
  rfl

theorem toList_shapes_cons (t : Ty) (ts : List Ty) :
    (shapes (t :: ts)).toList = (shape t).toList ++ '_' :: (shapes ts).toList := by
  rw [shapes, String.toList_append, String.toList_append, List.append_assoc]
  rfl

theorem append_underscore_inj {a b x y : List Char} (ha : '_' ∉ a) (hb : '_' ∉ b) (h : a ++ '_' :: x = b ++ '_' :: y) :
    a = b ∧ x = y := by
  have hcut := congrArg (List.splitOn '_') h
  rw [List.splitOn_append_cons_self_of_not_mem ha, List.splitOn_append_cons_self_of_not_mem hb] at hcut
  obtain rfl := (List.cons.inj hcut).1
  exact ⟨rfl, (List.cons.inj (List.append_cancel_left h)).2⟩

theorem plainForms_first {e : String × String} (h : e ∈ plainForms) :
    '_' ∉ e.1.toList ∧ e.1.toList ≠ ['f', 'n'] ∧ e.1.toList ≠ ['t', 'o'] := by
  have hall : ∀ e ∈ plainForms, '_' ∉ e.1.toList ∧ e.1.toList ≠ ['f', 'n'] ∧ e.1.toList ≠ ['t', 'o'] := by decide
  exact hall e h

/-- The shape of a type that is no function ends before the first underscore. -/
theorem plain_append_inj {t u : Ty} {x y : List Char} (ht : (shape t, (cType t).value) ∈ plainForms)
    (h : (shape t).toList ++ '_' :: x = (shape u).toList ++ '_' :: y) : shape t = shape u ∧ x = y := by
  obtain ⟨hcut, hfn, -⟩ := plainForms_first ht
  rcases shape_plain_or_function u with hu | ⟨ps, ls, r, rfl⟩
  · obtain ⟨htext, hrest⟩ := append_underscore_inj hcut (plainForms_first hu).1 h
    exact ⟨String.toList_inj.mp htext, hrest⟩
  · -- The first underscore of a function's shape comes right after the first two letters.
    rw [toList_shape_function] at h
    exact absurd (append_underscore_inj hcut (b := ['f', 'n']) (by decide) h).1 hfn

theorem shape_append_ne_to (t : Ty) (x y : List Char) : (shape t).toList ++ '_' :: x ≠ 't' :: 'o' :: '_' :: y := by
  intro h
  rcases shape_plain_or_function t with ht | ⟨ps, ls, r, rfl⟩
  · obtain ⟨hcut, -, hto⟩ := plainForms_first ht
    exact hto (append_underscore_inj hcut (b := ['t', 'o']) (by decide) h).1
  · rw [toList_shape_function] at h
    exact absurd (List.cons.inj h).1 (by decide)

theorem shapes_congr {ts us : List Ty} (h : ts.map shape = us.map shape) : shapes ts = shapes us := by
  have hjoin (ts : List Ty) : shapes ts = String.join ((ts.map shape).map (· ++ "_")) := by
    induction ts with
    | nil => rfl
    | cons t ts ih => rw [shapes, ih, List.map_cons, List.map_cons, String.join_cons]
  rw [hjoin, hjoin, h]

mutual
theorem shape_append_inj : ∀ (t u : Ty) {x y : List Char},
    (shape t).toList ++ '_' :: x = (shape u).toList ++ '_' :: y → shape t = shape u ∧ x = y
  | .bool, _, _, _, h | .int, _, _, _, h | .string, _, _, _, h | .void, _, _, _, h | .any, _, _, _, h
  | .list _, _, _, _, h | .map .., _, _, _, h | .struct .., _, _, _, h | .enum .., _, _, _, h
  | .metatype _, _, _, _, h => by
    refine plain_append_inj ?_ h
    simp only [shape, cType, Fragment.value_pure]
    decide
  | .function ps ls r, u, x, y, h => by
    rcases shape_plain_or_function u with hu | ⟨qs, ms, s, rfl⟩
    · obtain ⟨hshape, hrest⟩ := plain_append_inj hu h.symm
      exact ⟨hshape.symm, hrest.symm⟩
    · -- Read on from the left: first the parameters as far as the mark after them, then the result.
      simp only [toList_shape_function, List.cons_append, List.append_assoc, List.cons.injEq, true_and] at h
      obtain ⟨hps, h⟩ := shapes_append_inj ps qs h
      obtain ⟨hr, hrest⟩ := shape_append_inj r s h
      exact ⟨by rw [shape, shape, shapes_congr hps, hr], hrest⟩
theorem shapes_append_inj : ∀ (ts us : List Ty) {x y : List Char},
    (shapes ts).toList ++ 't' :: 'o' :: '_' :: x = (shapes us).toList ++ 't' :: 'o' :: '_' :: y →
      ts.map shape = us.map shape ∧ x = y
  | [], [], x, y, h => by simpa [shapes] using h
  -- One list of parameters cannot end before the other, since no shape starts like the mark after the last one.
  | [], u :: us, x, y, h => by
    rw [toList_shapes_cons, List.append_assoc] at h
    exact absurd h.symm (shape_append_ne_to u _ _)
  | t :: ts, [], x, y, h => by
    rw [toList_shapes_cons, List.append_assoc] at h
    exact absurd h (shape_append_ne_to t _ _)
  | t :: ts, u :: us, x, y, h => by
    simp only [toList_shapes_cons, List.append_assoc, List.cons_append] at h
    obtain ⟨ht, h⟩ := shape_append_inj t u h
    obtain ⟨hts, hrest⟩ := shapes_append_inj ts us h
    exact ⟨by rw [List.map_cons, List.map_cons, ht, hts], hrest⟩
end

/-- The type with a shape. -/
def form (shape : String) : String := (plainForms.lookup shape).getD ("venice_" ++ shape)

theorem value_cType (t : Ty) : (cType t).value = form (shape t) := by
  cases t with
  | function ps ls r =>
    -- The shape of a function has an underscore in it, and none of the other shapes has.
    have hnone : plainForms.lookup (shape (.function ps ls r)) = none := by
      rw [List.lookup_eq_none_iff]
      intro e he
      rw [bne_iff_ne]
      intro heq
      have htext := congrArg String.toList heq
      rw [toList_shape_function] at htext
      refine (plainForms_first he).1 ?_
      rw [← htext]
      exact List.mem_cons_of_mem _ (List.mem_cons_of_mem _ List.mem_cons_self)
    rw [form, hnone]
    rfl
  | bool | int | string | void | any | list | map | struct | enum | metatype =>
    simp only [shape, cType, Fragment.value_pure]
    decide

theorem value_cTypes (ts : List Ty) : (cTypes ts).value = (ts.map shape).map form := by
  induction ts with
  | nil => rfl
  | cons t ts ih =>
    rw [List.map_cons, List.map_cons, ← ih, ← value_cType]
    rfl

theorem typedef_eq_of_name {f g : Signature} (h : f.typedef.name = g.typedef.name) : f.typedef = g.typedef := by
  have htext := congrArg String.toList h
  -- Behind their common start the names are read like shapes, and the types go by the shapes.
  simp only [Signature.typedef, Signature.type, String.toList_append, toList_shape_function] at htext
  have hparts := (List.cons.inj (List.cons.inj (List.cons.inj (List.append_cancel_left htext)).2).2).2
  obtain ⟨hps, hr⟩ := shapes_append_inj _ _ hparts
  have hname : "venice_" ++ shape f.type = "venice_" ++ shape g.type := h
  have hparams : (cTypes f.params).value = (cTypes g.params).value := by rw [value_cTypes, value_cTypes, hps]
  have hresult : (cType f.result).value = (cType g.result).value := by
    rw [value_cType, value_cType, String.toList_inj.mp hr]
  rw [Signature.typedef, Signature.typedef, hname, hparams, hresult]

section Letters

open Text (continuesName)

mutual
theorem continuesName_shape : ∀ t : Ty, ∀ c ∈ (shape t).toList, continuesName c = true
  | .bool | .int | .string | .void | .any | .list _ | .map .. | .struct .. | .enum .. | .metatype _ => by
    unfold shape
    exact List.all_eq_true.mp (by decide)
  | .function ps _ r => by
    simp only [toList_shape_function, List.forall_mem_cons, List.forall_mem_append]
    exact ⟨by decide, by decide, by decide, continuesName_shapes ps, by decide, by decide, by decide,
      continuesName_shape r⟩
theorem continuesName_shapes : ∀ ts : List Ty, ∀ c ∈ (shapes ts).toList, continuesName c = true
  | [] => List.all_eq_true.mp (by decide)
  | t :: ts => by
    simp only [toList_shapes_cons, List.forall_mem_cons, List.forall_mem_append]
    exact ⟨continuesName_shape t, by decide, continuesName_shapes ts⟩
end

def lastLetters : List Char := ['l', 't', 'g', 'd', 'y', 'p']

theorem any_getLast?_append {p : Char → Bool} (xs : List Char) {ys : List Char} (h : ys.getLast?.any p = true) :
    (xs ++ ys).getLast?.any p = true := by
  cases hlast : ys.getLast? with
  | none =>
    rw [hlast] at h
    cases h
  | some c =>
    rw [hlast] at h
    rw [List.getLast?_append, hlast, Option.some_or, h]

theorem getLast?_shape : ∀ t : Ty, (shape t).toList.getLast?.any (lastLetters.contains ·) = true
  | .bool | .int | .string | .void | .any | .list _ | .map .. | .struct .. | .enum .. | .metatype _ => by
    unfold shape
    decide
  | .function ps ls r => by
    have hparts : (shape (.function ps ls r)).toList =
        ('f' :: 'n' :: '_' :: (shapes ps).toList ++ ['t', 'o', '_']) ++ (shape r).toList := by
      rw [toList_shape_function]
      simp
    rw [hparts]
    exact any_getLast?_append _ (getLast?_shape r)

theorem toList_name (f : Signature) : f.typedef.name.toList = "venice_".toList ++ (shape f.type).toList :=
  String.toList_append

theorem name_starts (f : Signature) : "venice_fn_".toList <+: f.typedef.name.toList := by
  rw [toList_name, Signature.type, toList_shape_function]
  exact ⟨_, rfl⟩

theorem continuesName_name (f : Signature) : ∀ c ∈ f.typedef.name.toList, continuesName c = true := by
  rw [toList_name]
  exact List.forall_mem_append.mpr ⟨List.all_eq_true.mp (by decide), continuesName_shape _⟩

theorem getLast?_name (f : Signature) : f.typedef.name.toList.getLast?.any (lastLetters.contains ·) = true := by
  rw [toList_name]
  exact any_getLast?_append _ (getLast?_shape f.type)

end Letters

end Native

end Gondola
