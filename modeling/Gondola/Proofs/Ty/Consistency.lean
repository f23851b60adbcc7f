import Gondola.Proofs.Ty
import Mathlib.Data.List.Forall2

/-! Compatibility of types that are known in part. Two types are compatible if some type stands above both: if they can
be filled in to become one. -/
namespace Gondola.Ty

/-- The second type arises from the first one by filling in open parts. Labels do not count. Nothing is filled in
inside of an enum, so that only the same enum stands above it. -/
inductive Below : Ty → Ty → Prop
  | any {t} : Below .any t
  | bool : Below .bool .bool
  | int : Below .int .int
  | string : Below .string .string
  | void : Below .void .void
  | list {t u} (h : Below t u) : Below (.list t) (.list u)
  | map {k v k' v'} (hk : Below k k') (hv : Below v v') : Below (.map k v) (.map k' v')
  | function {ps qs ls ms r s} (hps : List.Forall₂ Below ps qs) (hr : Below r s) :
      Below (.function ps ls r) (.function qs ms s)
  | struct {n fs gs} (hnames : fs.map Prod.fst = gs.map Prod.fst)
      (htypes : List.Forall₂ Below (fs.map Prod.snd) (gs.map Prod.snd)) : Below (.struct n fs) (.struct n gs)
  | enum {n cs ds} (h : sameCases cs ds = true) : Below (.enum n cs) (.enum n ds)
  | metatype {t u} (h : Below t u) : Below (.metatype t) (.metatype u)

/-- The same fields, with types that stand below those of the others. -/
def BelowFields (fs gs : List (String × Ty)) : Prop :=
  fs.map Prod.fst = gs.map Prod.fst ∧ List.Forall₂ Below (fs.map Prod.snd) (gs.map Prod.snd)

theorem BelowFields.cons {n : String} {t u : Ty} {fs gs : List (String × Ty)} (h : Below t u) (hs : BelowFields fs gs) :
    BelowFields ((n, t) :: fs) ((n, u) :: gs) :=
  ⟨congrArg (n :: ·) hs.1, .cons h hs.2⟩

theorem BelowFields.of_cons {n : String} {t : Ty} {fs gs : List (String × Ty)} (h : BelowFields ((n, t) :: fs) gs) :
    ∃ u gs', gs = (n, u) :: gs' ∧ Below t u ∧ BelowFields fs gs' := by
  obtain ⟨hnames, htypes⟩ := h
  cases gs with
  | nil => cases hnames
  | cons g gs =>
    obtain ⟨m, u⟩ := g
    obtain ⟨hname, hrest⟩ := List.cons.inj hnames
    obtain rfl : n = m := hname
    cases htypes with
    | cons ht hts => exact ⟨u, gs, rfl, ht, hrest, hts⟩

mutual
theorem below_of_same : ∀ {a b : Ty}, a.same b = true → Below a b
  | .any, _, _ => .any
  | .bool, b, h => by
    cases b <;> simp only [same, Bool.false_eq_true] at h
    exact .bool
  | .int, b, h => by
    cases b <;> simp only [same, Bool.false_eq_true] at h
    exact .int
  | .string, b, h => by
    cases b <;> simp only [same, Bool.false_eq_true] at h
    exact .string
  | .void, b, h => by
    cases b <;> simp only [same, Bool.false_eq_true] at h
    exact .void
  | .list t, b, h => by
    cases b <;> simp only [same, Bool.false_eq_true] at h
    exact .list (below_of_same h)
  | .metatype t, b, h => by
    cases b <;> simp only [same, Bool.false_eq_true] at h
    exact .metatype (below_of_same h)
  | .map k v, b, h => by
    cases b <;> simp only [same, Bool.and_eq_true, Bool.false_eq_true] at h
    exact .map (below_of_same h.1) (below_of_same h.2)
  | .function ps ls r, b, h => by
    cases b <;> simp only [same, Bool.and_eq_true, Bool.false_eq_true] at h
    exact .function (below_of_sameAll h.1) (below_of_same h.2)
  | .struct n fs, b, h => by
    cases b <;> simp only [same, Bool.and_eq_true, beq_iff_eq, Bool.false_eq_true] at h
    obtain ⟨rfl, hfs⟩ := h
    have hbelow := belowFields_of_same hfs
    exact .struct hbelow.1 hbelow.2
  | .enum n cs, b, h => by
    cases b <;> simp only [same, Bool.and_eq_true, beq_iff_eq, Bool.false_eq_true] at h
    obtain ⟨rfl, hcs⟩ := h
    exact .enum hcs
theorem below_of_sameAll : ∀ {ts us : List Ty}, sameAll ts us = true → List.Forall₂ Below ts us
  | [], us, h => by
    cases us <;> simp_all [sameAll]
  | t :: ts, us, h => by
    cases us <;> simp only [sameAll, Bool.and_eq_true, Bool.false_eq_true] at h
    exact .cons (below_of_same h.1) (below_of_sameAll h.2)
theorem belowFields_of_same : ∀ {fs gs : List (String × Ty)}, sameFields fs gs = true → BelowFields fs gs
  | [], gs, h => by
    cases gs <;> simp_all [sameFields, BelowFields]
  | (n, t) :: fs, gs, h => by
    obtain _ | ⟨⟨m, u⟩, gs⟩ := gs <;>
      simp only [sameFields, Bool.and_eq_true, beq_iff_eq, Bool.false_eq_true] at h
    obtain ⟨⟨rfl, ht⟩, hfs⟩ := h
    exact (belowFields_of_same hfs).cons (below_of_same ht)
end

theorem Below.refl (t : Ty) : Below t t := below_of_same (same_refl t)

mutual
theorem compatible_of_below : ∀ {a b t : Ty}, Below a t → Below b t → a.compatible b = true
  | .any, b, _, _, _ => any_compatible b
  | .bool, _, _, .bool, hb | .int, _, _, .int, hb | .string, _, _, .string, hb | .void, _, _, .void, hb => by
    cases hb <;> simp only [compatible]
  | .list _, _, _, .list ha, hb => by
    -- What stands below a list is a list, or is open altogether and then compatible with everything.
    cases hb with
    | any => exact compatible_any _
    | list hb =>
      simp only [compatible]
      exact compatible_of_below ha hb
  | .metatype _, _, _, .metatype ha, hb => by
    cases hb with
    | any => exact compatible_any _
    | metatype hb =>
      simp only [compatible]
      exact compatible_of_below ha hb
  | .map _ _, _, _, .map hk hv, hb => by
    cases hb with
    | any => exact compatible_any _
    | map hk' hv' =>
      simp only [compatible, Bool.and_eq_true]
      exact ⟨compatible_of_below hk hk', compatible_of_below hv hv'⟩
  | .function _ _ _, _, _, .function hps hr, hb => by
    cases hb with
    | any => exact compatible_any _
    | function hqs hs =>
      simp only [compatible, Bool.and_eq_true]
      exact ⟨compatible_of_below hr hs, compatibleAll_of_below hps hqs⟩
  | .struct _ _, _, _, .struct hnames htypes, hb => by
    cases hb with
    | any => exact compatible_any _
    | struct hnames' htypes' =>
      simp only [compatible, Bool.and_eq_true, beq_self_eq_true, true_and]
      exact compatibleFields_of_below ⟨hnames, htypes⟩ ⟨hnames', htypes'⟩
  | .enum _ _, _, _, .enum ha, hb => by
    cases hb with
    | any => exact compatible_any _
    | enum hb =>
      -- Both have the cases of the enum above them.
      simp only [compatible, Bool.and_eq_true, beq_self_eq_true, true_and]
      exact sameCases_iff.mpr ((sameCases_iff.mp ha).trans (sameCases_iff.mp hb).symm)
theorem compatibleAll_of_below : ∀ {as bs ts : List Ty}, List.Forall₂ Below as ts →
    List.Forall₂ Below bs ts → compatibleAll as bs = true
  | [], _, _, .nil, .nil => rfl
  | _ :: _, _, _, .cons ha has, .cons hb hbs => by
    simp only [compatibleAll, Bool.and_eq_true]
    exact ⟨compatible_of_below ha hb, compatibleAll_of_below has hbs⟩
theorem compatibleFields_of_below : ∀ {fs gs hs : List (String × Ty)}, BelowFields fs hs →
    BelowFields gs hs → compatibleFields fs gs = true
  | [], gs, hs, hf, hg => by
    cases hs with
    | nil =>
      obtain rfl := List.map_eq_nil_iff.mp hg.1
      rfl
    | cons => cases hf.1
  | (n, t) :: fs, gs, hs, hf, hg => by
    obtain ⟨u, hs, rfl, ht, hfs⟩ := hf.of_cons
    cases gs with
    | nil => cases hg.1
    | cons g gs =>
      obtain ⟨m, v⟩ := g
      -- The first field above both is one and the same, and so has one name and one type.
      obtain ⟨w, hs', heq, hv, hgs⟩ := hg.of_cons
      obtain ⟨hhead, rfl⟩ := List.cons.inj heq
      obtain ⟨rfl, rfl⟩ := Prod.mk.inj hhead
      simp only [compatibleFields, Bool.and_eq_true, beq_self_eq_true, true_and]
      exact ⟨compatible_of_below ht hv, compatibleFields_of_below hfs hgs⟩
end

theorem compatible_refl (t : Ty) : t.compatible t = true := compatible_of_below (.refl t) (.refl t)

mutual
/-- Compatible types can be filled in to become one, which is the first of them if nothing is open in it. -/
theorem exists_above_known : ∀ {a b : Ty}, a.compatible b = true →
    ∃ t, Below a t ∧ Below b t ∧ (a.known = true → t = a)
  | .any, b, _ => ⟨b, .any, .refl b, by simp only [known, Bool.false_eq_true, false_implies]⟩
  | .bool, b, h | .int, b, h | .string, b, h | .void, b, h => by
    -- Two cases remain: the same type once more, and a type that is open.
    cases b <;> simp only [compatible, Bool.false_eq_true] at h
    · exact ⟨_, .refl _, .refl _, fun _ => rfl⟩
    · exact ⟨_, .refl _, .any, fun _ => rfl⟩
  | .list t, b, h => by
    cases b <;> simp only [compatible, Bool.false_eq_true] at h
    · exact ⟨_, .refl _, .any, fun _ => rfl⟩
    obtain ⟨w, ht, hu, hw⟩ := exists_above_known h
    exact ⟨_, .list ht, .list hu, by simpa only [known, list.injEq] using hw⟩
  | .metatype t, b, h => by
    cases b <;> simp only [compatible, Bool.false_eq_true] at h
    · exact ⟨_, .refl _, .any, fun _ => rfl⟩
    obtain ⟨w, ht, hu, hw⟩ := exists_above_known h
    exact ⟨_, .metatype ht, .metatype hu, by simpa only [known, metatype.injEq] using hw⟩
  | .map k v, b, h => by
    cases b <;> simp only [compatible, Bool.and_eq_true, Bool.false_eq_true] at h
    · exact ⟨_, .refl _, .any, fun _ => rfl⟩
    obtain ⟨w, hk, hk', hw⟩ := exists_above_known h.1
    obtain ⟨x, hv, hv', hx⟩ := exists_above_known h.2
    refine ⟨_, .map hk hv, .map hk' hv', ?_⟩
    simp only [known, Bool.and_eq_true, map.injEq]
    exact And.imp hw hx
  | .function ps ls r, b, h => by
    cases b <;> simp only [compatible, Bool.and_eq_true, Bool.false_eq_true] at h
    · exact ⟨_, .refl _, .any, fun _ => rfl⟩
    obtain ⟨w, hr, hs, hw⟩ := exists_above_known h.1
    obtain ⟨ws, hps, hqs, hws⟩ := exists_allAbove h.2
    -- Any labels will do, so take those of the first function.
    refine ⟨.function ws ls w, .function hps hr, .function hqs hs, ?_⟩
    simp only [known, Bool.and_eq_true, function.injEq, true_and]
    exact And.imp hws hw
  | .struct n fs, b, h => by
    cases b <;> simp only [compatible, Bool.and_eq_true, beq_iff_eq, Bool.false_eq_true] at h
    · exact ⟨_, .refl _, .any, fun _ => rfl⟩
    obtain ⟨rfl, hfields⟩ := h
    obtain ⟨ws, hfs, hgs, hws⟩ := exists_fieldsAbove hfields
    refine ⟨.struct n ws, .struct hfs.1 hfs.2, .struct hgs.1 hgs.2, ?_⟩
    simpa only [known, struct.injEq, true_and] using hws
  | .enum n cs, b, h => by
    cases b <;> simp only [compatible, Bool.and_eq_true, beq_iff_eq, Bool.false_eq_true] at h
    · exact ⟨_, .refl _, .any, fun _ => rfl⟩
    -- Enums that have the same cases stand above each other.
    obtain ⟨rfl, hcs⟩ := h
    exact ⟨_, .refl _, .enum (sameCases_iff.mpr (sameCases_iff.mp hcs).symm), fun _ => rfl⟩
theorem exists_allAbove : ∀ {as bs : List Ty}, compatibleAll as bs = true →
    ∃ ts, List.Forall₂ Below as ts ∧ List.Forall₂ Below bs ts ∧ (allKnown as = true → ts = as)
  | [], bs, h => by
    cases bs with
    | nil => exact ⟨[], .nil, .nil, fun _ => rfl⟩
    | cons => cases h
  | a :: as, bs, h => by
    cases bs <;> simp only [compatibleAll, Bool.and_eq_true, Bool.false_eq_true] at h
    obtain ⟨t, ha, hb, ht⟩ := exists_above_known h.1
    obtain ⟨ts, has, hbs, hts⟩ := exists_allAbove h.2
    refine ⟨t :: ts, .cons ha has, .cons hb hbs, ?_⟩
    simp only [allKnown, Bool.and_eq_true, List.cons.injEq]
    exact And.imp ht hts
theorem exists_fieldsAbove : ∀ {fs gs : List (String × Ty)}, compatibleFields fs gs = true →
    ∃ hs, BelowFields fs hs ∧ BelowFields gs hs ∧ (fieldsKnown fs = true → hs = fs)
  | [], gs, h => by
    cases gs with
    | nil => exact ⟨[], ⟨rfl, .nil⟩, ⟨rfl, .nil⟩, fun _ => rfl⟩
    | cons => cases h
  | (n, t) :: fs, gs, h => by
    obtain _ | ⟨⟨m, u⟩, gs⟩ := gs <;>
      simp only [compatibleFields, Bool.and_eq_true, beq_iff_eq, Bool.false_eq_true] at h
    obtain ⟨⟨rfl, ht⟩, hfields⟩ := h
    obtain ⟨w, ht, hu, hw⟩ := exists_above_known ht
    obtain ⟨ws, hfs, hgs, hws⟩ := exists_fieldsAbove hfields
    refine ⟨(n, w) :: ws, hfs.cons ht, hgs.cons hu, ?_⟩
    simp only [fieldsKnown, Bool.and_eq_true, List.cons.injEq, Prod.mk.injEq, true_and]
    exact And.imp hw hws
end

theorem exists_above {a b : Ty} (h : a.compatible b = true) : ∃ t, Below a t ∧ Below b t := by
  obtain ⟨t, ha, hb, -⟩ := exists_above_known h
  exact ⟨t, ha, hb⟩

theorem below_of_compatible {a b : Ty} (ha : a.known = true) (h : a.compatible b = true) : Below b a := by
  obtain ⟨t, -, hb, ht⟩ := exists_above_known h
  rwa [ht ha] at hb

mutual
theorem same_of_below : ∀ {a t : Ty}, Below a t → a.known = true → a.same t = true
  | _, _, .any, h => by simp only [known, Bool.false_eq_true] at h
  | _, _, .bool, _ | _, _, .int, _ | _, _, .string, _ | _, _, .void, _ => by simp only [same]
  | .list _, _, .list hb, h | .metatype _, _, .metatype hb, h => by
    simp only [known, same] at h ⊢
    exact same_of_below hb h
  | .map _ _, _, .map hk hv, h => by
    simp only [known, same, Bool.and_eq_true] at h ⊢
    exact ⟨same_of_below hk h.1, same_of_below hv h.2⟩
  | .function _ _ _, _, .function hps hr, h => by
    simp only [known, same, Bool.and_eq_true] at h ⊢
    exact ⟨sameAll_of_below hps h.1, same_of_below hr h.2⟩
  | .struct _ _, _, .struct hnames htypes, h => by
    simp only [known, same, Bool.and_eq_true] at h ⊢
    exact ⟨beq_self_eq_true _, sameFields_of_below ⟨hnames, htypes⟩ h⟩
  | _, _, .enum hcs, _ => by simp only [same, beq_self_eq_true, hcs, Bool.and_self]
theorem sameAll_of_below : ∀ {as ts : List Ty}, List.Forall₂ Below as ts → allKnown as = true → sameAll as ts = true
  | _, _, .nil, _ => by simp only [sameAll, List.isEmpty_nil]
  | _ :: _, _, .cons ha has, h => by
    simp only [allKnown, sameAll, Bool.and_eq_true] at h ⊢
    exact ⟨same_of_below ha h.1, sameAll_of_below has h.2⟩
theorem sameFields_of_below : ∀ {fs gs : List (String × Ty)}, BelowFields fs gs → fieldsKnown fs = true →
    sameFields fs gs = true
  | [], gs, hb, _ => by
    obtain rfl := List.map_eq_nil_iff.mp hb.1.symm
    simp only [sameFields, List.isEmpty_nil]
  | (n, t) :: fs, gs, hb, h => by
    obtain ⟨u, gs, rfl, ht, hfs⟩ := hb.of_cons
    simp only [fieldsKnown, sameFields, beq_self_eq_true, Bool.true_and, Bool.and_eq_true] at h ⊢
    exact ⟨same_of_below ht h.1, sameFields_of_below hfs h.2⟩
end

theorem compatible_symm {a b : Ty} (h : a.compatible b = true) : b.compatible a = true := by
  obtain ⟨t, ha, hb⟩ := exists_above h
  exact compatible_of_below hb ha

theorem same_of_compatible {a b : Ty} (ha : a.known = true) (hb : b.known = true) (h : a.compatible b = true) :
    a.same b = true :=
  same_of_below (below_of_compatible hb (compatible_symm h)) ha

theorem compatible_of_known {r a b : Ty} (hr : r.known = true) (ha : r.compatible a = true)
    (hb : r.compatible b = true) : a.compatible b = true :=
  compatible_of_below (below_of_compatible hr ha) (below_of_compatible hr hb)

theorem compatible_of_same {a b : Ty} (h : a.same b = true) : a.compatible b = true :=
  compatible_of_below (below_of_same h) (.refl b)

theorem isSome_unify (a b : Ty) : (a.unify b).isSome = a.compatible b := by
  unfold unify
  split
  · rename_i h
    rw [h]
    split <;> rfl
  · rename_i h
    rw [Bool.not_eq_true] at h
    rw [h]
    rfl

theorem compatible_of_unify {a b c : Ty} (h : a.unify b = some c) :
    c.compatible a = true ∧ c.compatible b = true := by
  obtain ⟨hab, ⟨-, rfl⟩ | ⟨rfl, rfl⟩⟩ := unify_eq_some h
  · exact ⟨compatible_refl _, hab⟩
  · exact ⟨compatible_any _, compatible_refl _⟩

/-- Two types are compatible if and only if some type stands above both. So each type is compatible with itself, no
matter which of two types comes first, and where nothing is open only the same types are compatible. Types that share
a type are those that are compatible, and what they share is compatible with both. -/
theorem compatible_iff_exists_above (a b : Ty) :
    (a.compatible b = true ↔ ∃ t, Below a t ∧ Below b t) ∧
    a.compatible a = true ∧
    a.compatible b = b.compatible a ∧
    (a.known = true → b.known = true → a.compatible b = a.same b) ∧
    (a.unify b).isSome = a.compatible b ∧
    ∀ c, a.unify b = some c → c.compatible a = true ∧ c.compatible b = true := by
  refine ⟨⟨exists_above, ?_⟩, compatible_refl a, ?_, ?_, isSome_unify a b, fun c => compatible_of_unify⟩
  · rintro ⟨t, ha, hb⟩
    exact compatible_of_below ha hb
  · rw [Bool.eq_iff_iff]
    exact ⟨compatible_symm, compatible_symm⟩
  · intro ha hb
    rw [Bool.eq_iff_iff]
    exact ⟨same_of_compatible ha hb, compatible_of_same⟩

/-- Functions that are open in different places, with different labels. -/
theorem compatible_iff_exists_above_functions :
    let a := Ty.function [.list .any, .struct "P" [("x", .any)]] [some "items", none] .int
    let b := Ty.function [.list .bool, .struct "P" [("x", .string)]] [none, some "p"] .any
    (∃ t, Below a t ∧ Below b t) ∧ b.compatible a = true ∧ a.unify b = some a := by
  intro a b
  have hab : a.compatible b = true := by decide
  obtain ⟨habove, -, hsymm, -⟩ := compatible_iff_exists_above a b
  exact ⟨habove.mp hab, hsymm ▸ hab, rfl⟩

end Gondola.Ty
