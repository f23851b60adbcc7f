import Gondola.Proofs.Ty.Consistency
import Mathlib.Data.List.Pairwise
import Mathlib.Data.List.Perm.Basic

/-! The type that several types share: the first of them that is not open as a whole, which each of them has to fit.
That they fit each other is a stronger condition, since fitting is not transitive. -/
namespace Gondola.Ty

/-- The first of the types that is not open as a whole. -/
def leading : List Ty → Ty
  | [] => any
  | t :: ts => match t with
    | any => leading ts
    | _ => t

theorem leading_cons_of_ne {t : Ty} (ht : t ≠ any) (ts : List Ty) : leading (t :: ts) = t := by
  unfold leading
  split
  · exact absurd rfl ht
  · rfl

theorem leading_append_of_ne {ts : List Ty} (h : leading ts ≠ any) (us : List Ty) :
    leading (ts ++ us) = leading ts := by
  fun_induction leading ts with
  | case1 => exact absurd rfl h
  | case2 ts ih => exact ih h
  | case3 t ts ht => exact leading_cons_of_ne ht (ts ++ us)

theorem leading_mem (ts : List Ty) : leading ts = any ∨ leading ts ∈ ts := by
  fun_induction leading ts with
  | case1 => exact .inl rfl
  | case2 ts ih => exact ih.imp_right (List.mem_cons_of_mem any)
  | case3 t ts => exact .inr List.mem_cons_self

/-- Every type fits the one that they share. -/
def Merge (ts : List Ty) : Prop := ∀ t ∈ ts, (leading ts).compatible t = true

/-- Every two of the types fit each other. -/
def Agree (ts : List Ty) : Prop := ts.Pairwise fun t u => t.compatible u = true

instance (ts : List Ty) : Decidable (Merge ts) :=
  inferInstanceAs (Decidable (∀ t ∈ ts, (leading ts).compatible t = true))

instance (ts : List Ty) : Decidable (Agree ts) :=
  inferInstanceAs (Decidable (ts.Pairwise fun t u => t.compatible u = true))

instance : Std.Symm fun t u : Ty => t.compatible u = true := ⟨fun _ _ => compatible_symm⟩

theorem merge_of_leading {ts : List Ty} (h : leading ts = any) : Merge ts := by
  intro t _
  rw [h]
  exact any_compatible t

theorem Agree.perm {ts us : List Ty} (h : Agree ts) (hp : ts.Perm us) : Agree us :=
  (hp.pairwise_iff compatible_symm).mp h

/-- Types that agree merge, since the shared type is one of them. -/
theorem Agree.merge {ts : List Ty} (h : Agree ts) : Merge ts := by
  obtain hany | hmem := leading_mem ts
  · exact merge_of_leading hany
  · intro t ht
    exact h.forall_of_forall (fun t _ => compatible_refl t) hmem ht

theorem Merge.agree {ts : List Ty} (h : Merge ts) (hknown : (leading ts).known = true) : Agree ts :=
  List.pairwise_of_forall_mem_list fun t ht u hu => compatible_of_known hknown (h t ht) (h u hu)

theorem forall_merge_iff_agree {α : Type} (type : α → Ty) {as : List α} :
    (∀ bs : List α, bs.Perm as → Merge (bs.map type)) ↔ Agree (as.map type) := by
  constructor
  · intro h
    induction as with
    | nil => exact .nil
    | cons a as ih =>
      rw [List.map_cons]
      apply List.Pairwise.cons
      · intro u hu
        by_cases ha : type a = any
        · rw [ha]
          exact any_compatible u
        · have hfits := h (a :: as) (.refl _) u (List.mem_cons_of_mem _ hu)
          rwa [List.map_cons, leading_cons_of_ne ha] at hfits
      · apply ih
        intro bs hbs
        by_cases hl : leading (bs.map type) = any
        · exact merge_of_leading hl
        · -- With `a` behind them, the types share what they share alone.
          have hlast : (bs ++ [a]).Perm (a :: as) :=
            (List.perm_append_singleton a bs).trans (hbs.cons a)
          have hmerge := h (bs ++ [a]) hlast
          rw [Merge, List.map_append, leading_append_of_ne hl] at hmerge
          intro u hu
          exact hmerge u (List.mem_append_left _ hu)
  · intro h bs hbs
    exact (h.perm (hbs.symm.map type)).merge

theorem foldlM_unify_of_ne {t : Ty} (ht : t ≠ any) {us : List Ty} {r : Ty} :
    us.foldlM unify t = some r ↔ r = t ∧ ∀ u ∈ us, t.compatible u = true := by
  induction us with
  | nil =>
    rw [List.foldlM_nil]
    simpa using eq_comm
  | cons u us ih =>
    rw [List.foldlM_cons]
    by_cases hu : t.compatible u = true
    · have hstep : t.unify u = some t := by
        unfold unify
        rw [if_pos hu]
        split
        · exact absurd rfl ht
        · rfl
      rw [hstep]
      change us.foldlM unify t = some r ↔ _
      simp [ih, hu]
    · have hstep : t.unify u = none := by
        unfold unify
        rw [if_neg hu]
      rw [hstep]
      change none = some r ↔ _
      simp [hu]

theorem foldlM_unify_eq_some_iff {ts : List Ty} {r : Ty} :
    ts.foldlM unify any = some r ↔ r = leading ts ∧ Merge ts := by
  fun_induction leading ts with
  | case1 =>
    rw [List.foldlM_nil]
    simpa [Merge] using eq_comm
  | case2 ts ih =>
    have hcons : Merge (any :: ts) ↔ Merge ts := by
      simp only [Merge, leading, List.forall_mem_cons, compatible_any, true_and]
    rw [hcons, ← ih]
    rfl
  | case3 t ts ht =>
    rw [List.foldlM_cons, show any.unify t = some t from rfl]
    change ts.foldlM unify t = some r ↔ _
    rw [foldlM_unify_of_ne ht, Merge, leading_cons_of_ne ht, List.forall_mem_cons]
    simp only [compatible_refl, true_and]

end Gondola.Ty
