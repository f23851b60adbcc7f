import Gondola.Ty

/-! Which types fit each other. -/
namespace Gondola.Ty

mutual
def unlabelled : Ty → Ty
  | bool => bool
  | int => int
  | string => string
  | void => void
  | any => any
  | list t => list t.unlabelled
  | map k v => map k.unlabelled v.unlabelled
  | function ps _ r => function (allUnlabelled ps) [] r.unlabelled
  | struct n fs => struct n (fieldsUnlabelled fs)
  | enum n cs => enum n (casesUnlabelled cs)
  | metatype t => metatype t.unlabelled
def allUnlabelled : List Ty → List Ty
  | [] => []
  | t :: ts => t.unlabelled :: allUnlabelled ts
def fieldsUnlabelled : List (String × Ty) → List (String × Ty)
  | [] => []
  | (n, t) :: fs => (n, t.unlabelled) :: fieldsUnlabelled fs
def casesUnlabelled : List (String × List Ty) → List (String × List Ty)
  | [] => []
  | (n, ts) :: cs => (n, allUnlabelled ts) :: casesUnlabelled cs
end

mutual
theorem same_iff : ∀ {a b : Ty}, a.same b = true ↔ a.unlabelled = b.unlabelled
  | bool, b | int, b | string, b | void, b | any, b => by cases b <;> simp [same, unlabelled]
  | list t, b | metatype t, b => by cases b <;> simp [same, unlabelled, @same_iff t]
  | map k v, b => by cases b <;> simp [same, unlabelled, @same_iff k, @same_iff v]
  | function ps _ r, b => by cases b <;> simp [same, unlabelled, @sameAll_iff ps, @same_iff r]
  | struct n fs, b => by cases b <;> simp [same, unlabelled, @sameFields_iff fs]
  | enum n cs, b => by cases b <;> simp [same, unlabelled, @sameCases_iff cs]
theorem sameAll_iff : ∀ {ts us : List Ty}, sameAll ts us = true ↔ allUnlabelled ts = allUnlabelled us
  | [], us => by cases us <;> simp [sameAll, allUnlabelled]
  | t :: ts, us => by cases us <;> simp [sameAll, allUnlabelled, @same_iff t, @sameAll_iff ts]
theorem sameFields_iff : ∀ {fs gs : List (String × Ty)},
    sameFields fs gs = true ↔ fieldsUnlabelled fs = fieldsUnlabelled gs
  | [], gs => by cases gs <;> simp [sameFields, fieldsUnlabelled]
  | (n, t) :: fs, gs => by
    obtain _ | ⟨⟨m, u⟩, gs⟩ := gs <;>
      simp [sameFields, fieldsUnlabelled, @same_iff t, @sameFields_iff fs]
theorem sameCases_iff : ∀ {cs ds : List (String × List Ty)},
    sameCases cs ds = true ↔ casesUnlabelled cs = casesUnlabelled ds
  | [], ds => by cases ds <;> simp [sameCases, casesUnlabelled]
  | (n, ts) :: cs, ds => by
    obtain _ | ⟨⟨m, us⟩, ds⟩ := ds <;>
      simp [sameCases, casesUnlabelled, @sameAll_iff ts, @sameCases_iff cs]
end

theorem same_refl (t : Ty) : t.same t = true := same_iff.mpr rfl

theorem compatible_any (t : Ty) : t.compatible any = true := by
  cases t <;> simp only [compatible]

theorem any_compatible (t : Ty) : any.compatible t = true := by simp only [compatible]

theorem unify_eq_some {a b c : Ty} (h : a.unify b = some c) :
    a.compatible b = true ∧ (a ≠ any ∧ c = a ∨ a = any ∧ c = b) := by
  unfold unify at h
  split at h
  · rename_i hc
    refine ⟨hc, ?_⟩
    split at h
    · obtain rfl := Option.some.inj h
      exact .inr ⟨rfl, rfl⟩
    · rename_i hne
      obtain rfl := Option.some.inj h
      exact .inl ⟨hne, rfl⟩
  · cases h

mutual
def known : Ty → Bool
  | bool | int | string | void => true
  | any => false
  | list t | metatype t => t.known
  | map k v => k.known && v.known
  | function ps _ r => allKnown ps && r.known
  | struct _ fs => fieldsKnown fs
  | enum _ cs => casesKnown cs
def allKnown : List Ty → Bool
  | [] => true
  | t :: ts => t.known && allKnown ts
def fieldsKnown : List (String × Ty) → Bool
  | [] => true
  | (_, t) :: fs => t.known && fieldsKnown fs
def casesKnown : List (String × List Ty) → Bool
  | [] => true
  | (_, ts) :: cs => allKnown ts && casesKnown cs
end

theorem allKnown_iff {ts : List Ty} : allKnown ts = true ↔ ∀ t ∈ ts, t.known = true := by
  induction ts with
  | nil => simp [allKnown]
  | cons t ts ih => simp [allKnown, ih]

theorem fieldsKnown_iff {fs : List (String × Ty)} :
    fieldsKnown fs = true ↔ ∀ f ∈ fs, f.2.known = true := by
  induction fs with
  | nil => simp [fieldsKnown]
  | cons f fs ih => simp [fieldsKnown, ih]

theorem casesKnown_iff {cs : List (String × List Ty)} :
    casesKnown cs = true ↔ ∀ c ∈ cs, allKnown c.2 = true := by
  induction cs with
  | nil => simp [casesKnown]
  | cons c cs ih => simp [casesKnown, ih]

end Gondola.Ty
