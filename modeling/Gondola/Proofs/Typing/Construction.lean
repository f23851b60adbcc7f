import Gondola.Proofs.Typing.Notes
import Mathlib.Data.List.Nodup

/-! Constructions of structs. The order of the arguments does not matter: neither to whether a construction is accepted,
nor to what is noted. -/
namespace Gondola

def Argument.labels (as : List Argument) : List String := as.filterMap fun a => a.label.map Ident.name

theorem Argument.labels_cons {a : Argument} {x : Ident} (hx : a.label = some x) (as : List Argument) :
    Argument.labels (a :: as) = x.name :: Argument.labels as := by
  simp [Argument.labels, hx]

namespace Checker

def notedArguments (scope : Nat) (S : Scopes Declared) (as : List Argument) (T : TypeTable) : TypeTable :=
  as.foldl (fun T a => (noted scope S a.value).onto T) T

section Order

variable {scope : Nat} {S : Scopes Declared} {as as' : List Argument} {T T' : TypeTable}

theorem entry_onto_congr (A : TypeTable) (h : ∀ id, T.entry id = T'.entry id) (id : Nat) :
    (A.onto T).entry id = (A.onto T').entry id := by
  rw [TypeTable.entry_onto, TypeTable.entry_onto, h]

theorem entry_onto_swap {A B : TypeTable} {ids ids' : List Nat} (hA : A.Of ids) (hB : B.Of ids')
    (hdisj : ids.Disjoint ids') (T : TypeTable) (id : Nat) :
    (A.onto (B.onto T)).entry id = (B.onto (A.onto T)).entry id := by
  -- At most one of the two tables says anything of the number, and where it stands makes no difference then.
  by_cases hid : id ∈ ids
  · have hid' : id ∉ ids' := fun h => hdisj hid h
    rw [hB.entry_onto hid', TypeTable.entry_onto A, TypeTable.entry_onto A, hB.entry_onto hid']
  · rw [hA.entry_onto hid, TypeTable.entry_onto B, TypeTable.entry_onto B, hA.entry_onto hid]

theorem entry_notedArguments_congr (as : List Argument) (h : ∀ id, T.entry id = T'.entry id) :
    ∀ id, (notedArguments scope S as T).entry id = (notedArguments scope S as T').entry id := by
  induction as generalizing T T' with
  | nil => exact h
  | cons a as ih => exact ih (entry_onto_congr _ h)

theorem entry_notedArguments_perm (hp : as.Perm as') (hn : (as.flatMap fun a => a.value.ids).Nodup) (T : TypeTable)
    (id : Nat) : (notedArguments scope S as T).entry id = (notedArguments scope S as' T).entry id := by
  induction hp generalizing T with
  | nil => rfl
  | cons a hp ih => exact ih (List.nodup_append.mp hn).2.1 _
  | swap a b as =>
    -- The two write under different numbers, and what is checked after them goes by what the table says only.
    have hdisj : b.value.ids.Disjoint a.value.ids := by
      rw [List.flatMap_cons, List.flatMap_cons, ← List.append_assoc] at hn
      exact List.disjoint_of_nodup_append (List.nodup_append.mp hn).1
    exact entry_notedArguments_congr as
      (entry_onto_swap (noted_of scope S a.value) (noted_of scope S b.value) (fun _ ha hb => hdisj hb ha) T) id
  | trans hp _ ih ih' => exact (ih hn T).trans (ih' ((hp.flatMap_right _).nodup_iff.mp hn) T)

theorem types_notedArguments (as : List Argument) (T : TypeTable) :
    (notedArguments scope S as T).types =
      (as.reverse.flatMap fun a => (noted scope S a.value).types) ++ T.types := by
  induction as generalizing T with
  | nil => rfl
  | cons a as ih =>
    rw [notedArguments, List.foldl_cons, ← notedArguments, ih, TypeTable.onto, List.reverse_cons,
      List.flatMap_append, List.flatMap_singleton, List.append_assoc]

theorem types_notedArguments_perm (hp : as.Perm as') (T : TypeTable) :
    (notedArguments scope S as T).types.Perm (notedArguments scope S as' T).types := by
  rw [types_notedArguments, types_notedArguments]
  have hreverse : as.reverse.Perm as'.reverse := (as.reverse_perm.trans hp).trans as'.reverse_perm.symm
  exact (hreverse.flatMap_right _).append_right T.types

end Order

section Fields

variable {scope : Nat} {fields : List (String × Ty)} {struct : String}

/-- The argument is labelled with a field, and its value fits that field where the scopes are those. -/
def Suits (scope : Nat) (S : Scopes Declared) (fields : List (String × Ty)) (a : Argument) : Prop :=
  ∃ x t u, a.label = some x ∧ fields.lookup x.name = some t ∧ found? scope S a.value = some u ∧
    t.compatible u = true

theorem expect_ok_iff {t u : Ty} {span : Span} {c c' : Checker} :
    expect t u span c = .ok ((), c') ↔ t.compatible u = true ∧ c' = c := by
  unfold expect
  split
  · rename_i h
    rw [pure_eq_ok]
    simp [h, eq_comm]
  · rename_i h
    constructor
    · exact fun hr => absurd hr throw_ne_ok
    · exact fun hc => absurd hc.1 h

theorem checkFields_cons_ok_iff {given given' : List String} {a : Argument} {as : List Argument} {c c' : Checker} :
    checkFields scope struct fields given (a :: as) c = .ok (given', c') ↔
      Suits scope c.scopes fields a ∧ ∃ x, a.label = some x ∧ x.name ∉ given ∧
        checkFields scope struct fields (x.name :: given) as
          ⟨c.scopes, (noted scope c.scopes a.value).onto c.table⟩ = .ok (given', c') := by
  obtain ⟨_ | x, value⟩ := a
  · -- An argument without a label is refused.
    rw [checkFields]
    constructor
    · exact fun h => absurd h throw_ne_ok
    · rintro ⟨-, x, hx, -⟩
      cases hx
  · rw [checkFields]
    cases hl : fields.lookup x.name with
    | none =>
      -- There is no such field.
      constructor
      · exact fun h => absurd h throw_ne_ok
      · rintro ⟨⟨y, t, u, hy, ht, -⟩, -⟩
        obtain rfl := Option.some.inj hy
        rw [hl] at ht
        cases ht
    | some t =>
      dsimp only
      by_cases hg : x.name ∈ given
      · -- The field is given a second time.
        rw [if_pos (List.contains_iff_mem.mpr hg)]
        constructor
        · exact fun h => absurd h throw_ne_ok
        · rintro ⟨-, y, hy, hnew, -⟩
          obtain rfl := Option.some.inj hy
          exact absurd hg hnew
      · rw [if_neg (mt List.contains_iff_mem.mp hg)]
        simp only [Checker.bind_eq_ok]
        constructor
        · rintro ⟨u, q, hu, ⟨⟩, q', hc, hrest⟩
          obtain ⟨hfound, rfl⟩ := checkExpr_ok_iff.mp hu
          obtain ⟨hfits, rfl⟩ := expect_ok_iff.mp hc
          exact ⟨⟨x, t, u, rfl, hl, hfound, hfits⟩, x, rfl, hg, hrest⟩
        · rintro ⟨⟨y, t', u, hy, ht, hu, hc⟩, z, hz, -, hrest⟩
          obtain rfl := Option.some.inj hy
          obtain rfl := Option.some.inj hz
          obtain rfl := Option.some.inj (hl.symm.trans ht)
          exact ⟨u, _, checkExpr_ok_iff.mpr ⟨hu, rfl⟩, (), _, expect_ok_iff.mpr ⟨hc, rfl⟩, hrest⟩

theorem checkFields_ok_iff {given given' : List String} {as : List Argument} {c c' : Checker} :
    checkFields scope struct fields given as c = .ok (given', c') ↔
      (∀ a ∈ as, Suits scope c.scopes fields a) ∧ (Argument.labels as).Nodup ∧
        (∀ x ∈ Argument.labels as, x ∉ given) ∧ given' = (Argument.labels as).reverse ++ given ∧
        c' = ⟨c.scopes, notedArguments scope c.scopes as c.table⟩ := by
  -- The labels taken so far grow from argument to argument, and so does the table.
  induction as generalizing given given' c c' with
  | nil =>
    rw [checkFields, pure_eq_ok]
    constructor
    · rintro ⟨rfl, rfl⟩
      exact ⟨List.forall_mem_nil _, List.nodup_nil, List.forall_mem_nil _, rfl, rfl⟩
    · rintro ⟨-, -, -, rfl, rfl⟩
      exact ⟨rfl, rfl⟩
  | cons a as ih =>
    rw [checkFields_cons_ok_iff]
    constructor
    · rintro ⟨hsuits, x, hx, hnew, hrest⟩
      obtain ⟨hall, hnodup, hfresh, rfl, rfl⟩ := ih.mp hrest
      rw [Argument.labels_cons hx]
      refine ⟨List.forall_mem_cons.mpr ⟨hsuits, hall⟩, List.nodup_cons.mpr ⟨?_, hnodup⟩, ?_, by simp, rfl⟩
      · exact fun hin => hfresh _ hin List.mem_cons_self
      · exact List.forall_mem_cons.mpr ⟨hnew, fun y hy hin => hfresh y hy (List.mem_cons_of_mem _ hin)⟩
    · rintro ⟨hall, hnodup, hfresh, rfl, rfl⟩
      obtain ⟨hsuits, hall⟩ := List.forall_mem_cons.mp hall
      obtain ⟨x, t, u, hx, -⟩ := id hsuits
      rw [Argument.labels_cons hx] at hnodup hfresh ⊢
      obtain ⟨hnot, hnodup⟩ := List.nodup_cons.mp hnodup
      obtain ⟨hnew, hfresh⟩ := List.forall_mem_cons.mp hfresh
      refine ⟨hsuits, x, hx, hnew, ih.mpr ⟨hall, hnodup, ?_, ?_, rfl⟩⟩
      · intro y hy hin
        rcases List.mem_cons.mp hin with rfl | hin
        · exact hnot hy
        · exact hfresh y hy hin
      · rw [List.reverse_cons, List.append_assoc, List.singleton_append]

theorem missingField?_eq_none_iff {given : List String} :
    missingField? given fields = none ↔ ∀ f ∈ fields, f.1 ∈ given := by
  simp [missingField?]

end Fields

/-- One labelled argument for each field, and each value has a type that fits its field. -/
structure Fills (scope : Nat) (c : Checker) (fields : List (String × Ty)) (as : List Argument) : Prop where
  labelled : ∀ a ∈ as, ∃ x, a.label = some x
  declared : ∀ x ∈ Argument.labels as, x ∈ fields.map Prod.fst
  once : ∀ f ∈ fields, (Argument.labels as).count f.1 = 1
  fits : ∀ a ∈ as, ∀ x, a.label = some x → ∃ t u c', fields.lookup x.name = some t ∧
    checkExpr scope a.value c = .ok (u, c') ∧ t.compatible u = true

section Construction

variable {scope : Nat} {n : Node} {callee : Expr} {s : String} {fields : List (String × Ty)} {as as' : List Argument}
  {c c₀ : Checker}

theorem construction_ok_iff (hcallee : checkExpr scope callee c = .ok (.metatype (.struct s fields), c₀)) {t : Ty}
    {c' : Checker} :
    checkExpr scope (.call n callee as) c = .ok (t, c') ↔
      (∀ a ∈ as, Suits scope c.scopes fields a) ∧ (Argument.labels as).Nodup ∧
        (∀ f ∈ fields, f.1 ∈ Argument.labels as) ∧ t = .struct s fields ∧
        c' = ⟨c.scopes, (notedArguments scope c.scopes as c₀.table).record n.id (.struct s fields)⟩ := by
  have hscopes : c₀.scopes = c.scopes := by rw [(checkExpr_ok_iff.mp hcallee).2]
  rw [checkExpr, recorded]
  constructor
  · intro h
    obtain ⟨t', q, h, hrecord⟩ := Checker.bind_eq_ok.mp h
    obtain ⟨u, q', hu, h⟩ := Checker.bind_eq_ok.mp h
    -- The check of the callee has one outcome, the given one.
    obtain ⟨rfl, rfl⟩ : Ty.metatype (.struct s fields) = u ∧ c₀ = q' := by
      simpa using hcallee.symm.trans hu
    obtain ⟨given, q', hfields, h⟩ := Checker.bind_eq_ok.mp h
    obtain ⟨hall, hnodup, -, rfl, rfl⟩ := checkFields_ok_iff.mp hfields
    rw [hscopes] at hall h
    cases hm : missingField? ((Argument.labels as).reverse ++ []) fields with
    | some x =>
      rw [hm] at h
      exact absurd h throw_ne_ok
    | none =>
      rw [hm] at h
      obtain ⟨rfl, rfl⟩ := pure_eq_ok.mp h
      refine ⟨hall, hnodup, ?_, ?_⟩
      · simpa using missingField?_eq_none_iff.mp hm
      · cases hrecord
        exact ⟨rfl, rfl⟩
  · rintro ⟨hall, hnodup, hgiven, rfl, rfl⟩
    have hfields : checkFields scope s fields [] as c₀ =
        .ok ((Argument.labels as).reverse ++ [], ⟨c.scopes, notedArguments scope c.scopes as c₀.table⟩) := by
      rw [← hscopes] at hall ⊢
      exact checkFields_ok_iff.mpr ⟨hall, hnodup, fun _ _ => List.not_mem_nil, rfl, rfl⟩
    have hm : missingField? ((Argument.labels as).reverse ++ []) fields = none :=
      missingField?_eq_none_iff.mpr (by simpa using hgiven)
    refine Checker.bind_eq_ok.mpr ⟨.struct s fields, ⟨c.scopes, notedArguments scope c.scopes as c₀.table⟩,
      Checker.bind_eq_ok.mpr ⟨_, _, hcallee, Checker.bind_eq_ok.mpr ⟨_, _, hfields, ?_⟩⟩, rfl⟩
    rw [hm]
    rfl

theorem fills_iff : Fills scope c fields as ↔ (∀ a ∈ as, Suits scope c.scopes fields a) ∧
    (Argument.labels as).Nodup ∧ ∀ f ∈ fields, f.1 ∈ Argument.labels as := by
  have mem_labels {x : String} : x ∈ Argument.labels as ↔ ∃ a ∈ as, ∃ y, a.label = some y ∧ y.name = x := by
    simp [Argument.labels]
  constructor
  · intro h
    refine ⟨?_, ?_, ?_⟩
    · intro a ha
      obtain ⟨x, hx⟩ := h.labelled a ha
      obtain ⟨t, u, c', ht, hu, hfits⟩ := h.fits a ha x hx
      exact ⟨x, t, u, hx, ht, (checkExpr_ok_iff.mp hu).1, hfits⟩
    · -- A label that occurs is that of a field, and so occurs once.
      refine List.nodup_iff_count_le_one.mpr fun x => ?_
      by_cases hx : x ∈ Argument.labels as
      · obtain ⟨f, hf, rfl⟩ := List.mem_map.mp (h.declared x hx)
        exact Nat.le_of_eq (h.once f hf)
      · rw [List.count_eq_zero_of_not_mem hx]
        exact Nat.zero_le 1
    · intro f hf
      refine List.count_pos_iff.mp ?_
      rw [h.once f hf]
      exact Nat.one_pos
  · rintro ⟨hall, hnodup, hgiven⟩
    refine ⟨?_, ?_, ?_, ?_⟩
    · intro a ha
      obtain ⟨x, t, u, hx, -⟩ := hall a ha
      exact ⟨x, hx⟩
    · intro x hx
      obtain ⟨a, ha, y, hy, rfl⟩ := mem_labels.mp hx
      obtain ⟨z, t, u, hz, ht, -⟩ := hall a ha
      obtain rfl := Option.some.inj (hy.symm.trans hz)
      obtain ⟨before, after, he, -⟩ := List.lookup_eq_some_iff.mp ht
      exact List.mem_map.mpr ⟨(y.name, t), he ▸ List.mem_append_right _ List.mem_cons_self, rfl⟩
    · exact fun f hf => List.count_eq_one_of_mem hnodup (hgiven f hf)
    · intro a ha x hx
      obtain ⟨y, t, u, hy, ht, hu, hfits⟩ := hall a ha
      obtain rfl := Option.some.inj (hx.symm.trans hy)
      exact ⟨t, u, _, ht, checkExpr_ok_iff.mpr ⟨hu, rfl⟩, hfits⟩

theorem Fills.perm (hp : as.Perm as') (h : Fills scope c fields as) : Fills scope c fields as' := by
  have hlabels : (Argument.labels as).Perm (Argument.labels as') := hp.filterMap _
  constructor
  · exact fun a ha => h.labelled a (hp.mem_iff.mpr ha)
  · exact fun x hx => h.declared x (hlabels.mem_iff.mpr hx)
  · exact fun f hf => (hlabels.count_eq f.1).symm.trans (h.once f hf)
  · exact fun a ha => h.fits a (hp.mem_iff.mpr ha)

theorem accepts_construction_iff
    (hcallee : checkExpr scope callee c = .ok (.metatype (.struct s fields), c₀)) :
    (∃ t c', checkExpr scope (.call n callee as) c = .ok (t, c')) ↔ Fills scope c fields as := by
  rw [fills_iff]
  constructor
  · rintro ⟨t, c', h⟩
    obtain ⟨hall, hnodup, hgiven, -⟩ := (construction_ok_iff hcallee).mp h
    exact ⟨hall, hnodup, hgiven⟩
  · rintro ⟨hall, hnodup, hgiven⟩
    exact ⟨_, _, (construction_ok_iff hcallee).mpr ⟨hall, hnodup, hgiven, rfl, rfl⟩⟩

/-- A construction is accepted exactly if its arguments fill the struct. In every other order of the arguments it is
accepted as well, has the type of the struct too, and the same types are recorded. -/
theorem construction_iff_fills (n : Node) (as : List Argument)
    (hcallee : checkExpr scope callee c = .ok (.metatype (.struct s fields), c₀)) :
    ((∃ t c', checkExpr scope (.call n callee as) c = .ok (t, c')) ↔ Fills scope c fields as) ∧
      ∀ as', as.Perm as' →
        ((∃ t c', checkExpr scope (.call n callee as') c = .ok (t, c')) ↔
          ∃ t c', checkExpr scope (.call n callee as) c = .ok (t, c')) ∧
        ∀ t c' t' c'', checkExpr scope (.call n callee as) c = .ok (t, c') →
          checkExpr scope (.call n callee as') c = .ok (t', c'') →
            t = .struct s fields ∧ t' = t ∧ c''.scopes = c'.scopes ∧ c'.table.types.Perm c''.table.types ∧
              ((Expr.argumentIds as).Nodup → ∀ id, c'.table.entry id = c''.table.entry id) := by
  refine ⟨accepts_construction_iff hcallee, fun as' hp => ⟨?_, ?_⟩⟩
  · rw [accepts_construction_iff hcallee, accepts_construction_iff hcallee]
    exact ⟨fun h => h.perm hp.symm, fun h => h.perm hp⟩
  · intro t c' t' c'' h h'
    obtain ⟨-, -, -, rfl, rfl⟩ := (construction_ok_iff hcallee).mp h
    obtain ⟨-, -, -, rfl, rfl⟩ := (construction_ok_iff hcallee).mp h'
    refine ⟨rfl, rfl, rfl, (types_notedArguments_perm hp _).cons _, fun hn id => ?_⟩
    rw [Expr.argumentIds_eq_flatMap] at hn
    rw [TypeTable.entry_record, TypeTable.entry_record, entry_notedArguments_perm hp hn]

/-- A point with its coordinates in the order of the declaration, and the other way round. -/
theorem construction_iff_fills_point : ∃ c t c' t' c'',
    checkExpr 0 (.call ⟨3, {}⟩ (.symbol ⟨0, {}⟩ ⟨"P", {}⟩)
      [⟨some ⟨"x", {}⟩, .int ⟨1, {}⟩ 1⟩, ⟨some ⟨"y", {}⟩, .list ⟨2, {}⟩ []⟩]) c = .ok (t, c') ∧
    checkExpr 0 (.call ⟨3, {}⟩ (.symbol ⟨0, {}⟩ ⟨"P", {}⟩)
      [⟨some ⟨"y", {}⟩, .list ⟨2, {}⟩ []⟩, ⟨some ⟨"x", {}⟩, .int ⟨1, {}⟩ 1⟩]) c = .ok (t', c'') ∧
    t = .struct "P" [("x", .int), ("y", .list .bool)] ∧ t' = t ∧ ∀ id, c'.table.entry id = c''.table.entry id := by
  let fields : List (String × Ty) := [("x", .int), ("y", .list .bool)]
  let c : Checker := ⟨⟨[⟨[("P", ⟨.metatype (.struct "P" fields), ⟨"P", {}⟩⟩)], none⟩]⟩, {}⟩
  let x : Argument := ⟨some ⟨"x", {}⟩, .int ⟨1, {}⟩ 1⟩
  let y : Argument := ⟨some ⟨"y", {}⟩, .list ⟨2, {}⟩ []⟩
  obtain ⟨c₀, hcallee⟩ : ∃ c₀, checkExpr 0 (.symbol ⟨0, {}⟩ ⟨"P", {}⟩) c =
      .ok (.metatype (.struct "P" fields), c₀) := ⟨_, rfl⟩
  have hsame := ((construction_iff_fills ⟨3, {}⟩ [x, y] hcallee).2 [y, x] (.swap y x [])).2
  obtain ⟨ht, ht', -, -, hentry⟩ := hsame _ _ _ _ rfl rfl
  exact ⟨c, _, _, _, _, rfl, rfl, ht, ht', hentry (by decide)⟩

end Construction

end Checker

end Gondola
