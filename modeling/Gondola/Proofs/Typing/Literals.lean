import Gondola.Proofs.Ty.Merge
import Gondola.Proofs.Typing.Confined
import Gondola.Proofs.Typing.Notes

/-! The types of what a literal holds. Items need not fit each other: where the order of the items decides whether a
literal is taken, some of their types do not agree. -/
namespace Gondola

variable {e : Expr} {t : Ty} {c : Checker} {es : List (Expr × Expr)}

namespace Checker

open Typing

variable {n : Node}

/-- The expression has the type wherever the frames are in view. -/
def Types (top : Env) (rest : List Env) (e : Expr) (t : Ty) : Prop :=
  ∀ c, At c top rest → ∃ c', checkExpr (rest.length + 1) e c = .ok (t, c')

/-- The expression is accepted wherever the frames are in view. -/
def Takes (top : Env) (rest : List Env) (e : Expr) : Prop := ∃ t, Types top rest e t

section Order

variable {top : Env} {rest : List Env}

theorem types_of_run {c' : Checker} (hat : At c top rest)
    (h : checkExpr (rest.length + 1) e c = .ok (t, c')) : Types top rest e t := by
  obtain ⟨hfound, -⟩ := checkExpr_ok_iff.mp h
  intro d hd
  refine ⟨_, checkExpr_ok_iff.mpr ⟨?_, rfl⟩⟩
  rw [show d.scopes = c.scopes from hd.trans hat.symm]
  exact hfound

theorem finds_types (e : Expr) :
    Finds top rest (checkExpr (rest.length + 1) e) e.ids fun T t => T.typeOf? e = some t ∧ Types top rest e t := by
  intro c t c' hn hat hu hrun
  obtain ⟨top', hat', hoff, hfound⟩ := finds_checkExpr top rest e c t c' hn hat hu hrun
  refine ⟨top', hat', hoff, fun T hT => ?_⟩
  obtain ⟨rfl, hf⟩ := hfound T hT
  exact ⟨rfl, hf.2, types_of_run hat hrun⟩

theorem merge_step (h : Types top rest e t) (hat : At c top rest) (current : Ty) :
    ∃ c₁, At c₁ top rest ∧ ∀ {α : Type} (next : Ty → Check α) (a : α),
      (∃ c', (do
        let u ← checkExpr (rest.length + 1) e
        let v ← unify current u e.span
        next v) c = .ok (a, c')) ↔ ∃ v, current.unify t = some v ∧ ∃ c', next v c₁ = .ok (a, c') := by
  obtain ⟨c₁, hc₁⟩ := h c hat
  have hscopes : c₁.scopes = c.scopes := by rw [(checkExpr_ok_iff.mp hc₁).2]
  refine ⟨c₁, hscopes.trans hat, ?_⟩
  intro α next a
  constructor
  · rintro ⟨c', hc'⟩
    obtain ⟨u, q, hu, hrest⟩ := bind_eq_ok.mp hc'
    obtain ⟨rfl, rfl⟩ := Prod.mk.inj (Except.ok.inj (hc₁.symm.trans hu))
    obtain ⟨v, r, hv, hrest⟩ := bind_eq_ok.mp hrest
    cases hw : current.unify t with
    | none =>
      rw [unify, hw] at hv
      exact absurd hv throw_ne_ok
    | some w =>
      rw [unify, hw] at hv
      obtain ⟨rfl, rfl⟩ := pure_eq_ok.mp hv
      exact ⟨w, rfl, c', hrest⟩
  · rintro ⟨v, hv, c', hc'⟩
    have hunify : unify current t e.span c₁ = .ok (v, c₁) := by
      rw [unify, hv]
      rfl
    exact ⟨c', bind_eq_ok.mpr ⟨t, c₁, hc₁, bind_eq_ok.mpr ⟨v, c₁, hunify, hc'⟩⟩⟩

section Typed

variable {type : Expr → Ty}

theorem checkItems_ok_iff {es : List Expr} (h : ∀ e ∈ es, Types top rest e (type e))
    (hat : At c top rest) {current : Ty} :
    (∃ c', checkItems (rest.length + 1) current es c = .ok (t, c')) ↔
      (es.map type).foldlM Ty.unify current = some t := by
  induction es generalizing c current with
  | nil =>
    rw [checkItems, List.map_nil, List.foldlM_nil]
    simp [pure_eq_ok]
  | cons e es ih =>
    obtain ⟨he, hes⟩ := List.forall_mem_cons.mp h
    obtain ⟨c₁, hat₁, hstep⟩ := merge_step he hat current
    rw [checkItems, hstep, List.map_cons, List.foldlM_cons]
    simp only [ih hes hat₁, Option.bind_eq_bind, Option.bind_eq_some_iff]

theorem checkEntries_ok_iff (h : ∀ e ∈ es, Types top rest e.1 (type e.1) ∧ Types top rest e.2 (type e.2))
    (hat : At c top rest) {key value k v : Ty} :
    (∃ c', checkEntries (rest.length + 1) key value es c = .ok ((k, v), c')) ↔
      ((es.map Prod.fst).map type).foldlM Ty.unify key = some k ∧
        ((es.map Prod.snd).map type).foldlM Ty.unify value = some v := by
  induction es generalizing c key value with
  | nil =>
    simp only [checkEntries, List.map_nil, List.foldlM_nil]
    simp [pure_eq_ok]
  | cons e es ih =>
    obtain ⟨⟨hk, hv⟩, hes⟩ := List.forall_mem_cons.mp h
    obtain ⟨c₁, hat₁, hkey⟩ := merge_step hk hat key
    obtain ⟨c₂, hat₂, hvalue⟩ := merge_step hv hat₁ value
    rw [checkEntries, hkey]
    simp only [hvalue, ih hes hat₂, List.map_cons, List.foldlM_cons, Option.bind_eq_bind,
      Option.bind_eq_some_iff]
    -- The two kinds of types do not mix.
    constructor
    · rintro ⟨k', hk', v', hv', hks, hvs⟩
      exact ⟨⟨k', hk', hks⟩, v', hv', hvs⟩
    · rintro ⟨⟨k', hk', hks⟩, v', hv', hvs⟩
      exact ⟨k', hk', v', hv', hks, hvs⟩

theorem recorded_ok_iff {infer : Check Ty} :
    (∃ c', recorded n infer c = .ok (t, c')) ↔ ∃ c', infer c = .ok (t, c') := by
  constructor
  · rintro ⟨c', hc'⟩
    obtain ⟨u, q, hu, hrest⟩ := bind_eq_ok.mp hc'
    obtain ⟨_, _, -, hrest⟩ := bind_eq_ok.mp hrest
    obtain ⟨rfl, -⟩ := pure_eq_ok.mp hrest
    exact ⟨q, hu⟩
  · rintro ⟨q, hq⟩
    exact ⟨_, bind_eq_ok.mpr ⟨t, q, hq, rfl⟩⟩

theorem map_ok_iff {α : Type} {m : Check α} {f : α → Ty} :
    (∃ c', (do
      let a ← m
      return f a) c = .ok (t, c')) ↔ ∃ a, t = f a ∧ ∃ c', m c = .ok (a, c') := by
  constructor
  · rintro ⟨c', hc'⟩
    obtain ⟨a, q, ha, hrest⟩ := bind_eq_ok.mp hc'
    obtain ⟨rfl, -⟩ := pure_eq_ok.mp hrest
    exact ⟨a, rfl, q, ha⟩
  · rintro ⟨a, rfl, q, hq⟩
    exact ⟨q, bind_eq_ok.mpr ⟨a, q, hq, rfl⟩⟩

theorem types_iff_of_run {P : Ty → Prop} (h : ∀ c, At c top rest → ∀ t,
    (∃ c', checkExpr (rest.length + 1) e c = .ok (t, c')) ↔ P t) : Types top rest e t ↔ P t := by
  constructor
  · intro ht
    have hat : At ⟨Scopes.ofFrames (top :: rest ++ [builtinNames]), {}⟩ top rest := rfl
    exact (h _ hat t).mp (ht _ hat)
  · intro ht c hat
    exact (h c hat t).mpr ht

theorem types_list_iff {es : List Expr} (h : ∀ e ∈ es, Types top rest e (type e)) :
    Types top rest (.list n es) t ↔ t = .list (Ty.leading (es.map type)) ∧ Ty.Merge (es.map type) := by
  apply types_iff_of_run (P := fun t => t = .list (Ty.leading (es.map type)) ∧ Ty.Merge (es.map type))
  intro c hat t
  rw [checkExpr, recorded_ok_iff, map_ok_iff]
  simp only [checkItems_ok_iff h hat, Ty.foldlM_unify_eq_some_iff]
  constructor
  · rintro ⟨_, rfl, rfl, hm⟩
    exact ⟨rfl, hm⟩
  · rintro ⟨rfl, hm⟩
    exact ⟨_, rfl, rfl, hm⟩

theorem types_map_iff (h : ∀ e ∈ es, Types top rest e.1 (type e.1) ∧ Types top rest e.2 (type e.2)) :
    Types top rest (.map n es) t ↔
      t = .map (Ty.leading ((es.map Prod.fst).map type)) (Ty.leading ((es.map Prod.snd).map type)) ∧
        Ty.Merge ((es.map Prod.fst).map type) ∧ Ty.Merge ((es.map Prod.snd).map type) := by
  apply types_iff_of_run (P := fun t =>
    t = .map (Ty.leading ((es.map Prod.fst).map type)) (Ty.leading ((es.map Prod.snd).map type)) ∧
      Ty.Merge ((es.map Prod.fst).map type) ∧ Ty.Merge ((es.map Prod.snd).map type))
  intro c hat t
  rw [checkExpr, recorded_ok_iff]
  refine (map_ok_iff (f := fun kv : Ty × Ty => .map kv.1 kv.2)).trans ?_
  simp only [Prod.exists, checkEntries_ok_iff h hat, Ty.foldlM_unify_eq_some_iff]
  constructor
  · rintro ⟨_, _, rfl, ⟨rfl, hk⟩, rfl, hv⟩
    exact ⟨rfl, hk, hv⟩
  · rintro ⟨rfl, hk, hv⟩
    exact ⟨_, _, rfl, ⟨rfl, hk⟩, rfl, hv⟩

theorem takes_list_iff {es : List Expr} (h : ∀ e ∈ es, Types top rest e (type e)) :
    Takes top rest (.list n es) ↔ Ty.Merge (es.map type) := by
  simp [Takes, types_list_iff h]

theorem takes_map_iff (h : ∀ e ∈ es, Types top rest e.1 (type e.1) ∧ Types top rest e.2 (type e.2)) :
    Takes top rest (.map n es) ↔
      Ty.Merge ((es.map Prod.fst).map type) ∧ Ty.Merge ((es.map Prod.snd).map type) := by
  simp [Takes, types_map_iff h]

end Typed

/-- Where the frames are in view, the expression has the type that the table gives to it. -/
def Holds (T : TypeTable) (top : Env) (rest : List Env) (e : Expr) : Prop :=
  ∃ t, T.typeOf? e = some t ∧ Types top rest e t

theorem finds_holds (e : Expr) :
    Finds top rest (checkExpr (rest.length + 1) e) e.ids fun T _ => Holds T top rest e :=
  (finds_types e).mono fun _ t h => ⟨t, h⟩

theorem finds_itemsHold (top : Env) (rest : List Env) (current : Ty) (es : List Expr) :
    Finds top rest (checkItems (rest.length + 1) current es) (Expr.itemIds es) fun T _ =>
      ∀ e ∈ es, Holds T top rest e := by
  induction es generalizing current with
  | nil => exact (finds_pure current).mono fun _ _ _ => nofun
  | cons e es ih =>
    refine ((finds_holds e).bind fun u => (finds_unify current u e.span).bind fun next => ih next).mono ?_
    rintro T _ ⟨_, he, _, -, hes⟩
    exact List.forall_mem_cons.mpr ⟨he, hes⟩

theorem finds_entriesHold (top : Env) (rest : List Env) (key value : Ty) (es : List (Expr × Expr)) :
    Finds top rest (checkEntries (rest.length + 1) key value es) (Expr.entryIds es) fun T _ =>
      ∀ e ∈ es, Holds T top rest e.1 ∧ Holds T top rest e.2 := by
  induction es generalizing key value with
  | nil => exact (finds_pure (key, value)).mono fun _ _ _ => nofun
  | cons e es ih =>
    obtain ⟨k, v⟩ := e
    rw [Expr.entryIds, List.append_assoc]
    refine ((finds_holds k).bind fun kt => (finds_unify key kt k.span).bind fun key' =>
      (finds_holds v).bind fun vt => (finds_unify value vt v.span).bind fun value' =>
        ih key' value').mono ?_
    rintro T _ ⟨_, hk, _, -, _, hv, _, -, hes⟩
    exact List.forall_mem_cons.mpr ⟨⟨hk, hv⟩, hes⟩

end Order

theorem Finds.and {α : Type} {top : Env} {rest : List Env} {m : Check α} {ids : List Nat}
    {P Q : TypeTable → α → Prop} (hP : Finds top rest m ids P) (hQ : Finds top rest m ids Q) :
    Finds top rest m ids fun T a => P T a ∧ Q T a := by
  intro c a c' hn hat hu hrun
  obtain ⟨top', hat', hoff, hp⟩ := hP c a c' hn hat hu hrun
  obtain ⟨_, _, _, hq⟩ := hQ c a c' hn hat hu hrun
  exact ⟨top', hat', hoff, fun T hT => ⟨(hp T hT).1, (hp T hT).2, (hq T hT).2⟩⟩

theorem Kept.list_holds {T : TypeTable} {es : List Expr} (h : Kept T (.list n es)) :
    ∃ top rest, (∀ e ∈ es, Holds T top rest e) ∧ Holds T top rest (.list n es) := by
  have hfinds : ∀ top rest, Finds top rest (checkExpr (rest.length + 1) (.list n es)) (Expr.list n es).ids
      fun T _ => ∃ top rest, (∀ e ∈ es, Holds T top rest e) ∧ Holds T top rest (.list n es) := by
    intro top rest
    have hitems := ((finds_itemsHold top rest .any es).last fun t => finds_pure (Ty.list t)).recorded n
    refine (hitems.and (finds_holds (.list n es))).mono ?_
    rintro T _ ⟨⟨⟨_, hes, -⟩, -⟩, hn⟩
    exact ⟨top, rest, hes, hn⟩
  obtain ⟨_, h⟩ := h.found hfinds
  exact h

theorem Kept.map_holds {T : TypeTable} (h : Kept T (.map n es)) :
    ∃ top rest, (∀ e ∈ es, Holds T top rest e.1 ∧ Holds T top rest e.2) ∧ Holds T top rest (.map n es) := by
  have hfinds : ∀ top rest, Finds top rest (checkExpr (rest.length + 1) (.map n es)) (Expr.map n es).ids
      fun T _ => ∃ top rest, (∀ e ∈ es, Holds T top rest e.1 ∧ Holds T top rest e.2) ∧
        Holds T top rest (.map n es) := by
    intro top rest
    have hentries := ((finds_entriesHold top rest .any .any es).last fun kv =>
      finds_pure (Ty.map kv.1 kv.2)).recorded n
    refine (hentries.and (finds_holds (.map n es))).mono ?_
    rintro T _ ⟨⟨⟨_, hes, -⟩, -⟩, hn⟩
    exact ⟨top, rest, hes, hn⟩
  obtain ⟨_, h⟩ := h.found hfinds
  exact h

end Checker

open Typing Checker

def TypeTable.typesOf (T : TypeTable) (es : List Expr) : List Ty := es.filterMap T.typeOf?

def TypeTable.typeOrAny (T : TypeTable) (e : Expr) : Ty := (T.typeOf? e).getD .any

section Literals

variable {T : TypeTable} {top : Env} {rest : List Env} {n : Node}

theorem types_of_holds (h : Holds T top rest e) : Types top rest e (T.typeOrAny e) := by
  obtain ⟨t, ht, htypes⟩ := h
  rw [TypeTable.typeOrAny, ht]
  exact htypes

theorem typesOf_eq_map {es : List Expr} (h : ∀ e ∈ es, Holds T top rest e) :
    T.typesOf es = es.map T.typeOrAny := by
  induction es with
  | nil => rfl
  | cons e es ih =>
    obtain ⟨⟨t, ht, -⟩, hes⟩ := List.forall_mem_cons.mp h
    rw [TypeTable.typesOf, List.filterMap_cons, ht, List.map_cons, TypeTable.typeOrAny, ht, ← ih hes]
    rfl

theorem typesOf_entries (h : ∀ e ∈ es, Holds T top rest e.1 ∧ Holds T top rest e.2) :
    T.typesOf (es.map Prod.fst) = (es.map Prod.fst).map T.typeOrAny ∧
      T.typesOf (es.map Prod.snd) = (es.map Prod.snd).map T.typeOrAny := by
  constructor
  · exact typesOf_eq_map (List.forall_mem_map.mpr fun e he => (h e he).1)
  · exact typesOf_eq_map (List.forall_mem_map.mpr fun e he => (h e he).2)

/-- How the order of the items of a list bears on whether it is accepted, where the frames are in view. -/
structure ListOrder (T : TypeTable) (top : Env) (rest : List Env) (n : Node) (es : List Expr) : Prop where
  items : ∀ e ∈ es, Holds T top rest e
  /-- One order is as good as the types merge in it. -/
  one : ∀ es', es'.Perm es → (Takes top rest (.list n es') ↔ Ty.Merge (T.typesOf es'))
  every : (∀ es', es'.Perm es → Takes top rest (.list n es')) ↔ Ty.Agree (T.typesOf es)

theorem listOrder_of_holds {es : List Expr} (h : ∀ e ∈ es, Holds T top rest e) : ListOrder T top rest n es where
  items := h
  one := by
    intro es' hp
    have hes' : ∀ e ∈ es', Holds T top rest e := fun e he => h e (hp.mem_iff.mp he)
    rw [typesOf_eq_map hes']
    exact takes_list_iff fun e he => types_of_holds (hes' e he)
  every := by
    rw [typesOf_eq_map h, ← Ty.forall_merge_iff_agree]
    refine forall₂_congr fun es' hp => ?_
    exact takes_list_iff fun e he => types_of_holds (h e (hp.mem_iff.mp he))

/-- The same for the entries of a map. -/
structure MapOrder (T : TypeTable) (top : Env) (rest : List Env) (n : Node) (es : List (Expr × Expr)) : Prop where
  entries : ∀ e ∈ es, Holds T top rest e.1 ∧ Holds T top rest e.2
  one : ∀ es', es'.Perm es → (Takes top rest (.map n es') ↔
    Ty.Merge (T.typesOf (es'.map Prod.fst)) ∧ Ty.Merge (T.typesOf (es'.map Prod.snd)))
  every : (∀ es', es'.Perm es → Takes top rest (.map n es')) ↔
    Ty.Agree (T.typesOf (es.map Prod.fst)) ∧ Ty.Agree (T.typesOf (es.map Prod.snd))

theorem mapOrder_of_holds (h : ∀ e ∈ es, Holds T top rest e.1 ∧ Holds T top rest e.2) : MapOrder T top rest n es := by
  have htakes : ∀ es', es'.Perm es → (Takes top rest (.map n es') ↔
      Ty.Merge (T.typesOf (es'.map Prod.fst)) ∧ Ty.Merge (T.typesOf (es'.map Prod.snd))) := by
    intro es' hp
    have hes' : ∀ e ∈ es', Holds T top rest e.1 ∧ Holds T top rest e.2 := fun e he => h e (hp.mem_iff.mp he)
    rw [(typesOf_entries hes').1, (typesOf_entries hes').2]
    exact takes_map_iff fun e he => ⟨types_of_holds (hes' e he).1, types_of_holds (hes' e he).2⟩
  refine ⟨h, htakes, ?_⟩
  -- Keys and values agree apart from each other, but it is the entries that are put in order.
  rw [(typesOf_entries h).1, (typesOf_entries h).2, List.map_map, List.map_map, ← Ty.forall_merge_iff_agree,
    ← Ty.forall_merge_iff_agree, ← forall₂_and]
  refine forall₂_congr fun es' hp => ?_
  have hes' : ∀ e ∈ es', Holds T top rest e.1 ∧ Holds T top rest e.2 := fun e he => h e (hp.mem_iff.mp he)
  rw [← List.map_map, ← List.map_map]
  exact takes_map_iff fun e he => ⟨types_of_holds (hes' e he).1, types_of_holds (hes' e he).2⟩

theorem typeOf?_list {es : List Expr} (h : ∀ e ∈ es, Holds T top rest e) (hn : Holds T top rest (.list n es)) :
    T.typeAt? n.id = some (.list (Ty.leading (T.typesOf es))) ∧ Ty.Merge (T.typesOf es) := by
  obtain ⟨t, ht, htypes⟩ := hn
  rw [typesOf_eq_map h]
  obtain ⟨rfl, hmerge⟩ := (types_list_iff fun e he => types_of_holds (h e he)).mp htypes
  exact ⟨ht, hmerge⟩

theorem typeOf?_map (h : ∀ e ∈ es, Holds T top rest e.1 ∧ Holds T top rest e.2) (hn : Holds T top rest (.map n es)) :
    T.typeAt? n.id = some (.map (Ty.leading (T.typesOf (es.map Prod.fst)))
      (Ty.leading (T.typesOf (es.map Prod.snd)))) ∧
      Ty.Merge (T.typesOf (es.map Prod.fst)) ∧ Ty.Merge (T.typesOf (es.map Prod.snd)) := by
  obtain ⟨t, ht, htypes⟩ := hn
  rw [(typesOf_entries h).1, (typesOf_entries h).2]
  obtain ⟨rfl, hmerge⟩ :=
    (types_map_iff fun e he => ⟨types_of_holds (h e he).1, types_of_holds (h e he).2⟩).mp htypes
  exact ⟨ht, hmerge⟩

end Literals

/-- What the types of the parts of a literal come to: the recorded type is the one that they share, and they agree
if nothing is left open in it. -/
structure Shared (ts : List Ty) (t : Ty) : Prop where
  first : t = Ty.leading ts
  fits : Ty.Merge ts
  agree : t.known = true → Ty.Agree ts

theorem shared_leading {ts : List Ty} (h : Ty.Merge ts) : Shared ts (Ty.leading ts) := ⟨rfl, h, h.agree⟩

theorem literal_types_of_check {source : String} {p : Program} {T : TypeTable}
    (hp : parseProgram source = .ok p) (hc : p.check = .ok T) :
    (∀ n es, Expr.list n es ∈ p.parts →
      (∃ t, T.typeAt? n.id = some (.list t) ∧ Shared (T.typesOf es) t) ∧
        ∃ top rest, ListOrder T top rest n es) ∧
    ∀ n es, Expr.map n es ∈ p.parts →
      (∃ k v, T.typeAt? n.id = some (.map k v) ∧ Shared (T.typesOf (es.map Prod.fst)) k ∧
        Shared (T.typesOf (es.map Prod.snd)) v) ∧ ∃ top rest, MapOrder T top rest n es := by
  have hkept : KeptAll p.parts T := kept_of_check (Parser.nodup_ids_of_parseProgram hp) hc
  constructor
  · intro n es hmem
    obtain ⟨top, rest, hes, hlist⟩ := (hkept _ hmem).list_holds
    obtain ⟨htype, hmerge⟩ := typeOf?_list hes hlist
    exact ⟨⟨_, htype, shared_leading hmerge⟩, top, rest, listOrder_of_holds hes⟩
  · intro n es hmem
    obtain ⟨top, rest, hes, hmap⟩ := (hkept _ hmem).map_holds
    obtain ⟨htype, hk, hv⟩ := typeOf?_map hes hmap
    exact ⟨⟨_, _, htype, shared_leading hk, shared_leading hv⟩, top, rest, mapOrder_of_holds hes⟩

/-- A list whose first item leaves the type of its items open, and a map whose types agree. -/
theorem literal_types_open_item :
    ∃ p T, parseProgram "let l = [[], [1], [\"a\"]]; let m = \x7b1: [2], 3: []\x7d;" = .ok p ∧ p.check = .ok T ∧
      (∃ n es, Expr.list n es ∈ p.parts ∧ es.length = 3 ∧
        (∃ t, T.typeAt? n.id = some (.list t) ∧ Shared (T.typesOf es) t) ∧ ∃ top rest, ListOrder T top rest n es) ∧
      ∃ n es, Expr.map n es ∈ p.parts ∧ es.length = 2 ∧
        (∃ k v, T.typeAt? n.id = some (.map k v) ∧ Shared (T.typesOf (es.map Prod.fst)) k ∧
          Shared (T.typesOf (es.map Prod.snd)) v) ∧ ∃ top rest, MapOrder T top rest n es := by
  refine exists_accepted (fun p _ => (∃ e ∈ p.parts, (match e with
        | .list _ es => es.length == 3
        | _ => false) = true) ∧ ∃ e ∈ p.parts, (match e with
        | .map _ es => es.length == 2
        | _ => false) = true) (by decide +kernel) fun p T hp hc ⟨⟨l, hl, hlist⟩, m, hm, hmap⟩ => ?_
  obtain ⟨hlists, hmaps⟩ := literal_types_of_check hp hc
  constructor
  · split at hlist
    · rename_i n es
      exact ⟨n, es, hl, beq_iff_eq.mp hlist, hlists n es hl⟩
    · cases hlist
  · split at hmap
    · rename_i n es
      exact ⟨n, es, hm, beq_iff_eq.mp hmap, hmaps n es hm⟩
    · cases hmap

/-- Items whose types do not agree in a list that is accepted, as its first item leaves the type of items open. With
this item in the last place the same list is rejected. -/
theorem merge_without_agree :
    (∃ p T n es, parseProgram "let l = [[], [1], [\"a\"]];" = .ok p ∧ p.check = .ok T ∧
      Expr.list n es ∈ p.parts ∧ ¬ Ty.Agree (T.typesOf es)) ∧
    ∃ p e, parseProgram "let l = [[1], [\"a\"], []];" = .ok p ∧ p.check = .error e := by
  constructor
  · obtain ⟨p, T, hp, hc, e, he, hdis⟩ : ∃ p T, parseProgram "let l = [[], [1], [\"a\"]];" = .ok p ∧ p.check = .ok T ∧
        ∃ e ∈ p.parts, (match e with
          | .list _ es => !decide (Ty.Agree (T.typesOf es))
          | _ => false) = true :=
      exists_accepted _ (by decide +kernel) fun _ _ _ _ h => h
    split at hdis
    · rename_i n es
      exact ⟨p, T, n, es, hp, hc, he, by simpa using hdis⟩
    · cases hdis
  · have hok : (match parseProgram "let l = [[1], [\"a\"], []];" with
      | .ok p =>
        match p.check with
        | .ok _ => false
        | .error _ => true
      | .error _ => false) = true := by decide +kernel
    split at hok
    · rename_i p hp
      split at hok
      · cases hok
      · rename_i e hc
        exact ⟨p, e, hp, hc⟩
    · cases hok

end Gondola
