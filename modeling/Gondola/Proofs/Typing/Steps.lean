import Gondola.Proofs.Scope
import Gondola.Proofs.Typing.Rules

/-! What steps of checking do. A step works on a stack of frames, of which it may change the innermost one, and writes
to the table under the numbers of the expressions it checks, each of them once. What it finds therefore holds of every
later table that keeps these entries. -/
namespace Gondola

def TypeTable.entry (T : TypeTable) (id : Nat) : Option Ty × Option Ident × Bool :=
  (T.typeAt? id, T.declarationAt? id, T.builtins.contains id)

namespace TypeTable

theorem entry_record (T : TypeTable) (id id' : Nat) (t : Ty) :
    (T.record id t).entry id' = if id' = id then (some t, (T.entry id').2) else T.entry id' := by
  by_cases h : id' = id
  · simp [entry, record, typeAt?, declarationAt?, h]
  · have hb : (id' == id) = false := by simpa using h
    simp [entry, record, typeAt?, declarationAt?, List.lookup_cons, h, hb]

theorem entry_markBuiltin (T : TypeTable) (id id' : Nat) :
    (T.markBuiltin id).entry id' =
      if id' = id then ((T.entry id').1, (T.entry id').2.1, true) else T.entry id' := by
  by_cases h : id' = id
  · simp [entry, markBuiltin, typeAt?, declarationAt?, h]
  · simp [entry, markBuiltin, typeAt?, declarationAt?, h]

theorem entry_resolve (T : TypeTable) (id id' : Nat) (origin : Ident) :
    (T.resolve id origin).entry id' =
      if id' = id then ((T.entry id').1, some origin, (T.entry id').2.2) else T.entry id' := by
  by_cases h : id' = id
  · simp [entry, resolve, typeAt?, declarationAt?, h]
  · have hb : (id' == id) = false := by simpa using h
    simp [entry, resolve, typeAt?, declarationAt?, List.lookup_cons, h, hb]

end TypeTable

namespace Checker

open Typing

section Bind

variable {α β : Type} {m : Check α} {f : α → Check β} {c c' : Checker}

theorem bind_eq_ok {b : β} :
    (m >>= f) c = .ok (b, c') ↔ ∃ a q, m c = .ok (a, q) ∧ f a q = .ok (b, c') := by
  change Except.bind (m c) (fun r => f r.1 r.2) = _ ↔ _
  cases m c with
  | error e => simp [Except.bind]
  | ok r =>
    obtain ⟨a, q⟩ := r
    simp [Except.bind]

theorem pure_eq_ok {a b : α} : (pure a : Check α) c = .ok (b, c') ↔ a = b ∧ c = c' := by
  change Except.ok (a, c) = .ok (b, c') ↔ _
  simp

theorem throw_ne_ok {e : Failure TypeError} {r : α × Checker} :
    (throw e : Check α) c ≠ .ok r := by
  intro h
  cases h

end Bind

/-- The second table differs from the first one under the numbers `ids` at most. -/
structure SameOff (ids : List Nat) (T T' : TypeTable) : Prop where
  entry : ∀ id ∉ ids, T'.entry id = T.entry id
  functions : T'.functions = T.functions

theorem SameOff.refl (ids : List Nat) (T : TypeTable) : SameOff ids T T := ⟨fun _ _ => rfl, rfl⟩

theorem SameOff.append {ids ids' : List Nat} {T T' T'' : TypeTable} (h : SameOff ids T T')
    (h' : SameOff ids' T' T'') : SameOff (ids ++ ids') T T'' := by
  refine ⟨fun id hid => ?_, h'.functions.trans h.functions⟩
  rw [List.mem_append, not_or] at hid
  exact (h'.entry id hid.2).trans (h.entry id hid.1)

def SameOn (ids : List Nat) (T T' : TypeTable) : Prop := ∀ id ∈ ids, T'.entry id = T.entry id

/-- No symbol under one of the numbers has been marked. -/
def Unmarked (ids : List Nat) (T : TypeTable) : Prop := ∀ id ∈ ids, id ∉ T.builtins

theorem not_marked {T T' : TypeTable} {id : Nat}
    (hb : T'.builtins.contains id = T.builtins.contains id) (h : id ∉ T.builtins) :
    id ∉ T'.builtins := by
  intro hin
  rw [List.contains_iff_mem.mpr hin] at hb
  exact h (List.contains_iff_mem.mp hb.symm)

theorem Unmarked.of_entry {ids : List Nat} {T T' : TypeTable} (h : Unmarked ids T)
    (he : ∀ id ∈ ids, T'.entry id = T.entry id) : Unmarked ids T' := by
  intro id hid
  have hb : T'.builtins.contains id = T.builtins.contains id := congrArg (fun e => e.2.2) (he id hid)
  exact not_marked hb (h id hid)

/-- Checking has come to a point inside the frame `top`, which is inside the frames `rest`. -/
def At (c : Checker) (top : Env) (rest : List Env) : Prop :=
  c.scopes = Scopes.ofFrames (top :: rest ++ [builtinNames])

section At

variable {c : Checker} {top : Env} {rest : List Env}

theorem At.lookup (h : At c top rest) (name : String) :
    c.scopes.lookup (rest.length + 1) name =
      .ok (Scopes.find (top :: rest ++ [builtinNames]) name) := by
  have hl := Scopes.lookup_ofFrames top (rest ++ [builtinNames]) name
  rw [List.length_append] at hl
  rw [h]
  exact hl

theorem At.define (h : At c top rest) (name : String) (d : Declared) :
    c.scopes.define (rest.length + 1) name d = .ok (if (top.lookup name).isSome then .error d
      else .ok (Scopes.ofFrames (((name, d) :: top) :: rest ++ [builtinNames]))) := by
  have hd := Scopes.define_ofFrames top (rest ++ [builtinNames]) name d
  rw [List.length_append] at hd
  rw [h]
  exact hd

theorem At.enter (h : At c top rest) :
    c.scopes.enter (rest.length + 1) =
      (rest.length + 2, Scopes.ofFrames ([] :: top :: rest ++ [builtinNames])) := by
  have he := Scopes.enter_ofFrames top (rest ++ [builtinNames])
  rw [List.length_append] at he
  rw [h]
  exact he

theorem At.leave {inner : Env} (h : At c inner (top :: rest)) :
    c.scopes.leave (rest.length + 2) = .ok (Scopes.ofFrames (top :: rest ++ [builtinNames])) := by
  have hl := Scopes.leave_ofFrames inner top (rest ++ [builtinNames])
  rw [List.length_append] at hl
  rw [h]
  exact hl

end At

/-- A step from inside `top` that writes under the numbers `ids` and ends inside a frame with the given
property. The property may speak of any table that keeps the entries under `ids`. -/
def Runs {α : Type} (top : Env) (rest : List Env) (m : Check α) (ids : List Nat)
    (Q : TypeTable → α → Env → Prop) : Prop :=
  ∀ c a c', ids.Nodup → At c top rest → Unmarked ids c.table → m c = .ok (a, c') →
    ∃ top', At c' top' rest ∧ SameOff ids c.table c'.table ∧
      ∀ T, SameOn ids c'.table T → Q T a top'

/-- A step that leaves the scopes as they are. -/
def Finds {α : Type} (top : Env) (rest : List Env) (m : Check α) (ids : List Nat)
    (P : TypeTable → α → Prop) : Prop :=
  Runs top rest m ids fun T a top' => top' = top ∧ P T a

section Rules

variable {α β : Type} {top : Env} {rest : List Env} {m : Check α} {f : α → Check β}
  {ids ids' : List Nat}

theorem Runs.mono {Q Q' : TypeTable → α → Env → Prop} (h : Runs top rest m ids Q)
    (hq : ∀ T a top', Q T a top' → Q' T a top') : Runs top rest m ids Q' := by
  intro c a c' hn hat hu hm
  obtain ⟨top', hat', hoff, hQ⟩ := h c a c' hn hat hu hm
  exact ⟨top', hat', hoff, fun T hT => hq T a top' (hQ T hT)⟩

theorem Runs.bind {P : TypeTable → α → Env → Prop} {R : α → Env → TypeTable → β → Env → Prop}
    (hm : Runs top rest m ids P)
    (hf : ∀ a top', (∃ T, P T a top') → Runs top' rest (f a) ids' (R a top')) :
    Runs top rest (m >>= f) (ids ++ ids') fun T b top'' =>
      ∃ a top', P T a top' ∧ R a top' T b top'' := by
  intro c b c' hn hat hu h
  obtain ⟨hn₁, hn₂, hdisj⟩ := List.nodup_append.mp hn
  have hdis : ∀ {id}, id ∈ ids → id ∉ ids' := fun h₁ h₂ => hdisj _ h₁ _ h₂ rfl
  obtain ⟨a, q, hma, hfb⟩ := bind_eq_ok.mp h
  obtain ⟨top', hat', hoff, hP⟩ :=
    hm c a q hn₁ hat (fun id hid => hu id (List.mem_append_left _ hid)) hma
  have hu' : Unmarked ids' q.table := by
    apply Unmarked.of_entry (fun id hid => hu id (List.mem_append_right _ hid))
    exact fun id hid => hoff.entry id fun h₁ => hdis h₁ hid
  have hnow : ∃ T, P T a top' := ⟨q.table, hP q.table fun _ _ => rfl⟩
  obtain ⟨top'', hat'', hoff', hR⟩ := hf a top' hnow q b c' hn₂ hat' hu' hfb
  refine ⟨top'', hat'', hoff.append hoff', fun T hT => ?_⟩
  have hon : SameOn ids q.table T := fun id hid =>
    (hT id (List.mem_append_left _ hid)).trans (hoff'.entry id (hdis hid))
  exact ⟨a, top', hP T hon, hR T fun id hid => hT id (List.mem_append_right _ hid)⟩

theorem Finds.mono {P P' : TypeTable → α → Prop} (h : Finds top rest m ids P)
    (hp : ∀ T a, P T a → P' T a) : Finds top rest m ids P' :=
  Runs.mono h fun T a _ hq => ⟨hq.1, hp T a hq.2⟩

theorem Finds.andThen {P : TypeTable → α → Prop} {R : α → TypeTable → β → Env → Prop}
    (hm : Finds top rest m ids P) (hf : ∀ a, Runs top rest (f a) ids' (R a)) :
    Runs top rest (m >>= f) (ids ++ ids') fun T b top' => ∃ a, P T a ∧ R a T b top' := by
  have h : Runs top rest (m >>= f) (ids ++ ids') fun T b top'' =>
      ∃ a top', (top' = top ∧ P T a) ∧ R a T b top'' := by
    refine Runs.bind hm fun a top' hnow => ?_
    obtain ⟨T, rfl, -⟩ := hnow
    exact hf a
  refine h.mono ?_
  rintro T b top'' ⟨a, top', ⟨-, hp⟩, hr⟩
  exact ⟨a, hp, hr⟩

theorem Finds.bind {P : TypeTable → α → Prop} {R : α → TypeTable → β → Prop}
    (hm : Finds top rest m ids P) (hf : ∀ a, Finds top rest (f a) ids' (R a)) :
    Finds top rest (m >>= f) (ids ++ ids') fun T b => ∃ a, P T a ∧ R a T b := by
  refine Runs.mono (hm.andThen hf) ?_
  rintro T b top' ⟨a, hp, rfl, hr⟩
  exact ⟨rfl, a, hp, hr⟩

theorem Finds.andLast {P : TypeTable → α → Prop} {R : α → TypeTable → β → Env → Prop}
    (hm : Finds top rest m ids P) (hf : ∀ a, Runs top rest (f a) [] (R a)) :
    Runs top rest (m >>= f) ids fun T b top' => ∃ a, P T a ∧ R a T b top' :=
  List.append_nil ids ▸ hm.andThen hf

theorem Finds.last {P : TypeTable → α → Prop} {R : α → TypeTable → β → Prop}
    (hm : Finds top rest m ids P) (hf : ∀ a, Finds top rest (f a) [] (R a)) :
    Finds top rest (m >>= f) ids fun T b => ∃ a, P T a ∧ R a T b :=
  List.append_nil ids ▸ hm.bind hf

theorem finds_pure (a : α) : Finds top rest (pure a) [] fun _ b => b = a := by
  intro c b c' _ hat _ h
  obtain ⟨rfl, rfl⟩ := pure_eq_ok.mp h
  exact ⟨top, hat, .refl .., fun _ _ => ⟨rfl, rfl⟩⟩

theorem runs_pure (a : α) : Runs top rest (pure a) [] fun _ _ top' => top' = top :=
  Runs.mono (finds_pure a) fun _ _ _ h => h.1

theorem runs_throw (e : Failure TypeError) (Q : TypeTable → α → Env → Prop) :
    Runs top rest (throw e) ids Q :=
  fun _ _ _ _ _ _ h => absurd h throw_ne_ok

theorem runs_reject (span : Span) (e : TypeError) (Q : TypeTable → α → Env → Prop) :
    Runs top rest (reject span e) ids Q :=
  runs_throw _ Q

theorem finds_expect (t u : Ty) (span : Span) :
    Finds top rest (expect t u span) [] fun _ _ => t.compatible u = true := by
  unfold expect
  split
  · rename_i hc
    exact (finds_pure ()).mono fun _ _ _ => hc
  · exact runs_reject _ _ _

theorem finds_record (id : Nat) (t : Ty) :
    Finds top rest (record id t) [id] fun T _ => T.typeAt? id = some t := by
  intro c _ c' _ hat _ h
  obtain rfl : { c with table := c.table.record id t } = c' := (Prod.mk.inj (Except.ok.inj h)).2
  refine ⟨top, hat, ⟨?_, rfl⟩, fun T hT => ⟨rfl, ?_⟩⟩
  · intro id' hid
    rw [TypeTable.entry_record, if_neg (mt List.mem_singleton.mpr hid)]
  · have he := hT id (List.mem_singleton.mpr rfl)
    rw [TypeTable.entry_record, if_pos rfl] at he
    exact congrArg Prod.fst he

theorem Finds.recorded {infer : Check Ty} {P : TypeTable → Ty → Prop} (n : Node)
    (h : Finds top rest infer ids P) :
    Finds top rest (recorded n infer) (ids ++ [n.id]) fun T t => P T t ∧ T.typeAt? n.id = some t := by
  have hrec (t : Ty) : Finds top rest (do record n.id t; return t) [n.id] fun T u =>
      u = t ∧ T.typeAt? n.id = some t := by
    refine ((finds_record n.id t).bind fun _ => finds_pure t).mono ?_
    rintro T u ⟨-, ht, rfl⟩
    exact ⟨rfl, ht⟩
  refine (h.bind hrec).mono ?_
  rintro T t ⟨u, hp, rfl, ht⟩
  exact ⟨hp, ht⟩

theorem runs_define (x : Ident) (t : Ty) :
    Runs top rest (define (rest.length + 1) x t) [] fun _ _ top' =>
      top.lookup x.name = none ∧ top' = declare x t top := by
  intro c _ c' _ hat _ h
  simp only [define, hat.define] at h
  cases hl : top.lookup x.name with
  | some d =>
    rw [hl] at h
    cases h
  | none =>
    rw [hl] at h
    obtain ⟨-, rfl⟩ := Prod.mk.inj (Except.ok.inj h)
    exact ⟨declare x t top, rfl, .refl .., fun _ _ => ⟨rfl, rfl⟩⟩

theorem Runs.within {step : Nat → Check α} {Q : TypeTable → α → Env → Prop}
    (h : Runs [] (top :: rest) (step (rest.length + 2)) ids Q) :
    Finds top rest (within (rest.length + 1) step) ids fun T a => ∃ inner, Q T a inner := by
  intro c a c' hn hat hu hw
  obtain ⟨scope, c₁, hc₁, hw⟩ := bind_eq_ok.mp hw
  simp only [enter, hat.enter] at hc₁
  obtain ⟨rfl, rfl⟩ := Prod.mk.inj (Except.ok.inj hc₁)
  obtain ⟨a', c₂, hc₂, hw⟩ := bind_eq_ok.mp hw
  have hat₁ : At ⟨Scopes.ofFrames ([] :: top :: rest ++ [builtinNames]), c.table⟩ [] (top :: rest) :=
    rfl
  obtain ⟨inner, hat₂, hoff, hQ⟩ := h _ a' c₂ hn hat₁ hu hc₂
  obtain ⟨_, c₃, hc₃, hw⟩ := bind_eq_ok.mp hw
  obtain ⟨rfl, rfl⟩ := pure_eq_ok.mp hw
  simp only [leave, hat₂.leave, ofScopes] at hc₃
  obtain ⟨-, rfl⟩ := Prod.mk.inj (Except.ok.inj hc₃)
  exact ⟨top, rfl, hoff, fun T hT => ⟨rfl, inner, hQ T hT⟩⟩

theorem builtinNames_lookup {name : String} {d : Declared}
    (h : builtinNames.lookup name = some d) : builtins.lookup name = some d.type := by
  simp only [builtinNames, builtins, List.map_cons, List.map_nil, List.lookup_cons] at h ⊢
  split at h
  · obtain rfl := Option.some.inj h
    rfl
  · cases h

theorem lookup_of_find_metatype {name : String} {i : Nat} {d : Declared} {t : Ty}
    (h : Scopes.find (top :: rest ++ [builtinNames]) name = some (i, d)) (ht : d.type = .metatype t) :
    (top :: rest).flatten.lookup name = some d := by
  obtain ⟨-, -, hb⟩ | ⟨-, hl⟩ := Scopes.find_append_singleton h
  · have hb := builtinNames_lookup hb
    simp only [builtins, List.lookup_cons] at hb
    split at hb
    · rw [ht] at hb
      cases hb
    · cases hb
  · exact hl

end Rules

section Annotations

variable {Γ : Env} {find : TypeLookup}

theorem isAtomic_iff {name : String} {t : Ty} : IsAtomic name t ↔ Ty.atomic? name = some t := by
  constructor
  · intro h
    cases h <;> rfl
  · intro h
    obtain ⟨before, after, hl, -⟩ := List.lookup_eq_some_iff.mp h
    have hmem : (name, t) ∈ [("bool", Ty.bool), ("int", .int), ("string", .string), ("void", .void)] := by
      rw [hl]
      exact List.mem_append_right _ List.mem_cons_self
    simp only [List.mem_cons, Prod.mk.injEq, List.not_mem_nil, or_false] at hmem
    obtain ⟨rfl, rfl⟩ | ⟨rfl, rfl⟩ | ⟨rfl, rfl⟩ | ⟨rfl, rfl⟩ := hmem
    · exact .bool
    · exact .int
    · exact .string
    · exact .void

theorem denotes_of_resolveName (hfind : ∀ name t, find name = .ok (some (.metatype t)) →
      ∃ origin, Γ.lookup name = some ⟨.metatype t, origin⟩) {x : Ident} {t : Ty} (span : Span)
    (hl : x.name ≠ "list") (hm : x.name ≠ "map") (h : TypeExpr.resolveName find x = .ok t) :
    Denotes Γ (.mk x [] span) t := by
  unfold TypeExpr.resolveName at h
  split at h
  · rename_i ha
    obtain rfl := Except.ok.inj h
    exact .atomic (isAtomic_iff.mpr ha)
  · rename_i ha
    split at h
    case h_2 hf =>
      obtain rfl := Except.ok.inj h
      obtain ⟨origin, hx⟩ := hfind _ _ hf
      refine .named (fun u hu => ?_) hl hm hx
      rw [isAtomic_iff, ha] at hu
      cases hu
    all_goals cases h

theorem resolve_ok {name : Ident} {args : List TypeExpr} {span : Span} {t : Ty}
    (h : (TypeExpr.mk name args span).resolve find = .ok t) :
    (name.name = "list" ∧ ∃ item u, args = [item] ∧ item.resolve find = .ok u ∧ t = .list u) ∨
    (name.name = "map" ∧ ∃ key value k v, args = [key, value] ∧ key.resolve find = .ok k ∧
      value.resolve find = .ok v ∧ t = .map k v) ∨
    (name.name ≠ "list" ∧ name.name ≠ "map" ∧ args = [] ∧
      TypeExpr.resolveName find name = .ok t) := by
  unfold TypeExpr.resolve at h
  split at h
  case isTrue hl =>
    split at h
    case h_1 item =>
      split at h
      case h_1 => cases h
      case h_2 u hu => exact .inl ⟨hl, item, u, rfl, hu, (Except.ok.inj h).symm⟩
    case h_2 => cases h
  case isFalse hl =>
    split at h
    case isTrue hm =>
      split at h
      case h_1 key value =>
        split at h
        case h_1 => cases h
        case h_2 k hk =>
          split at h
          case h_1 => cases h
          case h_2 v hv =>
            exact .inr (.inl ⟨hm, key, value, k, v, rfl, hk, hv, (Except.ok.inj h).symm⟩)
      case h_2 => cases h
    case isFalse hm =>
      split at h
      case h_1 => cases h
      case h_2 u hu =>
        split at h
        case isTrue hargs =>
          rw [Except.ok.inj h] at hu
          exact .inr (.inr ⟨hl, hm, List.isEmpty_iff.mp hargs, hu⟩)
        case isFalse => cases h

theorem denotes_of_resolve (hfind : ∀ name t, find name = .ok (some (.metatype t)) →
      ∃ origin, Γ.lookup name = some ⟨.metatype t, origin⟩) :
    ∀ (a : TypeExpr) {t : Ty}, a.resolve find = .ok t → Denotes Γ a t
  | .mk name args span, t, h => by
    rcases resolve_ok h with ⟨hx, item, u, hargs, hu, rfl⟩ |
      ⟨hx, key, value, k, v, hargs, hk, hv, rfl⟩ | ⟨hl, hm, rfl, hx⟩
    · have hitem := denotes_of_resolve hfind item hu
      rw [hargs]
      exact .list hx hitem
    · have hkey := denotes_of_resolve hfind key hk
      have hvalue := denotes_of_resolve hfind value hv
      rw [hargs]
      exact .map hx hkey hvalue
    · exact denotes_of_resolveName hfind span hl hm hx
termination_by a => sizeOf a
decreasing_by
  all_goals
    rw [hargs]
    simp only [TypeExpr.mk.sizeOf_spec, List.cons.sizeOf_spec]
    omega

end Annotations

section Resolve

variable {top : Env} {rest : List Env}

theorem finds_resolve (a : TypeExpr) :
    Finds top rest (resolve (rest.length + 1) a) [] fun _ t => Denotes (top :: rest).flatten a t := by
  intro c t c' _ hat _ h
  simp only [resolve, hat.lookup, ofScopes] at h
  split at h
  · cases h
  · rename_i ht
    obtain ⟨rfl, rfl⟩ := Prod.mk.inj (Except.ok.inj h)
    refine ⟨top, hat, .refl .., fun _ _ => ⟨rfl, denotes_of_resolve ?_ a ht⟩⟩
    intro name u hf
    have hfound := Except.ok.inj hf
    obtain ⟨⟨i, d⟩, hd, hu⟩ := Option.map_eq_some_iff.mp hfound
    refine ⟨d.origin, ?_⟩
    rw [lookup_of_find_metatype hd hu, ← hu]

theorem finds_resolveAll (as : List TypeExpr) :
    Finds top rest (resolveAll (rest.length + 1) as) [] fun _ ts =>
      List.Forall₂ (Denotes (top :: rest).flatten) as ts := by
  induction as with
  | nil =>
    refine (finds_pure []).mono ?_
    rintro _ _ rfl
    exact .nil
  | cons a as ih =>
    refine ((finds_resolve a).bind fun t => ih.bind fun ts => finds_pure (t :: ts)).mono ?_
    rintro T _ ⟨t, ht, ts, hts, rfl⟩
    exact .cons ht hts

end Resolve

end Checker

end Gondola
