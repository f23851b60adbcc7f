import Gondola.Proofs.Ty
import Gondola.Proofs.Typing.Placement
import Gondola.Proofs.Typing.Stands
import Gondola.Proofs.Typing.Steps

/-! Checking expressions never faults, since all function types that come into view have one label for each parameter.
Nor does it look at places. -/
namespace Gondola

open Typing

/-- One label for each parameter, and no label twice. -/
structure Labelling (params : List Ty) (labels : List (Option String)) : Prop where
  length : labels.length = params.length
  distinct : (labels.filterMap id).Nodup

namespace Ty

def isDeclared : Ty → Bool
  | .struct .. | .enum .. => true
  | _ => false

/-- All functions in the type are labelled, and what is a type itself is a declared one. -/
inductive Labelled : Ty → Prop
  | bool : Labelled .bool
  | int : Labelled .int
  | string : Labelled .string
  | void : Labelled .void
  | any : Labelled .any
  | list {t} (h : Labelled t) : Labelled (.list t)
  | map {k v} (hk : Labelled k) (hv : Labelled v) : Labelled (.map k v)
  | function {ps ls r} (h : Labelling ps ls) (hps : ∀ t ∈ ps, Labelled t) (hr : Labelled r) :
    Labelled (.function ps ls r)
  | struct {s fs} (h : ∀ f ∈ fs, Labelled (Prod.snd f)) : Labelled (.struct s fs)
  | enum {s cs} (h : ∀ c ∈ cs, ∀ t ∈ Prod.snd c, Labelled t) : Labelled (.enum s cs)
  | metatype {t} (hd : t.isDeclared = true) (h : Labelled t) : Labelled (.metatype t)

section Labelled

variable {t k v r : Ty} {ps : List Ty} {ls : List (Option String)} {s : String}

@[simp] theorem labelled_list : (Ty.list t).Labelled ↔ t.Labelled := by
  refine ⟨fun h => ?_, .list⟩
  cases h with
  | list h => exact h

@[simp] theorem labelled_map : (Ty.map k v).Labelled ↔ k.Labelled ∧ v.Labelled := by
  refine ⟨fun h => ?_, fun h => .map h.1 h.2⟩
  cases h with
  | map hk hv => exact ⟨hk, hv⟩

@[simp] theorem labelled_metatype : (Ty.metatype t).Labelled ↔ t.isDeclared = true ∧ t.Labelled := by
  refine ⟨fun h => ?_, fun h => .metatype h.1 h.2⟩
  cases h with
  | metatype hd h => exact ⟨hd, h⟩

@[simp] theorem labelled_function : (Ty.function ps ls r).Labelled ↔
    Labelling ps ls ∧ (∀ t ∈ ps, t.Labelled) ∧ r.Labelled := by
  refine ⟨fun h => ?_, fun h => .function h.1 h.2.1 h.2.2⟩
  cases h with
  | function h hps hr => exact ⟨h, hps, hr⟩

@[simp] theorem labelled_struct {fs : List (String × Ty)} :
    (Ty.struct s fs).Labelled ↔ ∀ f ∈ fs, f.2.Labelled := by
  refine ⟨fun h => ?_, .struct⟩
  cases h with
  | struct h => exact h

@[simp] theorem labelled_enum {cs : List (String × List Ty)} :
    (Ty.enum s cs).Labelled ↔ ∀ c ∈ cs, ∀ t ∈ c.2, t.Labelled := by
  refine ⟨fun h => ?_, .enum⟩
  cases h with
  | enum h => exact h

theorem labelling_unlabelled (ps : List Ty) : Labelling ps (ps.map fun _ => none) := by
  constructor
  · exact List.length_map _
  · have hnone : (ps.map fun _ => (none : Option String)).filterMap id = [] := by
      simp [List.filterMap_map]
    rw [hnone]
    exact List.nodup_nil

theorem Labelled.caseType {cases : List (String × List Ty)} (h : (Ty.enum s cases).Labelled)
    (hps : ∀ t ∈ ps, t.Labelled) : (Ty.caseType s cases ps).Labelled := by
  unfold Ty.caseType
  split
  · exact h
  · exact labelled_function.mpr ⟨labelling_unlabelled ps, hps, h⟩

theorem Labelled.unify {a b c : Ty} (ha : a.Labelled) (hb : b.Labelled) (h : a.unify b = some c) : c.Labelled := by
  obtain ⟨-, ⟨-, rfl⟩ | ⟨-, rfl⟩⟩ := unify_eq_some h
  · exact ha
  · exact hb

end Labelled

end Ty

theorem labelled_print : Signature.print.type.Labelled := by
  have hprint : Labelling Signature.print.params Signature.print.labels := ⟨rfl, List.pairwise_singleton _ _⟩
  refine Ty.labelled_function.mpr ⟨hprint, ?_, .void⟩
  exact List.forall_mem_singleton.mpr .any

theorem Signature.position?_lt {sig : Signature} (h : Labelling sig.params sig.labels) {x : String} {p : Nat}
    (hp : sig.position? x = some p) : p < sig.params.length := by
  rw [position?, List.findIdx?_eq_some_iff_getElem] at hp
  obtain ⟨hlt, -⟩ := hp
  exact h.length ▸ hlt

namespace Typing

abbrev LabelledEnv (Γ : Env) : Prop := EnvAll Ty.Labelled Γ

theorem labelledEnv_nil : LabelledEnv [] := nofun

theorem IsAtomic.labelled {x : String} {t : Ty} (h : IsAtomic x t) : t.Labelled := by
  cases h with
  | bool => exact .bool
  | int => exact .int
  | string => exact .string
  | void => exact .void

theorem Denotes.labelled {Γ : Env} (hΓ : LabelledEnv Γ) {a : TypeExpr} {t : Ty} (h : Denotes Γ a t) :
    t.Labelled := by
  induction h with
  | atomic hx => exact hx.labelled
  | list _ _ ih => exact Ty.labelled_list.mpr ih
  | map _ _ _ ihk ihv => exact Ty.labelled_map.mpr ⟨ihk, ihv⟩
  | named _ _ _ h => exact (Ty.labelled_metatype.mp (hΓ _ _ h)).2

end Typing

namespace Checker

section Bind

variable {α β : Type} {m : Check α} {f : α → Check β} {c : Checker}

theorem bind_eq_error {e : Failure TypeError} :
    (m >>= f) c = .error e ↔ m c = .error e ∨ ∃ a q, m c = .ok (a, q) ∧ f a q = .error e := by
  change Except.bind (m c) (fun r => f r.1 r.2) = _ ↔ _
  cases m c with
  | error e' => simp [Except.bind]
  | ok r =>
    obtain ⟨a, q⟩ := r
    simp [Except.bind]

end Bind

/-- A step from inside `top` that never faults. If it is not rejected, it ends inside a frame with the given
property. The second step is the same one in another place. -/
structure Safe {α : Type} (σ : Span → Span) (top : Env) (rest : List Env) (m m' : Check α)
    (Q : α → Env → Prop) : Prop where
  faultless : ∀ c f, At c top rest → m c ≠ .error (.internal f)
  ends : ∀ c a c', At c top rest → m c = .ok (a, c') → ∃ top', At c' top' rest ∧ Q a top'
  moves : ∀ c, At c top rest → Moves σ m m' c

/-- A step that never faults and leaves the scopes as they are. -/
abbrev Checks {α : Type} (σ : Span → Span) (top : Env) (rest : List Env) (m m' : Check α) (P : α → Prop) : Prop :=
  Safe σ top rest m m' fun a top' => top' = top ∧ P a

section Rules

variable {α β : Type} {σ : Span → Span} {top : Env} {rest : List Env} {m m' : Check α} {f f' : α → Check β}

theorem Safe.mono {Q Q' : α → Env → Prop} (h : Safe σ top rest m m' Q) (hq : ∀ a top', Q a top' → Q' a top') :
    Safe σ top rest m m' Q' := by
  refine ⟨h.faultless, fun c a c' hat hm => ?_, h.moves⟩
  obtain ⟨top', hat', hQ⟩ := h.ends c a c' hat hm
  exact ⟨top', hat', hq a top' hQ⟩

theorem Safe.bind {P : α → Env → Prop} {Q : β → Env → Prop} (hm : Safe σ top rest m m' P)
    (hf : ∀ a top', P a top' → Safe σ top' rest (f a) (f' a) Q) : Safe σ top rest (m >>= f) (m' >>= f') Q := by
  constructor
  · intro c fault hat h
    rcases bind_eq_error.mp h with h | ⟨a, q, ha, h⟩
    · exact hm.faultless c fault hat h
    · obtain ⟨top', hat', hP⟩ := hm.ends c a q hat ha
      exact (hf a top' hP).faultless q fault hat' h
  · intro c b c' hat h
    obtain ⟨a, q, ha, hb⟩ := bind_eq_ok.mp h
    obtain ⟨top', hat', hP⟩ := hm.ends c a q hat ha
    exact (hf a top' hP).ends q b c' hat' hb
  · intro c hat
    refine (hm.moves c hat).bind fun a c' ha => ?_
    obtain ⟨top', hat', hP⟩ := hm.ends c a c' hat ha
    exact (hf a top' hP).moves c' hat'

theorem Checks.andThen {P : α → Prop} {Q : β → Env → Prop} (hm : Checks σ top rest m m' P)
    (hf : ∀ a, P a → Safe σ top rest (f a) (f' a) Q) : Safe σ top rest (m >>= f) (m' >>= f') Q := by
  refine hm.bind fun a top' h => ?_
  obtain ⟨rfl, ha⟩ := h
  exact hf a ha

theorem safe_pure {Q : α → Env → Prop} {a : α} (ha : Q a top) : Safe σ top rest (pure a) (pure a) Q := by
  refine ⟨fun c fault hat h => ?_, fun c b c' hat h => ?_, fun _ _ => rfl⟩
  · cases h
  · obtain ⟨rfl, rfl⟩ := pure_eq_ok.mp h
    exact ⟨top, hat, ha⟩

theorem checks_pure {P : α → Prop} {a : α} (ha : P a) : Checks σ top rest (pure a) (pure a) P :=
  safe_pure ⟨rfl, ha⟩

theorem safe_reject {span span' : Span} (hspan : span' = σ span) (e : TypeError) (Q : α → Env → Prop) :
    Safe σ top rest (reject span e) (reject span' e) Q := by
  subst hspan
  refine ⟨fun c fault hat h => ?_, fun c a c' hat h => ?_, fun _ _ => rfl⟩
  · cases h
  · cases h

theorem checks_expect (t u : Ty) {span span' : Span} (hspan : span' = σ span) :
    Checks σ top rest (expect t u span) (expect t u span') fun _ => True := by
  unfold expect
  split
  · exact checks_pure trivial
  · exact safe_reject hspan _ _

theorem checks_unify {t u : Ty} (ht : t.Labelled) (hu : u.Labelled) {span span' : Span} (hspan : span' = σ span) :
    Checks σ top rest (unify t u span) (unify t u span') Ty.Labelled := by
  unfold unify
  split
  · rename_i h
    exact checks_pure (ht.unify hu h)
  · exact safe_reject hspan _ _

theorem safe_noted {g g' : Checker → Checker} {Q : α → Env → Prop} {a : α} (hg : ∀ c, (g c).scopes = c.scopes)
    (hg' : ∀ c, g' (c.mapSpan σ) = (g c).mapSpan σ) (ha : Q a top) :
    Safe σ top rest (do modify g; return a) (do modify g'; return a) Q := by
  constructor
  · intro c fault hat h
    cases h
  · intro c b c' hat h
    obtain ⟨rfl, rfl⟩ := Prod.mk.inj (Except.ok.inj h)
    exact ⟨top, (hg c).trans hat, ha⟩
  · intro c _
    show Except.ok (a, g' (c.mapSpan σ)) = .ok (a, (g c).mapSpan σ)
    rw [hg']

theorem Checks.recorded {infer infer' : Check Ty} {P : Ty → Prop} (n : Node)
    (h : Checks σ top rest infer infer' P) :
    Checks σ top rest (recorded n infer) (recorded (n.mapSpan σ) infer') P := by
  refine h.andThen fun t ht => ?_
  unfold record
  exact safe_noted (fun _ => rfl) (fun _ => rfl) ⟨rfl, ht⟩

theorem safe_lookup {g g' : Option (Nat × Declared) → Check α} {Q : α → Env → Prop} (name : String)
    (h : ∀ found, found = Scopes.find (top :: rest ++ [builtinNames]) name →
      Safe σ top rest (g found) (g' (found.map (Prod.map id (Declared.mapSpan σ)))) Q) :
    Safe σ top rest (lookup (rest.length + 1) name >>= g) (lookup (rest.length + 1) name >>= g') Q := by
  have hrun {c : Checker} (hat : At c top rest) : (lookup (rest.length + 1) name >>= g) c =
      g (Scopes.find (top :: rest ++ [builtinNames]) name) c := by
    show StateT.bind _ _ c = _
    simp only [StateT.bind, lookup, hat.lookup, ofScopes]
    rfl
  have hfound := h _ rfl
  constructor
  · intro c fault hat he
    exact hfound.faultless c fault hat ((hrun hat).symm.trans he)
  · intro c a c' hat ha
    exact hfound.ends c a c' hat ((hrun hat).symm.trans ha)
  · intro c hat
    unfold Moves
    rw [hrun hat, ← hfound.moves c hat]
    show StateT.bind _ _ _ = _
    simp only [StateT.bind, lookup, mapSpan, Scopes.lookup_map, hat.lookup, Except.map, ofScopes]
    rfl

theorem safe_define (x : Ident) (t : Ty) :
    Safe σ top rest (define (rest.length + 1) x t) (define (rest.length + 1) (x.mapSpan σ) t) fun _ top' =>
      top.lookup x.name = none ∧ top' = declare x t top := by
  refine ⟨?_, ?_, fun _ _ => moves_define _ x t⟩
  · intro c fault hat h
    simp only [define, hat.define] at h
    cases hl : top.lookup x.name with
    | some | none =>
      rw [hl] at h
      cases h
  · intro c _ c' hat h
    simp only [define, hat.define] at h
    cases hl : top.lookup x.name with
    | some d =>
      rw [hl] at h
      cases h
    | none =>
      rw [hl] at h
      obtain ⟨-, rfl⟩ := Prod.mk.inj (Except.ok.inj h)
      exact ⟨declare x t top, rfl, rfl, rfl⟩

theorem resolveName_ne_internal {find : TypeLookup} (hfind : ∀ name f, find name ≠ .error (.internal f)) (x : Ident)
    (f : Fault) : TypeExpr.resolveName find x ≠ .error (.internal f) := by
  intro h
  unfold TypeExpr.resolveName at h
  split at h
  · cases h
  · split at h
    · rename_i e he
      obtain rfl := Except.error.inj h
      exact hfind _ _ he
    · cases h
    · cases h
    · cases h

theorem resolve_ne_internal {find : TypeLookup} (hfind : ∀ name f, find name ≠ .error (.internal f)) :
    ∀ (a : TypeExpr) (f : Fault), a.resolve find ≠ .error (.internal f)
  | .mk name args span, f => by
    intro h
    unfold TypeExpr.resolve at h
    split at h
    · split at h
      · split at h
        · rename_i item _ e he
          obtain rfl := Except.error.inj h
          exact resolve_ne_internal hfind item f he
        · cases h
      · cases h
    · split at h
      · split at h
        · rename_i key value
          split at h
          · rename_i e he
            obtain rfl := Except.error.inj h
            exact resolve_ne_internal hfind key f he
          · split at h
            · rename_i e he
              obtain rfl := Except.error.inj h
              exact resolve_ne_internal hfind value f he
            · cases h
        · cases h
      · split at h
        · rename_i e he
          obtain rfl := Except.error.inj h
          exact resolveName_ne_internal hfind name f he
        · split at h
          · cases h
          · cases h

theorem checks_resolve (a : TypeExpr) :
    Checks σ top rest (resolve (rest.length + 1) a) (resolve (rest.length + 1) (a.mapSpan σ)) fun t =>
      Denotes (top :: rest).flatten a t := by
  refine ⟨?_, ?_, fun _ _ => moves_resolve _ a⟩
  · intro c fault hat h
    simp only [resolve, hat.lookup, ofScopes] at h
    split at h
    · rename_i e he
      obtain rfl := Except.error.inj h
      have hfind (name : String) (f : Fault) :
          (Except.ok (Scopes.find (top :: rest ++ [builtinNames]) name) : Except (Failure TypeError) _).map
            (Option.map fun d => d.2.type) ≠ .error (.internal f) := by
        intro h
        cases h
      exact resolve_ne_internal hfind a fault he
    · cases h
  · intro c t c' hat h
    simp only [resolve, hat.lookup, ofScopes] at h
    split at h
    · cases h
    · rename_i u hu
      obtain ⟨rfl, rfl⟩ := Prod.mk.inj (Except.ok.inj h)
      refine ⟨top, hat, rfl, denotes_of_resolve ?_ a hu⟩
      intro name v hf
      obtain ⟨⟨i, d⟩, hd, hv⟩ := Option.map_eq_some_iff.mp (Except.ok.inj hf)
      refine ⟨d.origin, ?_⟩
      rw [lookup_of_find_metatype hd hv, ← hv]

theorem enter_of_at {c : Checker} (hat : At c top rest) :
    ∃ c', enter (rest.length + 1) c = .ok (rest.length + 2, c') ∧ At c' [] (top :: rest) := by
  refine ⟨⟨Scopes.ofFrames ([] :: top :: rest ++ [builtinNames]), c.table⟩, ?_, rfl⟩
  simp only [enter, hat.enter]

theorem leave_of_at {c : Checker} {inner : Env} (hat : At c inner (top :: rest)) :
    ∃ c', leave (rest.length + 2) c = .ok ((), c') ∧ At c' top rest := by
  refine ⟨⟨Scopes.ofFrames (top :: rest ++ [builtinNames]), c.table⟩, ?_, rfl⟩
  simp only [leave, hat.leave, ofScopes]

theorem Safe.within {step step' : Nat → Check α} {Q : α → Env → Prop}
    (h : Safe σ [] (top :: rest) (step (rest.length + 2)) (step' (rest.length + 2)) Q) :
    Checks σ top rest (within (rest.length + 1) step) (within (rest.length + 1) step') fun a =>
      ∃ inner, Q a inner := by
  constructor
  · intro c fault hat hw
    obtain ⟨c₁, hc₁, hat₁⟩ := enter_of_at hat
    rcases bind_eq_error.mp hw with hw | ⟨scope, q, hq, hw⟩
    · cases hc₁.symm.trans hw
    · obtain ⟨rfl, rfl⟩ := Prod.mk.inj (Except.ok.inj (hc₁.symm.trans hq))
      rcases bind_eq_error.mp hw with hw | ⟨a, c₂, hc₂, hw⟩
      · exact h.faultless c₁ fault hat₁ hw
      · obtain ⟨inner, hat₂, -⟩ := h.ends c₁ a c₂ hat₁ hc₂
        obtain ⟨c₃, hc₃, -⟩ := leave_of_at hat₂
        rcases bind_eq_error.mp hw with hw | ⟨_, _, -, hw⟩
        · cases hc₃.symm.trans hw
        · cases hw
  · intro c a c' hat hw
    obtain ⟨c₁, hc₁, hat₁⟩ := enter_of_at hat
    obtain ⟨scope, q, hq, hw⟩ := bind_eq_ok.mp hw
    obtain ⟨rfl, rfl⟩ := Prod.mk.inj (Except.ok.inj (hc₁.symm.trans hq))
    obtain ⟨b, c₂, hc₂, hw⟩ := bind_eq_ok.mp hw
    obtain ⟨inner, hat₂, hQ⟩ := h.ends c₁ b c₂ hat₁ hc₂
    obtain ⟨c₃, hc₃, hat₃⟩ := leave_of_at hat₂
    obtain ⟨_, q, hq, hw⟩ := bind_eq_ok.mp hw
    obtain ⟨-, rfl⟩ := Prod.mk.inj (Except.ok.inj (hc₃.symm.trans hq))
    obtain ⟨rfl, rfl⟩ := pure_eq_ok.mp hw
    exact ⟨top, hat₃, rfl, inner, hQ⟩
  · intro c hat
    obtain ⟨c₁, hc₁, hat₁⟩ := enter_of_at hat
    refine (moves_enter _).bind fun scope q hq => ?_
    obtain ⟨rfl, rfl⟩ := Prod.mk.inj (Except.ok.inj (hc₁.symm.trans hq))
    exact (h.moves c₁ hat₁).bind fun _ _ _ => (moves_leave _).bind fun _ _ _ => rfl

end Rules

section Expressions

variable {σ : Span → Span} {top : Env} {rest : List Env}

theorem labelled_of_find (hΓ : LabelledEnv (top :: rest).flatten) {name : String} {i : Nat} {d : Declared}
    (h : Scopes.find (top :: rest ++ [builtinNames]) name = some (i, d)) : d.type.Labelled := by
  rcases Scopes.find_append_singleton h with ⟨-, -, hb⟩ | ⟨-, hl⟩
  · have hb := builtinNames_lookup hb
    simp only [builtins, List.lookup_cons] at hb
    split at hb
    · rw [← Option.some.inj hb]
      exact labelled_print
    · cases hb
  · exact hΓ name d hl

theorem checks_symbolType (hΓ : LabelledEnv (top :: rest).flatten) (n : Node) (x : Ident) :
    Checks σ top rest (symbolType (rest.length + 1) n x) (symbolType (rest.length + 1) (n.mapSpan σ) (x.mapSpan σ))
      Ty.Labelled := by
  refine safe_lookup x.name fun found hfound => ?_
  cases found with
  | none => exact safe_reject rfl _ _
  | some r =>
    obtain ⟨i, d⟩ := r
    have hd := labelled_of_find hΓ hfound.symm
    show Checks σ top rest (if i = Scopes.root then _ else _) (if i = Scopes.root then _ else _) _
    split
    · exact safe_noted (fun _ => rfl) (fun _ => rfl) ⟨rfl, hd⟩
    · exact safe_noted (fun _ => rfl) (fun _ => rfl) ⟨rfl, hd⟩

theorem checks_fieldType {base : Ty} (hb : base.Labelled) {span span' : Span} (hspan : span' = σ span) (x : Ident) :
    Checks σ top rest (fieldType base span x) (fieldType base span' (x.mapSpan σ)) Ty.Labelled := by
  have hname : (x.mapSpan σ).name = x.name := rfl
  simp only [fieldType, hname]
  split
  · split
    · rename_i hl
      obtain ⟨before, after, rfl, -⟩ := List.lookup_eq_some_iff.mp hl
      exact checks_pure (Ty.labelled_struct.mp hb _ (List.mem_append_right _ List.mem_cons_self))
    · exact safe_reject rfl _ _
  · split
    · rename_i hl
      have henum := (Ty.labelled_metatype.mp hb).2
      have hparams := Ty.labelled_enum.mp henum
      obtain ⟨before, after, rfl, -⟩ := List.lookup_eq_some_iff.mp hl
      exact checks_pure (henum.caseType (hparams _ (List.mem_append_right _ List.mem_cons_self)))
    · exact safe_reject rfl _ _
  · exact safe_reject hspan _ _

theorem checks_indexType {base place : Ty} (hb : base.Labelled) {s s' t t' : Span} (hs : s' = σ s) (ht : t' = σ t) :
    Checks σ top rest (indexType base place s t) (indexType base place s' t') Ty.Labelled := by
  unfold indexType
  split
  · exact (checks_expect _ _ ht).andThen fun _ _ => checks_pure (Ty.labelled_list.mp hb)
  · exact (checks_expect _ _ ht).andThen fun _ _ => checks_pure (Ty.labelled_map.mp hb).2
  · exact safe_reject hs _ _

theorem checks_parameterOf {sig : Signature} (hsig : Labelling sig.params sig.labels) {position : Nat}
    (hposition : position < sig.params.length) (after : Bool) (a : Argument) :
    Checks σ top rest (parameterOf sig position after a) (parameterOf sig position after (a.mapSpan σ)) fun p =>
      p < sig.params.length := by
  obtain ⟨label, value⟩ := a
  cases label with
  | none =>
    simp only [parameterOf, Argument.mapSpan, Option.map_none]
    split
    · exact safe_reject (value.span_mapSpan σ) _ _
    · exact checks_pure hposition
  | some label =>
    have hname : (label.mapSpan σ).name = label.name := rfl
    simp only [parameterOf, Argument.mapSpan, Option.map_some, hname]
    split
    · rename_i p hp
      exact checks_pure (Signature.position?_lt hsig hp)
    · exact safe_reject rfl _ _

mutual
theorem checks_expr (hΓ : LabelledEnv (top :: rest).flatten) : ∀ e : Expr,
    Checks σ top rest (checkExpr (rest.length + 1) e) (checkExpr (rest.length + 1) (e.mapSpan σ)) Ty.Labelled
  | .int n _ => (checks_pure .int).recorded n
  | .string n _ => (checks_pure .string).recorded n
  | .bool n _ => (checks_pure .bool).recorded n
  | .symbol n x => (checks_symbolType hΓ n x).recorded n
  | .binary n op l r => by
    have hresult : op.resultType.Labelled := by
      unfold BinaryOp.resultType BinaryOp.operandType
      split
      · exact .bool
      · split
        · exact .bool
        · exact .int
    refine .recorded n ((checks_expr hΓ l).andThen fun lt _ => ?_)
    refine (checks_expect _ _ (l.span_mapSpan σ)).andThen fun _ _ => (checks_expr hΓ r).andThen fun rt _ => ?_
    exact (checks_expect _ _ (r.span_mapSpan σ)).andThen fun _ _ => checks_pure hresult
  | .unary n op e => by
    have hresult : op.type.Labelled := by
      cases op with
      | neg => exact .int
      | not => exact .bool
    exact .recorded n ((checks_expr hΓ e).andThen fun t _ =>
      (checks_expect _ _ (e.span_mapSpan σ)).andThen fun _ _ => checks_pure hresult)
  | .call n c as => by
    refine .recorded n ((checks_expr hΓ c).andThen fun type htype => ?_)
    rw [Expr.mapSpanArguments_eq_map, List.length_map, ← Expr.mapSpanArguments_eq_map]
    split
    · rename_i ps ls r
      obtain ⟨hlabels, -, hr⟩ := Ty.labelled_function.mp htype
      split
      · rename_i hlen
        exact (checks_arguments hΓ ⟨ps, ls, r⟩ hlabels 0 [] false as (by simpa using hlen)).andThen
          fun _ _ => checks_pure hr
      · exact safe_reject rfl _ _
    · rename_i s fields
      refine (checks_fields hΓ s fields [] as).andThen fun given _ => ?_
      split
      · exact safe_reject rfl _ _
      · exact checks_pure (Ty.labelled_metatype.mp htype).2
    · exact safe_reject (c.span_mapSpan σ) _ _
  | .list n es =>
    .recorded n ((checks_items hΓ .any .any es).andThen fun _ h => checks_pure (.list h))
  | .map n es =>
    .recorded n ((checks_entries hΓ .any .any .any .any es).andThen fun _ h => checks_pure (.map h.1 h.2))
  | .index n b i =>
    .recorded n ((checks_expr hΓ b).andThen fun _ hb => (checks_expr hΓ i).andThen fun _ _ =>
      checks_indexType hb (b.span_mapSpan σ) (i.span_mapSpan σ))
  | .field n b x =>
    .recorded n ((checks_expr hΓ b).andThen fun _ hb => checks_fieldType hb (b.span_mapSpan σ) x)
/-- Positions stay below the number of parameters, since there are as many arguments. -/
theorem checks_arguments (hΓ : LabelledEnv (top :: rest).flatten) (sig : Signature)
    (hsig : Labelling sig.params sig.labels) (position : Nat) (bound : List Nat) (after : Bool) :
    ∀ as : List Argument, position + as.length = sig.params.length →
      Checks σ top rest (checkArguments (rest.length + 1) sig position bound after as)
        (checkArguments (rest.length + 1) sig position bound after (Expr.mapSpanArguments σ as)) fun _ => True
  | [], _ => checks_pure trivial
  | ⟨label, value⟩ :: as, hlen => by
    have hposition : position < sig.params.length := by
      rw [List.length_cons] at hlen
      omega
    refine (checks_parameterOf hsig hposition after ⟨label, value⟩).andThen fun p hp => ?_
    split
    · rename_i hnone
      rw [List.getElem?_eq_getElem hp] at hnone
      cases hnone
    · split
      · rw [← argumentName_mapSpan]
        exact safe_reject (value.span_mapSpan σ) _ _
      · refine (checks_expr hΓ value).andThen fun _ _ =>
          (checks_expect _ _ (value.span_mapSpan σ)).andThen fun _ _ => ?_
        rw [Option.isSome_map]
        apply checks_arguments hΓ sig hsig
        rw [List.length_cons] at hlen
        omega
theorem checks_fields (hΓ : LabelledEnv (top :: rest).flatten) (s : String) (fields : List (String × Ty))
    (given : List String) : ∀ as : List Argument,
      Checks σ top rest (checkFields (rest.length + 1) s fields given as)
        (checkFields (rest.length + 1) s fields given (Expr.mapSpanArguments σ as)) fun _ => True
  | [] => checks_pure trivial
  | ⟨none, value⟩ :: _ => safe_reject (value.span_mapSpan σ) _ _
  | ⟨some label, value⟩ :: as => by
    have hname : (label.mapSpan σ).name = label.name := rfl
    simp only [Expr.mapSpanArguments, Option.map_some, checkFields, hname]
    split
    · exact safe_reject rfl _ _
    · split
      · exact safe_reject rfl _ _
      · exact (checks_expr hΓ value).andThen fun _ _ =>
          (checks_expect _ _ (value.span_mapSpan σ)).andThen fun _ _ => checks_fields hΓ s fields _ as
theorem checks_items (hΓ : LabelledEnv (top :: rest).flatten) (current : Ty) (hc : current.Labelled) :
    ∀ es : List Expr, Checks σ top rest (checkItems (rest.length + 1) current es)
      (checkItems (rest.length + 1) current (Expr.mapSpanItems σ es)) Ty.Labelled
  | [] => checks_pure hc
  | e :: es => (checks_expr hΓ e).andThen fun _ ht => (checks_unify hc ht (e.span_mapSpan σ)).andThen
      fun next hnext => checks_items hΓ next hnext es
theorem checks_entries (hΓ : LabelledEnv (top :: rest).flatten) (key value : Ty) (hk : key.Labelled)
    (hv : value.Labelled) : ∀ es : List (Expr × Expr),
      Checks σ top rest (checkEntries (rest.length + 1) key value es)
        (checkEntries (rest.length + 1) key value (Expr.mapSpanEntries σ es)) fun t => t.1.Labelled ∧ t.2.Labelled
  | [] => checks_pure ⟨hk, hv⟩
  | (k, v) :: es =>
    (checks_expr hΓ k).andThen fun _ hkt => (checks_unify hk hkt (k.span_mapSpan σ)).andThen fun key' hk' =>
      (checks_expr hΓ v).andThen fun _ hvt => (checks_unify hv hvt (v.span_mapSpan σ)).andThen fun value' hv' =>
        checks_entries hΓ key' value' hk' hv' es
end

end Expressions

end Checker

end Gondola
