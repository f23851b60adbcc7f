import Gondola.Proofs.Code.Placement
import Gondola.Proofs.Names

/-! Writing a program follows checking it: at each point the names in scope stand for the declarations that are visible
there. Nothing that is written hangs on places. -/
namespace Gondola

open Typing

/-- Bindings of names, the nearest one first, that stand for declarations one by one. A declaration may have
no binding if its type is one of those that the target omits. -/
inductive Mirrors (omits : Ty → Prop) : Env → List (String × Spelling) → Prop
  | nil : Mirrors omits [] []
  | entry {Γ es name d s} (h : Mirrors omits Γ es) (ho : s.origin = d.origin) :
      Mirrors omits ((name, d) :: Γ) ((name, s) :: es)
  | omitted {Γ es name d} (h : Mirrors omits Γ es) (hd : omits d.type) :
      Mirrors omits ((name, d) :: Γ) es

/-- The targets that have a form for every type. -/
def omitsNothing (_ : Ty) : Prop := False

namespace Mirrors

variable {omits : Ty → Prop} {Γ : Env} {es : List (String × Spelling)} {name : String}

theorem lookup_eq_none (h : Mirrors omits Γ es) (hn : Γ.lookup name = none) :
    es.lookup name = none := by
  induction h with
  | nil => rfl
  | @entry Γ es x d s h ho ih =>
    rw [List.lookup_cons] at hn ⊢
    by_cases hx : name == x
    · rw [hx] at hn
      cases hn
    · rw [Bool.not_eq_true] at hx
      rw [hx] at hn ⊢
      exact ih hn
  | @omitted Γ es x d h hd ih =>
    rw [List.lookup_cons] at hn
    by_cases hx : name == x
    · rw [hx] at hn
      cases hn
    · rw [Bool.not_eq_true] at hx
      rw [hx] at hn
      exact ih hn

/-- The nearest declaration of a name has the nearest binding, unless it is omitted. -/
theorem lookup_eq_some (h : Mirrors omits Γ es) {d : Declared} (hd : Γ.lookup name = some d)
    (hk : ¬ omits d.type) : ∃ s, es.lookup name = some s ∧ s.origin = d.origin := by
  induction h with
  | nil => cases hd
  | @entry Γ es x e s h ho ih =>
    rw [List.lookup_cons] at hd ⊢
    by_cases hx : name == x
    · rw [hx] at hd ⊢
      obtain rfl := Option.some.inj hd
      exact ⟨s, rfl, ho⟩
    · rw [Bool.not_eq_true] at hx
      rw [hx] at hd ⊢
      exact ih hd
  | @omitted Γ es x e h he ih =>
    rw [List.lookup_cons] at hd
    by_cases hx : name == x
    · rw [hx] at hd
      obtain rfl := Option.some.inj hd
      exact absurd he hk
    · rw [Bool.not_eq_true] at hx
      rw [hx] at hd
      exact ih hd

end Mirrors

/-- A symbol that is written has no binding if it is a built-in, and else the binding of the declaration
that checking found for it. -/
def Use.Resolved (T : TypeTable) (u : Use) : Prop :=
  if u.node.id ∈ T.builtins then u.names.lookup? u.name.name = none
  else ∃ s, u.names.lookup? u.name.name = some s ∧ T.declarationAt? u.node.id = some s.origin

theorem Typing.WellTyped.resolved {T : TypeTable} {omits : Ty → Prop} {Γ : Env} {n : Node} {x : Ident}
    {names : Names} (h : WellTyped T Γ (.symbol n x)) (hm : Mirrors omits Γ names.entries)
    (hk : n.id ∉ T.builtins → ∀ t, T.typeAt? n.id = some t → ¬ omits t) :
    (⟨n, x, names⟩ : Use).Resolved T := by
  rw [Use.Resolved, Names.lookup?_eq]
  cases h with
  | declared hx ht hd hb =>
    rw [if_neg hb]
    obtain ⟨s, hs, ho⟩ := hm.lookup_eq_some hx (hk hb _ ht)
    exact ⟨s, hs, ho ▸ hd⟩
  | builtin hx _ _ hb =>
    rw [if_pos hb]
    exact hm.lookup_eq_none hx

/-- The outcomes of a step and of the same step in another place. The first one writes only resolved symbols and
ends where `Γ` is visible, with no change of the outer scopes. -/
structure Written {ε ν α : Type} (σ : Span → Span) (T : TypeTable) (omits : Ty → Prop) (Γ : Env)
    (rest : List (List (String × Spelling))) (x y : Fragment ν (α × Writer ε)) : Prop where
  uses : x.All (Use.Resolved T)
  scopes : ∃ top, x.value.2.names.scopes = top :: rest ∧ Mirrors omits Γ (top :: rest).flatten
  value : y.value = Prod.map id (Writer.mapSpan σ) x.value
  needs : y.needs = x.needs

/-- Steps that write the same from where `Γ` is visible to where `Γ'` is, each in its own place. -/
def Writes {ε ν α : Type} (σ : Span → Span) (T : TypeTable) (omits : Ty → Prop) (Γ Γ' : Env)
    (m m' : Emit ε ν α) : Prop :=
  ∀ w top rest, w.names.scopes = top :: rest → Mirrors omits Γ (top :: rest).flatten →
    Written σ T omits Γ' rest (m w) (m' (w.mapSpan σ))

section Rules

variable {ε ν α β : Type} {σ : Span → Span} {T : TypeTable} {omits : Ty → Prop} {Γ Γ' Γ'' : Env}

theorem Writes.pure (a : α) : Writes σ T omits Γ Γ (Pure.pure a : Emit ε ν α) (Pure.pure a) :=
  fun _ top _ hw hm => ⟨nofun, ⟨top, hw, hm⟩, rfl, rfl⟩

theorem Writes.bind {m m' : Emit ε ν α} {f f' : α → Emit ε ν β} (hm : Writes σ T omits Γ Γ' m m')
    (hf : ∀ a, Writes σ T omits Γ' Γ'' (f a) (f' a)) : Writes σ T omits Γ Γ'' (m >>= f) (m' >>= f') := by
  intro w top rest hw hΓ
  have hfirst := hm w top rest hw hΓ
  obtain ⟨top', hw', hΓ'⟩ := hfirst.scopes
  have hsecond := hf (m w).value.1 (m w).value.2 top' rest hw' hΓ'
  have hnext : f' (m' (w.mapSpan σ)).value.1 (m' (w.mapSpan σ)).value.2 =
      f' (m w).value.1 ((m w).value.2.mapSpan σ) := by
    rw [hfirst.value]
    rfl
  refine ⟨?_, hsecond.scopes, ?_, ?_⟩
  · intro u hu
    have hu : u ∈ (m w).uses ++ (f (m w).value.1 (m w).value.2).uses := hu
    exact (List.mem_append.mp hu).elim (hfirst.uses u) (hsecond.uses u)
  · show (f' (m' (w.mapSpan σ)).value.1 (m' (w.mapSpan σ)).value.2).value = _
    rw [hnext]
    exact hsecond.value
  · show (m' (w.mapSpan σ)).needs ++ (f' (m' (w.mapSpan σ)).value.1 (m' (w.mapSpan σ)).value.2).needs =
      (m w).needs ++ (f (m w).value.1 (m w).value.2).needs
    rw [hnext, hfirst.needs, hsecond.needs]

theorem Writes.map {m m' : Emit ε ν α} (f : α → β) (hm : Writes σ T omits Γ Γ' m m') :
    Writes σ T omits Γ Γ' (f <$> m) (f <$> m') :=
  hm.bind fun a => .pure (f a)

theorem writes_quiet {m m' : Emit ε ν α} (huses : ∀ w, (m w).uses = [])
    (hscopes : ∀ w, (m w).value.2.names.scopes = w.names.scopes)
    (hvalue : ∀ w, (m' (w.mapSpan σ)).value = Prod.map id (Writer.mapSpan σ) (m w).value)
    (hneeds : ∀ w, (m' (w.mapSpan σ)).needs = (m w).needs) : Writes σ T omits Γ Γ m m' := by
  intro w top rest hw hΓ
  refine ⟨?_, ⟨top, (hscopes w).trans hw, hΓ⟩, hvalue w, hneeds w⟩
  intro u hu
  rw [huses w] at hu
  cases hu

theorem writes_need (n : ν) : Writes σ T omits Γ Γ (Emit.need n : Emit ε ν Unit) (Emit.need n) :=
  writes_quiet (fun _ => rfl) (fun _ => rfl) (fun _ => rfl) fun _ => rfl

theorem writes_space : Writes σ T omits Γ Γ (Emit.space : Emit ε ν Namespace) Emit.space :=
  writes_quiet (fun _ => rfl) (fun _ => rfl) (fun _ => rfl) fun _ => rfl

theorem writes_temp (stem : String) :
    Writes σ T omits Γ Γ (Emit.temp stem : Emit ε ν String) (Emit.temp stem) :=
  writes_quiet (fun _ => rfl) (fun _ => rfl) (fun _ => rfl) fun _ => rfl

theorem writes_render {f f' : Names → Fragment ν α}
    (h : ∀ names, Mirrors omits Γ names.entries →
      Fragment.Same (Use.Resolved T) (f names) (f' (names.mapSpan σ))) :
    Writes σ T omits Γ Γ (Emit.render f : Emit ε ν α) (Emit.render f') := by
  intro w top rest hw hΓ
  have hnames : Mirrors omits Γ w.names.entries := by
    rw [Names.entries, hw]
    exact hΓ
  have hsame := h w.names hnames
  exact ⟨hsame.uses.bind fun _ => .pure _, ⟨top, hw, hΓ⟩, congrArg (·, w.mapSpan σ) hsame.value.symm,
    congrArg (· ++ []) hsame.needs.symm⟩

theorem writes_declare (x : Ident) (t : Ty) :
    Writes σ T omits Γ (declare x t Γ) (Emit.declare x : Emit ε ν String) (Emit.declare (x.mapSpan σ)) := by
  intro w top rest hw hΓ
  obtain ⟨s, ho, hs⟩ := Names.declare_scopes hw x
  refine ⟨nofun, ⟨_, hs, .entry hΓ ho⟩, ?_, rfl⟩
  show (((w.names.mapSpan σ).declare (x.mapSpan σ)).1,
      ({ names := ((w.names.mapSpan σ).declare (x.mapSpan σ)).2, extra := w.extra } : Writer ε)) = _
  rw [Names.declare_mapSpan]
  rfl

theorem writes_omitted (x : Ident) {t : Ty} (ht : omits t) (a : α) :
    Writes σ T omits Γ (declare x t Γ) (Pure.pure a : Emit ε ν α) (Pure.pure a) :=
  fun _ top _ hw hΓ => ⟨nofun, ⟨top, hw, .omitted hΓ ht⟩, rfl, rfl⟩

theorem writes_param (x : Ident) (t : Ty) :
    Writes σ T omits Γ (declare x t Γ) (Emit.param x : Emit ε ν String) (Emit.param (x.mapSpan σ)) := by
  intro w top rest hw hΓ
  obtain ⟨s, ho, hs⟩ := Names.param_scopes hw x
  refine ⟨nofun, ⟨_, hs, .entry hΓ ho⟩, ?_, rfl⟩
  show (((w.names.mapSpan σ).param (x.mapSpan σ)).1,
      ({ names := ((w.names.mapSpan σ).param (x.mapSpan σ)).2, extra := w.extra } : Writer ε)) = _
  rw [Names.param_mapSpan]
  rfl

theorem writes_each {one : Ident → Emit ε ν String} {each : List Ident → Emit ε ν (List String)}
    (hone : ∀ Γ x t, Writes σ T omits Γ (declare x t Γ) (one x) (one (x.mapSpan σ)))
    (hnil : each [] = Pure.pure [])
    (hcons : ∀ x xs, each (x :: xs) = do
      let text ← one x
      let texts ← each xs
      return text :: texts)
    {xs : List Ident} {ts : List Ty} (h : xs.length = ts.length) :
    Writes σ T omits Γ (declareAll xs ts Γ) (each xs) (each (xs.map (Ident.mapSpan σ))) := by
  induction xs generalizing ts Γ with
  | nil =>
    rw [List.map_nil, hnil]
    exact .pure []
  | cons x xs ih =>
    cases ts with
    | nil => cases h
    | cons t ts =>
      have hxs := ih (Γ := declare x t Γ) (Nat.succ.inj h)
      rw [List.map_cons, hcons, hcons]
      exact (hone Γ x t).bind fun text => hxs.bind fun texts => .pure (text :: texts)

theorem writes_declareAll {xs : List Ident} {ts : List Ty} (h : xs.length = ts.length) :
    Writes σ T omits Γ (declareAll xs ts Γ) (Emit.declareAll xs : Emit ε ν (List String))
      (Emit.declareAll (xs.map (Ident.mapSpan σ))) :=
  writes_each (fun _ => writes_declare) rfl (fun _ _ => rfl) h

theorem writes_params {xs : List Ident} {ts : List Ty} (h : xs.length = ts.length) :
    Writes σ T omits Γ (declareAll xs ts Γ) (Emit.params xs : Emit ε ν (List String))
      (Emit.params (xs.map (Ident.mapSpan σ))) :=
  writes_each (fun _ => writes_param) rfl (fun _ _ => rfl) h

theorem Typing.StmtTyped.arm {s : Span} {e : Expr} {as : List Arm} {o : Option Block}
    {result : Option Ty} (h : StmtTyped T Γ result (.matchOn s e as o) Γ') :
    ∀ a ∈ as, ∃ ts, a.pattern.bindings.length = ts.length ∧
      BlockTyped T (declareAll a.pattern.bindings ts Γ) result a.body := by
  cases h with
  | matchOn _ _ hps hbs _ _ =>
    intro a ha
    obtain ⟨ts, hts, hlen⟩ := hps a ha
    exact ⟨ts, hlen, hbs a ha ts hts⟩

theorem Typing.FunctionTyped.body {f : FunctionDecl} {t : Ty} (h : FunctionTyped T Γ f t) :
    ∃ sig, T.function? f.name.name = some sig ∧ (f.params.map Binding.name).length = sig.params.length ∧
      BlockTyped T (declareAll (f.params.map Binding.name) sig.params (declare f.name t Γ))
        (some sig.result) f.body := by
  cases h with
  | mk hts hr hsig hb =>
    refine ⟨_, hsig, ?_, hb⟩
    rw [List.length_map, ← hts.length_eq, List.length_map]

theorem length_names (v : LoopVars) (t : Ty) : v.names.length = (loopTypes v t).length := by
  rw [LoopVars.names, loopTypes, List.length_append, List.length_append]
  cases v.index <;> rfl

theorem Writes.inside {body body' : Emit ε ν α} {enter leave : Names → Names}
    (henter : ∀ n, (enter n).scopes = [] :: n.scopes ∧ enter (n.mapSpan σ) = (enter n).mapSpan σ)
    (hleave : ∀ {n : Names} {inner top rest}, n.scopes = inner :: top :: rest →
      (leave n).scopes = top :: rest) (hmove : ∀ n : Names, leave (n.mapSpan σ) = (leave n).mapSpan σ)
    (h : Writes σ T omits Γ Γ' body body') :
    Writes σ T omits Γ Γ
      (do Emit.mapNames enter; let a ← body; Emit.mapNames leave; return a)
      (do Emit.mapNames enter; let a ← body'; Emit.mapNames leave; return a) := by
  intro w top rest hw hΓ
  have hin : (enter w.names).scopes = [] :: top :: rest := by rw [(henter _).1, hw]
  have hbody := h ⟨enter w.names, w.extra⟩ [] (top :: rest) hin hΓ
  obtain ⟨inner, hout, -⟩ := hbody.scopes
  have hstart : (⟨enter (w.mapSpan σ).names, w.extra⟩ : Writer ε) = Writer.mapSpan σ ⟨enter w.names, w.extra⟩ :=
    congrArg (Writer.mk · w.extra) (henter w.names).2
  refine ⟨?_, ⟨top, hleave hout, hΓ⟩, ?_, ?_⟩
  · intro u hu
    have hu : u ∈ [] ++ ((body ⟨enter w.names, w.extra⟩).uses ++ ([] ++ [])) := hu
    rw [List.append_nil, List.append_nil, List.nil_append] at hu
    exact hbody.uses u hu
  · show ((body' ⟨enter (w.mapSpan σ).names, w.extra⟩).value.1,
      ({ (body' ⟨enter (w.mapSpan σ).names, w.extra⟩).value.2 with
        names := leave (body' ⟨enter (w.mapSpan σ).names, w.extra⟩).value.2.names } : Writer ε)) = _
    rw [hstart, hbody.value]
    exact Prod.ext rfl (congrArg (Writer.mk · _) (hmove _))
  · show [] ++ ((body' ⟨enter (w.mapSpan σ).names, w.extra⟩).needs ++ ([] ++ [])) = _
    rw [hstart, hbody.needs]
    rfl

theorem Writes.inScope {body body' : Emit ε ν α} (h : Writes σ T omits Γ Γ' body body') :
    Writes σ T omits Γ Γ (Emit.inScope body) (Emit.inScope body') :=
  h.inside (fun _ => ⟨rfl, rfl⟩) Names.leave_scopes (Names.mapSpan_leave σ)

theorem Writes.inFunction {body body' : Emit ε ν α} (h : Writes σ T omits Γ Γ' body body') :
    Writes σ T omits Γ Γ (Emit.inFunction body) (Emit.inFunction body') :=
  h.inside (fun _ => ⟨rfl, rfl⟩) Names.leave_scopes (Names.mapSpan_leaveFunction σ)

theorem Writes.run {body body' : Emit ε ν α} (h : Writes σ T omits [] Γ' body body') (space : Namespace)
    (extra : ε) :
    Fragment.Same (Use.Resolved T) (Emit.run space extra body) (Emit.run space extra body') := by
  have hbody := h ⟨{ space := space }, extra⟩ [] [] rfl .nil
  exact ⟨(congrArg Prod.fst hbody.value).symm, congrArg (· ++ []) hbody.needs.symm,
    hbody.uses.bind fun _ => .pure _⟩

end Rules

end Gondola
