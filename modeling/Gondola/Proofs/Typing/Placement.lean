import Gondola.Proofs.Program.Placement
import Gondola.Typing

/-! The state of checking in another place, and the steps that take places along. -/
namespace Gondola

theorem lookup_map_values {α β : Type} (f : α → β) (name : String) (xs : List (String × α)) :
    (xs.map (Prod.map id f)).lookup name = (xs.lookup name).map f := by
  induction xs with
  | nil => rfl
  | cons x xs ih =>
    obtain ⟨key, value⟩ := x
    simp only [List.map_cons, Prod.map, id, List.lookup_cons, ih]
    split <;> rfl

namespace Scopes

variable {α β : Type} (f : α → β)

def map (s : Scopes α) : Scopes β :=
  ⟨s.arena.map fun here => ⟨here.names.map (Prod.map id f), here.parent⟩⟩

theorem enter_map (s : Scopes α) (parent : Nat) :
    (s.map f).enter parent = Prod.map id (map f) (s.enter parent) := by
  simp [enter, map, Prod.map]

theorem leave_map (s : Scopes α) (scope : Nat) : (s.map f).leave scope = (s.leave scope).map (map f) := by
  unfold leave
  split
  · rfl
  · simp [map, Except.map, List.map_take]

theorem define_map (s : Scopes α) (scope : Nat) (name : String) (value : α) :
    (s.map f).define scope name (f value) = (s.define scope name value).map fun r => (r.mapError f).map (map f) := by
  unfold define map
  simp only [List.getElem?_map]
  cases s.arena[scope]? with
  | none => rfl
  | some here =>
    simp only [Option.map_some, lookup_map_values]
    cases here.names.lookup name with
    | some _ => rfl
    | none =>
      refine congrArg (fun arena : List (Scope β) => Except.ok (Except.ok (Scopes.mk arena))) ?_
      rw [List.map_set]
      rfl

theorem lookup_map (s : Scopes α) (scope : Nat) (name : String) :
    (s.map f).lookup scope name = (s.lookup scope name).map (Option.map (Prod.map id f)) := by
  have hfrom : ∀ n scope, lookupFrom (s.map f).arena name n scope =
      (lookupFrom s.arena name n scope).map (Option.map (Prod.map id f)) := by
    intro n
    induction n with
    | zero => exact fun _ => rfl
    | succ n ih =>
      intro scope
      simp only [lookupFrom, map, List.getElem?_map]
      cases s.arena[scope]? with
      | none => rfl
      | some here =>
        simp only [Option.map_some, lookup_map_values]
        cases here.names.lookup name with
        | some value => rfl
        | none =>
          cases here.parent with
          | none => rfl
          | some parent => exact ih parent
  simp only [lookup, hfrom]
  simp [map]

end Scopes

def Located.mapSpan {α : Type} (σ : Span → Span) (x : Located α) : Located α := { x with span := σ x.span }

def Failure.mapSpan {ε : Type} (σ : Span → Span) : Failure ε → Failure ε
  | .rejected e => .rejected (e.mapSpan σ)
  | .internal f => .internal f

def Declared.mapSpan (σ : Span → Span) (d : Declared) : Declared := { d with origin := d.origin.mapSpan σ }

def TypeTable.mapSpan (σ : Span → Span) (T : TypeTable) : TypeTable :=
  { T with declarations := T.declarations.map (Prod.map id (Ident.mapSpan σ)) }

namespace Checker

def mapSpan (σ : Span → Span) (c : Checker) : Checker :=
  { scopes := c.scopes.map (Declared.mapSpan σ), table := c.table.mapSpan σ }

/-- From this state, the second step does in another place what the first one does. -/
def Moves {α : Type} (σ : Span → Span) (m m' : Check α) (c : Checker) : Prop :=
  m' (c.mapSpan σ) = match m c with
    | .ok (a, c) => .ok (a, c.mapSpan σ)
    | .error x => .error (x.mapSpan σ)

section Moves

variable {α β : Type} {σ : Span → Span} {c : Checker}

theorem Moves.bind {m m' : Check α} {f f' : α → Check β} (h : Moves σ m m' c)
    (hf : ∀ a c', m c = .ok (a, c') → Moves σ (f a) (f' a) c') : Moves σ (m >>= f) (m' >>= f') c := by
  show (StateT.bind m' f') (c.mapSpan σ) = match (StateT.bind m f) c with
    | .ok (a, c) => .ok (a, c.mapSpan σ)
    | .error x => .error (x.mapSpan σ)
  unfold StateT.bind
  rw [h]
  cases hm : m c with
  | error x => rfl
  | ok r => exact hf r.1 r.2 hm

theorem moves_enter (parent : Nat) : Moves σ (enter parent) (enter parent) c := by
  simp only [Moves, enter, mapSpan, Scopes.enter_map]
  rfl

theorem moves_leave (scope : Nat) : Moves σ (leave scope) (leave scope) c := by
  simp only [Moves, leave, mapSpan, Scopes.leave_map]
  cases c.scopes.leave scope <;> rfl

theorem moves_define (scope : Nat) (x : Ident) (t : Ty) :
    Moves σ (define scope x t) (define scope (x.mapSpan σ) t) c := by
  have hvalue : (⟨t, x.mapSpan σ⟩ : Declared) = Declared.mapSpan σ ⟨t, x⟩ := rfl
  have hname : (x.mapSpan σ).name = x.name := rfl
  simp only [Moves, define, mapSpan, hvalue, hname, Scopes.define_map]
  cases c.scopes.define scope x.name ⟨t, x⟩ with
  | error e => rfl
  | ok found => cases found <;> rfl

theorem resolveName_mapSpan {find : TypeLookup} (hfind : ∀ name x, find name = .error x → x.mapSpan σ = x)
    (name : Ident) :
    TypeExpr.resolveName find (name.mapSpan σ) =
      (TypeExpr.resolveName find name).mapError (Failure.mapSpan σ) := by
  have hname : (name.mapSpan σ).name = name.name := rfl
  simp only [TypeExpr.resolveName, hname]
  split
  · rfl
  · split
    · rename_i x hx
      exact congrArg Except.error (hfind _ x hx).symm
    · rfl
    · rfl
    · rfl

theorem resolve_mapSpan {find : TypeLookup} (hfind : ∀ name x, find name = .error x → x.mapSpan σ = x) :
    ∀ a : TypeExpr, (a.mapSpan σ).resolve find = (a.resolve find).mapError (Failure.mapSpan σ)
  | .mk name [] span => by
    have hname : (name.mapSpan σ).name = name.name := rfl
    simp only [TypeExpr.mapSpan, TypeExpr.mapSpanAll, TypeExpr.resolve, hname, resolveName_mapSpan hfind]
    split
    · rfl
    · split
      · rfl
      · cases TypeExpr.resolveName find name <;> rfl
  | .mk name [a] span => by
    have hname : (name.mapSpan σ).name = name.name := rfl
    simp only [TypeExpr.mapSpan, TypeExpr.mapSpanAll, TypeExpr.resolve, hname, resolveName_mapSpan hfind,
      resolve_mapSpan hfind a]
    split
    · cases a.resolve find <;> rfl
    · split
      · rfl
      · cases TypeExpr.resolveName find name <;> rfl
  | .mk name [a, b] span => by
    have hname : (name.mapSpan σ).name = name.name := rfl
    simp only [TypeExpr.mapSpan, TypeExpr.mapSpanAll, TypeExpr.resolve, hname, resolveName_mapSpan hfind,
      resolve_mapSpan hfind a, resolve_mapSpan hfind b]
    split
    · rfl
    · split
      · cases a.resolve find with
        | error x => rfl
        | ok k => cases b.resolve find <;> rfl
      · cases TypeExpr.resolveName find name <;> rfl
  | .mk name (a :: b :: c :: rest) span => by
    have hname : (name.mapSpan σ).name = name.name := rfl
    have hlen : (TypeExpr.mapSpanAll σ rest).length = rest.length := by
      rw [TypeExpr.mapSpanAll_eq_map, List.length_map]
    simp only [TypeExpr.mapSpan, TypeExpr.mapSpanAll, TypeExpr.resolve, hname, resolveName_mapSpan hfind,
      List.length_cons, hlen]
    split
    · rfl
    · split
      · rfl
      · cases TypeExpr.resolveName find name <;> rfl

theorem argumentName_mapSpan (a : Argument) (position : Nat) :
    argumentName (a.mapSpan σ) position = argumentName a position := by
  obtain ⟨label, value⟩ := a
  cases label <;> rfl

theorem moves_resolve (scope : Nat) (a : TypeExpr) :
    Moves σ (resolve scope a) (resolve scope (a.mapSpan σ)) c := by
  let find : TypeLookup := fun name => (ofScopes (c.scopes.lookup scope name)).map (·.map (·.2.type))
  have hsame : (fun name => (ofScopes ((c.mapSpan σ).scopes.lookup scope name)).map
      (·.map (·.2.type))) = find := by
    funext name
    show Except.map _ (ofScopes ((c.scopes.map (Declared.mapSpan σ)).lookup scope name)) = find name
    rw [Scopes.lookup_map]
    show _ = (ofScopes (c.scopes.lookup scope name)).map (·.map (·.2.type))
    cases c.scopes.lookup scope name with
    | error e => rfl
    | ok found => cases found <;> rfl
  have hfind : ∀ name x, find name = .error x → x.mapSpan σ = x := by
    intro name x hx
    show x.mapSpan σ = x
    have hx' : (ofScopes (c.scopes.lookup scope name)).map
        (fun r : Option (Nat × Declared) => r.map (·.2.type)) = .error x := hx
    cases hl : c.scopes.lookup scope name with
    | error e =>
      rw [hl] at hx'
      cases hx'
      rfl
    | ok found =>
      rw [hl] at hx'
      cases hx'
  unfold Moves resolve
  rw [hsame, resolve_mapSpan hfind]
  cases a.resolve find <;> rfl

theorem mapSpan_new (hσ : σ {} = {}) : new.mapSpan σ = new := by
  have hnames : builtinNames.map (Prod.map id (Declared.mapSpan σ)) = builtinNames := by
    unfold builtinNames
    rw [List.map_map]
    apply List.map_congr_left
    intro b _
    show (b.1, (⟨b.2, ⟨b.1, σ {}⟩⟩ : Declared)) = (b.1, ⟨b.2, ⟨b.1, {}⟩⟩)
    rw [hσ]
  unfold new mapSpan Scopes.map
  rw [List.map_singleton, hnames]
  rfl

end Moves

end Checker

end Gondola
