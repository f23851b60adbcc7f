import Gondola.Proofs.Code.Symbols
import Gondola.Proofs.Typing.Placement
import Mathlib.Data.List.Forall2

/-! Writing code does not look at places. -/
namespace Gondola

def Spelling.mapSpan (σ : Span → Span) (s : Spelling) : Spelling := { s with origin := s.origin.mapSpan σ }

namespace Names

def mapSpan (σ : Span → Span) (n : Names) : Names :=
  { n with scopes := n.scopes.map (List.map (Prod.map id (Spelling.mapSpan σ))) }

variable (σ : Span → Span) (n : Names)

theorem mapSpan_leave : (n.mapSpan σ).leave = n.leave.mapSpan σ := by
  obtain ⟨space, scopes, inFunction, next⟩ := n
  match scopes with
  | [] | [_] | _ :: _ :: _ => rfl

theorem mapSpan_leaveFunction : (n.mapSpan σ).leaveFunction = n.leaveFunction.mapSpan σ := by
  unfold leaveFunction
  rw [mapSpan_leave]
  rfl

theorem lookup?_mapSpan (name : String) :
    (n.mapSpan σ).lookup? name = (n.lookup? name).map (Spelling.mapSpan σ) := by
  unfold lookup? mapSpan
  generalize n.scopes = scopes
  induction scopes with
  | nil => rfl
  | cons scope scopes ih =>
    simp only [List.map_cons, List.findSome?_cons, lookup_map_values]
    cases scope.lookup name with
    | some s => rfl
    | none => exact ih

theorem insert_mapSpan (x : Ident) (text : String) :
    (n.mapSpan σ).insert (x.mapSpan σ) text = (n.insert x text).mapSpan σ := by
  obtain ⟨space, scopes, inFunction, next⟩ := n
  cases scopes <;> rfl

theorem declare_mapSpan (x : Ident) :
    (n.mapSpan σ).declare (x.mapSpan σ) = Prod.map id (mapSpan σ) (n.declare x) := by
  have hname : (x.mapSpan σ).name = x.name := rfl
  unfold declare
  rw [hname, lookup?_mapSpan]
  cases n.lookup? x.name with
  | some s => exact congrArg (Prod.mk _) (insert_mapSpan σ { n with next := n.next + 1 } x _)
  | none => exact congrArg (Prod.mk _) (insert_mapSpan σ n x _)

theorem param_mapSpan (x : Ident) :
    (n.mapSpan σ).param (x.mapSpan σ) = Prod.map id (mapSpan σ) (n.param x) :=
  congrArg (Prod.mk _) (insert_mapSpan σ n x _)

theorem spell_mapSpan (name : String) : (n.mapSpan σ).spell name = n.spell name := by
  unfold spell
  rw [lookup?_mapSpan]
  cases n.lookup? name <;> rfl

theorem isGlobalFromFunction_mapSpan (name : String) :
    (n.mapSpan σ).isGlobalFromFunction name = n.isGlobalFromFunction name := by
  unfold isGlobalFromFunction
  rw [lookup?_mapSpan]
  cases n.lookup? name <;> rfl

end Names

namespace Signature

variable {α β : Type} {R : α → β → Prop}

theorem forall₂_set {slots : List (Option α)} {slots' : List (Option β)} {a : α} {b : β}
    (hs : List.Forall₂ (Option.Rel R) slots slots') (hab : R a b) (i : Nat) :
    List.Forall₂ (Option.Rel R) (slots.set i (some a)) (slots'.set i (some b)) := by
  induction hs generalizing i with
  | nil => exact .nil
  | cons h hs ih =>
    cases i with
    | zero => exact .cons (.some hab) hs
    | succ i => exact .cons h (ih i)

theorem forall₂_fillSlots {s : Signature} {args : List (Option String × α)}
    {args' : List (Option String × β)}
    (h : List.Forall₂ (fun a b => a.1 = b.1 ∧ R a.2 b.2) args args') {slots : List (Option α)}
    {slots' : List (Option β)} (hs : List.Forall₂ (Option.Rel R) slots slots') (i : Nat) :
    List.Forall₂ (Option.Rel R) (s.fillSlots i args slots) (s.fillSlots i args' slots') := by
  induction h generalizing slots slots' i with
  | nil => exact hs
  | @cons a b args args' hab _ ih =>
    obtain ⟨label, x⟩ := a
    obtain ⟨label', y⟩ := b
    obtain ⟨rfl, hxy⟩ := hab
    exact ih (forall₂_set hs hxy _) (i + 1)

theorem forall₂_order {s : Signature} {args : List (Option String × α)} {args' : List (Option String × β)}
    (h : List.Forall₂ (fun a b => a.1 = b.1 ∧ R a.2 b.2) args args') :
    List.Forall₂ R (s.order args) (s.order args') := by
  have hempty : List.Forall₂ (Option.Rel R) (List.replicate args.length none)
      (List.replicate args'.length none) := by
    rw [← h.length_eq]
    induction args.length with
    | zero => exact .nil
    | succ n ih => exact .cons .none ih
  exact List.rel_filterMap (fun _ _ hab => hab) (forall₂_fillSlots h hempty 0)

end Signature

theorem forall₂_map_self {α β γ : Type} {R : β → γ → Prop} {f : α → β} {g : α → γ} {xs : List α}
    (h : ∀ x ∈ xs, R (f x) (g x)) : List.Forall₂ R (xs.map f) (xs.map g) := by
  rw [List.forall₂_map_left_iff, List.forall₂_map_right_iff, List.forall₂_same]
  exact h

theorem Argument.name_label_mapSpan (σ : Span → Span) (a : Argument) :
    a.label.map Ident.name = (a.mapSpan σ).label.map Ident.name := by
  rw [Argument.mapSpan, Option.map_map]
  rfl

namespace TypeTable

variable (σ : Span → Span) (T : TypeTable) (e : Expr)

theorem typeOf?_mapSpan : (T.mapSpan σ).typeOf? (e.mapSpan σ) = T.typeOf? e := by
  unfold typeOf?
  rw [Expr.id_mapSpan]
  rfl

theorem signatureOf?_mapSpan : (T.mapSpan σ).signatureOf? (e.mapSpan σ) = T.signatureOf? e := by
  unfold signatureOf?
  rw [typeOf?_mapSpan]

theorem printsPlainly_mapSpan : (T.mapSpan σ).printsPlainly (e.mapSpan σ) = T.printsPlainly e := by
  unfold printsPlainly
  rw [typeOf?_mapSpan]

theorem isMap_mapSpan : (T.mapSpan σ).isMap (e.mapSpan σ) = T.isMap e := by
  unfold isMap
  rw [typeOf?_mapSpan]

theorem builtinSymbol?_mapSpan : (T.mapSpan σ).builtinSymbol? (e.mapSpan σ) =
    (T.builtinSymbol? e).map (Prod.map (Node.mapSpan σ) (Ident.mapSpan σ)) := by
  cases e with
  | symbol n x =>
    show (if T.builtins.contains n.id then some (n.mapSpan σ, x.mapSpan σ) else none) =
      Option.map _ (if T.builtins.contains n.id then some (n, x) else none)
    split <;> rfl
  | _ => rfl

theorem all_printsPlainly_mapSpan (sig : Signature) (as : List Argument) :
    (sig.order ((Expr.mapSpanArguments σ as).map Argument.labelled)).all (T.mapSpan σ).printsPlainly =
      (sig.order (as.map Argument.labelled)).all T.printsPlainly := by
  rw [Expr.mapSpanArguments_eq_map, List.map_map]
  have hpairs : List.Forall₂ (fun a b : Expr => b = a.mapSpan σ) (sig.order (as.map Argument.labelled))
      (sig.order (as.map (Argument.labelled ∘ Argument.mapSpan σ))) := by
    apply Signature.forall₂_order
    apply forall₂_map_self
    exact fun a _ => ⟨a.name_label_mapSpan σ, rfl⟩
  generalize sig.order (as.map Argument.labelled) = values at hpairs
  generalize sig.order (as.map (Argument.labelled ∘ Argument.mapSpan σ)) = values' at hpairs
  induction hpairs with
  | nil => rfl
  | cons h _ ih => rw [List.all_cons, List.all_cons, ih, h, printsPlainly_mapSpan]

end TypeTable

namespace Fragment

variable {ν α β : Type} {P : Use → Prop}

/-- The same value with the same needs. The first part writes only symbols of a property. -/
structure Same (P : Use → Prop) (x y : Fragment ν α) : Prop where
  value : x.value = y.value
  needs : x.needs = y.needs
  uses : x.All P

theorem Same.pure (a : α) : Same P (Pure.pure a : Fragment ν α) (Pure.pure a) := ⟨rfl, rfl, .pure a⟩

theorem Same.need (n : ν) : Same P (Fragment.need n) (Fragment.need n) := ⟨rfl, rfl, .need n⟩

theorem Same.bind {x y : Fragment ν α} {f g : α → Fragment ν β} (h : Same P x y)
    (hf : ∀ a, Same P (f a) (g a)) : Same P (x >>= f) (y >>= g) where
  value := by rw [value_bind, value_bind, h.value, (hf _).value]
  needs := by rw [needs_bind, needs_bind, h.value, h.needs, (hf _).needs]
  uses := h.uses.bind fun a => (hf a).uses

theorem Same.map {x y : Fragment ν α} (f : α → β) (h : Same P x y) : Same P (f <$> x) (f <$> y) :=
  h.bind fun a => .pure (f a)

theorem Same.sequence {xs ys : List (Fragment ν α)} (h : List.Forall₂ (Same P) xs ys) :
    Same P (Fragment.sequence xs) (Fragment.sequence ys) := by
  induction h with
  | nil => exact .pure []
  | cons h _ ih => exact h.bind fun a => ih.bind fun as => .pure (a :: as)

end Fragment

namespace Context

def mapSpan (σ : Span → Span) (cx : Context) : Context := ⟨cx.types.mapSpan σ, cx.names.mapSpan σ⟩

variable {ν : Type} {P : Use → Prop} {cx : Context} {n : Node} {x : Ident}

theorem same_use (h : P ⟨n, x, cx.names⟩) (cx' : Context) (n' : Node) (x' : Ident) :
    Fragment.Same P (cx.use n x : Fragment ν Unit) (cx'.use n' x') := ⟨rfl, rfl, .use h⟩

theorem same_spelled (σ : Span → Span) (h : P ⟨n, x, cx.names⟩) :
    Fragment.Same P (cx.spelled n x : Fragment ν String)
      ((cx.mapSpan σ).spelled (n.mapSpan σ) (x.mapSpan σ)) := by
  refine (same_use h _ _ _).bind fun _ => ?_
  have hspell : (cx.mapSpan σ).names.spell (x.mapSpan σ).name = cx.names.spell x.name :=
    Names.spell_mapSpan σ cx.names x.name
  rw [hspell]
  exact .pure _

end Context

def Writer.mapSpan {ε : Type} (σ : Span → Span) (w : Writer ε) : Writer ε :=
  { w with names := w.names.mapSpan σ }

end Gondola
