import Gondola.Code.Emit
import Gondola.Proofs.Typing.Parts

/-! The symbols of an expression, and how they come to be written. -/
namespace Gondola

variable {s : Node × Ident}

namespace Expr

mutual
def symbols : Expr → List (Node × Ident)
  | .int .. | .string .. | .bool .. => []
  | .symbol n x => [(n, x)]
  | .binary _ _ l r => l.symbols ++ r.symbols
  | .unary _ _ e => e.symbols
  | .call _ c as => c.symbols ++ argumentSymbols as
  | .list _ es => itemSymbols es
  | .map _ es => entrySymbols es
  | .index _ b i => b.symbols ++ i.symbols
  | .field _ b _ => b.symbols
def argumentSymbols : List Argument → List (Node × Ident)
  | [] => []
  | ⟨_, value⟩ :: as => value.symbols ++ argumentSymbols as
def itemSymbols : List Expr → List (Node × Ident)
  | [] => []
  | e :: es => e.symbols ++ itemSymbols es
def entrySymbols : List (Expr × Expr) → List (Node × Ident)
  | [] => []
  | (k, v) :: es => k.symbols ++ v.symbols ++ entrySymbols es
end

theorem mem_argumentSymbols {as : List Argument} : s ∈ argumentSymbols as ↔ ∃ a ∈ as, s ∈ a.value.symbols := by
  induction as with
  | nil => simp [argumentSymbols]
  | cons a as ih =>
    obtain ⟨label, value⟩ := a
    simp [argumentSymbols, ih]

theorem mem_itemSymbols {es : List Expr} : s ∈ itemSymbols es ↔ ∃ e ∈ es, s ∈ e.symbols := by
  induction es with
  | nil => simp [itemSymbols]
  | cons e es ih => simp [itemSymbols, ih]

theorem mem_entrySymbols {es : List (Expr × Expr)} :
    s ∈ entrySymbols es ↔ ∃ e ∈ es, s ∈ e.1.symbols ∨ s ∈ e.2.symbols := by
  induction es with
  | nil => simp [entrySymbols]
  | cons e es ih => simp [entrySymbols, ih, or_assoc]

theorem mem_symbols_iff {e : Expr} : s ∈ e.symbols ↔ e = .symbol s.1 s.2 ∨ ∃ c ∈ e.children, s ∈ c.symbols := by
  cases e with
  | int | string | bool => simp [symbols, children]
  | symbol n x => simp [symbols, children, Prod.ext_iff, eq_comm]
  | binary | unary | index | field => simp [symbols, children]
  | call =>
    simp only [symbols, children, List.mem_append, mem_argumentSymbols, List.mem_cons, List.mem_map]
    grind
  | list => simp [symbols, children, mem_itemSymbols]
  | map =>
    simp only [symbols, children, mem_entrySymbols, List.mem_flatMap, List.mem_cons]
    grind

theorem mem_parts_of_symbols {e : Expr} (hs : s ∈ e.symbols) : .symbol s.1 s.2 ∈ e.parts := by
  induction e using induction_children with
  | h e ih =>
    rcases mem_symbols_iff.mp hs with rfl | ⟨c, hc, hs⟩
    · exact mem_parts_self _
    · exact mem_parts_iff.mpr (.inr ⟨c, hc, ih c hc hs⟩)

end Expr

theorem Typing.WellTyped.symbol {T : TypeTable} {Γ : Env} {e : Expr} (h : WellTyped T Γ e)
    {s : Node × Ident} (hs : s ∈ e.symbols) : WellTyped T Γ (.symbol s.1 s.2) :=
  h.part (Expr.mem_parts_of_symbols hs)

theorem Typing.WellTyped.of_index {T : TypeTable} {Γ : Env} {n : Node} {b i : Expr}
    (h : WellTyped T Γ (.index n b i)) : WellTyped T Γ b ∧ WellTyped T Γ i := by
  cases h with
  | item hb _ hi => exact ⟨hb, hi⟩
  | entry hb _ hi => exact ⟨hb, hi⟩

namespace Fragment

variable {ν α β : Type} {P : Use → Prop}

instance : LawfulMonad (Fragment ν) := by
  refine LawfulMonad.mk' _ (fun x => ?_) (fun _ _ => rfl) fun x f g => ?_
  · simp [Functor.map]
  · simp [Bind.bind]

theorem value_sequence (xs : List (Fragment ν α)) : (sequence xs).value = xs.map value := by
  induction xs with
  | nil => rfl
  | cons x xs ih =>
    rw [List.map_cons, ← ih]
    rfl

/-- All symbols that a part of the output writes have a property. -/
def All (P : Use → Prop) (x : Fragment ν α) : Prop := ∀ u ∈ x.uses, P u

theorem All.pure (a : α) : (Pure.pure a : Fragment ν α).All P := nofun

theorem All.need (n : ν) : (Fragment.need n).All P := nofun

theorem All.use {u : Use} (h : P u) : (Fragment.use u : Fragment ν Unit).All P := by
  intro v hv
  rwa [List.mem_singleton.mp hv]

theorem All.bind {x : Fragment ν α} {f : α → Fragment ν β} (hx : x.All P)
    (hf : ∀ a, (f a).All P) : (x >>= f).All P := by
  intro u hu
  rw [uses_bind, List.mem_append] at hu
  exact hu.elim (hx u) (hf x.value u)

end Fragment

namespace Signature

variable {α : Type}

theorem mem_fillSlots {s : Signature} {a : α} {i : Nat} {args : List (Option String × α)}
    {slots : List (Option α)} (h : some a ∈ s.fillSlots i args slots) :
    some a ∈ slots ∨ ∃ label, (label, a) ∈ args := by
  induction args generalizing i slots with
  | nil => exact .inl h
  | cons arg args ih =>
    obtain ⟨label, b⟩ := arg
    obtain h | ⟨l, hl⟩ := ih h
    · -- The slot was filled before, or just now.
      obtain h | h := List.mem_or_eq_of_mem_set h
      · exact .inl h
      · obtain rfl := Option.some.inj h
        exact .inr ⟨label, List.mem_cons_self⟩
    · exact .inr ⟨l, List.mem_cons_of_mem _ hl⟩

theorem mem_order {s : Signature} {a : α} {args : List (Option String × α)} (h : a ∈ s.order args) :
    ∃ label, (label, a) ∈ args := by
  rw [order, List.mem_filterMap] at h
  obtain ⟨slot, hslot, rfl⟩ := h
  obtain h | h := mem_fillSlots hslot
  · have hnone := List.eq_of_mem_replicate h
    cases hnone
  · exact h

end Signature

theorem TypeTable.eq_symbol_of_builtinSymbol? {T : TypeTable} {c : Expr} {n : Node} {x : Ident}
    (h : T.builtinSymbol? c = some (n, x)) : c = .symbol n x ∧ n.id ∈ T.builtins := by
  unfold builtinSymbol? at h
  split at h
  · rename_i m y
    split at h
    · rename_i hb
      obtain ⟨rfl, rfl⟩ := Prod.mk.inj (Option.some.inj h)
      exact ⟨rfl, List.contains_iff_mem.mp hb⟩
    · cases h
  · cases h

end Gondola
