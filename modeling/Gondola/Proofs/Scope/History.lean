import Gondola.Scope

/-! Scopes after any calls: the position of a scope counts the scopes that are open, its names are those defined since
it was entered, and of two definitions of a name the first one holds. -/
namespace Gondola.Scopes

variable {α : Type}

inductive Call (α : Type) where
  | enter (parent : Nat)
  | leave (scope : Nat)
  | define (scope : Nat) (name : String) (value : α)
  | lookup (scope : Nat) (name : String)
  deriving DecidableEq

inductive Answer (α : Type) where
  | entered (scope : Nat)
  | left
  | defined
  /-- The value that was to be bound. -/
  | refused (value : α)
  | found (binding : Option (Nat × α))

namespace Call

def scope : Call α → Nat
  | enter scope | leave scope | define scope _ _ | lookup scope _ => scope

/-- Calls on a scope in the arena that do not leave the outermost one. -/
def Allowed (s : Scopes α) (c : Call α) : Prop := c.scope < s.arena.length ∧ c ≠ leave root

def run (s : Scopes α) : Call α → Except ScopeError (Answer α × Scopes α)
  | enter parent => .ok (.entered (s.enter parent).1, (s.enter parent).2)
  | leave scope => (s.leave scope).map fun s' => (.left, s')
  | define scope name value =>
    (s.define scope name value).map fun
      | .ok s' => (.defined, s')
      | .error back => (.refused back, s)
  | lookup scope name => (s.lookup scope name).map fun r => (.found r, s)

/-- The value that a call would bind to a name of a scope. -/
def binding? (place : Nat) (name : String) : Call α → Option α
  | define scope x value => if scope = place ∧ x = name then some value else none
  | _ => none

end Call

/-- The scopes that calls lead to, the latest call first. -/
inductive Reached : List (Call α) → Scopes α → Prop
  | new : Reached [] new
  | call {cs s c a s'} (h : Reached cs s) (hc : c.Allowed s) (hrun : c.run s = .ok (a, s')) : Reached (c :: cs) s'

/-! What the calls say of the scopes, without the arena. -/

def size : List (Call α) → Nat
  | [] => 1
  | .enter _ :: cs => size cs + 1
  | .leave scope :: _ => scope
  | _ :: cs => size cs

/-- The scope that the one at this position was entered from. -/
def parent? (scope : Nat) : List (Call α) → Option Nat
  | [] => none
  | .enter parent :: cs => if scope = size cs then some parent else parent? scope cs
  | _ :: cs => parent? scope cs

/-- The calls since the scope at this position was entered. -/
def since (scope : Nat) : List (Call α) → List (Call α)
  | [] => []
  | .enter parent :: cs => if scope = size cs then [] else .enter parent :: since scope cs
  | c :: cs => c :: since scope cs

/-- The first definition of a name in a scope since it was entered. -/
def bound? (cs : List (Call α)) (scope : Nat) (name : String) : Option α :=
  (since scope cs).reverse.findSome? (Call.binding? scope name)

/-- The binding of a name that is nearest to a scope, on the way from parent to parent. -/
inductive Nearest (cs : List (Call α)) (name : String) : Nat → Option (Nat × α) → Prop
  | here {scope value} (h : bound? cs scope name = some value) : Nearest cs name scope (some (scope, value))
  | outwards {scope parent r} (h : bound? cs scope name = none) (hp : parent? scope cs = some parent)
      (hr : Nearest cs name parent r) : Nearest cs name scope r
  | nowhere {scope} (h : bound? cs scope name = none) (hp : parent? scope cs = none) : Nearest cs name scope none

section Bindings

variable {cs : List (Call α)} {i : Nat} {name : String}

theorem bound?_entered (parent : Nat) : bound? (.enter parent :: cs) (size cs) name = none := by
  rw [bound?, since, if_pos rfl]
  rfl

theorem bound?_cons {c : Call α} (h : since i (c :: cs) = c :: since i cs) :
    bound? (c :: cs) i name = (bound? cs i name).or (c.binding? i name) := by
  rw [bound?, h, List.reverse_cons, List.findSome?_append, List.findSome?_singleton]
  rfl

theorem bound?_enter {parent : Nat} (h : i ≠ size cs) : bound? (.enter parent :: cs) i name = bound? cs i name := by
  rw [bound?_cons (by rw [since, if_neg h])]
  exact Option.or_none

end Bindings

/-- A scope of the arena is as the calls have made it. -/
structure Recorded (cs : List (Call α)) (i : Nat) (here : Scope α) : Prop where
  parent : here.parent = parent? i cs
  names : ∀ name, here.names.lookup name = bound? cs i name
  smaller : ∀ p ∈ here.parent, p < i

/-- The arena holds what the calls say. -/
def Records (cs : List (Call α)) (s : Scopes α) : Prop :=
  s.arena.length = size cs ∧ ∀ i here, s.arena[i]? = some here → Recorded cs i here

section Steps

variable {cs : List (Call α)} {s s' : Scopes α} {i scope : Nat} {here : Scope α}

theorem records_new : Records ([] : List (Call α)) new := by
  refine ⟨rfl, fun i here h => ?_⟩
  obtain ⟨hi, rfl⟩ := List.getElem?_eq_some_iff.mp h
  obtain rfl : i = 0 := Nat.lt_one_iff.mp hi
  exact ⟨rfl, fun _ => rfl, nofun⟩

theorem records_enter (h : Records cs s) {parent : Nat} (hp : parent < s.arena.length) :
    Records (.enter parent :: cs) (s.enter parent).2 := by
  refine ⟨by simp [enter, size, h.1], fun i here hi => ?_⟩
  rw [enter, List.getElem?_append] at hi
  split at hi
  next hlt =>
    have hne : i ≠ size cs := by rw [← h.1]; exact Nat.ne_of_lt hlt
    have hold := h.2 i here hi
    refine ⟨?_, fun name => ?_, hold.smaller⟩
    · rw [parent?, if_neg hne]
      exact hold.parent
    · rw [bound?_enter hne]
      exact hold.names name
  next hge =>
    -- The scope that was entered stands at the end and binds nothing yet.
    obtain ⟨hlast, rfl⟩ := List.getElem?_eq_some_iff.mp hi
    obtain rfl : i = size cs := by
      rw [List.length_singleton] at hlast
      rw [← h.1]
      omega
    refine ⟨?_, fun name => ?_, ?_⟩
    · rw [parent?, if_pos rfl]
      simp
    · rw [bound?_entered]
      simp
    · rw [h.1] at hp
      simpa using hp

/-- Calls that enter no scope leave a scope as it is, if they bind no name of it. -/
theorem Recorded.cons {c : Call α} (h : Recorded cs i here) (hparent : parent? i (c :: cs) = parent? i cs)
    (hsince : since i (c :: cs) = c :: since i cs)
    (hfree : ∀ name, (bound? cs i name).or (c.binding? i name) = bound? cs i name) : Recorded (c :: cs) i here := by
  refine ⟨h.parent.trans hparent.symm, fun name => ?_, h.smaller⟩
  rw [bound?_cons hsince, hfree]
  exact h.names name

theorem records_leave (h : Records cs s) (hscope : scope < s.arena.length) :
    Records (.leave scope :: cs) ⟨s.arena.take scope⟩ := by
  refine ⟨by simp [size, Nat.le_of_lt hscope], fun i here hi => ?_⟩
  rw [List.getElem?_take] at hi
  split at hi
  next => exact (h.2 i here hi).cons rfl rfl fun _ => Option.or_none
  next => cases hi

theorem records_lookup (h : Records cs s) (name : String) : Records (.lookup scope name :: cs) s :=
  ⟨h.1, fun i here hi => (h.2 i here hi).cons rfl rfl fun _ => Option.or_none⟩

theorem records_refused (h : Records cs s) {name : String} {value : α} (hb : (bound? cs scope name).isSome) :
    Records (.define scope name value :: cs) s := by
  refine ⟨h.1, fun i here hi => (h.2 i here hi).cons rfl rfl fun x => ?_⟩
  rw [Call.binding?]
  split
  next hsame =>
    obtain ⟨rfl, rfl⟩ := hsame
    exact Option.or_of_isSome hb
  next => exact Option.or_none

theorem records_defined (h : Records cs s) {name : String} {value : α} (hi : s.arena[scope]? = some here)
    (hb : bound? cs scope name = none) :
    Records (.define scope name value :: cs)
      ⟨s.arena.set scope { here with names := (name, value) :: here.names }⟩ := by
  refine ⟨by simp [size, h.1], fun i there hget => ?_⟩
  by_cases hsame : scope = i
  · subst hsame
    have hlt := (List.getElem?_eq_some_iff.mp hi).1
    rw [List.getElem?_set_self hlt] at hget
    obtain rfl := Option.some.inj hget
    have hold := h.2 scope here hi
    refine ⟨hold.parent, fun x => ?_, hold.smaller⟩
    rw [bound?_cons rfl, Call.binding?, List.lookup_cons]
    by_cases hx : name = x
    · subst hx
      simp [hb]
    · have hne : (x == name) = false := beq_false_of_ne (Ne.symm hx)
      simp [hx, hne, hold.names x]
  · rw [List.getElem?_set_ne hsame] at hget
    refine (h.2 i there hget).cons rfl rfl fun x => ?_
    rw [Call.binding?, if_neg fun he => hsame he.1]
    exact Option.or_none

theorem define_of_records (h : Records cs s) (hi : s.arena[scope]? = some here) (name : String) (value : α) :
    s.define scope name value = .ok (if (bound? cs scope name).isSome then .error value
      else .ok ⟨s.arena.set scope { here with names := (name, value) :: here.names }⟩) := by
  rw [define, hi]
  simp only [(h.2 scope here hi).names name]
  cases bound? cs scope name <;> rfl

/-- Positions get smaller on the way outwards, so that as many steps as there are scopes suffice. -/
theorem nearest_lookupFrom (h : Records cs s) (name : String) (n : Nat) :
    ∀ scope < n, scope < s.arena.length → ∃ r, lookupFrom s.arena name n scope = .ok r ∧ Nearest cs name scope r := by
  induction n with
  | zero => exact fun scope hn => absurd hn (Nat.not_lt_zero _)
  | succ n ih =>
    intro scope hn hlt
    have hi := List.getElem?_eq_getElem hlt
    have hrec := h.2 scope _ hi
    rw [lookupFrom, hi]
    simp only [hrec.names name]
    cases hb : bound? cs scope name with
    | some value => exact ⟨_, rfl, .here hb⟩
    | none =>
      cases hp : s.arena[scope].parent with
      | none => exact ⟨none, rfl, .nowhere hb (hrec.parent.symm.trans hp)⟩
      | some p =>
        have hsmall : p < scope := hrec.smaller p hp
        obtain ⟨r, hr, hnear⟩ := ih p (by omega) (by omega)
        exact ⟨r, hr, .outwards hb (hrec.parent.symm.trans hp) hnear⟩

theorem nearest_lookup (h : Records cs s) (hlt : scope < s.arena.length) (name : String) :
    ∃ r, s.lookup scope name = .ok r ∧ Nearest cs name scope r :=
  nearest_lookupFrom h name _ scope (Nat.lt_succ_of_lt hlt) hlt

theorem records_run (h : Records cs s) {c : Call α} (hc : c.Allowed s) :
    ∃ a s', c.run s = .ok (a, s') ∧ Records (c :: cs) s' := by
  obtain ⟨hlt, hroot⟩ := hc
  cases c with
  | enter parent => exact ⟨_, _, rfl, records_enter h hlt⟩
  | leave scope =>
    have hne : scope ≠ root := fun he => hroot (congrArg Call.leave he)
    rw [Call.run, leave, if_neg hne]
    exact ⟨_, _, rfl, records_leave h hlt⟩
  | define scope name value =>
    have hi : s.arena[scope]? = some s.arena[scope] := List.getElem?_eq_getElem hlt
    rw [Call.run, define_of_records h hi]
    cases hb : bound? cs scope name with
    | some v => exact ⟨_, _, rfl, records_refused h (hb ▸ rfl)⟩
    | none => exact ⟨_, _, rfl, records_defined h hi hb⟩
  | lookup scope name =>
    obtain ⟨r, hr, -⟩ : ∃ r, s.lookup scope name = .ok r ∧ _ := nearest_lookup h hlt name
    rw [Call.run, hr]
    exact ⟨_, _, rfl, records_lookup h name⟩

theorem Reached.records (h : Reached cs s) : Records cs s := by
  induction h with
  | new => exact records_new
  | call _ hc hrun ih =>
    obtain ⟨a, s', hs', hrec⟩ := records_run ih hc
    rw [hrun] at hs'
    obtain ⟨-, rfl⟩ := Prod.mk.inj (Except.ok.inj hs')
    exact hrec

end Steps

/-- After any allowed calls, parents stand before their scopes, a look-up finds the first definition in the
nearest scope that has one, a second definition in a scope is handed back without effect, and every further
call that is allowed is answered. -/
theorem Reached.lookup_nearest {cs : List (Call α)} {s : Scopes α} (h : Reached cs s) :
    (∀ i (here : Scope α) p, s.arena[i]? = some here → here.parent = some p → p < i) ∧
      (∀ scope < s.arena.length, ∀ name, ∃ r, s.lookup scope name = .ok r ∧ Nearest cs name scope r) ∧
      (∀ scope < s.arena.length, ∀ name value, (bound? cs scope name).isSome = true →
        (Call.define scope name value).run s = .ok (.refused value, s)) ∧
      ∀ c : Call α, c.Allowed s → ∃ a s', c.run s = .ok (a, s') := by
  have hrec := h.records
  refine ⟨fun i here p hi => (hrec.2 i here hi).smaller p, fun scope => nearest_lookup hrec, ?_, ?_⟩
  · intro scope hlt name value hb
    rw [Call.run, define_of_records hrec (List.getElem?_eq_getElem hlt), if_pos hb]
    rfl
  · intro c hc
    obtain ⟨a, s', hrun, -⟩ := records_run hrec hc
    exact ⟨a, s', hrun⟩

/-- Position 1 is left and entered again, and its second definition of the name has no effect. -/
theorem lookup_nearest_reentered :
    let cs : List (Call Nat) := [.define 1 "x" 5, .define 1 "x" 4, .enter 0, .leave 1, .define 1 "x" 3, .enter 0,
      .define 0 "y" 2, .define 0 "x" 1]
    ∃ s, Reached cs s ∧ s.arena.length = 2 ∧
      (∃ r, s.lookup 1 "x" = .ok r ∧ Nearest cs "x" 1 r) ∧ s.lookup 1 "x" = .ok (some (1, 4)) ∧
      (∃ r, s.lookup 1 "y" = .ok r ∧ Nearest cs "y" 1 r) ∧ s.lookup 1 "y" = .ok (some (0, 2)) := by
  intro cs
  have h0 : Reached [.define 0 "y" 2, .define 0 "x" 1] (⟨[⟨[("y", 2), ("x", 1)], none⟩]⟩ : Scopes Nat) :=
    .call (.call .new ⟨by decide, by decide⟩ rfl) ⟨by decide, by decide⟩ rfl
  have h1 : Reached _ _ := .call (.call (.call h0 (c := .enter 0) ⟨by decide, by decide⟩ rfl)
    (c := .define 1 "x" 3) ⟨by decide, by decide⟩ rfl) (c := .leave 1) ⟨by decide, by decide⟩ rfl
  have h2 : Reached cs ⟨[⟨[("y", 2), ("x", 1)], none⟩, ⟨[("x", 4)], some 0⟩]⟩ :=
    .call (.call (.call h1 ⟨by decide, by decide⟩ rfl) ⟨by decide, by decide⟩ rfl) ⟨by decide, by decide⟩ rfl
  have hall := h2.lookup_nearest
  exact ⟨_, h2, rfl, hall.2.1 1 (by decide) "x", rfl, hall.2.1 1 (by decide) "y", rfl⟩

end Gondola.Scopes
