import Gondola.Proofs.Typing.Notes
import Gondola.Proofs.Typing.TopLevel

/-! Block scoping. What is checked in the last of the scopes leaves the others as they are and adds to that one the
names that it declares itself. -/
namespace Gondola

theorem Scopes.lookupFrom_congr {α : Type} {A B : List (Scope α)} {name : String} (h : ∀ i : Nat,
      A[i]?.map (fun s => (s.names.lookup name, s.parent)) = B[i]?.map fun s => (s.names.lookup name, s.parent))
    (n i : Nat) : lookupFrom A name n i = lookupFrom B name n i := by
  -- The bound on the way up is the same in both, and each step of it goes to the same parent.
  induction n generalizing i with
  | zero => rfl
  | succ n ih =>
    have hi := h i
    rw [lookupFrom, lookupFrom]
    cases hA : A[i]? with
    | none =>
      rw [hA] at hi
      rw [Option.map_eq_none_iff.mp hi.symm]
    | some a =>
      rw [hA] at hi
      obtain ⟨b, hB, hab⟩ := Option.map_eq_some_iff.mp hi.symm
      obtain ⟨hnames, hparent⟩ := Prod.mk.inj hab
      rw [hB]
      dsimp only
      rw [hnames, hparent]
      split
      · rfl
      · split
        · rfl
        · exact ih _

namespace Checker

open Typing

/-- The second names arise from the first ones by binding the given identifiers one after the other, none of which
was bound before. -/
inductive Grows : List Ident → Env → Env → Prop
  | refl (names : Env) : Grows [] names names
  | bind {x : Ident} {xs : List Ident} {names names' : Env} (t : Ty) (hfree : names.lookup x.name = none)
    (hrest : Grows xs ((x.name, ⟨t, x⟩) :: names) names') : Grows (x :: xs) names names'

section Grows

variable {xs ys : List Ident} {a b d : Env} {name : String}

theorem Grows.append (h : Grows xs a b) (h' : Grows ys b d) : Grows (xs ++ ys) a d := by
  induction h with
  | refl => exact h'
  | bind t hfree _ ih => exact .bind t hfree (ih h')

theorem Grows.lookup_eq_some (h : Grows xs a b) {v : Declared} (hv : a.lookup name = some v) :
    b.lookup name = some v := by
  induction h with
  | refl => exact hv
  | @bind x xs names names' t hfree _ ih =>
    refine ih ?_
    rw [List.lookup_cons]
    split
    · -- The new name was not bound, so it cannot hide the given one.
      rename_i heq
      rw [eq_of_beq heq, hfree] at hv
      cases hv
    · exact hv

theorem Grows.lookup_other (h : Grows xs a b) (hname : name ∉ xs.map Ident.name) :
    b.lookup name = a.lookup name := by
  induction h with
  | refl => rfl
  | @bind x xs names names' t hfree _ ih =>
    obtain ⟨hne, hrest⟩ := not_or.mp (mt List.mem_cons.mpr hname)
    rw [ih hrest, List.lookup_cons, beq_false_of_ne hne]

theorem Grows.lookup_new (h : Grows xs a b) {x : Ident} (hx : x ∈ xs) : ∃ t, b.lookup x.name = some ⟨t, x⟩ := by
  induction h with
  | refl => cases hx
  | @bind y xs names names' t hfree hrest ih =>
    rcases List.mem_cons.mp hx with rfl | hx
    · exact ⟨t, hrest.lookup_eq_some (by rw [List.lookup_cons, beq_self_eq_true])⟩
    · exact ih hx

theorem Grows.lookup_before (h : Grows xs a b) {x : Ident} (hx : x ∈ xs) : a.lookup x.name = none := by
  induction h with
  | refl => cases hx
  | @bind y xs names names' t hfree _ ih =>
    rcases List.mem_cons.mp hx with rfl | hx
    · exact hfree
    · -- If it is not bound after the first name, it was not bound before it either.
      have hlater := ih hx
      rw [List.lookup_cons] at hlater
      split at hlater
      · cases hlater
      · exact hlater

theorem Grows.eq_append (h : Grows xs a b) :
    ∃ new : Env, b = new ++ a ∧ new.map (fun e => (e.1, e.2.origin)) = xs.reverse.map fun x => (x.name, x) := by
  induction h with
  | refl => exact ⟨[], rfl, rfl⟩
  | @bind x xs names names' t hfree _ ih =>
    obtain ⟨new, rfl, hnew⟩ := ih
    refine ⟨new ++ [(x.name, ⟨t, x⟩)], by simp, ?_⟩
    rw [List.map_append, hnew, List.reverse_cons, List.map_append]
    rfl

end Grows

/-- One scope has grown by the given identifiers, and nothing else has changed. -/
def Gains (scope : Nat) (xs : List Ident) (S S' : Scopes Declared) : Prop :=
  ∃ here names, S.arena[scope]? = some here ∧ Grows xs here.names names ∧
    S'.arena = S.arena.set scope ⟨names, here.parent⟩

section Gains

variable {scope : Nat} {xs ys : List Ident} {S S' S'' : Scopes Declared}

theorem Gains.refl (h : S.arena.length = scope + 1) : Gains scope [] S S := by
  have hlt : scope < S.arena.length := by omega
  refine ⟨S.arena[scope], S.arena[scope].names, List.getElem?_eq_getElem hlt, .refl _, ?_⟩
  exact (List.set_getElem_self hlt).symm

theorem Gains.length_eq (h : Gains scope xs S S') : S'.arena.length = S.arena.length := by
  obtain ⟨here, names, -, -, harena⟩ := h
  rw [harena, List.length_set]

theorem Gains.append (h : Gains scope xs S S') (h' : Gains scope ys S' S'') : Gains scope (xs ++ ys) S S'' := by
  obtain ⟨here, names, hhere, hgrows, harena⟩ := h
  obtain ⟨here', names', hhere', hgrows', harena'⟩ := h'
  obtain ⟨hlt, -⟩ := List.getElem?_eq_some_iff.mp hhere
  rw [harena, List.getElem?_set_self hlt] at hhere'
  obtain rfl := Option.some.inj hhere'
  refine ⟨here, names', hhere, hgrows.append hgrows', ?_⟩
  rw [harena', harena, List.set_set]

end Gains

/-- Where the scope is the last one of the arena, the step makes it grow by the given identifiers and changes no other
scope. -/
def Declares {α : Type} (scope : Nat) (xs : List Ident) (m : Check α) : Prop :=
  ∀ c a c', c.scopes.arena.length = scope + 1 → m c = .ok (a, c') → Gains scope xs c.scopes c'.scopes

section Rules

variable {α β : Type} {scope : Nat} {xs ys : List Ident} {m : Check α} {f : α → Check β}

theorem declares_of_scopes_eq (h : ∀ c a c', m c = .ok (a, c') → c'.scopes = c.scopes) : Declares scope [] m := by
  intro c a c' hlen hm
  rw [h c a c' hm]
  exact .refl hlen

theorem Declares.bind (hm : Declares scope xs m) (hf : ∀ a, Declares scope ys (f a)) :
    Declares scope (xs ++ ys) (m >>= f) := by
  intro c b c' hlen h
  obtain ⟨a, q, ha, hb⟩ := Checker.bind_eq_ok.mp h
  have hfirst := hm c a q hlen ha
  exact hfirst.append (hf a q b c' (hfirst.length_eq.trans hlen) hb)

theorem Declares.andThen (hm : Declares scope [] m) (hf : ∀ a, Declares scope ys (f a)) :
    Declares scope ys (m >>= f) := hm.bind hf

theorem declares_pure (a : α) : Declares scope [] (pure a : Check α) := by
  refine declares_of_scopes_eq ?_
  intro c b c' h
  rw [(pure_eq_ok.mp h).2]

theorem declares_throw (e : Failure TypeError) : Declares scope xs (throw e : Check α) :=
  fun _ _ _ _ h => absurd h throw_ne_ok

theorem Notes.declares {ids : List Nat} (h : Notes ids m) : Declares scope [] m := by
  refine declares_of_scopes_eq ?_
  rintro ⟨S, T⟩ a c' hm
  rcases h S with ⟨e, he⟩ | ⟨b, new, -, hrun⟩
  · rw [he] at hm
    cases hm
  · rw [hrun] at hm
    cases hm
    rfl

theorem declares_define (x : Ident) (t : Ty) : Declares scope [x] (define scope x t) := by
  intro c a c' hlen h
  have hlt : scope < c.scopes.arena.length := by omega
  have hhere := List.getElem?_eq_getElem hlt
  rw [define, Scopes.define, hhere] at h
  cases hfree : c.scopes.arena[scope].names.lookup x.name with
  | some v =>
    -- A second declaration of the name in this scope is an error.
    simp only [hfree, ofScopes] at h
    cases h
  | none =>
    simp only [hfree, ofScopes] at h
    cases h
    exact ⟨_, _, hhere, .bind t hfree (.refl _), rfl⟩

theorem declares_defineAll : ∀ (xs : List Ident) (ts : List Ty), ∃ ys, Declares scope ys (defineAll scope xs ts)
  | [], _ => ⟨[], declares_pure ()⟩
  | _ :: _, [] => ⟨[], declares_pure ()⟩
  | x :: xs, t :: ts => by
    obtain ⟨ys, hys⟩ := declares_defineAll xs ts
    exact ⟨[x] ++ ys, (declares_define x t).bind fun _ => hys⟩

theorem declares_within {step : Nat → Check α} (h : ∃ xs, Declares (scope + 1) xs (step (scope + 1))) :
    Declares scope [] (within scope step) := by
  obtain ⟨xs, h⟩ := h
  refine fun c a c' hlen hm => ?_
  obtain ⟨inner, q, henter, hm⟩ := Checker.bind_eq_ok.mp hm
  cases henter
  obtain ⟨b, q, hstep, hm⟩ := Checker.bind_eq_ok.mp hm
  obtain ⟨⟨⟩, q', hleave, hm⟩ := Checker.bind_eq_ok.mp hm
  obtain ⟨rfl, rfl⟩ := pure_eq_ok.mp hm
  rw [hlen] at hstep hleave
  obtain ⟨here, names, -, -, harena⟩ := h _ _ _ (by simp [hlen]) hstep
  -- The inner scope is the only one that changed, and leaving cuts the arena off right before it.
  have htake : q.scopes.arena.take (scope + 1) = c.scopes.arena := by
    rw [harena, List.take_set_of_le (Nat.le_refl _), ← hlen]
    exact List.take_left
  have hroot : scope + 1 ≠ Scopes.root := Nat.succ_ne_zero _
  rw [leave, Scopes.leave, if_neg hroot, htake] at hleave
  cases hleave
  exact .refl hlen

end Rules

section Steps

variable {scope : Nat}

theorem declares_expr (e : Expr) : Declares scope [] (checkExpr scope e) :=
  (notes_expr scope e (List.Subset.refl _)).declares

theorem declares_expect (t u : Ty) (span : Span) : Declares scope [] (expect t u span) :=
  (notes_expect t u span : Notes [] _).declares

theorem declares_resolve (t : TypeExpr) : Declares scope [] (resolve scope t) := by
  refine declares_of_scopes_eq fun c a c' h => ?_
  unfold resolve at h
  split at h
  · cases h
  · cases h
    rfl

theorem declares_resolveAll (ts : List TypeExpr) : Declares scope [] (resolveAll scope ts) := by
  induction ts with
  | nil => exact declares_pure []
  | cons t ts ih => exact (declares_resolve t).andThen fun _ => ih.andThen fun _ => declares_pure _

theorem declares_condition (cond : Expr) : Declares scope [] (checkCondition scope cond) :=
  (declares_expr cond).andThen fun _ => declares_expect _ _ _

theorem declares_variableType (written : Option TypeExpr) (value : Expr) :
    Declares scope [] (variableType scope written value) := by
  refine (declares_expr value).andThen fun actual => ?_
  cases written with
  | none => exact declares_pure actual
  | some t =>
    exact (declares_resolve t).andThen fun expected => (declares_expect _ _ _).andThen fun _ =>
      declares_pure expected

theorem declares_let (x : Ident) (written : Option TypeExpr) (value : Expr) :
    Declares scope [x] (checkLet scope x written value) := by
  refine (declares_variableType written value).andThen fun t => ?_
  split
  · exact declares_throw _
  · exact declares_define x _

theorem declares_assign (target value : Expr) : Declares scope [] (checkAssign scope target value) := by
  refine (declares_expr target).andThen fun expected => ?_
  split
  · exact declares_throw _
  · exact (declares_expr value).andThen fun _ => declares_expect _ _ _

theorem declares_return (result : Option Ty) (span : Span) (value : Option Expr) :
    Declares scope [] (checkReturn scope result span value) := by
  unfold checkReturn
  split
  · exact declares_throw _
  · split
    · exact declares_expect _ _ _
    · exact (declares_expr _).andThen fun _ => declares_expect _ _ _

theorem declares_itemType (iterable : Expr) : Declares scope [] (itemType scope iterable) := by
  refine (declares_expr iterable).andThen fun t => ?_
  split
  · exact declares_pure _
  · exact declares_throw _

theorem declares_loopVars (vars : LoopVars) (item : Ty) : ∃ xs, Declares scope xs (defineLoopVars scope vars item) := by
  unfold defineLoopVars
  split
  · exact ⟨_, declares_define _ _⟩
  · exact ⟨_, (declares_define _ _).bind fun _ => declares_define _ _⟩

theorem declares_patternTypes (enum : String) (cases : List (String × List Ty)) (seen : List String) (p : Pattern) :
    Declares scope [] (patternTypes enum cases seen p) := by
  unfold patternTypes
  split
  · exact declares_throw _
  · split
    · exact declares_throw _
    · split
      · exact declares_pure _
      · exact declares_throw _

theorem declares_structFields (done : List (String × Ty)) (bs : List Binding) :
    Declares scope [] (structFields scope done bs) := by
  induction bs generalizing done with
  | nil => exact declares_pure done
  | cons b bs ih =>
    rw [structFields]
    split
    · exact declares_throw _
    · exact (declares_resolve _).andThen fun _ => ih _

theorem declares_enumCases (done : List (String × List Ty)) (cs : List EnumCase) :
    Declares scope [] (enumCases scope done cs) := by
  induction cs generalizing done with
  | nil => exact declares_pure done
  | cons c cs ih =>
    rw [enumCases]
    split
    · exact declares_throw _
    · exact (declares_resolveAll _).andThen fun _ => ih _

theorem declares_struct (d : StructDecl) : Declares scope [d.name] (checkStruct scope d) :=
  (declares_structFields [] d.fields).andThen fun _ => declares_define _ _

theorem declares_enum (d : EnumDecl) : Declares scope [d.name] (checkEnum scope d) :=
  (declares_enumCases [] d.cases).andThen fun _ => declares_define _ _

end Steps

theorem Declares.block {scope : Nat} {start body : Check Unit} (hstart : ∃ xs, Declares scope xs start)
    (hbody : ∃ ys, Declares scope ys body) : ∃ zs, Declares scope zs (start >>= fun _ => body) := by
  obtain ⟨xs, hxs⟩ := hstart
  obtain ⟨ys, hys⟩ := hbody
  exact ⟨xs ++ ys, hxs.bind fun _ => hys⟩

mutual
theorem declares_stmt (scope : Nat) (result : Option Ty) :
    ∀ s : Stmt, Declares scope s.declares (checkStmt scope result s)
  | .letVar _ x t e => declares_let x t e
  | .assign _ t e => declares_assign t e
  | .ret s e => declares_return result s e
  | .expr _ e => (declares_expr e).andThen fun _ => declares_pure _
  | .ifElse _ cs o => (declares_clauses scope result cs).andThen fun _ => declares_otherwise scope result o
  | .whileLoop _ c b => (declares_condition c).andThen fun _ => declares_within ⟨_, declares_block (scope + 1) result b⟩
  -- The variables of the loop are bound in the scope of its body.
  | .forEach _ vs e b => (declares_itemType e).andThen fun item =>
    declares_within (Declares.block (declares_loopVars vs item) ⟨_, declares_block (scope + 1) result b⟩)
  | .matchOn _ e as o => by
    rw [checkStmt]
    refine (declares_expr e).andThen fun t => ?_
    split
    · exact (declares_arms scope result _ _ [] as).andThen fun _ => declares_otherwise scope result o
    · exact declares_throw _
  | .struct _ d => declares_struct d
  | .enum _ d => declares_enum d
theorem declares_clauses (scope : Nat) (result : Option Ty) : ∀ cs : List Clause,
    Declares scope [] (checkClauses scope result cs)
  | [] => declares_pure ()
  | ⟨c, b⟩ :: cs => (declares_condition c).andThen fun _ =>
    (declares_within ⟨_, declares_block (scope + 1) result b⟩).andThen fun _ => declares_clauses scope result cs
theorem declares_arms (scope : Nat) (result : Option Ty) (enum : String) (cases : List (String × List Ty))
    (seen : List String) : ∀ as : List Arm, Declares scope [] (checkArms scope result enum cases seen as)
  | [] => declares_pure ()
  | ⟨p, b⟩ :: as => (declares_patternTypes enum cases seen p).andThen fun types =>
    (declares_within (Declares.block (declares_defineAll p.bindings types)
      ⟨_, declares_block (scope + 1) result b⟩)).andThen fun _ => declares_arms scope result enum cases _ as
theorem declares_otherwise (scope : Nat) (result : Option Ty) : ∀ o : Option (List Stmt),
    Declares scope [] (checkOtherwise scope result o)
  | none => declares_pure ()
  | some b => declares_within ⟨_, declares_block (scope + 1) result b⟩
theorem declares_block (scope : Nat) (result : Option Ty) : ∀ ss : List Stmt,
    Declares scope (ss.flatMap Stmt.declares) (checkBlock scope result ss)
  | [] => declares_pure ()
  | s :: ss => (declares_stmt scope result s).bind fun _ => declares_block scope result ss
end

theorem declares_declareFunction {scope : Nat} (f : FunctionDecl) :
    Declares scope [f.name] (declareFunction scope f) := by
  refine (declares_resolveAll _).andThen fun types => Declares.andThen ?_ fun result =>
    (declares_define f.name _).bind fun _ => ?_
  · cases f.result with
    | none => exact declares_pure _
    | some t => exact declares_resolve t
  · have hadd (sig : Signature) : Declares scope [] (modify fun c : Checker =>
        { c with table := c.table.addFunction f.name.name sig } : Check PUnit) := by
      refine declares_of_scopes_eq fun c a c' h => ?_
      cases h
      rfl
    exact (hadd _).andThen fun _ => declares_pure _

theorem declares_function {scope : Nat} (f : FunctionDecl) : Declares scope [f.name] (checkFunction scope f) :=
  (declares_declareFunction f).bind fun sig => declares_within
    (Declares.block (declares_defineAll _ sig.params) ⟨_, declares_block (scope + 1) _ f.body⟩)

/-- The arena is the one before, but for the given identifiers in one scope. -/
structure LeavesOnly (scope : Nat) (xs : List Ident) (S S' : Scopes Declared) : Prop where
  length_eq : S'.arena.length = S.arena.length
  parent_eq : ∀ i : Nat, S'.arena[i]?.map Scope.parent = S.arena[i]?.map Scope.parent
  other_eq : ∀ i : Nat, i ≠ scope → S'.arena[i]? = S.arena[i]?
  /-- The scope has gained the identifiers, the last one first, and bound none of them before. -/
  gained : ∃ here here' new, S.arena[scope]? = some here ∧ S'.arena[scope]? = some here' ∧
    here'.names = new ++ here.names ∧ new.map (fun e => (e.1, e.2.origin)) = xs.reverse.map (fun x => (x.name, x)) ∧
    ∀ x ∈ xs, here.names.lookup x.name = none
  /-- What a scope binds, it binds to the same as before. -/
  kept : ∀ (i : Nat) name d here, S.arena[i]? = some here → here.names.lookup name = some d →
    ∃ here', S'.arena[i]? = some here' ∧ here'.names.lookup name = some d
  /-- Any other name is found from everywhere as before, or not at all as before. -/
  lookup_other : ∀ i name, name ∉ xs.map Ident.name → S'.lookup i name = S.lookup i name
  lookup_new : ∀ x ∈ xs, ∃ t, S'.lookup scope x.name = .ok (some (scope, ⟨t, x⟩))

section LeavesOnly

variable {scope : Nat} {xs : List Ident} {S S' : Scopes Declared}

theorem Gains.leavesOnly (h : Gains scope xs S S') : LeavesOnly scope xs S S' := by
  have hlength := h.length_eq
  obtain ⟨here, names, hhere, hgrows, harena⟩ := h
  obtain ⟨hlt, -⟩ := List.getElem?_eq_some_iff.mp hhere
  have hself : S'.arena[scope]? = some ⟨names, here.parent⟩ := by rw [harena, List.getElem?_set_self hlt]
  have hother (i : Nat) (hi : i ≠ scope) : S'.arena[i]? = S.arena[i]? := by
    rw [harena, List.getElem?_set_ne (Ne.symm hi)]
  constructor
  · exact hlength
  · intro i
    by_cases hi : i = scope
    · rw [hi, hself, hhere]
      rfl
    · rw [hother i hi]
  · exact hother
  · obtain ⟨new, happend, hnew⟩ := hgrows.eq_append
    exact ⟨here, _, new, hhere, hself, happend, hnew, fun x hx => hgrows.lookup_before hx⟩
  · intro i name d there hthere hd
    by_cases hi : i = scope
    · subst hi
      obtain rfl := Option.some.inj (hhere.symm.trans hthere)
      exact ⟨_, hself, hgrows.lookup_eq_some hd⟩
    · exact ⟨there, (hother i hi).trans hthere, hd⟩
  · -- The names that were added are other ones, so no scope binds this one anew.
    intro i name hname
    rw [Scopes.lookup, Scopes.lookup, hlength]
    refine Scopes.lookupFrom_congr (fun j => ?_) _ i
    by_cases hj : j = scope
    · rw [hj, hself, hhere, Option.map_some, Option.map_some, hgrows.lookup_other hname]
    · rw [hother j hj]
  · -- The search stops in the scope that it starts from.
    intro x hx
    obtain ⟨t, ht⟩ := hgrows.lookup_new hx
    refine ⟨t, ?_⟩
    rw [Scopes.lookup, Scopes.lookupFrom, hself]
    dsimp only
    rw [ht]

end LeavesOnly

/-- A statement that is accepted in the last scope of the arena leaves nothing behind but what it declares itself, and a
function nothing but its name. -/
theorem leavesOnly_declared {scope : Nat} {c c' : Checker} (hlast : c.scopes.arena.length = scope + 1) :
    (∀ result s, checkStmt scope result s c = .ok ((), c') → LeavesOnly scope s.declares c.scopes c'.scopes) ∧
      ∀ f, checkFunction scope f c = .ok ((), c') → LeavesOnly scope [f.name] c.scopes c'.scopes :=
  ⟨fun result s h => (declares_stmt scope result s c () c' hlast h).leavesOnly,
    fun f h => (declares_function f c () c' hlast h).leavesOnly⟩

/-- A function with a parameter, and a variable in a loop. -/
theorem leavesOnly_declared_nested : ∃ c', checkFunction 0 ⟨⟨"f", {}⟩, [⟨⟨"n", {}⟩, .mk ⟨"int", {}⟩ [] {}⟩], none,
      [.whileLoop {} (.bool ⟨0, {}⟩ true) [.letVar {} ⟨"x", {}⟩ none (.symbol ⟨1, {}⟩ ⟨"n", {}⟩)]]⟩
      ⟨⟨[⟨[], none⟩]⟩, {}⟩ = .ok ((), c') ∧
    (∃ t, c'.scopes.lookup 0 "f" = .ok (some (0, ⟨t, ⟨"f", {}⟩⟩))) ∧
    c'.scopes.lookup 0 "n" = .ok none ∧ c'.scopes.lookup 0 "x" = .ok none := by
  let f : FunctionDecl := ⟨⟨"f", {}⟩, [⟨⟨"n", {}⟩, .mk ⟨"int", {}⟩ [] {}⟩], none,
    [.whileLoop {} (.bool ⟨0, {}⟩ true) [.letVar {} ⟨"x", {}⟩ none (.symbol ⟨1, {}⟩ ⟨"n", {}⟩)]]⟩
  obtain ⟨c', h⟩ : ∃ c', checkFunction 0 f ⟨⟨[⟨[], none⟩]⟩, {}⟩ = .ok ((), c') := ⟨_, rfl⟩
  have honly := (leavesOnly_declared rfl).2 f h
  exact ⟨c', h, honly.lookup_new _ List.mem_cons_self, honly.lookup_other 0 "n" (by decide),
    honly.lookup_other 0 "x" (by decide)⟩

end Checker

end Gondola
