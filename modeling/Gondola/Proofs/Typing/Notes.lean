import Gondola.Proofs.Program.Numbering
import Gondola.Proofs.Typing.Steps
import Gondola.Typing.Expr

/-! What checking an expression notes. It goes on top of the table, whatever is there already, and does not depend on
what was checked before. -/
namespace Gondola

namespace TypeTable

/-- The first table on top of the second one. -/
def onto (new old : TypeTable) : TypeTable where
  types := new.types ++ old.types
  builtins := new.builtins ++ old.builtins
  declarations := new.declarations ++ old.declarations
  functions := new.functions ++ old.functions

@[simp] theorem empty_onto (T : TypeTable) : ({} : TypeTable).onto T = T := rfl

@[simp] theorem onto_empty (T : TypeTable) : T.onto {} = T := by
  simp [onto]

theorem onto_assoc (A B C : TypeTable) : (A.onto B).onto C = A.onto (B.onto C) := by
  simp [onto]

/-- The table says something of the given numbers only. -/
structure Of (ids : List Nat) (T : TypeTable) : Prop where
  types : ∀ e ∈ T.types, e.1 ∈ ids
  builtins : ∀ id ∈ T.builtins, id ∈ ids
  declarations : ∀ e ∈ T.declarations, e.1 ∈ ids
  functions : T.functions = []

section Of

variable {ids : List Nat} {A B : TypeTable}

theorem of_empty (ids : List Nat) : Of ids {} :=
  ⟨List.forall_mem_nil _, List.forall_mem_nil _, List.forall_mem_nil _, rfl⟩

theorem Of.onto (hA : A.Of ids) (hB : B.Of ids) : (A.onto B).Of ids where
  types := List.forall_mem_append.mpr ⟨hA.types, hB.types⟩
  builtins := List.forall_mem_append.mpr ⟨hA.builtins, hB.builtins⟩
  declarations := List.forall_mem_append.mpr ⟨hA.declarations, hB.declarations⟩
  functions := by rw [TypeTable.onto, hA.functions, hB.functions, List.append_nil]

theorem entry_onto (A T : TypeTable) (id : Nat) :
    (A.onto T).entry id = ((A.entry id).1.or (T.entry id).1, (A.entry id).2.1.or (T.entry id).2.1,
      (A.entry id).2.2 || (T.entry id).2.2) := by
  simp only [entry, onto, typeAt?, declarationAt?, List.lookup_append, List.contains_append]

theorem lookup_eq_none_of_keys {β : Type} {xs : List (Nat × β)} (h : ∀ e ∈ xs, e.1 ∈ ids) {id : Nat} (hid : id ∉ ids) :
    xs.lookup id = none := by
  rw [List.lookup_eq_none_iff]
  rintro ⟨id', b⟩ he
  rw [bne_iff_ne]
  rintro rfl
  exact hid (h _ he)

theorem Of.entry_onto (h : A.Of ids) {id : Nat} (hid : id ∉ ids) (T : TypeTable) :
    (A.onto T).entry id = T.entry id := by
  have hbuiltin : A.builtins.contains id = false := by
    rw [Bool.eq_false_iff]
    exact fun hin => hid (h.builtins id (List.contains_iff_mem.mp hin))
  have hentry : A.entry id = (none, none, false) := by
    rw [entry, typeAt?, declarationAt?, lookup_eq_none_of_keys h.types hid,
      lookup_eq_none_of_keys h.declarations hid, hbuiltin]
  rw [TypeTable.entry_onto, hentry]
  rfl

end Of

end TypeTable

namespace Checker

/-- The step reads nothing of the state but the scopes, leaves them as they are, and notes something under the numbers
`ids` on top of the table. -/
def Notes {α : Type} (ids : List Nat) (m : Check α) : Prop :=
  ∀ S, (∃ e, ∀ T, m ⟨S, T⟩ = .error e) ∨
    ∃ a new, TypeTable.Of ids new ∧ ∀ T, m ⟨S, T⟩ = .ok (a, ⟨S, new.onto T⟩)

section Rules

variable {α β : Type} {ids : List Nat} {m : Check α} {f : α → Check β}

theorem notes_pure (a : α) : Notes ids (pure a : Check α) :=
  fun _ => .inr ⟨a, {}, TypeTable.of_empty ids, fun _ => rfl⟩

theorem notes_throw (e : Failure TypeError) : Notes ids (throw e : Check α) :=
  fun _ => .inl ⟨e, fun _ => rfl⟩

theorem Notes.bind (hm : Notes ids m) (hf : ∀ a, Notes ids (f a)) : Notes ids (m >>= f) := by
  intro S
  rcases hm S with ⟨e, he⟩ | ⟨a, new, hof, hrun⟩
  · refine .inl ⟨e, fun T => ?_⟩
    change Except.bind (m ⟨S, T⟩) _ = _
    rw [he]
    rfl
  · -- The first step passes on the same value whatever the table is, so the second one is the same step.
    have hstep (T : TypeTable) : (m >>= f) ⟨S, T⟩ = f a ⟨S, new.onto T⟩ := by
      change Except.bind (m ⟨S, T⟩) _ = _
      rw [hrun]
      rfl
    rcases hf a S with ⟨e, he⟩ | ⟨b, new', hof', hrun'⟩
    · exact .inl ⟨e, fun T => (hstep T).trans (he _)⟩
    · refine .inr ⟨b, new'.onto new, hof'.onto hof, fun T => ?_⟩
      rw [hstep, hrun', TypeTable.onto_assoc]

theorem notes_modify {g : TypeTable → TypeTable} {new : TypeTable} (hof : new.Of ids)
    (hg : ∀ T, g T = new.onto T) : Notes ids (modify fun c => { c with table := g c.table } : Check PUnit) := by
  refine fun S => .inr ⟨⟨⟩, new, hof, fun T => ?_⟩
  change Except.ok (PUnit.unit, Checker.mk S (g T)) = _
  rw [hg]

theorem Notes.recorded {infer : Check Ty} {n : Node} (h : Notes ids infer) (hn : n.id ∈ ids) :
    Notes ids (recorded n infer) := by
  refine h.bind fun t => Notes.bind ?_ fun _ => notes_pure t
  have hof : TypeTable.Of ids { types := [(n.id, t)] } :=
    { TypeTable.of_empty ids with types := List.forall_mem_singleton.mpr hn }
  exact notes_modify hof fun _ => rfl

theorem notes_lookup (scope : Nat) (name : String) : Notes ids (lookup scope name) := by
  intro S
  cases h : ofScopes (S.lookup scope name) with
  | error e =>
    refine .inl ⟨e, fun T => ?_⟩
    simp only [lookup, h]
  | ok found =>
    refine .inr ⟨found, {}, TypeTable.of_empty ids, fun T => ?_⟩
    simp only [lookup, h, TypeTable.empty_onto]

theorem notes_expect (t u : Ty) (span : Span) : Notes ids (expect t u span) := by
  unfold expect
  split
  · exact notes_pure ()
  · exact notes_throw _

theorem notes_unify (t u : Ty) (span : Span) : Notes ids (unify t u span) := by
  unfold unify
  split
  · exact notes_pure _
  · exact notes_throw _

theorem notes_symbolType (scope : Nat) {n : Node} (hn : n.id ∈ ids) (x : Ident) :
    Notes ids (symbolType scope n x) := by
  refine (notes_lookup scope x.name).bind fun found => ?_
  split
  · exact notes_throw _
  · rename_i found d
    split
    · -- What the outermost scope binds belongs to the language.
      have hof : TypeTable.Of ids { builtins := [n.id] } :=
        { TypeTable.of_empty ids with builtins := List.forall_mem_singleton.mpr hn }
      exact (notes_modify hof fun _ => rfl).bind fun _ => notes_pure _
    · have hof : TypeTable.Of ids { declarations := [(n.id, d.origin)] } :=
        { TypeTable.of_empty ids with declarations := List.forall_mem_singleton.mpr hn }
      exact (notes_modify hof fun _ => rfl).bind fun _ => notes_pure _

theorem notes_fieldType (base : Ty) (span : Span) (x : Ident) : Notes ids (fieldType base span x) := by
  unfold fieldType
  split
  · split
    · exact notes_pure _
    · exact notes_throw _
  · split
    · exact notes_pure _
    · exact notes_throw _
  · exact notes_throw _

theorem notes_indexType (base place : Ty) (s s' : Span) : Notes ids (indexType base place s s') := by
  unfold indexType
  split
  · exact (notes_expect _ _ _).bind fun _ => notes_pure _
  · exact (notes_expect _ _ _).bind fun _ => notes_pure _
  · exact notes_throw _

theorem notes_parameterOf (sig : Signature) (position : Nat) (afterKeyword : Bool) (a : Argument) :
    Notes ids (parameterOf sig position afterKeyword a) := by
  unfold parameterOf
  split
  · split
    · exact notes_throw _
    · exact notes_pure _
  · split
    · exact notes_pure _
    · exact notes_throw _

end Rules

section Exprs

variable {ids : List Nat}

mutual
theorem notes_expr (scope : Nat) : ∀ e : Expr, e.ids ⊆ ids → Notes ids (checkExpr scope e)
  | .int n _, h | .string n _, h | .bool n _, h => (notes_pure _).recorded (h List.mem_cons_self)
  | .symbol n x, h =>
    (notes_symbolType scope (h List.mem_cons_self) x).recorded (h List.mem_cons_self)
  | .binary n op l r, h => by
    obtain ⟨hparts, hn⟩ := List.append_subset.mp h
    obtain ⟨hl, hr⟩ := List.append_subset.mp hparts
    exact ((notes_expr scope l hl).bind fun _ => (notes_expect _ _ _).bind fun _ => (notes_expr scope r hr).bind
      fun _ => (notes_expect _ _ _).bind fun _ => notes_pure _).recorded (hn List.mem_cons_self)
  | .unary n op e, h => by
    obtain ⟨he, hn⟩ := List.append_subset.mp h
    exact ((notes_expr scope e he).bind fun _ => (notes_expect _ _ _).bind fun _ =>
      notes_pure _).recorded (hn List.mem_cons_self)
  | .call n c as, h => by
    obtain ⟨hparts, hn⟩ := List.append_subset.mp h
    obtain ⟨hc, has⟩ := List.append_subset.mp hparts
    refine ((notes_expr scope c hc).bind fun t => ?_).recorded (hn List.mem_cons_self)
    -- A function is called, a struct is constructed, and nothing else can be.
    split
    · split
      · exact (notes_arguments scope _ 0 [] false as has).bind fun _ => notes_pure _
      · exact notes_throw _
    · refine (notes_fields scope _ _ [] as has).bind fun given => ?_
      split
      · exact notes_throw _
      · exact notes_pure _
    · exact notes_throw _
  | .list n es, h => by
    obtain ⟨hes, hn⟩ := List.append_subset.mp h
    exact ((notes_items scope .any es hes).bind fun _ => notes_pure _).recorded (hn List.mem_cons_self)
  | .map n es, h => by
    obtain ⟨hes, hn⟩ := List.append_subset.mp h
    exact ((notes_entries scope .any .any es hes).bind fun _ =>
      notes_pure _).recorded (hn List.mem_cons_self)
  | .index n b i, h => by
    obtain ⟨hparts, hn⟩ := List.append_subset.mp h
    obtain ⟨hb, hi⟩ := List.append_subset.mp hparts
    exact ((notes_expr scope b hb).bind fun _ => (notes_expr scope i hi).bind fun _ =>
      notes_indexType _ _ _ _).recorded (hn List.mem_cons_self)
  | .field n b x, h => by
    obtain ⟨hb, hn⟩ := List.append_subset.mp h
    exact ((notes_expr scope b hb).bind fun _ => notes_fieldType _ _ _).recorded (hn List.mem_cons_self)
theorem notes_arguments (scope : Nat) (sig : Signature) (position : Nat) (bound : List Nat)
    (afterKeyword : Bool) : ∀ as : List Argument, Expr.argumentIds as ⊆ ids →
    Notes ids (checkArguments scope sig position bound afterKeyword as)
  | [], _ => notes_pure ()
  | ⟨label, value⟩ :: as, h => by
    obtain ⟨hv, has⟩ := List.append_subset.mp h
    refine (notes_parameterOf sig position afterKeyword _).bind fun p => ?_
    split
    · exact notes_throw _
    · split
      · exact notes_throw _
      · exact (notes_expr scope value hv).bind fun _ => (notes_expect _ _ _).bind fun _ =>
          notes_arguments scope sig _ _ _ as has
theorem notes_fields (scope : Nat) (struct : String) (fields : List (String × Ty)) (given : List String) :
    ∀ as : List Argument, Expr.argumentIds as ⊆ ids → Notes ids (checkFields scope struct fields given as)
  | [], _ => notes_pure given
  | ⟨none, value⟩ :: as, _ => notes_throw _
  | ⟨some label, value⟩ :: as, h => by
    obtain ⟨hv, has⟩ := List.append_subset.mp h
    rw [checkFields]
    split
    · exact notes_throw _
    · split
      · exact notes_throw _
      · exact (notes_expr scope value hv).bind fun _ => (notes_expect _ _ _).bind fun _ =>
          notes_fields scope struct fields _ as has
theorem notes_items (scope : Nat) (current : Ty) : ∀ es : List Expr, Expr.itemIds es ⊆ ids →
    Notes ids (checkItems scope current es)
  | [], _ => notes_pure current
  | e :: es, h => by
    obtain ⟨he, hes⟩ := List.append_subset.mp h
    exact (notes_expr scope e he).bind fun _ => (notes_unify _ _ _).bind fun next =>
      notes_items scope next es hes
theorem notes_entries (scope : Nat) (key value : Ty) : ∀ es : List (Expr × Expr), Expr.entryIds es ⊆ ids →
    Notes ids (checkEntries scope key value es)
  | [], _ => notes_pure (key, value)
  | (k, v) :: es, h => by
    obtain ⟨hparts, hes⟩ := List.append_subset.mp h
    obtain ⟨hk, hv⟩ := List.append_subset.mp hparts
    exact (notes_expr scope k hk).bind fun _ => (notes_unify _ _ _).bind fun _ => (notes_expr scope v hv).bind
      fun _ => (notes_unify _ _ _).bind fun _ => notes_entries scope _ _ es hes
end

end Exprs

/-- The type that is found of an expression where the scopes are those. -/
def found? (scope : Nat) (S : Scopes Declared) (e : Expr) : Option Ty :=
  match checkExpr scope e ⟨S, {}⟩ with
  | .ok (t, _) => some t
  | .error _ => none

/-- All that is noted of an expression where the scopes are those. -/
def noted (scope : Nat) (S : Scopes Declared) (e : Expr) : TypeTable :=
  match checkExpr scope e ⟨S, {}⟩ with
  | .ok (_, c) => c.table
  | .error _ => {}

theorem checkExpr_ok_iff {scope : Nat} {e : Expr} {c c' : Checker} {t : Ty} :
    checkExpr scope e c = .ok (t, c') ↔
      found? scope c.scopes e = some t ∧ c' = ⟨c.scopes, (noted scope c.scopes e).onto c.table⟩ := by
  obtain ⟨S, T⟩ := c
  rw [found?, noted]
  -- Both sides come from runs on the same scopes: one on the given table, one on an empty one.
  rcases notes_expr scope e (List.Subset.refl _) S with ⟨x, hx⟩ | ⟨u, new, -, hrun⟩
  · rw [hx, hx]
    simp
  · rw [hrun, hrun]
    simp [eq_comm]

theorem noted_of (scope : Nat) (S : Scopes Declared) (e : Expr) : (noted scope S e).Of e.ids := by
  rw [noted]
  rcases notes_expr scope e (List.Subset.refl _) S with ⟨x, hx⟩ | ⟨u, new, hof, hrun⟩
  · rw [hx]
    exact TypeTable.of_empty _
  · rw [hrun, TypeTable.onto_empty]
    exact hof

end Checker

end Gondola
