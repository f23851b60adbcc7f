import Gondola.Proofs.Typing.Inherited
import Gondola.Proofs.Typing.Signatures

/-! Where types stay open. Only an empty literal and the built-in leave a part of a type open. -/
namespace Gondola

variable {t : Ty} {ts : List Ty} {x : String} {e c : Expr} {n : Node} {as : List Argument}

namespace Checker

open Typing

/-- The type of items, if it was `current` before them, is that of one of them unless it was known. -/
def Decided (T : TypeTable) (current t : Ty) (es : List Expr) : Prop :=
  (t = current ∧ (current = .any → es = [])) ∨ ∃ e ∈ es, T.typeOf? e = some t

theorem Decided.cons {T : TypeTable} {current next t u : Ty} {e : Expr} {es : List Expr}
    (hnext : current.unify u = some next) (he : T.typeOf? e = some u) (h : Decided T next t es) :
    Decided T current t (e :: es) := by
  obtain ⟨rfl, -⟩ | ⟨f, hf, ht⟩ := h
  · obtain ⟨-, ⟨hne, rfl⟩ | ⟨-, rfl⟩⟩ := Ty.unify_eq_some hnext
    · exact .inl ⟨rfl, fun hany => absurd hany hne⟩
    · exact .inr ⟨e, List.mem_cons_self, he⟩
  · exact .inr ⟨f, List.mem_cons_of_mem _ hf, ht⟩

theorem Decided.of_open {T : TypeTable} {es : List Expr} (h : Decided T .any t es)
    (hne : es ≠ []) : ∃ e ∈ es, T.typeOf? e = some t :=
  h.resolve_left fun hl => hne (hl.2 rfl)

theorem Decided.inherits {T : TypeTable} {P : Ty → Prop} {es : List Expr} (h : Decided T .any t es) (hany : P .any) :
    P t ∨ ∃ e ∈ es, T.typeOf? e = some t := by
  obtain ⟨rfl, -⟩ | h := h
  · exact .inl hany
  · exact .inr h

section Literals

variable {top : Env} {rest : List Env}

theorem finds_itemTypes (current : Ty) (es : List Expr) :
    Finds top rest (checkItems (rest.length + 1) current es) (Expr.itemIds es) fun T t =>
      Decided T current t es := by
  induction es generalizing current with
  | nil =>
    refine (finds_pure current).mono ?_
    rintro T t rfl
    exact .inl ⟨rfl, fun _ => rfl⟩
  | cons e es ih =>
    refine ((finds_checkExpr top rest e).bind fun u => (finds_unify current u e.span).bind fun next =>
      ih next).mono ?_
    rintro T t ⟨u, hu, next, hnext, h⟩
    exact h.cons hnext hu.2

theorem finds_entryTypes (key value : Ty) (es : List (Expr × Expr)) :
    Finds top rest (checkEntries (rest.length + 1) key value es) (Expr.entryIds es) fun T kv =>
      Decided T key kv.1 (es.map Prod.fst) ∧ Decided T value kv.2 (es.map Prod.snd) := by
  induction es generalizing key value with
  | nil =>
    refine (finds_pure (key, value)).mono ?_
    rintro T kv rfl
    exact ⟨.inl ⟨rfl, fun _ => rfl⟩, .inl ⟨rfl, fun _ => rfl⟩⟩
  | cons e es ih =>
    obtain ⟨k, v⟩ := e
    rw [Expr.entryIds, List.append_assoc]
    refine ((finds_checkExpr top rest k).bind fun kt => (finds_unify key kt k.span).bind fun key' =>
      (finds_checkExpr top rest v).bind fun vt => (finds_unify value vt v.span).bind fun value' =>
        ih key' value').mono ?_
    rintro T kv ⟨kt, hk, key', hkey, vt, hv, value', hvalue, hks, hvs⟩
    exact ⟨hks.cons hkey hk.2, hvs.cons hvalue hv.2⟩

end Literals

theorem Kept.list {T : TypeTable} {n : Node} {es : List Expr} (h : Kept T (.list n es)) :
    ∃ t, T.typeAt? n.id = some (.list t) ∧ Decided T .any t es := by
  obtain ⟨_, ⟨t, ht, rfl⟩, htype⟩ := h.found fun top rest =>
    ((finds_itemTypes .any es).last fun t => finds_pure (Ty.list t)).recorded n
  exact ⟨t, htype, ht⟩

theorem Kept.map {T : TypeTable} {n : Node} {es : List (Expr × Expr)} (h : Kept T (.map n es)) :
    ∃ k v, T.typeAt? n.id = some (.map k v) ∧ Decided T .any k (es.map Prod.fst) ∧
      Decided T .any v (es.map Prod.snd) := by
  obtain ⟨_, ⟨⟨k, v⟩, ⟨hk, hv⟩, rfl⟩, htype⟩ := h.found fun top rest =>
    ((finds_entryTypes .any .any es).last fun kv => finds_pure (Ty.map kv.1 kv.2)).recorded n
  exact ⟨k, v, htype, hk, hv⟩

theorem handsOn_of_kept {T : TypeTable} {P : Ty → Prop} (hP : Inherited P) (hany : P .any) {e : Expr}
    (h : ∀ f ∈ e.parts, Kept T f) :
    (e.IsBuiltin T → P Signature.print.type) ∧ ∀ f ∈ e.parts, HandsOn P T f := by
  have hprint : P Signature.print.type := hP.function (List.forall_mem_singleton.mpr hany) (hP.atomic .void)
  refine ⟨fun _ => hprint, fun f hf => ⟨fun _ _ _ => hprint, ?_, ?_⟩⟩
  · rintro n es rfl
    obtain ⟨t, ht, hitem⟩ := (h _ hf).list
    exact ⟨t, ht, hitem.inherits hany⟩
  · rintro n es rfl
    obtain ⟨k, v, ht, hkey, hvalue⟩ := (h _ hf).map
    exact ⟨k, v, ht, hkey.inherits hany, hvalue.inherits hany⟩

end Checker

open Typing

def Expr.isEmptyLiteral : Expr → Bool
  | .list _ es => es.isEmpty
  | .map _ es => es.isEmpty
  | _ => false

namespace Typing

variable {T : TypeTable} {Γ : Env}

def KnownEnv (Γ : Env) : Prop := ∀ x d, Γ.lookup x = some d → d.type.known = true

/-- The expression takes the value of no built-in, and if it is a literal it has the type of what is in it. -/
structure Plain (T : TypeTable) (f : Expr) : Prop where
  operands : ∀ g ∈ f.operands, ¬ g.IsBuiltin T
  list : ∀ n es, f = .list n es →
    ∃ t, T.typeAt? n.id = some (.list t) ∧ ∃ e ∈ es, T.typeOf? e = some t
  map : ∀ n es, f = .map n es → ∃ k v, T.typeAt? n.id = some (.map k v) ∧
    (∃ e ∈ es.map Prod.fst, T.typeOf? e = some k) ∧ ∃ e ∈ es.map Prod.snd, T.typeOf? e = some v

def Settled (T : TypeTable) (e : Expr) : Prop := HasType (fun t => t.known = true) T e

theorem Settled.known (h : Settled T e) (ht : T.typeOf? e = some t) : t.known = true := HasType.of_type h ht

theorem fields_lookup_known {fs : List (String × Ty)}
    (hfs : Ty.fieldsKnown fs = true) (h : fs.lookup x = some t) : t.known = true := by
  obtain ⟨before, after, rfl, -⟩ := List.lookup_eq_some_iff.mp h
  exact Ty.fieldsKnown_iff.mp hfs (x, t) (List.mem_append_right _ List.mem_cons_self)

theorem cases_lookup_known {cs : List (String × List Ty)}
    (hcs : Ty.casesKnown cs = true) (h : cs.lookup x = some ts) : Ty.allKnown ts = true := by
  obtain ⟨before, after, rfl, -⟩ := List.lookup_eq_some_iff.mp h
  exact Ty.casesKnown_iff.mp hcs (x, ts) (List.mem_append_right _ List.mem_cons_self)

theorem inherited_known : Inherited fun t => t.known = true where
  atomic h := by cases h <;> rfl
  list := Iff.rfl
  map := Bool.and_eq_true_iff
  function hps hr := Bool.and_eq_true_iff.mpr ⟨Ty.allKnown_iff.mpr hps, hr⟩
  result h := (Bool.and_eq_true_iff.mp h).2
  field := fields_lookup_known
  case h hx := Ty.allKnown_iff.mp (cases_lookup_known h hx)
  value h := h

section Expr

theorem Plain.handsOn {f : Expr} (h : Plain T f) : HandsOn (fun t => t.known = true) T f where
  operands g hg hb := absurd hb (h.operands g hg)
  list n es hf := by
    obtain ⟨t, ht, hitem⟩ := h.list n es hf
    exact ⟨t, ht, .inr hitem⟩
  map n es hf := by
    obtain ⟨k, v, ht, hkey, hvalue⟩ := h.map n es hf
    exact ⟨k, v, ht, .inr hkey, .inr hvalue⟩

theorem settled_or_builtin (hΓ : KnownEnv Γ) (h : WellTyped T Γ e)
    (hp : ∀ f ∈ e.parts, Plain T f) : Settled T e ∨ e.IsBuiltin T :=
  h.inherits_or_builtin inherited_known hΓ fun f hf => (hp f hf).handsOn

theorem settled_operand (hΓ : KnownEnv Γ) {f : Expr} (h : WellTyped T Γ f)
    (hp : ∀ g ∈ f.parts, Plain T g) (he : e ∈ f.operands) : Settled T e := by
  have hmem := Expr.mem_parts_of_operand he
  have hparts : ∀ g ∈ e.parts, Plain T g := fun g hg => hp g (Expr.mem_parts_trans hg hmem)
  exact (settled_or_builtin hΓ (h.part hmem) hparts).resolve_right
    ((hp f (Expr.mem_parts_self f)).operands e he)

end Expr

end Typing

/-- The type that an expression wants one of its parts to have. -/
inductive Expr.Demands (T : TypeTable) : Expr → Ty → Expr → Prop
  | left {n op l r t u} (hop : BinaryRule op t u) : Demands T (.binary n op l r) t l
  | right {n op l r t u} (hop : BinaryRule op t u) : Demands T (.binary n op l r) t r
  | operand {n op e t} (hop : UnaryRule op t) : Demands T (.unary n op e) t e
  /-- An argument of anything but a built-in is for the parameter that it binds. -/
  | argument {n c as ps ls r i a p t} (hc : T.typeOf? c = some (.function ps ls r))
      (hb : ¬ c.IsBuiltin T) (ha : as[i]? = some a) (hp : Binds ls i a.label p)
      (ht : ps[p]? = some t) : Demands T (.call n c as) t a.value
  | field {n c as s fields a x t} (hc : T.typeOf? c = some (.metatype (.struct s fields)))
      (ha : a ∈ as) (hx : a.label = some x) (ht : fields.lookup x.name = some t) :
      Demands T (.call n c as) t a.value
  | item {n es t e} (h : T.typeAt? n.id = some (.list t)) (he : e ∈ es) : Demands T (.list n es) t e
  | key {n es k v e} (h : T.typeAt? n.id = some (.map k v)) (he : e ∈ es) :
      Demands T (.map n es) k e.1
  | value {n es k v e} (h : T.typeAt? n.id = some (.map k v)) (he : e ∈ es) :
      Demands T (.map n es) v e.2
  | position {n b i t} (hb : T.typeOf? b = some (.list t)) : Demands T (.index n b i) .int i
  | entry {n b i k v} (hb : T.typeOf? b = some (.map k v)) : Demands T (.index n b i) k i

/-- The type that a statement wants one of its expressions to have, where `Γ` is visible and the function
around it has the given result. -/
inductive Stmt.Demands (T : TypeTable) (Γ : Env) (result : Option Ty) : Stmt → Ty → Expr → Prop
  | annotation {s x a e t} (ha : Denotes Γ a t) : Demands T Γ result (.letVar s x (some a) e) t e
  | assigned {s target e t} (h : T.typeOf? target = some t) :
      Demands T Γ result (.assign s target e) t e
  | returned {s e t} (h : result = some t) : Demands T Γ result (.ret s (some e)) t e
  | clause {s cs o c} (hc : c ∈ cs) : Demands T Γ result (.ifElse s cs o) .bool c.cond
  | condition {s c b} : Demands T Γ result (.whileLoop s c b) .bool c

namespace Typing

variable {T : TypeTable} {Γ : Env}

/-- The expression has the type itself. -/
def Meets (T : TypeTable) (t : Ty) (e : Expr) : Prop := ∃ u, T.typeOf? e = some u ∧ t.same u = true

theorem Settled.meets (h : Settled T e) (ht : t.known = true) (hf : Fits T t e) : Meets T t e := by
  obtain ⟨u, hu, hc⟩ := hf
  exact ⟨u, hu, Ty.same_of_compatible ht (h.known hu) hc⟩

theorem BinaryRule.unique {op : BinaryOp} {t' u u' : Ty} (h : BinaryRule op t u)
    (h' : BinaryRule op t' u') : t = t' := by
  cases h <;> cases h' <;> rfl

theorem UnaryRule.unique {op : UnaryOp} {t' : Ty} (h : UnaryRule op t) (h' : UnaryRule op t') : t = t' := by
  cases h <;> cases h' <;> rfl

section Demands

theorem callee_parts (hp : ∀ g ∈ (Expr.call n c as).parts, Plain T g) : ∀ g ∈ c.parts, Plain T g :=
  fun g hg => hp g (List.mem_cons_of_mem _ (List.mem_append_left _ hg))

theorem meets_argument (hΓ : KnownEnv Γ) {ps : List Ty} {ls : List (Option String)} {r : Ty} {i p : Nat} {a : Argument}
    (h : WellTyped T Γ (.call n c as)) (hp : ∀ g ∈ (Expr.call n c as).parts, Plain T g)
    (hc : T.typeOf? c = some (.function ps ls r)) (hb : ¬ c.IsBuiltin T) (ha : as[i]? = some a)
    (hbinds : Binds ls i a.label p) (ht : ps[p]? = some t) : Meets T t a.value := by
  have hvalue : Settled T a.value :=
    settled_operand hΓ h hp (List.mem_map_of_mem (List.mem_of_getElem? ha))
  cases h with
  | call hw hct _ _ hps _ _ =>
    obtain ⟨rfl, rfl, rfl⟩ := Ty.function.inj (Option.some.inj (hct.symm.trans hc))
    obtain ⟨q, u, hq, hu, hfits⟩ := hps i a ha
    obtain rfl := hq.unique hbinds
    obtain rfl := Option.some.inj (hu.symm.trans ht)
    have hk := ((settled_or_builtin hΓ hw (callee_parts hp)).resolve_right hb).known hct
    rw [Ty.known, Bool.and_eq_true] at hk
    exact hvalue.meets (Ty.allKnown_iff.mp hk.1 _ (List.mem_of_getElem? ht)) hfits
  | construct _ hct =>
    rw [hct] at hc
    cases hc

theorem meets_field (hΓ : KnownEnv Γ) {s : String} {fields : List (String × Ty)} {a : Argument} {x : Ident}
    (h : WellTyped T Γ (.call n c as)) (hp : ∀ g ∈ (Expr.call n c as).parts, Plain T g)
    (hc : T.typeOf? c = some (.metatype (.struct s fields))) (ha : a ∈ as) (hx : a.label = some x)
    (ht : fields.lookup x.name = some t) : Meets T t a.value := by
  have hvalue : Settled T a.value := settled_operand hΓ h hp (List.mem_map_of_mem ha)
  cases h with
  | construct hw hct _ hfs _ _ _ =>
    obtain ⟨rfl, rfl⟩ := Ty.struct.inj (Ty.metatype.inj (Option.some.inj (hct.symm.trans hc)))
    obtain ⟨y, u, hy, hu, hfits⟩ := hfs a ha
    obtain rfl := Option.some.inj (hy.symm.trans hx)
    obtain rfl := Option.some.inj (hu.symm.trans ht)
    rcases settled_or_builtin hΓ hw (callee_parts hp) with hk | hb
    · exact hvalue.meets (fields_lookup_known (hk.known hct) ht) hfits
    · obtain ⟨-, -, -, -, hprint⟩ := hw.builtin_type hb
      cases hct.symm.trans hprint
  | call _ hct =>
    rw [hct] at hc
    cases hc

theorem WellTyped.meets (hΓ : KnownEnv Γ) {f : Expr} (h : WellTyped T Γ f)
    (hp : ∀ g ∈ f.parts, Plain T g) (hd : f.Demands T t e) : Meets T t e := by
  have hoperand {g : Expr} (hg : g ∈ f.operands) : Settled T g := settled_operand hΓ h hp hg
  have hself : Settled T f ∨ f.IsBuiltin T := settled_or_builtin hΓ h hp
  cases hd with
  | left hop =>
    cases h with
    | binary hop' _ hfits =>
      obtain rfl := hop'.unique hop
      exact (hoperand List.mem_cons_self).meets (hop.inherits inherited_known).1 hfits
  | right hop =>
    cases h with
    | binary hop' _ _ _ hfits =>
      obtain rfl := hop'.unique hop
      exact (hoperand (List.mem_cons_of_mem _ (List.mem_singleton_self _))).meets (hop.inherits inherited_known).1 hfits
  | operand hop =>
    cases h with
    | unary hop' _ hfits =>
      obtain rfl := hop'.unique hop
      exact (hoperand (List.mem_singleton_self _)).meets (hop.inherits inherited_known) hfits
  | argument hc hb ha hbinds ht => exact meets_argument hΓ h hp hc hb ha hbinds ht
  | field hc ha hx ht => exact meets_field hΓ h hp hc ha hx ht
  | item ht he =>
    -- What a literal wants of its items is its own type, which is known.
    have hk := (hself.resolve_right id).known ht
    cases h with
    | list _ hfits _ ht' =>
      obtain rfl := Ty.list.inj (Option.some.inj (ht'.symm.trans ht))
      exact (hoperand he).meets hk (hfits _ he)
  | key ht he =>
    have hk := (hself.resolve_right id).known ht
    rw [Ty.known, Bool.and_eq_true] at hk
    cases h with
    | map _ _ hfits _ _ ht' =>
      obtain ⟨rfl, rfl⟩ := Ty.map.inj (Option.some.inj (ht'.symm.trans ht))
      exact (hoperand (Expr.key_mem_operands _ he)).meets hk.1 (hfits _ he)
  | value ht he =>
    have hk := (hself.resolve_right id).known ht
    rw [Ty.known, Bool.and_eq_true] at hk
    cases h with
    | map _ _ _ hfits _ ht' =>
      obtain ⟨rfl, rfl⟩ := Ty.map.inj (Option.some.inj (ht'.symm.trans ht))
      exact (hoperand (Expr.value_mem_operands _ he)).meets hk.2 (hfits _ he)
  | position hb =>
    have hi := hoperand (List.mem_cons_of_mem _ (List.mem_singleton_self _))
    cases h with
    | item _ _ _ hfits => exact hi.meets rfl hfits
    | entry _ hbt =>
      rw [hbt] at hb
      cases hb
  | entry hb =>
    have hi := hoperand (List.mem_cons_of_mem _ (List.mem_singleton_self _))
    have hk := (hoperand List.mem_cons_self).known hb
    rw [Ty.known, Bool.and_eq_true] at hk
    cases h with
    | item _ hbt =>
      rw [hbt] at hb
      cases hb
    | entry _ hbt _ hfits =>
      obtain ⟨rfl, rfl⟩ := Ty.map.inj (Option.some.inj (hbt.symm.trans hb))
      exact hi.meets hk.1 hfits

/-- No expression of the statement itself is a built-in, and all that is in them is plain. -/
def PlainStmt (T : TypeTable) (s : Stmt) : Prop :=
  ∀ e ∈ s.exprs, ¬ e.IsBuiltin T ∧ ∀ f ∈ e.parts, Plain T f

theorem PlainStmt.settled (hΓ : KnownEnv Γ) {s : Stmt} (hs : PlainStmt T s)
    (he : e ∈ s.exprs) (h : WellTyped T Γ e) : Settled T e :=
  (settled_or_builtin hΓ h (hs e he).2).resolve_right (hs e he).1

theorem StmtTyped.meets (hΓ : KnownEnv Γ) {Γ' : Env} {result : Option Ty} {s : Stmt}
    (hr : ∀ t, result = some t → t.known = true) (h : StmtTyped T Γ result s Γ')
    (hs : PlainStmt T s) (hd : s.Demands T Γ result t e) : Meets T t e := by
  cases hd with
  | annotation ha =>
    cases h with
    | letVar hw ht =>
      cases ht with
      | annotated ha' hfits =>
        obtain rfl := ha'.unique ha
        exact (hs.settled hΓ (List.mem_singleton_self _) hw).meets (ha.inherits inherited_known hΓ) hfits
  | assigned htarget =>
    cases h with
    | assign hwt htt _ hw hfits =>
      obtain rfl := Option.some.inj (htt.symm.trans htarget)
      have hk := (hs.settled hΓ List.mem_cons_self hwt).known htt
      exact (hs.settled hΓ (List.mem_cons_of_mem _ (List.mem_singleton_self _)) hw).meets hk hfits
  | returned hresult =>
    cases h with
    | retValue hw hfits =>
      obtain rfl := Option.some.inj hresult
      exact (hs.settled hΓ (List.mem_singleton_self _) hw).meets (hr _ rfl) hfits
  | clause hc =>
    cases h with
    | ifElse hws hfits =>
      exact (hs.settled hΓ (List.mem_map_of_mem hc) (hws _ hc)).meets rfl (hfits _ hc)
  | condition =>
    cases h with
    | whileLoop hw hfits => exact (hs.settled hΓ (List.mem_singleton_self _) hw).meets rfl hfits

end Demands

/-- All visible types are known, and so is the wanted result. -/
def KnownPlace (Γ : Env) (result : Option Ty) : Prop :=
  KnownEnv Γ ∧ ∀ t, result = some t → t.known = true

theorem keeps_known : Keeps T (PlainStmt T) KnownPlace :=
  keeps_inherited inherited_known
    (fun _ hs e he => ⟨fun hb => absurd hb (hs e he).1, fun f hf => ((hs e he).2 f hf).handsOn⟩)
    (fun _ _ _ _ => Ty.fieldsKnown_iff.mpr) fun _ _ _ _ h =>
      Ty.casesKnown_iff.mpr fun c hc => Ty.allKnown_iff.mpr (h c hc)

theorem ItemsTyped.signature_known {is : List Item} (h : ItemsTyped T Γ is)
    (hplain : ∀ s ∈ is.flatMap Item.stmts, PlainStmt T s) (hΓ : KnownPlace Γ none) {sp : Span}
    {f : FunctionDecl} (hf : .function sp f ∈ is) :
    ∃ sig, T.function? f.name.name = some sig ∧ sig.type.known = true := by
  induction h with
  | nil => cases hf
  | function hfun _ ih =>
    rw [List.flatMap_cons] at hplain
    rcases List.mem_cons.mp hf with heq | hf
    · obtain ⟨-, rfl⟩ := Item.function.inj heq
      have hk := hfun.inherits inherited_known hΓ.1
      cases hfun with
      | mk _ _ hsig _ => exact ⟨_, hsig, hk⟩
    · exact ih (fun s hs => hplain s (List.mem_append_right _ hs)) (Keeps.function keeps_known hΓ hfun) hf
  | stmt hs _ ih =>
    rw [List.flatMap_cons] at hplain
    rcases List.mem_cons.mp hf with heq | hf
    · cases heq
    · have hfirst := hplain _ (List.mem_append_left _ List.mem_cons_self)
      exact ih (fun s hs => hplain s (List.mem_append_right _ hs)) (Keeps.stmt keeps_known hfirst hΓ hs) hf

section Program

variable {p : Program}

theorem plain_of_check (hn : p.ids.Nodup) (hc : p.check = .ok T)
    (hempty : ∀ e ∈ p.parts, e.isEmptyLiteral = false) (hprint : ∀ e ∈ p.values, ¬ e.IsBuiltin T) :
    ∀ f ∈ p.parts, Plain T f := by
  intro f hf
  have hkept := Checker.kept_of_check hn hc f hf
  refine ⟨fun g hg => hprint g ?_, ?_, ?_⟩
  · exact List.mem_append_right _ (List.mem_flatMap.mpr ⟨f, hf, hg⟩)
  · rintro n es rfl
    obtain ⟨t, ht, hitem⟩ := hkept.list
    exact ⟨t, ht, hitem.of_open (List.isEmpty_eq_false_iff.mp (hempty _ hf))⟩
  · rintro n es rfl
    obtain ⟨k, v, ht, hkey, hvalue⟩ := hkept.map
    have hne : es ≠ [] := List.isEmpty_eq_false_iff.mp (hempty _ hf)
    exact ⟨k, v, ht, hkey.of_open (by simpa using hne), hvalue.of_open (by simpa using hne)⟩

theorem plainStmt_of_plain (hplain : ∀ f ∈ p.parts, Plain T f)
    (hprint : ∀ e ∈ p.values, ¬ e.IsBuiltin T) : ∀ s ∈ p.stmts, PlainStmt T s := by
  intro s hs e he
  refine ⟨hprint e (List.mem_append_left _ (List.mem_flatMap.mpr ⟨s, hs, he⟩)), fun f hf => ?_⟩
  exact hplain f (Program.mem_parts.mpr ⟨s, hs, e, he, hf⟩)

theorem wellTyped_known (h : ProgramTyped T p) (hstmts : ∀ s ∈ p.stmts, PlainStmt T s) {f : Expr}
    (hf : f ∈ p.parts) : ∃ Γ, KnownEnv Γ ∧ WellTyped T Γ f := by
  obtain ⟨s, hs, e, he, hfe⟩ := Program.mem_parts.mp hf
  obtain ⟨Δ, result, hstands⟩ := h.stands hs
  obtain ⟨-, hΔ, Δ', hstmt⟩ := hstands.typed keeps_known h hstmts ⟨nofun, nofun⟩
  exact ⟨Δ, hΔ.1, (hstmt.wellTyped he).part hfe⟩

end Program

/-- Types are open in the built-in only, and what is wanted of a value it has: of the parts of each expression,
and of the expressions of each statement, wherever it stands. -/
structure Confined (T : TypeTable) (p : Program) : Prop where
  known : ∀ id t, T.typeAt? id = some t → t.known = true ∨
    ∃ n x, .symbol n x ∈ p.parts ∧ n.id = id ∧ x.name = "print" ∧ id ∈ T.builtins
  signatures : ∀ name sig, T.function? name = some sig → sig.type.known = true
  exprs : ∀ f ∈ p.parts, ∀ t e, f.Demands T t e → Meets T t e
  placed : ∀ s ∈ p.stmts, ∃ Γ result, ProgramStands T p Γ result s
  stmts : ∀ Γ result s, ProgramStands T p Γ result s → ∀ t e, s.Demands T Γ result t e → Meets T t e

theorem confined_of_check {source : String} {p : Program} {T : TypeTable}
    (hp : parseProgram source = .ok p) (hc : p.check = .ok T)
    (hempty : ∀ e ∈ p.parts, e.isEmptyLiteral = false) (hprint : ∀ e ∈ p.values, ¬ e.IsBuiltin T) :
    Confined T p := by
  have hn := Parser.nodup_ids_of_parseProgram hp
  have htyped : ProgramTyped T p := Checker.typed_of_check hn hc
  have hplain := plain_of_check hn hc hempty hprint
  have hstmts := plainStmt_of_plain hplain hprint
  refine ⟨?_, ?_, ?_, fun s hs => htyped.stands hs, ?_⟩
  · intro id t ht
    -- An entry of the table is that of an expression, which is typed at declarations of known types.
    have hid : id ∈ p.ids := by
      by_contra hid
      rw [Checker.typeAt?_eq_none_of_check hn hc hid] at ht
      cases ht
    obtain ⟨e, he, rfl⟩ := List.mem_map.mp (p.ids_perm.mem_iff.mp hid)
    obtain ⟨Γ, hΓ, hw⟩ := wellTyped_known htyped hstmts he
    have hparts : ∀ f ∈ e.parts, Plain T f := fun f hf => hplain f (Program.mem_parts_trans he hf)
    rcases settled_or_builtin hΓ hw hparts with hs | hb
    · exact .inl (hs.known ht)
    · obtain ⟨n, x, rfl, hx, -⟩ := hw.builtin_type hb
      exact .inr ⟨n, x, he, rfl, hx, hb⟩
  · intro name sig hsig
    obtain ⟨s, f, hf, rfl⟩ := Checker.function_of_check hn hc hsig
    obtain ⟨sig', hsig', hk⟩ := htyped.signature_known hstmts ⟨nofun, nofun⟩ hf
    obtain rfl := Option.some.inj (hsig.symm.trans hsig')
    exact hk
  · intro f hf t e hd
    obtain ⟨Γ, hΓ, hw⟩ := wellTyped_known htyped hstmts hf
    exact hw.meets hΓ (fun g hg => hplain g (Program.mem_parts_trans hf hg)) hd
  · intro Γ result s hstands t e hd
    obtain ⟨hs, hΓ, Γ', hstmt⟩ := hstands.typed keeps_known htyped hstmts ⟨nofun, nofun⟩
    exact hstmt.meets hΓ.1 hΓ.2 hs hd

/-- Values of every shape, and calls of the built-in among them. -/
theorem confined_of_check_shapes :
    ∃ p T, parseProgram ("struct P \x7b x: int \x7d enum E \x7b A(list<int>), B \x7d " ++
        "fn f(n: int, e: E): int \x7b match e \x7b case A(l) \x7b return l[n] \x7d " ++
        "default \x7b print(n) \x7d \x7d return 0 \x7d " ++
        "let m: map<string, P> = \x7b\"k\": P(x: f(e: E.A([1, 2]), n: 1))\x7d; print(m[\"k\"].x)") = .ok p ∧
      p.check = .ok T ∧ (∀ e ∈ p.parts, e.isEmptyLiteral = false) ∧
      (∀ e ∈ p.values, ¬ e.IsBuiltin T) ∧ Confined T p := by
  refine exists_accepted (fun p T => (∀ e ∈ p.parts, e.isEmptyLiteral = false) ∧ ∀ e ∈ p.values, ¬ e.IsBuiltin T)
    (by decide +kernel) fun p T hp hc ⟨hempty, hprint⟩ => ?_
  exact ⟨hempty, hprint, confined_of_check hp hc hempty hprint⟩

end Typing

end Gondola
