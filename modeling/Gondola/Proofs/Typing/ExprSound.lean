import Gondola.Proofs.Program.Parts
import Gondola.Proofs.Ty.Consistency
import Gondola.Proofs.Typing.Steps
import Gondola.Typing.Expr

/-! The types that checking finds in expressions stand in the rules. Every part of an expression has a run of its own,
whose entries are those of the table in the end. -/
namespace Gondola

open Typing

variable {x : Ident} {e : Expr} {n : Node}

theorem BinaryOp.rule (op : BinaryOp) : BinaryRule op op.operandType op.resultType := by
  cases op <;> constructor

theorem UnaryOp.rule (op : UnaryOp) : UnaryRule op op.type := by
  cases op <;> constructor

theorem Signature.binds_of_position? {s : Signature} {p : Nat}
    (h : s.position? x.name = some p) (position : Nat) : Binds s.labels position (some x) p := by
  rw [position?, List.findIdx?_eq_some_iff_getElem] at h
  obtain ⟨hp, hx, hfirst⟩ := h
  refine .label ?_ ?_
  · rw [List.getElem?_eq_getElem hp, eq_of_beq hx]
  · intro q hq he
    have hlt : q < s.labels.length := Nat.lt_trans hq hp
    rw [List.getElem?_eq_getElem hlt] at he
    have hne := hfirst q hq
    rw [Option.some.inj he, beq_self_eq_true] at hne
    exact hne rfl

theorem Typing.Binds.unique {labels : List (Option String)} {position p q : Nat} {x : Option Ident}
    (hp : Binds labels position x p) (hq : Binds labels position x q) : p = q := by
  cases hp with
  | position =>
    cases hq
    rfl
  | label hp hpfirst =>
    cases hq with
    | label hq hqfirst =>
      by_contra hne
      obtain hlt | hlt := Nat.lt_or_gt_of_ne hne
      · exact hqfirst _ hlt hp
      · exact hpfirst _ hlt hq

namespace Checker

/-- The expression is typed by the rules, with the given type. -/
def Found (Γ : Env) (e : Expr) (T : TypeTable) (t : Ty) : Prop :=
  WellTyped T Γ e ∧ T.typeOf? e = some t

theorem Found.fits {Γ : Env} {T : TypeTable} {t u : Ty} (h : Found Γ e T t) (hc : u.compatible t = true) : Fits T u e :=
  ⟨t, h.2, hc⟩

/-- A run of the check on the expression, inside of some frames, whose entries the table keeps. -/
def Kept (T : TypeTable) (e : Expr) : Prop :=
  ∃ top rest c t c', e.ids.Nodup ∧ At c top rest ∧ Unmarked e.ids c.table ∧
    checkExpr (rest.length + 1) e c = .ok (t, c') ∧ SameOn e.ids c'.table T

theorem Kept.found {T : TypeTable} {P : TypeTable → Ty → Prop} (h : Kept T e)
    (hfinds : ∀ top rest, Finds top rest (checkExpr (rest.length + 1) e) e.ids P) : ∃ t, P T t := by
  obtain ⟨top, rest, c, t, c', hn, hat, hu, hrun, hT⟩ := h
  obtain ⟨_, _, _, hP⟩ := hfinds top rest c t c' hn hat hu hrun
  exact ⟨t, (hP T hT).2⟩

def KeptAll (fs : List Expr) (T : TypeTable) : Prop := ∀ f ∈ fs, Kept T f

theorem KeptAll.append {fs gs : List Expr} {T : TypeTable} (h : KeptAll fs T) (h' : KeptAll gs T) :
    KeptAll (fs ++ gs) T := by
  intro f hf
  exact (List.mem_append.mp hf).elim (h f) (h' f)

theorem keptAll_nil (T : TypeTable) : KeptAll [] T := nofun

/-- The expression is typed, and all of its parts have runs that the table keeps. -/
structure Checked (Γ : Env) (e : Expr) (T : TypeTable) (t : Ty) : Prop where
  found : Found Γ e T t
  kept : KeptAll e.parts T

section Parts

variable {top : Env} {rest : List Env}

/-- A run whose parts are kept is kept itself, along with its parts. -/
theorem Finds.checked {fs : List Expr} (he : e.parts = e :: fs)
    (h : Finds top rest (checkExpr (rest.length + 1) e) e.ids fun T t =>
      Found (top :: rest).flatten e T t ∧ KeptAll fs T) :
    Finds top rest (checkExpr (rest.length + 1) e) e.ids (Checked (top :: rest).flatten e) := by
  intro c t c' hn hat hu hrun
  obtain ⟨top', hat', hoff, hfs⟩ := h c t c' hn hat hu hrun
  refine ⟨top', hat', hoff, fun T hT => ?_⟩
  obtain ⟨htop, hfound, hkept⟩ := hfs T hT
  refine ⟨htop, hfound, ?_⟩
  rw [he]
  exact List.forall_mem_cons.mpr ⟨⟨top, rest, c, t, c', hn, hat, hu, hrun, hT⟩, hkept⟩

theorem Finds.leaf (he : e.parts = [e])
    (h : Finds top rest (checkExpr (rest.length + 1) e) e.ids (Found (top :: rest).flatten e)) :
    Finds top rest (checkExpr (rest.length + 1) e) e.ids (Checked (top :: rest).flatten e) :=
  .checked he (h.mono fun T _ h => ⟨h, keptAll_nil T⟩)

theorem sameOff_builtin (T : TypeTable) (id : Nat) (t : Ty) :
    SameOff [id] T ((T.markBuiltin id).record id t) := by
  refine ⟨fun id' hid => ?_, rfl⟩
  have hne := mt List.mem_singleton.mpr hid
  rw [TypeTable.entry_record, if_neg hne, TypeTable.entry_markBuiltin, if_neg hne]

theorem sameOff_declared (T : TypeTable) (id : Nat) (o : Ident) (t : Ty) :
    SameOff [id] T ((T.resolve id o).record id t) := by
  refine ⟨fun id' hid => ?_, rfl⟩
  have hne := mt List.mem_singleton.mpr hid
  rw [TypeTable.entry_record, if_neg hne, TypeTable.entry_resolve, if_neg hne]

theorem found_builtin {T T' : TypeTable} {Γ : Env} {d : Declared}
    (hnone : Γ.lookup x.name = none) (hb : builtinNames.lookup x.name = some d)
    (hT : SameOn [n.id] ((T.markBuiltin n.id).record n.id d.type) T') :
    Found Γ (.symbol n x) T' d.type := by
  have he := hT n.id (List.mem_singleton.mpr rfl)
  rw [TypeTable.entry_record, if_pos rfl, TypeTable.entry_markBuiltin, if_pos rfl] at he
  have ht : T'.typeAt? n.id = some d.type := congrArg Prod.fst he
  have hmark : T'.builtins.contains n.id = true := congrArg (fun e => e.2.2) he
  exact ⟨.builtin hnone (builtinNames_lookup hb) ht (List.contains_iff_mem.mp hmark), ht⟩

theorem found_declared {T T' : TypeTable} {Γ : Env} {d : Declared}
    (hd : Γ.lookup x.name = some d) (hu : Unmarked [n.id] T)
    (hT : SameOn [n.id] ((T.resolve n.id d.origin).record n.id d.type) T') :
    Found Γ (.symbol n x) T' d.type := by
  have he := hT n.id (List.mem_singleton.mpr rfl)
  rw [TypeTable.entry_record, if_pos rfl, TypeTable.entry_resolve, if_pos rfl] at he
  have ht : T'.typeAt? n.id = some d.type := congrArg Prod.fst he
  have ho : T'.declarationAt? n.id = some d.origin := congrArg (fun e => e.2.1) he
  have hmark : T'.builtins.contains n.id = T.builtins.contains n.id :=
    congrArg (fun e => e.2.2) he
  have hfree : n.id ∉ T'.builtins := not_marked hmark (hu n.id (List.mem_singleton.mpr rfl))
  exact ⟨.declared hd ht ho hfree, ht⟩

theorem finds_symbol (n : Node) (x : Ident) :
    Finds top rest (recorded n (symbolType (rest.length + 1) n x)) [n.id]
      (Found (top :: rest).flatten (.symbol n x)) := by
  intro c t c' _ hat hu h
  obtain ⟨u, c₁, hs, h⟩ := bind_eq_ok.mp h
  obtain ⟨_, c₂, hr, h⟩ := bind_eq_ok.mp h
  obtain ⟨rfl, rfl⟩ := pure_eq_ok.mp h
  obtain rfl : { c₁ with table := c₁.table.record n.id u } = c₂ :=
    (Prod.mk.inj (Except.ok.inj hr)).2
  obtain ⟨found, c₃, hl, hs⟩ := bind_eq_ok.mp hs
  simp only [lookup, hat.lookup, ofScopes] at hl
  obtain ⟨hfound, rfl⟩ := Prod.mk.inj (Except.ok.inj hl)
  cases found with
  | none => exact absurd hs throw_ne_ok
  | some r =>
    obtain ⟨i, d⟩ := r
    -- The frame in which the name was found decides how the symbol is marked.
    dsimp only at hs
    obtain ⟨rfl, hnone, hb⟩ | ⟨hi, hd⟩ := Scopes.find_append_singleton hfound
    · rw [if_pos rfl] at hs
      obtain ⟨_, c₄, hm, hs⟩ := bind_eq_ok.mp hs
      obtain ⟨rfl, rfl⟩ := pure_eq_ok.mp hs
      obtain rfl : { c with table := c.table.markBuiltin n.id } = c₄ :=
        (Prod.mk.inj (Except.ok.inj hm)).2
      exact ⟨top, hat, sameOff_builtin .., fun T hT => ⟨rfl, found_builtin hnone hb hT⟩⟩
    · rw [if_neg hi] at hs
      obtain ⟨_, c₄, hm, hs⟩ := bind_eq_ok.mp hs
      obtain ⟨rfl, rfl⟩ := pure_eq_ok.mp hs
      obtain rfl : { c with table := c.table.resolve n.id d.origin } = c₄ :=
        (Prod.mk.inj (Except.ok.inj hm)).2
      exact ⟨top, hat, sameOff_declared .., fun T hT => ⟨rfl, found_declared hd hu hT⟩⟩

theorem finds_fieldType (n : Node) (b : Expr) (bt : Ty) (span : Span) (x : Ident) :
    Finds top rest (fieldType bt span x) [] fun T t =>
      Found (top :: rest).flatten b T bt → T.typeAt? n.id = some t →
        WellTyped T (top :: rest).flatten (.field n b x) := by
  unfold fieldType
  split
  · rename_i fields
    cases hf : fields.lookup x.name with
    | none => exact runs_reject _ _ _
    | some u =>
      refine (finds_pure u).mono ?_
      rintro T t rfl hb ht
      exact .field hb.1 hb.2 hf ht
  · rename_i e cases
    cases hc : cases.lookup x.name with
    | none => exact runs_reject _ _ _
    | some params =>
      refine (finds_pure (Ty.caseType e cases params)).mono ?_
      rintro T t rfl hb ht
      cases params with
      | nil => exact .plainCase hb.1 hb.2 hc ht
      | cons p ps =>
        refine .holdingCase hb.1 hb.2 hc ?_
        rw [ht, Ty.caseType, ← List.map_const']
        rfl
  · exact runs_reject _ _ _

theorem finds_indexType (n : Node) (b i : Expr) (bt it : Ty) (bspan ispan : Span) :
    Finds top rest (indexType bt it bspan ispan) [] fun T t =>
      Found (top :: rest).flatten b T bt → Found (top :: rest).flatten i T it →
        T.typeAt? n.id = some t → WellTyped T (top :: rest).flatten (.index n b i) := by
  unfold indexType
  split
  · refine ((finds_expect _ it ispan).bind fun _ => finds_pure _).mono ?_
    rintro T t ⟨-, hc, rfl⟩ hb hi ht
    exact .item hb.1 hb.2 hi.1 (hi.fits hc) ht
  · refine ((finds_expect _ it ispan).bind fun _ => finds_pure _).mono ?_
    rintro T t ⟨-, hc, rfl⟩ hb hi ht
    exact .entry hb.1 hb.2 hi.1 (hi.fits hc) ht
  · exact runs_reject _ _ _

variable (top rest) in
theorem finds_parameterOf (sig : Signature) (position : Nat) (afterKeyword : Bool) (a : Argument) :
    Finds top rest (parameterOf sig position afterKeyword a) [] fun _ p =>
      Binds sig.labels position a.label p := by
  unfold parameterOf
  split
  · rename_i hl
    split
    · exact runs_reject _ _ _
    · refine (finds_pure position).mono ?_
      rintro T p rfl
      exact hl ▸ .position
  · rename_i label hl
    split
    · rename_i p hp
      refine (finds_pure p).mono ?_
      rintro T p rfl
      exact hl ▸ sig.binds_of_position? hp position
    · exact runs_reject _ _ _

theorem finds_unify (t u : Ty) (span : Span) :
    Finds top rest (unify t u span) [] fun _ v => t.unify u = some v := by
  unfold unify
  split
  · rename_i v hv
    refine (finds_pure v).mono ?_
    rintro T w rfl
    exact hv
  · exact runs_reject _ _ _

end Parts

/-- The type that items share from `current` on: either it is known from the start, or all items so far
left it open. -/
structure Shares (current t : Ty) (types : List Ty) : Prop where
  fits : ∀ u ∈ types, t.compatible u = true
  keeps : current = .any ∨ t = current
  empty : types = [] → t = current

theorem Shares.nil (t : Ty) : Shares t t [] := ⟨by simp, .inr rfl, fun _ => rfl⟩

theorem Shares.cons {current next t u : Ty} {types : List Ty} (hu : current.unify u = some next)
    (h : Shares next t types) : Shares current t (u :: types) := by
  obtain ⟨hc, ⟨hne, rfl⟩ | ⟨rfl, rfl⟩⟩ := Ty.unify_eq_some hu
  · obtain rfl : t = next := h.keeps.resolve_left hne
    refine ⟨?_, .inr rfl, nofun⟩
    intro v hv
    obtain rfl | hv := List.mem_cons.mp hv
    · exact hc
    · exact h.fits v hv
  · refine ⟨?_, .inl rfl, nofun⟩
    intro v hv
    obtain rfl | hv := List.mem_cons.mp hv
    · -- The item either decides the type or leaves it open.
      obtain rfl | rfl := h.keeps
      · exact Ty.compatible_any t
      · exact Ty.compatible_refl t
    · exact h.fits v hv

/-- Arguments from the one at `position` on fit the parameters they bind. These are none of `bound`, and
none twice. -/
structure ArgumentsFound (Γ : Env) (sig : Signature) (position : Nat) (bound : List Nat)
    (as : List Argument) (T : TypeTable) : Prop where
  typed : ∀ a ∈ as, WellTyped T Γ a.value
  fits : ∀ i a, as[i]? = some a → ∃ p t, Binds sig.labels (position + i) a.label p ∧ p ∉ bound ∧
    sig.params[p]? = some t ∧ Fits T t a.value
  one : ∀ i j a b p, as[i]? = some a → as[j]? = some b →
    Binds sig.labels (position + i) a.label p → Binds sig.labels (position + j) b.label p → i = j

section Arguments

variable {Γ : Env} {T : TypeTable}

theorem ArgumentsFound.cons {sig : Signature} {position p : Nat} {bound : List Nat} {a : Argument}
    {as : List Argument} {t u : Ty} (hp : Binds sig.labels position a.label p) (hb : p ∉ bound)
    (ht : sig.params[p]? = some t) (hv : Found Γ a.value T u) (hc : t.compatible u = true)
    (h : ArgumentsFound Γ sig (position + 1) (p :: bound) as T) :
    ArgumentsFound Γ sig position bound (a :: as) T := by
  have hshift (i : Nat) : position + 1 + i = position + (i + 1) := by omega
  -- An argument after the first one does not bind the parameter of the first.
  have hother {j : Nat} {b : Argument} (hj : as[j]? = some b)
      (hbp : Binds sig.labels (position + (j + 1)) b.label p) : False := by
    obtain ⟨q, -, hq, hqb, -⟩ := h.fits j b hj
    rw [hshift] at hq
    rw [hq.unique hbp] at hqb
    exact hqb List.mem_cons_self
  refine ⟨?_, ?_, ?_⟩
  · intro b hb
    obtain rfl | hb := List.mem_cons.mp hb
    · exact hv.1
    · exact h.typed b hb
  · intro i b hi
    cases i with
    | zero =>
      obtain rfl := Option.some.inj hi
      exact ⟨p, t, hp, hb, ht, hv.fits hc⟩
    | succ i =>
      obtain ⟨q, w, hq, hqb, hw, hf⟩ := h.fits i b hi
      exact ⟨q, w, hshift i ▸ hq, fun hin => hqb (List.mem_cons_of_mem _ hin), hw, hf⟩
  · intro i j b d q hi hj hbq hdq
    cases i with
    | zero =>
      cases j with
      | zero => rfl
      | succ j =>
        obtain rfl := Option.some.inj hi
        rw [hbq.unique hp] at hdq
        exact (hother hj hdq).elim
    | succ i =>
      cases j with
      | zero =>
        obtain rfl := Option.some.inj hj
        rw [hdq.unique hp] at hbq
        exact (hother hi hbq).elim
      | succ j =>
        rw [← hshift] at hbq hdq
        exact congrArg Nat.succ (h.one i j b d q hi hj hbq hdq)

/-- Labelled arguments fit their fields, none of which is in `given` or has two arguments. `out` are the
fields that have one in the end. -/
structure FieldsFound (Γ : Env) (fields : List (String × Ty)) (given : List String)
    (as : List Argument) (T : TypeTable) (out : List String) : Prop where
  typed : ∀ a ∈ as, WellTyped T Γ a.value
  fits : ∀ a ∈ as, ∃ x t, a.label = some x ∧ x.name ∉ given ∧ fields.lookup x.name = some t ∧
    Fits T t a.value
  distinct : (as.map fun a => a.label.map Ident.name).Nodup
  out : ∀ name ∈ out, name ∈ given ∨ ∃ a ∈ as, a.label.map Ident.name = some name

theorem FieldsFound.cons {fields : List (String × Ty)} {given out : List String} {x : Ident}
    {e : Expr} {as : List Argument} {t u : Ty} (hx : x.name ∉ given)
    (ht : fields.lookup x.name = some t) (hv : Found Γ e T u) (hc : t.compatible u = true)
    (h : FieldsFound Γ fields (x.name :: given) as T out) :
    FieldsFound Γ fields given (⟨some x, e⟩ :: as) T out := by
  refine ⟨?_, ?_, ?_, ?_⟩
  · intro b hb
    obtain rfl | hb := List.mem_cons.mp hb
    · exact hv.1
    · exact h.typed b hb
  · intro b hb
    obtain rfl | hb := List.mem_cons.mp hb
    · exact ⟨x, t, rfl, hx, ht, hv.fits hc⟩
    · obtain ⟨y, w, hy, hyg, hw, hf⟩ := h.fits b hb
      exact ⟨y, w, hy, fun hin => hyg (List.mem_cons_of_mem _ hin), hw, hf⟩
  · refine List.nodup_cons.mpr ⟨?_, h.distinct⟩
    intro hin
    obtain ⟨b, hb, hlabel⟩ := List.mem_map.mp hin
    obtain ⟨y, -, hy, hyg, -⟩ := h.fits b hb
    rw [hy] at hlabel
    obtain hname : y.name = x.name := Option.some.inj hlabel
    exact hyg (hname ▸ List.mem_cons_self)
  · intro name hname
    obtain hin | ⟨b, hb, hlabel⟩ := h.out name hname
    · obtain rfl | hin := List.mem_cons.mp hin
      · exact .inr ⟨_, List.mem_cons_self, rfl⟩
      · exact .inl hin
    · exact .inr ⟨b, List.mem_cons_of_mem _ hb, hlabel⟩

end Arguments

section Expr

variable (top : Env) (rest : List Env)

theorem finds_literal {t : Ty} (hn : e.node = n)
    (h : ∀ T : TypeTable, T.typeAt? n.id = some t → WellTyped T (top :: rest).flatten e) :
    Finds top rest (recorded n (return t)) [n.id] (Found (top :: rest).flatten e) := by
  refine ((finds_pure t).recorded n).mono ?_
  rintro T u ⟨rfl, ht⟩
  exact ⟨h T ht, by rw [TypeTable.typeOf?, Expr.id, hn, ht]⟩

theorem Shares.items {α : Type} {Γ : Env} {T : TypeTable} {part : α → Expr} {current t : Ty}
    {es : List α} {types : List Ty} (hs : Shares current t types)
    (hts : List.Forall₂ (fun e u => Found Γ (part e) T u) es types) :
    ∀ e ∈ es, WellTyped T Γ (part e) ∧ Fits T t (part e) := by
  intro e he
  obtain ⟨u, hu, hf⟩ : ∃ u ∈ types, Found Γ (part e) T u := by
    clear hs
    induction hts with
    | nil => cases he
    | cons hu _ ih =>
      obtain rfl | he := List.mem_cons.mp he
      · exact ⟨_, List.mem_cons_self, hu⟩
      · obtain ⟨v, hv, hf⟩ := ih he
        exact ⟨v, List.mem_cons_of_mem _ hv, hf⟩
  exact ⟨hf.1, hf.fits (hs.fits u hu)⟩

theorem Shares.open_of_nil {α : Type} {R : α → Ty → Prop} {t : Ty} {es : List α} {types : List Ty}
    (hs : Shares .any t types) (hts : List.Forall₂ R es types) : es = [] → t = .any := by
  rintro rfl
  cases hts
  exact hs.empty rfl

theorem fields_given {given : List String} {fields : List (String × Ty)}
    (h : missingField? given fields = none) : ∀ f ∈ fields, f.1 ∈ given := by
  intro f hf
  rw [missingField?, Option.map_eq_none_iff, List.find?_eq_none] at h
  simpa using h f hf

variable {top rest} in
theorem Finds.call {n : Node} {c : Expr} {as : List Argument}
    (hc : Finds top rest (checkExpr (rest.length + 1) c) c.ids (Checked (top :: rest).flatten c))
    (hargs : ∀ sig, Finds top rest (checkArguments (rest.length + 1) sig 0 [] false as) (Expr.argumentIds as) fun T _ =>
      ArgumentsFound (top :: rest).flatten sig 0 [] as T ∧ KeptAll (Expr.argumentParts as) T)
    (hfields : ∀ s fields, Finds top rest (checkFields (rest.length + 1) s fields [] as) (Expr.argumentIds as)
      fun T out => FieldsFound (top :: rest).flatten fields [] as T out ∧ KeptAll (Expr.argumentParts as) T) :
    Finds top rest (checkExpr (rest.length + 1) (.call n c as)) (Expr.call n c as).ids
      (Checked (top :: rest).flatten (.call n c as)) := by
  refine .checked rfl (((hc.bind (R := fun ct T t => (Found (top :: rest).flatten c T ct →
    T.typeAt? n.id = some t → WellTyped T (top :: rest).flatten (.call n c as)) ∧
      KeptAll (Expr.argumentParts as) T) ?_).recorded n).mono ?_)
  · intro ct
    split
    · rename_i ps ls r
      split
      · rename_i hlen
        refine ((hargs ⟨ps, ls, r⟩).last fun _ => finds_pure r).mono ?_
        rintro T t ⟨-, ⟨ha, hkept⟩, rfl⟩
        refine ⟨fun hct ht => .call hct.1 hct.2 hlen ha.typed ?_ ?_ ht, hkept⟩
        · intro i a hi
          obtain ⟨p, u, hp, -, hu, hf⟩ := ha.fits i a hi
          exact ⟨p, u, Nat.zero_add i ▸ hp, hu, hf⟩
        · intro i j a b p hi hj hap hbp
          refine ha.one i j a b p hi hj ?_ ?_
          · rwa [Nat.zero_add]
          · rwa [Nat.zero_add]
      · exact runs_reject _ _ _
    · rename_i s fields
      refine ((hfields s fields).last (R := fun given _ t =>
        (∀ f ∈ fields, f.1 ∈ given) ∧ t = .struct s fields) ?_).mono ?_
      · intro given
        split
        · exact runs_reject _ _ _
        · rename_i hm
          refine (finds_pure (Ty.struct s fields)).mono ?_
          rintro T t rfl
          exact ⟨fields_given hm, rfl⟩
      · rintro T t ⟨given, ⟨hf, hkept⟩, hall, rfl⟩
        refine ⟨fun hct ht => .construct hct.1 hct.2 hf.typed ?_ ?_ hf.distinct ht, hkept⟩
        · intro a ha
          obtain ⟨x, u, hx, -, hu, hfit⟩ := hf.fits a ha
          exact ⟨x, u, hx, hu, hfit⟩
        · intro f hin
          exact (hf.out f.1 (hall f hin)).resolve_left List.not_mem_nil
    · exact runs_reject _ _ _
  · rintro T t ⟨⟨ct, hct, h, hkept⟩, ht⟩
    exact ⟨⟨h hct.found ht, ht⟩, hct.kept.append hkept⟩

mutual
theorem checked_expr : ∀ e : Expr,
    Finds top rest (checkExpr (rest.length + 1) e) e.ids (Checked (top :: rest).flatten e)
  | .int n v => .leaf rfl (finds_literal top rest rfl fun _ h => .int h)
  | .string n v => .leaf rfl (finds_literal top rest rfl fun _ h => .string h)
  | .bool n v => .leaf rfl (finds_literal top rest rfl fun _ h => .bool h)
  | .symbol n x => .leaf rfl (finds_symbol n x)
  | .binary n op l r => by
    have hl := checked_expr l
    have hr := checked_expr r
    have hbody := hl.bind fun lt => (finds_expect op.operandType lt l.span).bind fun _ =>
      hr.last fun rt => (finds_expect op.operandType rt r.span).bind fun _ =>
        finds_pure op.resultType
    refine .checked rfl ((hbody.recorded n).mono ?_)
    rintro T t ⟨⟨lt, ⟨hlt, hkl⟩, -, hlc, rt, ⟨hrt, hkr⟩, -, hrc, rfl⟩, ht⟩
    exact ⟨⟨.binary op.rule hlt.1 (hlt.fits hlc) hrt.1 (hrt.fits hrc) ht, ht⟩, hkl.append hkr⟩
  | .unary n op e => by
    have he := checked_expr e
    have hbody := he.last fun t => (finds_expect op.type t e.span).bind fun _ => finds_pure op.type
    refine .checked rfl ((hbody.recorded n).mono ?_)
    rintro T t ⟨⟨u, ⟨hu, hk⟩, -, hc, rfl⟩, ht⟩
    exact ⟨⟨.unary op.rule hu.1 (hu.fits hc) ht, ht⟩, hk⟩
  | .call n c as => (checked_expr c).call
      (fun sig => checked_arguments sig 0 [] false as)
      (fun s fields => checked_fields s fields [] as)
  | .list n es => by
    have hbody := (checked_items .any es).last fun t => finds_pure (Ty.list t)
    refine .checked rfl ((hbody.recorded n).mono ?_)
    rintro T t ⟨⟨u, ⟨⟨types, hts, hs⟩, hk⟩, rfl⟩, ht⟩
    have hitems := hs.items hts
    exact ⟨⟨.list (fun e he => (hitems e he).1) (fun e he => (hitems e he).2)
      (hs.open_of_nil hts) ht, ht⟩, hk⟩
  | .map n es => by
    have hbody := (checked_entries .any .any es).last fun kv => finds_pure (Ty.map kv.1 kv.2)
    refine .checked rfl ((hbody.recorded n).mono ?_)
    rintro T t ⟨⟨⟨k, v⟩, ⟨⟨ks, vs, hks, hvs, hk, hv⟩, hkept⟩, rfl⟩, ht⟩
    have hkeys := hk.items hks
    have hvalues := hv.items hvs
    exact ⟨⟨.map (fun e he => (hkeys e he).1) (fun e he => (hvalues e he).1)
      (fun e he => (hkeys e he).2) (fun e he => (hvalues e he).2)
      (fun he => ⟨hk.open_of_nil hks he, hv.open_of_nil hvs he⟩) ht, ht⟩, hkept⟩
  | .index n b i => by
    have hb := checked_expr b
    have hi := checked_expr i
    have hbody := hb.bind fun bt => hi.last fun it => finds_indexType n b i bt it b.span i.span
    refine .checked rfl ((hbody.recorded n).mono ?_)
    rintro T t ⟨⟨bt, hbt, it, hit, h⟩, ht⟩
    exact ⟨⟨h hbt.found hit.found ht, ht⟩, hbt.kept.append hit.kept⟩
  | .field n b x => by
    have hb := checked_expr b
    have hbody := hb.last fun bt => finds_fieldType n b bt b.span x
    refine .checked rfl ((hbody.recorded n).mono ?_)
    rintro T t ⟨⟨bt, hbt, h⟩, ht⟩
    exact ⟨⟨h hbt.found ht, ht⟩, hbt.kept⟩
theorem checked_items : ∀ (current : Ty) (es : List Expr),
    Finds top rest (checkItems (rest.length + 1) current es) (Expr.itemIds es) fun T t =>
      (∃ types, List.Forall₂ (fun e u => Found (top :: rest).flatten e T u) es types ∧
        Shares current t types) ∧ KeptAll (Expr.itemParts es) T
  | current, [] => by
    refine (finds_pure current).mono ?_
    rintro T t rfl
    exact ⟨⟨[], .nil, .nil t⟩, keptAll_nil T⟩
  | current, e :: es => by
    have he := checked_expr e
    have hbody := he.bind fun t => (finds_unify current t e.span).bind fun next =>
      checked_items next es
    refine hbody.mono ?_
    rintro T t ⟨u, hu, next, hn, ⟨types, hts, hs⟩, hkept⟩
    exact ⟨⟨u :: types, .cons hu.found hts, hs.cons hn⟩, hu.kept.append hkept⟩
theorem checked_entries : ∀ (key value : Ty) (es : List (Expr × Expr)),
    Finds top rest (checkEntries (rest.length + 1) key value es) (Expr.entryIds es) fun T kv =>
      (∃ ks vs, List.Forall₂ (fun e u => Found (top :: rest).flatten e.1 T u) es ks ∧
        List.Forall₂ (fun e u => Found (top :: rest).flatten e.2 T u) es vs ∧
        Shares key kv.1 ks ∧ Shares value kv.2 vs) ∧ KeptAll (Expr.entryParts es) T
  | key, value, [] => by
    refine (finds_pure (key, value)).mono ?_
    rintro T kv rfl
    exact ⟨⟨[], [], .nil, .nil, .nil key, .nil value⟩, keptAll_nil T⟩
  | key, value, (k, v) :: es => by
    have hk := checked_expr k
    have hv := checked_expr v
    have hbody := hk.bind fun kt => (finds_unify key kt k.span).bind fun key' =>
      hv.bind fun vt => (finds_unify value vt v.span).bind fun value' =>
        checked_entries key' value' es
    rw [Expr.entryIds, List.append_assoc]
    refine hbody.mono ?_
    rintro T kv ⟨kt, hkt, key', hkey, vt, hvt, value', hvalue, ⟨ks, vs, hks, hvs, hsk, hsv⟩, hkept⟩
    exact ⟨⟨kt :: ks, vt :: vs, .cons hkt.found hks, .cons hvt.found hvs, hsk.cons hkey, hsv.cons hvalue⟩,
      (hkt.kept.append hvt.kept).append hkept⟩
theorem checked_arguments : ∀ (sig : Signature) (position : Nat) (bound : List Nat)
    (afterKeyword : Bool) (as : List Argument),
    Finds top rest (checkArguments (rest.length + 1) sig position bound afterKeyword as) (Expr.argumentIds as)
      fun T _ => ArgumentsFound (top :: rest).flatten sig position bound as T ∧ KeptAll (Expr.argumentParts as) T
  | sig, position, bound, afterKeyword, [] => by
    refine (finds_pure ()).mono ?_
    intro T _ _
    exact ⟨⟨nofun, nofun, nofun⟩, keptAll_nil T⟩
  | sig, position, bound, afterKeyword, ⟨label, value⟩ :: as => by
    have hp := finds_parameterOf top rest sig position afterKeyword ⟨label, value⟩
    have hv := checked_expr value
    refine (hp.bind (R := fun p T _ => Binds sig.labels position label p →
      ArgumentsFound (top :: rest).flatten sig position bound (⟨label, value⟩ :: as) T ∧
        KeptAll (Expr.argumentParts (⟨label, value⟩ :: as)) T) ?_).mono ?_
    · intro p
      split
      · exact runs_throw _ _
      · rename_i expected hexpected
        split
        · exact runs_reject _ _ _
        · rename_i hfree
          have htail := checked_arguments sig (position + 1) (p :: bound)
            (afterKeyword || label.isSome) as
          refine (hv.bind fun actual => (finds_expect expected actual value.span).bind fun _ =>
            htail).mono ?_
          rintro T _ ⟨actual, hactual, -, hc, htail, hkept⟩ hp
          exact ⟨htail.cons hp (by simpa using hfree) hexpected hactual.found hc, hactual.kept.append hkept⟩
    · rintro T _ ⟨p, hp, h⟩
      exact h hp
theorem checked_fields : ∀ (struct : String) (fields : List (String × Ty)) (given : List String)
    (as : List Argument),
    Finds top rest (checkFields (rest.length + 1) struct fields given as) (Expr.argumentIds as) fun T out =>
      FieldsFound (top :: rest).flatten fields given as T out ∧ KeptAll (Expr.argumentParts as) T
  | struct, fields, given, [] => by
    refine (finds_pure given).mono ?_
    rintro T out rfl
    exact ⟨⟨nofun, nofun, .nil, fun _ h => .inl h⟩, keptAll_nil T⟩
  | struct, fields, given, ⟨none, value⟩ :: as => runs_reject _ _ _
  | struct, fields, given, ⟨some label, value⟩ :: as => by
    have hv := checked_expr value
    unfold checkFields
    split
    · exact runs_reject _ _ _
    · rename_i expected hexpected
      split
      · exact runs_reject _ _ _
      · rename_i hfree
        have htail := checked_fields struct fields (label.name :: given) as
        refine (hv.bind fun actual => (finds_expect expected actual value.span).bind fun _ =>
          htail).mono ?_
        rintro T out ⟨actual, hactual, -, hc, htail, hkept⟩
        exact ⟨htail.cons (by simpa using hfree) hexpected hactual.found hc, hactual.kept.append hkept⟩
end

theorem finds_checkExpr (e : Expr) :
    Finds top rest (checkExpr (rest.length + 1) e) e.ids (Found (top :: rest).flatten e) :=
  (checked_expr top rest e).mono fun _ _ h => h.found

end Expr

end Checker

end Gondola
