import Gondola.Proofs.Parser.Recognition
import Gondola.Proofs.Typing.StmtSound

/-! A program that is read and passes the check is typed by the table that the check returns. -/
namespace Gondola

namespace Typing

theorem FunctionsDenote.mem {T : TypeTable} {Γ : Env} {is : List Item} {sigs : List (String × Signature)}
    (h : FunctionsDenote T Γ is sigs) {e : String × Signature} (he : e ∈ sigs) :
    ∃ s f, .function s f ∈ is ∧ f.name.name = e.1 := by
  induction h with
  | nil => cases he
  | function _ _ _ ih =>
    rcases List.mem_cons.mp he with rfl | he
    · exact ⟨_, _, List.mem_cons_self, rfl⟩
    · obtain ⟨s, f, hf, hname⟩ := ih he
      exact ⟨s, f, List.mem_cons_of_mem _ hf, hname⟩
  | stmt _ _ ih =>
    obtain ⟨s, f, hf, hname⟩ := ih he
    exact ⟨s, f, List.mem_cons_of_mem _ hf, hname⟩

theorem FunctionsDenote.sublist {T : TypeTable} {Γ : Env} {is : List Item} {sigs : List (String × Signature)}
    (h : FunctionsDenote T Γ is sigs) :
    (sigs.map Prod.fst).Sublist ((is.flatMap Item.declares).map Ident.name) := by
  induction h with
  | nil => exact .slnil
  | function _ _ _ ih => exact ih.cons_cons _
  | stmt _ _ ih =>
    rw [List.flatMap_cons, List.map_append]
    exact ih.trans (List.sublist_append_right _ _)

end Typing

namespace Checker

open Typing

section Items

variable {top : Env} {rest : List Env}

theorem finds_resultType (a : Option TypeExpr) :
    Finds top rest (resultType (rest.length + 1) a) [] fun _ t =>
      ResultType (top :: rest).flatten a t := by
  cases a with
  | none =>
    refine (finds_pure Ty.void).mono ?_
    rintro _ _ rfl
    exact .void
  | some a => exact (finds_resolve a).mono fun _ _ h => .written h

theorem Runs.ok_of_nil {α : Type} {m : Check α} {Q : TypeTable → α → Env → Prop} {c c' : Checker}
    {a : α} (h : Runs top rest m [] Q) (hat : At c top rest) (hm : m c = .ok (a, c')) :
    ∃ top', At c' top' rest ∧ SameOff [] c.table c'.table ∧ Q c'.table a top' := by
  obtain ⟨top', hat', hoff, hQ⟩ := h c a c' .nil hat nofun hm
  exact ⟨top', hat', hoff, hQ c'.table fun _ _ => rfl⟩

theorem declareFunction_ok {f : FunctionDecl} {c c' : Checker} {sig : Signature} (hat : At c top rest)
    (h : declareFunction (rest.length + 1) f c = .ok (sig, c')) :
    List.Forall₂ (Denotes (top :: rest).flatten) (f.params.map Binding.type) sig.params ∧
      ResultType (top :: rest).flatten f.result sig.result ∧
      sig.labels = (f.params.map fun p => some p.name.name) ∧
      top.lookup f.name.name = none ∧ At c' (declare f.name sig.type top) rest ∧
      (∀ id, c'.table.entry id = c.table.entry id) ∧
      c'.table.functions = (f.name.name, sig) :: c.table.functions := by
  obtain ⟨ts, c₁, h₁, h⟩ := bind_eq_ok.mp h
  obtain ⟨r, c₂, h₂, h⟩ := bind_eq_ok.mp h
  obtain ⟨_, c₃, h₃, h⟩ := bind_eq_ok.mp h
  obtain ⟨_, c₄, h₄, h⟩ := bind_eq_ok.mp h
  obtain ⟨rfl, rfl⟩ := pure_eq_ok.mp h
  obtain ⟨_, hat₁, hoff₁, rfl, hts⟩ := (finds_resolveAll _).ok_of_nil hat h₁
  obtain ⟨_, hat₂, hoff₂, rfl, hr⟩ := (finds_resultType _).ok_of_nil hat₁ h₂
  obtain ⟨_, hat₃, hoff₃, hnew, rfl⟩ := (runs_define _ _).ok_of_nil hat₂ h₃
  obtain rfl := (Prod.mk.inj (Except.ok.inj h₄)).2
  have hoff := (hoff₁.append hoff₂).append hoff₃
  exact ⟨hts, hr, rfl, hnew, hat₃, fun id => hoff.entry id List.not_mem_nil,
    congrArg (List.cons _) hoff.functions⟩

theorem checkFunction_ok {f : FunctionDecl} {c c' : Checker} (hn : (Stmt.blockIds f.body).Nodup)
    (hat : At c top rest) (hu : Unmarked (Stmt.blockIds f.body) c.table)
    (h : checkFunction (rest.length + 1) f c = .ok ((), c')) :
    ∃ sig, top.lookup f.name.name = none ∧ At c' (declare f.name sig.type top) rest ∧
      (∀ id ∉ Stmt.blockIds f.body, c'.table.entry id = c.table.entry id) ∧
      c'.table.functions = (f.name.name, sig) :: c.table.functions ∧
      (∀ T, SameOn (Stmt.blockIds f.body) c'.table T → KeptAll (Stmt.blockParts f.body) T) ∧
      ∀ T, SameOn (Stmt.blockIds f.body) c'.table T → T.function? f.name.name = some sig →
        FunctionTyped T (top :: rest).flatten f sig.type := by
  obtain ⟨sig, c₁, hd, hb⟩ := bind_eq_ok.mp h
  obtain ⟨hts, hr, hls, hnew, hat₁, he, hfs⟩ := declareFunction_ok hat hd
  have hbody := finds_bodyWith (declare f.name sig.type top) rest
    (fun inner => checked_block inner _ (some sig.result) f.body)
    (fun inner => defineAll inner (f.params.map Binding.name) sig.params)
    (runs_defineAll (f.params.map Binding.name) sig.params)
  obtain ⟨_, hat', hoff, hQ⟩ := hbody c₁ () c' hn hat₁ (hu.of_entry fun id _ => he id) hb
  obtain ⟨rfl, -⟩ := hQ c'.table fun _ _ => rfl
  refine ⟨sig, hnew, hat', fun id hid => (hoff.entry id hid).trans (he id),
    hoff.functions.trans hfs, fun T hT => (hQ T hT).2.kept, fun T hT hsig => ?_⟩
  obtain ⟨ts, ls, r⟩ := sig
  obtain rfl := hls
  exact .mk hts hr hsig (hQ T hT).2.typed

end Items

theorem lookup_declare_isSome {x : Ident} {t : Ty} {Γ : Env} {name : String}
    (h : (Γ.lookup name).isSome) : ((declare x t Γ).lookup name).isSome := by
  rw [declare, List.lookup_cons]
  split
  · rfl
  · exact h

theorem lookup_isSome_of_stmtTyped {T : TypeTable} {Γ Γ' : Env} {result : Option Ty} {s : Stmt}
    (h : StmtTyped T Γ result s Γ') {name : String} (hx : (Γ.lookup name).isSome) :
    (Γ'.lookup name).isSome := by
  cases h with
  | letVar | struct | enum => exact lookup_declare_isSome hx
  | assign | ret | retValue | expr | ifElse | whileLoop | forEach | matchOn => exact hx

theorem runs_new {top : Env} {rest : List Env} {s : Stmt} {x : Ident} (result : Option Ty) (hx : x ∈ s.declares) :
    Runs top rest (checkStmt (rest.length + 1) result s) s.ids fun _ _ _ => top.lookup x.name = none := by
  cases s with
  | letVar sp y a e =>
    obtain rfl := List.mem_singleton.mp hx
    refine ((finds_variableType a e).andLast (R := fun _ _ _ _ => top.lookup x.name = none) ?_).mono ?_
    · intro t
      split
      · exact runs_reject _ _ _
      · exact (runs_define x t).mono fun _ _ _ h => h.1
    · rintro _ _ _ ⟨_, -, hnew⟩
      exact hnew
  | struct sp d =>
    obtain rfl := List.mem_singleton.mp hx
    refine ((finds_structFields [] d.fields).andLast (R := fun _ _ _ _ => top.lookup d.name.name = none) ?_).mono ?_
    · exact fun fields => (runs_define _ _).mono fun _ _ _ h => h.1
    · rintro _ _ _ ⟨_, -, hnew⟩
      exact hnew
  | enum sp d =>
    obtain rfl := List.mem_singleton.mp hx
    refine ((finds_enumCases [] d.cases).andLast (R := fun _ _ _ _ => top.lookup d.name.name = none) ?_).mono ?_
    · exact fun cases => (runs_define _ _).mono fun _ _ _ h => h.1
    · rintro _ _ _ ⟨_, -, hnew⟩
      exact hnew
  | assign | ret | expr | ifElse | whileLoop | forEach | matchOn => cases hx

theorem lookup_declare_self (x : Ident) (t : Ty) (Γ : Env) : ((declare x t Γ).lookup x.name).isSome := by
  rw [declare, List.lookup_cons_self]
  rfl

theorem declared_of_stmtTyped {T : TypeTable} {Γ Γ' : Env} {result : Option Ty} {s : Stmt} {x : Ident}
    (h : StmtTyped T Γ result s Γ') (hx : x ∈ s.declares) : (Γ'.lookup x.name).isSome := by
  cases h with
  | letVar | struct | enum =>
    obtain rfl := List.mem_singleton.mp hx
    exact lookup_declare_self ..
  | assign | ret | retValue | expr | ifElse | whileLoop | forEach | matchOn => cases hx

theorem declares_names_nodup (i : Item) : (i.declares.map Ident.name).Nodup := by
  cases i with
  | function => exact List.pairwise_singleton _ _
  | stmt s =>
    cases s with
    | letVar | struct | enum => exact List.pairwise_singleton _ _
    | assign | ret | expr | ifElse | whileLoop | forEach | matchOn => exact .nil

/-- One item was checked. After it `top'` are the declarations, and it has added the functions `sigs`. -/
structure ItemChecked (top : Env) (i : Item) (top' : Env) (sigs : List (String × Signature)) (T₀ T₁ : TypeTable) :
    Prop where
  entry : ∀ id ∉ i.ids, T₁.entry id = T₀.entry id
  functions : T₁.functions = sigs.reverse ++ T₀.functions
  new : ∀ x ∈ i.declares, top.lookup x.name = none ∧ (top'.lookup x.name).isSome
  visible : ∀ name, (top.lookup name).isSome → (top'.lookup name).isSome
  kept : ∀ T, SameOn i.ids T₁ T → KeptAll i.parts T
  /-- Later items may be typed by a later table, as long as nothing takes away what this one left. -/
  before : ∀ T is later, SameOn i.ids T₁ T →
    (∀ name, (top'.lookup name).isSome → T.function? name = T₁.function? name) →
    ItemsTyped T top' is → FunctionsDenote T top' is later →
    ItemsTyped T top (i :: is) ∧ FunctionsDenote T top (i :: is) (sigs ++ later)

theorem checkTopLevel_cons {i : Item} {is : List Item} {top : Env} {c c' : Checker}
    (hn : i.ids.Nodup) (hat : At c top []) (hu : Unmarked i.ids c.table)
    (h : checkTopLevel 1 (i :: is) c = .ok ((), c')) :
    ∃ top₁ sigs c₁, checkTopLevel 1 is c₁ = .ok ((), c') ∧ At c₁ top₁ [] ∧
      ItemChecked top i top₁ sigs c.table c₁.table := by
  cases i with
  | function s f =>
    obtain ⟨_, c₁, hf, h⟩ := bind_eq_ok.mp h
    obtain ⟨sig, hnew, hat₁, he, hfs, hkept, hF⟩ := checkFunction_ok hn hat hu hf
    refine ⟨_, [(f.name.name, sig)], c₁, h, hat₁, he, hfs, ?_, fun _ => lookup_declare_isSome, hkept, ?_⟩
    · exact List.forall_mem_singleton.mpr ⟨hnew, lookup_declare_self ..⟩
    · intro T is later hT hfun his hlater
      have hsig : T.function? f.name.name = some sig := by
        rw [hfun _ (lookup_declare_self ..), TypeTable.function?, hfs, List.lookup_cons_self]
      have hf := hF T hT hsig
      rw [List.flatten_cons, List.flatten_nil, List.append_nil] at hf
      refine ⟨.function hf his, ?_⟩
      generalize htype : sig.type = t at hf hlater
      cases hf with
      | mk hts hr =>
        obtain ⟨ps, ls, res⟩ := sig
        obtain ⟨rfl, rfl, rfl⟩ := Ty.function.inj htype
        exact .function hts hr hlater
  | stmt s =>
    obtain ⟨_, c₁, hs, h⟩ := bind_eq_ok.mp h
    obtain ⟨top₁, hat₁, hoff, hQ⟩ := checked_stmt top [] none s c () c₁ hn hat hu hs
    simp only [List.flatten_cons, List.flatten_nil, List.append_nil] at hQ
    have htyped := (hQ c₁.table fun _ _ => rfl).typed
    refine ⟨top₁, [], c₁, h, hat₁, hoff.entry, hoff.functions, fun x hx => ⟨?_, declared_of_stmtTyped htyped hx⟩,
      fun _ => lookup_isSome_of_stmtTyped htyped, fun T hT => (hQ T hT).kept, ?_⟩
    · obtain ⟨_, -, -, hnew⟩ := runs_new none hx c () c₁ hn hat hu hs
      exact hnew c₁.table fun _ _ => rfl
    · intro T is later hT _ his hlater
      exact ⟨.stmt (hQ T hT).typed his, .stmt (hQ T hT).typed hlater⟩

/-- Items were checked, with the declarations `top` before them. -/
structure ItemsChecked (top : Env) (is : List Item) (T₀ T : TypeTable) : Prop where
  entry : ∀ id ∉ is.flatMap Item.ids, T.entry id = T₀.entry id
  functions : ∃ sigs, FunctionsDenote T top is sigs ∧ T.functions = sigs.reverse ++ T₀.functions
  new : ∀ x ∈ is.flatMap Item.declares, top.lookup x.name = none
  distinct : ((is.flatMap Item.declares).map Ident.name).Nodup
  kept : KeptAll (is.flatMap Item.parts) T
  typed : ItemsTyped T top is

section ItemsChecked

variable {i : Item} {is : List Item} {top top₁ : Env} {sigs : List (String × Signature)} {T₀ T₁ T : TypeTable}

/-- No item declares a function under a name that is in view. -/
theorem ItemsChecked.function? (h : ItemsChecked top is T₀ T) {name : String} (hname : (top.lookup name).isSome) :
    T.function? name = T₀.function? name := by
  obtain ⟨sigs, hsigs, hfuns⟩ := h.functions
  have hnone : sigs.reverse.lookup name = none := by
    rw [List.lookup_eq_none_iff]
    intro e he
    obtain ⟨s, f, hf, hfname⟩ := hsigs.mem (List.mem_reverse.mp he)
    rw [bne_iff_ne]
    rintro rfl
    rw [← hfname, h.new f.name (List.mem_flatMap.mpr ⟨_, hf, List.mem_cons_self⟩)] at hname
    cases hname
  rw [TypeTable.function?, hfuns, List.lookup_append, hnone]
  rfl

theorem ItemChecked.cons (h : ItemChecked top i top₁ sigs T₀ T₁) (his : ItemsChecked top₁ is T₁ T)
    (hdisj : ∀ id ∈ i.ids, id ∉ is.flatMap Item.ids) : ItemsChecked top (i :: is) T₀ T := by
  -- Later items have other numbers, so the entries of this one are still there in the end.
  have hT : SameOn i.ids T₁ T := fun id hid => his.entry id (hdisj id hid)
  obtain ⟨later, hlater, hfuns⟩ := his.functions
  obtain ⟨htyped, hsigs⟩ := h.before T is later hT (fun _ => his.function?) his.typed hlater
  have hall : T.functions = (sigs ++ later).reverse ++ T₀.functions := by
    rw [hfuns, h.functions, List.reverse_append, List.append_assoc]
  refine ⟨?_, ⟨_, hsigs, hall⟩, ?_, ?_, ?_, htyped⟩ <;> rw [List.flatMap_cons]
  · intro id hid
    rw [List.mem_append, not_or] at hid
    exact (his.entry id hid.2).trans (h.entry id hid.1)
  · intro x hx
    rcases List.mem_append.mp hx with hx | hx
    · exact (h.new x hx).1
    · by_contra hsome
      have hkept := h.visible _ (Option.isSome_iff_ne_none.mpr hsome)
      rw [his.new x hx] at hkept
      cases hkept
  · rw [List.map_append]
    refine List.nodup_append.mpr ⟨declares_names_nodup i, his.distinct, fun a ha b hb hab => ?_⟩
    obtain ⟨x, hx, rfl⟩ := List.mem_map.mp ha
    obtain ⟨y, hy, rfl⟩ := List.mem_map.mp hb
    have hsome := (h.new x hx).2
    rw [hab, his.new y hy] at hsome
    cases hsome
  · exact (h.kept T hT).append his.kept

end ItemsChecked

theorem itemsChecked_of_checkTopLevel {is : List Item} {top : Env} {c c' : Checker}
    (hn : (is.flatMap Item.ids).Nodup) (hat : At c top []) (hu : Unmarked (is.flatMap Item.ids) c.table)
    (h : checkTopLevel 1 is c = .ok ((), c')) : ItemsChecked top is c.table c'.table := by
  induction is generalizing top c with
  | nil =>
    obtain ⟨-, rfl⟩ := pure_eq_ok.mp h
    exact ⟨fun _ _ => rfl, ⟨[], .nil, rfl⟩, nofun, .nil, keptAll_nil _, .nil⟩
  | cons i is ih =>
    rw [List.flatMap_cons] at hn hu
    obtain ⟨hn₁, hn₂, hdisj⟩ := List.nodup_append.mp hn
    have hu₁ : Unmarked i.ids c.table := fun id hid => hu id (List.mem_append_left _ hid)
    obtain ⟨top₁, sigs, c₁, h, hat₁, hi⟩ := checkTopLevel_cons hn₁ hat hu₁ h
    have hu₂ : Unmarked (is.flatMap Item.ids) c₁.table := by
      apply Unmarked.of_entry (fun id hid => hu id (List.mem_append_right _ hid))
      exact fun id hid => hi.entry id fun hin => hdisj id hin id hid rfl
    exact hi.cons (ih hn₂ hat₁ hu₂ h) fun id hid hin => hdisj id hid id hin rfl

section Check

variable {p : Program} {T : TypeTable} (hn : p.ids.Nodup) (h : p.check = .ok T)

include hn h

theorem itemsChecked_of_check : ItemsChecked [] p.items {} T := by
  unfold Program.check at h
  split at h
  · rename_i c hc
    obtain rfl := Except.ok.inj h
    obtain ⟨scope, c₁, henter, hitems⟩ := bind_eq_ok.mp hc
    obtain ⟨rfl, rfl⟩ := Prod.mk.inj (Except.ok.inj henter)
    have hat : At { scopes := Scopes.ofFrames [[], builtinNames] } [] [] := rfl
    exact itemsChecked_of_checkTopLevel hn hat (fun _ _ => List.not_mem_nil) hitems
  · cases h

theorem typed_of_check : ProgramTyped T p := (itemsChecked_of_check hn h).typed

theorem kept_of_check : KeptAll p.parts T := (itemsChecked_of_check hn h).kept

theorem topLevel_names_nodup : (p.topLevel.map Ident.name).Nodup := (itemsChecked_of_check hn h).distinct

theorem functions_of_check :
    ∃ sigs, FunctionsDenote T [] p.items sigs ∧ T.functions = sigs.reverse := by
  obtain ⟨sigs, hsigs, hfuns⟩ := (itemsChecked_of_check hn h).functions
  exact ⟨sigs, hsigs, hfuns.trans (List.append_nil _)⟩

theorem wellTyped_of_check {e : Expr} (he : e ∈ p.parts) : ∃ Γ, WellTyped T Γ e := by
  have hkept := kept_of_check hn h e he
  obtain ⟨_, htyped⟩ := hkept.found (P := fun T _ => ∃ Γ, WellTyped T Γ e) fun top rest =>
    (finds_checkExpr top rest e).mono fun _ _ ht => ⟨_, ht.1⟩
  exact htyped

theorem typeAt?_eq_none_of_check {id : Nat} (hid : id ∉ p.ids) : T.typeAt? id = none :=
  congrArg Prod.fst ((itemsChecked_of_check hn h).entry id hid)

end Check

end Checker

/-- Whether a source is a program that passes the check, with the property. -/
def accepts (source : String) (P : Program → TypeTable → Prop) [∀ p T, Decidable (P p T)] : Bool :=
  match parseProgram source with
  | .error _ => false
  | .ok p =>
    match p.check with
    | .error _ => false
    | .ok T => P p T

theorem exists_accepted {source : String} {Q : Program → TypeTable → Prop} (P : Program → TypeTable → Prop)
    [∀ p T, Decidable (P p T)] (h : accepts source P = true)
    (hQ : ∀ p T, parseProgram source = .ok p → p.check = .ok T → P p T → Q p T) :
    ∃ p T, parseProgram source = .ok p ∧ p.check = .ok T ∧ Q p T := by
  unfold accepts at h
  split at h
  · cases h
  · rename_i p hp
    split at h
    · cases h
    · rename_i T hc
      exact ⟨p, T, hp, hc, hQ p T hp hc (of_decide_eq_true h)⟩

namespace Typing

theorem programTyped_of_check {source : String} {p : Program} {T : TypeTable}
    (hp : parseProgram source = .ok p) (hc : p.check = .ok T) : ProgramTyped T p :=
  Checker.typed_of_check (Parser.nodup_ids_of_parseProgram hp) hc

/-- The name of a parameter is declared once more in a block, and that of a built-in at the end. -/
theorem programTyped_shadowing :
    ∃ p T, parseProgram ("fn f(n: int, g: bool): int \x7b if g \x7b let n = [n]; " ++
        "print(n[0]) \x7d return n \x7d let print = f(g: true, n: 1)") = .ok p ∧
      p.check = .ok T ∧ ProgramTyped T p :=
  exists_accepted (fun _ _ => True) (by decide +kernel) fun _ _ hp hc _ => programTyped_of_check hp hc

end Typing

end Gondola
