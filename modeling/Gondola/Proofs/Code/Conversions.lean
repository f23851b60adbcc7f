import Gondola.Proofs.Code.NativeSlots
import Gondola.Proofs.Typing.Openly

/-! Conversions in C programs. Where checking wants some type of a value of unknown type, the word is taken at that
type, but the code says so at some of these places only: at the value of a variable, at a returned value and at an
argument. -/
namespace Gondola

namespace Native

section HasForm

/-- Neither the type itself nor any that stands in it is without a form. -/
inductive HasForm : Ty → Prop
  | bool : HasForm .bool
  | int : HasForm .int
  | string : HasForm .string
  | void : HasForm .void
  | any : HasForm .any
  | list {t} (h : HasForm t) : HasForm (.list t)
  | map {k v} (hk : HasForm k) (hv : HasForm v) : HasForm (.map k v)
  | function {ps ls r} (hps : ∀ t ∈ ps, HasForm t) (hr : HasForm r) : HasForm (.function ps ls r)

theorem HasForm.self {t : Ty} (h : HasForm t) : hasNoForm t = false := by
  cases h <;> rfl

theorem HasForm.param {ps : List Ty} {ls : List (Option String)} {r t : Ty} (h : HasForm (.function ps ls r))
    (ht : t ∈ ps) : HasForm t := by
  cases h with
  | function hps _ => exact hps t ht

theorem inherited_hasForm : Typing.Inherited HasForm where
  atomic h := by
    cases h with
    | bool => exact .bool
    | int => exact .int
    | string => exact .string
    | void => exact .void
  list := by
    refine ⟨fun h => ?_, .list⟩
    cases h with
    | list h => exact h
  map := by
    refine ⟨fun h => ?_, fun h => .map h.1 h.2⟩
    cases h with
    | map hk hv => exact ⟨hk, hv⟩
  function := .function
  result h := by
    cases h with
    | function _ hr => exact hr
  field h := Bool.noConfusion h.self
  case h := Bool.noConfusion h.self
  value h := Bool.noConfusion h.self

theorem not_hasForm_metatype {t : Ty} (h : HasForm (.metatype t)) : False := Bool.noConfusion h.self

end HasForm

section Conversion

/-- A word that is taken at a type. There are no words of no type. -/
def converted (t : Ty) (code : String) : String :=
  match t with
  | .void => code
  | t => "VENICE_FROM_WORD(" ++ (cType t).value ++ ", " ++ code ++ ")"

/-- The code of an expression where nothing is wanted of it. -/
def own (T : TypeTable) (names : Names) (e : Expr) : String := (expr ⟨T, names⟩ e none).value

theorem cType_function (ps : List Ty) (ls : List (Option String)) (r : Ty) :
    (cType (.function ps ls r)).value ≠ "venice_word_t" ∧ (cType (.function ps ls r)).value ≠ "void" := by
  have hname : (cType (.function ps ls r)).value = "venice_" ++ ("fn_" ++ shapes ps ++ "to_" ++ shape r) := by
    rw [cType]
    rfl
  rw [hname]
  constructor
  · intro h
    have hat := congrArg (fun text => text.toList[7]?) h
    simp at hat
  · intro h
    have hat := congrArg (fun text => text.toList[1]?) h
    simp at hat

theorem readWord_value {t : Ty} (h : hasNoForm t = false) (code : String) :
    (readWord t code).value = converted t code := by
  cases t with
  | struct | enum | metatype => cases h
  | function ps ls r =>
    obtain ⟨hword, hvoid⟩ := cType_function ps ls r
    show (if _ then pure code else pure _ : Code).value = _
    rw [if_neg]
    · rfl
    · simp [hword, hvoid]
  | bool | int | string | void | any | list | map => rfl

variable {T : TypeTable}

theorem expr_eq_valueCode (cx : Context) {e : Expr} (he : ∀ n es, e ≠ .map n es) :
    ∃ code, ∀ wanted, expr cx e wanted = valueCode cx.types e.node wanted code := by
  cases e with
  | map n es => exact absurd rfl (he n es)
  | _ => exact ⟨_, fun wanted => by rw [expr]; rfl⟩

theorem expr_value_of_any {Γ : Typing.Env} {e : Expr} (h : Typing.WellTyped T Γ e)
    (hany : T.typeOf? e = some .any) {t : Ty} (ht : hasNoForm t = false) (names : Names) :
    (expr ⟨T, names⟩ e (some t)).value = converted t (own T names e) := by
  have hliteral : ∀ n es, e ≠ .map n es := by
    rintro n es rfl
    cases h with
    | map _ _ _ _ _ htype =>
      have hmap : T.typeOf? (.map n es) = _ := htype
      rw [hany] at hmap
      cases hmap
  -- The code inside is the same whatever is asked for.
  obtain ⟨code, hcode⟩ := expr_eq_valueCode ⟨T, names⟩ hliteral
  have hown : T.typeAt? e.node.id = some .any := hany
  rw [own, hcode, hcode, ← readWord_value ht]
  unfold valueCode
  simp only [hown]
  rfl

end Conversion

end Native

/-- Expressions in which what is wanted of a part is asked for in the code. -/
def Expr.coerces : Expr → Bool
  | .call .. => true
  | _ => false

/-- Statements in which what is wanted of an expression is asked for in the code. -/
def Stmt.coerces : Stmt → Bool
  | .letVar .. | .ret .. => true
  | .assign _ (.index ..) _ => false
  | .assign .. => true
  | _ => false

theorem Typing.Denotes.resolve_noNames {Γ : Env} (hΓ : EnvAll Native.HasForm Γ) {a : TypeExpr} {t : Ty}
    (h : Denotes Γ a t) : a.resolve noNames = .ok t := by
  refine h.resolve_or_named.resolve_right ?_
  rintro ⟨x, -, d, hnamed⟩
  obtain ⟨u, hu⟩ := hnamed.type
  exact Native.not_hasForm_metatype (hu ▸ hΓ _ _ hnamed.lookup)

theorem Expr.Demands.mem_operands {T : TypeTable} {f e : Expr} {t : Ty} (h : f.Demands T t e) : e ∈ f.operands := by
  cases h with
  | left => exact List.mem_cons_self
  | right | position | entry => exact List.mem_cons_of_mem _ (List.mem_singleton_self _)
  | operand => exact List.mem_singleton_self _
  | argument _ _ ha => exact List.mem_map_of_mem (List.mem_of_getElem? ha)
  | field _ ha => exact List.mem_map_of_mem ha
  | item _ he => exact he
  | key _ he => exact Expr.key_mem_operands _ he
  | value _ he => exact Expr.value_mem_operands _ he

theorem Expr.index_or_ne (e : Expr) : (∃ n b i, e = .index n b i) ∨ ∀ n b i, e ≠ .index n b i := by
  cases e with
  | index n b i => exact .inl ⟨n, b, i, rfl⟩
  | _ => exact .inr fun n b i h => by cases h

theorem Stmt.coerces_assign {sp : Span} {target v : Expr} (h : ∀ n b i, target ≠ .index n b i) :
    (Stmt.assign sp target v).coerces = true := by
  cases target with
  | index n b i => exact absurd rfl (h n b i)
  | _ => rfl

theorem Stmt.Demands.mem_exprs {T : TypeTable} {Γ : Typing.Env} {result : Option Ty} {s : Stmt} {e : Expr} {t : Ty}
    (h : s.Demands T Γ result t e) : e ∈ s.exprs := by
  cases h with
  | annotation | returned | condition => exact List.mem_singleton_self _
  | assigned => exact List.mem_cons_of_mem _ (List.mem_singleton_self _)
  | clause hc => exact List.mem_map_of_mem hc

namespace Native

open Typing

/-! What checking wants of an expression against what the code asks for. -/
section Demands

variable {T : TypeTable} {Γ : Env} {e : Expr} {t : Ty}

theorem hasNoForm_typeOf (h : HasType HasForm T e) : hasNoForm (typeOf T e) = false := by
  obtain ⟨t, ht, hform⟩ := h
  rw [typeOf_eq ht]
  exact hform.self

theorem variableType_of_denotes {a : TypeExpr} (ha : Denotes Γ a t) (hΓ : EnvAll HasForm Γ) (e : Expr) :
    variableType T (some a) e = t := by
  rw [variableType, Option.map_some, ha.resolve_noNames hΓ]

theorem slot_of_index {n : Node} {b i : Expr} (hd : (Expr.index n b i).Demands T t e) (stored : Bool) :
    ∃ k, Slot T stored (.index n b i) e none k := by
  cases hd with
  | position hb => exact ⟨_, .position (by rw [TypeTable.isMap, hb])⟩
  | entry hb => exact ⟨_, .entry (by rw [TypeTable.isMap, hb])⟩

/-- What is wanted of an argument is asked for, and nothing is of the other parts of expressions. -/
theorem slot_of_demands {f : Expr} (hd : f.Demands T t e) (hforms : ∀ g ∈ f.parts, HasType HasForm T g) :
    ∃ k, Slot T false f e (if f.coerces then some t else none) k := by
  cases hd with
  | left => exact ⟨_, .left⟩
  | right => exact ⟨_, .right⟩
  | operand => exact ⟨_, .operand⟩
  | argument hc hb ha hp ht => exact ⟨_, .argument hc hb ha hp ht⟩
  | field hc =>
    exact absurd ((hforms _ (Expr.callee_mem_parts ..)).of_type hc) not_hasForm_metatype
  | item _ he => exact ⟨_, .item he⟩
  | key _ he => exact ⟨_, .key he⟩
  | value _ he => exact ⟨_, .value he⟩
  | position hb => exact slot_of_index (.position hb) false
  | entry hb => exact slot_of_index (.entry hb) false

theorem hasForm_of_demands {f : Expr} (hd : f.Demands T t e) (hforms : ∀ g ∈ f.parts, HasType HasForm T g)
    (hf : f.coerces = true) : HasForm t := by
  cases hd with
  | argument hc _ _ _ ht =>
    exact ((hforms _ (Expr.callee_mem_parts ..)).of_type hc).param (List.mem_of_getElem? ht)
  | field hc =>
    exact absurd ((hforms _ (Expr.callee_mem_parts ..)).of_type hc) not_hasForm_metatype
  | left | right | operand | item | key | value | position | entry => cases hf

/-- A statement where only types with a form are visible, and in which all types have one. -/
structure Formed (T : TypeTable) (Γ : Env) (result : Option Ty) (s : Stmt) : Prop where
  env : EnvAll HasForm Γ
  returns : ∀ t, result = some t → HasForm t
  typed : ∃ Γ', StmtTyped T Γ result s Γ'
  exprs : ∀ e ∈ s.exprs, ∀ f ∈ e.parts, HasType HasForm T f

variable {result : Option Ty} {s : Stmt}

theorem Formed.ne_field {sp : Span} {target v : Expr} (h : Formed T Γ result (.assign sp target v)) (n : Node)
    (b : Expr) (x : Ident) : target ≠ .field n b x := by
  rintro rfl
  have hbase := h.exprs _ List.mem_cons_self b (List.mem_cons_of_mem _ (Expr.mem_parts_self b))
  obtain ⟨_, htyped⟩ := h.typed
  cases htyped.wellTyped List.mem_cons_self with
  | field _ hbt => exact Bool.noConfusion (hbase.of_type hbt).self
  | plainCase _ hbt | holdingCase _ hbt => exact not_hasForm_metatype (hbase.of_type hbt)

theorem Formed.ne_matchOn (h : Formed T Γ result s) (sp : Span) (e : Expr) (as : List Arm) (o : Option Block) :
    s ≠ .matchOn sp e as o := by
  rintro rfl
  have hvalue := h.exprs e List.mem_cons_self e (Expr.mem_parts_self e)
  obtain ⟨_, htyped⟩ := h.typed
  cases htyped with
  | matchOn _ het => exact Bool.noConfusion (hvalue.of_type het).self

/-- What is wanted of the value of a variable and of a returned value is asked for, and nothing is of the other
expressions of statements. -/
theorem stmtSlot_of_demands (hd : s.Demands T Γ result t e) (h : Formed T Γ result s) :
    ∃ k, StmtSlot T (result.getD .any) s e (if s.coerces then some t else none) k := by
  cases hd with
  | annotation ha =>
    refine ⟨fun code => " = " ++ code ++ ";", ?_⟩
    rw [Stmt.coerces, if_pos rfl, ← variableType_of_denotes ha h.env e]
    exact .binding
  | @assigned sp target _ _ htarget =>
    obtain ⟨n, b, i, rfl⟩ | hi := target.index_or_ne
    · exact ⟨_, .element⟩
    · rw [if_pos (Stmt.coerces_assign hi), ← typeOf_eq htarget]
      exact ⟨_, .assigned hi h.ne_field⟩
  | returned hr =>
    subst hr
    exact ⟨_, .result⟩
  | clause hc => exact ⟨_, .clause hc⟩
  | condition => exact ⟨_, .condition⟩

theorem Formed.hasForm_of_demands (h : Formed T Γ result s) (hd : s.Demands T Γ result t e)
    (hs : s.coerces = true) : HasForm t := by
  cases hd with
  | annotation ha => exact ha.inherits inherited_hasForm h.env
  | assigned htarget => exact (h.exprs _ List.mem_cons_self _ (Expr.mem_parts_self _)).of_type htarget
  | returned hr => exact h.returns t hr
  | clause | condition => cases hs

end Demands

section Program

variable {T : TypeTable} {p : Program} {Γ : Env} {result : Option Ty} {s : Stmt}

theorem formed_of_check (hn : p.ids.Nodup) (hc : p.check = .ok T) (hno : ∀ s ∈ p.stmts, s.declaresType = false)
    (h : ProgramStands T p Γ result s) : Formed T Γ result s := by
  have hplain : ∀ s ∈ p.stmts, Undeclaring T s := fun s hs => ⟨hno s hs, fun e he f hf =>
    Checker.kept_of_check hn hc f (Program.mem_parts.mpr ⟨s, hs, e, he, hf⟩)⟩
  obtain ⟨hs, ⟨hΓ, hresult⟩, Γ', htyped⟩ := ItemStands.typed (keeps_undeclaring inherited_hasForm .any) h
    (Checker.typed_of_check hn hc) hplain ⟨nofun, nofun⟩
  refine ⟨hΓ, hresult, ⟨Γ', htyped⟩, fun e he f hf => ?_⟩
  have hf' := (htyped.wellTyped he).part hf
  exact hf'.inherits inherited_hasForm hΓ <|
    Checker.handsOn_of_kept inherited_hasForm .any fun g hg => hs.2 e he g (Expr.mem_parts_trans hg hf)

theorem Formed.exists_slot (h : Formed T Γ result s) {e : Expr} (he : e ∈ s.exprs) (r : Ty) :
    (∃ asked k, StmtSlot T r s e asked k) ∨ ∃ sp n b i v, s = .assign sp (.index n b i) v ∧ e = .index n b i := by
  cases s with
  | letVar sp x a v =>
    rw [List.mem_singleton.mp he]
    exact .inl ⟨_, _, .binding⟩
  | assign sp target v =>
    obtain ⟨n, b, i, rfl⟩ | hi := target.index_or_ne
    · rcases List.mem_cons.mp he with rfl | he
      · exact .inr ⟨sp, n, b, i, v, rfl, rfl⟩
      · rw [List.mem_singleton.mp he]
        exact .inl ⟨_, _, .element⟩
    · rcases List.mem_cons.mp he with rfl | he
      · exact .inl ⟨_, _, .target hi h.ne_field⟩
      · rw [List.mem_singleton.mp he]
        exact .inl ⟨_, _, .assigned hi h.ne_field⟩
  | ret sp v =>
    cases v with
    | none => cases he
    | some v =>
      rw [List.mem_singleton.mp he]
      exact .inl ⟨_, _, .result⟩
  | expr sp v =>
    rw [List.mem_singleton.mp he]
    exact .inl ⟨_, _, .expr⟩
  | ifElse sp cs o =>
    obtain ⟨c, hc, rfl⟩ := List.mem_map.mp he
    exact .inl ⟨_, _, .clause hc⟩
  | whileLoop sp c b =>
    rw [List.mem_singleton.mp he]
    exact .inl ⟨_, _, .condition⟩
  | forEach sp v e b =>
    rw [List.mem_singleton.mp he]
    exact .inl ⟨_, _, .iterable⟩
  | matchOn sp e as o => exact absurd rfl (h.ne_matchOn sp e as o)
  | struct | enum => cases he

section Written

variable (hn : p.ids.Nodup) (hc : p.check = .ok T) (hno : ∀ s ∈ p.stmts, s.declaresType = false)

include hn hc hno

theorem told_stmt (h : ProgramStands T p Γ result s) {e : Expr} {asked : Option Ty} {k : String → String}
    (hslot : StmtSlot T (result.getD .any) s e asked k) :
    ∃ names, Told (lines T p) (k (expr ⟨T, names⟩ e asked).value) := by
  have hmatch : ∀ t ∈ p.stmts, ∀ sp e as o, t ≠ .matchOn sp e as o := by
    intro t ht
    obtain ⟨Γ, result, hstands⟩ := (Checker.typed_of_check hn hc).stands ht
    exact (formed_of_check hn hc hno hstands).ne_matchOn
  obtain ⟨names, htold⟩ := told_of_stands h hmatch hslot ⟨{ space := space }, ()⟩
  exact ⟨names, told_lines htold⟩

theorem told_part (h : ProgramStands T p Γ result s) {e f : Expr} {asked : Option Ty} {k : String → String}
    (hslot : StmtSlot T (result.getD .any) s e asked k) (he : WellTyped T Γ e)
    (hforms : ∀ g ∈ e.parts, HasType HasForm T g) (hf : f ∈ e.parts) (hb : ¬ f.IsBuiltin T) :
    ∃ names asked, Told (lines T p) (expr ⟨T, names⟩ f asked).value := by
  obtain ⟨names, htold⟩ := told_stmt hn hc hno h hslot
  obtain ⟨asked', hin⟩ : ∃ asked', Within (expr ⟨T, names⟩ f asked').value (expr ⟨T, names⟩ e asked).value :=
    within_part he (fun g hg => hasNoForm_typeOf (hforms g hg)) hf hb asked
  exact ⟨names, asked', htold.within (hin.trans (hslot.within _))⟩

/-- All expressions of the program are written in it, all but the places that are stored to. -/
theorem told_parts {f : Expr} (hf : f ∈ p.parts) (hb : ¬ f.IsBuiltin T) :
    ∃ Γ, WellTyped T Γ f ∧ (∀ g ∈ f.parts, HasType HasForm T g) ∧
      ((∃ names asked, Told (lines T p) (expr ⟨T, names⟩ f asked).value) ∨
        ∃ result sp n b i v, ProgramStands T p Γ result (.assign sp (.index n b i) v) ∧ f = .index n b i) := by
  obtain ⟨s, hs, e, he, hfe⟩ := Program.mem_parts.mp hf
  obtain ⟨Γ, result, hstands⟩ := (Checker.typed_of_check hn hc).stands hs
  have hformed := formed_of_check hn hc hno hstands
  obtain ⟨_, htyped⟩ := hformed.typed
  have hwe := htyped.wellTyped he
  refine ⟨Γ, hwe.part hfe, fun g hg => hformed.exprs e he g (Expr.mem_parts_trans hg hfe), ?_⟩
  obtain ⟨asked, k, hslot⟩ | ⟨sp, n, b, i, v, rfl, rfl⟩ := hformed.exists_slot he (result.getD .any)
  · exact .inl (told_part hn hc hno hstands hslot hwe (hformed.exprs e he) hfe hb)
  · -- Of a place that is stored to only the parts are written: the container, and where in it.
    rcases List.mem_cons.mp hfe with rfl | hfe
    · exact .inr ⟨result, sp, n, b, i, v, hstands, rfl⟩
    · obtain ⟨hwb, hwi⟩ := hwe.of_index
      have hparts := hformed.exprs _ he
      rcases List.mem_append.mp hfe with hfe | hfe
      · exact .inl (told_part hn hc hno hstands (.place .base) hwb
          (fun g hg => hparts g (List.mem_cons_of_mem _ (List.mem_append_left _ hg))) hfe hb)
      · obtain ⟨k, hplace⟩ := exists_slot_place T true n b i
        exact .inl (told_part hn hc hno hstands (.place hplace) hwi
          (fun g hg => hparts g (List.mem_cons_of_mem _ (List.mem_append_right _ hg))) hfe hb)

end Written

/-- How the code takes a value of unknown type of which checking wants some type. It is converted where the code asks
for that type, and stands as it is everywhere else. -/
structure Conversions (T : TypeTable) (p : Program) : Prop where
  exprs : ∀ f ∈ p.parts, ∀ t e, f.Demands T t e → T.typeOf? e = some .any →
    ∃ stored k names, Slot T stored f e (if f.coerces then some t else none) k ∧
      Told (lines T p) (k (if f.coerces then converted t (own T names e) else own T names e))
  placed : ∀ s ∈ p.stmts, ∃ Γ result, ProgramStands T p Γ result s
  stmts : ∀ Γ result s, ProgramStands T p Γ result s → ∀ t e, s.Demands T Γ result t e →
    T.typeOf? e = some .any →
    ∃ k names, StmtSlot T (result.getD .any) s e (if s.coerces then some t else none) k ∧
      Told (lines T p) (k (if s.coerces then converted t (own T names e) else own T names e))

theorem value_of_asked {Γ : Env} {e : Expr} {t : Ty} {b : Bool} (he : WellTyped T Γ e) (hany : T.typeOf? e = some .any)
    (ht : b = true → HasForm t) (names : Names) :
    (expr ⟨T, names⟩ e (if b then some t else none)).value =
      if b then converted t (own T names e) else own T names e := by
  cases b with
  | true => exact expr_value_of_any he hany (ht rfl).self names
  | false => rfl

theorem conversions_of_check {source : String} (hp : parseProgram source = .ok p) (hc : p.check = .ok T)
    (hno : ∀ s ∈ p.stmts, s.declaresType = false) : Conversions T p := by
  have hn := Parser.nodup_ids_of_parseProgram hp
  refine ⟨?_, fun s hs => (Checker.typed_of_check hn hc).stands hs, ?_⟩
  · intro f hf t e hd hany
    have hb : ¬ f.IsBuiltin T := by
      intro hb
      cases hd <;> exact hb
    obtain ⟨Γ, hwf, hforms, htold⟩ := told_parts hn hc hno hf hb
    have hwe := hwf.part (Expr.mem_parts_of_operand hd.mem_operands)
    obtain ⟨names, asked, htold⟩ | ⟨result, sp, n, b, i, v, hstands, rfl⟩ := htold
    · obtain ⟨k, hslot⟩ := slot_of_demands hd hforms
      have hform := hasNoForm_typeOf (hforms f (Expr.mem_parts_self f))
      have hin : Within (k (expr ⟨T, names⟩ e (if f.coerces then some t else none)).value)
          (expr ⟨T, names⟩ f asked).value := within_slot hslot hwf hform asked
      rw [value_of_asked hwe hany (hasForm_of_demands hd hforms)] at hin
      exact ⟨false, k, names, hslot, htold.within hin⟩
    · -- The code of a place that is stored to is in the call that stores.
      obtain ⟨k, hslot⟩ := slot_of_index hd true
      obtain ⟨names, htold⟩ := told_stmt hn hc hno hstands (.place hslot)
      exact ⟨true, k, names, hslot, htold⟩
  · intro Γ result s hstands t e hd hany
    have hformed := formed_of_check hn hc hno hstands
    obtain ⟨k, hslot⟩ := stmtSlot_of_demands hd hformed
    obtain ⟨names, htold⟩ := told_stmt hn hc hno hstands hslot
    obtain ⟨_, htyped⟩ := hformed.typed
    rw [value_of_asked (htyped.wellTyped hd.mem_exprs) hany (hformed.hasForm_of_demands hd)] at htold
    exact ⟨k, names, hslot, htold⟩

/-- A returned value, which is converted, and an operand, which is not. -/
theorem conversions_call :
    ∃ p T, parseProgram "let m = \x7b\x7d; fn f(a: int): int \x7b return m[a]; \x7d f(-m[1]);" = .ok p ∧
      p.check = .ok T ∧ (∀ s ∈ p.stmts, s.declaresType = false) ∧
      ⟨1, "return VENICE_FROM_WORD(venice_int_t, VENICE_FROM_WORD(venice_any_t, " ++
        "venice_map_get(m, VENICE_WORD(a))));"⟩ ∈ lines T p ∧
      ⟨1, "f(-VENICE_FROM_WORD(venice_any_t, venice_map_get(m, VENICE_WORD(1))));"⟩ ∈ lines T p ∧
      Conversions T p := by
  refine exists_accepted (fun p T => (∀ s ∈ p.stmts, s.declaresType = false) ∧
    ⟨1, "return VENICE_FROM_WORD(venice_int_t, VENICE_FROM_WORD(venice_any_t, " ++
      "venice_map_get(m, VENICE_WORD(a))));"⟩ ∈ lines T p ∧
    ⟨1, "f(-VENICE_FROM_WORD(venice_any_t, venice_map_get(m, VENICE_WORD(1))));"⟩ ∈ lines T p)
    (by decide +kernel) fun p T hp hc ⟨hno, hreturned, hargument⟩ => ?_
  exact ⟨hno, hreturned, hargument, conversions_of_check hp hc hno⟩

/-- Whether an expression compares a value of unknown type. -/
def comparesOpenly (T : TypeTable) : Expr → Bool
  | .binary _ .lt l _ =>
    match T.typeOf? l with
    | some .any => true
    | _ => false
  | _ => false

/-- A negative number from a map whose values are not known is compared as the word that it is. -/
theorem operand_unconverted :
    ∃ p T n l r, parseProgram "let m = \x7b\x7d; m[1] = -1; print(m[1] < 0);" = .ok p ∧ p.check = .ok T ∧
      (∀ s ∈ p.stmts, s.declaresType = false) ∧ .binary n .lt l r ∈ p.parts ∧
      (Expr.binary n .lt l r).Demands T .int l ∧ T.typeOf? l = some .any ∧
      p.generate T .native =
        "#include <venice.h>\n\nstatic venice_map_t* m;\n\nint main(void) \x7b\n" ++
        "    m = venice_map_from_varargs('a', 0);\n" ++
        "    venice_map_set(m, VENICE_WORD(1), VENICE_WORD(-1));\n" ++
        "    venice_print(VENICE_WORD(VENICE_FROM_WORD(venice_any_t, " ++
        "venice_map_get(m, VENICE_WORD(1))) < 0), \"b\");\n" ++
        "    return 0;\n\x7d\n" := by
  obtain ⟨p, T, hp, hc, hno, ⟨e, he, hopen⟩, hcode⟩ : ∃ p T,
      parseProgram "let m = \x7b\x7d; m[1] = -1; print(m[1] < 0);" = .ok p ∧ p.check = .ok T ∧ (∀ s ∈ p.stmts, s.declaresType = false) ∧
      (∃ e ∈ p.parts, comparesOpenly T e = true) ∧ p.generate T .native =
        "#include <venice.h>\n\nstatic venice_map_t* m;\n\nint main(void) \x7b\n" ++
        "    m = venice_map_from_varargs('a', 0);\n" ++
        "    venice_map_set(m, VENICE_WORD(1), VENICE_WORD(-1));\n" ++
        "    venice_print(VENICE_WORD(VENICE_FROM_WORD(venice_any_t, " ++
        "venice_map_get(m, VENICE_WORD(1))) < 0), \"b\");\n" ++
        "    return 0;\n\x7d\n" :=
    exists_accepted _ (by decide +kernel) fun _ _ _ _ h => h
  unfold comparesOpenly at hopen
  split at hopen
  · rename_i n l r
    split at hopen
    · rename_i hany
      exact ⟨p, T, n, l, r, hp, hc, hno, he, .left .lt, hany, hcode⟩
    · cases hopen
  · cases hopen

end Program

end Native

end Gondola
