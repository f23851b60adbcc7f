import Gondola.Proofs.Code.MapKeys
import Gondola.Proofs.Code.Native

/-! Where the code of an expression goes in a C program. Each place asks for the expression at some type, or at none,
and puts its code between some other text. -/
namespace Gondola

theorem TypeTable.signatureOf?_of_type {T : TypeTable} {c : Expr} {ps : List Ty} {ls : List (Option String)} {r : Ty}
    (h : T.typeOf? c = some (.function ps ls r)) : T.signatureOf? c = some ⟨ps, ls, r⟩ := by
  rw [signatureOf?, h]

theorem Expr.callee_mem_parts (n : Node) (c : Expr) (as : List Argument) : c ∈ (Expr.call n c as).parts :=
  List.mem_cons_of_mem _ (List.mem_append_left _ (Expr.mem_parts_self c))

namespace Native

section Within

/-- The text stands in the other one. -/
def Within (a b : String) : Prop := ∃ before after, b = before ++ a ++ after

variable {a b c : String}

theorem Within.refl (a : String) : Within a a := ⟨"", "", by simp⟩

theorem Within.trans (h : Within a b) (h' : Within b c) : Within a c := by
  obtain ⟨before, after, rfl⟩ := h
  obtain ⟨before', after', rfl⟩ := h'
  exact ⟨before' ++ before, after ++ after', by simp only [String.append_assoc]⟩

theorem Within.left (h : Within a b) (c : String) : Within a (c ++ b) := by
  obtain ⟨before, after, rfl⟩ := h
  exact ⟨c ++ before, after, by simp only [String.append_assoc]⟩

theorem Within.right (h : Within a b) (c : String) : Within a (b ++ c) := by
  obtain ⟨before, after, rfl⟩ := h
  exact ⟨before, after ++ c, by simp only [String.append_assoc]⟩

theorem within_commaSeparated {texts : List String} (h : a ∈ texts) : Within a (commaSeparated texts) := by
  induction texts with
  | nil => cases h
  | cons t ts ih =>
    cases ts with
    | nil =>
      rw [List.mem_singleton.mp h]
      exact .refl t
    | cons u us =>
      rw [commaSeparated, String.intercalate_cons_cons]
      rcases List.mem_cons.mp h with rfl | h
      · exact ((Within.refl a).right _).right _
      · exact (ih h).left _

theorem within_callCode (callee : String) {args : List String} (h : a ∈ args) : Within a (callCode callee args) :=
  ((within_commaSeparated h).left _).right _

theorem within_operandCode (level min : Precedence) (code : String) : Within code (operandCode level min code) := by
  unfold operandCode
  split
  · exact ((Within.refl code).left _).right _
  · exact .refl code

theorem within_readWord (t : Ty) (code : String) : Within code (readWord t code).value := by
  show Within code (if _ then pure code else pure _ : Code).value
  split
  · exact .refl code
  · exact ((Within.refl code).left _).right _

theorem within_valueCode {T : TypeTable} {n : Node} {code : Code}
    (hform : hasNoForm ((T.typeAt? n.id).getD .any) = false) (wanted : Option Ty) :
    Within code.value (valueCode T n wanted code).value := by
  unfold valueCode
  dsimp only
  rw [hform]
  split
  · exact within_readWord _ _
  · exact .refl _

end Within

section Values

variable (cx : Context)

theorem items_value (es : List Expr) : (items cx es).value = es.map fun e => (expr cx e none).value := by
  rw [items_eq, Fragment.value_sequence, List.map_map]
  rfl

theorem entries_value (es : List (Expr × Expr)) :
    (entries cx es).value = es.map fun e => ((expr cx e.1 none).value, (expr cx e.2 none).value) := by
  rw [entries_eq, Fragment.value_sequence, List.map_map]
  rfl

end Values

open Typing

section Exprs

/-- A part of an expression, the type at which its code is asked for, and the text that stands around the code. If the
expression is `stored` to, its own code is not written, but that of its parts is. -/
inductive Slot (T : TypeTable) : Bool → Expr → Expr → Option Ty → (String → String) → Prop
  | left {n op l r} : Slot T false (.binary n op l r) l none fun code =>
      operandCode l.precedence op.precedence code ++ " " ++ operator op ++ " "
  | right {n op l r} : Slot T false (.binary n op l r) r none fun code =>
      " " ++ operator op ++ " " ++ operandCode r.precedence op.precedence.next code
  | operand {n op e} : Slot T false (.unary n op e) e none fun code =>
      unaryCode op (operandCode e.precedence .call code)
  | callee {n c as} (hb : ¬ c.IsBuiltin T) : Slot T false (.call n c as) c none fun code =>
      operandCode c.precedence .call code ++ "("
  | argument {n c as ps ls r i a p t} (hc : T.typeOf? c = some (.function ps ls r)) (hb : ¬ c.IsBuiltin T)
      (ha : as[i]? = some a) (hp : Binds ls i a.label p) (ht : ps[p]? = some t) :
      Slot T false (.call n c as) a.value (some t) id
  | printed {n c as a} (hb : c.IsBuiltin T) (ha : a ∈ as) : Slot T false (.call n c as) a.value none id
  | item {n es e} (he : e ∈ es) : Slot T false (.list n es) e none word
  | key {n es e} (he : e ∈ es) : Slot T false (.map n es) e.1 none word
  | value {n es e} (he : e ∈ es) : Slot T false (.map n es) e.2 none word
  | base {stored n b i} : Slot T stored (.index n b i) b none fun code => "(" ++ code ++ ", "
  | position {stored n b i} (hb : T.isMap b = false) : Slot T stored (.index n b i) i none fun code =>
      ", " ++ code ++ if stored then ", " else ")"
  | entry {stored n b i} (hb : T.isMap b = true) : Slot T stored (.index n b i) i none fun code =>
      ", " ++ word code ++ if stored then ", " else ")"

variable {cx : Context} {Γ : Env} {T : TypeTable} {n : Node} {c : Expr} {a : Argument} {as : List Argument}
  {sig : Signature} {es : List (Expr × Expr)} {stored : Bool} {asked : Option Ty} {k : String → String}

theorem not_isBuiltin_iff : ¬ c.IsBuiltin T ↔ T.builtinSymbol? c = none := by
  refine ⟨fun h => ?_, TypeTable.not_isBuiltin_of_builtinSymbol?⟩
  cases c with
  | symbol n x =>
    rw [TypeTable.builtinSymbol?, if_neg]
    rw [List.contains_iff_mem]
    exact h
  | _ => rfl

theorem order_arguments (h : WellTyped cx.types Γ (.call n c as)) (hsig : cx.types.signatureOf? c = some sig) :
    (sig.order (arguments cx as)).length = sig.params.length ∧
      ∀ (i p : Nat) (a : Argument), as[i]? = some a → Binds sig.labels i a.label p →
        (sig.order (arguments cx as))[p]? = some (operandOf cx a).2 := by
  obtain ⟨place, hplace⟩ := h.place (TypeTable.signatureOf?_eq_some hsig)
  have hbinds : ∀ i : Fin as.length, Binds sig.labels i as[i].label (place i) := fun i => (hplace i).1
  have hslots : ∀ i : Fin as.length, sig.slot i (operandOf cx as[i]).1 = place i := slot_eq_place hbinds
  rw [arguments_eq, Signature.order_map_eq_ofFn (operandOf cx) place hslots]
  refine ⟨List.length_ofFn, fun i p a ha hp => ?_⟩
  obtain ⟨hi, rfl⟩ := List.getElem?_eq_some_iff.mp ha
  obtain rfl : (place ⟨i, hi⟩).val = p := (hbinds ⟨i, hi⟩).unique hp
  rw [List.getElem?_ofFn, dif_pos (place ⟨i, hi⟩).isLt]
  simp

theorem mem_zip_of_getElem? {α β : Type} {as : List α} {bs : List β} {i : Nat} {a : α} {b : β} (ha : as[i]? = some a)
    (hb : bs[i]? = some b) : (a, b) ∈ as.zip bs := by
  apply List.mem_of_getElem?
  rw [List.getElem?_zip_eq_some]
  exact ⟨ha, hb⟩

theorem printer?_eq_none (h : T.builtinSymbol? c = none) (args : List Operand) : printer? T c args = none := by
  unfold printer?
  rw [h]
  split
  · rename_i heq
    cases heq
  · rfl

theorem within_call (hsig : cx.types.signatureOf? c = some sig) (hb : ¬ c.IsBuiltin cx.types)
    (hform : hasNoForm (typeOf cx.types (.call n c as)) = false) (wanted : Option Ty) :
    Within (callCode (operandCode c.precedence .call (expr cx c none).value)
      ((coerced (sig.order (arguments cx as)) sig.params).map Fragment.value))
      (expr cx (.call n c as) wanted).value := by
  rw [expr]
  refine Within.trans ?_ (within_valueCode hform wanted)
  rw [hsig]
  dsimp only
  rw [printer?_eq_none (not_isBuiltin_iff.mp hb), ← Fragment.value_sequence]
  exact .refl _

theorem within_argument {ps : List Ty} {ls : List (Option String)} {r t : Ty}
    {i p : Nat} (h : WellTyped cx.types Γ (.call n c as))
    (hc : cx.types.typeOf? c = some (.function ps ls r)) (hb : ¬ c.IsBuiltin cx.types) (ha : as[i]? = some a)
    (hp : Binds ls i a.label p) (ht : ps[p]? = some t) (hform : hasNoForm (typeOf cx.types (.call n c as)) = false)
    (wanted : Option Ty) : Within (expr cx a.value (some t)).value (expr cx (.call n c as) wanted).value := by
  have hsig := TypeTable.signatureOf?_of_type hc
  have hplace := (order_arguments h hsig).2 i p a ha hp
  have hcode : expr cx a.value (some t) ∈ coerced (Signature.order ⟨ps, ls, r⟩ (arguments cx as)) ps :=
    List.mem_map.mpr ⟨((operandOf cx a).2, t), mem_zip_of_getElem? hplace ht, rfl⟩
  refine Within.trans ?_ (within_call hsig hb hform wanted)
  exact within_callCode _ (List.mem_map.mpr ⟨_, hcode, rfl⟩)

theorem within_printCode (name : String) (t : Ty) (arg : String) : Within arg (printCode name t arg) := by
  refine Within.trans ?_ (within_callCode _ List.mem_cons_self)
  split
  · exact (((Within.refl arg).left _).right _).right _ |>.right _
  · exact ((Within.refl arg).left _).right _

theorem within_print (h : WellTyped cx.types Γ (.call n c as)) (hb : c.IsBuiltin cx.types) (ha : a ∈ as)
    (hform : hasNoForm (typeOf cx.types (.call n c as)) = false) (wanted : Option Ty) :
    Within (expr cx a.value none).value (expr cx (.call n c as) wanted).value := by
  have hcopy := h
  cases h with
  | construct hc hct =>
    obtain ⟨-, -, -, -, hprint⟩ := hc.builtin_type hb
    rw [hprint] at hct
    cases hct
  | @call _ _ _ ps ls r hc hct hlen _ hps _ _ =>
    obtain ⟨m, x, rfl, hx, hprint⟩ := hc.builtin_type hb
    have hsig : cx.types.signatureOf? (.symbol m x) = some .print := by
      rw [TypeTable.signatureOf?, hprint]
      rfl
    obtain ⟨rfl, rfl, rfl⟩ := Ty.function.inj (Option.some.inj (hct.symm.trans hprint))
    obtain ⟨hlength, horder⟩ := order_arguments hcopy hsig
    obtain ⟨i, hi⟩ := List.getElem?_of_mem ha
    obtain ⟨p, t, hp, ht, -⟩ := hps i a hi
    -- There is one parameter, so that the only argument is for it.
    obtain ⟨arg, harg⟩ := List.length_eq_one_iff.mp hlength
    have hin := List.mem_of_getElem? (horder i p a hi hp)
    rw [harg, List.mem_singleton] at hin
    have hprinter : printer? cx.types (.symbol m x) [arg] = some ((m, x), "venice_print", arg) := by
      have hmark : cx.types.builtinSymbol? (.symbol m x) = some (m, x) := if_pos (List.contains_iff_mem.mpr hb)
      have hname : Target.native.builtin? x.name = some "venice_print" := by rw [hx]; rfl
      unfold printer?
      rw [hmark]
      dsimp only
      rw [hname]
      rfl
    rw [expr]
    refine Within.trans ?_ (within_valueCode hform wanted)
    rw [hsig]
    dsimp only
    rw [harg, hprinter, ← hin]
    exact within_printCode "venice_print" (typeOf cx.types a.value) (expr cx a.value none).value

theorem commaSeparated_pair (a b : String) : commaSeparated [a, b] = a ++ ", " ++ b := by
  rw [commaSeparated, String.intercalate_cons_cons, String.intercalate_singleton]

theorem within_elementCode (map : Bool) (base place : String) :
    Within ("(" ++ base ++ ", ") (elementCode map base place) ∧
      Within (", " ++ (if map then word place else place) ++ ")") (elementCode map base place) := by
  unfold elementCode callCode
  cases map with
  | true =>
    rw [if_pos rfl, if_pos rfl, commaSeparated_pair]
    exact ⟨⟨"venice_map_get", word place ++ ")", by simp only [String.append_assoc]⟩,
      ⟨"venice_map_get(" ++ base, "", by simp [← String.append_assoc]⟩⟩
  | false =>
    rw [if_neg Bool.false_ne_true, if_neg Bool.false_ne_true, commaSeparated_pair]
    exact ⟨⟨"venice_list_index", place ++ ")", by simp only [String.append_assoc]⟩,
      ⟨"venice_list_index(" ++ base, "", by simp [← String.append_assoc]⟩⟩

theorem within_mapCode (key : Ty) {es : List (String × String)} {e : String × String} (he : e ∈ es) :
    Within (word e.1) (mapCode key es) ∧ Within (word e.2) (mapCode key es) := by
  have hin (text : String) (h : text ∈ [word e.1, word e.2]) : Within text (mapCode key es) := by
    apply within_callCode
    exact List.mem_cons_of_mem _ (List.mem_cons_of_mem _ (List.mem_flatMap.mpr ⟨e, he, h⟩))
  exact ⟨hin _ List.mem_cons_self, hin _ (List.mem_cons_of_mem _ List.mem_cons_self)⟩

theorem within_map (hform : hasNoForm (typeOf cx.types (.map n es)) = false)
    (wanted : Option Ty) : ∃ key, Within (mapCode key (entries cx es).value) (expr cx (.map n es) wanted).value := by
  unfold expr
  split
  · exact ⟨_, .refl _⟩
  · refine ⟨ownKey cx.types n, Within.trans ?_ (within_valueCode hform wanted)⟩
    exact .refl _

theorem within_entry {e : Expr × Expr} (he : e ∈ es)
    (hform : hasNoForm (typeOf cx.types (.map n es)) = false) (wanted : Option Ty) :
    Within (word (expr cx e.1 none).value) (expr cx (.map n es) wanted).value ∧
      Within (word (expr cx e.2 none).value) (expr cx (.map n es) wanted).value := by
  have hin : ((expr cx e.1 none).value, (expr cx e.2 none).value) ∈ (entries cx es).value := by
    rw [entries_value]
    exact List.mem_map_of_mem he
  obtain ⟨key, hmap⟩ := within_map hform wanted
  obtain ⟨hk, hv⟩ := within_mapCode key hin
  exact ⟨hk.trans hmap, hv.trans hmap⟩

theorem within_element {b i : Expr} (hform : hasNoForm (typeOf cx.types (.index n b i)) = false) (wanted : Option Ty) :
    Within (elementCode (cx.types.isMap b) (expr cx b none).value (expr cx i none).value)
      (expr cx (.index n b i) wanted).value := by
  rw [expr]
  refine Within.trans ?_ (within_valueCode hform wanted)
  exact within_readWord _ _

theorem within_slot {f e : Expr} (h : Slot cx.types false f e asked k)
    (hf : WellTyped cx.types Γ f) (hform : hasNoForm (typeOf cx.types f) = false) (wanted : Option Ty) :
    Within (k (expr cx e asked).value) (expr cx f wanted).value := by
  cases h with
  | left =>
    rw [expr]
    refine Within.trans ?_ (within_valueCode hform wanted)
    exact (Within.refl _).right _
  | right =>
    rw [expr]
    refine Within.trans ?_ (within_valueCode hform wanted)
    exact ⟨_, "", by simp [String.append_assoc]; rfl⟩
  | operand =>
    rw [expr]
    refine Within.trans ?_ (within_valueCode hform wanted)
    exact .refl _
  | @callee n _ as hb =>
    cases hf with
    | construct _ _ _ _ _ _ ht =>
      have htype : cx.types.typeOf? (.call n e as) = _ := ht
      rw [typeOf, htype] at hform
      cases hform
    | call _ hct =>
      refine Within.trans ?_ (within_call (TypeTable.signatureOf?_of_type hct) hb hform wanted)
      exact ((Within.refl _).right _).right _
  | argument hc hb ha hp ht => exact within_argument hf hc hb ha hp ht hform wanted
  | printed hb ha => exact within_print hf hb ha hform wanted
  | item he =>
    rw [expr]
    refine Within.trans ?_ (within_valueCode hform wanted)
    apply within_callCode
    rw [items_value, List.map_map]
    exact List.mem_cons_of_mem _ (List.mem_map.mpr ⟨_, he, rfl⟩)
  | key he => exact (within_entry he hform wanted).1
  | value he => exact (within_entry he hform wanted).2
  | base => exact (within_elementCode _ _ _).1.trans (within_element hform wanted)
  | position hb | entry hb =>
    have hplace := (within_elementCode _ _ _).2.trans (within_element hform wanted)
    rw [hb] at hplace
    exact hplace

theorem within_unaryCode (op : UnaryOp) (code : String) : Within code (unaryCode op code) := by
  cases op <;> exact (Within.refl code).left _

theorem Slot.within {f e : Expr} (h : Slot T stored f e asked k) (code : String) : Within code (k code) := by
  have hword : Within code (word code) := ((Within.refl code).left _).right _
  cases h with
  | left => exact (((within_operandCode _ _ code).right _).right _).right _
  | right => exact (within_operandCode _ _ code).left _
  | operand => exact (within_operandCode _ _ code).trans (within_unaryCode _ _)
  | callee => exact (within_operandCode _ _ code).right _
  | argument | printed => exact .refl code
  | item | key | value => exact hword
  | base | position => exact ((Within.refl code).left _).right _
  | entry => exact (hword.left _).right _

theorem exists_slot_place (T : TypeTable) (stored : Bool) (n : Node) (b i : Expr) :
    ∃ k, Slot T stored (.index n b i) i none k := by
  cases hmap : T.isMap b with
  | true => exact ⟨_, .entry hmap⟩
  | false => exact ⟨_, .position hmap⟩

theorem typeOf_eq {e : Expr} {t : Ty} (h : T.typeOf? e = some t) : typeOf T e = t := by
  rw [typeOf, h, Option.getD_some]

theorem Slot.mem_children {f e : Expr} (h : Slot T stored f e asked k) : e ∈ f.children := by
  cases h with
  | left | operand | callee | base => exact List.mem_cons_self
  | right | position | entry => exact List.mem_cons_of_mem _ (List.mem_singleton_self _)
  | argument _ _ ha => exact List.mem_cons_of_mem _ (List.mem_map_of_mem (List.mem_of_getElem? ha))
  | printed _ ha => exact List.mem_cons_of_mem _ (List.mem_map_of_mem ha)
  | item he => exact he
  | key he => exact Expr.key_mem_children _ he
  | value he => exact Expr.value_mem_children _ he

theorem Slot.mem_parts {f e : Expr} (h : Slot T stored f e asked k) : e ∈ f.parts :=
  Expr.mem_parts_iff.mpr (.inr ⟨e, h.mem_children, Expr.mem_parts_self e⟩)

/-- A part of a typed expression is the expression itself or is in one of its slots, if all types have a form. Only a
built-in that is called is not written as a value. -/
theorem slot_of_part {e f : Expr} (h : WellTyped T Γ e)
    (hforms : ∀ g ∈ e.parts, hasNoForm (typeOf T g) = false) (hf : f ∈ e.parts) (hb : ¬ f.IsBuiltin T) :
    f = e ∨ ∃ g asked k, Slot T false e g asked k ∧ f ∈ g.parts := by
  have hself := hforms e (Expr.mem_parts_self e)
  cases h with
  | int | string | bool | declared | builtin => exact .inl (List.mem_singleton.mp hf)
  | binary =>
    refine (List.mem_cons.mp hf).imp_right fun hf => ?_
    rcases List.mem_append.mp hf with hf | hf
    · exact ⟨_, _, _, .left, hf⟩
    · exact ⟨_, _, _, .right, hf⟩
  | unary => exact (List.mem_cons.mp hf).imp_right fun hf => ⟨_, _, _, .operand, hf⟩
  | @call n c as ps ls r hc hct _ _ hps =>
    refine (List.mem_cons.mp hf).imp_right fun hf => ?_
    rcases List.mem_append.mp hf with hf | hf
    · by_cases hbuiltin : c.IsBuiltin T
      · obtain ⟨m, x, rfl, -⟩ := hc.builtin_type hbuiltin
        rw [List.mem_singleton.mp hf] at hb
        exact absurd hbuiltin hb
      · exact ⟨c, _, _, .callee hbuiltin, hf⟩
    · obtain ⟨a, ha, hf⟩ := Expr.mem_argumentParts.mp hf
      by_cases hbuiltin : c.IsBuiltin T
      · exact ⟨a.value, _, _, .printed hbuiltin ha, hf⟩
      · obtain ⟨i, hi⟩ := List.getElem?_of_mem ha
        obtain ⟨p, t, hp, htp, -⟩ := hps i a hi
        exact ⟨a.value, _, _, .argument hct hbuiltin hi hp htp, hf⟩
  | @construct n c as _ _ _ _ _ _ _ _ ht =>
    rw [typeOf_eq (e := .call n c as) ht] at hself
    cases hself
  | list =>
    refine (List.mem_cons.mp hf).imp_right fun hf => ?_
    obtain ⟨g, hg, hf⟩ := Expr.mem_itemParts.mp hf
    exact ⟨g, _, _, .item hg, hf⟩
  | map =>
    refine (List.mem_cons.mp hf).imp_right fun hf => ?_
    obtain ⟨g, hg, hf | hf⟩ := Expr.mem_entryParts.mp hf
    · exact ⟨g.1, _, _, .key hg, hf⟩
    · exact ⟨g.2, _, _, .value hg, hf⟩
  | item | entry =>
    refine (List.mem_cons.mp hf).imp_right fun hf => ?_
    rcases List.mem_append.mp hf with hf | hf
    · exact ⟨_, _, _, .base, hf⟩
    · obtain ⟨k, hslot⟩ := exists_slot_place T false _ _ _
      exact ⟨_, _, k, hslot, hf⟩
  | field _ hbt | plainCase _ hbt | holdingCase _ hbt =>
    have hbase := hforms _ (List.mem_cons_of_mem _ (Expr.mem_parts_self _))
    rw [typeOf_eq hbt] at hbase
    cases hbase

theorem within_part {e f : Expr} (h : WellTyped cx.types Γ e)
    (hforms : ∀ g ∈ e.parts, hasNoForm (typeOf cx.types g) = false) (hf : f ∈ e.parts) (hb : ¬ f.IsBuiltin cx.types)
    (wanted : Option Ty) : ∃ asked, Within (expr cx f asked).value (expr cx e wanted).value := by
  induction e using Expr.induction_children generalizing wanted with
  | h e ih =>
    obtain rfl | ⟨g, asked, k, hslot, hfg⟩ := slot_of_part h hforms hf hb
    · exact ⟨wanted, .refl _⟩
    · -- The part is written in the slot, and the slot is written in the whole.
      have hforms' : ∀ g' ∈ g.parts, hasNoForm (typeOf cx.types g') = false :=
        fun g' hg' => hforms g' (Expr.mem_parts_trans hg' hslot.mem_parts)
      obtain ⟨asked', hin⟩ := ih g hslot.mem_children (h.part hslot.mem_parts) hforms' hfg asked
      have hwhole := within_slot hslot h (hforms e (Expr.mem_parts_self e)) wanted
      exact ⟨asked', (hin.trans (hslot.within _)).trans hwhole⟩

end Exprs

section Told

/-- The text stands in one of the lines. -/
def Told (ls : List Line) (text : String) : Prop := ∃ l ∈ ls, Within text l.text

variable {ls ms : List Line} {a b : String}

theorem Told.within (h : Told ls b) (hab : Within a b) : Told ls a := by
  obtain ⟨l, hl, hin⟩ := h
  exact ⟨l, hl, hab.trans hin⟩

theorem Told.mono (h : Told ls a) (hsub : ls ⊆ ms) : Told ms a := by
  obtain ⟨l, hl, hin⟩ := h
  exact ⟨l, hsub hl, hin⟩

theorem told_at0 (h : Within a b) : Told [.at0 b] a := ⟨_, List.mem_cons_self, h⟩

theorem Told.indented (h : Told ls a) : Told (indented ls) a := by
  obtain ⟨l, hl, hin⟩ := h
  exact ⟨l.deepen, List.mem_map_of_mem hl, hin⟩

theorem Told.blockLines (h : Told ls a) (head : String) : Told (blockLines head ls) a := by
  refine h.indented.mono fun l hl => ?_
  exact List.mem_cons_of_mem _ (List.mem_append_left _ hl)

theorem told_blockLines {head : String} (h : Within a head) (ls : List Line) : Told (Gondola.blockLines head ls) a :=
  ⟨_, List.mem_cons_self, h.right _⟩

end Told

section Stmts

/-- An expression of a statement in a function with the given result, the type at which its code is asked for, and the
text that stands around the code. -/
inductive StmtSlot (T : TypeTable) (r : Ty) : Stmt → Expr → Option Ty → (String → String) → Prop
  | binding {s x a e} : StmtSlot T r (.letVar s x a e) e (some (variableType T a e)) fun code => " = " ++ code ++ ";"
  | target {s t e} (hi : ∀ n b i, t ≠ .index n b i) (hf : ∀ n b x, t ≠ .field n b x) :
      StmtSlot T r (.assign s t e) t none fun code => code ++ " = "
  | assigned {s t e} (hi : ∀ n b i, t ≠ .index n b i) (hf : ∀ n b x, t ≠ .field n b x) :
      StmtSlot T r (.assign s t e) e (some (typeOf T t)) fun code => " = " ++ code ++ ";"
  | place {s n b i v e asked k} (h : Slot T true (.index n b i) e asked k) :
      StmtSlot T r (.assign s (.index n b i) v) e asked k
  | element {s n b i v} : StmtSlot T r (.assign s (.index n b i) v) v none fun code => ", " ++ word code ++ ");"
  | result {s e} : StmtSlot T r (.ret s (some e)) e (some r) fun code => "return " ++ code ++ ";"
  | expr {s e} : StmtSlot T r (.expr s e) e none fun code => code ++ ";"
  | clause {s cs o c} (hc : c ∈ cs) : StmtSlot T r (.ifElse s cs o) c.cond none fun code => "if (" ++ code ++ ")"
  | condition {s c b} : StmtSlot T r (.whileLoop s c b) c none fun code => "while (" ++ code ++ ")"
  | iterable {s v e b} : StmtSlot T r (.forEach s v e b) e none fun code => " = " ++ code ++ ";"

variable {T : TypeTable} {r : Ty} {s : Stmt} {e : Expr} {asked : Option Ty} {k : String → String}

theorem StmtSlot.within (h : StmtSlot T r s e asked k) (code : String) : Within code (k code) := by
  cases h with
  | binding | assigned | result | clause | condition | iterable => exact ((Within.refl code).left _).right _
  | target | expr => exact (Within.refl code).right _
  | place h => exact h.within code
  | element => exact ((((Within.refl code).left _).right _).left _).right _

theorem told_clause {cs : List Clause} {c : Clause} (hc : c ∈ cs) (first : Bool) (w : Writer Unit) :
    ∃ names, Told (clauses T r first cs w).value.1 ("if (" ++ (expr ⟨T, names⟩ c.cond none).value ++ ")") := by
  induction cs generalizing first w with
  | nil => cases hc
  | cons d cs ih =>
    obtain ⟨cond, body⟩ := d
    rcases List.mem_cons.mp hc with rfl | hc
    · refine ⟨w.names, _, List.mem_cons_self, ?_⟩
      show Within _ (chainHead first _ ++ _)
      refine Within.right ?_ _
      unfold chainHead
      split
      · exact .refl _
      · exact ⟨"\x7d else ", "", by simp [← String.append_assoc]⟩
    · obtain ⟨names, htold⟩ := ih hc false (Emit.inScope (block T r body) w).value.2
      refine ⟨names, htold.mono fun l hl => ?_⟩
      exact List.mem_cons_of_mem _ (List.mem_append_right _ hl)

theorem within_tail (a b c d : String) : Within (b ++ c ++ d) (a ++ b ++ c ++ d) :=
  ⟨a, "", by simp [← String.append_assoc]⟩

theorem assignment_index (n : Node) (b i v : Expr) (w : Writer Unit) :
    ∃ callee, (assignment T (.index n b i) v w).value.1 = [.at0 (callee ++ "(" ++ (expr ⟨T, w.names⟩ b none).value ++
      ", " ++ (if T.isMap b then word (expr ⟨T, w.names⟩ i none).value else (expr ⟨T, w.names⟩ i none).value) ++ ", " ++
      word (expr ⟨T, w.names⟩ v none).value ++ ");")] := by
  have hcall (callee x y z : String) : callCode callee [x, y, z] ++ ";" =
      callee ++ "(" ++ x ++ ", " ++ y ++ ", " ++ z ++ ");" := by
    rw [callCode, commaSeparated, String.intercalate_cons_cons, String.intercalate_cons_cons,
      String.intercalate_singleton]
    simp [String.append_assoc]
  unfold assignment
  dsimp only
  split
  · exact ⟨"venice_map_set", congrArg (fun text => [Line.at0 text]) (hcall _ _ _ _)⟩
  · exact ⟨"venice_list_set", congrArg (fun text => [Line.at0 text]) (hcall _ _ _ _)⟩

theorem told_slot (h : StmtSlot T r s e asked k)
    (w : Writer Unit) : ∃ names, Told (stmt T r s w).value.1 (k (expr ⟨T, names⟩ e asked).value) := by
  cases h with
  | binding => exact ⟨w.names, told_at0 (within_tail _ _ _ _)⟩
  | target hi hf =>
    refine ⟨w.names, ?_⟩
    cases e with
    | index n b i => exact absurd rfl (hi n b i)
    | field n b x => exact absurd rfl (hf n b x)
    | _ => exact told_at0 (((Within.refl _).right _).right _)
  | @assigned _ t _ hi hf =>
    refine ⟨w.names, ?_⟩
    cases t with
    | index n b i => exact absurd rfl (hi n b i)
    | field n b x => exact absurd rfl (hf n b x)
    | _ => exact told_at0 (within_tail _ _ _ _)
  | @place s n b i v _ _ _ h =>
    obtain ⟨callee, hline⟩ := assignment_index (T := T) n b i v w
    have hlines : (stmt T r (.assign s (.index n b i) v) w).value.1 = _ := hline
    refine ⟨w.names, ?_⟩
    rw [hlines]
    apply told_at0
    cases h with
    | base => exact ((((within_tail callee "(" _ ", ").right _).right _).right _).right _
    | position hb =>
      rw [if_neg (Bool.eq_false_iff.mp hb)]
      exact ((within_tail _ ", " _ ", ").right _).right _
    | entry hb =>
      rw [if_pos hb]
      exact ((within_tail _ ", " _ ", ").right _).right _
  | @element s n b i =>
    obtain ⟨callee, hline⟩ := assignment_index (T := T) n b i e w
    have hlines : (stmt T r (.assign s (.index n b i) e) w).value.1 = _ := hline
    refine ⟨w.names, ?_⟩
    rw [hlines]
    exact told_at0 (within_tail _ _ _ _)
  | result => exact ⟨w.names, told_at0 (.refl _)⟩
  | expr => exact ⟨w.names, told_at0 (.refl _)⟩
  | clause hc =>
    obtain ⟨names, htold⟩ := told_clause (T := T) (r := r) hc true w
    exact ⟨names, htold.mono fun l hl => List.mem_append_left _ (List.mem_append_left _ hl)⟩
  | condition => exact ⟨w.names, told_blockLines (.refl _) _⟩
  | iterable => exact ⟨w.names, _, List.mem_cons_self, within_tail _ _ _ _⟩

/-- Whenever the first lines are written, the second ones are written among them, with some names in scope. -/
def Prints (m m' : Emit (List Line)) : Prop :=
  ∀ w, ∃ w', ∀ text, Told (m' w').value.1 text → Told (m w).value.1 text

variable {m m' : Emit (List Line)}

theorem Prints.inScope (h : Prints m m') : Prints (Emit.inScope m) m' :=
  fun w => h { w with names := w.names.enter }

theorem Prints.behind (h : Prints m m') (first : Emit (List Line)) : Prints (do
    let ls ← first
    let rest ← m
    return ls ++ rest) m' := by
  intro w
  obtain ⟨w', hin⟩ := h (first w).value.2
  exact ⟨w', fun text htext => (hin text htext).mono (List.subset_append_right _ _)⟩

theorem Prints.head (h : Prints (stmt T r s) m) (ss : List Stmt) : Prints (block T r (s :: ss)) m := by
  intro w
  obtain ⟨w', hin⟩ := h w
  exact ⟨w', fun text htext => (hin text htext).mono (List.subset_append_left _ _)⟩

theorem prints_clauses {cs : List Clause} {c : Clause} (hc : c ∈ cs) (h : Prints (block T r c.body) m) (first : Bool) :
    Prints (clauses T r first cs) m := by
  induction cs generalizing first with
  | nil => cases hc
  | cons d cs ih =>
    obtain ⟨cond, body⟩ := d
    intro w
    rcases List.mem_cons.mp hc with rfl | hc
    · obtain ⟨w', hin⟩ := h.inScope w
      refine ⟨w', fun text htext => (hin text htext).indented.mono fun l hl => ?_⟩
      exact List.mem_cons_of_mem _ (List.mem_append_left _ hl)
    · obtain ⟨w', hin⟩ := ih hc false (Emit.inScope (block T r body) w).value.2
      refine ⟨w', fun text htext => (hin text htext).mono fun l hl => ?_⟩
      exact List.mem_cons_of_mem _ (List.mem_append_right _ hl)

theorem prints_of_stands {result : Option Ty} {Γ Δ : Env} {b : Block} (h : Stands T result Γ b Δ s)
    (hno : ∀ s ∈ Stmt.blockStmts b, ∀ sp e as o, s ≠ .matchOn sp e as o) (r : Ty) :
    Prints (block T r b) (stmt T r s) := by
  induction h with
  | here => exact Prints.head (fun w => ⟨w, fun _ h => h⟩) _
  | after _ _ ih =>
    have hrest := ih fun s hs => hno s (List.mem_cons_of_mem _ (List.mem_append_right _ hs))
    exact hrest.behind _
  | clause hc _ ih =>
    have hbody := ih fun s hs => hno s (List.mem_cons_of_mem _ (List.mem_append_left _ (List.mem_append_left _
      (Stmt.mem_clauseStmts.mpr ⟨_, hc, hs⟩))))
    refine Prints.head (fun w => ?_) _
    obtain ⟨w', hin⟩ := prints_clauses hc hbody true w
    exact ⟨w', fun text htext => (hin text htext).mono fun l hl => List.mem_append_left _ (List.mem_append_left _ hl)⟩
  | @otherwise _ _ _ cs _ _ _ _ ih =>
    have hbody := ih fun s hs => hno s (List.mem_cons_of_mem _ (List.mem_append_left _ (List.mem_append_right _ hs)))
    refine Prints.head (fun w => ?_) _
    obtain ⟨w', hin⟩ := hbody.inScope (clauses T r true cs w).value.2
    refine ⟨w', fun text htext => (hin text htext).indented.mono fun l hl => ?_⟩
    exact List.mem_append_left _ (List.mem_append_right _ (List.mem_cons_of_mem _ hl))
  | whileLoop _ ih =>
    have hbody := ih fun s hs => hno s (List.mem_cons_of_mem _ (List.mem_append_left _ hs))
    refine Prints.head (fun w => ?_) _
    obtain ⟨w', hin⟩ := hbody.inScope w
    exact ⟨w', fun text htext => (hin text htext).blockLines _⟩
  | forEach _ _ ih =>
    have hbody := ih fun s hs => hno s (List.mem_cons_of_mem _ (List.mem_append_left _ hs))
    refine Prints.head (fun w => ?_) _
    -- The body is written after the names that the loop binds on each round.
    obtain ⟨w', hin⟩ := (hbody.behind (loopVars _ _ _ _)).inScope _
    exact ⟨w', fun text htext => ((hin text htext).blockLines _).mono (List.subset_cons_self _ _)⟩
  | arm | default => exact absurd rfl (hno _ List.mem_cons_self _ _ _ _)

end Stmts

section Items

variable {T : TypeTable} {e : Expr} {asked : Option Ty} {k : String → String}

/-- All lines that are written in functions. -/
def Sections.code (s : Sections) : List Line := s.functions ++ s.main

theorem Sections.code_subset_left (a b : Sections) : a.code ⊆ (a.append b).code := by
  intro l hl
  rcases List.mem_append.mp hl with hl | hl
  · exact List.mem_append_left _ (List.mem_append_left _ hl)
  · exact List.mem_append_right _ (List.mem_append_left _ hl)

theorem Sections.code_subset_right (a b : Sections) : b.code ⊆ (a.append b).code := by
  intro l hl
  rcases List.mem_append.mp hl with hl | hl
  · exact List.mem_append_left _ (List.mem_append_right _ hl)
  · exact List.mem_append_right _ (List.mem_append_right _ hl)

theorem told_item {Γ Δ : Env} {s' : Stmt} (h : Stands T none Γ [s] Δ s')
    (hno : ∀ t ∈ s :: s.nested, ∀ sp e as o, t ≠ .matchOn sp e as o) (hslot : StmtSlot T .any s' e asked k)
    (w : Writer Unit) :
    ∃ names, Told (item T (.stmt s) w).value.1.code (k (expr ⟨T, names⟩ e asked).value) := by
  rw [← Stmt.blockStmts_singleton] at hno
  cases s with
  | letVar sp x a v =>
    cases h with
    | here =>
      cases hslot with
      | binding => exact ⟨w.names, told_at0 (within_tail _ _ _ _)⟩
    | after _ h => cases h
  | _ =>
    obtain ⟨w', hin⟩ := prints_of_stands h hno .any w
    obtain ⟨names, htold⟩ := told_slot hslot w'
    refine ⟨names, (hin _ htold).mono fun l hl => ?_⟩
    exact (List.mem_append.mp hl).resolve_right List.not_mem_nil

theorem function_code {f : FunctionDecl} (hsig : T.function? f.name.name = some sig)
    (w : Writer Unit) : ∃ head w', (function T f w).value.1.code =
      blockLines head (block T sig.result f.body w').value.1 ++ [.at0 ""] := by
  unfold function
  simp only [hsig]
  exact ⟨_, _, List.append_nil _⟩

theorem told_function {Γ Δ : Env} {f : FunctionDecl} {ts : List Ty} {ls : List (Option String)} {r : Ty}
    (hf : FunctionTyped T Γ f (.function ts ls r))
    (h : Stands T (some r) (declareAll (f.params.map Binding.name) ts (declare f.name (.function ts ls r) Γ))
      f.body Δ s)
    (hno : ∀ t ∈ Stmt.blockStmts f.body, ∀ sp e as o, t ≠ .matchOn sp e as o) (hslot : StmtSlot T r s e asked k)
    (w : Writer Unit) :
    ∃ names, Told (function T f w).value.1.code (k (expr ⟨T, names⟩ e asked).value) := by
  have hbody := prints_of_stands h hno r
  cases hf with
  | mk _ _ hsig _ =>
    obtain ⟨head, w₁, hcode⟩ := function_code hsig w
    obtain ⟨w', hin⟩ := hbody w₁
    obtain ⟨names, htold⟩ := told_slot hslot w'
    rw [hcode]
    exact ⟨names, ((hin _ htold).blockLines head).mono (List.subset_append_left _ _)⟩

/-- Every expression of a statement is written in the program, at the type that it is asked for. -/
theorem told_of_stands {Γ Δ : Env} {is : List Item} {result : Option Ty}
    (h : ItemStands T Γ is Δ result s) (hno : ∀ t ∈ is.flatMap Item.stmts, ∀ sp e as o, t ≠ .matchOn sp e as o)
    (hslot : StmtSlot T (result.getD .any) s e asked k) (w : Writer Unit) :
    ∃ names, Told (sections T is w).value.1.code (k (expr ⟨T, names⟩ e asked).value) := by
  have hfirst {a b : Sections} {text : String} (h : Told a.code text) : Told (a.append b).code text :=
    h.mono (a.code_subset_left b)
  have hlater {a b : Sections} {text : String} (h : Told b.code text) : Told (a.append b).code text :=
    h.mono (a.code_subset_right b)
  induction h generalizing w with
  | stmt h =>
    rw [List.flatMap_cons] at hno
    obtain ⟨names, htold⟩ := told_item h (fun t ht => hno t (List.mem_append_left _ ht)) hslot w
    exact ⟨names, hfirst htold⟩
  | body hf h =>
    rw [List.flatMap_cons] at hno
    obtain ⟨names, htold⟩ := told_function hf h (fun t ht => hno t (List.mem_append_left _ ht)) hslot w
    exact ⟨names, hfirst htold⟩
  | @afterStmt _ _ _ s _ _ _ _ _ ih =>
    rw [List.flatMap_cons] at hno
    obtain ⟨names, htold⟩ := ih (fun t ht => hno t (List.mem_append_right _ ht)) hslot (item T (.stmt s) w).value.2
    exact ⟨names, hlater htold⟩
  | @afterFunction _ _ sp f _ _ _ _ _ _ ih =>
    rw [List.flatMap_cons] at hno
    obtain ⟨names, htold⟩ :=
      ih (fun t ht => hno t (List.mem_append_right _ ht)) hslot (item T (.function sp f) w).value.2
    exact ⟨names, hlater htold⟩

theorem told_lines {p : Program} {text : String}
    (h : Told (sections T p.items ⟨{ space := space }, ()⟩).value.1.code text) : Told (lines T p) text := by
  obtain ⟨l, hl, hin⟩ := h
  rcases List.mem_append.mp hl with hl | hl
  · exact ⟨l, List.mem_append_left _ (List.mem_append_right _ hl), hin⟩
  · have hbody : Told ((sections T p.items ⟨{ space := space }, ()⟩).value.1.main ++ [.at0 "return 0;"]) text :=
      ⟨l, List.mem_append_left _ hl, hin⟩
    exact (hbody.blockLines _).mono (List.subset_append_right _ _)

end Items

end Native

end Gondola
