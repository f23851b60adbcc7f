import Gondola.Code.Emit
import Gondola.Proofs.Typing.Parts
import Gondola.Proofs.Typing.Soundness
import Mathlib.Data.Fintype.EquivFin

/-! The arguments of a call and the parameters that they bind, one to one. -/
namespace Gondola

namespace Signature

variable {α : Type}

theorem length_fillSlots (s : Signature) (i : Nat) (args : List (Option String × α))
    (slots : List (Option α)) : (s.fillSlots i args slots).length = slots.length := by
  induction args generalizing i slots with
  | nil => rfl
  | cons arg args ih =>
    obtain ⟨label, a⟩ := arg
    exact (ih (i + 1) _).trans List.length_set

theorem fillSlots_of_unused {s : Signature} {i q : Nat} {args : List (Option String × α)}
    {slots : List (Option α)}
    (h : ∀ k arg, args[k]? = some arg → s.slot (i + k) arg.1 ≠ q) :
    (s.fillSlots i args slots)[q]? = slots[q]? := by
  induction args generalizing i slots with
  | nil => rfl
  | cons arg args ih =>
    obtain ⟨label, a⟩ := arg
    have hfirst : s.slot i label ≠ q := h 0 (label, a) rfl
    have hrest : ∀ k arg, args[k]? = some arg → s.slot (i + 1 + k) arg.1 ≠ q := by
      intro k arg hk
      have hne := h (k + 1) arg hk
      rwa [Nat.add_comm k 1, ← Nat.add_assoc] at hne
    calc
      (s.fillSlots (i + 1) args (slots.set (s.slot i label) (some a)))[q]?
          = (slots.set (s.slot i label) (some a))[q]? := ih hrest
      _ = slots[q]? := List.getElem?_set_ne hfirst

theorem fillSlots_of_used {s : Signature} {i k : Nat} {args : List (Option String × α)}
    {arg : Option String × α} {slots : List (Option α)} (hk : args[k]? = some arg)
    (hin : s.slot (i + k) arg.1 < slots.length)
    (hlast : ∀ j other, k < j → args[j]? = some other →
      s.slot (i + j) other.1 ≠ s.slot (i + k) arg.1) :
    (s.fillSlots i args slots)[s.slot (i + k) arg.1]? = some (some arg.2) := by
  induction args generalizing i k slots with
  | nil => cases hk
  | cons first args ih =>
    cases k with
    | zero =>
      obtain rfl := Option.some.inj hk
      obtain ⟨label, a⟩ := first
      have hrest : ∀ j other, args[j]? = some other →
          s.slot (i + 1 + j) other.1 ≠ s.slot i label := by
        intro j other hj
        have hne := hlast (j + 1) other (Nat.succ_pos j) hj
        rwa [Nat.add_comm j 1, ← Nat.add_assoc] at hne
      calc
        (s.fillSlots (i + 1) args (slots.set (s.slot i label) (some a)))[s.slot i label]?
            = (slots.set (s.slot i label) (some a))[s.slot i label]? := fillSlots_of_unused hrest
        _ = some (some a) := List.getElem?_set_self hin
    | succ k =>
      obtain ⟨label, a⟩ := first
      have hshift (j : Nat) : i + (j + 1) = i + 1 + j := by omega
      rw [hshift] at hin hlast ⊢
      apply ih hk
      · rwa [List.length_set]
      · intro j other hj hother
        rw [← hshift j]
        exact hlast (j + 1) other (Nat.succ_lt_succ hj) hother

theorem order_map_eq_ofFn {β : Type} {s : Signature} {as : List β} {m : Nat}
    (f : β → Option String × α) (place : Fin as.length ≃ Fin m)
    (hplace : ∀ i : Fin as.length, s.slot i (f as[i]).1 = place i) :
    s.order (as.map f) = List.ofFn fun q => (f as[place.symm q]).2 := by
  have hm : as.length = m := Fin.equiv_iff_eq.mp ⟨place⟩
  have hslots : s.fillSlots 0 (as.map f) (List.replicate (as.map f).length none) =
      List.ofFn fun q => some (f as[place.symm q]).2 := by
    apply List.ext_getElem?
    intro q
    by_cases hq : q < m
    · let i := place.symm ⟨q, hq⟩
      have hi : s.slot i (f as[i]).1 = q := by
        rw [hplace i, Equiv.apply_symm_apply]
      have hget : (as.map f)[i.val]? = some (f as[i]) := by
        rw [List.getElem?_map, List.getElem?_eq_getElem i.isLt]
        rfl
      have hin : s.slot (0 + i) (f as[i]).1 <
          (List.replicate (as.map f).length (none : Option α)).length := by
        rw [Nat.zero_add, hi, List.length_replicate, List.length_map, hm]
        exact hq
      have hlast : ∀ j other, i.val < j → (as.map f)[j]? = some other →
          s.slot (0 + j) other.1 ≠ s.slot (0 + i) (f as[i]).1 := by
        intro j other hj hother
        rw [List.getElem?_map, Option.map_eq_some_iff] at hother
        obtain ⟨b, hb, rfl⟩ := hother
        obtain ⟨hlt, rfl⟩ := List.getElem?_eq_some_iff.mp hb
        rw [Nat.zero_add, Nat.zero_add, hplace i]
        intro hsame
        have hji : (⟨j, hlt⟩ : Fin as.length) = i :=
          place.injective (Fin.ext ((hplace ⟨j, hlt⟩).symm.trans hsame))
        exact absurd (congrArg Fin.val hji) (Nat.ne_of_gt hj)
      have hused := fillSlots_of_used hget hin hlast
      rw [Nat.zero_add, hi] at hused
      rw [hused, List.getElem?_ofFn, dif_pos hq]
    · rw [List.getElem?_eq_none, List.getElem?_eq_none]
      · rw [List.length_ofFn]
        omega
      · rw [length_fillSlots, List.length_replicate, List.length_map]
        omega
  calc
    s.order (as.map f) = (List.ofFn fun q => some (f as[place.symm q]).2).filterMap id :=
      congrArg (List.filterMap id) hslots
    _ = ((List.ofFn fun q => (f as[place.symm q]).2).map some).filterMap id := by
      rw [List.map_ofFn]
      rfl
    _ = List.ofFn fun q => (f as[place.symm q]).2 := by
      rw [List.filterMap_map]
      exact List.filterMap_some

theorem position?_of_binds {s : Signature} {x : Ident} {position p : Nat}
    (h : Typing.Binds s.labels position (some x) p) : s.position? x.name = some p := by
  cases h with
  | label h hfirst =>
    obtain ⟨hp, hx⟩ := List.getElem?_eq_some_iff.mp h
    rw [position?, List.findIdx?_eq_some_iff_getElem]
    refine ⟨hp, by rw [hx, beq_self_eq_true], ?_⟩
    intro q hq heq
    have hlt : q < s.labels.length := Nat.lt_trans hq hp
    apply hfirst q hq
    rw [List.getElem?_eq_getElem hlt, eq_of_beq heq]

end Signature

namespace Checker

/-- No argument without a label comes after one with a label. -/
def KeywordsLast (as : List Argument) : Prop :=
  as.Pairwise fun a b => b.label = none → a.label = none

theorem ensures_label (sig : Signature) (position : Nat) (afterKeyword : Bool) (a : Argument) :
    Ensures (parameterOf sig position afterKeyword a) (afterKeyword = true → a.label ≠ none) := by
  obtain ⟨label, value⟩ := a
  cases label with
  | none =>
    cases afterKeyword with
    | false => exact fun _ _ _ h => nomatch h
    | true => exact ensures_throw _
  | some x => exact fun _ _ _ _ => Option.some_ne_none x

theorem ensures_keywordsLast (scope : Nat) (sig : Signature) (as : List Argument) :
    ∀ (position : Nat) (bound : List Nat) (afterKeyword : Bool),
      Ensures (checkArguments scope sig position bound afterKeyword as)
        (KeywordsLast as ∧ (afterKeyword = true → ∀ a ∈ as, a.label ≠ none)) := by
  induction as with
  | nil => exact fun _ _ _ _ _ _ => ⟨.nil, fun _ _ ha => nomatch ha⟩
  | cons a as ih =>
    intro position bound afterKeyword c r hr
    obtain ⟨label, value⟩ := a
    have hfirst : afterKeyword = true → label ≠ none :=
      Ensures.first (ensures_label sig position afterKeyword ⟨label, value⟩) c r hr
    have htail : Ensures (checkArguments scope sig position bound afterKeyword (⟨label, value⟩ :: as))
        (KeywordsLast as ∧ ((afterKeyword || label.isSome) = true → ∀ a ∈ as, a.label ≠ none)) := by
      refine .later fun p => ?_
      split
      · exact ensures_throw _
      · split
        · exact ensures_throw _
        · exact .later fun _ => .later fun _ => ih _ _ _
    obtain ⟨hlast, hrest⟩ := htail c r hr
    refine ⟨List.pairwise_cons.mpr ⟨?_, hlast⟩, ?_⟩
    · intro b hb hnone
      by_contra hlabel
      have hsome : label.isSome = true := Option.isSome_iff_ne_none.mpr hlabel
      exact hrest (by rw [hsome, Bool.or_true]) b hb hnone
    · intro hafter b hb
      rcases List.mem_cons.mp hb with rfl | hb
      · exact hfirst hafter
      · exact hrest (by rw [hafter, Bool.true_or]) b hb

theorem ensures_labelled (scope : Nat) (struct : String) (fields : List (String × Ty))
    (as : List Argument) : ∀ given : List String,
      Ensures (checkFields scope struct fields given as) (∀ a ∈ as, a.label ≠ none) := by
  induction as with
  | nil => exact fun _ _ _ _ _ ha => nomatch ha
  | cons a as ih =>
    intro given
    obtain ⟨label, value⟩ := a
    cases label with
    | none => exact ensures_throw _
    | some x =>
      have hrest : Ensures (checkFields scope struct fields given (⟨some x, value⟩ :: as))
          (∀ a ∈ as, a.label ≠ none) := by
        unfold checkFields
        split
        · exact ensures_throw _
        · split
          · exact ensures_throw _
          · exact .later fun _ => .later fun _ => ih _
      intro c r hr b hb
      rcases List.mem_cons.mp hb with rfl | hb
      · exact Option.some_ne_none x
      · exact hrest c r hr b hb

theorem Kept.keywordsLast {T : TypeTable} {n : Node} {c : Expr} {as : List Argument}
    (h : Kept T (.call n c as)) : KeywordsLast as := by
  obtain ⟨_, rest, s, t, s', -, -, -, hr, -⟩ := h
  have hcall : Ensures (checkExpr (rest.length + 1) (.call n c as)) (KeywordsLast as) := by
    apply Ensures.call
    · exact fun sig s r hs => (ensures_keywordsLast _ sig as 0 [] false s r hs).1
    · intro name fields s r hs
      have hall := ensures_labelled _ name fields as [] s r hs
      exact List.pairwise_of_forall_mem_list fun a _ b hb hnone => absurd hnone (hall b hb)
  exact hcall s _ hr

end Checker

namespace Typing

variable {T : TypeTable}

/-- The arguments of a call bind the parameters of the callee one to one. -/
structure ArgumentsBound (T : TypeTable) (sig : Signature) (as : List Argument)
    (place : Fin as.length ≃ Fin sig.params.length) : Prop where
  /-- The place of an argument is the parameter that the check chooses for it. -/
  chosen : ∀ i : Fin as.length,
    Checker.parameterOf sig i ((as.take i).any fun a => a.label.isSome) as[i] = pure (place i).val
  unlabelled_first : ∀ i j : Fin as.length, i < j → as[j].label = none → as[i].label = none
  position : ∀ i : Fin as.length, as[i].label = none → (place i).val = i.val
  /-- A label stands at one parameter, which is the place of the argument. -/
  label : ∀ (i : Fin as.length) (x : Ident), as[i].label = some x →
    ∀ q : Fin sig.params.length, sig.labels[q.val]? = some (some x.name) ↔ q = place i
  fits : ∀ i : Fin as.length, Fits T sig.params[place i] as[i].value

/-- In a typed call of a function each argument has a parameter of its own, and none is left over. -/
theorem WellTyped.place {Γ : Env} {n : Node} {c : Expr} {as : List Argument} {ps : List Ty}
    {ls : List (Option String)} {r : Ty} (h : WellTyped T Γ (.call n c as))
    (hc : T.typeOf? c = some (.function ps ls r)) :
    ∃ place : Fin as.length ≃ Fin ps.length,
      ∀ i : Fin as.length, Binds ls i as[i].label (place i) ∧ Fits T ps[place i] as[i].value := by
  cases h with
  | construct _ hct =>
    rw [hct] at hc
    cases hc
  | call _ hct hlen _ hps hone =>
    rw [hct] at hc
    cases hc
    have hplace : ∀ i : Fin as.length, ∃ p : Fin ps.length,
        Binds ls i as[i].label p ∧ Fits T ps[p] as[i].value := by
      intro i
      obtain ⟨p, t, hb, ht, hfit⟩ := hps i as[i] (List.getElem?_eq_getElem i.isLt)
      obtain ⟨hp, rfl⟩ := List.getElem?_eq_some_iff.mp ht
      exact ⟨⟨p, hp⟩, hb, hfit⟩
    choose place hplace using hplace
    have hinj : Function.Injective place := by
      intro i j hij
      have hj : Binds ls j as[j].label (place i) := hij ▸ (hplace j).1
      apply Fin.ext
      exact hone i j as[i] as[j] (place i) (List.getElem?_eq_getElem i.isLt)
        (List.getElem?_eq_getElem j.isLt) (hplace i).1 hj
    have hbij : Function.Bijective place := by
      rw [Fintype.bijective_iff_injective_and_card, Fintype.card_fin, Fintype.card_fin]
      exact ⟨hinj, hlen⟩
    exact ⟨.ofBijective place hbij, hplace⟩

section Places

variable {sig : Signature} {as : List Argument} {place : Fin as.length ≃ Fin sig.params.length}

theorem place_of_unlabelled (hbinds : ∀ i : Fin as.length, Binds sig.labels i as[i].label (place i))
    {i : Fin as.length} (hnone : as[i].label = none) : (place i).val = i.val := by
  have hi := hbinds i
  rw [hnone] at hi
  generalize (place i).val = p at hi
  cases hi
  rfl

theorem place_of_labelled (hbinds : ∀ i : Fin as.length, Binds sig.labels i as[i].label (place i))
    {i : Fin as.length} {x : Ident} (hx : as[i].label = some x) :
    sig.position? x.name = some (place i).val := by
  have hi := hbinds i
  rw [hx] at hi
  exact sig.position?_of_binds hi

/-- No second parameter has the label of an argument: the argument that binds it would have to stand among
the unlabelled ones, and so would one that binds the first. -/
theorem eq_place_of_label (hfirst : Checker.KeywordsLast as)
    (hbinds : ∀ i : Fin as.length, Binds sig.labels i as[i].label (place i)) {i : Fin as.length}
    {x : Ident} (hx : as[i].label = some x) {q : Fin sig.params.length}
    (hq : sig.labels[q.val]? = some (some x.name)) : q = place i := by
  have hplace : Binds sig.labels i (some x) (place i) := hx ▸ hbinds i
  obtain ⟨j, rfl⟩ := place.surjective q
  cases hlabel : as[j].label with
  | some y =>
    have hj : Binds sig.labels j (some y) (place j) := hlabel ▸ hbinds j
    have hsame : y.name = x.name := by
      cases hj with
      | label hy _ =>
        rw [hq] at hy
        exact (Option.some.inj (Option.some.inj hy)).symm
    have hp := place_of_labelled hbinds hlabel
    rw [hsame, place_of_labelled hbinds hx] at hp
    exact Fin.ext (Option.some.inj hp).symm
  | none =>
    have hj := place_of_unlabelled hbinds hlabel
    by_contra hne
    -- The label stands at `place i` first, so before the position of `j`.
    have hlt : (place i).val < j.val := by
      cases hplace with
      | label _ hbefore =>
        have hle : ¬ (place j).val < (place i).val := fun hlt => hbefore _ hlt hq
        have hvals : (place j).val ≠ (place i).val := fun h => hne (Fin.ext h)
        omega
    obtain ⟨k, hk⟩ : ∃ k : Fin as.length, k.val = (place i).val :=
      ⟨⟨place i, Nat.lt_trans hlt j.isLt⟩, rfl⟩
    have hnone : as[k].label = none :=
      List.pairwise_iff_getElem.mp hfirst k j k.isLt j.isLt (hk ▸ hlt) hlabel
    have hki : k = i := place.injective (Fin.ext ((place_of_unlabelled hbinds hnone).trans hk))
    rw [hki, hx] at hnone
    cases hnone

theorem argumentsBound_of_keywordsLast (hfirst : Checker.KeywordsLast as)
    (hbinds : ∀ i : Fin as.length, Binds sig.labels i as[i].label (place i))
    (hfits : ∀ i : Fin as.length, Fits T sig.params[place i] as[i].value) :
    ArgumentsBound T sig as place where
  chosen := by
    intro i
    unfold Checker.parameterOf
    cases hlabel : as[i].label with
    | none =>
      have hbefore : ((as.take i).any fun a => a.label.isSome) = false := by
        rw [List.any_eq_false]
        intro a ha
        obtain ⟨k, hk, rfl⟩ := List.getElem_of_mem ha
        rw [List.length_take] at hk
        rw [List.getElem_take, List.pairwise_iff_getElem.mp hfirst k i _ i.isLt (by omega) hlabel]
        exact Bool.false_ne_true
      rw [hbefore, place_of_unlabelled hbinds hlabel]
      rfl
    | some x => simp only [place_of_labelled hbinds hlabel]
  unlabelled_first := by
    intro i j hij hnone
    exact List.pairwise_iff_getElem.mp hfirst i j i.isLt j.isLt hij hnone
  position := fun i hnone => place_of_unlabelled hbinds hnone
  label := by
    intro i x hx q
    refine ⟨eq_place_of_label hfirst hbinds hx, ?_⟩
    rintro rfl
    have hplace : Binds sig.labels i (some x) (place i) := hx ▸ hbinds i
    cases hplace with
    | label h _ => exact h
  fits := hfits

theorem slot_eq_place (hbinds : ∀ i : Fin as.length, Binds sig.labels i as[i].label (place i))
    (i : Fin as.length) : sig.slot i (as[i].label.map Ident.name) = place i := by
  unfold Signature.slot
  cases hlabel : as[i].label with
  | none => exact (place_of_unlabelled hbinds hlabel).symm
  | some x => simp only [Option.map_some, Option.bind_some, place_of_labelled hbinds hlabel, Option.getD_some]

end Places

/-- Every call of a function in a program that passes the check binds parameters and arguments one to one,
and ordering the arguments, or what is written for them in a target, puts each one at its parameter. -/
theorem argumentsBound_of_check {source : String} {p : Program} {n : Node} {c : Expr}
    {as : List Argument} {ps : List Ty} {ls : List (Option String)} {r : Ty}
    (hp : parseProgram source = .ok p) (hc : p.check = .ok T) (hcall : .call n c as ∈ p.parts)
    (hfun : T.typeOf? c = some (.function ps ls r)) :
    ∃ place : Fin as.length ≃ Fin ps.length,
      ArgumentsBound T ⟨ps, ls, r⟩ as place ∧
      Signature.order ⟨ps, ls, r⟩ (as.map Argument.labelled) =
        (List.ofFn fun q => as[place.symm q].value) ∧
      ∀ {α : Type} (code : Expr → α),
        Signature.order ⟨ps, ls, r⟩ (as.map fun a => (a.label.map Ident.name, code a.value)) =
          List.ofFn fun q => code as[place.symm q].value := by
  have hn := Parser.nodup_ids_of_parseProgram hp
  obtain ⟨Γ, htyped⟩ := Checker.wellTyped_of_check hn hc hcall
  obtain ⟨place, hplace⟩ := htyped.place hfun
  have hfirst := (Checker.kept_of_check hn hc _ hcall).keywordsLast
  have hbinds : ∀ i : Fin as.length, Binds ls i as[i].label (place i) := fun i => (hplace i).1
  have hslot : ∀ i : Fin as.length,
      Signature.slot ⟨ps, ls, r⟩ i (as[i].label.map Ident.name) = place i := slot_eq_place hbinds
  refine ⟨place, argumentsBound_of_keywordsLast hfirst hbinds fun i => (hplace i).2, ?_, ?_⟩
  · exact Signature.order_map_eq_ofFn Argument.labelled place hslot
  · intro α code
    exact Signature.order_map_eq_ofFn (fun a => (a.label.map Ident.name, code a.value)) place hslot

/-- Whether an expression is a call of a function with the given labels. -/
def callsWith (T : TypeTable) (labels : List (Option String)) : Expr → Bool
  | .call _ c as => (T.signatureOf? c).isSome && as.map (fun a => a.label.map Ident.name) == labels
  | _ => false

/-- A function in a variable, called with its labels in another order than its parameters. -/
theorem argumentsBound_keywords :
    ∃ p T n c as ps ls r, parseProgram ("fn f(a: int, b: bool, c: int) \x7b \x7d let g = f; " ++
        "g(1, c: 2, b: true)") = .ok p ∧ p.check = .ok T ∧ .call n c as ∈ p.parts ∧
      T.typeOf? c = some (.function ps ls r) ∧
      as.map (fun a => a.label.map Ident.name) = [none, some "c", some "b"] ∧
      ∃ place : Fin as.length ≃ Fin ps.length, ArgumentsBound T ⟨ps, ls, r⟩ as place ∧
        Signature.order ⟨ps, ls, r⟩ (as.map Argument.labelled) =
          List.ofFn fun q => as[place.symm q].value := by
  obtain ⟨p, T, hp, hc, e, he, hcall⟩ : ∃ p T, parseProgram ("fn f(a: int, b: bool, c: int) \x7b \x7d let g = f; " ++
      "g(1, c: 2, b: true)") = .ok p ∧ p.check = .ok T ∧
        ∃ e ∈ p.parts, callsWith T [none, some "c", some "b"] e = true :=
    exists_accepted _ (by decide +kernel) fun _ _ _ _ h => h
  unfold callsWith at hcall
  split at hcall
  · rename_i n c as
    rw [Bool.and_eq_true] at hcall
    obtain ⟨hsig, hlabels⟩ := hcall
    unfold TypeTable.signatureOf? at hsig
    split at hsig
    · rename_i ps ls r hfun
      obtain ⟨place, hbound, horder, -⟩ := argumentsBound_of_check hp hc he hfun
      exact ⟨p, T, n, c, as, ps, ls, r, hp, hc, he, hfun, eq_of_beq hlabels, place, hbound, horder⟩
    · cases hsig
  · cases hcall

end Typing

end Gondola
