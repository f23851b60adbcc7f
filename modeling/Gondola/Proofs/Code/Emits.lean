import Gondola.Proofs.Code.Parts
import Gondola.Proofs.Names.Distinct

/-! What the writing of a program gives: rules for what a fragment holds and needs, and for what a step of a writer
returns. -/
namespace Gondola

def Free {α : Type} (_ : α) : Prop := True

/-- A property of the needs of a part of the output, in the order in which they come up, that parts put together share
with their own parts. -/
structure Needs (ν : Type) where
  Hold : List ν → Prop
  nil : Hold []
  append {xs ys : List ν} : Hold xs → Hold ys → Hold (xs ++ ys)

/-- What needs the one thing needs the other as well. -/
def Needs.implies {ν : Type} (m n : ν) : Needs ν where
  Hold xs := m ∈ xs → n ∈ xs
  nil := nofun
  append h h' hin := List.mem_append.mpr ((List.mem_append.mp hin).imp h h')

theorem Needs.implies_singleton {ν : Type} {m n k : ν} (h : m ≠ k) : (implies m n).Hold [k] :=
  fun hin => absurd (List.mem_singleton.mp hin) h

/-- A part of the output whose needs are as they should be, and which has a property if all that it needs is there. -/
structure Given {ν α : Type} (N : Needs ν) (D : ν → Prop) (P : α → Prop) (x : Fragment ν α) : Prop where
  needs : N.Hold x.needs
  value : (∀ n ∈ x.needs, D n) → P x.value

section Given

variable {ν α β : Type} {N : Needs ν} {D : ν → Prop} {P P' : α → Prop} {Q : β → Prop} {x : Fragment ν α}

theorem Given.pure {a : α} (h : P a) : Given N D P (Pure.pure a) := ⟨N.nil, fun _ => h⟩

theorem given_use (u : Use) : Given N D Free (Fragment.use u) := ⟨N.nil, fun _ => True.intro⟩

theorem given_need {n : ν} (h : N.Hold [n]) : Given N D (fun _ => D n) (Fragment.need n) :=
  ⟨h, fun hD => hD n List.mem_cons_self⟩

theorem Given.mono (h : Given N D P x) (himp : ∀ a, P a → P' a) : Given N D P' x :=
  ⟨h.needs, fun hD => himp _ (h.value hD)⟩

theorem Given.bindValue {f : α → Fragment ν β} (hx : Given N D P x)
    (hf : Given N D (fun b => P x.value → Q b) (f x.value)) : Given N D Q (x >>= f) := by
  refine ⟨N.append hx.needs hf.needs, fun hD => ?_⟩
  rw [Fragment.needs_bind] at hD
  obtain ⟨hfirst, hrest⟩ := List.forall_mem_append.mp hD
  exact hf.value hrest (hx.value hfirst)

/-- What is needed may not depend on what has been shown of the first part. -/
theorem Given.bind {f : α → Fragment ν β} (hx : Given N D P x) (hf : ∀ a, Given N D (fun b => P a → Q b) (f a)) :
    Given N D Q (x >>= f) :=
  hx.bindValue (hf x.value)

theorem Given.map {f : α → β} (hx : Given N D P x) (hf : ∀ a, P a → Q (f a)) : Given N D Q (f <$> x) :=
  hx.bind fun a => .pure (hf a)

theorem Given.sequence {xs : List (Fragment ν α)} (h : ∀ x ∈ xs, Given N D P x) :
    Given N D (fun as => ∀ a ∈ as, P a) (Fragment.sequence xs) := by
  induction xs with
  | nil => exact .pure (List.forall_mem_nil _)
  | cons x xs ih =>
    have hxs := ih fun y hy => h y (List.mem_cons_of_mem _ hy)
    exact (h x List.mem_cons_self).bind fun _ => hxs.bind fun _ => .pure fun has ha =>
      List.forall_mem_cons.mpr ⟨ha, has⟩

end Given

namespace Names

/-- Names of a target language, each of them spelled by itself. -/
structure In (ns : Namespace) (n : Names) : Prop where
  space : n.space = ns
  formed : n.Formed

variable {ns : Namespace} {n : Names} {x : Ident}

theorem In.apply (h : n.In ns) (op : Op) : (op.apply n).In ns :=
  ⟨(op.steps n).space.trans h.space, (op.steps n).formed h.formed⟩

theorem In.spell (h : n.In ns) (hx : IsIdentifier x.name) : IsSpelled ns (n.spell x.name) := by
  unfold Names.spell
  split
  · rename_i s hs
    obtain ⟨f, hstem, htext⟩ := h.formed.lookup? hs
    exact ⟨f, hstem ▸ hx.isWord, by rw [htext, h.space]⟩
  · exact ⟨.plain x.name, hx.isWord, by rw [h.space]; rfl⟩

theorem In.ident (h : n.In ns) {name : String} (hname : IsWord name) : IsSpelled ns (n.space.ident name) :=
  ⟨.plain name, hname, by rw [h.space]; rfl⟩

theorem In.returned (h : n.In ns) (op : Op) {r : Returned} (hr : op.returned? n = some r) (hform : IsWord r.form.stem) :
    IsSpelled ns r.text :=
  ⟨r.form, hform, by rw [(op.steps n).text r hr, h.space]⟩

theorem In.declare (h : n.In ns) (hx : IsIdentifier x.name) : IsSpelled ns (n.declare x).1 := by
  refine h.returned (.declare x) rfl ?_
  dsimp only
  split
  · exact hx.isWord
  · exact hx.isWord

end Names

section Emits

variable {ε ν α β : Type} {ns : Namespace} {N : Needs ν} {E : ε → Prop} {D : ν → Prop} {P P' : α → Prop} {Q : β → Prop}

/-- The same of what a step returns, as long as all names are spelled by themselves and what is kept track of beside
them has a property of its own. Both is so after it again. -/
def Emits (ns : Namespace) (N : Needs ν) (E : ε → Prop) (D : ν → Prop) (P : α → Prop) (m : Emit ε ν α) : Prop :=
  ∀ w, w.names.In ns → E w.extra →
    ((m w).value.2.names.In ns ∧ E (m w).value.2.extra) ∧ Given N D (fun r => P r.1) (m w)

theorem Emits.pure {a : α} (h : P a) : Emits ns N E D P (Pure.pure a : Emit ε ν α) :=
  fun _ hw he => ⟨⟨hw, he⟩, .pure h⟩

theorem Emits.bind {m : Emit ε ν α} {f : α → Emit ε ν β} (hm : Emits ns N E D P m)
    (hf : ∀ a, Emits ns N E D (fun b => P a → Q b) (f a)) : Emits ns N E D Q (m >>= f) := by
  intro w hw he
  -- The names after the first step are right also if nothing is known of what it needs.
  obtain ⟨⟨hw', he'⟩, hfirst⟩ := hm w hw he
  obtain ⟨hafter, hrest⟩ := hf (m w).value.1 (m w).value.2 hw' he'
  exact ⟨hafter, hfirst.bindValue (f := fun r => f r.1 r.2) hrest⟩

theorem Emits.map {m : Emit ε ν α} {f : α → β} (hm : Emits ns N E D P m) (hf : ∀ a, P a → Q (f a)) :
    Emits ns N E D Q (f <$> m) :=
  hm.bind fun a => .pure (hf a)

theorem Emits.mono {m : Emit ε ν α} (hm : Emits ns N E D P m) (h : ∀ a, P a → P' a) : Emits ns N E D P' m :=
  fun w hw he => ⟨(hm w hw he).1, (hm w hw he).2.mono fun r => h r.1⟩

theorem emits_render {f : Names → Fragment ν α} (h : ∀ names : Names, names.In ns → Given N D P (f names)) :
    Emits ns N E D P (Emit.render f : Emit ε ν α) :=
  fun w hw he => ⟨⟨hw, he⟩, (h w.names hw).bind fun _ => .pure id⟩

theorem emits_space : Emits ns N E D (· = ns) (Emit.space : Emit ε ν Namespace) :=
  fun _ hw he => ⟨⟨hw, he⟩, .pure hw.space⟩

theorem emits_need {n : ν} (h : N.Hold [n]) : Emits ns N E D (fun _ => D n) (Emit.need n : Emit ε ν Unit) :=
  fun _ hw he => ⟨⟨hw, he⟩, (given_need h).bind fun _ => .pure id⟩

theorem emits_declare {x : Ident} (hx : IsIdentifier x.name) :
    Emits ns N E D (IsSpelled ns) (Emit.declare x : Emit ε ν String) :=
  fun _ hw he => ⟨⟨hw.apply (.declare x), he⟩, .pure (hw.declare hx)⟩

theorem emits_param {x : Ident} (hx : IsIdentifier x.name) :
    Emits ns N E D (IsSpelled ns) (Emit.param x : Emit ε ν String) :=
  fun _ hw he => ⟨⟨hw.apply (.param x), he⟩, .pure (hw.returned (.param x) rfl hx.isWord)⟩

theorem emits_temp {stem : String} (h : IsWord stem) :
    Emits ns N E D (IsSpelled ns) (Emit.temp stem : Emit ε ν String) :=
  fun _ hw he => ⟨⟨hw.apply (.temp stem), he⟩, .pure (hw.returned (.temp stem) rfl h)⟩

theorem emits_declareAll {xs : List Ident} (h : ∀ x ∈ xs, IsIdentifier x.name) :
    Emits ns N E D (fun texts => ∀ t ∈ texts, IsSpelled ns t) (Emit.declareAll xs : Emit ε ν (List String)) := by
  induction xs with
  | nil => exact .pure (List.forall_mem_nil _)
  | cons x xs ih =>
    have hxs := ih fun y hy => h y (List.mem_cons_of_mem _ hy)
    exact (emits_declare (h x List.mem_cons_self)).bind fun _ => hxs.bind fun _ => .pure fun hts ht =>
      List.forall_mem_cons.mpr ⟨ht, hts⟩

theorem emits_params {xs : List Ident} (h : ∀ x ∈ xs, IsIdentifier x.name) :
    Emits ns N E D (fun texts => ∀ t ∈ texts, IsSpelled ns t) (Emit.params xs : Emit ε ν (List String)) := by
  induction xs with
  | nil => exact .pure (List.forall_mem_nil _)
  | cons x xs ih =>
    have hxs := ih fun y hy => h y (List.mem_cons_of_mem _ hy)
    exact (emits_param (h x List.mem_cons_self)).bind fun _ => hxs.bind fun _ => .pure fun hts ht =>
      List.forall_mem_cons.mpr ⟨ht, hts⟩

theorem emits_op (op : Names.Op) : Emits ns N E D Free (Emit.mapNames op.apply : Emit ε ν Unit) :=
  fun _ hw he => ⟨⟨hw.apply op, he⟩, .pure True.intro⟩

theorem Emits.inScope {body : Emit ε ν α} (h : Emits ns N E D P body) : Emits ns N E D P (Emit.inScope body) :=
  (emits_op .enter).bind fun _ => h.bind fun _ => (emits_op .leave).bind fun _ => .pure fun _ ha _ => ha

theorem Emits.inFunction {body : Emit ε ν α} (h : Emits ns N E D P body) : Emits ns N E D P (Emit.inFunction body) :=
  (emits_op .enterFunction).bind fun _ => h.bind fun _ => (emits_op .leaveFunction).bind fun _ => .pure fun _ ha _ => ha

theorem Emits.run {extra : ε} {body : Emit ε ν α} (h : Emits ns N E D P body) (he : E extra) :
    Given N D P (Emit.run ns extra body) :=
  (h ⟨{ space := ns }, extra⟩ ⟨rfl, nofun⟩ he).2.bind fun _ => .pure id

end Emits

end Gondola
