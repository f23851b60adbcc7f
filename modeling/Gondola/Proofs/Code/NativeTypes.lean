import Gondola.Proofs.Code.Emits
import Gondola.Proofs.Code.Native
import Gondola.Proofs.Code.NativeWords
import Gondola.Proofs.Grammar.Leaves

/-! The function types that a C program needs. They come up in an order in which each can be defined by those before it.
-/
namespace Gondola.Native

open Text

/-- The definitions are those of function types, and where each of them stands, the function types in it are defined
already. -/
def Founded (D : Typedef → Prop) : List Typedef → Prop
  | [] => True
  | t :: ts => (∃ f : Signature, t = f.typedef) ∧ (∀ c ∈ t.result :: t.params, Part D c) ∧
      Founded (fun u => u = t ∨ D u) ts

section Founded

variable {D E : Typedef → Prop} {ts us : List Typedef} {t : Typedef}

theorem Founded.mono (h : Founded D ts) (hsub : ∀ t, D t → E t) : Founded E ts := by
  induction ts generalizing D E with
  | nil => trivial
  | cons t ts ih =>
    exact ⟨h.1, fun c hc => (h.2.1 c hc).mono hsub, ih h.2.2 fun u hu => hu.imp id (hsub u)⟩

theorem Founded.append (h : Founded D ts) (h' : Founded (fun u => u ∈ ts ∨ D u) us) : Founded D (ts ++ us) := by
  -- What is defined before the second list grows by each definition of the first one.
  induction ts generalizing D with
  | nil => exact h'.mono fun u hu => hu.elim (fun hin => absurd hin List.not_mem_nil) id
  | cons t ts ih =>
    refine ⟨h.1, h.2.1, ih h.2.2 (h'.mono fun u hu => ?_)⟩
    rcases hu with hin | hu
    · rcases List.mem_cons.mp hin with rfl | hin
      · exact .inr (.inl rfl)
      · exact .inl hin
    · exact .inr (.inr hu)

theorem Founded.of_append (h : Founded D (ts ++ us)) : Founded (fun u => u ∈ ts ∨ D u) us := by
  induction ts generalizing D with
  | nil => exact h.mono fun _ => .inr
  | cons t ts ih =>
    refine (ih h.2.2).mono fun u hu => ?_
    rcases hu with hin | rfl | hu
    · exact .inl (List.mem_cons_of_mem _ hin)
    · exact .inl List.mem_cons_self
    · exact .inr hu

theorem Founded.mem (h : Founded D ts) (ht : t ∈ ts) : ∃ f : Signature, t = f.typedef := by
  induction ts generalizing D with
  | nil => cases ht
  | cons u us ih =>
    rcases List.mem_cons.mp ht with rfl | ht
    · exact h.1
    · exact ih h.2.2 ht

/-- A definition that is left out has the same name as one before it, so it is the same definition. -/
theorem Founded.firstByName {seen : List String} (h : Founded D ts) (hsub : ∀ t, D t → E t)
    (hseen : ∀ f : Signature, f.typedef.name ∈ seen → E f.typedef) : Founded E (firstByName seen ts) := by
  induction ts generalizing D E seen with
  | nil => trivial
  | cons t ts ih =>
    obtain ⟨⟨f, rfl⟩, hparts, hrest⟩ := h
    rw [Native.firstByName]
    split
    · -- The name was seen, so the definition is there although it is left out here.
      rename_i hin
      refine ih hrest ?_ hseen
      rintro u (rfl | hu)
      · exact hseen f (List.contains_iff_mem.mp hin)
      · exact hsub u hu
    · refine ⟨⟨f, rfl⟩, fun c hc => (hparts c hc).mono hsub, ih hrest (fun u hu => hu.imp id (hsub u)) ?_⟩
      intro g hg
      rcases List.mem_cons.mp hg with hname | hg
      · exact .inl (typedef_eq_of_name hname)
      · exact .inr (hseen g hg)

end Founded

section FirstByName

variable {ts : List Typedef} {seen : List String}

theorem nodup_firstByName (seen : List String) (ts : List Typedef) :
    ((firstByName seen ts).map Typedef.name).Nodup ∧ ∀ t ∈ firstByName seen ts, t.name ∉ seen := by
  induction ts generalizing seen with
  | nil => exact ⟨List.nodup_nil, nofun⟩
  | cons t ts ih =>
    rw [firstByName]
    split
    · exact ih seen
    · rename_i hnew
      obtain ⟨hnodup, hfresh⟩ := ih (t.name :: seen)
      constructor
      · rw [List.map_cons, List.nodup_cons]
        refine ⟨fun hin => ?_, hnodup⟩
        obtain ⟨u, hu, hname⟩ := List.mem_map.mp hin
        exact hfresh u hu (hname ▸ List.mem_cons_self)
      · refine List.forall_mem_cons.mpr ⟨mt List.contains_iff_mem.mpr hnew, fun u hu hin => ?_⟩
        exact hfresh u hu (List.mem_cons_of_mem _ hin)

theorem exists_firstByName {t : Typedef} (ht : t ∈ ts) (hnew : t.name ∉ seen) :
    ∃ u ∈ firstByName seen ts, u.name = t.name := by
  induction ts generalizing seen with
  | nil => cases ht
  | cons u us ih =>
    rw [firstByName]
    split
    · rename_i hin
      rcases List.mem_cons.mp ht with rfl | ht
      · exact absurd (List.contains_iff_mem.mp hin) hnew
      · exact ih ht hnew
    · -- Here the first of the list is kept: it may have the name, or the name is still to come.
      by_cases hname : t.name = u.name
      · exact ⟨u, List.mem_cons_self, hname.symm⟩
      · rcases List.mem_cons.mp ht with rfl | ht
        · exact absurd rfl hname
        · obtain ⟨v, hv, hv'⟩ := ih ht fun hin => (List.mem_cons.mp hin).elim hname hnew
          exact ⟨v, List.mem_cons_of_mem _ hv, hv'⟩

end FirstByName

/-- Whatever is needed comes in an order in which it can be defined. -/
def founded : Needs Typedef where
  Hold ts := ∀ D, Founded D ts
  nil _ := True.intro
  append h h' D := (h D).append (h' _)

abbrev Given (D : Typedef → Prop) {α : Type} (P : α → Prop) (x : Fragment Typedef α) : Prop :=
  Gondola.Given founded D P x

abbrev Emits (D : Typedef → Prop) {α : Type} (P : α → Prop) (m : Emit α) : Prop :=
  Gondola.Emits space founded Free D P m

section Types

mutual
theorem given_cType : ∀ (t : Ty) (D : Typedef → Prop), Given D (Part D) (cType t)
  | .bool, _ | .int, _ | .string, _ | .void, _ | .any, _ | .list _, _ | .map .., _ | .struct .., _ | .enum .., _
  | .metatype _, _ => .pure (part_of_isPart (by decide))
  | .function ps ls r, D => by
    let f : Signature := ⟨ps, ls, r⟩
    have hneeds : (cType (.function ps ls r)).needs = (cTypes ps).needs ++ ((cType r).needs ++ [f.typedef]) := rfl
    constructor
    · intro E
      -- The parts are defined when the whole is.
      have hps := (given_cTypes ps fun u => u ∈ (cType r).needs ∨ u ∈ (cTypes ps).needs ∨ E u).value
        fun t ht => .inr (.inl ht)
      have hr := (given_cType r fun u => u ∈ (cType r).needs ∨ u ∈ (cTypes ps).needs ∨ E u).value
        fun t ht => .inl ht
      have hself : Founded (fun u => u ∈ (cType r).needs ∨ u ∈ (cTypes ps).needs ∨ E u) [f.typedef] :=
        ⟨⟨f, rfl⟩, List.forall_mem_cons.mpr ⟨hr, hps⟩, True.intro⟩
      exact ((given_cTypes ps D).needs E).append (((given_cType r D).needs _).append hself)
    · intro hD
      refine part_typedefName (f := f) (hD _ ?_)
      rw [hneeds]
      exact List.mem_append_right _ (List.mem_append_right _ List.mem_cons_self)
theorem given_cTypes : ∀ (ts : List Ty) (D : Typedef → Prop), Given D (fun cs => ∀ c ∈ cs, Part D c) (cTypes ts)
  | [], _ => .pure (List.forall_mem_nil _)
  | t :: ts, D => (given_cType t D).bind fun _ => (given_cTypes ts D).bind fun _ => .pure fun hcs hc =>
    List.forall_mem_cons.mpr ⟨hc, hcs⟩
end

end Types

section Values

variable {D : Typedef → Prop} {code : String}

theorem given_readWord (t : Ty) (code : String) : Given D (fun c => Part D code → Part D c) (readWord t code) := by
  refine (given_cType t D).bind fun type => ?_
  split
  · exact .pure fun _ hcode => hcode
  · have hlead : Leads D "VENICE_FROM_WORD(" := leads_of_isLead (by decide)
    exact .pure fun htype hcode => (((hlead.append htype).mark (by decide)).append hcode).close (by decide)

theorem given_valueCode {T : TypeTable} {n : Node} {wanted : Option Ty} {code : Code} (h : Given D (Part D) code) :
    Given D (Part D) (valueCode T n wanted code) := by
  have hplain : Given D (Part D) (if hasNoForm ((T.typeAt? n.id).getD .any) then
      return unsupported ("value of type " ++ ((T.typeAt? n.id).getD .any).text) else code : Code) := by
    split
    · exact .pure (part_unsupported _)
    · exact h
  unfold valueCode
  dsimp only
  split
  · exact hplain.bind fun text => given_readWord _ text
  · exact hplain

theorem name_of_printer? {T : TypeTable} {c : Expr} {args : List Operand} {s : Node × Ident} {name : String}
    {arg : Operand} (h : printer? T c args = some (s, name, arg)) : name = "venice_print" := by
  unfold printer? at h
  split at h
  · obtain ⟨name', hname, he⟩ := Option.map_eq_some_iff.mp h
    simp only [Prod.mk.injEq] at he
    rw [← he.2.1]
    unfold Target.builtin? at hname
    split at hname
    · exact (Option.some.inj hname).symm
    · cases hname
  · cases h

end Values

section Exprs

variable {D : Typedef → Prop} {cx : Context}

theorem given_expr (hcx : cx.names.In space) (e : Expr) (h : ∀ d ∈ e.parts, d.IsSpellable) :
    ∀ wanted, Given D (Part D) (expr cx e wanted) := by
  induction e using Expr.induction_children with
  | h e ih =>
    intro wanted
    have hgiven : ∀ c ∈ e.children, ∀ w, Given D (Part D) (expr cx c w) := fun c hc =>
      ih c hc fun d hd => h d (Expr.mem_parts_iff.mpr (.inr ⟨c, hc, hd⟩))
    cases e with
    | int _ v => exact given_valueCode (.pure (part_toString v))
    | string _ t => exact given_valueCode (.pure (part_stringCode t))
    | bool _ b => exact given_valueCode (.pure (by cases b <;> exact part_of_isPart (by decide)))
    | symbol n x =>
      have hx : IsIdentifier x.name := h (.symbol n x) List.mem_cons_self
      refine given_valueCode ?_
      split
      · exact (given_readWord _ _).mono fun _ hcode => hcode (part_unsupported _)
      · exact (given_use _).bind fun _ => .pure fun _ => (hcx.spell hx).part
    | binary _ op l r =>
      obtain ⟨hl, hr⟩ := List.forall_mem_cons.mp hgiven
      exact given_valueCode ((hl none).bind fun _ => (hr r List.mem_cons_self none).bind fun _ =>
        .pure fun hrhs hlhs => part_binary op (hlhs.operand _ _) (hrhs.operand _ _))
    | unary _ op e =>
      exact given_valueCode ((hgiven e List.mem_cons_self none).bind fun _ =>
        .pure fun hcode => part_unaryCode op (hcode.operand _ _))
    -- A call prints, or calls what its callee evaluates to with the arguments in the order of the parameters.
    | call _ c as =>
      obtain ⟨hc, has⟩ := List.forall_mem_cons.mp hgiven
      refine given_valueCode ?_
      split
      · exact .pure (part_unsupported _)
      · rename_i sig _
        have hargs : ∀ a ∈ sig.order (arguments cx as), ∀ w, Given D (Part D) (a.code w) := by
          intro a ha
          obtain ⟨b, hb, rfl⟩ := mem_order_arguments cx ha
          exact has _ (List.mem_map_of_mem hb)
        dsimp only
        split
        · rename_i arg hp
          obtain ⟨hin, -, -⟩ := printer?_eq_some hp
          rw [name_of_printer? hp]
          exact (given_use _).bind fun _ => (hargs arg hin none).bind fun _ => .pure fun hcode _ =>
            part_printCode _ hcode
        · have hcodes : ∀ code ∈ coerced (sig.order (arguments cx as)) sig.params, Given D (Part D) code := by
            intro code hcode
            obtain ⟨a, ha, t, rfl⟩ := mem_coerced hcode
            exact hargs a ha (some t)
          exact (Given.sequence hcodes).bind fun _ => (hc none).bind fun _ => .pure fun hcallee hvalues =>
            (hcallee.operand _ _).call hvalues
    | list _ es =>
      have hes : Given D (fun codes => ∀ c ∈ codes, Part D c) (items cx es) := by
        rw [items_eq]
        exact Given.sequence (List.forall_mem_map.mpr fun e he => hgiven e he none)
      exact given_valueCode (hes.bind fun _ => .pure fun hcodes => part_listCode hcodes)
    | map _ es =>
      have hes : Given D (fun codes => ∀ c ∈ codes, Part D c.1 ∧ Part D c.2) (entries cx es) := by
        rw [entries_eq]
        refine Given.sequence (List.forall_mem_map.mpr fun e he => ?_)
        exact (hgiven _ (Expr.key_mem_children _ he) none).bind fun _ =>
          (hgiven _ (Expr.value_mem_children _ he) none).bind fun _ => .pure fun hvalue hkey => ⟨hkey, hvalue⟩
      unfold expr
      split
      · exact hes.map fun _ hcodes => part_mapCode _ hcodes
      · exact given_valueCode (hes.map fun _ hcodes => part_mapCode _ hcodes)
    | index _ b i =>
      obtain ⟨hb, hi⟩ := List.forall_mem_cons.mp hgiven
      refine given_valueCode ((hb none).bind fun _ => (hi i List.mem_cons_self none).bind fun _ =>
        (given_readWord _ _).mono ?_)
      exact fun _ hcode hplace hbase => hcode (part_elementCode _ hbase hplace)
    | field => exact given_valueCode ((given_readWord _ _).mono fun _ hcode => hcode (part_unsupported _))

end Exprs

end Gondola.Native
