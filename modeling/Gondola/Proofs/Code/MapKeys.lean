import Gondola.Compile
import Gondola.Proofs.Heap.Dictionary
import Gondola.Proofs.Typing.Arguments
import Gondola.Proofs.Typing.Confined
import Gondola.Proofs.Typing.Variables

/-! The keys of maps in C programs. A map is told once, when it is made, whether its keys are strings, and only then
does it compare them by content. Later on every key is taken that is not known to have another type. -/
namespace Gondola

namespace Ty

theorem eq_string_or_any_of_compatible {k : Ty} (h : k.compatible .string = true) :
    k = .string ∨ k = .any := by
  cases k <;> simp_all [compatible]

theorem eq_map_string_of_same {t v : Ty} (h : t.same (.map .string v) = true) :
    ∃ v', t = .map .string v' := by
  cases t with
  | map k v' =>
    rw [same, Bool.and_eq_true] at h
    cases k <;> simp_all [same]
  | _ => simp [same] at h

end Ty

namespace Checker

open Typing

section Keys

variable {top : Env} {rest : List Env}

theorem finds_openKeys (key value : Ty) (es : List (Expr × Expr)) :
    Finds top rest (checkEntries (rest.length + 1) key value es) (Expr.entryIds es) fun T kv =>
      kv.1 = .any → key = .any ∧ ∀ e ∈ es, T.typeOf? e.1 = some .any := by
  induction es generalizing key value with
  | nil =>
    refine (finds_pure (key, value)).mono ?_
    rintro T kv rfl hany
    exact ⟨hany, nofun⟩
  | cons e es ih =>
    obtain ⟨k, v⟩ := e
    rw [Expr.entryIds, List.append_assoc]
    refine ((finds_checkExpr top rest k).bind fun kt => (finds_unify key kt k.span).bind fun key' =>
      (finds_checkExpr top rest v).bind fun vt => (finds_unify value vt v.span).bind fun value' =>
        ih key' value').mono ?_
    rintro T kv ⟨kt, hk, key', hkey, -, -, -, -, hrest⟩ hany
    obtain ⟨rfl, hes⟩ := hrest hany
    obtain ⟨-, ⟨hne, hsame⟩ | ⟨rfl, rfl⟩⟩ := Ty.unify_eq_some hkey
    · exact absurd hsame.symm hne
    · exact ⟨rfl, List.forall_mem_cons.mpr ⟨hk.2, hes⟩⟩

end Keys

theorem Kept.map_string {T : TypeTable} {Γ : Env} {n : Node} {es : List (Expr × Expr)} {e : Expr × Expr}
    (h : Kept T (.map n es)) (hw : WellTyped T Γ (.map n es)) (he : e ∈ es)
    (hs : T.typeOf? e.1 = some .string) : ∃ v, T.typeAt? n.id = some (.map .string v) := by
  obtain ⟨_, ⟨⟨k, v⟩, hopen, rfl⟩, htype⟩ := h.found fun top rest =>
    ((finds_openKeys .any .any es).last fun kv => finds_pure (Ty.map kv.1 kv.2)).recorded n
  cases hw with
  | map _ _ hfits _ _ ht =>
    obtain ⟨rfl, rfl⟩ := Ty.map.inj (Option.some.inj (ht.symm.trans htype))
    obtain ⟨u, hu, hc⟩ := hfits e he
    obtain rfl := Option.some.inj (hs.symm.trans hu)
    rcases Ty.eq_string_or_any_of_compatible hc with rfl | rfl
    · exact ⟨_, ht⟩
    · have hany := (hopen rfl).2 e he
      rw [hs] at hany
      cases hany

end Checker

namespace Native

/-- The code makes a map that is told the given kind of its keys. -/
def MakesMap (kind : Descriptor.Part) (code : String) : Prop :=
  ∃ rest, code = callCode "venice_map_from_varargs" (("'" ++ kind.letter.toString ++ "'") :: rest)

theorem makesMap_mapCode (key : Ty) (entries : List (String × String)) :
    MakesMap key.keyKind (mapCode key entries) :=
  ⟨_, rfl⟩

theorem makesMap_of_wanted (cx : Context) (n : Node) (es : List (Expr × Expr)) (v : Ty) :
    MakesMap .string (expr cx (.map n es) (some (.map .string v))).value := by
  rw [expr]
  exact makesMap_mapCode .string _

theorem makesMap_of_own (cx : Context) {n : Node} (es : List (Expr × Expr)) {v : Ty}
    (h : cx.types.typeAt? n.id = some (.map .string v)) :
    MakesMap .string (expr cx (.map n es) none).value := by
  simp only [expr, valueCode, ownKey, h, Option.getD_some, hasNoForm]
  exact makesMap_mapCode .string _

/-- The types at which the code of an expression is asked for: a value that is put into a container, called, printed
or read from is asked for at no type. -/
inductive Asks (T : TypeTable) (p : Program) : Expr → Option Ty → Prop
  | free {e} : Asks T p e none
  | argument {n c as sig e t} {q : Nat} (hcall : .call n c as ∈ p.parts) (hsig : T.signatureOf? c = some sig)
      (hb : T.builtinSymbol? c = none) (he : (sig.order (as.map Argument.labelled))[q]? = some e)
      (ht : sig.params[q]? = some t) : Asks T p e (some t)
  | binding {s x a e} (hs : .letVar s x a e ∈ p.stmts) : Asks T p e (some (variableType T a e))
  | target {s n x e} (hs : .assign s (.symbol n x) e ∈ p.stmts) :
      Asks T p e (some (typeOf T (.symbol n x)))
  | result {sp f s e sig} (hf : .function sp f ∈ p.items) (hs : .ret s (some e) ∈ Stmt.blockStmts f.body)
      (hsig : T.function? f.name.name = some sig) : Asks T p e (some sig.result)

end Native

namespace TypeTable

variable {T : TypeTable} {c : Expr}

theorem signatureOf?_eq_some {sig : Signature} (h : T.signatureOf? c = some sig) :
    T.typeOf? c = some (.function sig.params sig.labels sig.result) := by
  unfold signatureOf? at h
  split at h
  · rename_i hc
    obtain rfl := Option.some.inj h
    exact hc
  · cases h

theorem not_isBuiltin_of_builtinSymbol? (h : T.builtinSymbol? c = none) : ¬ c.IsBuiltin T := by
  cases c <;> simp_all [Expr.IsBuiltin, builtinSymbol?]

end TypeTable

namespace Typing

variable {T : TypeTable} {Γ : Env}

theorem ItemsTyped.stands_body {is : List Item} (h : ItemsTyped T Γ is) {sp : Span} {f : FunctionDecl}
    {s : Stmt} (hf : .function sp f ∈ is) (hs : s ∈ Stmt.blockStmts f.body) :
    ∃ Δ sig, T.function? f.name.name = some sig ∧ ItemStands T Γ is Δ (some sig.result) s := by
  induction h with
  | nil => cases hf
  | function hfun _ ih =>
    rcases List.mem_cons.mp hf with heq | hf
    · obtain ⟨-, rfl⟩ := Item.function.inj heq
      cases hfun with
      | mk hts hr hsig hb =>
        obtain ⟨Δ, h⟩ := stands_block hb hs
        exact ⟨Δ, _, hsig, .body (.mk hts hr hsig hb) h⟩
    · obtain ⟨Δ, sig, hsig, h⟩ := ih hf
      exact ⟨Δ, sig, hsig, .afterFunction hfun h⟩
  | stmt hstmt _ ih =>
    rcases List.mem_cons.mp hf with heq | hf
    · cases heq
    · obtain ⟨Δ, sig, hsig, h⟩ := ih hf
      exact ⟨Δ, sig, hsig, .afterStmt hstmt h⟩

theorem meets_ordered (hΓ : KnownEnv Γ) {n : Node} {c : Expr} {as : List Argument} {sig : Signature}
    (h : WellTyped T Γ (.call n c as)) (hp : ∀ g ∈ (Expr.call n c as).parts, Plain T g)
    (hsig : T.signatureOf? c = some sig) (hb : T.builtinSymbol? c = none) {q : Nat} {e : Expr} {t : Ty}
    (he : (sig.order (as.map Argument.labelled))[q]? = some e) (ht : sig.params[q]? = some t) :
    Meets T t e := by
  have hc := TypeTable.signatureOf?_eq_some hsig
  obtain ⟨place, hplace⟩ := h.place hc
  have hbinds : ∀ i : Fin as.length, Binds sig.labels i as[i].label (place i) := fun i => (hplace i).1
  rw [Signature.order_map_eq_ofFn Argument.labelled place (slot_eq_place hbinds)] at he
  obtain ⟨hq, rfl⟩ := List.getElem?_eq_some_iff.mp ht
  rw [List.getElem?_ofFn, dif_pos hq] at he
  obtain rfl := Option.some.inj he
  -- The argument at a parameter's place is the one that binds the parameter.
  have hi := hbinds (place.symm ⟨q, hq⟩)
  rw [Equiv.apply_symm_apply] at hi
  exact meets_argument hΓ h hp hc (TypeTable.not_isBuiltin_of_builtinSymbol? hb)
    (List.getElem?_eq_getElem (place.symm ⟨q, hq⟩).isLt) hi ht

theorem Settled.meets_own {e : Expr} (h : Settled T e) : Meets T (Native.typeOf T e) e := by
  obtain ⟨t, ht, -⟩ := h
  refine ⟨t, ht, ?_⟩
  rw [Native.typeOf, ht, Option.getD_some]
  exact t.same_refl

theorem StmtTyped.meets_variable (hΓ : KnownEnv Γ) {Γ' : Env} {result : Option Ty} {s : Span} {x : Ident}
    {a : Option TypeExpr} {e : Expr} (hr : ∀ t, result = some t → t.known = true)
    (h : StmtTyped T Γ result (.letVar s x a e) Γ') (hs : PlainStmt T (.letVar s x a e)) :
    Meets T (Native.variableType T a e) e := by
  have hown : Meets T (Native.typeOf T e) e :=
    (hs.settled hΓ List.mem_cons_self (h.wellTyped List.mem_cons_self)).meets_own
  unfold Native.variableType
  split
  · rename_i t ht
    obtain ⟨w, rfl, hw⟩ := Option.map_eq_some_iff.mp ht
    apply h.meets hΓ hr hs
    exact Stmt.Demands.annotation (.of_noNames hw)
  · exact hown

section Program

variable {p : Program}

/-- In a program of plain expressions the code of a value is asked for at the type that the value has. -/
theorem meets_of_asks (htyped : ProgramTyped T p) (hplain : ∀ f ∈ p.parts, Plain T f)
    (hstmts : ∀ s ∈ p.stmts, PlainStmt T s) {e : Expr} {t : Ty} (h : Native.Asks T p e (some t)) :
    Meets T t e := by
  cases h with
  | argument hcall hsig hb he ht =>
    obtain ⟨Γ, hΓ, hw⟩ := wellTyped_known htyped hstmts hcall
    exact meets_ordered hΓ hw (fun g hg => hplain g (Program.mem_parts_trans hcall hg)) hsig hb he ht
  | binding hs =>
    obtain ⟨Γ, result, hstands⟩ := htyped.stands hs
    obtain ⟨hs', hΓ, Γ', hstmt⟩ := hstands.typed keeps_known htyped hstmts ⟨nofun, nofun⟩
    exact hstmt.meets_variable hΓ.1 hΓ.2 hs'
  | target hs =>
    obtain ⟨Γ, result, hstands⟩ := htyped.stands hs
    obtain ⟨hs', hΓ, Γ', hstmt⟩ := hstands.typed keeps_known htyped hstmts ⟨nofun, nofun⟩
    obtain ⟨u, hu, -⟩ := hs'.settled hΓ.1 List.mem_cons_self (hstmt.wellTyped List.mem_cons_self)
    rw [Native.typeOf, hu, Option.getD_some]
    exact hstmt.meets hΓ.1 hΓ.2 hs' (.assigned hu)
  | result hf hs hsig =>
    obtain ⟨Γ, sig, hsig', hstands⟩ := htyped.stands_body hf hs
    obtain rfl := Option.some.inj (hsig.symm.trans hsig')
    obtain ⟨hs', hΓ, Γ', hstmt⟩ := hstands.typed keeps_known htyped hstmts ⟨nofun, nofun⟩
    exact hstmt.meets hΓ.1 hΓ.2 hs' (.returned rfl)

end Program

end Typing

namespace Native

open Typing

theorem makesMap_of_meets {T : TypeTable} (names : Names) {n : Node} {es : List (Expr × Expr)}
    {v : Ty} {wanted : Option Ty} (hown : T.typeAt? n.id = some (.map .string v))
    (hmeets : ∀ t, wanted = some t → Meets T t (.map n es)) :
    MakesMap .string (expr ⟨T, names⟩ (.map n es) wanted).value := by
  cases wanted with
  | none => exact makesMap_of_own ⟨T, names⟩ es hown
  | some t =>
    obtain ⟨u, hu, hsame⟩ := hmeets t rfl
    obtain rfl := Option.some.inj (hown.symm.trans hu)
    obtain ⟨v', rfl⟩ := Ty.eq_map_string_of_same hsame
    exact makesMap_of_wanted ⟨T, names⟩ n es v'

/-- What is certain of the maps of a program that strings are looked up in. -/
structure StringKeys (T : TypeTable) (p : Program) : Prop where
  /-- The keys of a map that takes a string are strings or not known. -/
  index : ∀ n b i k v, .index n b i ∈ p.parts → T.typeOf? b = some (.map k v) →
    T.typeOf? i = some .string → k = .string ∨ k = .any
  literal : ∀ n es e, .map n es ∈ p.parts → e ∈ es → T.typeOf? e.1 = some .string →
    ∃ v, T.typeAt? n.id = some (.map .string v)
  wanted : ∀ names n es v, .map n es ∈ p.parts →
    MakesMap .string (expr ⟨T, names⟩ (.map n es) (some (.map .string v))).value
  own : ∀ names n es v, .map n es ∈ p.parts → T.typeAt? n.id = some (.map .string v) →
    MakesMap .string (expr ⟨T, names⟩ (.map n es) none).value
  /-- Without empty literals, and if the built-in is only called, the keys are known and no place where a literal
  stands asks for other ones. -/
  known : (∀ e ∈ p.parts, e.isEmptyLiteral = false) → (∀ e ∈ p.values, ¬ e.IsBuiltin T) →
    (∀ n b i k v, .index n b i ∈ p.parts → T.typeOf? b = some (.map k v) →
      T.typeOf? i = some .string → k = .string) ∧
    ∀ names n es v asked, .map n es ∈ p.parts → T.typeAt? n.id = some (.map .string v) →
      Asks T p (.map n es) asked → MakesMap .string (expr ⟨T, names⟩ (.map n es) asked).value
  content : ∀ (h : Heap) a b s t, h.text a = .ok s → h.text b = .ok t →
    (h.sameKey .string a b = true ↔ s = t)

/-- Whether an expression looks up a string in a map of unknown keys. -/
def looksUpOpenly (T : TypeTable) : Expr → Bool
  | .index _ b i =>
    match T.typeOf? b, T.typeOf? i with
    | some (.map .any _), some .string => true
    | _, _ => false
  | _ => false

end Native

end Gondola
