import Gondola.Proofs.Code.NativeScopes
import Gondola.Proofs.Names.Own
import Gondola.Proofs.Typing.TopLevel

/-! What the assignments of a C program assign to. Values of structs and enums have no form, and so neither has a place
for them. -/
namespace Gondola

variable {x : Ident} {f : FunctionDecl} {is : List Item}

/-- The statements of an item that are written in C. -/
def Item.written : Item → List Stmt
  | .function _ f => Stmt.blockWritten f.body
  | .stmt s => s :: s.written

def Item.functions : Item → List Ident
  | .function _ f => [f.name]
  | .stmt _ => []

/-- The functions and variables that an item leaves behind. -/
def Item.binds : Item → List Ident
  | .function _ f => [f.name]
  | .stmt (.letVar _ x _ _) => [x]
  | .stmt _ => []

theorem Item.binds_of_isLet {s : Stmt} (h : s.isLet = false) : (Item.stmt s).binds = [] := by
  cases s with
  | letVar => cases h
  | assign | ret | expr | ifElse | whileLoop | forEach | matchOn | struct | enum => rfl

theorem Item.binds_sublist_declares (i : Item) : i.binds.Sublist i.declares := by
  cases i with
  | function => exact List.Sublist.refl _
  | stmt s =>
    cases s with
    | letVar => exact List.Sublist.refl _
    | assign | ret | expr | ifElse | whileLoop | forEach | matchOn | struct | enum => exact List.nil_sublist _

theorem Program.binds_sublist_topLevel (p : Program) : (p.items.flatMap Item.binds).Sublist p.topLevel := by
  rw [topLevel]
  induction p.items with
  | nil => exact List.Sublist.refl _
  | cons i is ih =>
    rw [List.flatMap_cons, List.flatMap_cons]
    exact i.binds_sublist_declares.append ih

namespace Native

open Typing

section Program

variable (T : TypeTable)

/-- What a name can be declared as in C. -/
inductive Declaration where
  | function (name : String)
  | object (v : Variable)
  deriving DecidableEq, Repr

def Declaration.name : Declaration → String
  | function name => name
  | object v => v.name

def globals : Item → List Variable
  | .stmt (.letVar _ x a e) => [⟨.file, (cType (variableType T a e)).value, space.ident x.name⟩]
  | _ => []

/-- What is declared for the whole file, the functions first. -/
def fileScope (p : Program) : List Declaration :=
  ("main" :: libraryFunctions ++ (p.items.flatMap Item.functions).map fun f => space.ident f.name).map .function ++
    (p.items.flatMap (globals T)).map .object

/-- The declaration that C finds for a name at a site. -/
def Site.nearest? (p : Program) (site : Site) (name : String) : Option Declaration :=
  (site.inner.map Declaration.object ++ fileScope T p).find? fun d => d.name == name

def parameterVariables (ps : List (Binding × Ty)) : List Variable :=
  ps.map fun p => ⟨.parameter, (cType p.2).value, space.ident p.1.name.name⟩

def functionSites (f : FunctionDecl) (n : Names) : List Site :=
  match T.function? f.name.name with
  | none => []
  | some sig =>
    blockSites T sig.result f.body
      (after (parameters (f.params.zip sig.params)) (n.declare f.name).2.enterFunction)
      (parameterVariables (f.params.zip sig.params))

/-- The variables that a statement of the top level leaves behind in the main function. -/
def mainDeclared (n : Names) (s : Stmt) : List Variable := if s.isLet then [] else declared T n s

def itemSites : List Item → Names → List Variable → List Site
  | [], _, _ => []
  | .function s f :: is, n, vs => functionSites T f n ++ itemSites is (after (item T (.function s f)) n) vs
  | .stmt s :: is, n, vs =>
    ⟨n, vs, s⟩ :: (stmtSites T .any s n vs ++ itemSites is (after (item T (.stmt s)) n) (mainDeclared T n s ++ vs))

def sites (p : Program) : List Site := itemSites T p.items { space := space } []

end Program

section TopLevel

variable {T : TypeTable} {xs : List Ident} {Γ Γ' : Env} {n n' : Names}

/-- A name of the top level that keeps its spelling. -/
def Plain (xs : List Ident) (s : Spelling) : Prop := s.origin ∈ xs ∧ s.text = space.ident s.origin.name

/-- Writing has come to a point at the top level after the functions and variables `xs`. -/
structure AtTop (xs : List Ident) (Γ : Env) (n : Names) : Prop where
  space : n.space = Native.space
  visible : Visible (Plain xs) Γ n []
  named : ∀ e ∈ n.entries, e.1 = e.2.origin.name

theorem Visible.imp {G H : Spelling → Prop} {vs : List Variable} (h : Visible G Γ n vs) (himp : ∀ s, G s → H s) :
    Visible H Γ n vs :=
  ⟨h.nonempty, h.mirrors, fun e he => (h.covers e he).imp_left (himp e.2)⟩

theorem AtTop.anywhere (h : AtTop xs Γ n) {ys : List Ident} (hsub : xs ⊆ ys) (vs : List Variable) :
    Visible (Plain ys) Γ n vs :=
  (h.visible.mono (List.nil_subset _)).imp fun _ hs => ⟨hsub hs.1, hs.2⟩

theorem AtTop.restored (h : AtTop xs Γ n) (hg : Grown n n' []) : AtTop xs Γ n' where
  space := hg.space.trans h.space
  visible := h.visible.restored hg
  named := by
    rw [hg.entries h.visible.nonempty]
    exact h.named

theorem AtTop.omitted (h : AtTop xs Γ n) (x : Ident) {t : Ty} (ht : omitsTypes t) : AtTop xs (declare x t Γ) n :=
  ⟨h.space, h.visible.omitted x ht, h.named⟩

theorem AtTop.text_declare (h : AtTop xs Γ n) (hx : x.name ∉ xs.map Ident.name) :
    (n.declare x).1 = Native.space.ident x.name := by
  have hnone : n.lookup? x.name = none := by
    rw [Names.lookup?_eq, List.lookup_eq_none_iff]
    intro e he
    rw [bne_iff_ne, h.named e he]
    intro heq
    obtain ⟨ho, -⟩ := (h.visible.covers e he).resolve_right nofun
    exact hx (heq ▸ List.mem_map_of_mem ho)
  rw [Names.declare, hnone, h.space]

theorem AtTop.insert (h : AtTop xs Γ n) {s : Spelling} (t : Ty) (hx : x.name ∉ xs.map Ident.name)
    (ho : s.origin = x) (htext : s.text = (n.declare x).1) (hg : Grown n n' [(x.name, s)]) :
    AtTop (xs ++ [x]) (declare x t Γ) n' where
  space := hg.space.trans h.space
  visible := by
    refine (h.anywhere (List.subset_append_left xs [x]) []).insert t ho hg (List.Subset.refl _) (.inl ⟨?_, ?_⟩)
    · rw [ho]
      exact List.mem_append_right _ List.mem_cons_self
    · rw [htext, h.text_declare hx, ho]
  named := by
    rw [hg.entries h.visible.nonempty]
    exact List.forall_mem_cons.mpr ⟨congrArg Ident.name ho.symm, h.named⟩

theorem atTop_start : AtTop [] [] { space := space } where
  space := rfl
  visible := ⟨List.cons_ne_nil _ _, .nil, nofun⟩
  named := nofun

theorem restores_item {s : Stmt} (hlet : s.isLet = false) : Restores (item T (.stmt s)) := by
  have hs : Restores (stmt T .any s) := restores_of_isLet hlet
  cases s with
  | letVar => cases hlet
  | assign | ret | expr | ifElse | whileLoop | forEach | matchOn | struct | enum =>
    exact hs.bind fun _ => restores_pure _

theorem AtTop.stmt (h : AtTop xs Γ n) {s : Stmt} (hs : StmtTyped T Γ none s Γ')
    (hnew : ∀ x ∈ (Item.stmt s).binds, x.name ∉ xs.map Ident.name) :
    AtTop (xs ++ (Item.stmt s).binds) Γ' (after (item T (.stmt s)) n) := by
  have hquiet (hlet : s.isLet = false) : AtTop (xs ++ (Item.stmt s).binds) Γ (after (item T (.stmt s)) n) := by
    rw [Item.binds_of_isLet hlet, List.append_nil]
    exact h.restored (restores_item hlet ⟨n, ()⟩)
  cases hs with
  | @letVar _ _ _ x =>
    obtain ⟨s, ho, htext, hg⟩ := grown_declare n x
    exact h.insert _ (hnew x List.mem_cons_self) ho htext hg
  | struct | enum => exact (hquiet rfl).omitted _ ⟨_, rfl⟩
  | assign | expr | ifElse | whileLoop | forEach | matchOn => exact hquiet rfl

/-- A function with a signature, after its name. -/
def signed (T : TypeTable) (sig : Signature) (f : FunctionDecl) (name : String) : Emit Sections := do
  let _ ← typeCode sig.type
  Emit.inFunction do
    let result ← typeCode sig.result
    let params ← parameters (f.params.zip sig.params)
    let head := result ++ " " ++ name ++ "(" ++ paramList params ++ ")"
    let body ← block T sig.result f.body
    return { prototypes := [head ++ ";"], functions := blockLines head body ++ [.at0 ""] }

theorem function_signed {sig : Signature} (hsig : T.function? f.name.name = some sig) (n : Names) :
    (function T f ⟨n, ()⟩).value = (signed T sig f (n.declare f.name).1 ⟨(n.declare f.name).2, ()⟩).value := by
  unfold function
  simp only [hsig]
  rfl

theorem restores_signed (sig : Signature) (f : FunctionDecl) (name : String) : Restores (signed T sig f name) :=
  (restores_render _).bind fun _ => Grows.inFunction ((restores_render _).grows.bind fun _ =>
    (grows_parameters _).bind fun _ => (grows_block _).bind fun _ => (restores_pure _).grows)

theorem AtTop.function (h : AtTop xs Γ n) {f : FunctionDecl} {t : Ty} (hf : FunctionTyped T Γ f t)
    (hnew : f.name.name ∉ xs.map Ident.name) (sp : Span) :
    AtTop (xs ++ [f.name]) (declare f.name t Γ) (after (item T (.function sp f)) n) := by
  obtain ⟨sig, hsig, -⟩ := hf.body
  obtain ⟨s, ho, htext, hg⟩ := grown_declare n f.name
  have hstate : after (item T (.function sp f)) n =
      after (signed T sig f (n.declare f.name).1) (n.declare f.name).2 :=
    congrArg (fun v => v.2.names) (function_signed hsig n)
  rw [hstate]
  exact h.insert t hnew ho htext (hg.trans (restores_signed sig f _ ⟨(n.declare f.name).2, ()⟩))

end TopLevel

section Items

variable {s : Stmt}

variable {T : TypeTable} {xs ys : List Ident} {Γ : Env} {n : Names} {vs : List Variable}

theorem Visible.parameters {G : Spelling → Prop} {ps : List Binding} {ts : List Ty} (hlen : ps.length = ts.length)
    (hspace : n.space = space) (h : Visible G Γ n vs) :
    Visible G (declareAll (ps.map Binding.name) ts Γ) (after (Native.parameters (ps.zip ts)) n)
      (parameterVariables (ps.zip ts) ++ vs) := by
  induction ps generalizing ts Γ n vs with
  | nil => exact h
  | cons p ps ih =>
    cases ts with
    | nil => cases hlen
    | cons t ts =>
      obtain ⟨s, ho, htext, hg⟩ := grown_param n p.name
      have hp : Visible G (Typing.declare p.name t Γ) (n.param p.name).2
          (⟨.parameter, (cType t).value, space.ident p.name.name⟩ :: vs) := by
        refine h.insert t ho hg (List.subset_cons_self _ _) (.inr ?_)
        rw [htext, hspace]
        exact List.mem_cons_self
      refine (ih (Nat.succ.inj hlen) (hg.space.trans hspace) hp).mono fun v hv => ?_
      exact List.perm_middle.mem_iff.mp hv

theorem parameters_code {ps : List (Binding × Ty)} (hspace : n.space = space) :
    (Native.parameters ps ⟨n, ()⟩).value.1 = (parameterVariables ps).map Variable.code := by
  induction ps generalizing n with
  | nil => rfl
  | cons p ps ih =>
    have hrest := ih (n := (n.param p.1.name).2) ((Names.space_insert ..).trans hspace)
    have hparam : (n.param p.1.name).1 = space.ident p.1.name.name := by rw [Names.param, hspace]
    show ((cType p.2).value ++ " " ++ (n.param p.1.name).1) ::
      (Native.parameters ps ⟨(n.param p.1.name).2, ()⟩).value.1 = _
    rw [hrest, hparam]
    rfl

theorem within_paramList {a : String} {params : List String} (h : a ∈ params) : Within a (paramList params) := by
  cases params with
  | nil => cases h
  | cons => exact within_commaSeparated h

theorem sound_function (h : AtTop xs Γ n) {t : Ty} (hf : FunctionTyped T Γ f t)
    (hnew : f.name.name ∉ xs.map Ident.name) (hsub : xs ++ [f.name] ⊆ ys) (site : Site)
    (hsite : site ∈ functionSites T f n) : site.Sound T (Plain ys) [] (function T f ⟨n, ()⟩).value.1.code := by
  obtain ⟨sig, hsig, hlen, hb⟩ := hf.body
  rw [List.length_map] at hlen
  rw [functionSites, hsig] at hsite
  obtain ⟨s, ho, htext, hg⟩ := grown_declare n f.name
  have hnamed := h.insert t hnew ho htext hg
  have houtside := (hnamed.anywhere hsub []).enter
  have hinside : Visible (Plain ys) _ (n.declare f.name).2.enterFunction [] :=
    ⟨houtside.nonempty, houtside.mirrors, houtside.covers⟩
  have hspace : (n.declare f.name).2.enterFunction.space = space := hnamed.space
  have hparams := hinside.parameters hlen hspace
  rw [List.append_nil] at hparams
  -- The parameters stand in the head of the function, in front of its body.
  have hcode : (function T f ⟨n, ()⟩).value.1.code = blockLines ((cType sig.result).value ++ " " ++
      (n.declare f.name).1 ++ "(" ++
        paramList (parameters (f.params.zip sig.params) ⟨(n.declare f.name).2.enterFunction, ()⟩).value.1 ++ ")")
      (block T sig.result f.body ⟨after (parameters (f.params.zip sig.params)) (n.declare f.name).2.enterFunction,
        ()⟩).value.1 ++ [.at0 ""] := by
    rw [function_signed hsig]
    exact List.append_nil _
  rw [hcode, parameters_code hspace]
  refine (sound_block hb hparams site hsite).mono
    ((among_blockLines _ _).trans (among_of_subset (List.subset_append_left _ _))) fun v hv => .inr ?_
  have hhead := within_paramList (List.mem_map_of_mem (f := Variable.code) hv)
  exact (told_blockLines ((hhead.left _).right _) _).mono (List.subset_append_left _ _)

theorem item_code (hlet : s.isLet = false) :
    (item T (.stmt s) ⟨n, ()⟩).value.1.code = (stmt T .any s ⟨n, ()⟩).value.1 := by
  cases s with
  | letVar => cases hlet
  | assign | ret | expr | ifElse | whileLoop | forEach | matchOn | struct | enum => rfl

theorem item_globals (h : AtTop xs Γ n) (hnew : ∀ x ∈ (Item.stmt s).binds, x.name ∉ xs.map Ident.name) :
    (item T (.stmt s) ⟨n, ()⟩).value.1.globals = (globals T (.stmt s)).map Variable.code := by
  cases s with
  | letVar _ x a e =>
    show ["static " ++ (cType (variableType T a e)).value ++ " " ++ (n.declare x).1 ++ ";"] = _
    rw [h.text_declare (hnew x List.mem_cons_self)]
    rfl
  | assign | ret | expr | ifElse | whileLoop | forEach | matchOn | struct | enum => rfl

theorem sound_item (h : AtTop xs Γ n) (hsub : xs ⊆ ys) {Γ' : Env} (hs : StmtTyped T Γ none s Γ')
    (site : Site) (hsite : site ∈ ⟨n, vs, s⟩ :: stmtSites T .any s n vs) :
    site.Sound T (Plain ys) vs (item T (.stmt s) ⟨n, ()⟩).value.1.code := by
  have hvisible := h.anywhere hsub vs
  rcases List.mem_cons.mp hsite with rfl | hsite
  · exact ⟨⟨_, _, _, hs, hvisible⟩, fun _ hv => .inl hv, by rintro sp t e rfl; exact among_of_subset (fun _ hl => hl)⟩
  · cases hlet : s.isLet with
    | true =>
      cases s with
      | letVar => cases hsite
      | assign | ret | expr | ifElse | whileLoop | forEach | matchOn | struct | enum => cases hlet
    | false =>
      rw [item_code hlet]
      exact sound_stmt hs hvisible site hsite

theorem told_mainDeclared {v : Variable} (hv : v ∈ mainDeclared T n s) :
    Told (item T (.stmt s) ⟨n, ()⟩).value.1.code v.code := by
  unfold mainDeclared at hv
  split at hv
  · cases hv
  · rename_i hlet
    rw [item_code (Bool.not_eq_true _ ▸ hlet)]
    exact told_declared hv

theorem sections_cons (i : Item) (is : List Item) (n : Names) : (sections T (i :: is) ⟨n, ()⟩).value.1 =
    (item T i ⟨n, ()⟩).value.1.append (sections T is ⟨after (item T i) n, ()⟩).value.1 :=
  rfl

theorem function_globals {t : Ty} (hf : FunctionTyped T Γ f t) (sp : Span) (n : Names) :
    (item T (.function sp f) ⟨n, ()⟩).value.1.globals = [] := by
  obtain ⟨sig, hsig, -⟩ := hf.body
  rw [item, function_signed hsig]
  rfl

theorem new_of_nodup {i : Item} (hn : ((xs ++ (i :: is).flatMap Item.binds).map Ident.name).Nodup) (hx : x ∈ i.binds) :
    x.name ∉ xs.map Ident.name := by
  rw [List.flatMap_cons, List.map_append, List.map_append] at hn
  intro hin
  exact (List.nodup_append.mp hn).2.2 _ hin _ (List.mem_append_left _ (List.mem_map_of_mem hx)) rfl

theorem sound_items (vs : List Variable) (his : ItemsTyped T Γ is) (h : AtTop xs Γ n)
    (hn : ((xs ++ is.flatMap Item.binds).map Ident.name).Nodup) (hys : xs ++ is.flatMap Item.binds = ys) :
    (sections T is ⟨n, ()⟩).value.1.globals = (is.flatMap (globals T)).map Variable.code ∧
      ∀ site ∈ itemSites T is n vs, site.Sound T (Plain ys) vs (sections T is ⟨n, ()⟩).value.1.code := by
  induction his generalizing xs n vs with
  | nil => exact ⟨rfl, List.forall_mem_nil _⟩
  | @function Γ sp f t is hf _ ih =>
    have hnew : f.name.name ∉ xs.map Ident.name := new_of_nodup hn List.mem_cons_self
    rw [List.flatMap_cons, ← List.append_assoc] at hn hys
    obtain ⟨hglobals, hsites⟩ := ih _ (h.function hf hnew sp) hn hys
    rw [sections_cons]
    constructor
    · rw [Sections.append, function_globals hf, hglobals]
      rfl
    · intro site hsite
      rcases List.mem_append.mp hsite with hsite | hsite
      · exact (sound_function h hf hnew (hys ▸ List.subset_append_left _ _) site hsite).mono
          (among_of_subset (Sections.code_subset_left _ _)) (List.forall_mem_nil _)
      · exact (hsites site hsite).among (among_of_subset (Sections.code_subset_right _ _))
  | @stmt Γ Γ' s is hs _ ih =>
    have hnew : ∀ x ∈ (Item.stmt s).binds, x.name ∉ xs.map Ident.name := fun x => new_of_nodup hn
    rw [List.flatMap_cons, ← List.append_assoc] at hn hys
    have hsub : xs ⊆ ys := by
      rw [← hys, List.append_assoc]
      exact List.subset_append_left _ _
    obtain ⟨hglobals, hsites⟩ := ih _ (h.stmt hs hnew) hn hys
    rw [sections_cons]
    constructor
    · rw [Sections.append, item_globals h hnew, hglobals, ← List.map_append]
      rfl
    · intro site hsite
      rw [itemSites, ← List.cons_append] at hsite
      have hfirst := among_of_subset (Sections.code_subset_left (item T (.stmt s) ⟨n, ()⟩).value.1
        (sections T is ⟨after (item T (.stmt s)) n, ()⟩).value.1)
      rcases List.mem_append.mp hsite with hsite | hsite
      · exact (sound_item h hsub hs site hsite).among hfirst
      · refine (hsites site hsite).mono (among_of_subset (Sections.code_subset_right _ _)) fun v hv => ?_
        rcases List.mem_append.mp hv with hv | hv
        · exact .inr ((told_mainDeclared hv).among hfirst)
        · exact .inl hv

theorem itemSites_stmts (his : ItemsTyped T Γ is) (n : Names) (vs : List Variable) :
    (itemSites T is n vs).map Site.stmt = is.flatMap Item.written := by
  induction his generalizing n vs with
  | nil => rfl
  | function hf _ ih =>
    obtain ⟨sig, hsig, -⟩ := hf.body
    rw [itemSites, functionSites, hsig, List.map_append, blockSites_stmts, ih]
    rfl
  | stmt _ _ ih =>
    rw [itemSites, List.map_cons, List.map_append, stmtSites_stmts, ih]
    rfl

end Items

section Targets

variable {T : TypeTable} {p : Program} {site : Site} {s : Spelling}

theorem among_lines (T : TypeTable) (p : Program) :
    Among (sections T p.items ⟨{ space := space }, ()⟩).value.1.code (lines T p) := by
  intro l hl
  rcases List.mem_append.mp hl with hl | hl
  · exact ⟨l, List.mem_append_left _ (List.mem_append_right _ hl), rfl⟩
  · obtain ⟨m, hm, htext⟩ := among_blockLines "int main(void)" _ l (List.mem_append_left [.at0 "return 0;"] hl)
    exact ⟨m, List.mem_append_right _ hm, htext⟩

theorem told_declarations {texts : List String} {a : String} (h : a ∈ texts) : Told (declarations texts) a := by
  cases texts with
  | nil => cases h
  | cons => exact ⟨.at0 a, List.mem_append_left _ (List.mem_map_of_mem h), .refl a⟩

theorem told_globals {v : Variable} (hv : v.code ∈ (sections T p.items ⟨{ space := space }, ()⟩).value.1.globals) :
    Told (lines T p) v.code := by
  refine (told_declarations hv).mono fun l hl => ?_
  exact List.mem_append_left _ (List.mem_append_left _ (List.mem_append_right _ hl))

theorem functions_subset_topLevel (p : Program) : p.items.flatMap Item.functions ⊆ p.topLevel := by
  intro x hx
  obtain ⟨i, hi, hx⟩ := List.mem_flatMap.mp hx
  cases i with
  | function => exact List.mem_flatMap.mpr ⟨_, hi, hx⟩
  | stmt => cases hx

theorem ident_ne_function (hnames : (p.topLevel.map Ident.name).Nodup) (hx : x ∈ p.topLevel)
    (hf : x ∉ p.items.flatMap Item.functions) :
    space.ident x.name ∉
      "main" :: libraryFunctions ++ (p.items.flatMap Item.functions).map fun f => space.ident f.name := by
  intro hin
  rcases List.mem_append.mp hin with hin | hin
  · have hall : ∀ name ∈ "main" :: libraryFunctions,
        space.taken name = true ∧ name.toList.getLast? ≠ some '_' := by decide
    obtain ⟨htaken, hlast⟩ := hall _ hin
    exact Namespace.ident_ne_of_taken htaken hlast rfl
  · obtain ⟨f, hmem, hident⟩ := List.mem_map.mp hin
    have hname := Namespace.ident_injective hident
    obtain rfl := List.inj_on_of_nodup_map hnames (functions_subset_topLevel p hmem) hx hname
    exact hf hmem

theorem global_of_binds {i : Item} (hx : x ∈ i.binds) (hf : x ∉ i.functions) :
    ∃ v ∈ globals T i, v.name = space.ident x.name := by
  cases i with
  | function => exact absurd hx hf
  | stmt s =>
    cases s with
    | letVar =>
      obtain rfl := List.mem_singleton.mp hx
      exact ⟨_, List.mem_cons_self, rfl⟩
    | assign | ret | expr | ifElse | whileLoop | forEach | matchOn | struct | enum => cases hx

theorem find?_object {vs : List Variable} {name : String} (h : ∃ v ∈ vs, v.name = name) :
    ∃ v ∈ vs, (vs.map Declaration.object).find? (fun d => d.name == name) = some (.object v) := by
  obtain ⟨v, hv, rfl⟩ := h
  cases hfind : (vs.map Declaration.object).find? fun d => d.name == v.name with
  | none => exact absurd (beq_self_eq_true v.name) (List.find?_eq_none.mp hfind _ (List.mem_map_of_mem hv))
  | some d =>
    obtain ⟨w, hw, rfl⟩ := List.mem_map.mp (List.mem_of_find?_eq_some hfind)
    exact ⟨w, hw, rfl⟩

theorem nearest?_of_covers (hnames : (p.topLevel.map Ident.name).Nodup)
    (hf : s.origin ∉ p.items.flatMap Item.functions)
    (hs : Plain (p.items.flatMap Item.binds) s ∨ s.text ∈ site.inner.map Variable.name) :
    ∃ v, site.nearest? T p s.text = some (.object v) ∧ (v ∈ site.inner ∨ v ∈ p.items.flatMap (globals T)) := by
  rw [Site.nearest?, List.find?_append]
  by_cases hinner : ∃ v ∈ site.inner, v.name = s.text
  · obtain ⟨v, hv, hfind⟩ := find?_object hinner
    exact ⟨v, by rw [hfind, Option.some_or], .inl hv⟩
  · obtain ⟨ho, htext⟩ := hs.resolve_right fun hin => hinner (List.mem_map.mp hin)
    have hmiss : (site.inner.map Declaration.object).find? (fun d => d.name == s.text) = none := by
      rw [List.find?_eq_none]
      intro d hd heq
      obtain ⟨v, hv, rfl⟩ := List.mem_map.mp hd
      exact hinner ⟨v, hv, beq_iff_eq.mp heq⟩
    -- In the whole file, the functions come first, but none of them has the name.
    have hfunctions : (("main" :: libraryFunctions ++ (p.items.flatMap Item.functions).map fun f =>
        space.ident f.name).map Declaration.function).find? (fun d => d.name == s.text) = none := by
      rw [List.find?_eq_none]
      intro d hd heq
      obtain ⟨name, hname, rfl⟩ := List.mem_map.mp hd
      have hsame : name = space.ident s.origin.name := (beq_iff_eq.mp heq).trans htext
      exact ident_ne_function hnames (p.binds_sublist_topLevel.subset ho) hf (hsame ▸ hname)
    obtain ⟨i, hi, hbinds⟩ := List.mem_flatMap.mp ho
    obtain ⟨w, hw, hname⟩ := global_of_binds (T := T) hbinds fun hin => hf (List.mem_flatMap.mpr ⟨i, hi, hin⟩)
    have hglobal : ∃ v ∈ p.items.flatMap (globals T), v.name = s.text :=
      ⟨w, List.mem_flatMap.mpr ⟨i, hi, hw⟩, hname.trans htext.symm⟩
    obtain ⟨v, hv, hfind⟩ := find?_object hglobal
    refine ⟨v, ?_, .inr hv⟩
    rw [hmiss, fileScope, List.find?_append, hfunctions, hfind]
    rfl

theorem symbol_code {n : Node} {t : Ty} (names : Names) (ht : T.typeAt? n.id = some t) :
    (hasNoForm t = true → (expr ⟨T, names⟩ (.symbol n x) none).value = unsupported ("value of type " ++ t.text)) ∧
    (hasNoForm t = false → n.id ∉ T.builtins → (expr ⟨T, names⟩ (.symbol n x) none).value = names.spell x.name) := by
  rw [expr]
  unfold valueCode
  simp only [ht, Option.getD_some]
  constructor
  · intro hform
    rw [hform]
    rfl
  · intro hform hb
    rw [hform, if_neg (mt List.contains_iff_mem.mp hb)]
    rfl

/-- What checking found for a variable that is assigned to is bound to a spelling, and that stands for a variable around
the statement, or for something of the whole file. -/
theorem Site.Sound.assigned {G : Spelling → Prop} {vs : List Variable} {ls : List Line} (h : site.Sound T G vs ls)
    {sp : Span} {n : Node} {x : Ident} {e : Expr} (hstmt : site.stmt = .assign sp (.symbol n x) e) :
    ∃ t, T.typeAt? n.id = some t ∧ (∀ u, t ≠ .metatype u) ∧ (n.id ∉ T.builtins →
      ∃ s, site.names.lookup? x.name = some s ∧ T.declarationAt? n.id = some s.origin ∧
        (G s ∨ s.text ∈ site.inner.map Variable.name)) := by
  obtain ⟨Γ, Γ', result, hassign, hvisible⟩ := h.typed
  rw [hstmt] at hassign
  cases hassign with
  | @assign _ _ _ _ _ t htarget htt hplace =>
    refine ⟨t, htt, fun u => hplace n x u rfl, fun hb => ?_⟩
    have hresolved : (⟨n, x, site.names⟩ : Use).Resolved T := by
      refine htarget.resolved hvisible.mirrors fun _ u hu => ?_
      obtain rfl := Option.some.inj (hu.symm.trans htt)
      rintro ⟨w, rfl⟩
      exact hplace n x w rfl rfl
    rw [Use.Resolved, if_neg hb] at hresolved
    obtain ⟨s, hs, horigin⟩ := hresolved
    exact ⟨s, hs, horigin, hvisible.covers _ (Names.mem_entries_of_lookup? hs)⟩

/-- Whether a site assigns to a variable of that name, at a type whose values have a form. -/
def Site.assigns (T : TypeTable) (p : Program) (name : String) (site : Site) : Bool :=
  match site.stmt with
  | .assign _ (.symbol n x) _ =>
    x.name == name && (T.typeAt? n.id).any (fun t => !hasNoForm t) && !T.builtins.contains n.id &&
      (T.declarationAt? n.id).any fun o => !(p.items.flatMap Item.functions).contains o
  | _ => false

theorem Site.of_assigns {name : String} (h : site.assigns T p name = true) : ∃ sp n x e t o,
    site.stmt = .assign sp (.symbol n x) e ∧ x.name = name ∧ T.typeAt? n.id = some t ∧ hasNoForm t = false ∧
      n.id ∉ T.builtins ∧ T.declarationAt? n.id = some o ∧ o ∉ p.items.flatMap Item.functions := by
  unfold assigns at h
  split at h
  · rename_i sp n x e hstmt
    simp only [Bool.and_eq_true, beq_iff_eq, Option.any_eq_true, Bool.not_eq_true', List.contains_eq_mem,
      decide_eq_false_iff_not] at h
    obtain ⟨⟨⟨hname, t, ht, hform⟩, hb⟩, o, ho, hf⟩ := h
    exact ⟨sp, n, x, e, t, o, hstmt, hname, ht, hform, hb, ho, hf⟩
  · cases h

end Targets

end Native

end Gondola
