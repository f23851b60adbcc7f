import Gondola.Typing.Check
import Mathlib.Data.List.Forall2

/-! The typing rules. A table of types is a typing of a program if the type of every expression stands in
the rule of its form with the types of its parts, at the declarations that are visible there. -/
namespace Gondola.Typing

/-- The declarations that are visible at a point, the nearest one first. -/
abbrev Env := List (String × Declared)

def declare (x : Ident) (t : Ty) (Γ : Env) : Env := (x.name, ⟨t, x⟩) :: Γ

def declareAll : List Ident → List Ty → Env → Env
  | x :: xs, t :: ts, Γ => declareAll xs ts (declare x t Γ)
  | _, _, Γ => Γ

inductive IsAtomic : String → Ty → Prop
  | bool : IsAtomic "bool" .bool
  | int : IsAtomic "int" .int
  | string : IsAtomic "string" .string
  | void : IsAtomic "void" .void

/-- The type that an annotation stands for. -/
inductive Denotes (Γ : Env) : TypeExpr → Ty → Prop
  | atomic {x s t} (hx : IsAtomic x.name t) : Denotes Γ (.mk x [] s) t
  | list {x a s t} (hx : x.name = "list") (ha : Denotes Γ a t) : Denotes Γ (.mk x [a] s) (.list t)
  | map {x a b s k v} (hx : x.name = "map") (ha : Denotes Γ a k) (hb : Denotes Γ b v) :
      Denotes Γ (.mk x [a, b] s) (.map k v)
  | named {x s t origin} (hx : ∀ u, ¬ IsAtomic x.name u) (hl : x.name ≠ "list")
      (hm : x.name ≠ "map") (h : Γ.lookup x.name = some ⟨.metatype t, origin⟩) :
      Denotes Γ (.mk x [] s) t

/-- The type of both operands of an operator, and of its result. -/
inductive BinaryRule : BinaryOp → Ty → Ty → Prop
  | or : BinaryRule .or .bool .bool
  | and : BinaryRule .and .bool .bool
  | eq : BinaryRule .eq .int .bool
  | ne : BinaryRule .ne .int .bool
  | lt : BinaryRule .lt .int .bool
  | le : BinaryRule .le .int .bool
  | gt : BinaryRule .gt .int .bool
  | ge : BinaryRule .ge .int .bool
  | add : BinaryRule .add .int .int
  | sub : BinaryRule .sub .int .int
  | mul : BinaryRule .mul .int .int
  | div : BinaryRule .div .int .int
  | rem : BinaryRule .rem .int .int

inductive UnaryRule : UnaryOp → Ty → Prop
  | neg : UnaryRule .neg .int
  | not : UnaryRule .not .bool

/-- The parameter that an argument binds: the one at its position, or the first one with its label. -/
inductive Binds (labels : List (Option String)) (position : Nat) : Option Ident → Nat → Prop
  | position : Binds labels position none position
  | label {x p} (h : labels[p]? = some (some x.name))
      (hfirst : ∀ q < p, labels[q]? ≠ some (some x.name)) : Binds labels position (some x) p

/-- The expression has a type in the table, and a value of that type may stand where `t` is wanted. -/
def Fits (T : TypeTable) (t : Ty) (e : Expr) : Prop :=
  ∃ actual, T.typeOf? e = some actual ∧ t.compatible actual = true

/-- Every expression in the given one has the type of its rule. -/
inductive WellTyped (T : TypeTable) (Γ : Env) : Expr → Prop
  | int {n v} (h : T.typeAt? n.id = some .int) : WellTyped T Γ (.int n v)
  | string {n v} (h : T.typeAt? n.id = some .string) : WellTyped T Γ (.string n v)
  | bool {n v} (h : T.typeAt? n.id = some .bool) : WellTyped T Γ (.bool n v)
  | declared {n x d} (hx : Γ.lookup x.name = some d) (h : T.typeAt? n.id = some d.type)
      (hd : T.declarationAt? n.id = some d.origin) (hb : n.id ∉ T.builtins) :
      WellTyped T Γ (.symbol n x)
  | builtin {n x t} (hx : Γ.lookup x.name = none) (ht : builtins.lookup x.name = some t)
      (h : T.typeAt? n.id = some t) (hb : n.id ∈ T.builtins) : WellTyped T Γ (.symbol n x)
  | binary {n op l r t u} (hop : BinaryRule op t u) (hl : WellTyped T Γ l) (hlt : Fits T t l)
      (hr : WellTyped T Γ r) (hrt : Fits T t r) (h : T.typeAt? n.id = some u) :
      WellTyped T Γ (.binary n op l r)
  | unary {n op e t} (hop : UnaryRule op t) (he : WellTyped T Γ e) (het : Fits T t e)
      (h : T.typeAt? n.id = some t) : WellTyped T Γ (.unary n op e)
  /-- A call of a function. Each parameter is bound by one argument. -/
  | call {n c as ps ls r} (hc : WellTyped T Γ c) (hct : T.typeOf? c = some (.function ps ls r))
      (hlen : as.length = ps.length) (has : ∀ a ∈ as, WellTyped T Γ a.value)
      (hps : ∀ i a, as[i]? = some a → ∃ p t, Binds ls i a.label p ∧ ps[p]? = some t ∧
        Fits T t a.value)
      (hone : ∀ i j a b p, as[i]? = some a → as[j]? = some b → Binds ls i a.label p →
        Binds ls j b.label p → i = j)
      (h : T.typeAt? n.id = some r) : WellTyped T Γ (.call n c as)
  /-- A call of the name of a struct, with one labelled argument for each field. -/
  | construct {n c as s fields} (hc : WellTyped T Γ c)
      (hct : T.typeOf? c = some (.metatype (.struct s fields)))
      (has : ∀ a ∈ as, WellTyped T Γ a.value)
      (hfs : ∀ a ∈ as, ∃ x t, a.label = some x ∧ fields.lookup x.name = some t ∧ Fits T t a.value)
      (hone : ∀ f ∈ fields, ∃ a ∈ as, a.label.map Ident.name = some f.1)
      (hdistinct : (as.map fun a => a.label.map Ident.name).Nodup)
      (h : T.typeAt? n.id = some (.struct s fields)) : WellTyped T Γ (.call n c as)
  | list {n es t} (hes : ∀ e ∈ es, WellTyped T Γ e) (ht : ∀ e ∈ es, Fits T t e)
      (hnil : es = [] → t = .any) (h : T.typeAt? n.id = some (.list t)) : WellTyped T Γ (.list n es)
  | map {n es k v} (hks : ∀ e ∈ es, WellTyped T Γ e.1) (hvs : ∀ e ∈ es, WellTyped T Γ e.2)
      (hk : ∀ e ∈ es, Fits T k e.1) (hv : ∀ e ∈ es, Fits T v e.2)
      (hnil : es = [] → k = .any ∧ v = .any) (h : T.typeAt? n.id = some (.map k v)) :
      WellTyped T Γ (.map n es)
  | item {n b i t} (hb : WellTyped T Γ b) (hbt : T.typeOf? b = some (.list t))
      (hi : WellTyped T Γ i) (hit : Fits T .int i) (h : T.typeAt? n.id = some t) :
      WellTyped T Γ (.index n b i)
  | entry {n b i k v} (hb : WellTyped T Γ b) (hbt : T.typeOf? b = some (.map k v))
      (hi : WellTyped T Γ i) (hit : Fits T k i) (h : T.typeAt? n.id = some v) :
      WellTyped T Γ (.index n b i)
  | field {n b x s fields t} (hb : WellTyped T Γ b) (hbt : T.typeOf? b = some (.struct s fields))
      (hx : fields.lookup x.name = some t) (h : T.typeAt? n.id = some t) :
      WellTyped T Γ (.field n b x)
  /-- A case that holds nothing is a value of its enum. -/
  | plainCase {n b x e cases} (hb : WellTyped T Γ b)
      (hbt : T.typeOf? b = some (.metatype (.enum e cases)))
      (hx : cases.lookup x.name = some []) (h : T.typeAt? n.id = some (.enum e cases)) :
      WellTyped T Γ (.field n b x)
  /-- A case that holds values is a function to its enum, whose parameters have no labels. -/
  | holdingCase {n b x e cases p ps} (hb : WellTyped T Γ b)
      (hbt : T.typeOf? b = some (.metatype (.enum e cases)))
      (hx : cases.lookup x.name = some (p :: ps))
      (h : T.typeAt? n.id =
        some (.function (p :: ps) (List.replicate (p :: ps).length none) (.enum e cases))) :
      WellTyped T Γ (.field n b x)

/-- The type of a variable: its annotation, which the value has to fit, or else the type of the value. -/
inductive VariableType (T : TypeTable) (Γ : Env) (e : Expr) : Option TypeExpr → Ty → Prop
  | inferred {t} (h : T.typeOf? e = some t) : VariableType T Γ e none t
  | annotated {a t} (ha : Denotes Γ a t) (h : Fits T t e) : VariableType T Γ e (some a) t

def FieldsDenote (Γ : Env) : List Binding → List (String × Ty) → Prop :=
  List.Forall₂ fun b f => f.1 = b.name.name ∧ Denotes Γ b.type f.2

def CasesDenote (Γ : Env) : List EnumCase → List (String × List Ty) → Prop :=
  List.Forall₂ fun c d => d.1 = c.name.name ∧ List.Forall₂ (Denotes Γ) c.params d.2

/-- The types of the names that a loop over items of the given type binds. -/
def loopTypes (v : LoopVars) (item : Ty) : List Ty := (v.index.map fun _ => Ty.int).toList ++ [item]

mutual
/-- A statement inside a function with the given result, if it is inside one, and the declarations that
are visible after it. -/
inductive StmtTyped (T : TypeTable) : Env → Option Ty → Stmt → Env → Prop
  | letVar {Γ result s x a e t} (he : WellTyped T Γ e) (ht : VariableType T Γ e a t) (hv : t ≠ .void) :
      StmtTyped T Γ result (.letVar s x a e) (declare x t Γ)
  | assign {Γ result s target e t} (ht : WellTyped T Γ target) (htt : T.typeOf? target = some t)
      (hplace : ∀ n x u, target = .symbol n x → t ≠ .metatype u) (he : WellTyped T Γ e)
      (het : Fits T t e) : StmtTyped T Γ result (.assign s target e) Γ
  | ret {Γ s t} (h : t.compatible .void = true) : StmtTyped T Γ (some t) (.ret s none) Γ
  | retValue {Γ s e t} (he : WellTyped T Γ e) (het : Fits T t e) :
      StmtTyped T Γ (some t) (.ret s (some e)) Γ
  | expr {Γ result s e} (he : WellTyped T Γ e) : StmtTyped T Γ result (.expr s e) Γ
  | ifElse {Γ result s cs o} (hcs : ∀ c ∈ cs, WellTyped T Γ c.cond)
      (hct : ∀ c ∈ cs, Fits T .bool c.cond) (hbs : ∀ c ∈ cs, BlockTyped T Γ result c.body)
      (ho : ∀ b, o = some b → BlockTyped T Γ result b) : StmtTyped T Γ result (.ifElse s cs o) Γ
  | whileLoop {Γ result s c b} (hc : WellTyped T Γ c) (hct : Fits T .bool c)
      (hb : BlockTyped T Γ result b) : StmtTyped T Γ result (.whileLoop s c b) Γ
  | forEach {Γ result s v e b t} (he : WellTyped T Γ e) (het : T.typeOf? e = some (.list t))
      (hb : BlockTyped T (declareAll v.names (loopTypes v t) Γ) result b) :
      StmtTyped T Γ result (.forEach s v e b) Γ
  | matchOn {Γ result s e as o name cases} (he : WellTyped T Γ e)
      (het : T.typeOf? e = some (.enum name cases))
      (hps : ∀ a ∈ as, ∃ ts, cases.lookup a.pattern.name.name = some ts ∧
        a.pattern.bindings.length = ts.length)
      (hbs : ∀ a ∈ as, ∀ ts, cases.lookup a.pattern.name.name = some ts →
        BlockTyped T (declareAll a.pattern.bindings ts Γ) result a.body)
      (hone : (as.map fun a => a.pattern.name.name).Nodup)
      (ho : ∀ b, o = some b → BlockTyped T Γ result b) : StmtTyped T Γ result (.matchOn s e as o) Γ
  | struct {Γ result s d fields} (hfs : FieldsDenote Γ d.fields fields) :
      StmtTyped T Γ result (.struct s d) (declare d.name (.metatype (.struct d.name.name fields)) Γ)
  | enum {Γ result s d cases} (hcs : CasesDenote Γ d.cases cases) :
      StmtTyped T Γ result (.enum s d) (declare d.name (.metatype (.enum d.name.name cases)) Γ)
/-- Statements one after the other. What they declare is visible in the block alone. -/
inductive BlockTyped (T : TypeTable) : Env → Option Ty → Block → Prop
  | nil {Γ result} : BlockTyped T Γ result []
  | cons {Γ Γ' result s ss} (h : StmtTyped T Γ result s Γ') (hs : BlockTyped T Γ' result ss) :
      BlockTyped T Γ result (s :: ss)
end

/-- What a function returns if nothing else is written. -/
inductive ResultType (Γ : Env) : Option TypeExpr → Ty → Prop
  | void : ResultType Γ none .void
  | written {a t} (h : Denotes Γ a t) : ResultType Γ (some a) t

/-- A function, and its type. It is visible in its own body, around its parameters, and the table has its
signature. -/
inductive FunctionTyped (T : TypeTable) (Γ : Env) (f : FunctionDecl) : Ty → Prop
  | mk {ts r} (hts : List.Forall₂ (Denotes Γ) (f.params.map Binding.type) ts)
      (hr : ResultType Γ f.result r)
      (hsig : T.function? f.name.name = some ⟨ts, f.params.map fun p => some p.name.name, r⟩)
      (hb : BlockTyped T (declareAll (f.params.map Binding.name) ts (declare f.name
        (.function ts (f.params.map fun p => some p.name.name) r) Γ)) (some r) f.body) :
      FunctionTyped T Γ f (.function ts (f.params.map fun p => some p.name.name) r)

inductive ItemsTyped (T : TypeTable) : Env → List Item → Prop
  | nil {Γ} : ItemsTyped T Γ []
  | function {Γ s f t is} (h : FunctionTyped T Γ f t) (his : ItemsTyped T (declare f.name t Γ) is) :
      ItemsTyped T Γ (.function s f :: is)
  | stmt {Γ Γ' s is} (h : StmtTyped T Γ none s Γ') (his : ItemsTyped T Γ' is) :
      ItemsTyped T Γ (.stmt s :: is)

/-- The functions among some items, in their order, with the signatures that are written where the declarations
before them are visible. -/
inductive FunctionsDenote (T : TypeTable) : Env → List Item → List (String × Signature) → Prop
  | nil {Γ} : FunctionsDenote T Γ [] []
  | function {Γ s f ts r is sigs} (hts : List.Forall₂ (Denotes Γ) (f.params.map Binding.type) ts)
      (hr : ResultType Γ f.result r)
      (h : FunctionsDenote T (declare f.name
        (.function ts (f.params.map fun p => some p.name.name) r) Γ) is sigs) :
      FunctionsDenote T Γ (.function s f :: is)
        ((f.name.name, ⟨ts, f.params.map fun p => some p.name.name, r⟩) :: sigs)
  | stmt {Γ Γ' s is sigs} (hs : StmtTyped T Γ none s Γ') (h : FunctionsDenote T Γ' is sigs) :
      FunctionsDenote T Γ (.stmt s :: is) sigs

/-- A program starts with nothing but the built-ins. -/
def ProgramTyped (T : TypeTable) (p : Program) : Prop := ItemsTyped T [] p.items

end Gondola.Typing
