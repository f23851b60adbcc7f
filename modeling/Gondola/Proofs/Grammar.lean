import Gondola.Parser.Stmt

/-! The grammar of the language over token lists. Rules look at the kinds and texts of tokens only, and
the trees they build carry neither places nor numbers. -/
namespace Gondola.Grammar

/-- A name as a tree without places has it. -/
def word (t : Token) : Ident := ⟨t.text, default⟩

section Lists

variable {α : Type} (item : List Token → α → Prop)

/-- Items between commas. The last one may have a comma after it too. -/
inductive Sequence : List Token → List α → Prop
  | nil : Sequence [] []
  | last {ts a} (h : item ts a) : Sequence ts [a]
  | cons {ts us a as comma} (h : item ts a) (hc : comma.kind = .mark .comma)
      (hs : Sequence us as) : Sequence (ts ++ comma :: us) (a :: as)

/-- At least one item, with commas only between the items. -/
inductive OneOrMore : List Token → List α → Prop
  | last {ts a} (h : item ts a) : OneOrMore ts [a]
  | cons {ts us a as comma} (h : item ts a) (hc : comma.kind = .mark .comma)
      (hs : OneOrMore us as) : OneOrMore (ts ++ comma :: us) (a :: as)

/-- Items in parentheses, or none without parentheses. -/
inductive Payload : List Token → List α → Prop
  | absent : Payload [] []
  | present {l ts as r} (hl : l.kind = .mark .lparen) (hs : Sequence item ts as)
      (hr : r.kind = .mark .rparen) : Payload (l :: ts ++ [r]) as

end Lists

inductive IsName : List Token → Ident → Prop
  | mk {t} (h : t.kind = .identifier) : IsName [t] (word t)

inductive IsType : List Token → TypeExpr → Prop
  | plain {t} (h : t.kind = .identifier) : IsType [t] (.mk (word t) [] default)
  | applied {t l ts as r} (h : t.kind = .identifier) (hl : l.kind = .mark .less)
      (hs : OneOrMore IsType ts as) (hr : r.kind = .mark .greater) :
      IsType (t :: l :: ts ++ [r]) (.mk (word t) as default)

/-- The levels of expressions, each with the next tighter one. -/
inductive Looser : Precedence → Precedence → Prop
  | or : Looser .or .and
  | and : Looser .and .comparison
  | comparison : Looser .comparison .sum
  | sum : Looser .sum .product
  | product : Looser .product .unary
  | unary : Looser .unary .call
  | call : Looser .call .atom

/-- The operator that a token is between two operands, and the levels of the left and the right one. -/
inductive IsBinary : TokenKind → BinaryOp → Precedence → Precedence → Prop
  | or : IsBinary (.keyword .orKw) .or .or .and
  | and : IsBinary (.keyword .andKw) .and .and .comparison
  | eq : IsBinary (.mark .eqEq) .eq .comparison .sum
  | ne : IsBinary (.mark .notEq) .ne .comparison .sum
  | lt : IsBinary (.mark .less) .lt .comparison .sum
  | le : IsBinary (.mark .lessEq) .le .comparison .sum
  | gt : IsBinary (.mark .greater) .gt .comparison .sum
  | ge : IsBinary (.mark .greaterEq) .ge .comparison .sum
  | add : IsBinary (.mark .plus) .add .sum .product
  | sub : IsBinary (.mark .minus) .sub .sum .product
  | mul : IsBinary (.mark .star) .mul .product .unary
  | div : IsBinary (.mark .slash) .div .product .unary
  | rem : IsBinary (.mark .percent) .rem .product .unary

/-- The operator that a token is in front of an operand. -/
inductive IsUnary : TokenKind → UnaryOp → Prop
  | neg : IsUnary (.mark .minus) .neg
  | not : IsUnary (.keyword .notKw) .not

/-- The number that decimal digits stand for. -/
inductive Numeral : List Char → Nat → Prop
  | nil : Numeral [] 0
  | snoc {cs n c} (h : Numeral cs n) : Numeral (cs ++ [c]) (10 * n + (c.toNat - '0'.toNat))

mutual
/-- Expressions by level. A level holds the tighter ones. A prefix operator takes its own level, and
parentheses leave no node. -/
inductive IsExpr : Precedence → List Token → Expr → Prop
  | looser {l m ts e} (hl : Looser l m) (h : IsExpr m ts e) : IsExpr l ts e
  | binary {m n ts t us op l r} (hl : IsExpr m ts l) (ht : IsBinary t.kind op m n)
      (hr : IsExpr n us r) : IsExpr m (ts ++ t :: us) (.binary default op l r)
  | unary {t ts op e} (ht : IsUnary t.kind op) (h : IsExpr .unary ts e) :
      IsExpr .unary (t :: ts) (.unary default op e)
  | call {ts l us r c as} (hc : IsExpr .call ts c) (hl : l.kind = .mark .lparen)
      (ha : Sequence IsArgument us as) (hr : r.kind = .mark .rparen) :
      IsExpr .call (ts ++ l :: us ++ [r]) (.call default c as)
  | index {ts l us r b i} (hb : IsExpr .call ts b) (hl : l.kind = .mark .lbracket)
      (hi : IsExpr .or us i) (hr : r.kind = .mark .rbracket) :
      IsExpr .call (ts ++ l :: us ++ [r]) (.index default b i)
  | field {ts d x b} (hb : IsExpr .call ts b) (hd : d.kind = .mark .dot)
      (hx : x.kind = .identifier) : IsExpr .call (ts ++ [d, x]) (.field default b (word x))
  | symbol {t} (h : t.kind = .identifier) : IsExpr .atom [t] (.symbol default (word t))
  | int {t n} (h : t.kind = .int) (hv : Numeral t.text.toList n) (hn : n ≤ Nat.pow 2 63 - 1) :
      IsExpr .atom [t] (.int default n)
  | string {t} (h : t.kind = .string) : IsExpr .atom [t] (.string default t.text)
  | trueLit {t} (h : t.kind = .keyword .trueKw) : IsExpr .atom [t] (.bool default true)
  | falseLit {t} (h : t.kind = .keyword .falseKw) : IsExpr .atom [t] (.bool default false)
  | group {l ts r e} (hl : l.kind = .mark .lparen) (h : IsExpr .or ts e)
      (hr : r.kind = .mark .rparen) : IsExpr .atom (l :: ts ++ [r]) e
  | list {l ts r es} (hl : l.kind = .mark .lbracket) (h : Sequence (IsExpr .or) ts es)
      (hr : r.kind = .mark .rbracket) : IsExpr .atom (l :: ts ++ [r]) (.list default es)
  | map {l ts r es} (hl : l.kind = .mark .lbrace) (h : Sequence IsEntry ts es)
      (hr : r.kind = .mark .rbrace) : IsExpr .atom (l :: ts ++ [r]) (.map default es)
inductive IsArgument : List Token → Argument → Prop
  | positional {ts e} (h : IsExpr .or ts e) : IsArgument ts ⟨none, e⟩
  | keyword {x c ts e} (hx : x.kind = .identifier) (hc : c.kind = .mark .colon)
      (h : IsExpr .or ts e) : IsArgument (x :: c :: ts) ⟨some (word x), e⟩
inductive IsEntry : List Token → Expr × Expr → Prop
  | mk {ts c us k v} (hk : IsExpr .or ts k) (hc : c.kind = .mark .colon) (hv : IsExpr .or us v) :
      IsEntry (ts ++ c :: us) (k, v)
end

/-- A type behind one of the given marks, or nothing. -/
inductive Annotation (marks : List TokenKind) : List Token → Option TypeExpr → Prop
  | absent : Annotation marks [] none
  | present {m ts t} (hm : m.kind ∈ marks) (h : IsType ts t) : Annotation marks (m :: ts) (some t)

inductive IsBinding : List Token → Binding → Prop
  | mk {x c ts t} (hx : x.kind = .identifier) (hc : c.kind = .mark .colon) (h : IsType ts t) :
      IsBinding (x :: c :: ts) ⟨word x, t⟩

inductive IsEnumCase : List Token → EnumCase → Prop
  | mk {x ts params} (hx : x.kind = .identifier) (h : Payload IsType ts params) :
      IsEnumCase (x :: ts) ⟨word x, params⟩

inductive IsPattern : List Token → Pattern → Prop
  | mk {x ts names} (hx : x.kind = .identifier) (h : Payload IsName ts names) :
      IsPattern (x :: ts) ⟨word x, names⟩

inductive IsLoopVars : List Token → LoopVars → Prop
  | item {x} (hx : x.kind = .identifier) : IsLoopVars [x] ⟨none, word x⟩
  | indexed {i c x} (hi : i.kind = .identifier) (hc : c.kind = .mark .comma)
      (hx : x.kind = .identifier) : IsLoopVars [i, c, x] ⟨some (word i), word x⟩

/-- What can stand left of an assignment. -/
inductive IsTarget : Expr → Prop
  | symbol {n x} : IsTarget (.symbol n x)
  | index {n b i} : IsTarget (.index n b i)
  | field {n b x} : IsTarget (.field n b x)

/-- The words before a further condition. -/
inductive IsElseIf : List Token → Prop
  | one {k} (hk : k.kind = .keyword .elifKw) : IsElseIf [k]
  | two {k i} (hk : k.kind = .keyword .elseKw) (hi : i.kind = .keyword .ifKw) : IsElseIf [k, i]

/-- Statements that a semicolon ends. -/
inductive IsSimple : List Token → Stmt → Prop
  | letVar {k x ts q us t e} (hk : k.kind = .keyword .letKw) (hx : x.kind = .identifier)
      (ht : Annotation [.mark .colon] ts t) (hq : q.kind = .mark .assign) (he : IsExpr .or us e) :
      IsSimple (k :: x :: ts ++ q :: us) (.letVar default (word x) t e)
  | ret {k} (hk : k.kind = .keyword .returnKw) : IsSimple [k] (.ret default none)
  | retValue {k ts e} (hk : k.kind = .keyword .returnKw) (he : IsExpr .or ts e) :
      IsSimple (k :: ts) (.ret default (some e))
  | expr {ts e} (he : IsExpr .or ts e) : IsSimple ts (.expr default e)
  | assign {ts q us t e} (ht : IsExpr .or ts t) (hp : IsTarget t) (hq : q.kind = .mark .assign)
      (he : IsExpr .or us e) : IsSimple (ts ++ q :: us) (.assign default t e)

mutual
/-- Statements that end by themselves. -/
inductive IsCompound : List Token → Stmt → Prop
  | ifElse {k ts us vs e b cs o} (hk : k.kind = .keyword .ifKw) (he : IsExpr .or ts e)
      (hb : IsBlock us b) (hc : IsElse vs cs o) :
      IsCompound (k :: ts ++ us ++ vs) (.ifElse default (⟨e, b⟩ :: cs) o)
  | whileLoop {k ts us e b} (hk : k.kind = .keyword .whileKw) (he : IsExpr .or ts e)
      (hb : IsBlock us b) : IsCompound (k :: ts ++ us) (.whileLoop default e b)
  | forEach {k xs i ts us vars e b} (hk : k.kind = .keyword .forKw) (hx : IsLoopVars xs vars)
      (hi : i.kind = .keyword .inKw) (he : IsExpr .or ts e) (hb : IsBlock us b) :
      IsCompound (k :: xs ++ i :: ts ++ us) (.forEach default vars e b)
  | matchOn {k ts l us r e as o} (hk : k.kind = .keyword .matchKw) (he : IsExpr .or ts e)
      (hl : l.kind = .mark .lbrace) (ha : IsArms us as o) (hr : r.kind = .mark .rbrace) :
      IsCompound (k :: ts ++ l :: us ++ [r]) (.matchOn default e as o)
  | struct {k x l ts r fields} (hk : k.kind = .keyword .structKw) (hx : x.kind = .identifier)
      (hl : l.kind = .mark .lbrace) (hf : Sequence IsBinding ts fields)
      (hr : r.kind = .mark .rbrace) :
      IsCompound (k :: x :: l :: ts ++ [r]) (.struct default ⟨word x, fields⟩)
  | enum {k x l ts r cases} (hk : k.kind = .keyword .enumKw) (hx : x.kind = .identifier)
      (hl : l.kind = .mark .lbrace) (hc : Sequence IsEnumCase ts cases)
      (hr : r.kind = .mark .rbrace) :
      IsCompound (k :: x :: l :: ts ++ [r]) (.enum default ⟨word x, cases⟩)
inductive IsBlock : List Token → Block → Prop
  | mk {l ts r ss} (hl : l.kind = .mark .lbrace) (hs : IsBody ts ss)
      (hr : r.kind = .mark .rbrace) : IsBlock (l :: ts ++ [r]) ss
/-- Statements one after the other. The semicolon of the last one may be left out, since the closing
brace follows. -/
inductive IsBody : List Token → Block → Prop
  | nil : IsBody [] []
  | compound {ts us s ss} (h : IsCompound ts s) (hs : IsBody us ss) : IsBody (ts ++ us) (s :: ss)
  | simple {ts semi us s ss} (h : IsSimple ts s) (hm : semi.kind = .mark .semicolon)
      (hs : IsBody us ss) : IsBody (ts ++ semi :: us) (s :: ss)
  | last {ts s} (h : IsSimple ts s) : IsBody ts [s]
/-- What follows the first block of a conditional. -/
inductive IsElse : List Token → List Clause → Option Block → Prop
  | stop : IsElse [] [] none
  | final {k ts b} (hk : k.kind = .keyword .elseKw) (hb : IsBlock ts b) : IsElse (k :: ts) [] (some b)
  | clause {ks ts us vs e b cs o} (hk : IsElseIf ks) (he : IsExpr .or ts e) (hb : IsBlock us b)
      (hc : IsElse vs cs o) : IsElse (ks ++ ts ++ us ++ vs) (⟨e, b⟩ :: cs) o
/-- Arms with at most one default, which is the last. -/
inductive IsArms : List Token → List Arm → Option Block → Prop
  | nil : IsArms [] [] none
  | default {k ts b} (hk : k.kind = .keyword .defaultKw) (hb : IsBlock ts b) :
      IsArms (k :: ts) [] (some b)
  | case {k ts us vs p b as o} (hk : k.kind = .keyword .caseKw) (hp : IsPattern ts p)
      (hb : IsBlock us b) (ha : IsArms vs as o) :
      IsArms (k :: ts ++ us ++ vs) (⟨p, b⟩ :: as) o
end

inductive IsFunction : List Token → FunctionDecl → Prop
  | mk {k x l ts r us vs params result b} (hk : k.kind = .keyword .fnKw)
      (hx : x.kind = .identifier) (hl : l.kind = .mark .lparen) (hp : Sequence IsBinding ts params)
      (hr : r.kind = .mark .rparen) (ht : Annotation [.mark .colon, .mark .arrow] us result)
      (hb : IsBlock vs b) :
      IsFunction (k :: x :: l :: ts ++ r :: us ++ vs) ⟨word x, params, result, b⟩

/-- The items of a program. As in a block, the semicolon of the last one may be left out. -/
inductive IsItems : List Token → List Item → Prop
  | nil : IsItems [] []
  | function {ts us f is} (h : IsFunction ts f) (hs : IsItems us is) :
      IsItems (ts ++ us) (.function default f :: is)
  | compound {ts us s is} (h : IsCompound ts s) (hs : IsItems us is) :
      IsItems (ts ++ us) (.stmt s :: is)
  | simple {ts semi us s is} (h : IsSimple ts s) (hm : semi.kind = .mark .semicolon)
      (hs : IsItems us is) : IsItems (ts ++ semi :: us) (.stmt s :: is)
  | last {ts s} (h : IsSimple ts s) : IsItems ts [.stmt s]

/-- The whole token list of a text, which the end of input closes. -/
inductive Generates : List Token → Program → Prop
  | mk {ts stop items} (h : IsItems ts items) (hs : stop.kind = .eof) :
      Generates (ts ++ [stop]) ⟨items⟩

end Gondola.Grammar
