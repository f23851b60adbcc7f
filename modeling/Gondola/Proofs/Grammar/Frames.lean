import Gondola.Proofs.Grammar

/-! Places in a derivation. A phrase that stands in a larger one, between tokens on its left and on its right, can be
exchanged for any other list of tokens that stands for the same tree. -/
namespace Gondola.Grammar

/-- The token lists that stand for one tree. -/
abbrev Phrase := List Token → Prop

/-! One rule of the grammar with all its parts but one: the tokens before and after the part that is left out. -/

/-- A part of an expression, an argument or an entry. -/
inductive ExprPart : Phrase → List Token → Phrase → List Token → Prop
  | looser {l m e} (hl : Looser l m) : ExprPart (IsExpr l · e) [] (IsExpr m · e) []
  | left {m n t us op l r} (ht : IsBinary t.kind op m n) (hr : IsExpr n us r) :
      ExprPart (IsExpr m · (.binary default op l r)) [] (IsExpr m · l) (t :: us)
  | right {m n ts t op l r} (hl : IsExpr m ts l) (ht : IsBinary t.kind op m n) :
      ExprPart (IsExpr m · (.binary default op l r)) (ts ++ [t]) (IsExpr n · r) []
  | operand {t op e} (ht : IsUnary t.kind op) :
      ExprPart (IsExpr .unary · (.unary default op e)) [t] (IsExpr .unary · e) []
  | callee {l us r c as} (hl : l.kind = .mark .lparen) (ha : Sequence IsArgument us as)
      (hr : r.kind = .mark .rparen) :
      ExprPart (IsExpr .call · (.call default c as)) [] (IsExpr .call · c) (l :: us ++ [r])
  | arguments {ts l r c as} (hc : IsExpr .call ts c) (hl : l.kind = .mark .lparen)
      (hr : r.kind = .mark .rparen) :
      ExprPart (IsExpr .call · (.call default c as)) (ts ++ [l]) (Sequence IsArgument · as) [r]
  | base {l us r b i} (hl : l.kind = .mark .lbracket) (hi : IsExpr .or us i)
      (hr : r.kind = .mark .rbracket) :
      ExprPart (IsExpr .call · (.index default b i)) [] (IsExpr .call · b) (l :: us ++ [r])
  | place {ts l r b i} (hb : IsExpr .call ts b) (hl : l.kind = .mark .lbracket)
      (hr : r.kind = .mark .rbracket) :
      ExprPart (IsExpr .call · (.index default b i)) (ts ++ [l]) (IsExpr .or · i) [r]
  | record {d x b} (hd : d.kind = .mark .dot) (hx : x.kind = .identifier) :
      ExprPart (IsExpr .call · (.field default b (word x))) [] (IsExpr .call · b) [d, x]
  | group {l r e} (hl : l.kind = .mark .lparen) (hr : r.kind = .mark .rparen) :
      ExprPart (IsExpr .atom · e) [l] (IsExpr .or · e) [r]
  | items {l r es} (hl : l.kind = .mark .lbracket) (hr : r.kind = .mark .rbracket) :
      ExprPart (IsExpr .atom · (.list default es)) [l] (Sequence (IsExpr .or) · es) [r]
  | entries {l r es} (hl : l.kind = .mark .lbrace) (hr : r.kind = .mark .rbrace) :
      ExprPart (IsExpr .atom · (.map default es)) [l] (Sequence IsEntry · es) [r]
  | positional {e} : ExprPart (IsArgument · ⟨none, e⟩) [] (IsExpr .or · e) []
  | keyword {x c e} (hx : x.kind = .identifier) (hc : c.kind = .mark .colon) :
      ExprPart (IsArgument · ⟨some (word x), e⟩) [x, c] (IsExpr .or · e) []
  | key {c us k v} (hc : c.kind = .mark .colon) (hv : IsExpr .or us v) :
      ExprPart (IsEntry · (k, v)) [] (IsExpr .or · k) (c :: us)
  | value {ts c k v} (hk : IsExpr .or ts k) (hc : c.kind = .mark .colon) :
      ExprPart (IsEntry · (k, v)) (ts ++ [c]) (IsExpr .or · v) []

/-- A part of a list of items with commas between them, in a payload if they are in parentheses. -/
inductive ListPart : Phrase → List Token → Phrase → List Token → Prop
  | only {α : Type} {item : List Token → α → Prop} {a} : ListPart (Sequence item · [a]) [] (item · a) []
  | first {α : Type} {item : List Token → α → Prop} {us a as comma} (hc : comma.kind = .mark .comma)
      (hs : Sequence item us as) : ListPart (Sequence item · (a :: as)) [] (item · a) (comma :: us)
  | others {α : Type} {item : List Token → α → Prop} {ts a as comma} (h : item ts a)
      (hc : comma.kind = .mark .comma) :
      ListPart (Sequence item · (a :: as)) (ts ++ [comma]) (Sequence item · as) []
  | payload {α : Type} {item : List Token → α → Prop} {l as r} (hl : l.kind = .mark .lparen)
      (hr : r.kind = .mark .rparen) : ListPart (Payload item · as) [l] (Sequence item · as) [r]
  | enumCase {x params} (hx : x.kind = .identifier) :
      ListPart (IsEnumCase · ⟨word x, params⟩) [x] (Payload IsType · params) []
  | pattern {x names} (hx : x.kind = .identifier) :
      ListPart (IsPattern · ⟨word x, names⟩) [x] (Payload IsName · names) []

/-- A part of a statement, a block or a clause. -/
inductive StmtPart : Phrase → List Token → Phrase → List Token → Prop
  | initial {k x ts q t e} (hk : k.kind = .keyword .letKw) (hx : x.kind = .identifier)
      (ht : Annotation [.mark .colon] ts t) (hq : q.kind = .mark .assign) :
      StmtPart (IsSimple · (.letVar default (word x) t e)) (k :: x :: ts ++ [q]) (IsExpr .or · e) []
  | returned {k e} (hk : k.kind = .keyword .returnKw) :
      StmtPart (IsSimple · (.ret default (some e))) [k] (IsExpr .or · e) []
  | expr {e} : StmtPart (IsSimple · (.expr default e)) [] (IsExpr .or · e) []
  | target {q us t e} (hp : IsTarget t) (hq : q.kind = .mark .assign) (he : IsExpr .or us e) :
      StmtPart (IsSimple · (.assign default t e)) [] (IsExpr .or · t) (q :: us)
  | assigned {ts q t e} (ht : IsExpr .or ts t) (hp : IsTarget t) (hq : q.kind = .mark .assign) :
      StmtPart (IsSimple · (.assign default t e)) (ts ++ [q]) (IsExpr .or · e) []
  | ifCond {k us vs e b cs o} (hk : k.kind = .keyword .ifKw) (hb : IsBlock us b) (hc : IsElse vs cs o) :
      StmtPart (IsCompound · (.ifElse default (⟨e, b⟩ :: cs) o)) [k] (IsExpr .or · e) (us ++ vs)
  | ifBlock {k ts vs e b cs o} (hk : k.kind = .keyword .ifKw) (he : IsExpr .or ts e) (hc : IsElse vs cs o) :
      StmtPart (IsCompound · (.ifElse default (⟨e, b⟩ :: cs) o)) (k :: ts) (IsBlock · b) vs
  | ifElse {k ts us e b cs o} (hk : k.kind = .keyword .ifKw) (he : IsExpr .or ts e) (hb : IsBlock us b) :
      StmtPart (IsCompound · (.ifElse default (⟨e, b⟩ :: cs) o)) (k :: ts ++ us) (IsElse · cs o) []
  | whileCond {k us e b} (hk : k.kind = .keyword .whileKw) (hb : IsBlock us b) :
      StmtPart (IsCompound · (.whileLoop default e b)) [k] (IsExpr .or · e) us
  | whileBlock {k ts e b} (hk : k.kind = .keyword .whileKw) (he : IsExpr .or ts e) :
      StmtPart (IsCompound · (.whileLoop default e b)) (k :: ts) (IsBlock · b) []
  | iterated {k xs i us vars e b} (hk : k.kind = .keyword .forKw) (hx : IsLoopVars xs vars)
      (hi : i.kind = .keyword .inKw) (hb : IsBlock us b) :
      StmtPart (IsCompound · (.forEach default vars e b)) (k :: xs ++ [i]) (IsExpr .or · e) us
  | forBlock {k xs i ts vars e b} (hk : k.kind = .keyword .forKw) (hx : IsLoopVars xs vars)
      (hi : i.kind = .keyword .inKw) (he : IsExpr .or ts e) :
      StmtPart (IsCompound · (.forEach default vars e b)) (k :: xs ++ i :: ts) (IsBlock · b) []
  | scrutinee {k l us r e as o} (hk : k.kind = .keyword .matchKw) (hl : l.kind = .mark .lbrace)
      (ha : IsArms us as o) (hr : r.kind = .mark .rbrace) :
      StmtPart (IsCompound · (.matchOn default e as o)) [k] (IsExpr .or · e) (l :: us ++ [r])
  | arms {k ts l r e as o} (hk : k.kind = .keyword .matchKw) (he : IsExpr .or ts e)
      (hl : l.kind = .mark .lbrace) (hr : r.kind = .mark .rbrace) :
      StmtPart (IsCompound · (.matchOn default e as o)) (k :: ts ++ [l]) (IsArms · as o) [r]
  | fields {k x l r fields} (hk : k.kind = .keyword .structKw) (hx : x.kind = .identifier)
      (hl : l.kind = .mark .lbrace) (hr : r.kind = .mark .rbrace) :
      StmtPart (IsCompound · (.struct default ⟨word x, fields⟩)) [k, x, l] (Sequence IsBinding · fields) [r]
  | cases {k x l r cases} (hk : k.kind = .keyword .enumKw) (hx : x.kind = .identifier)
      (hl : l.kind = .mark .lbrace) (hr : r.kind = .mark .rbrace) :
      StmtPart (IsCompound · (.enum default ⟨word x, cases⟩)) [k, x, l] (Sequence IsEnumCase · cases) [r]
  | block {l r ss} (hl : l.kind = .mark .lbrace) (hr : r.kind = .mark .rbrace) :
      StmtPart (IsBlock · ss) [l] (IsBody · ss) [r]
  | compound {us s ss} (hs : IsBody us ss) : StmtPart (IsBody · (s :: ss)) [] (IsCompound · s) us
  | afterCompound {ts s ss} (h : IsCompound ts s) : StmtPart (IsBody · (s :: ss)) ts (IsBody · ss) []
  | simple {semi us s ss} (hm : semi.kind = .mark .semicolon) (hs : IsBody us ss) :
      StmtPart (IsBody · (s :: ss)) [] (IsSimple · s) (semi :: us)
  | afterSimple {ts semi s ss} (h : IsSimple ts s) (hm : semi.kind = .mark .semicolon) :
      StmtPart (IsBody · (s :: ss)) (ts ++ [semi]) (IsBody · ss) []
  | last {s} : StmtPart (IsBody · [s]) [] (IsSimple · s) []
  | final {k b} (hk : k.kind = .keyword .elseKw) : StmtPart (IsElse · [] (some b)) [k] (IsBlock · b) []
  | elseIf {ts us vs e b cs o} (he : IsExpr .or ts e) (hb : IsBlock us b) (hc : IsElse vs cs o) :
      StmtPart (IsElse · (⟨e, b⟩ :: cs) o) [] IsElseIf (ts ++ us ++ vs)
  | elseCond {ks us vs e b cs o} (hk : IsElseIf ks) (hb : IsBlock us b) (hc : IsElse vs cs o) :
      StmtPart (IsElse · (⟨e, b⟩ :: cs) o) ks (IsExpr .or · e) (us ++ vs)
  | elseBlock {ks ts vs e b cs o} (hk : IsElseIf ks) (he : IsExpr .or ts e) (hc : IsElse vs cs o) :
      StmtPart (IsElse · (⟨e, b⟩ :: cs) o) (ks ++ ts) (IsBlock · b) vs
  | elseRest {ks ts us e b cs o} (hk : IsElseIf ks) (he : IsExpr .or ts e) (hb : IsBlock us b) :
      StmtPart (IsElse · (⟨e, b⟩ :: cs) o) (ks ++ ts ++ us) (IsElse · cs o) []
  | default {k b} (hk : k.kind = .keyword .defaultKw) : StmtPart (IsArms · [] (some b)) [k] (IsBlock · b) []
  | armPattern {k us vs p b as o} (hk : k.kind = .keyword .caseKw) (hb : IsBlock us b) (ha : IsArms vs as o) :
      StmtPart (IsArms · (⟨p, b⟩ :: as) o) [k] (IsPattern · p) (us ++ vs)
  | armBlock {k ts vs p b as o} (hk : k.kind = .keyword .caseKw) (hp : IsPattern ts p) (ha : IsArms vs as o) :
      StmtPart (IsArms · (⟨p, b⟩ :: as) o) (k :: ts) (IsBlock · b) vs
  | armRest {k ts us p b as o} (hk : k.kind = .keyword .caseKw) (hp : IsPattern ts p) (hb : IsBlock us b) :
      StmtPart (IsArms · (⟨p, b⟩ :: as) o) (k :: ts ++ us) (IsArms · as o) []

/-- A part of a function or of the items of a program. -/
inductive ItemPart : Phrase → List Token → Phrase → List Token → Prop
  | params {k x l r us vs params result b} (hk : k.kind = .keyword .fnKw) (hx : x.kind = .identifier)
      (hl : l.kind = .mark .lparen) (hr : r.kind = .mark .rparen)
      (ht : Annotation [.mark .colon, .mark .arrow] us result) (hb : IsBlock vs b) :
      ItemPart (IsFunction · ⟨word x, params, result, b⟩) [k, x, l] (Sequence IsBinding · params) (r :: us ++ vs)
  | result {k x l ts r vs params result b} (hk : k.kind = .keyword .fnKw) (hx : x.kind = .identifier)
      (hl : l.kind = .mark .lparen) (hp : Sequence IsBinding ts params) (hr : r.kind = .mark .rparen)
      (hb : IsBlock vs b) :
      ItemPart (IsFunction · ⟨word x, params, result, b⟩) (k :: x :: l :: ts ++ [r])
        ( Annotation [.mark .colon, .mark .arrow] · result) vs
  | body {k x l ts r us params result b} (hk : k.kind = .keyword .fnKw) (hx : x.kind = .identifier)
      (hl : l.kind = .mark .lparen) (hp : Sequence IsBinding ts params) (hr : r.kind = .mark .rparen)
      (ht : Annotation [.mark .colon, .mark .arrow] us result) :
      ItemPart (IsFunction · ⟨word x, params, result, b⟩) (k :: x :: l :: ts ++ r :: us) (IsBlock · b) []
  | function {us f is} (hs : IsItems us is) :
      ItemPart (IsItems · (.function default f :: is)) [] (IsFunction · f) us
  | afterFunction {ts f is} (h : IsFunction ts f) :
      ItemPart (IsItems · (.function default f :: is)) ts (IsItems · is) []
  | compoundItem {us s is} (hs : IsItems us is) : ItemPart (IsItems · (.stmt s :: is)) [] (IsCompound · s) us
  | afterCompoundItem {ts s is} (h : IsCompound ts s) : ItemPart (IsItems · (.stmt s :: is)) ts (IsItems · is) []
  | simpleItem {semi us s is} (hm : semi.kind = .mark .semicolon) (hs : IsItems us is) :
      ItemPart (IsItems · (.stmt s :: is)) [] (IsSimple · s) (semi :: us)
  | afterSimpleItem {ts semi s is} (h : IsSimple ts s) (hm : semi.kind = .mark .semicolon) :
      ItemPart (IsItems · (.stmt s :: is)) (ts ++ [semi]) (IsItems · is) []
  | lastItem {s} : ItemPart (IsItems · [.stmt s]) [] (IsSimple · s) []

section Fill

variable {X Y : Phrase} {before after us : List Token}

theorem ExprPart.fill (h : ExprPart X before Y after) (hu : Y us) : X (before ++ us ++ after) := by
  cases h <;> simp only [List.nil_append, List.append_nil, List.append_assoc, List.cons_append]
  case looser hl => exact .looser hl hu
  case left ht hr => exact .binary hu ht hr
  case right hl ht => exact .binary hl ht hu
  case operand ht => exact .unary ht hu
  case callee hl ha hr => simpa using IsExpr.call hu hl ha hr
  case arguments hc hl hr => simpa using IsExpr.call hc hl hu hr
  case base hl hi hr => simpa using IsExpr.index hu hl hi hr
  case place hb hl hr => simpa using IsExpr.index hb hl hu hr
  case record hd hx => exact .field hu hd hx
  case group hl hr => exact .group hl hu hr
  case items hl hr => exact .list hl hu hr
  case entries hl hr => exact .map hl hu hr
  case positional => exact .positional hu
  case keyword hx hc => exact .keyword hx hc hu
  case key hc hv => exact .mk hu hc hv
  case value hk hc => exact .mk hk hc hu

theorem ListPart.fill (h : ListPart X before Y after) (hu : Y us) : X (before ++ us ++ after) := by
  cases h <;> simp only [List.nil_append, List.append_nil, List.append_assoc, List.cons_append]
  case only => exact .last hu
  case first hc hs => exact .cons hu hc hs
  case others h hc => exact .cons h hc hu
  case payload hl hr => exact .present hl hu hr
  case enumCase hx => exact .mk hx hu
  case pattern hx => exact .mk hx hu

theorem StmtPart.fill (h : StmtPart X before Y after) (hu : Y us) : X (before ++ us ++ after) := by
  cases h <;> simp only [List.nil_append, List.append_nil, List.append_assoc, List.cons_append]
  case initial hk hx ht hq => exact .letVar hk hx ht hq hu
  case returned hk => exact .retValue hk hu
  case expr => exact .expr hu
  case target hp hq he => exact .assign hu hp hq he
  case assigned ht hp hq => exact .assign ht hp hq hu
  case ifCond hk hb hc => simpa using IsCompound.ifElse hk hu hb hc
  case ifBlock hk he hc => simpa using IsCompound.ifElse hk he hu hc
  case ifElse hk he hb => simpa using IsCompound.ifElse hk he hb hu
  case whileCond hk hb => exact .whileLoop hk hu hb
  case whileBlock hk he => exact .whileLoop hk he hu
  case iterated hk hx hi hb => simpa using IsCompound.forEach hk hx hi hu hb
  case forBlock hk hx hi he => simpa using IsCompound.forEach hk hx hi he hu
  case scrutinee hk hl ha hr => simpa using IsCompound.matchOn hk hu hl ha hr
  case arms hk he hl hr => simpa using IsCompound.matchOn hk he hl hu hr
  case fields hk hx hl hr => exact .struct hk hx hl hu hr
  case cases hk hx hl hr => exact .enum hk hx hl hu hr
  case block hl hr => exact .mk hl hu hr
  case compound hs => exact .compound hu hs
  case afterCompound h => exact .compound h hu
  case simple hm hs => exact .simple hu hm hs
  case afterSimple h hm => exact .simple h hm hu
  case last => exact .last hu
  case final hk => exact .final hk hu
  case elseIf he hb hc => simpa using IsElse.clause hu he hb hc
  case elseCond hb hc hk => simpa using IsElse.clause hk hu hb hc
  case elseBlock hk he hc => simpa using IsElse.clause hk he hu hc
  case elseRest hk he hb => simpa using IsElse.clause hk he hb hu
  case default hk => exact .default hk hu
  case armPattern hk hb ha => simpa using IsArms.case hk hu hb ha
  case armBlock hk hp ha => simpa using IsArms.case hk hp hu ha
  case armRest hk hp hb => simpa using IsArms.case hk hp hb hu

theorem ItemPart.fill (h : ItemPart X before Y after) (hu : Y us) : X (before ++ us ++ after) := by
  cases h <;> simp only [List.nil_append, List.append_nil, List.append_assoc, List.cons_append]
  case params hk hx hl hr ht hb => simpa using IsFunction.mk hk hx hl hu hr ht hb
  case result hk hx hl hp hr hb => simpa using IsFunction.mk hk hx hl hp hr hu hb
  case body hk hx hl hp hr ht => simpa using IsFunction.mk hk hx hl hp hr ht hu
  case function hs => exact .function hu hs
  case afterFunction h => exact .function h hu
  case compoundItem hs => exact .compound hu hs
  case afterCompoundItem h => exact .compound h hu
  case simpleItem hm hs => exact .simple hu hm hs
  case afterSimpleItem h hm => exact .simple h hm hu
  case lastItem => exact .last hu

end Fill

/-- A phrase at any depth in another one, between the tokens on its left and on its right. -/
inductive Frames : Phrase → List Token → Phrase → List Token → Prop
  | here {X} : Frames X [] X []
  | expr {X Y Z b a b' a'} (h : ExprPart X b Y a) (hs : Frames Y b' Z a') : Frames X (b ++ b') Z (a' ++ a)
  | list {X Y Z b a b' a'} (h : ListPart X b Y a) (hs : Frames Y b' Z a') : Frames X (b ++ b') Z (a' ++ a)
  | stmt {X Y Z b a b' a'} (h : StmtPart X b Y a) (hs : Frames Y b' Z a') : Frames X (b ++ b') Z (a' ++ a)
  | item {X Y Z b a b' a'} (h : ItemPart X b Y a) (hs : Frames Y b' Z a') : Frames X (b ++ b') Z (a' ++ a)

theorem Frames.fill {X Y : Phrase} {before after us : List Token} (h : Frames X before Y after) (hu : Y us) :
    X (before ++ us ++ after) := by
  have houter : ∀ b b' us a' a : List Token, b ++ b' ++ us ++ (a' ++ a) = b ++ (b' ++ us ++ a') ++ a := by
    intro b b' us a' a
    simp only [List.append_assoc]
  induction h with
  | here => rwa [List.nil_append, List.append_nil]
  | expr h _ ih | list h _ ih | stmt h _ ih | item h _ ih =>
    rw [houter]
    exact h.fill (ih hu)

end Gondola.Grammar
