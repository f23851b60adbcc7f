import Gondola.Proofs.Grammar.Frames
import Gondola.Proofs.Program.Parts

/-! Every expression of a program stands somewhere among its tokens, at a place where it can be exchanged. -/
namespace Gondola.Grammar

/-- The inner phrase stands in the tokens of the outer one. -/
def Occurs (X : Phrase) (ts : List Token) (Y : Phrase) : Prop :=
  ∃ before us after, ts = before ++ us ++ after ∧ Frames X before Y after ∧ Y us

section Occurs

variable {X Y : Phrase} {ts before after : List Token}

theorem occurs_self (h : X ts) : Occurs X ts X := ⟨[], ts, [], (List.append_nil ts).symm, .here, h⟩

/-- The expression stands among the tokens, as one of some level. -/
def HasExpr (X : Phrase) (ts : List Token) (e : Expr) : Prop := ∃ l, Occurs X ts (IsExpr l · e)

variable {e : Expr}

theorem HasExpr.widen (h : HasExpr Y ts e)
    (hf : ∀ {Z b a}, Frames Y b Z a → Frames X (before ++ b) Z (a ++ after)) : HasExpr X (before ++ ts ++ after) e := by
  obtain ⟨l, b, us, a, rfl, hframes, hus⟩ := h
  refine ⟨l, before ++ b, us, a ++ after, ?_, hf hframes, hus⟩
  simp only [List.append_assoc]

theorem HasExpr.expr (h : HasExpr Y ts e) (hp : ExprPart X before Y after) : HasExpr X (before ++ ts ++ after) e :=
  h.widen (.expr hp)

theorem HasExpr.list (h : HasExpr Y ts e) (hp : ListPart X before Y after) : HasExpr X (before ++ ts ++ after) e :=
  h.widen (.list hp)

theorem HasExpr.stmt (h : HasExpr Y ts e) (hp : StmtPart X before Y after) : HasExpr X (before ++ ts ++ after) e :=
  h.widen (.stmt hp)

theorem HasExpr.item (h : HasExpr Y ts e) (hp : ItemPart X before Y after) : HasExpr X (before ++ ts ++ after) e :=
  h.widen (.item hp)

theorem hasExpr_self {l : Precedence} (h : IsExpr l ts e) : HasExpr (IsExpr l · e) ts e := ⟨l, occurs_self h⟩

end Occurs

theorem IsExpr.hasExpr {l : Precedence} {ts : List Token} {e : Expr} (h : IsExpr l ts e) :
    ∀ d ∈ e.parts, HasExpr (IsExpr l · e) ts d := by
  refine @IsExpr.rec (fun l ts e _ => ∀ d ∈ e.parts, HasExpr (IsExpr l · e) ts d)
    (fun ts a _ => ∀ d ∈ a.value.parts, HasExpr (IsArgument · a) ts d)
    (fun ts kv _ => ∀ d ∈ kv.1.parts ++ kv.2.parts, HasExpr (IsEntry · kv) ts d)
    (fun ts as _ => ∀ d ∈ Expr.argumentParts as, HasExpr (Sequence IsArgument · as) ts d)
    (fun ts es _ => ∀ d ∈ Expr.itemParts es, HasExpr (Sequence (IsExpr .or) · es) ts d)
    (fun ts es _ => ∀ d ∈ Expr.entryParts es, HasExpr (Sequence IsEntry · es) ts d)
    ?looser ?binary ?unary ?call ?index ?field ?symbol ?int ?string ?trueLit ?falseLit ?group ?list ?map
    ?positional ?keyword ?entry ?noArgument ?lastArgument ?argument ?noItem ?lastItem ?item ?noEntry ?lastEntry
    ?entries l ts e h
  case looser =>
    intro l m ts e hl _ ih d hd
    simpa using (ih d hd).expr (.looser hl)
  case binary =>
    intro m n ts t us op l r hl ht hr ihl ihr d hd
    rcases List.mem_cons.mp hd with rfl | hd
    · exact hasExpr_self (.binary hl ht hr)
    · rcases List.mem_append.mp hd with hd | hd
      · simpa using (ihl d hd).expr (.left ht hr)
      · simpa using (ihr d hd).expr (.right hl ht)
  case unary =>
    intro t ts op e ht h ih d hd
    rcases List.mem_cons.mp hd with rfl | hd
    · exact hasExpr_self (.unary ht h)
    · simpa using (ih d hd).expr (.operand ht)
  case call =>
    intro ts l us r c as hc hl ha hr ihc iha d hd
    rcases List.mem_cons.mp hd with rfl | hd
    · exact hasExpr_self (.call hc hl ha hr)
    · rcases List.mem_append.mp hd with hd | hd
      · simpa using (ihc d hd).expr (.callee hl ha hr)
      · simpa using (iha d hd).expr (.arguments hc hl hr)
  case index =>
    intro ts l us r b i hb hl hi hr ihb ihi d hd
    rcases List.mem_cons.mp hd with rfl | hd
    · exact hasExpr_self (.index hb hl hi hr)
    · rcases List.mem_append.mp hd with hd | hd
      · simpa using (ihb d hd).expr (.base hl hi hr)
      · simpa using (ihi d hd).expr (.place hb hl hr)
  case field =>
    intro ts p x b hb hp hx ihb d hd
    rcases List.mem_cons.mp hd with rfl | hd
    · exact hasExpr_self (.field hb hp hx)
    · simpa using (ihb d hd).expr (.record hp hx)
  case symbol =>
    intro t ht d hd
    obtain rfl := List.mem_singleton.mp hd
    exact hasExpr_self (.symbol ht)
  case int =>
    intro t n ht hv hn d hd
    obtain rfl := List.mem_singleton.mp hd
    exact hasExpr_self (.int ht hv hn)
  case string =>
    intro t ht d hd
    obtain rfl := List.mem_singleton.mp hd
    exact hasExpr_self (.string ht)
  case trueLit =>
    intro t ht d hd
    obtain rfl := List.mem_singleton.mp hd
    exact hasExpr_self (.trueLit ht)
  case falseLit =>
    intro t ht d hd
    obtain rfl := List.mem_singleton.mp hd
    exact hasExpr_self (.falseLit ht)
  case group =>
    intro l ts r e hl _ hr ih d hd
    exact (ih d hd).expr (.group hl hr)
  case list =>
    intro l ts r es hl hs hr ih d hd
    rcases List.mem_cons.mp hd with rfl | hd
    · exact hasExpr_self (.list hl hs hr)
    · exact (ih d hd).expr (.items hl hr)
  case map =>
    intro l ts r es hl hs hr ih d hd
    rcases List.mem_cons.mp hd with rfl | hd
    · exact hasExpr_self (.map hl hs hr)
    · exact (ih d hd).expr (.entries hl hr)
  case positional =>
    intro ts e _ ih d hd
    simpa using (ih d hd).expr .positional
  case keyword =>
    intro x c ts e hx hc _ ih d hd
    simpa using (ih d hd).expr (.keyword hx hc)
  case entry =>
    intro ts c us k v hk hc hv ihk ihv d hd
    rcases List.mem_append.mp hd with hd | hd
    · simpa using (ihk d hd).expr (.key hc hv)
    · simpa using (ihv d hd).expr (.value hk hc)
  case noArgument | noItem | noEntry =>
    intro d hd
    cases hd
  case lastArgument =>
    rintro ts ⟨label, value⟩ _ ih d hd
    rw [Expr.argumentParts, Expr.argumentParts, List.append_nil] at hd
    simpa using (ih d hd).list .only
  case lastItem =>
    intro ts e _ ih d hd
    rw [Expr.itemParts, Expr.itemParts, List.append_nil] at hd
    simpa using (ih d hd).list .only
  case lastEntry =>
    rintro ts ⟨k, v⟩ _ ih d hd
    rw [Expr.entryParts, Expr.entryParts, List.append_nil] at hd
    simpa using (ih d hd).list .only
  case argument | entries =>
    rintro ts us ⟨first, second⟩ as comma h hc hs ih ihs d hd
    rcases List.mem_append.mp hd with hd | hd
    · simpa using (ih d hd).list (.first hc hs)
    · simpa using (ihs d hd).list (.others h hc)
  case item =>
    intro ts us e es comma h hc hs ih ihs d hd
    rcases List.mem_append.mp hd with hd | hd
    · simpa using (ih d hd).list (.first hc hs)
    · simpa using (ihs d hd).list (.others h hc)

theorem IsSimple.hasExpr {ts : List Token} {s : Stmt} (h : IsSimple ts s) :
    ∀ d ∈ s.parts, HasExpr (IsSimple · s) ts d := by
  intro d hd
  cases h with
  | letVar hk hx ht hq he => simpa using (he.hasExpr d hd).stmt (.initial hk hx ht hq)
  | ret => cases hd
  | retValue hk he => simpa using (he.hasExpr d hd).stmt (.returned hk)
  | expr he => simpa using (he.hasExpr d hd).stmt .expr
  | assign ht hp hq he =>
    rcases List.mem_append.mp hd with hd | hd
    · simpa using (ht.hasExpr d hd).stmt (.target hp hq he)
    · simpa using (he.hasExpr d hd).stmt (.assigned ht hp hq)

mutual
theorem IsCompound.hasExpr {ts : List Token} {s : Stmt} {d : Expr} :
    IsCompound ts s → d ∈ s.parts → HasExpr (IsCompound · s) ts d
  | .ifElse hk he hb hc, hd => by
    rw [Stmt.parts, Stmt.clauseParts, List.append_assoc, List.append_assoc] at hd
    rcases List.mem_append.mp hd with hd | hd
    · simpa using (he.hasExpr d hd).stmt (.ifCond hk hb hc)
    rcases List.mem_append.mp hd with hd | hd
    · simpa using (hb.hasExpr hd).stmt (.ifBlock hk he hc)
    · simpa using (hc.hasExpr hd).stmt (.ifElse hk he hb)
  | .whileLoop hk he hb, hd => by
    rcases List.mem_append.mp hd with hd | hd
    · simpa using (he.hasExpr d hd).stmt (.whileCond hk hb)
    · simpa using (hb.hasExpr hd).stmt (.whileBlock hk he)
  | .forEach hk hx hi he hb, hd => by
    rcases List.mem_append.mp hd with hd | hd
    · simpa using (he.hasExpr d hd).stmt (.iterated hk hx hi hb)
    · simpa using (hb.hasExpr hd).stmt (.forBlock hk hx hi he)
  | .matchOn hk he hl ha hr, hd => by
    rw [Stmt.parts, List.append_assoc] at hd
    rcases List.mem_append.mp hd with hd | hd
    · simpa using (he.hasExpr d hd).stmt (.scrutinee hk hl ha hr)
    · simpa using (ha.hasExpr hd).stmt (.arms hk he hl hr)
  | .struct .., hd | .enum .., hd => by cases hd
theorem IsBlock.hasExpr {ts : List Token} {b : Block} {d : Expr} :
    IsBlock ts b → d ∈ Stmt.blockParts b → HasExpr (IsBlock · b) ts d
  | .mk hl hs hr, hd => (hs.hasExpr hd).stmt (.block hl hr)
theorem IsBody.hasExpr {ts : List Token} {ss : Block} {d : Expr} :
    IsBody ts ss → d ∈ Stmt.blockParts ss → HasExpr (IsBody · ss) ts d
  | .nil, hd => by cases hd
  | .compound h hs, hd => by
    rcases List.mem_append.mp hd with hd | hd
    · simpa using (h.hasExpr hd).stmt (.compound hs)
    · simpa using (hs.hasExpr hd).stmt (.afterCompound h)
  | .simple h hm hs, hd => by
    rcases List.mem_append.mp hd with hd | hd
    · simpa using (h.hasExpr d hd).stmt (.simple hm hs)
    · simpa using (hs.hasExpr hd).stmt (.afterSimple h hm)
  | .last h, hd => by
    rw [Stmt.blockParts, Stmt.blockParts, List.append_nil] at hd
    simpa using (h.hasExpr d hd).stmt .last
theorem IsElse.hasExpr {ts : List Token} {cs : List Clause} {o : Option Block} {d : Expr} :
    IsElse ts cs o → d ∈ Stmt.clauseParts cs ++ Stmt.otherwiseParts o → HasExpr (IsElse · cs o) ts d
  | .stop, hd => by cases hd
  | .final hk hb, hd => by simpa using (hb.hasExpr hd).stmt (.final hk)
  | .clause hk he hb hc, hd => by
    rw [Stmt.clauseParts, List.append_assoc, List.append_assoc] at hd
    rcases List.mem_append.mp hd with hd | hd
    · simpa using (he.hasExpr d hd).stmt (.elseCond hk hb hc)
    rcases List.mem_append.mp hd with hd | hd
    · simpa using (hb.hasExpr hd).stmt (.elseBlock hk he hc)
    · simpa using (hc.hasExpr hd).stmt (.elseRest hk he hb)
theorem IsArms.hasExpr {ts : List Token} {as : List Arm} {o : Option Block} {d : Expr} :
    IsArms ts as o → d ∈ Stmt.armParts as ++ Stmt.otherwiseParts o → HasExpr (IsArms · as o) ts d
  | .nil, hd => by cases hd
  | .default hk hb, hd => by simpa using (hb.hasExpr hd).stmt (.default hk)
  | .case hk hp hb ha, hd => by
    rw [Stmt.armParts, List.append_assoc] at hd
    rcases List.mem_append.mp hd with hd | hd
    · simpa using (hb.hasExpr hd).stmt (.armBlock hk hp ha)
    · simpa using (ha.hasExpr hd).stmt (.armRest hk hp hb)
end

theorem IsItems.hasExpr {ts : List Token} {is : List Item} (h : IsItems ts is) :
    ∀ d ∈ is.flatMap Item.parts, HasExpr (IsItems · is) ts d := by
  induction h with
  | nil =>
    intro d hd
    cases hd
  | function h hs ih =>
    intro d hd
    rw [List.flatMap_cons] at hd
    rcases List.mem_append.mp hd with hd | hd
    · obtain ⟨hk, hx, hl, hp, hr, ht, hb⟩ := h
      have hfunction := (hb.hasExpr hd).item (.body hk hx hl hp hr ht)
      simpa using hfunction.item (.function hs)
    · simpa using (ih d hd).item (.afterFunction h)
  | compound h hs ih =>
    intro d hd
    rw [List.flatMap_cons] at hd
    rcases List.mem_append.mp hd with hd | hd
    · simpa using (h.hasExpr hd).item (.compoundItem hs)
    · simpa using (ih d hd).item (.afterCompoundItem h)
  | simple h hm hs ih =>
    intro d hd
    rw [List.flatMap_cons] at hd
    rcases List.mem_append.mp hd with hd | hd
    · simpa using (h.hasExpr d hd).item (.simpleItem hm hs)
    · simpa using (ih d hd).item (.afterSimpleItem h hm)
  | last h =>
    intro d hd
    rw [List.flatMap_cons, List.flatMap_nil, List.append_nil] at hd
    simpa using (h.hasExpr d hd).item .lastItem

end Gondola.Grammar
