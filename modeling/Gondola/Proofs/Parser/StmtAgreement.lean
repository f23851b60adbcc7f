import Gondola.Proofs.Parser.Agreement
import Gondola.Proofs.Parser.Halting

/-! Two runs of the parser side by side: statements and programs. -/
namespace Gondola

namespace Parser

variable {α γ : Type}

section Stmts

variable {v : Comparison} {c : Prop} {view : View α γ} {stmt stmt' : Parse Stmt} {t t' : Token}
  {n n' bound bound' : Nat}

theorem agree_bindingWithin (hb : bound ≤ bound') :
    Agree v c Binding.mapSpan (fun _ => True) (bindingWithin bound) (bindingWithin bound') := by
  refine agree_ident.bind fun x x' hx => (agree_consume (by simp)).bind fun _ _ _ => ?_
  refine (agree_typeExpr hb).bind fun a a' ha => agree_ret ?_
  simp only [Binding.mapSpan, hx, ha]

theorem agree_typeAfter {marks : List TokenKind} (hm : .eof ∉ marks) (hb : bound ≤ bound') :
    Agree v c (fun σ => Option.map (TypeExpr.mapSpan σ)) (fun _ => True) (typeAfter marks bound)
      (typeAfter marks bound') := by
  refine (agree_takeAny hm).bind fun o o' ho => ?_
  cases o with
  | some t =>
    cases o' with
    | some t' => exact (agree_typeExpr hb).bind fun a a' ha => agree_ret (congrArg some ha)
    | none => cases ho
  | none =>
    cases o' with
    | some t' => cases ho
    | none => exact agree_ret rfl

theorem agree_payloadOf {item item' : Parse α} (hitem : ∀ c, Agree v c view (fun _ => True) item item')
    (hb : bound ≤ bound') :
    Agree v c (fun σ => List.map (view σ)) (fun _ => True) (payloadOf item bound) (payloadOf item' bound') := by
  refine .bindTake (by simp) (fun t t' ht => ?_) (agree_ret rfl)
  refine (agree_listOf (by simp) hitem hb).bindPair ?_
  intro as as' u u' has _
  exact agree_ret has

theorem agree_enumCaseWithin (hb : bound ≤ bound') :
    Agree v c EnumCase.mapSpan (fun _ => True) (enumCaseWithin bound) (enumCaseWithin bound') := by
  refine agree_ident.bind fun x x' hx => ?_
  refine (agree_payloadOf (fun _ => agree_typeExpr hb) hb).bind fun as as' has => ?_
  refine agree_ret ?_
  simp only [EnumCase.mapSpan, hx, has]

theorem agree_terminator : Agree v c (fun _ => id) (fun _ => True) terminator terminator := by
  refine agree_advance.bind fun t t' ht => ?_
  rw [← kind_eq ht]
  split
  · exact agree_ret rfl
  · exact agree_pushBack ht fun he => he
  · exact agree_pushBack ht fun he => he
  · exact agree_unexpected ht _ fun he => he

theorem agree_stmtsBy (hstmt : ∀ c, Agree v c Stmt.mapSpan (fun _ => True) stmt stmt')
    (hn : n ≤ n') :
    Agree v c (fun σ => Prod.map (Stmt.mapSpanBlock σ) σ) (fun _ => True) (stmtsBy stmt n)
      (stmtsBy stmt' n') := by
  induction n generalizing n' c with
  | zero => exact agree_endless
  | succ n ih =>
    obtain ⟨n', rfl⟩ : ∃ k, n' = k + 1 := ⟨n' - 1, by omega⟩
    refine agree_advance.bind fun t t' ht => ?_
    rw [← kind_eq ht]
    split
    · exact agree_ret (congrArg (Prod.mk []) (span_eq ht))
    · exact agree_unexpected ht _ fun he => he
    · refine (agree_pushBack ht fun he => he).bind fun _ _ _ => (hstmt _).bind fun s s' hs => ?_
      refine (ih (by omega)).bindPair ?_
      intro ss ss' u u' hss hu
      refine agree_ret ?_
      simp only [Prod.map, Stmt.mapSpanBlock, hs, hss, hu]

theorem agree_loopVars : Agree v c LoopVars.mapSpan (fun _ => True) loopVars loopVars := by
  refine agree_ident.bind fun x x' hx => .bindTake (by simp) (fun _ _ _ => ?_) ?_
  · refine agree_ident.bind fun y y' hy => agree_ret ?_
    simp only [LoopVars.mapSpan, Option.map_some, hx, hy]
  · refine agree_ret ?_
    simp only [LoopVars.mapSpan, Option.map_none, hx]

section Blocks

variable (hstmt : ∀ c, Agree v c Stmt.mapSpan (fun _ => True) stmt stmt') (hb : bound ≤ bound')

include hstmt hb

theorem agree_blockBy : Agree v c (fun σ => Prod.map (Stmt.mapSpanBlock σ) σ) (fun _ => True)
    (blockBy stmt bound) (blockBy stmt' bound') :=
  (agree_consume (by simp)).bind fun _ _ _ => agree_stmtsBy hstmt hb

theorem agree_clauseBy : Agree v c (fun σ => Prod.map (Clause.mapSpan σ) σ) (fun _ => True)
    (clauseBy stmt bound) (clauseBy stmt' bound') := by
  refine (agree_exprWithin hb).bind fun e e' he => (agree_blockBy hstmt hb).bindPair ?_
  intro ss ss' u u' hss hu
  refine agree_ret ?_
  simp only [Prod.map, Clause.mapSpan, he, hss, hu]

omit hstmt hb in
theorem agree_continuation : Agree v c (fun _ => id) (· ≠ .clause) continuation continuation := by
  refine .bindTake (by simp) (fun _ _ _ => agree_pure rfl nofun) ?_
  refine .bindTake (by simp) (fun _ _ _ => ?_) (agree_pure rfl fun _ => nofun)
  exact .bindTake (by simp) (fun _ _ _ => agree_pure rfl nofun) (agree_pure rfl fun _ => nofun)

theorem agree_clausesBy {s s' : Span} (hs : v.left s = v.right s') (hn : n ≤ n') :
    Agree v c (fun σ => Prod.map (Stmt.mapSpanClauses σ) (Prod.map (Stmt.mapSpanOtherwise σ) σ))
      (fun _ => True) (clausesBy stmt bound n s) (clausesBy stmt' bound' n' s') := by
  induction n generalizing n' c s s' with
  | zero => exact agree_endless
  | succ n ih =>
    obtain ⟨n', rfl⟩ : ∃ k, n' = k + 1 := ⟨n' - 1, by omega⟩
    refine agree_continuation.bind fun k k' hk => ?_
    obtain rfl : k = k' := hk
    cases k with
    | clause =>
      refine (agree_clauseBy hstmt hb).bindPair ?_
      intro x x' u u' hx hu
      refine (ih hu (by omega)).bindPair ?_
      rintro cs cs' ⟨o, w⟩ ⟨o', w'⟩ hcs how
      refine agree_ret ?_
      refine Prod.ext ?_ how
      show Stmt.mapSpanClauses v.left (x :: cs) = Stmt.mapSpanClauses v.right (x' :: cs')
      rw [Stmt.mapSpanClauses_cons, Stmt.mapSpanClauses_cons, hx, hcs]
    | final =>
      refine (agree_blockBy hstmt hb).bindPair ?_
      intro ss ss' u u' hss hu
      refine agree_ret ?_
      simp only [Prod.map, Stmt.mapSpanClauses, Stmt.mapSpanOtherwise, hss, hu]
    | stop =>
      refine agree_ret ?_
      simp only [Prod.map, Stmt.mapSpanClauses, Stmt.mapSpanOtherwise, hs]

omit hstmt in
theorem agree_patternWithin : Agree v c Pattern.mapSpan (fun _ => True) (patternWithin bound)
    (patternWithin bound') := by
  refine agree_ident.bind fun x x' hx => ?_
  have hitem (c : Prop) : Agree v c Ident.mapSpan (fun _ => True) ident ident :=
    agree_ident.post fun _ => False.elim
  refine (agree_payloadOf hitem hb).bind fun xs xs' hxs => agree_ret ?_
  simp only [Pattern.mapSpan, hx, hxs]

theorem agree_armsBy (hn : n ≤ n') :
    Agree v c (fun σ => Prod.map (Stmt.mapSpanArms σ) (Prod.map (Stmt.mapSpanOtherwise σ) σ))
      (fun _ => True) (armsBy stmt bound n) (armsBy stmt' bound' n') := by
  induction n generalizing n' c with
  | zero => exact agree_endless
  | succ n ih =>
    obtain ⟨n', rfl⟩ : ∃ k, n' = k + 1 := ⟨n' - 1, by omega⟩
    refine agree_advance.bind fun t t' ht => ?_
    rw [← kind_eq ht]
    split
    · refine agree_ret ?_
      simp only [Prod.map, Stmt.mapSpanArms, Stmt.mapSpanOtherwise, span_eq ht]
    · refine (agree_patternWithin hb).bind fun p p' hp => (agree_blockBy hstmt hb).bindPair ?_
      intro ss ss' u u' hss hu
      refine (ih (by omega)).bindPair ?_
      rintro as as' ⟨o, w⟩ ⟨o', w'⟩ has how
      refine agree_ret ?_
      simp only [Prod.map, Stmt.mapSpanArms, hp, hss, has]
      exact congrArg _ how
    · refine (agree_blockBy hstmt hb).bindPair ?_
      intro ss ss' u u' hss hu
      refine (agree_consume (by simp)).bind fun w w' hw => agree_ret ?_
      simp only [Prod.map, Stmt.mapSpanArms, Stmt.mapSpanOtherwise, hss, span_eq hw]
    · exact agree_unexpected ht _ fun he => he

variable (ht : t.mapSpan v.left = t'.mapSpan v.right)

include ht

theorem agree_ifFrom :
    Agree v c Stmt.mapSpan (fun _ => True) (ifFrom stmt bound t) (ifFrom stmt' bound' t') := by
  refine (agree_clauseBy hstmt hb).bindPair ?_
  intro x x' u u' hx hu
  refine (agree_clausesBy hstmt hb hu hb).bindPair ?_
  rintro cs cs' ⟨o, w⟩ ⟨o', w'⟩ hcs how
  obtain ⟨ho, hw⟩ := Prod.mk.inj how
  refine agree_ret ?_
  simp only [Stmt.mapSpan, Stmt.mapSpanClauses_cons, hx, hcs, ho, v.through (span_eq ht) hw]

theorem agree_whileFrom :
    Agree v c Stmt.mapSpan (fun _ => True) (whileFrom stmt bound t) (whileFrom stmt' bound' t') := by
  refine (agree_exprWithin hb).bind fun e e' he => (agree_blockBy hstmt hb).bindPair ?_
  intro ss ss' u u' hss hu
  refine agree_ret ?_
  simp only [Stmt.mapSpan, he, hss, v.through (span_eq ht) hu]

theorem agree_forFrom :
    Agree v c Stmt.mapSpan (fun _ => True) (forFrom stmt bound t) (forFrom stmt' bound' t') := by
  refine agree_loopVars.bind fun xs xs' hxs => (agree_consume (by simp)).bind fun _ _ _ => ?_
  refine (agree_exprWithin hb).bind fun e e' he => (agree_blockBy hstmt hb).bindPair ?_
  intro ss ss' u u' hss hu
  refine agree_ret ?_
  simp only [Stmt.mapSpan, hxs, he, hss, v.through (span_eq ht) hu]

theorem agree_matchFrom :
    Agree v c Stmt.mapSpan (fun _ => True) (matchFrom stmt bound t) (matchFrom stmt' bound' t') := by
  refine (agree_exprWithin hb).bind fun e e' he => (agree_consume (by simp)).bind fun _ _ _ => ?_
  refine (agree_armsBy hstmt hb hb).bindPair ?_
  rintro as as' ⟨o, w⟩ ⟨o', w'⟩ has how
  obtain ⟨ho, hw⟩ := Prod.mk.inj how
  refine agree_ret ?_
  simp only [Stmt.mapSpan, he, has, ho, v.through (span_eq ht) hw]

end Blocks

section Unnested

variable (ht : t.mapSpan v.left = t'.mapSpan v.right) (hb : bound ≤ bound')

include ht hb

theorem agree_structFrom :
    Agree v c Stmt.mapSpan (fun _ => True) (structFrom bound t) (structFrom bound' t') := by
  refine agree_ident.bind fun x x' hx => (agree_consume (by simp)).bind fun _ _ _ => ?_
  refine (agree_listOf (by simp) (fun _ => agree_bindingWithin hb) hb).bindPair ?_
  intro fs fs' u u' hfs hu
  refine agree_ret ?_
  simp only [Stmt.mapSpan, StructDecl.mapSpan, hx, hfs, v.through (span_eq ht) (span_eq hu)]

theorem agree_enumFrom :
    Agree v c Stmt.mapSpan (fun _ => True) (enumFrom bound t) (enumFrom bound' t') := by
  refine agree_ident.bind fun x x' hx => (agree_consume (by simp)).bind fun _ _ _ => ?_
  refine (agree_listOf (by simp) (fun _ => agree_enumCaseWithin hb) hb).bindPair ?_
  intro cs cs' u u' hcs hu
  refine agree_ret ?_
  simp only [Stmt.mapSpan, EnumDecl.mapSpan, hx, hcs, v.through (span_eq ht) (span_eq hu)]

theorem agree_letFrom :
    Agree v c Stmt.mapSpan (fun _ => True) (letFrom bound t) (letFrom bound' t') := by
  refine agree_ident.bind fun x x' hx => (agree_typeAfter (by simp) hb).bind fun a a' ha => ?_
  refine (agree_consume (by simp)).bind fun _ _ _ => (agree_exprWithin hb).bind fun e e' he => ?_
  refine agree_terminator.bind fun _ _ _ => agree_ret ?_
  simp only [Stmt.mapSpan, hx, ha, he, v.through (span_eq ht) (place_span_eq he)]

theorem agree_returnFrom :
    Agree v c Stmt.mapSpan (fun _ => True) (returnFrom bound t) (returnFrom bound' t') := by
  have hempty : ∀ c, Agree v c Stmt.mapSpan (fun _ => True)
      (terminator >>= fun _ => pure (.ret t.span none))
      (terminator >>= fun _ => pure (.ret t'.span none)) := by
    intro c
    refine agree_terminator.bind fun _ _ _ => agree_ret ?_
    simp only [Stmt.mapSpan, Option.map_none, span_eq ht]
  refine agree_advance.bind fun next next' hnext => (agree_pushBack hnext fun he => he).bind fun _ _ _ => ?_
  rw [← kind_eq hnext]
  split
  · exact hempty _
  · exact hempty _
  · exact hempty _
  · refine (agree_exprWithin hb).bind fun e e' he => agree_terminator.bind fun _ _ _ => ?_
    refine agree_ret ?_
    simp only [Stmt.mapSpan, Option.map_some, he, v.through (span_eq ht) (place_span_eq he)]

theorem agree_simpleFrom (hc : c → t.kind = .eof ∨ t.kind = .identifier) :
    Agree v c Stmt.mapSpan (fun _ => True) (simpleFrom bound t) (simpleFrom bound' t') := by
  refine (agreeReaders_exprFrom hb t t' .lowest c ht hc).bind fun e e' he => ?_
  have hplace : e.isPlace = e'.isPlace := by
    have hmapped := congrArg Expr.isPlace he
    rwa [Expr.isPlace_mapSpan, Expr.isPlace_mapSpan] at hmapped
  refine .bindTake (by simp) (fun u u' hu => ?_) ?_
  · dsimp only
    rw [← hplace]
    split
    · refine (agree_exprWithin hb).bind fun w w' hw => agree_terminator.bind fun _ _ _ => ?_
      refine agree_ret ?_
      simp only [Stmt.mapSpan, he, hw, v.through (place_span_eq he) (place_span_eq hw)]
    · exact agree_fail (place_span_eq he) False.elim
  · refine agree_terminator.bind fun _ _ _ => agree_ret ?_
    simp only [Stmt.mapSpan, he, place_span_eq he]

end Unnested

theorem agree_stmtBy (hstmt : ∀ c, Agree v c Stmt.mapSpan (fun _ => True) stmt stmt')
    (hb : bound ≤ bound') :
    Agree v c Stmt.mapSpan (fun _ => True) (stmtBy stmt bound) (stmtBy stmt' bound') := by
  refine agree_advance.bind fun t t' ht => ?_
  rw [← kind_eq ht]
  split
  · exact agree_letFrom ht hb
  · exact agree_returnFrom ht hb
  · exact agree_ifFrom hstmt hb ht
  · exact agree_whileFrom hstmt hb ht
  · exact agree_forFrom hstmt hb ht
  · exact agree_matchFrom hstmt hb ht
  · exact agree_structFrom ht hb
  · exact agree_enumFrom ht hb
  · rename_i hk
    exact agree_fail (span_eq ht) fun he => absurd (hk ▸ he) (by simp)
  · exact agree_simpleFrom ht hb .inl

theorem agree_stmtWithin (hn : n ≤ n') :
    Agree v c Stmt.mapSpan (fun _ => True) (stmtWithin n) (stmtWithin n') := by
  induction n generalizing n' c with
  | zero => exact agree_endless
  | succ n ih =>
    obtain ⟨n', rfl⟩ : ∃ k, n' = k + 1 := ⟨n' - 1, by omega⟩
    exact agree_stmtBy (fun _ => ih (by omega)) (by omega)

theorem agree_functionFrom (ht : t.mapSpan v.left = t'.mapSpan v.right) (hb : bound ≤ bound') :
    Agree v c Item.mapSpan (fun _ => True) (functionFrom bound t) (functionFrom bound' t') := by
  refine agree_ident.bind fun x x' hx => (agree_consume (by simp)).bind fun _ _ _ => ?_
  refine (agree_listOf (by simp) (fun _ => agree_bindingWithin hb) hb).bindPair ?_
  intro ps ps' u u' hps _
  refine (agree_typeAfter (by simp) hb).bind fun a a' ha => ?_
  refine (agree_blockBy (fun _ => agree_stmtWithin hb) hb).bindPair ?_
  intro ss ss' w w' hss hw
  refine agree_ret ?_
  simp only [Item.mapSpan, FunctionDecl.mapSpan, hx, hps, ha, hss, v.through (span_eq ht) hw]

theorem agree_itemsWithin (hb : bound ≤ bound') (hn : n ≤ n') :
    Agree v c (fun σ => List.map (Item.mapSpan σ)) (fun _ => True) (itemsWithin bound n)
      (itemsWithin bound' n') := by
  induction n generalizing n' c with
  | zero => exact agree_endless
  | succ n ih =>
    obtain ⟨n', rfl⟩ : ∃ k, n' = k + 1 := ⟨n' - 1, by omega⟩
    refine agree_advance.bind fun t t' ht => ?_
    rw [← kind_eq ht]
    split
    · exact agree_ret rfl
    · refine (agree_functionFrom ht hb).bind fun f f' hf => (ih (by omega)).bind fun is is' his => ?_
      refine agree_ret ?_
      rw [List.map_cons, List.map_cons, hf, his]
    · refine (agree_pushBack ht fun he => he).bind fun _ _ _ => (agree_stmtWithin hb).bind fun s s' hs => ?_
      refine (ih (by omega)).bind fun is is' his => agree_ret ?_
      rw [List.map_cons, List.map_cons, his, Item.mapSpan, Item.mapSpan, hs]

end Stmts

end Parser

theorem parseProgram_eq (source : String) :
    parseProgram source = match Parser.itemsWithin (Parser.ofString source).bound (Parser.ofString source).bound
        (.ofString source) with
      | .ok is _ => .ok ⟨is⟩
      | .error x _ => .error x := by
  have hprogram : Parser.program (.ofString source) =
      EStateM.map Program.mk (Parser.itemsWithin (Parser.ofString source).bound (Parser.ofString source).bound)
        (.ofString source) := rfl
  unfold parseProgram Parse.outcome
  rw [hprogram]
  unfold EStateM.map
  cases Parser.itemsWithin _ _ (Parser.ofString source) <;> rfl

/-- Two readings of a text as a program. Unless they agree, the first text was too short. -/
theorem Parser.parseProgram_agree {v : Comparison} {source source' : String}
    (h : Streams v (.ofString source) (.ofString source'))
    (hlen : (Parser.ofString source).bound ≤ (Parser.ofString source').bound) :
    (∃ p p', parseProgram source = .ok p ∧ parseProgram source' = .ok p' ∧
      p.mapSpan v.left = p'.mapSpan v.right) ∨
    (∃ e e', parseProgram source = .error (.rejected e) ∧ parseProgram source' = .error (.rejected e') ∧
      e.value = e'.value ∧ v.left e.span = v.right e'.span) ∨
    v.short ∧ ∀ x, parseProgram source = .error x → Cut x := by
  have hlinked : Linked v (.ofString source) (.ofString source') := ⟨rfl, rfl, h⟩
  have hruns := (agree_itemsWithin (c := False) hlen hlen).runs _ _ hlinked
  have hrejected : ∀ x, parseProgram source = .error x → ∃ e, x = .rejected e :=
    fun _ => parseProgram_rejected
  rw [parseProgram_eq source] at hrejected ⊢
  rw [parseProgram_eq source']
  generalize itemsWithin _ _ (Parser.ofString source) = r at hruns hrejected ⊢
  generalize itemsWithin _ _ (Parser.ofString source') = r' at hruns ⊢
  cases hruns with
  | ok ha _ => exact .inl ⟨_, _, rfl, rfl, congrArg Program.mk ha⟩
  | rejected he hs => exact .inr (.inl ⟨_, _, rfl, rfl, he, hs⟩)
  | fault =>
    -- Faults do not occur: the bound on the steps holds for every text.
    obtain ⟨e, he⟩ := hrejected _ rfl
    cases he
  | ended hv _ _ => exact .inr (.inr ⟨hv, fun x hx => by cases hx⟩)
  | cut hv hx => exact .inr (.inr ⟨hv, fun y hy => by cases hy; exact hx⟩)

end Gondola
