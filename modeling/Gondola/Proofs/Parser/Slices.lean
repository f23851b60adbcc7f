import Gondola.Proofs.Parser.Recognition
import Gondola.Proofs.Parser.StmtAgreement
import Gondola.Proofs.Token.Cuts

/-! Spans cut a text where its parts end. The text under the span of a part is read as the same part. -/
namespace Gondola

open Grammar

namespace Span

structure Inside (s t : Span) : Prop where
  starts : t.lo ≤ s.lo
  ends : s.hi ≤ t.hi

end Span

section Cuts

variable {source : String} {m m' : Scanner} {ts us : List Token} {s s' : Span}

theorem Covers.exists_cons (h : Covers ts s) : ∃ t us, ts = t :: us := by
  induction h with
  | token t => exact ⟨t, [], rfl⟩
  | @through ts us _ _ vs _ _ ih =>
    obtain ⟨t, ts, rfl⟩ := ih
    exact ⟨t, ts ++ vs ++ us, rfl⟩

theorem Covers.bounds (hsize : source.utf8ByteSize < UInt32.size) (hc : Covers ts s) (h : m.Scans ts m')
    (hm : m.StandsIn source) : s.lo = m.start.offset ∧ s.hi = m'.here.offset := by
  induction hc generalizing m m' with
  | token t =>
    cases h with
    | cons hn ht hrest =>
      cases hrest
      cases Scanner.finds_of_next hn with
      | ending => exact absurd rfl ht
      | token htext hl =>
        have hend := Scanner.StandsIn.offset_le (hm.token hsize hn).2
        exact ⟨rfl, Span.hi_ofBounds _ _ (Scanner.start_le_next hn) hend hsize⟩
  | @through ts us s s' vs _ _ ih ih' =>
    obtain ⟨n', h, hus⟩ := h.split
    obtain ⟨n, hts, hvs⟩ := h.split
    have hn' := hvs.standsIn (hts.standsIn hm)
    obtain ⟨hlo, hhi⟩ := ih hts hm
    obtain ⟨-, hhi'⟩ := ih' hus hn'
    have hle : s.hi ≤ s'.hi := by
      rw [hhi, hhi']
      exact hvs.here_le.trans hus.here_le
    have hend := (Scanner.StandsIn.offset_le (hus.standsIn hn'))
    rw [← hhi'] at hend ⊢
    refine ⟨hlo, ?_⟩
    rw [Span.through, Nat.max_eq_left hle]
    exact Span.hi_ofBounds _ _ ((Nat.le_add_right _ _).trans hle) hend hsize

theorem Covers.tokens_cut (hsize : source.utf8ByteSize < UInt32.size) (hc : Covers ts s) (h : m.Scans ts m')
    (hm : m.StandsIn source) :
    ∃ (c : Scanner) (stop : Token), c.rest = (s.cut source).toList ∧ c.tokens = .ok (ts ++ [stop]) ∧
      stop.kind = .eof := by
  obtain ⟨hlo, hhi⟩ := hc.bounds hsize h hm
  obtain ⟨t, us, rfl⟩ := hc.exists_cons
  obtain ⟨before, cs, hsource, hstart, hend, done, hscans⟩ := h.cutOut hm
  have hcut : s.cut source = String.ofList cs :=
    Span.cut_of_append hsource (hlo.trans hstart) (hhi.trans hend)
  refine ⟨⟨cs, m.start, m.done⟩, ⟨.eof, "", .between m'.here m'.here⟩, ?_, ?_, rfl⟩
  · rw [hcut, String.toList_ofList]
  · rw [hscans.tokens, Scanner.tokens_of_ok (Scanner.Finds.ending rfl).next, if_pos rfl]
    rfl

theorem Covers.inside (hsize : source.utf8ByteSize < UInt32.size) (hc : Covers ts s) (h : m.Scans ts m')
    (hm : m.StandsIn source) (hus : us <:+: ts) (hc' : Covers us s') : s'.Inside s := by
  obtain ⟨before, after, rfl⟩ := hus
  obtain ⟨hlo, hhi⟩ := hc.bounds hsize h hm
  obtain ⟨n', h, hafter⟩ := h.split
  obtain ⟨n, hbefore, hmid⟩ := h.split
  obtain ⟨hlo', hhi'⟩ := hc'.bounds hsize hmid (hbefore.standsIn hm)
  refine ⟨?_, ?_⟩
  · rw [hlo, hlo']
    exact hbefore.start_le
  · rw [hhi, hhi']
    exact hafter.here_le

variable {stop : Token} {P : List Token → Prop}

theorem Among.tokens_cut (hsize : source.utf8ByteSize < UInt32.size) (ht : tokenize source = .ok (ts ++ [stop]))
    (h : Among ts fun us => Covers us s ∧ P us) :
    ∃ (c : Scanner) (us : List Token) (stop : Token), c.rest = (s.cut source).toList ∧
      c.tokens = .ok (us ++ [stop]) ∧ stop.kind = .eof ∧ P us := by
  obtain ⟨us, hus, hc, hp⟩ := h
  obtain ⟨last, hscans⟩ := Scanner.scans_of_tokens ht
  obtain ⟨m, m', hscans, hm⟩ := hscans.part (Scanner.standsIn_ofString source) hus
  obtain ⟨c, stop, hrest, htokens, hstop⟩ := hc.tokens_cut hsize hscans hm
  exact ⟨c, us, stop, hrest, htokens, hstop, hp⟩

theorem Among.inside (hsize : source.utf8ByteSize < UInt32.size) (ht : tokenize source = .ok (ts ++ [stop]))
    (h : Among ts fun us => Covers us s ∧ Among us (Covers · s')) : s'.Inside s := by
  obtain ⟨us, hus, hc, vs, hvs, hc'⟩ := h
  obtain ⟨last, hscans⟩ := Scanner.scans_of_tokens ht
  obtain ⟨m, m', hscans, hm⟩ := hscans.part (Scanner.standsIn_ofString source) hus
  exact hc.inside hsize hscans hm hvs hc'

end Cuts

namespace Parser

variable {text : String} {s : Scanner} {ts : List Token} {stop : Token}

theorem linked_of_rest (h : s.rest = text.toList) : Linked placeless { scanner := s } (ofString text) :=
  ⟨rfl, rfl, streams_of_words _ _ (Scanner.words_congr h)⟩

theorem length_lt_bound_of_rest (h : s.rest = text.toList) (ht : s.tokens = .ok (ts ++ [stop])) :
    ts.length + 4 < (ofString text).bound := by
  have hle := s.tokens_length_le ht
  rw [h, List.length_append, List.length_singleton] at hle
  show ts.length + 4 < text.toList.length + 5
  omega

theorem parseExpr_of_scanner {b : Expr} (h : s.rest = text.toList) (ht : s.tokens = .ok (ts ++ [stop]))
    (hs : stop.kind = .eof) (hg : IsExpr .or ts b) : ∃ e, parseExpr text = .ok e ∧ e.bare = b := by
  have hlt := length_lt_bound_of_rest h ht
  have hread : Accepts (exprWithin (ofString text).bound) Expr.bare ts b [stop] :=
    exprWithin_accepts hg (by omega) (by rw [hs]; rfl) []
  obtain ⟨e, q, he, hbare, hq⟩ := hread { scanner := s } ⟨_, (pending_of_held rfl).trans ht, rfl⟩
  obtain ⟨u, q₁, hu, ha, -⟩ := advance_of_offers hq
  have hruns := (agree_exprWithin (c := False) (Nat.le_refl (ofString text).bound)).runs _ _ (linked_of_rest h)
  rw [he] at hruns
  generalize hr : exprWithin (ofString text).bound (ofString text) = r at hruns
  cases hruns with
  | @ok _ e' _ q' hview hlinked =>
    have hend := (agree_advance (c := False)).runs _ _ hlinked
    rw [ha] at hend
    generalize hr' : advance q' = r' at hend
    cases hend with
    | @ok _ t' _ q₁' ht' _ =>
      have hconsume : consume .eof q' = .ok t' q₁' := by
        rw [consume, bind_of_ok hr', if_pos ((kind_eq ht').symm.trans ((Token.kind_of_shape hu).trans hs))]
        rfl
      refine ⟨e', parseExpr_eq_ok.mpr ⟨q', t', q₁', hr, hconsume⟩, ?_⟩
      rw [← hbare, ← Expr.bare_mapSpan placeless.right e', ← hview, Expr.bare_mapSpan]
    | ended hv => exact hv.elim
  | ended hv => exact hv.elim

theorem parseProgram_of_scanner {items : List Item} (h : s.rest = text.toList)
    (ht : s.tokens = .ok (ts ++ [stop])) (hs : stop.kind = .eof) (hg : IsItems ts items) :
    ∃ is, parseProgram text = .ok ⟨is⟩ ∧ is.map Item.bare = items := by
  have hlt := length_lt_bound_of_rest h ht
  have hread : AcceptsAll (itemsWithin (ofString text).bound (ofString text).bound) ts items :=
    itemsWithin_accepts hg (by omega) (by omega)
  obtain ⟨is, q, his, hbare⟩ := hread { scanner := s } stop hs ⟨_, (pending_of_held rfl).trans ht, rfl⟩
  have hbound := Nat.le_refl (ofString text).bound
  have hruns := (agree_itemsWithin (c := False) hbound hbound).runs _ _ (linked_of_rest h)
  rw [his] at hruns
  generalize hr : itemsWithin (ofString text).bound (ofString text).bound (ofString text) = r at hruns
  cases hruns with
  | @ok _ is' _ q' hview hlinked =>
    refine ⟨is', parseProgram_eq_ok.mpr ⟨q', hr⟩, ?_⟩
    have hmap := congrArg (List.map Item.bare) hview
    rw [List.map_map, List.map_map, Item.bare_comp_mapSpan, Item.bare_comp_mapSpan] at hmap
    rw [← hbare, hmap]
  | ended hv => exact hv.elim

theorem parseProgram_of_stmt {b : Stmt} (h : s.rest = text.toList) (ht : s.tokens = .ok (ts ++ [stop]))
    (hs : stop.kind = .eof) (hg : IsSimple ts b ∨ IsCompound ts b) :
    ∃ c, parseProgram text = .ok ⟨[.stmt c]⟩ ∧ c.bare = b := by
  have hitems : IsItems ts [.stmt b] := by
    rcases hg with hg | hg
    · exact .last hg
    · rw [← List.append_nil ts]
      exact .compound hg .nil
  obtain ⟨is, hparse, hmap⟩ := parseProgram_of_scanner h ht hs hitems
  obtain ⟨i, rfl, hi⟩ := List.map_eq_singleton_iff.mp hmap
  cases i with
  | function => cases hi
  | stmt c => exact ⟨c, hparse, Item.stmt.inj hi⟩

theorem parseProgram_of_function {b : FunctionDecl} (h : s.rest = text.toList)
    (ht : s.tokens = .ok (ts ++ [stop])) (hs : stop.kind = .eof) (hg : IsFunction ts b) :
    ∃ sp f, parseProgram text = .ok ⟨[.function sp f]⟩ ∧ f.bare = b := by
  have hitems : IsItems ts [.function default b] := by
    rw [← List.append_nil ts]
    exact .function hg .nil
  obtain ⟨is, hparse, hmap⟩ := parseProgram_of_scanner h ht hs hitems
  obtain ⟨i, rfl, hi⟩ := List.map_eq_singleton_iff.mp hmap
  cases i with
  | function sp f => exact ⟨sp, f, hparse, (Item.function.inj hi).2⟩
  | stmt => cases hi

/-- Where the spans of a program cut its text. -/
structure Delimited (source : String) (p : Program) : Prop where
  expr : ∀ e ∈ p.parts, ∃ e', parseExpr (e.span.cut source) = .ok e' ∧ e'.bare = e.bare
  stmt : ∀ s ∈ p.stmts, ∃ s', parseProgram (s.span.cut source) = .ok ⟨[.stmt s']⟩ ∧ s'.bare = s.bare
  function : ∀ sp f, .function sp f ∈ p.items →
    ∃ sp' f', parseProgram (sp.cut source) = .ok ⟨[.function sp' f']⟩ ∧ f'.bare = f.bare
  exprInExpr : ∀ e ∈ p.parts, ∀ f ∈ e.children, f.span.Inside e.span
  exprInStmt : ∀ s ∈ p.stmts, ∀ e ∈ s.exprs, e.span.Inside s.span
  stmtInStmt : ∀ s ∈ p.stmts, ∀ c ∈ s.children, c.span.Inside s.span
  stmtInFunction : ∀ sp f, .function sp f ∈ p.items → ∀ s ∈ f.body, s.span.Inside sp

/-- In a text that is read as a program, the text under the span of each expression, statement and function,
at any depth, is read as the same tree, and the span of each lies inside the span of what it stands in. -/
theorem delimited_of_parseProgram {source : String} {p : Program} (hsize : source.utf8ByteSize < UInt32.size)
    (h : parseProgram source = .ok p) : Delimited source p := by
  obtain ⟨q, hq⟩ := parseProgram_eq_ok.mp h
  obtain ⟨ts, stop, -, hpending, -, hitems, -⟩ := itemsWithin_ok _ hq
  have htokens : tokenize source = .ok (ts ++ [stop]) := (pending_ofString source).symm.trans hpending
  have hstmt {s : Stmt} (hs : s ∈ p.stmts) : Among ts s.Occupies := Program.stmt_occupies hitems hs
  have hexpr {e : Expr} (he : e ∈ p.parts) : Among ts (e.Occupies .or) := Program.part_occupies hitems he
  refine ⟨?_, ?_, ?_, ?_, ?_, ?_, ?_⟩
  · intro e he
    obtain ⟨c, us, last, hrest, hus, hlast, hg⟩ :=
      ((hexpr he).mono fun us hoc => ⟨hoc.covers, hoc.grammar⟩).tokens_cut hsize htokens
    exact parseExpr_of_scanner hrest hus hlast hg
  · intro s hs
    obtain ⟨c, us, last, hrest, hus, hlast, hg⟩ :=
      ((hstmt hs).mono fun us hoc => ⟨hoc.covers, hoc.grammar⟩).tokens_cut hsize htokens
    exact parseProgram_of_stmt hrest hus hlast hg
  · intro sp f hf
    obtain ⟨c, us, last, hrest, hus, hlast, hg⟩ :=
      ((hitems _ hf).mono fun us hoc => ⟨hoc.2.1, hoc.1⟩).tokens_cut hsize htokens
    exact parseProgram_of_function hrest hus hlast hg
  · intro e he f hf
    refine ((hexpr he).mono fun us hoc => ⟨hoc.covers, ?_⟩).inside hsize htokens
    exact (hoc.child hf).mono fun vs hoc => hoc.covers
  · intro s hs e he
    refine ((hstmt hs).mono fun us hoc => ⟨hoc.covers, ?_⟩).inside hsize htokens
    exact (hoc.expr he).mono fun vs hoc => hoc.covers
  · intro s hs c hc
    refine ((hstmt hs).mono fun us hoc => ⟨hoc.covers, ?_⟩).inside hsize htokens
    exact (hoc.child hc).mono fun vs hoc => hoc.covers
  · intro sp f hf s hs
    refine ((hitems _ hf).mono fun us hoc => ⟨hoc.2.1, ?_⟩).inside hsize htokens
    exact (hoc.2.2 s hs).mono fun vs hoc => hoc.covers

/-- Parentheses, characters of several bytes, blocks, and a last statement without its semicolon. -/
theorem delimited_of_parseProgram_nested :
    ∃ p, parseProgram "fn f(a: int) \x7b if ((a) < 1) \x7b return -(a + 2) * 3 \x7d \x7d\nm.x[\"é\"] = f( a: (1) )" = .ok p ∧
      p.parts.length = 16 ∧
      Delimited "fn f(a: int) \x7b if ((a) < 1) \x7b return -(a + 2) * 3 \x7d \x7d\nm.x[\"é\"] = f( a: (1) )" p := by
  generalize hs : "fn f(a: int) \x7b if ((a) < 1) \x7b return -(a + 2) * 3 \x7d \x7d\nm.x[\"é\"] = f( a: (1) )" = source
  have hsize : source.utf8ByteSize < UInt32.size := by
    subst hs
    decide +kernel
  have hlen : (parseProgram source).toOption.map (·.parts.length) = some 16 := by
    subst hs
    decide +kernel
  cases hp : parseProgram source with
  | error e =>
    rw [hp] at hlen
    cases hlen
  | ok p =>
    rw [hp] at hlen
    exact ⟨p, rfl, Option.some.inj hlen, delimited_of_parseProgram hsize hp⟩

end Parser

end Gondola
