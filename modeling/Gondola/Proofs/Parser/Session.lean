import Gondola.Proofs.Parser.Halting
import Gondola.Proofs.Parser.StmtSound

/-! One parser that is asked again and again, for expressions and for programs, and goes on from where it stands also
after a failure. -/
namespace Gondola

open Grammar

theorem LoopVars.length_names (v : LoopVars) : v.names.length = 1 ∨ v.names.length = 2 := by
  obtain ⟨index, item⟩ := v
  cases index with
  | none => exact .inl rfl
  | some i => exact .inr rfl

namespace Parser

/-- What a parser can be asked for. -/
inductive Request where
  | expr
  | program
  deriving DecidableEq, Repr

inductive Answer where
  | expr (e : Expr)
  | program (p : Program)

def Answer.stmts : Answer → List Stmt
  | .expr _ => []
  | .program p => p.stmts

namespace Request

def read : Request → Parse Answer
  | .expr => do return .expr (← Parser.expr)
  | .program => do return .program (← Parser.program)

def answer (r : Request) (p : Parser) : Except (Failure SyntaxError) Answer :=
  match r.read p with
  | .ok a _ => .ok a
  | .error x _ => .error x

/-- The parser after a request, whether it was met or not. -/
def leaves (r : Request) (p : Parser) : Parser :=
  match r.read p with
  | .ok _ q => q
  | .error _ q => q

end Request

def after (p : Parser) (rs : List Request) : Parser := rs.foldl (fun p r => r.leaves p) p

theorem Request.sane_read (r : Request) {p : Parser} (hs : p.Settled) : Sane p.left (min 1 p.left) (r.read p) := by
  cases r with
  | expr =>
    have hexpr : Sane p.left (min 1 p.left) (Parser.expr p) := (sane_expr hs).mono (by omega)
    exact hexpr.bind fun e q hs' _ => halts_pure _ q hs' (Nat.le_refl _)
  | program => exact (sane_program hs).bind fun b q hs' _ => halts_pure _ q hs' (Nat.le_refl _)

theorem Request.answer_ne_internal (r : Request) {p : Parser} (hs : p.Settled) (f : Fault) :
    r.answer p ≠ .error (.internal f) := by
  have hsane := r.sane_read hs
  unfold Request.answer
  generalize r.read p = x at hsane
  cases x with
  | ok a q => nofun
  | error x q =>
    rintro ⟨⟩
    exact hsane

theorem Request.consumed_leaves (r : Request) {p : Parser} (hs : p.Settled) :
    Consumed p.left (min 1 p.left) (r.leaves p) := by
  have hsane := r.sane_read hs
  unfold Request.leaves
  generalize r.read p = x at hsane
  cases x with
  | ok a q => exact hsane
  | error x q =>
    cases x with
    | rejected x =>
      have hmin : min (min 1 p.left) p.left = min 1 p.left := by omega
      exact hmin ▸ hsane
    | internal x => exact hsane.elim

theorem consumed_after {p : Parser} (hs : p.Settled) (rs : List Request) :
    Consumed p.left (min rs.length p.left) (p.after rs) := by
  induction rs generalizing p with
  | nil => exact ⟨hs, by rw [List.length_nil, Nat.zero_min]; exact Nat.le_refl _⟩
  | cons r rs ih =>
    obtain ⟨hs', hone⟩ := r.consumed_leaves hs
    obtain ⟨hsettled, hrest⟩ := ih hs'
    refine ⟨hsettled, ?_⟩
    show ((r.leaves p).after rs).left + min (rs.length + 1) p.left ≤ p.left
    omega

theorem settled_after (source : String) (rs : List Request) : ((ofString source).after rs).Settled :=
  (consumed_after (settled_of_held rfl) rs).1

theorem Request.stmts_occupy {r : Request} {p : Parser} {a : Answer} {s : Stmt} (h : r.answer p = .ok a)
    (hs : s ∈ a.stmts) : ∃ ts, p.pending = .ok ts ∧ Among ts s.Occupies := by
  obtain ⟨q, hread⟩ : ∃ q, r.read p = .ok a q := by
    unfold Request.answer at h
    split at h
    · cases h
      exact ⟨_, by assumption⟩
    · cases h
  cases r with
  | expr =>
    obtain ⟨e, _, _, hret⟩ := bind_eq_ok.mp hread
    obtain ⟨rfl, -⟩ := pure_eq_ok.mp hret
    cases hs
  | program =>
    obtain ⟨b, q₁, hprogram, hret⟩ := bind_eq_ok.mp hread
    obtain ⟨rfl, -⟩ := pure_eq_ok.mp hret
    have hitems : (itemsWithin p.bound p.bound >>= fun is => pure ⟨is⟩) p = .ok b q₁ := hprogram
    obtain ⟨is, q₂, his, hret⟩ := bind_eq_ok.mp hitems
    obtain ⟨rfl, -⟩ := pure_eq_ok.mp hret
    obtain ⟨ts, stop, -, hpending, -, hplaces, -⟩ := itemsWithin_ok _ his
    exact ⟨ts ++ [stop], hpending, (Program.stmt_occupies hplaces hs).append_right [stop]⟩

/-- The tokens are those of a loop over the variables. -/
def IsLoopOver (v : LoopVars) (ts : List Token) : Prop :=
  ∃ k xs i us, ts = k :: xs ++ i :: us ∧ k.kind = .keyword .forKw ∧ IsLoopVars xs v.bare ∧
    i.kind = .keyword .inKw

theorem isLoopOver_of_occupies {sp : Span} {v : LoopVars} {e : Expr} {b : Block} {ts : List Token}
    (h : (Stmt.forEach sp v e b).Occupies ts) : IsLoopOver v ts := by
  have hgrammar := h.grammar
  rw [Stmt.bare] at hgrammar
  rcases hgrammar with hg | hg
  · cases hg
  · cases hg with
    | @forEach k xs i us ws _ _ _ hk hx hi => exact ⟨k, xs, i, us ++ ws, by simp, hk, hx, hi⟩

/-- Whatever a parser was asked for before, a request is met or the text is rejected: no second token is put
back, no other token is taken for an operator, and reading ends. Each loop that is read has one or two
variables, the names between the words of its head. -/
theorem requests_met (source : String) (rs : List Request) (r : Request) :
    (∀ f, r.answer ((ofString source).after rs) ≠ .error (.internal f)) ∧
      ∀ a, r.answer ((ofString source).after rs) = .ok a → ∀ sp v e b, .forEach sp v e b ∈ a.stmts →
        (v.names.length = 1 ∨ v.names.length = 2) ∧
          ∃ ts, ((ofString source).after rs).pending = .ok ts ∧ Among ts (IsLoopOver v) := by
  refine ⟨r.answer_ne_internal (settled_after source rs), ?_⟩
  intro a ha sp v e b hloop
  obtain ⟨ts, hpending, hstmt⟩ := Request.stmts_occupy ha hloop
  exact ⟨v.length_names, ts, hpending, hstmt.mono fun us => isLoopOver_of_occupies⟩

/-- After a failure, and with the first word of the loop put back behind an expression. -/
theorem requests_met_resumed :
    ∃ a sp v e b, Request.program.answer ((ofString ") 1 for i, x in [] \x7b \x7d").after [.expr, .expr]) = .ok a ∧
      .forEach sp v e b ∈ a.stmts ∧ (v.names.length = 1 ∨ v.names.length = 2) ∧
      ∃ ts, ((ofString ") 1 for i, x in [] \x7b \x7d").after [.expr, .expr]).pending = .ok ts ∧
        Among ts (IsLoopOver v) := by
  have hmet := (requests_met ") 1 for i, x in [] \x7b \x7d" [.expr, .expr] .program).2
  have hread : (Request.program.answer
      ((ofString ") 1 for i, x in [] \x7b \x7d").after [.expr, .expr])).toOption.map
        (·.stmts.map Stmt.ctorIdx) = some [6] := by
    decide +kernel
  generalize (ofString ") 1 for i, x in [] \x7b \x7d").after [.expr, .expr] = p at hmet hread ⊢
  cases ha : Request.program.answer p with
  | error x =>
    rw [ha] at hread
    cases hread
  | ok a =>
    rw [ha] at hread
    obtain ⟨s, hs, hloop⟩ := List.map_eq_singleton_iff.mp (Option.some.inj hread)
    cases s with
    | forEach sp v e b =>
      have hmem : Stmt.forEach sp v e b ∈ a.stmts := by
        rw [hs]
        exact List.mem_singleton_self _
      exact ⟨a, sp, v, e, b, rfl, hmem, hmet a ha sp v e b hmem⟩
    | _ => cases hloop

def Exhausted (p : Parser) : Prop := ∃ t q, advance p = .ok t q ∧ t.kind = .eof

theorem exhausted_of_left {p : Parser} (h : p.left = 0) : p.Exhausted := by
  unfold Exhausted advance
  cases hh : p.held with
  | some t =>
    have hweight : weight t = 0 := by
      simp only [left, hh, Option.map_some, Option.getD_some] at h
      omega
    refine ⟨t, _, rfl, ?_⟩
    by_contra ht
    rw [weight, if_neg ht] at hweight
    cases hweight
  | none =>
    have hleft : p.scanner.left = 0 := (left_of_held hh).symm.trans h
    rcases p.scanner.words_cases with ⟨e, s, hn, -⟩ | ⟨t, s, hn, ht, -⟩ | ⟨t, s, hn, ht, -⟩
    · rw [(Scanner.left_of_error hn).1] at hleft
      cases hleft
    · exact ⟨t, _, by rw [hn], ht⟩
    · rw [Scanner.left_of_token hn ht] at hleft
      cases hleft

theorem answer_of_exhausted {p : Parser} (h : p.Exhausted) :
    ∃ span, Request.expr.answer p = .error (.rejected ⟨span, .prematureEnd .expression⟩) := by
  obtain ⟨t, q, ha, ht⟩ := h
  have hbound := p.left_lt_bound
  have hread : Parser.expr p = .error (.rejected ⟨t.span, .prematureEnd .expression⟩) q := by
    show (advance >>= fun t => exprFrom p.bound t .lowest) p = _
    rw [bind_of_ok ha, (readsWithin_exprFrom (k := 0) (by omega)).ending t .lowest q ht]
  refine ⟨t.span, ?_⟩
  have hanswer : Request.expr.read p = .error (.rejected ⟨t.span, .prematureEnd .expression⟩) q := by
    show EStateM.bind Parser.expr _ p = _
    unfold EStateM.bind
    rw [hread]
  rw [Request.answer, hanswer]

/-- A parser gets on with every request: whether it is met or not, it takes a token unless the input has ended. So
after as many requests as there are tokens, all that is found is the end of input. -/
theorem requests_get_on (source : String) (rs : List Request) :
    (∀ r : Request, (∀ f, r.answer ((ofString source).after rs) ≠ .error (.internal f)) ∧
      ((r.leaves ((ofString source).after rs)).left < ((ofString source).after rs).left ∨
        ((ofString source).after rs).Exhausted)) ∧
    ((Scanner.ofString source).left ≤ rs.length → ∃ span, Request.expr.answer ((ofString source).after rs) =
      .error (.rejected ⟨span, .prematureEnd .expression⟩)) := by
  have hs := settled_after source rs
  refine ⟨fun r => ⟨r.answer_ne_internal hs, ?_⟩, fun hlen => answer_of_exhausted (exhausted_of_left ?_)⟩
  · obtain ⟨-, htaken⟩ := r.consumed_leaves hs
    rcases Nat.eq_zero_or_pos ((ofString source).after rs).left with hzero | hpos
    · exact .inr (exhausted_of_left hzero)
    · exact .inl (by omega)
  · have hall := (consumed_after (p := ofString source) (settled_of_held rfl) rs).2
    have hleft : (ofString source).left = (Scanner.ofString source).left := left_of_held rfl
    omega

/-- A bracket that starts nothing, and a literal without an end. -/
theorem requests_get_on_malformed : (Scanner.ofString ") \"").left ≤ [Request.expr, .program, .expr].length ∧
    ∃ span, Request.expr.answer ((ofString ") \"").after [.expr, .program, .expr]) =
      .error (.rejected ⟨span, .prematureEnd .expression⟩) := by
  have hlen : (Scanner.ofString ") \"").left ≤ [Request.expr, .program, .expr].length :=
    Nat.le_trans (Scanner.left_le _) (by decide)
  exact ⟨hlen, (requests_get_on ") \"" [.expr, .program, .expr]).2 hlen⟩

end Parser

end Gondola
