import Gondola.Proofs.Parser.Recognition
import Gondola.Proofs.Token.Cuts

/-! The names that a program binds. Each of them is read from a token of its own. -/
namespace Gondola

namespace Scanner

theorem tokens_increasing (s : Scanner) {ts : List Token} (h : s.tokens = .ok ts) :
    (∀ t ∈ ts, s.here.offset ≤ t.span.lo) ∧ ts.Pairwise fun t u => t.span.lo < u.span.lo := by
  fun_induction tokens s generalizing ts with
  | case1 => cases h
  | case2 s t s' hn he =>
    obtain rfl := Except.ok.inj h
    cases finds_of_next hn with
    | ending => exact ⟨List.forall_mem_singleton.mpr s.here_le_start, List.pairwise_singleton _ _⟩
    | token _ hl => exact absurd he (Lexeme.first?_kind_ne_eof hl)
  | case3 => cases h
  | case4 s t s' hn he _ us hrest ih =>
    obtain rfl := Except.ok.inj h
    obtain ⟨hafter, hus⟩ := ih hrest
    cases finds_of_next hn with
    | ending => exact absurd rfl he
    | @token c cs l _ hl =>
      have hlt : s.start.offset < (s.start.after l.chars).offset := by
        obtain ⟨d, ds, hd⟩ := List.exists_cons_of_ne_nil (Lexeme.first?_chars_ne_nil hl)
        have hpos := d.utf8Size_pos
        rw [Position.offset_after, hd, byteLength_cons]
        omega
      have hfurther : ∀ u ∈ us, s.start.offset < u.span.lo :=
        fun u hu => Nat.lt_of_lt_of_le hlt (hafter u hu)
      refine ⟨List.forall_mem_cons.mpr ⟨s.here_le_start, fun u hu => ?_⟩, List.pairwise_cons.mpr ⟨hfurther, hus⟩⟩
      exact s.here_le_start.trans (Nat.le_of_lt (hfurther u hu))

end Scanner

namespace Parser

theorem binders_nodup {source : String} {p : Program} (h : parseProgram source = .ok p) :
    (p.items.flatMap Item.binders).Nodup := by
  obtain ⟨q, hq⟩ := parseProgram_eq_ok.mp h
  obtain ⟨ts, stop, -, hpending, -, -, hcarries, -⟩ := itemsWithin_ok _ hq
  have htokens : tokenize source = .ok (ts ++ [stop]) := (pending_ofString source).symm.trans hpending
  -- The last token is the end of input, from which no name is read.
  have hincreasing := (Scanner.tokens_increasing _ htokens).2
  have hspans : (ts.map Token.span).Nodup := by
    rw [List.pairwise_append] at hincreasing
    exact List.pairwise_map.mpr (hincreasing.1.imp fun hlt he => Nat.ne_of_lt hlt (congrArg Span.lo he))
  exact List.Pairwise.of_map Ident.span (fun _ _ hne he => hne (congrArg Ident.span he)) (hspans.sublist hcarries)

end Parser

end Gondola
