import Gondola.Proofs.Grammar.Leaves
import Gondola.Proofs.Parser.StmtComplete

/-! Reading a text as a program is recognising its tokens by the grammar, and no list of tokens has two trees. A program
that is read numbers its expressions from zero on, each number once. -/
namespace Gondola

open Grammar

variable {source : String} {ts : List Token} {p : Program}

namespace Parser

theorem pending_ofString (source : String) : (ofString source).pending = tokenize source :=
  pending_of_held rfl

theorem length_lt_bound (h : tokenize source = .ok ts) : ts.length + 3 < (ofString source).bound := by
  have hle : ts.length ≤ (ofString source).scanner.rest.length + 1 :=
    Scanner.tokens_length_le _ h
  rw [bound]
  omega

theorem parseProgram_eq_ok : parseProgram source = .ok p ↔
      ∃ q, itemsWithin (ofString source).bound (ofString source).bound (ofString source) =
        .ok p.items q := by
  unfold parseProgram Parse.outcome
  have hmap : program (ofString source) =
      (itemsWithin (ofString source).bound (ofString source).bound >>= fun is => pure ⟨is⟩)
        (ofString source) := rfl
  constructor
  · intro h
    cases hp : program (ofString source) with
    | error e q => rw [hp] at h; cases h
    | ok p' q =>
      rw [hp] at h
      obtain rfl := Except.ok.inj h
      obtain ⟨is, r, his, hret⟩ := bind_eq_ok.mp (hmap.symm.trans hp)
      obtain ⟨rfl, rfl⟩ := pure_eq_ok.mp hret
      exact ⟨_, his⟩
  · rintro ⟨q, h⟩
    rw [hmap, bind_of_ok h]
    rfl

theorem generates_of_parseProgram (h : parseProgram source = .ok p) :
    ∃ ts, tokenize source = .ok ts ∧ Generates ts p.bare := by
  obtain ⟨q, hq⟩ := parseProgram_eq_ok.mp h
  obtain ⟨ts, stop, hs, hp, hg, -⟩ := itemsWithin_ok _ hq
  exact ⟨ts ++ [stop], (pending_ofString source).symm.trans hp, .mk hg hs⟩

theorem parseProgram_of_alike {us : List Token} {q : Program} (ht : tokenize source = .ok us)
    (hu : us.map Token.shape = ts.map Token.shape) (hg : Generates ts q) :
    ∃ p, parseProgram source = .ok p ∧ p.bare = q := by
  have hlt := length_lt_bound ht
  have hlen := congrArg List.length hu
  rw [List.length_map, List.length_map] at hlen
  rw [hlen] at hlt
  cases hg with
  | @mk ts stop items hi hs =>
    rw [List.length_append, List.length_singleton] at hlt
    have hread : AcceptsAll (itemsWithin (ofString source).bound (ofString source).bound) ts items :=
      itemsWithin_accepts hi (by omega) (by omega)
    obtain ⟨is, q, his, hmap⟩ := hread _ stop hs ⟨us, (pending_ofString source).trans ht, hu⟩
    exact ⟨⟨is⟩, parseProgram_eq_ok.mpr ⟨q, his⟩, congrArg Program.mk hmap⟩

theorem parseProgram_of_generates {q : Program} (ht : tokenize source = .ok ts) (hg : Generates ts q) :
    ∃ p, parseProgram source = .ok p ∧ p.bare = q :=
  parseProgram_of_alike ht rfl hg

theorem ids_of_parseProgram (h : parseProgram source = .ok p) : p.ids = List.range p.ids.length := by
  obtain ⟨q, hq⟩ := parseProgram_eq_ok.mp h
  obtain ⟨-, -, -, -, -, -, -, hids⟩ := itemsWithin_ok _ hq
  rw [List.range_eq_range']
  exact hids

theorem nodup_ids_of_parseProgram (h : parseProgram source = .ok p) : p.ids.Nodup := by
  rw [ids_of_parseProgram h]
  exact List.nodup_range

theorem spellable_of_parseProgram (h : parseProgram source = .ok p) : ∀ i ∈ p.items, i.IsSpellable := by
  obtain ⟨q, hq⟩ := parseProgram_eq_ok.mp h
  obtain ⟨ts, stop, -, hpending, -, hitems, -⟩ := itemsWithin_ok _ hq
  have htokens : tokenize source = .ok (ts ++ [stop]) := (pending_ofString source).symm.trans hpending
  intro i hi
  obtain ⟨us, hus, hoc⟩ := hitems i hi
  refine hoc.spellable fun t ht => ?_
  exact Scanner.isIdentifier_of_tokens htokens t (List.mem_append_left _ (hus.subset ht))

/-- A text is read as a program just if its tokens derive from the grammar, with the tree of the
derivation, and then it is the only tree that they have. -/
theorem parseProgram_iff_generates (source : String) (q : Program) :
    ((∃ p, parseProgram source = .ok p ∧ p.bare = q) ↔
        ∃ ts, tokenize source = .ok ts ∧ Generates ts q) ∧
      ∀ ts q', tokenize source = .ok ts → Generates ts q → Generates ts q' → q = q' := by
  refine ⟨⟨?_, ?_⟩, ?_⟩
  · rintro ⟨p, hp, rfl⟩
    exact generates_of_parseProgram hp
  · rintro ⟨ts, ht, hg⟩
    exact parseProgram_of_generates ht hg
  · intro ts q' ht hg hg'
    -- The reader is a function, so that its one tree is the tree of both derivations.
    obtain ⟨p, hp, rfl⟩ := parseProgram_of_generates ht hg
    obtain ⟨p', hp', rfl⟩ := parseProgram_of_generates ht hg'
    rw [Except.ok.inj (hp.symm.trans hp')]

theorem generates_index_assignment :
    ∃ ts q, tokenize "x[0] = -a.b * (c + 1) < not d" = .ok ts ∧ Generates ts q ∧
      ∀ q', Generates ts q' → q = q' := by
  have hok : (parseProgram "x[0] = -a.b * (c + 1) < not d").isOk = true := by decide +kernel
  cases hp : parseProgram "x[0] = -a.b * (c + 1) < not d" with
  | error e => rw [hp] at hok; cases hok
  | ok p =>
    obtain ⟨hiff, hone⟩ := parseProgram_iff_generates "x[0] = -a.b * (c + 1) < not d" p.bare
    obtain ⟨ts, ht, hg⟩ := hiff.mp ⟨p, hp, rfl⟩
    exact ⟨ts, p.bare, ht, hg, fun q' hg' => hone ts q' ht hg hg'⟩

/-! The same for a text that holds one expression. -/

theorem parseExpr_eq_ok {e : Expr} :
    parseExpr source = .ok e ↔ ∃ q t q', exprWithin (ofString source).bound (ofString source) = .ok e q ∧
      consume .eof q = .ok t q' := by
  unfold parseExpr Parse.outcome
  constructor
  · intro h
    split at h
    · rename_i e' q' hread
      obtain rfl := Except.ok.inj h
      obtain ⟨a, q, ha, hread⟩ := bind_eq_ok.mp hread
      obtain ⟨t, r, ht, hread⟩ := bind_eq_ok.mp hread
      obtain ⟨rfl, rfl⟩ := pure_eq_ok.mp hread
      exact ⟨q, t, r, ha, ht⟩
    · cases h
  · rintro ⟨q, t, q', he, ht⟩
    have hexpr : expr (ofString source) = .ok e q := he
    rw [bind_of_ok hexpr, bind_of_ok ht]
    rfl

theorem occupies_of_parseExpr {e : Expr} (h : parseExpr source = .ok e) :
    ∃ ts stop, tokenize source = .ok (ts ++ [stop]) ∧ e.Occupies .or ts := by
  obtain ⟨q, t, q', he, ht⟩ := parseExpr_eq_ok.mp h
  obtain ⟨ts, _, hreads, -, hg⟩ := (takes_exprWithin _ _).taken he
  have hend : q.pending = .ok [t] := by
    obtain ⟨u, r, hu, ht⟩ := bind_eq_ok.mp ht
    split at ht
    · rename_i hk
      obtain ⟨rfl, rfl⟩ := pure_eq_ok.mp ht
      rw [(advance_ok hu).2.2, preceded, if_pos hk]
    · exact absurd ht unexpected_ne_ok
  refine ⟨ts, t, ?_, hg⟩
  rw [← pending_ofString, hreads.pending, hend]
  rfl

/-- A read with the steps that it can need. -/
def bounded {α : Type} (read : Nat → Parse α) : Parse α := fun p => read p.bound p

/-- Reads a text that holds what `read` takes and no more. -/
def whole {α : Type} (read : Nat → Parse α) (source : String) : Except (Failure SyntaxError) α :=
  Parse.outcome (do
    let a ← bounded read
    let _ ← consume .eof
    return a) source

theorem whole_of_accepts {α β : Type} {read : Nat → Parse α} {view : α → β} {b : β} {stop : Token}
    (ht : tokenize source = .ok (ts ++ [stop])) (hs : stop.kind = .eof)
    (h : ∀ n, ts.length < n → Accepts (read n) view ts b [stop]) : ∃ a, whole read source = .ok a ∧ view a = b := by
  have hlt := length_lt_bound ht
  rw [List.length_append, List.length_singleton] at hlt
  have hread := h (ofString source).bound (by omega)
  obtain ⟨a, q, ha, hview, hq⟩ := hread (ofString source) ⟨_, (pending_ofString source).trans ht, rfl⟩
  obtain ⟨u, q', hu, hadvance, -⟩ := advance_of_offers hq
  have hend : consume .eof q = .ok u q' := by
    rw [consume, bind_of_ok hadvance, if_pos ((Token.kind_of_shape hu).trans hs)]
    rfl
  refine ⟨a, ?_, hview⟩
  have hbounded : bounded read (ofString source) = .ok a q := ha
  unfold whole Parse.outcome
  rw [bind_of_ok hbounded, bind_of_ok hend]
  rfl

theorem parseExpr_of_isExpr {stop : Token} {b : Expr}
    (ht : tokenize source = .ok (ts ++ [stop])) (hs : stop.kind = .eof) (hg : IsExpr .or ts b) :
    ∃ e, parseExpr source = .ok e ∧ e.bare = b :=
  whole_of_accepts ht hs fun _ hn => exprWithin_accepts hg hn (by rw [hs]; rfl) []

theorem whole_of_isType {stop : Token} {b : TypeExpr}
    (ht : tokenize source = .ok (ts ++ [stop])) (hs : stop.kind = .eof) (hg : IsType ts b) :
    ∃ a, whole typeExpr source = .ok a ∧ a.bare = b :=
  whole_of_accepts ht hs fun _ hn => typeExpr_accepts hg hn (by rw [hs]; exact nofun) []

end Parser

end Gondola
