import Gondola.Proofs.Compile.Placement
import Gondola.Proofs.Grammar.Occurrences
import Gondola.Proofs.Program.Shape

/-! Ways to write the same program. What the grammar leaves to the writer leaves no trace in the tree and in the numbers
of its expressions, so the generated code is the same. -/
namespace Gondola

variable {ts us : List Token} {e : Expr} {p : Program} {source : String}

namespace Grammar

theorem IsExpr.level_pos {l : Precedence} (h : IsExpr l ts e) : 0 < l.rank := by
  cases h with
  | looser hl => cases hl <;> decide
  | @binary m n ts t us op l r _ ht =>
    generalize t.kind = k at ht
    cases ht <;> decide
  | _ => decide

theorem IsExpr.parenthesized {l : Precedence} {o r : Token} (h : IsExpr l ts e)
    (ho : o.kind = .mark .lparen) (hr : r.kind = .mark .rparen) : IsExpr l (o :: ts ++ [r]) e := by
  have hloosest : IsExpr .or ts e := h.of_le (by decide) h.level_pos
  have hatom : IsExpr .atom (o :: ts ++ [r]) e := .group ho hloosest hr
  exact hatom.of_le h.level_pos (by cases l <;> decide)

theorem OneOrMore.sequence {α : Type} {item : List Token → α → Prop} {as : List α}
    (h : OneOrMore item ts as) : Sequence item ts as := by
  induction h with
  | last h => exact .last h
  | cons h hc _ ih => exact .cons h hc ih

theorem OneOrMore.trailing {α : Type} {item : List Token → α → Prop} {as : List α}
    {comma : Token} (h : OneOrMore item ts as) (hm : comma.kind = .mark .comma) :
    Sequence item (ts ++ [comma]) as := by
  induction h with
  | last h => exact .cons h hm .nil
  | cons h hc _ ih =>
    rw [List.append_assoc, List.cons_append]
    exact .cons h hc ih

/-- Two ways to write one phrase. -/
inductive Respells : Phrase → List Token → List Token → Prop
  /-- The mark before the type that a function returns. -/
  | result {c a ts t} (hc : c.kind = .mark .colon) (ha : a.kind = .mark .arrow) (h : IsType ts t) :
      Respells ( Annotation [.mark .colon, .mark .arrow] · (some t)) (c :: ts) (a :: ts)
  | elseIf {k k' i} (hk : k.kind = .keyword .elifKw) (hk' : k'.kind = .keyword .elseKw)
      (hi : i.kind = .keyword .ifKw) : Respells IsElseIf [k] [k', i]
  /-- A comma after the last item. -/
  | trailing {α : Type} {item : List Token → α → Prop} {ts as comma} (h : OneOrMore item ts as)
      (hm : comma.kind = .mark .comma) : Respells (Sequence item · as) ts (ts ++ [comma])
  /-- The semicolon of the last statement in a block. -/
  | lastInBlock {ts s semi} (h : IsSimple ts s) (hm : semi.kind = .mark .semicolon) :
      Respells (IsBody · [s]) ts (ts ++ [semi])
  /-- The semicolon of the last statement of all. -/
  | lastOfAll {ts s semi} (h : IsSimple ts s) (hm : semi.kind = .mark .semicolon) :
      Respells (IsItems · [.stmt s]) ts (ts ++ [semi])
  | parentheses {l o r ts e} (h : IsExpr l ts e) (ho : o.kind = .mark .lparen) (hr : r.kind = .mark .rparen) :
      Respells (IsExpr l · e) ts (o :: ts ++ [r])

theorem Respells.both {X : Phrase} {us vs : List Token} (h : Respells X us vs) : X us ∧ X vs := by
  cases h with
  | result hc ha h =>
    constructor
    · exact .present (by rw [hc]; decide) h
    · exact .present (by rw [ha]; decide) h
  | elseIf hk hk' hi => exact ⟨.one hk, .two hk' hi⟩
  | trailing h hm => exact ⟨h.sequence, h.trailing hm⟩
  | lastInBlock h hm | lastOfAll h hm => exact ⟨.last h, .simple h hm .nil⟩
  | parentheses h ho hr => exact ⟨h, h.parenthesized ho hr⟩

/-- One change to the tokens of a program, of which the last is the end of input. -/
inductive Edit : List Token → List Token → Prop
  /-- The word in front of a function. -/
  | function {before k k' after} (hk : k.kind = .keyword .fnKw) (hk' : k'.kind = .keyword .fnKw) :
      Edit (before ++ k :: after) (before ++ k' :: after)
  | forth {is X before after us vs stop} (hf : Frames (IsItems · is) before X after) (hr : Respells X us vs) :
      Edit (before ++ us ++ after ++ [stop]) (before ++ vs ++ after ++ [stop])
  | back {is X before after us vs stop} (hf : Frames (IsItems · is) before X after) (hr : Respells X us vs) :
      Edit (before ++ vs ++ after ++ [stop]) (before ++ us ++ after ++ [stop])

theorem Generates.stop {stop : Token} (h : Generates (ts ++ [stop]) p) : stop.kind = .eof := by
  generalize hts : ts ++ [stop] = us at h
  obtain ⟨-, hs⟩ := h
  obtain ⟨-, hstop⟩ := List.append_inj' hts rfl
  rwa [List.singleton_inj.mp hstop]

theorem shape_of_words (h : us.map (fun t => (t.kind, t.text)) = ts.map fun t => (t.kind, t.text)) :
    us.map Token.shape = ts.map Token.shape := by
  have hshape : ∀ vs : List Token, vs.map Token.shape =
      (vs.map fun t => (t.kind, t.text)).map fun w => Token.shape ⟨w.1, w.2, {}⟩ := by
    intro vs
    rw [List.map_map]
    rfl
  rw [hshape us, h, hshape ts]

/-- If the tokens before a change derive any program, those before and after it look like ones that derive one and the
same. -/
theorem Edit.generates (h : Edit ts us) (hg : Generates ts p) :
    ∃ q vs, Generates ts q ∧ Generates vs q ∧ us.map Token.shape = vs.map Token.shape := by
  cases h with
  | @function before k k' after hk hk' =>
    refine ⟨p, _, hg, hg, ?_⟩
    have hshape : k'.shape = k.shape := by
      unfold Token.shape
      rw [hk, hk']
    rw [List.map_append, List.map_append, List.map_cons, List.map_cons, hshape]
  | forth hf hr => exact ⟨_, _, .mk (hf.fill hr.both.1) hg.stop, .mk (hf.fill hr.both.2) hg.stop, rfl⟩
  | back hf hr => exact ⟨_, _, .mk (hf.fill hr.both.2) hg.stop, .mk (hf.fill hr.both.1) hg.stop, rfl⟩

end Grammar

open Grammar

theorem sameReading_of_generates {source' : String} {vs : List Token} {q : Program} (ht : tokenize source = .ok ts)
    (hu : tokenize source' = .ok us) (hg : Generates ts q) (hg' : Generates vs q)
    (hshapes : us.map Token.shape = vs.map Token.shape) : SameReading source source' := by
  obtain ⟨p, hp, hbare⟩ := Parser.parseProgram_of_generates ht hg
  obtain ⟨p', hp', hbare'⟩ := Parser.parseProgram_of_alike hu hshapes hg'
  have hshape : p.bare = p'.bare := hbare.trans hbare'.symm
  -- Numbers are given in the order of the source, so that the shape decides them.
  have hplaces := Program.mapSpan_nowhere hshape (Parser.ids_of_parseProgram hp) (Parser.ids_of_parseProgram hp')
  exact .inl ⟨p, p', hp, hp', hplaces⟩

theorem compile_of_sameReading {source' : String} {target : Target} {code : String}
    (h : SameReading source source') (hc : compile source target = .ok code) : compile source' target = .ok code := by
  unfold compile at hc ⊢
  rcases h with ⟨p, p', hp, hp', heq⟩ | ⟨f, f', hf, -, -⟩
  · rw [hp] at hc
    rw [hp']
    have hids := Parser.nodup_ids_of_parseProgram hp
    have hids' := Parser.nodup_ids_of_parseProgram hp'
    rcases Program.compile_of_mapSpan_eq rfl heq hids hids' target with ⟨code', hcode, hcode'⟩ | ⟨f, f', hf, -, -⟩
    · dsimp only at hc ⊢
      rw [hcode] at hc
      rw [hcode']
      exact hc
    · dsimp only at hc
      rw [hf] at hc
      cases hc
  · rw [hf] at hc
    cases hc

/-- The text has the given tokens with one change, at whatever places. -/
def Rewrites (ts : List Token) (source : String) : Prop :=
  ∃ ts' us, Edit ts ts' ∧ tokenize source = .ok us ∧
    us.map (fun t => (t.kind, t.text)) = ts'.map fun t => (t.kind, t.text)

theorem parseProgram_of_compile {target : Target} {code : String}
    (hc : compile source target = .ok code) : ∃ p, parseProgram source = .ok p := by
  unfold compile at hc
  cases hp : parseProgram source with
  | error f =>
    rw [hp] at hc
    cases hc
  | ok p => exact ⟨p, rfl⟩

theorem Rewrites.sameReading {source' : String} (h : Rewrites ts source')
    (ht : tokenize source = .ok ts) (hg : Generates ts p) : SameReading source source' := by
  obtain ⟨ts', us, hedit, hu, hwords⟩ := h
  obtain ⟨q, vs, hq, hq', hshapes⟩ := hedit.generates hg
  exact sameReading_of_generates ht hu hq hq' ((shape_of_words hwords).trans hshapes)

theorem edit_parentheses (hg : Generates ts p) (he : e ∈ p.parts) :
    ∃ before us after l, ts = before ++ us ++ after ∧ IsExpr l us e ∧ ∀ o r : Token,
      o.kind = .mark .lparen → r.kind = .mark .rparen → Edit ts (before ++ (o :: us ++ [r]) ++ after) := by
  obtain ⟨hi, hs⟩ := hg
  rename_i ts stop items
  obtain ⟨l, before, us, after, rfl, hframes, hus⟩ := hi.hasExpr e he
  refine ⟨before, us, after ++ [stop], l, by simp only [List.append_assoc], hus, ?_⟩
  intro o r ho hr
  rw [← List.append_assoc (before ++ (o :: us ++ [r])) after [stop]]
  exact .forth hframes (.parentheses hus ho hr)

/-- Texts that differ in one such change have the same code, and among the changes are parentheses around every
expression of the program. -/
theorem compile_of_edit {source : String} {ts : List Token} {target : Target} {code : String}
    (ht : tokenize source = .ok ts) (hc : compile source target = .ok code) :
    (∀ source', Rewrites ts source' → compile source' target = .ok code) ∧
      ∃ p, parseProgram source = .ok p ∧ ∀ e ∈ p.bare.parts, ∃ before us after l,
        ts = before ++ us ++ after ∧ IsExpr l us e ∧ ∀ o r : Token, o.kind = .mark .lparen →
          r.kind = .mark .rparen → Edit ts (before ++ (o :: us ++ [r]) ++ after) := by
  obtain ⟨p, hp⟩ := parseProgram_of_compile hc
  obtain ⟨ts₁, ht₁, hg⟩ := Parser.generates_of_parseProgram hp
  obtain rfl : ts₁ = ts := Except.ok.inj (ht₁.symm.trans ht)
  refine ⟨?_, p, hp, fun e he => edit_parentheses hg he⟩
  intro source' hr
  exact compile_of_sameReading (hr.sameReading ht hg) hc

/-- Parentheses around a negative number. -/
theorem compile_of_edit_negative :
    ∃ ts code, tokenize "let x = -1;" = .ok ts ∧ Rewrites ts "let x = (-1);" ∧
      compile "let x = -1;" .native = .ok code ∧ compile "let x = (-1);" .native = .ok code := by
  let k : Token := ⟨.keyword .letKw, "let", ⟨0, 3, 1, 1⟩⟩
  let x : Token := ⟨.identifier, "x", ⟨4, 1, 1, 5⟩⟩
  let q : Token := ⟨.mark .assign, "=", ⟨6, 1, 1, 7⟩⟩
  let minus : Token := ⟨.mark .minus, "-", ⟨8, 1, 1, 9⟩⟩
  let one : Token := ⟨.int, "1", ⟨9, 1, 1, 10⟩⟩
  let semi : Token := ⟨.mark .semicolon, ";", ⟨10, 1, 1, 11⟩⟩
  let stop : Token := ⟨.eof, "", ⟨11, 0, 1, 12⟩⟩
  let o : Token := ⟨.mark .lparen, "(", {}⟩
  let r : Token := ⟨.mark .rparen, ")", {}⟩
  have ht : tokenize "let x = -1;" = .ok [k, x, q, minus, one, semi, stop] := by decide +kernel
  have hvalue : IsExpr .unary [minus, one] (.unary default .neg (.int default 1)) := by
    have hone : IsExpr .atom [one] (.int default 1) := .int rfl (numeral_iff.mpr (by decide)) (by decide)
    exact .unary (t := minus) .neg (hone.of_le (by decide) (by decide))
  have hframes : Frames (IsItems · [.stmt (.letVar default (word x) none (.unary default .neg (.int default 1)))])
      [k, x, q] (IsExpr .or · (.unary default .neg (.int default 1))) [semi] :=
    .item (.simpleItem rfl .nil) (.stmt (.initial rfl rfl .absent rfl) .here)
  have hrewrites : Rewrites [k, x, q, minus, one, semi, stop] "let x = (-1);" := by
    have hedit : Edit [k, x, q, minus, one, semi, stop] [k, x, q, o, minus, one, r, semi, stop] :=
      .forth hframes (.parentheses (hvalue.of_le (by decide) (by decide)) rfl rfl)
    have hwords : (match tokenize "let x = (-1);" with
      | .ok us => decide (us.map (fun t => (t.kind, t.text)) =
          [k, x, q, o, minus, one, r, semi, stop].map fun t => (t.kind, t.text))
      | .error _ => false) = true := by decide +kernel
    split at hwords
    · rename_i us hu
      exact ⟨_, us, hedit, hu, of_decide_eq_true hwords⟩
    · cases hwords
  have hok : (compile "let x = -1;" .native).isOk = true := by decide +kernel
  cases hc : compile "let x = -1;" .native with
  | error =>
    rw [hc] at hok
    cases hok
  | ok code => exact ⟨_, code, ht, hrewrites, rfl, (compile_of_edit ht hc).1 _ hrewrites⟩

end Gondola
