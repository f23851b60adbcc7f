import Gondola.Proofs.Code.OneLine

/-! Quoted texts stand on one line, and tell the text. -/
namespace Gondola

theorem append_cons_inj_of_first {α : Type} {a : α} {s t d e : List α} (hs : a ∉ s) (ht : a ∉ t)
    (h : s ++ a :: d = t ++ a :: e) : s = t ∧ d = e := by
  have hback := congrArg List.reverse h
  simp only [List.reverse_append, List.reverse_cons, List.append_assoc, List.singleton_append] at hback
  obtain ⟨hrest, hfirst⟩ := append_cons_inj (by simpa using hs) (by simpa using ht) hback
  exact ⟨List.reverse_inj.mp hfirst, List.reverse_inj.mp hrest⟩

namespace Text

def shortEscape? : Char → Option Char
  | '0' => some '\x00'
  | 't' => some '\t'
  | 'r' => some '\r'
  | 'n' => some '\n'
  | '"' => some '"'
  | '\\' => some '\\'
  | _ => none

theorem quotedChar_cases (c : Char) : (quotedChar c = [c] ∧ c ≠ '"' ∧ c ≠ '\\' ∧ c ≠ '\n' ∧ c ≠ '\r') ∨
    (∃ d, shortEscape? d = some c ∧ quotedChar c = ['\\', d]) ∨ quotedChar c = codePointEscape c := by
  unfold quotedChar
  split
  · exact .inr (.inl ⟨'0', by simp_all [shortEscape?]⟩)
  split
  · exact .inr (.inl ⟨'t', by simp_all [shortEscape?]⟩)
  split
  · exact .inr (.inl ⟨'r', by simp_all [shortEscape?]⟩)
  split
  · exact .inr (.inl ⟨'n', by simp_all [shortEscape?]⟩)
  split
  · exact .inr (.inl ⟨'"', by simp_all [shortEscape?]⟩)
  split
  · exact .inr (.inl ⟨'\\', by simp_all [shortEscape?]⟩)
  split
  · exact .inr (.inr rfl)
  · exact .inl ⟨rfl, ‹_›, ‹_›, ‹_›, ‹_›⟩

theorem hexDigits_ne (n : Nat) : ∀ d ∈ Nat.toDigits 16 n, d ≠ '\x7d' ∧ d ≠ '\n' ∧ d ≠ '\r' := by
  induction n using Nat.strong_induction_on with
  | _ n ih =>
    have hdigit : ∀ i < 16, Nat.digitChar i ≠ '\x7d' ∧ Nat.digitChar i ≠ '\n' ∧ Nat.digitChar i ≠ '\r' := by decide
    rw [Nat.toDigits_eq_if (by decide)]
    split
    · exact List.forall_mem_singleton.mpr (hdigit n ‹_›)
    · exact List.forall_mem_append.mpr ⟨ih (n / 16) (Nat.div_lt_self (by omega) (by decide)),
        List.forall_mem_singleton.mpr (hdigit _ (Nat.mod_lt n (by decide)))⟩

theorem oneLine_quoted (s : String) : OneLine (quoted s) := by
  intro d hd
  simp only [quoted, String.toList_ofList, List.mem_append, List.mem_cons, List.mem_flatMap, List.not_mem_nil,
    or_false] at hd
  obtain (rfl | ⟨c, -, hd⟩) | rfl := hd
  · decide
  · rcases quotedChar_cases c with ⟨hc, -, -, hbreak⟩ | ⟨x, hx, hc⟩ | hc <;> rw [hc] at hd
    · rwa [List.mem_singleton.mp hd]
    · obtain rfl | hd := List.mem_cons.mp hd
      · decide
      obtain rfl := List.mem_singleton.mp hd
      constructor <;> rintro rfl <;> cases hx
    · simp only [codePointEscape, List.mem_append, List.mem_cons, List.not_mem_nil, or_false] at hd
      obtain ((rfl | rfl | rfl) | hd) | rfl := hd
      · decide
      · decide
      · decide
      · exact (hexDigits_ne _ d hd).2
      · decide
  · decide

theorem quotedChar_append_inj {c d : Char} {cs ds : List Char} (h : quotedChar c ++ cs = quotedChar d ++ ds) :
    c = d ∧ cs = ds := by
  rcases quotedChar_cases c with ⟨hc, -, hslash, -⟩ | ⟨x, hx, hc⟩ | hc
  · rcases quotedChar_cases d with ⟨hd, -⟩ | ⟨y, -, hd⟩ | hd <;> rw [hc, hd] at h
    · exact List.cons.inj h
    · exact absurd (List.cons.inj h).1 hslash
    · exact absurd (List.cons.inj h).1 hslash
  · rcases quotedChar_cases d with ⟨hd, -, hslash, -⟩ | ⟨y, hy, hd⟩ | hd <;> rw [hc, hd] at h
    · exact absurd (List.cons.inj h).1.symm hslash
    · obtain ⟨hxy, hrest⟩ := List.cons.inj (List.cons.inj h).2
      rw [hxy, hy] at hx
      exact ⟨Option.some.inj hx.symm, hrest⟩
    · rw [(List.cons.inj (List.cons.inj h).2).1] at hx
      cases hx
  · rcases quotedChar_cases d with ⟨hd, -, hslash, -⟩ | ⟨y, hy, hd⟩ | hd <;> rw [hc, hd] at h
    · exact absurd (List.cons.inj h).1.symm hslash
    · rw [← (List.cons.inj (List.cons.inj h).2).1] at hy
      cases hy
    · simp only [codePointEscape, List.cons_append, List.nil_append, List.append_assoc, List.cons.injEq,
        true_and] at h
      obtain ⟨hcode, hrest⟩ := append_cons_inj_of_first (fun h => (hexDigits_ne _ _ h).1 rfl) (fun h => (hexDigits_ne _ _ h).1 rfl) h
      exact ⟨Char.toNat_inj.mp (digits_inj (by decide) (by decide) hcode), hrest⟩

theorem quotedChar_start (c : Char) (cs : List Char) : ∃ d ds, quotedChar c ++ cs = d :: ds ∧ d ≠ '"' := by
  rcases quotedChar_cases c with ⟨hc, hquote, -⟩ | ⟨x, -, hc⟩ | hc <;> rw [hc]
  · exact ⟨c, cs, rfl, hquote⟩
  · exact ⟨_, _, rfl, by decide⟩
  · exact ⟨_, _, rfl, by decide⟩

theorem quoted_inj {s t : String} (h : quoted s = quoted t) : s = t := by
  have hbody (cs ds : List Char) (h : cs.flatMap quotedChar ++ ['"'] = ds.flatMap quotedChar ++ ['"']) : cs = ds := by
    induction cs generalizing ds with
    | nil =>
      cases ds with
      | nil => rfl
      | cons d ds =>
        obtain ⟨x, xs, hstart, hx⟩ := quotedChar_start d (ds.flatMap quotedChar ++ ['"'])
        rw [List.flatMap_cons, List.append_assoc, hstart] at h
        exact absurd (List.cons.inj h).1.symm hx
    | cons c cs ih =>
      cases ds with
      | nil =>
        obtain ⟨x, xs, hstart, hx⟩ := quotedChar_start c (cs.flatMap quotedChar ++ ['"'])
        rw [List.flatMap_cons, List.append_assoc, hstart] at h
        exact absurd (List.cons.inj h).1 hx
      | cons d ds =>
        rw [List.flatMap_cons, List.flatMap_cons, List.append_assoc, List.append_assoc] at h
        obtain ⟨rfl, hrest⟩ := quotedChar_append_inj h
        rw [ih ds hrest]
  have hchars := congrArg String.toList h
  rw [quoted, quoted, String.toList_ofList, String.toList_ofList] at hchars
  exact String.toList_inj.mp (hbody _ _ (List.cons.inj hchars).2)

end Text

end Gondola
