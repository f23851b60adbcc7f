import Gondola.Proofs.Parser.Places
import Gondola.Proofs.Token.Places
import Gondola.Proofs.Typing.Faultless

/-! Every place that a stage speaks of is a place in the source: that of a token, of a part of the tree, and of an
error. -/
namespace Gondola

variable {source : String}

def Placing.ofSource (source : String) (hsize : source.utf8ByteSize < UInt32.size) : Placing where
  place := Span.PlacedIn source
  scanner := Scanner.StandsIn source
  token hs hn := hs.token hsize hn
  error hs hn := hs.error hsize hn
  through hs ht := hs.through hsize ht

theorem Scanner.placedIn_tokens (hsize : source.utf8ByteSize < UInt32.size) {s : Scanner}
    (hs : s.StandsIn source) {ts : List Token} (h : s.tokens = .ok ts) :
    ∀ t ∈ ts, t.span.PlacedIn source := by
  fun_induction tokens s generalizing ts with
  | case1 => cases h
  | case2 s t s' hn he =>
    obtain rfl := Except.ok.inj h
    exact List.forall_mem_singleton.mpr (hs.token hsize hn).1
  | case3 => cases h
  | case4 s t s' hn he _ rest hrest ih =>
    obtain rfl := Except.ok.inj h
    obtain ⟨hplace, hs'⟩ := hs.token hsize hn
    exact List.forall_mem_cons.mpr ⟨hplace, ih hs' hrest⟩

theorem Scanner.placedIn_error (hsize : source.utf8ByteSize < UInt32.size) {s : Scanner}
    (hs : s.StandsIn source) {e : Located ScanError} (h : s.tokens = .error e) :
    e.span.PlacedIn source := by
  fun_induction tokens s with
  | case1 s e' s' hn =>
    obtain rfl := Except.error.inj h
    exact (hs.error hsize hn).1
  | case2 => cases h
  | case3 s t s' hn he _ e' hrest ih =>
    obtain rfl := Except.error.inj h
    exact ih (hs.token hsize hn).2 hrest
  | case4 => cases h

/-- An error is found in one of the places of the program. It moves along with them, so that two changes that tell none
of them apart do not tell its place apart either. -/
theorem Placing.check_error {v : Placing} {p : Program} {e : Located TypeError} (hdefault : v.place {})
    (hp : p.mapSpan v.left = p.mapSpan right) (h : p.check = .error (.rejected e)) : v.place e.span := by
  have hleft := Program.check_mapSpan (left_eq_right.mpr ⟨hdefault, rfl⟩) p
  have hright := Program.check_mapSpan (σ := right) rfl p
  rw [hp, hright, h] at hleft
  have hspan := congrArg Located.span (Failure.rejected.inj (Except.error.inj hleft))
  exact (left_eq_right.mp hspan.symm).1

/-- What the stages say of places in a source. -/
structure StagesPlaced (source : String) : Prop where
  /-- Every answer of the scanner, however often it is asked, be it a token or an error. -/
  scanned : ∀ n, (Scanner.spanOf ((Scanner.ofString source).afterSteps n).next.1).PlacedIn source
  tokens : ∀ ts, tokenize source = .ok ts → ∀ t ∈ ts, t.span.PlacedIn source
  scanError : ∀ e, tokenize source = .error e → e.span.PlacedIn source
  tree : ∀ p, parseProgram source = .ok p → p.Everywhere (Span.PlacedIn source)
  syntaxError : ∀ x, parseProgram source = .error x → ∃ e, x = .rejected e ∧ e.span.PlacedIn source
  typeError : ∀ p e, parseProgram source = .ok p → p.check = .error (.rejected e) →
    e.span.PlacedIn source

end Gondola
