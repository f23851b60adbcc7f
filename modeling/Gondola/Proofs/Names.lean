import Gondola.Code.Names

/-! What the operations on names do to the stack of scopes. -/
namespace Gondola.Names

def entries (n : Names) : List (String × Spelling) := n.scopes.flatten

theorem lookup?_eq (n : Names) (name : String) : n.lookup? name = n.entries.lookup name := by
  rw [lookup?, entries]
  induction n.scopes with
  | nil => rfl
  | cons scope rest ih =>
    rw [List.findSome?_cons, List.flatten_cons, List.lookup_append, ih]
    cases scope.lookup name <;> rfl

theorem mem_entries_of_lookup? {n : Names} {name : String} {s : Spelling} (h : n.lookup? name = some s) :
    (name, s) ∈ n.entries := by
  rw [lookup?_eq] at h
  obtain ⟨before, after, hentries, -⟩ := List.lookup_eq_some_iff.mp h
  rw [hentries]
  exact List.mem_append_right _ List.mem_cons_self

variable {n : Names} {top : List (String × Spelling)} {rest : List (List (String × Spelling))}

theorem insert_scopes (h : n.scopes = top :: rest) (x : Ident) (text : String) :
    (n.insert x text).scopes = ((x.name, ⟨text, !n.inFunction, x⟩) :: top) :: rest := by
  rw [insert, h]

theorem declare_scopes (h : n.scopes = top :: rest) (x : Ident) :
    ∃ s, s.origin = x ∧ (n.declare x).2.scopes = ((x.name, s) :: top) :: rest := by
  unfold declare
  split
  · have ht : (n.temp x.name).2.scopes = top :: rest := h
    exact ⟨_, rfl, insert_scopes ht x _⟩
  · exact ⟨_, rfl, insert_scopes h x _⟩

theorem param_scopes (h : n.scopes = top :: rest) (x : Ident) :
    ∃ s, s.origin = x ∧ (n.param x).2.scopes = ((x.name, s) :: top) :: rest :=
  ⟨_, rfl, insert_scopes h x _⟩

theorem leave_scopes {inner : List (String × Spelling)} (h : n.scopes = inner :: top :: rest) :
    n.leave.scopes = top :: rest := by
  rw [leave, h]

end Gondola.Names
