import Gondola.Scope

/-! Scopes that are left in the reverse order of entering them are a stack of frames: the arena holds one
scope for each frame, and each scope points to the one before it. -/
namespace Gondola.Scopes

variable {α : Type}

/-- The position of the first of the given frames. -/
def innermost? : List (List (String × α)) → Option Nat
  | [] => none
  | _ :: fs => some fs.length

/-- The arena of a stack of frames, whose innermost one comes first. -/
def arenaOf : List (List (String × α)) → List (Scope α)
  | [] => []
  | f :: fs => arenaOf fs ++ [⟨f, innermost? fs⟩]

def ofFrames (fs : List (List (String × α))) : Scopes α := ⟨arenaOf fs⟩

/-- The nearest binding of a name, with the position of its frame. -/
def find : List (List (String × α)) → String → Option (Nat × α)
  | [], _ => none
  | f :: fs, name =>
    match f.lookup name with
    | some value => some (fs.length, value)
    | none => find fs name

@[simp] theorem length_arenaOf (fs : List (List (String × α))) : (arenaOf fs).length = fs.length := by
  induction fs with
  | nil => rfl
  | cons f fs ih => simp [arenaOf, ih]

theorem getElem?_arenaOf (pre : List (List (String × α))) (f : List (String × α))
    (fs : List (List (String × α))) :
    (arenaOf (pre ++ f :: fs))[fs.length]? = some ⟨f, innermost? fs⟩ := by
  induction pre with
  | nil => simp [arenaOf]
  | cons g pre ih =>
    rw [List.cons_append, arenaOf, List.getElem?_append_left, ih]
    simp only [length_arenaOf, List.length_append, List.length_cons]
    omega

theorem lookupFrom_arenaOf (name : String) (pre fs : List (List (String × α))) (f : List (String × α))
    {n : Nat} (hn : fs.length < n) :
    lookupFrom (arenaOf (pre ++ f :: fs)) name n fs.length = .ok (find (f :: fs) name) := by
  induction n generalizing pre f fs with
  | zero => omega
  | succ n ih =>
    simp only [lookupFrom, getElem?_arenaOf, find]
    cases f.lookup name with
    | some value => rfl
    | none =>
      cases fs with
      | nil => rfl
      | cons g fs =>
        rw [List.append_cons]
        exact ih (pre ++ [f]) fs g (Nat.lt_of_succ_lt_succ hn)

theorem lookup_ofFrames (f : List (String × α)) (fs : List (List (String × α))) (name : String) :
    (ofFrames (f :: fs)).lookup fs.length name = .ok (find (f :: fs) name) := by
  rw [lookup]
  exact lookupFrom_arenaOf name [] fs f (by simp only [ofFrames, length_arenaOf, List.length_cons]; omega)

theorem enter_ofFrames (f : List (String × α)) (fs : List (List (String × α))) :
    (ofFrames (f :: fs)).enter fs.length = (fs.length + 1, ofFrames ([] :: f :: fs)) := by
  rw [enter, ofFrames, length_arenaOf]
  rfl

theorem leave_ofFrames (f g : List (String × α)) (fs : List (List (String × α))) :
    (ofFrames (f :: g :: fs)).leave (fs.length + 1) = .ok (ofFrames (g :: fs)) := by
  have htake : (arenaOf (f :: g :: fs)).take (fs.length + 1) = arenaOf (g :: fs) := by
    rw [arenaOf]
    exact List.take_left' (length_arenaOf _)
  have hroot : fs.length + 1 ≠ root := Nat.succ_ne_zero _
  rw [leave, if_neg hroot, ofFrames, htake]
  rfl

theorem define_ofFrames (f : List (String × α)) (fs : List (List (String × α))) (name : String)
    (value : α) :
    (ofFrames (f :: fs)).define fs.length name value =
      .ok (if (f.lookup name).isSome then .error value else .ok (ofFrames (((name, value) :: f) :: fs))) := by
  have hget : (ofFrames (f :: fs)).arena[fs.length]? = some ⟨f, innermost? fs⟩ :=
    getElem?_arenaOf [] f fs
  rw [define, hget]
  cases hl : f.lookup name with
  | some v => simp [hl]
  | none => simp [hl, ofFrames, arenaOf]

theorem find_of_lookup {gs : List (List (String × α))} {name : String} {value : α}
    (h : gs.flatten.lookup name = some value) (fs : List (List (String × α))) :
    ∃ i, find (gs ++ fs) name = some (i, value) := by
  induction gs with
  | nil => cases h
  | cons g gs ih =>
    rw [List.flatten_cons, List.lookup_append] at h
    rw [List.cons_append, find]
    cases hg : g.lookup name with
    | none =>
      rw [hg, Option.none_or] at h
      exact ih h
    | some v =>
      rw [hg, Option.some_or] at h
      exact ⟨_, congrArg (fun v => some (_, v)) (Option.some.inj h)⟩

theorem find_append_singleton {gs : List (List (String × α))} {base : List (String × α)}
    {name : String} {i : Nat} {value : α} (h : find (gs ++ [base]) name = some (i, value)) :
    (i = root ∧ gs.flatten.lookup name = none ∧ base.lookup name = some value) ∨
      (i ≠ root ∧ gs.flatten.lookup name = some value) := by
  induction gs with
  | nil =>
    rw [List.nil_append, find] at h
    cases hb : base.lookup name with
    | none => rw [hb] at h; cases h
    | some v =>
      rw [hb] at h
      obtain ⟨rfl, rfl⟩ := Prod.mk.inj (Option.some.inj h)
      exact .inl ⟨rfl, rfl, rfl⟩
  | cons g gs ih =>
    rw [List.cons_append, find] at h
    rw [List.flatten_cons, List.lookup_append]
    cases hg : g.lookup name with
    | some v =>
      rw [hg] at h
      obtain ⟨rfl, rfl⟩ := Prod.mk.inj (Option.some.inj h)
      exact .inr ⟨by simp [root], rfl⟩
    | none =>
      rw [hg] at h
      exact ih h

end Gondola.Scopes
