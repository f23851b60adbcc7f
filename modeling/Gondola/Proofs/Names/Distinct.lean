import Gondola.Proofs.Names
import Gondola.Proofs.Names.Spelling

/-! Runs of the operations on names. Each made-up spelling takes a number of its own, so that two of them coincide only
where stems and numbers clash. -/
namespace Gondola.Names

/-- An operation on names. -/
inductive Op where
  | enter
  | leave
  | enterFunction
  | leaveFunction
  | declare (x : Ident)
  | param (x : Ident)
  | temp (stem : String)
  deriving DecidableEq, Repr

/-- A spelling that an operation returns, and how it comes about. -/
structure Returned where
  text : String
  form : Form
  deriving DecidableEq, Repr

namespace Op

def apply : Op → Names → Names
  | enter, n => n.enter
  | leave, n => n.leave
  | enterFunction, n => n.enterFunction
  | leaveFunction, n => n.leaveFunction
  | declare x, n => (n.declare x).2
  | param x, n => (n.param x).2
  | temp stem, n => (n.temp stem).2

/-- Spellings are made up for temporaries, and for names that hide a visible one. -/
def returned? : Op → Names → Option Returned
  | declare x, n => some ⟨(n.declare x).1,
      if (n.lookup? x.name).isSome then .fresh x.name n.next else .plain x.name⟩
  | param x, n => some ⟨(n.param x).1, .plain x.name⟩
  | temp stem, n => some ⟨(n.temp stem).1, .fresh stem n.next⟩
  | _, _ => none

end Op

def after (n : Names) : List Op → Names
  | [] => n
  | op :: ops => (op.apply n).after ops

def returned (n : Names) : List Op → List Returned
  | [] => []
  | op :: ops => (op.returned? n).toList ++ (op.apply n).returned ops

section Step

theorem entries_insert (n : Names) (x : Ident) (text : String) :
    (n.insert x text).entries = (x.name, ⟨text, !n.inFunction, x⟩) :: n.entries := by
  rw [insert, entries, entries]
  cases h : n.scopes with
  | nil => rfl
  | cons scope rest => rfl

theorem entries_leave_subset (n : Names) : n.leave.entries ⊆ n.entries := by
  intro e he
  unfold leave at he
  split at he
  · rename_i top s rest h
    rw [entries, h, List.flatten_cons]
    exact List.mem_append_right _ he
  · exact he

/-- Every binding is spelled by its name. -/
def Formed (n : Names) : Prop :=
  ∀ e ∈ n.entries, ∃ f : Form, f.stem = e.1 ∧ e.2.text = f.text n.space

theorem space_insert (n : Names) (x : Ident) (text : String) : (n.insert x text).space = n.space := by
  unfold insert
  dsimp only
  split <;> rfl

theorem next_insert (n : Names) (x : Ident) (text : String) : (n.insert x text).next = n.next := by
  unfold insert
  dsimp only
  split <;> rfl

/-- What one operation does: it may return a spelling, and a made-up one takes the next number. -/
structure Steps (n n' : Names) (r : Option Returned) : Prop where
  space : n'.space = n.space
  next : n.next ≤ n'.next
  formed : Formed n → Formed n'
  text : ∀ a, r = some a → a.text = a.form.text n.space
  number : ∀ a s k, r = some a → a.form = .fresh s k → k = n.next ∧ k < n'.next

theorem Steps.quiet {n n' : Names} (hspace : n'.space = n.space) (hnext : n'.next = n.next)
    (hentries : n'.entries ⊆ n.entries) : Steps n n' none where
  space := hspace
  next := Nat.le_of_eq hnext.symm
  formed h e he := by
    rw [hspace]
    exact h e (hentries he)
  text := nofun
  number := nofun

theorem Steps.insert {n m : Names} {x : Ident} {f : Form} (hf : f.stem = x.name)
    (hspace : m.space = n.space) (hnext : n.next ≤ m.next) (hentries : m.entries = n.entries)
    (hnumber : ∀ s k, f = .fresh s k → k = n.next ∧ k < m.next) :
    Steps n (m.insert x (f.text n.space)) (some ⟨f.text n.space, f⟩) where
  space := (space_insert ..).trans hspace
  next := by rwa [next_insert]
  formed h e he := by
    rw [entries_insert, hentries] at he
    rw [space_insert, hspace]
    obtain rfl | he := List.mem_cons.mp he
    · exact ⟨f, hf, rfl⟩
    · exact h e he
  text := by
    rintro _ ⟨⟩
    rfl
  number := by
    rintro _ s k ⟨⟩ hk
    rw [next_insert]
    exact hnumber s k hk

theorem steps_plain (n : Names) (x : Ident) :
    Steps n (n.insert x (n.space.ident x.name)) (some ⟨n.space.ident x.name, .plain x.name⟩) :=
  Steps.insert (f := .plain x.name) rfl rfl (Nat.le_refl _) rfl nofun

theorem steps_declare (n : Names) (x : Ident) :
    Steps n ((Op.declare x).apply n) ((Op.declare x).returned? n) := by
  rw [Op.apply, Op.returned?, declare]
  cases h : n.lookup? x.name with
  | none => exact steps_plain n x
  | some s =>
    have hnumber : ∀ s k, Form.fresh x.name n.next = .fresh s k → k = n.next ∧ k < n.next + 1 := by
      rintro s k ⟨⟩
      exact ⟨rfl, Nat.lt_succ_self _⟩
    exact Steps.insert (m := (n.temp x.name).2) (f := .fresh x.name n.next) rfl rfl (Nat.le_succ _)
      rfl hnumber

theorem steps_temp (n : Names) (stem : String) :
    Steps n ((Op.temp stem).apply n) ((Op.temp stem).returned? n) where
  space := rfl
  next := Nat.le_succ _
  formed h := h
  text := by
    rintro _ ⟨⟩
    rfl
  number := by
    rintro _ s k ⟨⟩ ⟨⟩
    exact ⟨rfl, Nat.lt_succ_self _⟩

theorem Op.steps (op : Op) (n : Names) : Steps n (op.apply n) (op.returned? n) := by
  have hleave : Steps n n.leave none := by
    refine .quiet ?_ ?_ (entries_leave_subset n)
    · unfold Names.leave
      split <;> rfl
    · unfold Names.leave
      split <;> rfl
  cases op with
  | enter | enterFunction => exact .quiet rfl rfl (List.Subset.refl _)
  | leave => exact hleave
  | leaveFunction => exact ⟨hleave.space, hleave.next, hleave.formed, nofun, nofun⟩
  | declare x => exact steps_declare n x
  | param x => exact steps_plain n x
  | temp stem => exact steps_temp n stem

end Step

section Run

theorem space_after (n : Names) (ops : List Op) : (n.after ops).space = n.space := by
  induction ops generalizing n with
  | nil => rfl
  | cons op ops ih => exact (ih (op.apply n)).trans (op.steps n).space

theorem Formed.after {n : Names} (h : Formed n) (ops : List Op) : Formed (n.after ops) := by
  induction ops generalizing n with
  | nil => exact h
  | cons op ops ih => exact ih ((op.steps n).formed h)

theorem mem_returned {n : Names} {ops : List Op} {r : Returned} (h : r ∈ n.returned ops) :
    r.text = r.form.text n.space ∧ ∀ s k, r.form = .fresh s k → n.next ≤ k := by
  induction ops generalizing n with
  | nil => cases h
  | cons op ops ih =>
    have hstep := op.steps n
    rcases List.mem_append.mp h with h | h
    · have hr := Option.mem_toList.mp h
      refine ⟨hstep.text r hr, fun s k hk => ?_⟩
      exact Nat.le_of_eq (hstep.number r s k hr hk).1.symm
    · obtain ⟨htext, hnumber⟩ := ih h
      rw [hstep.space] at htext
      exact ⟨htext, fun s k hk => Nat.le_trans hstep.next (hnumber s k hk)⟩

theorem returned_pairwise (n : Names) (ops : List Op) :
    (n.returned ops).Pairwise fun a b =>
      ∀ s k t m, a.form = .fresh s k → b.form = .fresh t m → k < m := by
  induction ops generalizing n with
  | nil => exact .nil
  | cons op ops ih =>
    have hstep := op.steps n
    rw [returned, List.pairwise_append]
    refine ⟨?_, ih _, ?_⟩
    · cases op.returned? n with
      | none => exact .nil
      | some r => exact List.pairwise_singleton ..
    · intro a ha b hb s k t m hk hm
      have hr := Option.mem_toList.mp ha
      have hlt := (hstep.number a s k hr hk).2
      have hle := (mem_returned hb).2 t m hm
      exact Nat.lt_of_lt_of_le hlt hle

end Run

theorem form_ne {n : Names} {ops : List Op} {i j : Nat} {a b : Returned} {s : String} {k : Nat}
    (ha : (n.returned ops)[i]? = some a) (hb : (n.returned ops)[j]? = some b) (hij : i ≠ j)
    (hk : a.form = .fresh s k) : a.form ≠ b.form := by
  intro he
  obtain ⟨hi, rfl⟩ := List.getElem?_eq_some_iff.mp ha
  obtain ⟨hj, rfl⟩ := List.getElem?_eq_some_iff.mp hb
  have hgrow := List.pairwise_iff_getElem.mp (returned_pairwise n ops)
  rcases Nat.lt_or_gt_of_ne hij with h | h
  · exact Nat.lt_irrefl k (hgrow i j hi hj h s k s k hk (he ▸ hk))
  · exact Nat.lt_irrefl k (hgrow j i hj hi h s k s k (he ▸ hk) hk)

theorem Formed.lookup? {n : Names} (h : Formed n) {x : String} {s : Spelling}
    (hs : n.lookup? x = some s) : ∃ f : Form, f.stem = x ∧ s.text = f.text n.space :=
  h (x, s) (mem_entries_of_lookup? hs)

def start (target : Target) : Names := { space := target.space }

theorem formed_start (target : Target) : Formed (start target) := nofun

theorem clash_of_text_eq {target : Target} {ops : List Op} {x y : String} {s t : Spelling}
    (hxy : x ≠ y) (hs : ((start target).after ops).lookup? x = some s)
    (ht : ((start target).after ops).lookup? y = some t) (h : s.text = t.text) :
    target = .native ∧ ∃ n m, s.text = target.space.fresh x n ∧ t.text = target.space.fresh y m ∧
      (Form.fresh x n).Clash (.fresh y m) := by
  have hformed := (formed_start target).after ops
  have hspace : ((start target).after ops).space = target.space := space_after ..
  obtain ⟨f, rfl, hf⟩ := hformed.lookup? hs
  obtain ⟨g, rfl, hg⟩ := hformed.lookup? ht
  rw [hspace] at hf hg
  rw [hf, hg] at h
  rcases (Form.text_eq_iff target f g).mp h with rfl | ⟨hnative, hclash⟩
  · exact absurd rfl hxy
  · refine ⟨hnative, ?_⟩
    cases f with
    | plain a => cases hclash
    | fresh a n =>
      cases g with
      | plain b => cases hclash
      | fresh b m => exact ⟨n, m, hf, hg, hclash⟩

/-- In every run, the spellings of two visible names, or a made-up spelling and any other one that is
returned, coincide only in C, and there only if they are made up from stems and numbers that clash. For that
one of the stems has to end in a digit. -/
theorem spellings_coincide_iff (target : Target) (ops : List Op) :
    (∀ x y s t, x ≠ y → ((start target).after ops).lookup? x = some s →
      ((start target).after ops).lookup? y = some t →
      (s.text = t.text ↔ target = .native ∧ ∃ n m, s.text = target.space.fresh x n ∧
        t.text = target.space.fresh y m ∧ (Form.fresh x n).Clash (.fresh y m))) ∧
    (∀ (i j : Nat) (a b : Returned), i ≠ j → ((start target).returned ops)[i]? = some a →
      ((start target).returned ops)[j]? = some b → (∃ stem n, a.form = .fresh stem n) →
      (a.text = b.text ↔ target = .native ∧ a.form.Clash b.form)) ∧
    ∀ f g : Form, f.Clash g → f ≠ g → endsInDigit f.stem = true ∨ endsInDigit g.stem = true := by
  refine ⟨?_, ?_, ?_⟩
  · intro x y s t hxy hs ht
    constructor
    · exact clash_of_text_eq hxy hs ht
    · rintro ⟨hnative, n, m, hn, hm, hclash⟩
      rw [hn, hm]
      exact (Form.text_eq_iff target _ _).mpr (.inr ⟨hnative, hclash⟩)
  · rintro i j a b hij ha hb ⟨stem, n, hn⟩
    have htexta : a.text = a.form.text target.space := (mem_returned (List.mem_of_getElem? ha)).1
    have htextb : b.text = b.form.text target.space := (mem_returned (List.mem_of_getElem? hb)).1
    rw [htexta, htextb, Form.text_eq_iff]
    exact or_iff_right (form_ne ha hb hij hn)
  · intro f g hclash hne
    cases hf : endsInDigit f.stem with
    | true => exact .inl rfl
    | false =>
      cases hg : endsInDigit g.stem with
      | true => exact .inr rfl
      | false => exact absurd (Form.eq_of_clash hclash hf hg) hne

/-- The eleventh made-up name comes from `x`, and is spelled apart from the first one, from `x1`. -/
theorem spellings_apart_python :
    ∃ (ops : List Op) (s t : Spelling) (a b : Returned),
      ((start .python).after ops).lookup? "x1" = some s ∧
      ((start .python).after ops).lookup? "x" = some t ∧ s.text ≠ t.text ∧
      ((start .python).returned ops)[2]? = some a ∧ ((start .python).returned ops)[12]? = some b ∧
      a.text ≠ b.text := by
  obtain ⟨ops, hx1, hx, ha, hb⟩ : ∃ ops : List Op,
      ((start .python).after ops).lookup? "x1" = some ⟨"x1_0_", true, ⟨"x1", {}⟩⟩ ∧
      ((start .python).after ops).lookup? "x" = some ⟨"x_10_", true, ⟨"x", {}⟩⟩ ∧
      ((start .python).returned ops)[2]? = some ⟨"x1_0_", .fresh "x1" 0⟩ ∧
      ((start .python).returned ops)[12]? = some ⟨"x_10_", .fresh "x" 10⟩ :=
    ⟨[.declare ⟨"x1", {}⟩, .declare ⟨"x", {}⟩, .enter, .declare ⟨"x1", {}⟩] ++
      List.replicate 9 (.temp "iter") ++ [.enter, .declare ⟨"x", {}⟩], by decide +kernel⟩
  obtain ⟨hnames, hreturned, -⟩ := spellings_coincide_iff .python ops
  refine ⟨ops, _, _, _, _, hx1, hx, fun h => ?_, ha, hb, fun h => ?_⟩
  · cases ((hnames _ _ _ _ (by decide) hx1 hx).mp h).1
  · cases ((hreturned 2 12 _ _ (by decide) ha hb ⟨_, _, rfl⟩).mp h).1

/-- In C the number of each follows its stem directly, and the two are one spelling. -/
theorem spellings_coincide_native :
    ∃ (ops : List Op) (s t : Spelling), ((start .native).after ops).lookup? "x1" = some s ∧
      ((start .native).after ops).lookup? "x" = some t ∧ s.text = t.text ∧
      (((start .native).returned (ops ++ [.leave, .leave])).map Returned.text).count s.text = 2 := by
  refine ⟨[.declare ⟨"x1", {}⟩, .declare ⟨"x", {}⟩, .enter, .declare ⟨"x1", {}⟩] ++
    List.replicate 9 (.temp "iter") ++ [.enter, .declare ⟨"x", {}⟩],
    ⟨"venice_x10", true, ⟨"x1", {}⟩⟩, ⟨"venice_x10", true, ⟨"x", {}⟩⟩, ?_⟩
  decide +kernel

end Gondola.Names
