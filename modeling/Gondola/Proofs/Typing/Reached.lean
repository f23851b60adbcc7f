import Gondola.Proofs.Typing.Faultless

/-! Where checking comes to: the statements of a program one after the other, each in a scope that is in the arena, and
all of them if it accepts. -/
namespace Gondola

open Typing

namespace Checker

/-- Checking a statement comes to one of its blocks, in a scope and a state. -/
inductive Opens (result : Option Ty) (scope : Nat) (c : Checker) : Stmt → Block → Nat → Checker → Prop
  | clause {sp cs k ks o c₁ c₂ c₃ inner} (hcs : checkClauses scope result cs c = .ok ((), c₁))
      (hk : checkCondition scope k.cond c₁ = .ok ((), c₂)) (hi : enter scope c₂ = .ok (inner, c₃)) :
      Opens result scope c (.ifElse sp (cs ++ k :: ks) o) k.body inner c₃
  | otherwise {sp cs b c₁ c₂ inner} (hcs : checkClauses scope result cs c = .ok ((), c₁))
      (hi : enter scope c₁ = .ok (inner, c₂)) : Opens result scope c (.ifElse sp cs (some b)) b inner c₂
  | whileLoop {sp k b c₁ c₂ inner} (hk : checkCondition scope k c = .ok ((), c₁))
      (hi : enter scope c₁ = .ok (inner, c₂)) : Opens result scope c (.whileLoop sp k b) b inner c₂
  | forEach {sp v e b item c₁ c₂ c₃ inner} (he : itemType scope e c = .ok (item, c₁))
      (hi : enter scope c₁ = .ok (inner, c₂)) (hv : defineLoopVars inner v item c₂ = .ok ((), c₃)) :
      Opens result scope c (.forEach sp v e b) b inner c₃
  | arm {sp e as a as' o name cases ts c₁ c₂ c₃ c₄ c₅ inner}
      (he : checkExpr scope e c = .ok (.enum name cases, c₁))
      (has : checkArms scope result name cases [] as c₁ = .ok ((), c₂))
      (hp : patternTypes name cases (as.map fun a => a.pattern.name.name).reverse a.pattern c₂ = .ok (ts, c₃))
      (hi : enter scope c₃ = .ok (inner, c₄)) (hb : defineAll inner a.pattern.bindings ts c₄ = .ok ((), c₅)) :
      Opens result scope c (.matchOn sp e (as ++ a :: as') o) a.body inner c₅
  | default {sp e as b name cases c₁ c₂ c₃ inner} (he : checkExpr scope e c = .ok (.enum name cases, c₁))
      (has : checkArms scope result name cases [] as c₁ = .ok ((), c₂)) (hi : enter scope c₂ = .ok (inner, c₃)) :
      Opens result scope c (.matchOn sp e as (some b)) b inner c₃

/-- Checking a block comes to a statement in it, at any depth, and has checked all that stands before. -/
inductive Reaches (result : Option Ty) : Nat → Block → Checker → Nat → Stmt → Checker → Prop
  | here {scope s ss c} : Reaches result scope (s :: ss) c scope s c
  | after {scope s ss c c₁ scope' s' c'} (hs : checkStmt scope result s c = .ok ((), c₁))
      (h : Reaches result scope ss c₁ scope' s' c') : Reaches result scope (s :: ss) c scope' s' c'
  | inside {scope s ss c b inner c₁ scope' s' c'} (hs : Opens result scope c s b inner c₁)
      (h : Reaches result inner b c₁ scope' s' c') : Reaches result scope (s :: ss) c scope' s' c'

/-- The same for the items of a program. -/
inductive ItemReaches : Nat → List Item → Checker → Nat → Stmt → Checker → Prop
  | stmt {scope s is c scope' s' c'} (h : Reaches none scope [s] c scope' s' c') :
      ItemReaches scope (.stmt s :: is) c scope' s' c'
  | body {scope sp f is c c₁ c₂ c₃ sig inner scope' s' c'} (hf : declareFunction scope f c = .ok (sig, c₁))
      (hi : enter scope c₁ = .ok (inner, c₂))
      (hp : defineAll inner (f.params.map Binding.name) sig.params c₂ = .ok ((), c₃))
      (h : Reaches (some sig.result) inner f.body c₃ scope' s' c') :
      ItemReaches scope (.function sp f :: is) c scope' s' c'
  | afterStmt {scope s is c c₁ scope' s' c'} (hs : checkStmt scope none s c = .ok ((), c₁))
      (h : ItemReaches scope is c₁ scope' s' c') : ItemReaches scope (.stmt s :: is) c scope' s' c'
  | afterFunction {scope sp f is c c₁ scope' s' c'} (hf : checkFunction scope f c = .ok ((), c₁))
      (h : ItemReaches scope is c₁ scope' s' c') : ItemReaches scope (.function sp f :: is) c scope' s' c'

/-- The scope is the innermost one of a stack of frames, and the declarations in view are labelled. -/
def Sound (scope : Nat) (c : Checker) : Prop :=
  ∃ top rest, scope = rest.length + 1 ∧ At c top rest ∧ LabelledEnv (top :: rest).flatten

section Sound

variable {α : Type} {top : Env} {rest : List Env} {c c' : Checker} {inner : Nat}

theorem Checks.stays {m m' : Check α} {P : α → Prop} {a : α} (h : Checks id top rest m m' P) (hat : At c top rest)
    (hok : m c = .ok (a, c')) : At c' top rest ∧ P a := by
  obtain ⟨_, hat', rfl, ha⟩ := h.ends c a c' hat hok
  exact ⟨hat', ha⟩

theorem at_enter (hat : At c top rest) (hi : enter (rest.length + 1) c = .ok (inner, c')) :
    inner = rest.length + 2 ∧ At c' [] (top :: rest) := by
  obtain ⟨q, hq, hat'⟩ := enter_of_at hat
  obtain ⟨rfl, rfl⟩ := Prod.mk.inj (Except.ok.inj (hq.symm.trans hi))
  exact ⟨rfl, hat'⟩

theorem sound_enter (hΓ : LabelledEnv (top :: rest).flatten) (hat : At c top rest)
    (hi : enter (rest.length + 1) c = .ok (inner, c')) : Sound inner c' := by
  obtain ⟨rfl, hat'⟩ := at_enter hat hi
  exact ⟨[], top :: rest, rfl, hat', labelledEnv_enter hΓ⟩

theorem Keeps.sound {m m' : Check α} {a : α} (h : Keeps id top rest m m') (hat : At c top rest)
    (hok : m c = .ok (a, c')) : Sound (rest.length + 1) c' := by
  obtain ⟨top', hat', hΓ'⟩ := h.ends c a c' hat hok
  exact ⟨top', rest, rfl, hat', hΓ'⟩

theorem sound_parameters (hΓ : LabelledEnv (top :: rest).flatten) {f : FunctionDecl} {sig : Signature}
    {c₁ c₂ c₃ : Checker} (hat : At c top rest) (hf : declareFunction (rest.length + 1) f c = .ok (sig, c₁))
    (hi : enter (rest.length + 1) c₁ = .ok (inner, c₂))
    (hp : defineAll inner (f.params.map Binding.name) sig.params c₂ = .ok ((), c₃)) : Sound inner c₃ := by
  obtain ⟨_, hat₁, hsig, rfl⟩ := (safe_declareFunction (σ := id) hΓ f).ends c sig c₁ hat hf
  obtain ⟨rfl, hat₂⟩ := at_enter hat₁ hi
  obtain ⟨_, hat₃, rfl, hdistinct, -⟩ := (safe_defineAll (σ := id) hsig.length).ends c₂ () c₃ hat₂ hp
  have hΓ' : LabelledEnv (declare f.name sig.type top :: rest).flatten :=
    hΓ.declare f.name (hsig.labelled hdistinct)
  exact ⟨_, _, rfl, hat₃, labelledEnv_declareAll (labelledEnv_enter hΓ') _ hsig.params⟩

end Sound

theorem Opens.sound {result : Option Ty} {scope inner : Nat} {s : Stmt} {b : Block} {c c' : Checker}
    (h : Opens result scope c s b inner c') (hs : Sound scope c) : Sound inner c' := by
  obtain ⟨top, rest, rfl, hat, hΓ⟩ := hs
  cases h with
  | clause hcs hk hi =>
    obtain ⟨hat₁, -⟩ := (checks_clauses hΓ result _).stays hat hcs
    obtain ⟨hat₂, -⟩ := (checks_condition hΓ _).stays hat₁ hk
    exact sound_enter hΓ hat₂ hi
  | otherwise hcs hi =>
    obtain ⟨hat₁, -⟩ := (checks_clauses hΓ result _).stays hat hcs
    exact sound_enter hΓ hat₁ hi
  | whileLoop hk hi =>
    obtain ⟨hat₁, -⟩ := (checks_condition hΓ _).stays hat hk
    exact sound_enter hΓ hat₁ hi
  | forEach he hi hv =>
    obtain ⟨hat₁, hitem⟩ := (checks_itemType hΓ _).stays hat he
    obtain ⟨rfl, hat₂⟩ := at_enter hat₁ hi
    obtain ⟨_, hat₃, rfl⟩ := (safe_defineLoopVars (σ := id) _ _).ends _ _ _ hat₂ hv
    exact ⟨_, _, rfl, hat₃, labelledEnv_declareAll (labelledEnv_enter hΓ) _ (labelled_loopTypes _ hitem)⟩
  | arm he has hp hi hb =>
    obtain ⟨hat₁, henum⟩ := (checks_expr hΓ _).stays hat he
    have hcases := Ty.labelled_enum.mp henum
    obtain ⟨hat₂, -⟩ := (checks_arms hΓ result _ hcases [] _).stays hat₁ has
    obtain ⟨hat₃, hlen, hts⟩ := (checks_patternTypes hcases _ _ _).stays hat₂ hp
    obtain ⟨rfl, hat₄⟩ := at_enter hat₃ hi
    obtain ⟨_, hat₅, rfl, -⟩ := (safe_defineAll (σ := id) hlen).ends _ _ _ hat₄ hb
    exact ⟨_, _, rfl, hat₅, labelledEnv_declareAll (labelledEnv_enter hΓ) _ hts⟩
  | default he has hi =>
    obtain ⟨hat₁, henum⟩ := (checks_expr hΓ _).stays hat he
    obtain ⟨hat₂, -⟩ := (checks_arms hΓ result _ (Ty.labelled_enum.mp henum) [] _).stays hat₁ has
    exact sound_enter hΓ hat₂ hi

theorem Reaches.sound {result : Option Ty} {scope scope' : Nat} {b : Block} {s : Stmt} {c c' : Checker}
    (h : Reaches result scope b c scope' s c') (hs : Sound scope c) : Sound scope' c' := by
  induction h with
  | here => exact hs
  | after hstmt _ ih =>
    obtain ⟨top, rest, rfl, hat, hΓ⟩ := hs
    exact ih ((safe_checkStmt hΓ result _).sound hat hstmt)
  | inside ho _ ih => exact ih (ho.sound hs)

theorem ItemReaches.sound {scope scope' : Nat} {is : List Item} {s : Stmt} {c c' : Checker}
    (h : ItemReaches scope is c scope' s c') (hs : Sound scope c) : Sound scope' c' := by
  induction h with
  | stmt h => exact h.sound hs
  | body hf hi hp h =>
    obtain ⟨top, rest, rfl, hat, hΓ⟩ := hs
    exact h.sound (sound_parameters hΓ hat hf hi hp)
  | afterStmt hstmt _ ih =>
    obtain ⟨top, rest, rfl, hat, hΓ⟩ := hs
    exact ih ((safe_checkStmt hΓ none _).sound hat hstmt)
  | afterFunction hf _ ih =>
    obtain ⟨top, rest, rfl, hat, hΓ⟩ := hs
    exact ih ((safe_checkFunction hΓ _).sound hat hf)

/-! A check that accepts comes to every statement. -/

section Everywhere

theorem checkClauses_append (scope : Nat) (result : Option Ty) (as bs : List Clause) :
    checkClauses scope result (as ++ bs) =
      checkClauses scope result as >>= fun _ => checkClauses scope result bs := by
  induction as with
  | nil => simp [checkClauses]
  | cons a as ih =>
    obtain ⟨cond, body⟩ := a
    simp [checkClauses, ih]

theorem checkArms_append (scope : Nat) (result : Option Ty) (enum : String) (cases : List (String × List Ty))
    (seen : List String) (as bs : List Arm) :
    checkArms scope result enum cases seen (as ++ bs) =
      checkArms scope result enum cases seen as >>= fun _ =>
        checkArms scope result enum cases ((as.map fun a => a.pattern.name.name).reverse ++ seen) bs := by
  induction as generalizing seen with
  | nil => simp [checkArms]
  | cons a as ih =>
    obtain ⟨pattern, body⟩ := a
    simp [checkArms, ih]

variable {result : Option Ty} {scope : Nat} {s : Stmt} {c c' : Checker}

/-- A block of a statement that was checked, with the check of the block. It is smaller than the statement. -/
structure Visit (result : Option Ty) (scope : Nat) (c : Checker) (s' s : Stmt) (b : Block) (inner : Nat)
    (q q' : Checker) : Prop where
  opens : Opens result scope c s' b inner q
  checked : checkBlock inner result b q = .ok ((), q')
  inside : s ∈ Stmt.blockStmts b
  smaller : sizeOf b < sizeOf s'

theorem visit_of_checkStmt {s' : Stmt} (h : checkStmt scope result s' c = .ok ((), c')) (hs : s ∈ s'.nested) :
    ∃ b inner q q', Visit result scope c s' s b inner q q' := by
  cases s' with
  | ifElse sp cs o =>
    obtain ⟨_, c₁, hcs, ho⟩ := bind_eq_ok.mp h
    rcases List.mem_append.mp hs with hs | hs
    · obtain ⟨k, hk, hbody⟩ := Stmt.mem_clauseStmts.mp hs
      have hsize := List.sizeOf_lt_of_mem hk
      obtain ⟨before, behind, rfl⟩ := List.append_of_mem hk
      obtain ⟨cond, body⟩ := k
      rw [checkClauses_append] at hcs
      obtain ⟨_, c₂, hbefore, hcs⟩ := bind_eq_ok.mp hcs
      obtain ⟨_, c₃, hcond, hcs⟩ := bind_eq_ok.mp hcs
      obtain ⟨_, c₄, hw, -⟩ := bind_eq_ok.mp hcs
      obtain ⟨inner, c₅, hi, hw⟩ := bind_eq_ok.mp hw
      obtain ⟨_, c₆, hb, -⟩ := bind_eq_ok.mp hw
      refine ⟨body, inner, c₅, c₆, .clause hbefore hcond hi, hb, hbody, ?_⟩
      simp only [Clause.mk.sizeOf_spec, Stmt.ifElse.sizeOf_spec] at hsize ⊢
      omega
    · cases o with
      | none => cases hs
      | some b =>
        obtain ⟨inner, c₂, hi, ho⟩ := bind_eq_ok.mp ho
        obtain ⟨_, c₃, hb, -⟩ := bind_eq_ok.mp ho
        refine ⟨b, inner, c₂, c₃, .otherwise hcs hi, hb, hs, ?_⟩
        simp only [Stmt.ifElse.sizeOf_spec, Option.some.sizeOf_spec]
        omega
  | whileLoop sp k b =>
    obtain ⟨_, c₁, hk, hw⟩ := bind_eq_ok.mp h
    obtain ⟨inner, c₂, hi, hw⟩ := bind_eq_ok.mp hw
    obtain ⟨_, c₃, hb, -⟩ := bind_eq_ok.mp hw
    refine ⟨b, inner, c₂, c₃, .whileLoop hk hi, hb, hs, ?_⟩
    simp only [Stmt.whileLoop.sizeOf_spec]
    omega
  | forEach sp v e b =>
    obtain ⟨item, c₁, he, hw⟩ := bind_eq_ok.mp h
    obtain ⟨inner, c₂, hi, hw⟩ := bind_eq_ok.mp hw
    obtain ⟨_, c₃, hw, -⟩ := bind_eq_ok.mp hw
    obtain ⟨_, c₄, hv, hb⟩ := bind_eq_ok.mp hw
    refine ⟨b, inner, c₄, c₃, .forEach he hi hv, hb, hs, ?_⟩
    simp only [Stmt.forEach.sizeOf_spec]
    omega
  | matchOn sp e as o =>
    obtain ⟨t, c₁, he, h⟩ := bind_eq_ok.mp h
    split at h
    · rename_i name cases
      obtain ⟨_, c₂, has, ho⟩ := bind_eq_ok.mp h
      rcases List.mem_append.mp hs with hs | hs
      · obtain ⟨a, ha, hbody⟩ := Stmt.mem_armStmts.mp hs
        have hsize := List.sizeOf_lt_of_mem ha
        obtain ⟨before, behind, rfl⟩ := List.append_of_mem ha
        obtain ⟨pattern, body⟩ := a
        rw [checkArms_append, List.append_nil] at has
        obtain ⟨_, c₃, hbefore, has⟩ := bind_eq_ok.mp has
        obtain ⟨ts, c₄, hp, has⟩ := bind_eq_ok.mp has
        obtain ⟨_, c₅, hw, -⟩ := bind_eq_ok.mp has
        obtain ⟨inner, c₆, hi, hw⟩ := bind_eq_ok.mp hw
        obtain ⟨_, c₇, hw, -⟩ := bind_eq_ok.mp hw
        obtain ⟨_, c₈, hd, hb⟩ := bind_eq_ok.mp hw
        refine ⟨body, inner, c₈, c₇, .arm he hbefore hp hi hd, hb, hbody, ?_⟩
        simp only [Arm.mk.sizeOf_spec, Stmt.matchOn.sizeOf_spec] at hsize ⊢
        omega
      · cases o with
        | none => cases hs
        | some b =>
          obtain ⟨inner, c₃, hi, ho⟩ := bind_eq_ok.mp ho
          obtain ⟨_, c₄, hb, -⟩ := bind_eq_ok.mp ho
          refine ⟨b, inner, c₃, c₄, .default he has hi, hb, hs, ?_⟩
          simp only [Stmt.matchOn.sizeOf_spec, Option.some.sizeOf_spec]
          omega
    · exact absurd h throw_ne_ok
  | letVar | assign | ret | expr | struct | enum => cases hs

theorem reaches_of_checkBlock {b : Block} (h : checkBlock scope result b c = .ok ((), c'))
    (hs : s ∈ Stmt.blockStmts b) :
    ∃ scope' q, Reaches result scope b c scope' s q ∧ ∃ q', checkStmt scope' result s q = .ok ((), q') := by
  -- The rest of a block and the blocks inside of its statements are smaller than the block.
  generalize hn : sizeOf b = n
  induction n using Nat.strongRecOn generalizing b scope c c' with
  | ind n ih =>
    cases b with
    | nil => cases hs
    | cons s' ss =>
      simp only [List.cons.sizeOf_spec] at hn
      obtain ⟨_, c₁, hstmt, hss⟩ := bind_eq_ok.mp h
      rcases List.mem_cons.mp hs with rfl | hs
      · exact ⟨scope, c, .here, c₁, hstmt⟩
      · rcases List.mem_append.mp hs with hs | hs
        · obtain ⟨b, inner, q, q', hvisit⟩ := visit_of_checkStmt hstmt hs
          have hsmaller := hvisit.smaller
          obtain ⟨scope', q, h, hok⟩ := ih _ (by omega) hvisit.checked hvisit.inside rfl
          exact ⟨scope', q, .inside hvisit.opens h, hok⟩
        · obtain ⟨scope', q, h, hok⟩ := ih _ (by omega) hss hs rfl
          exact ⟨scope', q, .after hstmt h, hok⟩

theorem itemReaches_of_checkTopLevel {is : List Item} (h : checkTopLevel scope is c = .ok ((), c'))
    (hs : s ∈ is.flatMap Item.stmts) :
    ∃ scope' q, ItemReaches scope is c scope' s q ∧ ∃ result q', checkStmt scope' result s q = .ok ((), q') := by
  induction is generalizing c with
  | nil => cases hs
  | cons i is ih =>
    rw [List.flatMap_cons] at hs
    cases i with
    | function sp f =>
      obtain ⟨_, c₁, hf, his⟩ := bind_eq_ok.mp h
      rcases List.mem_append.mp hs with hs | hs
      · obtain ⟨sig, c₂, hd, hw⟩ := bind_eq_ok.mp hf
        obtain ⟨inner, c₃, hi, hw⟩ := bind_eq_ok.mp hw
        obtain ⟨_, c₄, hw, -⟩ := bind_eq_ok.mp hw
        obtain ⟨_, c₅, hp, hb⟩ := bind_eq_ok.mp hw
        obtain ⟨scope', q, h, hok⟩ := reaches_of_checkBlock hb hs
        exact ⟨scope', q, .body hd hi hp h, _, hok⟩
      · obtain ⟨scope', q, h, hok⟩ := ih his hs
        exact ⟨scope', q, .afterFunction hf h, hok⟩
    | stmt s' =>
      obtain ⟨_, c₁, hstmt, his⟩ := bind_eq_ok.mp h
      rcases List.mem_append.mp hs with hs | hs
      · rw [Item.stmts, ← Stmt.blockStmts_singleton] at hs
        have hone : checkBlock scope none [s'] c = .ok ((), c₁) := bind_eq_ok.mpr ⟨(), c₁, hstmt, rfl⟩
        obtain ⟨scope', q, h, hok⟩ := reaches_of_checkBlock hone hs
        exact ⟨scope', q, .stmt h, _, hok⟩
      · obtain ⟨scope', q, h, hok⟩ := ih his hs
        exact ⟨scope', q, .afterStmt hstmt h, hok⟩

end Everywhere

/-- What is not there cannot be used: asking for a scope that is not in the arena, or for a parameter past the last
one, is a fault. -/
structure Guarded : Prop where
  lookup : ∀ scope name c, c.scopes.arena.length ≤ scope →
    Checker.lookup scope name c = .error (.internal .missingScope)
  define : ∀ scope x t c, c.scopes.arena.length ≤ scope →
    Checker.define scope x t c = .error (.internal .missingScope)
  resolve : ∀ scope x args span c, c.scopes.arena.length ≤ scope → Ty.atomic? x.name = none →
    x.name ≠ "list" → x.name ≠ "map" →
    Checker.resolve scope (.mk x args span) c = .error (.internal .missingScope)
  parameter : ∀ scope sig position bound after a as p c,
    parameterOf sig position after a c = .ok (p, c) → sig.params.length ≤ p →
    checkArguments scope sig position bound after (a :: as) c = .error (.internal .missingParameter)

theorem lookup_missing {scope : Nat} {c : Checker} (h : c.scopes.arena.length ≤ scope) (name : String) :
    c.scopes.lookup scope name = .error .missing := by
  rw [Scopes.lookup, Scopes.lookupFrom, List.getElem?_eq_none h]

theorem guarded : Guarded := by
  refine ⟨?_, ?_, ?_, ?_⟩
  · intro scope name c h
    rw [Checker.lookup, lookup_missing h]
    rfl
  · intro scope x t c h
    rw [Checker.define, Scopes.define, List.getElem?_eq_none h]
    rfl
  · intro scope x args span c h ha hl hm
    have hname : TypeExpr.resolveName (fun name => (ofScopes (c.scopes.lookup scope name)).map
        (·.map (·.2.type))) x = .error (.internal .missingScope) := by
      rw [TypeExpr.resolveName, ha, lookup_missing h]
      rfl
    rw [Checker.resolve]
    unfold TypeExpr.resolve
    simp only [if_neg hl, if_neg hm, hname]
  · intro scope sig position bound after a as p c hp hlen
    obtain ⟨label, value⟩ := a
    rw [checkArguments]
    refine bind_eq_error.mpr (.inr ⟨p, c, hp, ?_⟩)
    rw [List.getElem?_eq_none hlen]
    rfl

end Checker

open Checker

/-- Checking the program comes to the statement, in a scope and a state. -/
def Program.Reaches (p : Program) (scope : Nat) (s : Stmt) (c : Checker) : Prop :=
  ∃ top c₀, Checker.enter Scopes.root Checker.new = .ok (top, c₀) ∧ ItemReaches top p.items c₀ scope s c

/-- Checking the program stays within its scopes and the parameters of functions. -/
structure Program.Faultless (p : Program) : Prop where
  check : ∀ f, p.check ≠ .error (.internal f)
  scope : ∀ scope s c, p.Reaches scope s c → scope < c.scopes.arena.length
  /-- Wherever a call may stand, the function types that the check finds are labelled. -/
  function : ∀ scope s c, p.Reaches scope s c → ∀ e ∈ s.exprs, ∀ g ∈ e.parts,
    ∀ c', c'.scopes = c.scopes → ∀ t q, checkExpr scope g c' = .ok (t, q) →
      q.scopes = c.scopes ∧ ∀ ps ls r, t = .function ps ls r → Labelling ps ls
  everywhere : ∀ T, p.check = .ok T → ∀ s ∈ p.stmts, ∃ scope c, p.Reaches scope s c

namespace Checker

theorem at_start {top : Nat} {c : Checker} (h : Checker.enter Scopes.root Checker.new = .ok (top, c)) :
    top = 1 ∧ At c [] [] := by
  obtain ⟨rfl, rfl⟩ := Prod.mk.inj (Except.ok.inj h)
  exact ⟨rfl, rfl⟩

theorem sound_of_reaches {p : Program} {scope : Nat} {s : Stmt} {c : Checker} (h : p.Reaches scope s c) :
    Sound scope c := by
  obtain ⟨top, c₀, hstart, h⟩ := h
  obtain ⟨rfl, hat⟩ := at_start hstart
  exact h.sound ⟨[], [], rfl, hat, labelledEnv_nil⟩

end Checker

theorem Program.check_ne_internal (p : Program) (f : Fault) : p.check ≠ .error (.internal f) := by
  intro h
  unfold Program.check at h
  split at h
  · cases h
  · rename_i e he
    obtain rfl := Except.error.inj h
    rcases bind_eq_error.mp he with he | ⟨top, c, hstart, he⟩
    · cases he
    · obtain ⟨rfl, hat⟩ := at_start hstart
      have hΓ : LabelledEnv ([] :: ([] : List Env)).flatten := labelledEnv_nil
      exact (safe_checkTopLevel (σ := id) hΓ p.items).faultless c f hat he

theorem Program.reaches_of_check {p : Program} {T : TypeTable} (h : p.check = .ok T) {s : Stmt}
    (hs : s ∈ p.stmts) :
    ∃ scope c, p.Reaches scope s c ∧ ∃ result c', checkStmt scope result s c = .ok ((), c') := by
  unfold Program.check at h
  split at h
  · rename_i u c hrun
    obtain ⟨top, c₀, hstart, hrun⟩ := Checker.bind_eq_ok.mp hrun
    obtain ⟨scope, q, h, hok⟩ := itemReaches_of_checkTopLevel hrun hs
    exact ⟨scope, q, ⟨top, c₀, hstart, h⟩, hok⟩
  · cases h

/-- No program makes the check use what is not there. -/
theorem check_faultless (p : Program) : Guarded ∧ p.Faultless := by
  refine ⟨guarded, p.check_ne_internal, ?_, ?_, ?_⟩
  · intro scope s c h
    obtain ⟨top, rest, rfl, hat, -⟩ := sound_of_reaches h
    rw [hat, Scopes.ofFrames, Scopes.length_arenaOf]
    simp only [List.cons_append, List.length_cons, List.length_append]
    omega
  · intro scope s c h e he g hg c' hc' t q hrun
    obtain ⟨top, rest, rfl, hat, hΓ⟩ := sound_of_reaches h
    obtain ⟨hat', ht⟩ := (checks_expr hΓ g).stays (hc'.trans hat) hrun
    refine ⟨hat'.trans hat.symm, ?_⟩
    rintro ps ls r rfl
    exact (Ty.labelled_function.mp ht).1
  · intro T hT s hs
    obtain ⟨scope, c, h, -⟩ := Program.reaches_of_check hT hs
    exact ⟨scope, c, h⟩

end Gondola
