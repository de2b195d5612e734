import Mathlib.Data.Nat.Basic
import Mathlib.Tactic.Common

/-!
# Computations under a step budget

A metered computation counts its steps and may give up once the count has passed its limit. An
honest one gives up in no other way: within the limit it does what it does without one.
-/

namespace Coreutils.Budgets

/-- A computation that reads its limit (`none` is no limit) and counts its steps. -/
abbrev Metered (α : Type) := ReaderT (Option ℕ) (StateM ℕ) α

def exceeded : Option ℕ→ℕ→Option ℕ
  | none,_ => none
  | some limit,steps => if limit<steps then some limit else none

def tick : Metered Unit := modify (·+1)

def exhausted : Metered (Option ℕ) := do return exceeded (← read) (← get)

/-- Give up when the count has passed the limit, and go on as `m` otherwise. -/
def unlessSpent {α : Type} (giveUp : ℕ→α) (m : Metered α) : Metered α := do
  match ← exhausted with
  | some limit => return giveUp limit
  | none => m

def run {α : Type} (m : Metered α) (limit : Option ℕ) (steps : ℕ) : α×ℕ := m limit steps

section
variable {α β : Type} {limit : Option ℕ} {steps : ℕ} {m : Metered α}

@[simp] theorem run_pure (a : α) (limit : Option ℕ) (steps : ℕ) :
    run (pure a) limit steps=(a,steps) := rfl

@[simp] theorem run_bind (m : Metered α) (f : α→Metered β) (limit : Option ℕ) (steps : ℕ) :
    run (m >>= f) limit steps=run (f (run m limit steps).1) limit (run m limit steps).2 := rfl

@[simp] theorem run_tick (limit : Option ℕ) (steps : ℕ) : run tick limit steps=((),steps+1) := rfl

@[simp] theorem run_exhausted (limit : Option ℕ) (steps : ℕ) :
    run exhausted limit steps=(exceeded limit steps,steps) := rfl

theorem run_unlessSpent_none (h : exceeded limit steps=none) (giveUp : ℕ→α) (m : Metered α) :
    run (unlessSpent giveUp m) limit steps=run m limit steps := by
  rw [unlessSpent,run_bind,run_exhausted,h]

theorem run_unlessSpent_some {l : ℕ} (h : exceeded limit steps=some l)
    (giveUp : ℕ→α) (m : Metered α) : run (unlessSpent giveUp m) limit steps=(giveUp l,steps) := by
  rw [unlessSpent,run_bind,run_exhausted,h]
  rfl

theorem exceeded_mono {steps' : ℕ} (hle : steps ≤ steps')
    (h : exceeded limit steps'=none) : exceeded limit steps=none := by
  cases limit with
  | none => rfl
  | some limit =>
    have hn : ¬ limit<steps' := by simpa [exceeded] using h
    exact if_neg (by omega)

theorem eq_of_exceeded {l : ℕ} (h : exceeded limit steps=some l) : limit=some l := by
  cases limit with
  | none => cases h
  | some limit =>
    simp only [exceeded] at h
    split at h
    · exact h
    · cases h

/-- The count never falls, and a run whose count ends within the limit is the unlimited run. -/
structure Honest (m : Metered α) : Prop where
  le (limit : Option ℕ) (steps : ℕ) : steps≤(run m limit steps).2
  eq {limit : Option ℕ} {steps : ℕ} (h : exceeded limit (run m limit steps).2=none) :
    run m limit steps=run m none steps

theorem honest_pure (a : α) : Honest (pure a : Metered α) where
  le _ _ := le_rfl
  eq _ := rfl

theorem honest_tick : Honest tick where
  le _ steps := Nat.le_succ steps
  eq _ := rfl

theorem Honest.bind {f : α→Metered β} (hm : Honest m)
    (hf : ∀a,Honest (f a)) : Honest (m >>= f) where
  le limit steps := le_trans (hm.le limit steps) ((hf _).le limit _)
  eq {limit steps} h := by
    rw [run_bind] at h
    have hfirst : run m limit steps=run m none steps :=
      hm.eq (exceeded_mono ((hf _).le limit _) h)
    rw [run_bind,run_bind,(hf _).eq h,hfirst]

/-- Giving up once the limit is passed is honest: the count stays past it. -/
theorem Honest.unlessSpent (hm : Honest m) (giveUp : ℕ→α) : Honest (unlessSpent giveUp m) where
  le limit steps := by
    cases h : exceeded limit steps with
    | none => simpa only [run_unlessSpent_none h] using hm.le limit steps
    | some l => rw [run_unlessSpent_some h]
  eq {limit steps} h := by
    cases hl : exceeded limit steps with
    | none =>
      rw [run_unlessSpent_none hl] at h ⊢
      exact hm.eq h
    | some l =>
      rw [run_unlessSpent_some hl,hl] at h
      cases h

theorem honest_ite {c : Prop} [Decidable c] {m' : Metered α} (hm : Honest m) (hm' : Honest m') :
    Honest (if c then m else m') := by
  split
  · exact hm
  · exact hm'

theorem Honest.map (hm : Honest m) (f : α→β) : Honest (do return f (← m)) :=
  hm.bind fun a => honest_pure (f a)

end

end Coreutils.Budgets
