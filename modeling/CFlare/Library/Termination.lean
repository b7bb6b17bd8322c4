import Mathlib.Algebra.BigOperators.Group.Finset.Piecewise
import Mathlib.Algebra.Order.BigOperators.Group.Finset
import Mathlib.Logic.Relation

/-! Relations whose steps go down in a measure: their runs are bounded, and one that cannot go on has an end. -/
namespace CFlare.Library
open Relation

/-- So many steps one behind another. -/
inductive RunOf {σ : Type} (step : σ → σ → Prop) : Nat → σ → σ → Prop where
  | nil (s : σ) : RunOf step 0 s s
  | tail {n : Nat} {s t u : σ} (run : RunOf step n s t) (last : step t u) : RunOf step (n + 1) s u

section Runs
variable {σ : Type} {step : σ → σ → Prop} {inv : σ → Prop} {s t : σ}

/-- What every step keeps holds along a run. -/
theorem reflTransGen_invariant (hstep : ∀ s t, inv s → step s t → inv t) (hs : inv s) (h : ReflTransGen step s t) :
    inv t := by
  induction h with
  | refl => exact hs
  | tail _ hlast ih => exact hstep _ _ ih hlast

theorem RunOf.reaches {n : Nat} (h : RunOf step n s t) : ReflTransGen step s t := by
  induction h with
  | nil => exact .refl
  | tail _ hlast ih => exact .tail ih hlast

theorem RunOf.bounded (measure : σ → Nat) (hstep : ∀ s t, inv s → step s t → inv t ∧ measure t < measure s)
    (hs : inv s) {n : Nat} (h : RunOf step n s t) : n + measure t ≤ measure s := by
  induction h with
  | nil => exact Nat.le_of_eq (Nat.zero_add _)
  | tail hrun hlast ih =>
    have hinv := reflTransGen_invariant (fun s t hs hst => (hstep s t hs hst).1) hs hrun.reaches
    have hless := (hstep _ _ hinv hlast).2
    have hbound := ih hs
    omega

/-- A goal is reached when short of it some step always goes down. -/
theorem reaches_goal {goal : σ → Prop} (measure : σ → Nat)
    (hprogress : ∀ s, inv s → ¬ goal s → ∃ t, step s t ∧ inv t ∧ measure t < measure s) (hs : inv s) :
    ∃ t, ReflTransGen step s t ∧ inv t ∧ goal t := by
  induction hn : measure s using Nat.strongRecOn generalizing s with
  | ind n ih =>
    by_cases hgoal : goal s
    · exact ⟨s, .refl, hs, hgoal⟩
    · obtain ⟨t, hstep, ht, hless⟩ := hprogress s hs hgoal
      obtain ⟨u, hrun, hu, hgoal⟩ := ih (measure t) (hn ▸ hless) ht rfl
      exact ⟨u, .head hstep hrun, hu, hgoal⟩

end Runs

section Totals
variable {β : Type} (rank : β → Nat)

/-- The ranks of the first indices together. -/
def totalRank (n : Nat) (f : Nat → β) : Nat := ∑ i ∈ Finset.range n, rank (f i)

variable {n i : Nat} {f g : Nat → β}

/-- A change at one index replaces one rank. -/
theorem totalRank_update (hi : i < n) (f : Nat → β) (b : β) :
    totalRank rank n (Function.update f i b) + rank (f i) = totalRank rank n f + rank b := by
  have hmem : i ∈ Finset.range n := Finset.mem_range.mpr hi
  have hnew : totalRank rank n (Function.update f i b) = rank b + ∑ j ∈ Finset.range n \ {i}, rank (f j) := by
    have hcomp : (fun j => rank (Function.update f i b j)) = Function.update (fun j => rank (f j)) i (rank b) :=
      Function.comp_update rank f i b
    rw [totalRank, hcomp, Finset.sum_update_of_mem hmem]
  have hold : totalRank rank n f = rank (f i) + ∑ j ∈ Finset.range n \ {i}, rank (f j) := by
    rw [totalRank, Finset.sum_eq_add_sum_sdiff_singleton_of_mem hmem]
  omega

theorem totalRank_congr {rank : β → Nat} (h : ∀ i < n, rank (f i) = rank (g i)) :
    totalRank rank n f = totalRank rank n g :=
  Finset.sum_congr rfl (fun i hi => h i (Finset.mem_range.mp hi))

theorem totalRank_succ (f : Nat → β) (b : β) :
    totalRank rank (n + 1) (Function.update f n b) = totalRank rank n f + rank b := by
  rw [totalRank, Finset.sum_range_succ, Function.update_self]
  congr 1
  apply totalRank_congr
  intro i hi
  rw [Function.update_of_ne (Nat.ne_of_lt hi)]

variable {rank}

theorem totalRank_eq_zero : totalRank rank n f = 0 ↔ ∀ i < n, rank (f i) = 0 := by
  simp [totalRank, Finset.sum_eq_zero_iff]

theorem totalRank_le {bound : Nat} (h : ∀ b, rank b ≤ bound) : totalRank rank n f ≤ bound * n := by
  induction n with
  | zero => exact Nat.zero_le _
  | succ n ih =>
    rw [totalRank, Finset.sum_range_succ, Nat.mul_succ]
    exact Nat.add_le_add ih (h (f n))

end Totals

end CFlare.Library
