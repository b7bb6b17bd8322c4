import Mathlib.Computability.StateTransition

/-! Runs of a machine that takes one step after another: what each step keeps, every state reached
has; and where each step goes down in a measure, the machine stops. -/
namespace CFlare.Library
open StateTransition
variable {σ : Type} {step : σ → Option σ} {s t u : σ} {inv : σ → Prop}

theorem reaches_head (h : step s = some t) (ht : Reaches step t u) : Reaches step s u := .head h ht

/-- What every step keeps holds in every state reached. -/
theorem reaches_invariant (hstep : ∀ s t, inv s → step s = some t → inv t) (hs : inv s) (h : Reaches step s t) :
    inv t := by
  induction h with
  | refl => exact hs
  | tail _ hlast ih => exact hstep _ _ ih (Option.mem_def.mp hlast)

theorem reaches_stop (measure : σ → Nat) (hstep : ∀ s t, inv s → step s = some t → inv t ∧ measure t < measure s)
    (hs : inv s) : ∃ t, Reaches step s t ∧ step t = none := by
  induction hm : measure s using Nat.strong_induction_on generalizing s with
  | _ n ih =>
    cases hnext : step s with
    | none => exact ⟨s, .refl, hnext⟩
    | some u =>
      obtain ⟨hu, hless⟩ := hstep s u hs hnext
      obtain ⟨t, hreach, hstop⟩ := ih (measure u) (hm ▸ hless) hu rfl
      exact ⟨t, .head hnext hreach, hstop⟩

theorem reaches_stop_unique (h : Reaches step s t) (ht : step t = none) (h' : Reaches step s u) (hu : step u = none) :
    t = u :=
  Part.mem_unique (mem_eval.mpr ⟨h, ht⟩) (mem_eval.mpr ⟨h', hu⟩)

/-- A state that was reached is the first one, or some step led to it. -/
theorem reaches_last (h : Reaches step s t) : t = s ∨ ∃ u, Reaches step s u ∧ step u = some t := by
  rcases Relation.ReflTransGen.cases_tail h with rfl | ⟨u, hu, hlast⟩
  · exact .inl rfl
  · exact .inr ⟨u, hu, Option.mem_def.mp hlast⟩

end CFlare.Library
