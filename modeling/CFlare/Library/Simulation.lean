import CFlare.Library.Runs

/-! Two computations compared outcome by outcome, as long as the first one does not end in a
way about which nothing is said. -/
namespace CFlare.Library
variable {ε α β γ δ : Type}

/-- Both return related values or end the same way, unless the first one ends badly. -/
inductive Agrees (bad : ε → Prop) (same : ε → ε → Prop) (rel : α → β → Prop) :
    Except ε α → Except ε β → Prop where
  | ok {a : α} {b : β} (h : rel a b) : Agrees bad same rel (.ok a) (.ok b)
  | error {e e' : ε} (h : same e e') : Agrees bad same rel (.error e) (.error e')
  | bad {e : ε} {y : Except ε β} (h : bad e) : Agrees bad same rel (.error e) y

variable {bad : ε → Prop} {same : ε → ε → Prop} {rel : α → β → Prop} {x : Except ε α} {y : Except ε β}

theorem Agrees.bind {rel' : γ → δ → Prop} (h : Agrees bad same rel x y) {f : α → Except ε γ}
    {g : β → Except ε δ} (hk : ∀ a b, rel a b → Agrees bad same rel' (f a) (g b)) :
    Agrees bad same rel' (x >>= f) (y >>= g) := by
  cases h with
  | ok h => exact hk _ _ h
  | error h => exact .error h
  | bad h => exact .bad h

theorem Agrees.refl {f : Except ε α} (hs : ∀ e, same e e) : Agrees bad same Eq f f := by
  cases f with
  | ok a => exact .ok rfl
  | error e => exact .error (hs e)

theorem Agrees.returned (h : Agrees bad same rel x y) :
    Agrees bad same (fun a b => rel a b ∧ x = .ok a ∧ y = .ok b) x y := by
  cases h with
  | ok h => exact .ok ⟨h, rfl, rfl⟩
  | error h => exact .error h
  | bad h => exact .bad h

theorem Agrees.of_ok {a : α} (h : Agrees bad same rel (.ok a) y) : ∃ b, y = .ok b ∧ rel a b := by
  cases h with
  | ok h => exact ⟨_, rfl, h⟩

theorem Agrees.of_error {e : ε} (h : Agrees bad same rel (.error e) y) (hb : ¬ bad e) :
    ∃ e', y = .error e' ∧ same e e' := by
  cases h with
  | error h => exact ⟨_, rfl, h⟩
  | bad h => exact absurd h hb

/-- An error of the second one is also the first one's, when that does not end badly. -/
theorem Agrees.of_error_right {e' : ε} (h : Agrees bad same rel x (.error e' : Except ε β))
    (hbad : ∀ e, x = .error e → ¬ bad e) : ∃ e, x = .error e ∧ same e e' := by
  cases x with
  | error e =>
    obtain ⟨e₁, he, hs⟩ := h.of_error (hbad e rfl)
    obtain rfl := Except.error.inj he
    exact ⟨e, rfl, hs⟩
  | ok a =>
    obtain ⟨b, hb, -⟩ := h.of_ok
    cases hb

/-- Two computations that agree with a third one, which does not end badly, agree. -/
theorem Agrees.span {rel' : α → γ → Prop} {z : Except ε γ} (hxy : Agrees bad same rel x y)
    (hxz : Agrees bad same rel' x z) (hbad : ∀ e, x = .error e → ¬ bad e)
    (hsame : ∀ e e₁ e₂, same e e₁ → same e e₂ → same e₁ e₂) :
    Agrees (fun _ => False) same (fun b c => ∃ a, x = .ok a ∧ rel a b ∧ rel' a c) y z := by
  cases x with
  | error e =>
    obtain ⟨e₁, rfl, h₁⟩ := hxy.of_error (hbad e rfl)
    obtain ⟨e₂, rfl, h₂⟩ := hxz.of_error (hbad e rfl)
    exact .error (hsame e e₁ e₂ h₁ h₂)
  | ok a =>
    obtain ⟨b, rfl, hb⟩ := hxy.of_ok
    obtain ⟨c, rfl, hc⟩ := hxz.of_ok
    exact .ok ⟨a, rfl, hb, hc⟩

theorem Agrees.onward {rel' : α → δ → Prop} (h : Agrees bad same rel x y) {g : β → Except ε δ}
    (hk : ∀ a b, rel a b → ∃ d, g b = .ok d ∧ rel' a d) : Agrees bad same rel' x (y >>= g) := by
  cases h with
  | ok h =>
    obtain ⟨d, hd, hrel⟩ := hk _ _ h
    rw [fault_ok_bind, hd]
    exact .ok hrel
  | error h => exact .error h
  | bad h => exact .bad h

section Exact

theorem Agrees.outcomes (h : Agrees (fun _ => False) Eq rel x y) :
    (∃ a b, x = .ok a ∧ y = .ok b ∧ rel a b) ∨ ∃ e, x = .error e ∧ y = .error e := by
  cases h with
  | ok h => exact .inl ⟨_, _, rfl, rfl, h⟩
  | error h => exact .inr ⟨_, rfl, congrArg _ h.symm⟩
  | bad h => exact h.elim

end Exact

/-- Two components whose calls agree, while what is still to be called is known, agree over whole runs. -/
theorem runCalls_agrees {σ τ : Type} {bad : Fault → Prop} {step : σ → α → Except Fault (β × σ)}
    {step' : τ → α → Except Fault (β × τ)} (rel : List α → σ → τ → Prop)
    (hstep : ∀ call calls s t, rel (call :: calls) s t →
      Agrees bad Eq (fun r r' => r.1 = r'.1 ∧ rel calls r.2 r'.2) (step s call) (step' t call))
    {calls : List α} {s : σ} {t : τ} (h : rel calls s t) :
    Agrees bad Eq (fun r r' => r.1 = r'.1 ∧ rel [] r.2 r'.2) (runCalls step s calls) (runCalls step' t calls) := by
  induction calls generalizing s t with
  | nil => exact .ok ⟨rfl, h⟩
  | cons call calls ih =>
    have hcall := hstep call calls s t h
    rw [runCalls, runCalls]
    generalize step s call = x at hcall
    generalize step' t call = y at hcall
    cases hcall with
    | error he => exact .error he
    | bad he => exact .bad he
    | @ok r r' hr =>
      have hrest := ih hr.2
      dsimp only
      generalize runCalls step r.2 calls = x at hrest
      generalize runCalls step' r'.2 calls = y at hrest
      cases hrest with
      | error he => exact .error he
      | bad he => exact .bad he
      | ok hrs => exact .ok ⟨congrArg₂ List.cons hr.1 hrs.1, hrs.2⟩

end CFlare.Library
