import CFlare.Library.Machine

/-! Runs of a component that is called again and again: each call may fault, or return a
reply and the next state. The rules carry a one-call fact over a whole run. -/
namespace CFlare.Library

variable {σ τ α β : Type}

def runCalls (step : σ → α → Except Fault (β × σ)) : σ → List α → Except Fault (List β × σ)
  | s, [] => .ok ([], s)
  | s, call :: calls =>
    match step s call with
    | .error fault => .error fault
    | .ok (reply, s') =>
      match runCalls step s' calls with
      | .error fault => .error fault
      | .ok (replies, s'') => .ok (reply :: replies, s'')

theorem runCalls_cons_ok {step : σ → α → Except Fault (β × σ)} {s s'' : σ} {call : α} {calls : List α}
    {replies : List β} (h : runCalls step s (call :: calls) = .ok (replies, s'')) :
    ∃ reply s' rest, step s call = .ok (reply, s') ∧ runCalls step s' calls = .ok (rest, s'') := by
  rw [runCalls] at h
  cases hc : step s call with
  | error fault =>
    rw [hc] at h
    cases h
  | ok r =>
    obtain ⟨reply, s'⟩ := r
    rw [hc] at h
    dsimp only at h
    cases hr : runCalls step s' calls with
    | error fault =>
      rw [hr] at h
      cases h
    | ok r' =>
      obtain ⟨rest, t⟩ := r'
      rw [hr] at h
      obtain ⟨-, rfl⟩ := Prod.mk.inj (Except.ok.inj h)
      exact ⟨reply, s', rest, rfl, hr⟩

theorem runCalls_cons_replies {step : σ → α → Except Fault (β × σ)} {s s'' : σ} {call : α} {calls : List α}
    {replies : List β} (h : runCalls step s (call :: calls) = .ok (replies, s'')) :
    ∃ reply s' rest, step s call = .ok (reply, s') ∧ runCalls step s' calls = .ok (rest, s'') ∧
      replies = reply :: rest := by
  obtain ⟨reply, s', rest, hcall, htail⟩ := runCalls_cons_ok h
  refine ⟨reply, s', rest, hcall, htail, ?_⟩
  rw [runCalls, hcall] at h
  dsimp only at h
  rw [htail] at h
  exact (Prod.mk.inj (Except.ok.inj h)).1.symm

theorem runCalls_append (step : σ → α → Except Fault (β × σ)) (s : σ) (xs ys : List α) :
    runCalls step s (xs ++ ys) =
      match runCalls step s xs with
      | .error fault => .error fault
      | .ok (replies, s') =>
        match runCalls step s' ys with
        | .error fault => .error fault
        | .ok (replies', s'') => .ok (replies ++ replies', s'') := by
  induction xs generalizing s with
  | nil =>
    simp only [List.nil_append, runCalls]
    cases runCalls step s ys <;> rfl
  | cons call xs ih =>
    rw [List.cons_append, runCalls, runCalls]
    cases step s call with
    | error fault => rfl
    | ok r =>
      obtain ⟨reply, s1⟩ := r
      simp only [ih s1]
      cases runCalls step s1 xs with
      | error fault => rfl
      | ok r1 =>
        obtain ⟨replies, s2⟩ := r1
        dsimp only
        cases runCalls step s2 ys <;> rfl

theorem runCalls_append_eq_ok {step : σ → α → Except Fault (β × σ)} {s s'' : σ} {xs ys : List α}
    {replies : List β} : runCalls step s (xs ++ ys) = .ok (replies, s'') ↔
      ∃ first s' rest, runCalls step s xs = .ok (first, s') ∧ runCalls step s' ys = .ok (rest, s'') ∧
        replies = first ++ rest := by
  rw [runCalls_append]
  constructor
  · intro h
    cases hx : runCalls step s xs with
    | error fault =>
      rw [hx] at h
      cases h
    | ok r =>
      obtain ⟨first, s'⟩ := r
      rw [hx] at h
      dsimp only at h
      cases hy : runCalls step s' ys with
      | error fault =>
        rw [hy] at h
        cases h
      | ok r' =>
        obtain ⟨rest, t⟩ := r'
        rw [hy] at h
        obtain ⟨rfl, rfl⟩ := Prod.mk.inj (Except.ok.inj h)
        exact ⟨first, s', rest, rfl, hy, rfl⟩
  · rintro ⟨first, s', rest, hx, hy, rfl⟩
    simp only [hx, hy]

theorem runCalls_append_singleton {step : σ → α → Except Fault (β × σ)} {calls : List α} {s s' s'' : σ}
    {replies : List β} {call : α} {reply : β} (h : runCalls step s calls = .ok (replies, s'))
    (hc : step s' call = .ok (reply, s'')) :
    runCalls step s (calls ++ [call]) = .ok (replies ++ [reply], s'') := by
  simp only [runCalls_append, h, runCalls, hc]

theorem runCalls_append_fault {step : σ → α → Except Fault (β × σ)} {calls : List α} {s s' : σ}
    {replies : List β} {call : α} {fault : Fault} (h : runCalls step s calls = .ok (replies, s'))
    (hc : step s' call = .error fault) : runCalls step s (calls ++ [call]) = .error fault := by
  simp only [runCalls_append, h, runCalls, hc]

/-- The replies to one of the clients that share a component, where each call is a step of a client. -/
def repliesOf [DecidableEq α] (i : α) : List α → List β → List β
  | j :: schedule, reply :: replies =>
    if j = i then reply :: repliesOf i schedule replies else repliesOf i schedule replies
  | _, _ => []

/-- The same calls and replies seen by an abstract transition relation. -/
inductive Chain (trans : τ → α → β → τ → Prop) : τ → List α → List β → τ → Prop where
  | nil (t : τ) : Chain trans t [] [] t
  | cons {t t' t'' : τ} {call : α} {reply : β} {calls : List α} {replies : List β}
      (head : trans t call reply t') (tail : Chain trans t' calls replies t'') :
      Chain trans t (call :: calls) (reply :: replies) t''

/-- Forward simulation: when every call from a related state returns and is matched by an
abstract transition, so is every run. -/
theorem runCalls_simulates {step : σ → α → Except Fault (β × σ)} {trans : τ → α → β → τ → Prop}
    (rel : σ → τ → Prop)
    (hstep : ∀ s t call, rel s t →
      ∃ reply s' t', step s call = .ok (reply, s') ∧ trans t call reply t' ∧ rel s' t')
    (calls : List α) {s : σ} {t : τ} (h : rel s t) :
    ∃ replies s' t', runCalls step s calls = .ok (replies, s') ∧
      Chain trans t calls replies t' ∧ rel s' t' := by
  induction calls generalizing s t with
  | nil => exact ⟨[], s, t, rfl, .nil t, h⟩
  | cons call calls ih =>
    obtain ⟨reply, s', t', he, ht, hr⟩ := hstep s t call h
    obtain ⟨replies, s'', t'', hes, hts, hrs⟩ := ih hr
    refine ⟨reply :: replies, s'', t'', ?_, .cons ht hts, hrs⟩
    simp only [runCalls, he, hes]

/-- A fact that each call of a run keeps when it returns holds when the run does. -/
theorem runCalls_preserves {step : σ → α → Except Fault (β × σ)} (inv : σ → Prop) {calls : List α} {s s' : σ}
    {replies : List β} (hstep : ∀ s call reply s', call ∈ calls → inv s → step s call = .ok (reply, s') → inv s')
    (h : inv s) (hrun : runCalls step s calls = .ok (replies, s')) : inv s' := by
  induction calls generalizing s replies with
  | nil =>
    obtain ⟨-, rfl⟩ := Prod.mk.inj (Except.ok.inj hrun)
    exact h
  | cons call calls ih =>
    obtain ⟨reply, s1, rest, hcall, htail⟩ := runCalls_cons_ok hrun
    have hfirst := hstep s call reply s1 List.mem_cons_self h hcall
    exact ih (fun s c reply s' hc => hstep s c reply s' (List.mem_cons_of_mem _ hc)) hfirst htail

/-- A fact about the state and the calls still to come, kept by each call, holds at the end. -/
theorem runCalls_keeps {step : σ → α → Except Fault (β × σ)} (inv : σ → List α → Prop)
    (hstep : ∀ s call calls, inv s (call :: calls) →
      ∃ reply s', step s call = .ok (reply, s') ∧ inv s' calls)
    (calls : List α) {s : σ} (h : inv s calls) :
    ∃ replies s', runCalls step s calls = .ok (replies, s') ∧ inv s' [] := by
  induction calls generalizing s with
  | nil => exact ⟨[], s, rfl, h⟩
  | cons call calls ih =>
    obtain ⟨reply, s', he, hi⟩ := hstep s call calls h
    obtain ⟨replies, s'', hes, hi'⟩ := ih hi
    exact ⟨reply :: replies, s'', by simp only [runCalls, he, hes], hi'⟩

end CFlare.Library
