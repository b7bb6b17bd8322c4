import CFlare.Library.Runs

/-! The potential method: what single calls cost above their share is paid by a potential that earlier calls have
built up. -/
namespace CFlare.Library
variable {σ α β : Type}

/-- A run costs no more than the shares of its calls and the potential that it starts with. The state counts what has
been spent. Shares and potential may be counted in parts of its unit. -/
theorem runCalls_amortized {step : σ → α → Except Fault (β × σ)} (inv : σ → List α → Prop) (spent : σ → Nat)
    (potential : σ → Nat) {parts share : Nat} {calls : List α} {s s' : σ} {replies : List β}
    (hstep : ∀ s call calls reply s', inv s (call :: calls) → step s call = .ok (reply, s') →
      inv s' calls ∧ parts * spent s' + potential s' ≤ parts * spent s + potential s + share)
    (h : inv s calls) (hrun : runCalls step s calls = .ok (replies, s')) :
    parts * spent s' + potential s' ≤ parts * spent s + potential s + share * calls.length := by
  induction calls generalizing s replies with
  | nil =>
    obtain ⟨-, rfl⟩ := Prod.mk.inj (Except.ok.inj hrun)
    simp
  | cons call calls ih =>
    obtain ⟨reply, s1, rest, hcall, htail⟩ := runCalls_cons_ok hrun
    obtain ⟨h1, hpaid⟩ := hstep s call calls reply s1 h hcall
    have hlater := ih h1 htail
    rw [List.length_cons, Nat.mul_succ]
    omega

end CFlare.Library
