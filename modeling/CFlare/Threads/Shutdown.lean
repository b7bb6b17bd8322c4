import CFlare.Library.Termination
import CFlare.Threads.Workers

/-! The end of the server: the listener stops to accept and waits until the counter of the workers is zero. The
counter is right in every state and nothing that it counts can last, but a worker that has been created and has
not started is not on it. -/
namespace CFlare.Threads
open CFlare.Library Relation

/-- A worker that has started and has not exited. -/
def WorkerPhase.running : WorkerPhase → Bool
  | .absent | .created | .exited => false
  | .waiting | .signalled | .timedOut | .serving _ | .dangling => true

def WorkerPhase.share (phase : WorkerPhase) : Nat := if phase.running then 1 else 0

/-- How many steps a worker can still take when there is nothing more to serve. -/
def WorkerPhase.stepsLeft : WorkerPhase → Nat
  | .absent | .exited | .dangling => 0
  | .signalled | .timedOut => 1
  | .waiting => 2
  | .created | .serving _ => 3

def Coroutines.total (rank : WorkerPhase → Nat) (s : Coroutines) : Nat := totalRank rank s.created s.worker

/-- The counter counts the workers that run. -/
structure Counted (s : Coroutines) : Prop where
  conserved : Conserved s
  counter : s.workers = s.total WorkerPhase.share
  late : ∀ w, s.worker w = .dangling → s.listener = .closed

/-- The listener accepts no more; it returns when the counter is zero. -/
structure Closing (s : Coroutines) : Prop where
  counted : Counted s
  ended : s.listener = .closing ∨ s.listener = .closed ∧ ∀ w, (s.worker w).running = true → s.worker w = .dangling
  message : s.socket = none

/-- The steps that are left until the listener returns. -/
def Coroutines.stepsLeft (s : Coroutines) : Nat :=
  s.total WorkerPhase.stepsLeft + if s.listener = .closing then 1 else 0

section Totals
variable {s : Coroutines} {w : Nat}

theorem Conserved.born (h : Conserved s) (hw : s.worker w ≠ .absent) : w < s.created :=
  Nat.lt_of_not_le (fun hle => hw (h.unborn w hle))

theorem Conserved.total_move (h : Conserved s) (rank : WorkerPhase → Nat) {phase : WorkerPhase}
    (hw : s.worker w = phase) (hp : phase ≠ .absent) (phase' : WorkerPhase) :
    (s.move w phase').total rank + rank phase = s.total rank + rank phase' := by
  have hborn : w < s.created := h.born (by rw [hw]; exact hp)
  have hupdate := totalRank_update rank hborn s.worker phase'
  rw [hw] at hupdate
  exact hupdate

theorem share_signal {worker worker' : Nat → WorkerPhase} (h : SignalRead worker worker') (w : Nat) :
    (worker' w).share = (worker w).share := by
  rcases h with ⟨v, hv, rfl⟩ | ⟨-, rfl⟩
  · rw [Function.update_apply]
    split
    · next hwv =>
      rw [hwv, hv]
      rfl
    · rfl
  · rfl

theorem share_broadcast (worker : Nat → WorkerPhase) (w : Nat) : (broadcastRead worker w).share = (worker w).share := by
  rw [broadcastRead]
  split
  · next hw =>
    rw [hw]
    rfl
  · rfl

end Totals

section Phases
variable {s s' : Coroutines} {e : HandoffEvent} {w : Nat}

private theorem of_update {worker : Nat → WorkerPhase} {v : Nat} {phase phase' : WorkerPhase}
    (h : Function.update worker v phase' w = phase) (hne : phase' ≠ phase) : worker w = phase := by
  rw [Function.update_apply] at h
  split at h
  · exact absurd h hne
  · exact h

private theorem of_signal {worker worker' : Nat → WorkerPhase} (hs : SignalRead worker worker') {phase : WorkerPhase}
    (h : worker' w = phase) (hne : WorkerPhase.signalled ≠ phase) : worker w = phase := by
  rcases hs with ⟨v, -, rfl⟩ | ⟨-, rfl⟩
  · exact of_update h hne
  · exact h

private theorem of_broadcast {worker : Nat → WorkerPhase} {phase : WorkerPhase} (h : broadcastRead worker w = phase)
    (hne : WorkerPhase.signalled ≠ phase) : worker w = phase := by
  rw [broadcastRead] at h
  split at h
  · exact absurd h hne
  · exact h

/-- A listener that has returned does nothing more. -/
theorem handoffStep_closed (hs : HandoffStep s e s') (h : s.listener = .closed) : s'.listener = .closed := by
  cases hs with
  | startLate | start | expireWorker | exit | serve | abandon => exact h
  | read | readNull =>
    change signalWrite s.listener = .closed
    rw [h]
    rfl
  | accept phase | refuse phase | expire phase | reset phase | leave phase | create phase | again phase
  | close phase => exact ListenerPhase.noConfusion (h.symm.trans phase)

/-- What is left of the condition is waited for only by a worker that starts behind the listener's return. -/
theorem handoffStep_dangling (hs : HandoffStep s e s') (h : s'.worker w = .dangling) :
    s.worker w = .dangling ∨ s.worker w = .created ∧ s.listener = .closed := by
  cases hs with
  | accept _ signal | again _ signal => exact .inl (of_signal signal h (by simp))
  | refuse => exact .inl (of_broadcast h (by simp))
  | expire | reset | leave | close => exact .inl h
  | @startLate v phase gone =>
    by_cases hw : w = v
    · rw [hw]
      exact .inr ⟨phase, gone⟩
    · exact .inl ((Function.update_of_ne hw _ _).symm.trans h)
  | create | start | expireWorker | exit | read | readNull | serve | abandon => exact .inl (of_update h (by simp))

/-- Only the listener creates a worker, when it has a socket that nobody takes. -/
theorem handoffStep_created (hs : HandoffStep s e s') (h : s'.worker w = .created) :
    s.worker w = .created ∨ s.listener = .timedOut true := by
  cases hs with
  | accept _ signal | again _ signal => exact .inl (of_signal signal h (by simp))
  | refuse => exact .inl (of_broadcast h (by simp))
  | expire | reset | leave | close => exact .inl h
  | create phase => exact .inr phase
  | startLate | start | expireWorker | exit | read | readNull | serve | abandon => exact .inl (of_update h (by simp))

end Phases

section Counter
variable {s s' : Coroutines} {e : HandoffEvent}

theorem Counted.start : Counted .start := ⟨.start, rfl, by simp [Coroutines.start]⟩

private theorem Counted.starts (h : Counted s) {w : Nat} (hw : s.worker w = .created) {phase : WorkerPhase}
    (hp : phase.share = 1) : s.workers + 1 = (s.move w phase).total WorkerPhase.share := by
  have hmove := h.conserved.total_move WorkerPhase.share hw (by simp) phase
  have hzero : WorkerPhase.share .created = 0 := rfl
  rw [hzero, hp] at hmove
  rw [h.counter]
  exact hmove.symm

private theorem Counted.exits (h : Counted s) {w : Nat} (hw : (s.worker w).running = true) :
    s.workers - 1 = (s.move w .exited).total WorkerPhase.share := by
  have hne : s.worker w ≠ .absent := by
    intro habsent
    rw [habsent] at hw
    cases hw
  have hmove := h.conserved.total_move WorkerPhase.share rfl hne .exited
  have hone : (s.worker w).share = 1 := if_pos hw
  have hzero : WorkerPhase.share .exited = 0 := rfl
  rw [hone, hzero] at hmove
  rw [h.counter]
  omega

private theorem Counted.goes_on (h : Counted s) {w : Nat} {phase phase' : WorkerPhase} (hw : s.worker w = phase)
    (hp : phase.share = 1) (hp' : phase'.share = 1) : s.workers = (s.move w phase').total WorkerPhase.share := by
  have hne : phase ≠ .absent := by
    rintro rfl
    cases hp
  have hmove := h.conserved.total_move WorkerPhase.share hw hne phase'
  rw [hp, hp'] at hmove
  exact h.counter.trans (Nat.add_right_cancel hmove).symm

theorem handoffStep_counted (h : Counted s) (hs : HandoffStep s e s') : Counted s' := by
  refine ⟨handoffStep_conserved h.conserved hs, ?_, fun w hw => ?_⟩
  · have hcounter := h.counter
    cases hs with
    | accept phase signal | again phase signal =>
      exact hcounter.trans (totalRank_congr (fun w _ => (share_signal signal w).symm))
    | refuse phase => exact hcounter.trans (totalRank_congr (fun w _ => (share_broadcast _ w).symm))
    | expire | reset | leave | close => exact hcounter
    | create phase => exact hcounter.trans (totalRank_succ WorkerPhase.share s.worker .created).symm
    | start phase => exact h.starts phase rfl
    | startLate phase => exact h.starts phase rfl
    | expireWorker phase => exact h.goes_on phase rfl rfl
    | read phase message => exact h.goes_on phase rfl rfl
    | serve phase => exact h.goes_on phase rfl rfl
    | exit phase | readNull phase | abandon phase => exact h.exits (by rw [phase]; rfl)
  · rcases handoffStep_dangling hs hw with hdangling | ⟨-, hclosed⟩
    · exact handoffStep_closed hs (h.late w hdangling)
    · exact handoffStep_closed hs hclosed

theorem handoff_counted (hrun : ReflTransGen Handoff .start s) : Counted s :=
  reflTransGen_invariant (fun _ _ h ⟨_, hs⟩ => handoffStep_counted h hs) .start hrun

theorem Counted.none_running (h : Counted s) (hzero : s.workers = 0) (w : Nat) : (s.worker w).running = false := by
  rw [h.counter] at hzero
  by_cases hw : w < s.created
  · have hshare := totalRank_eq_zero.mp hzero w hw
    by_contra hrun
    rw [WorkerPhase.share, if_pos (eq_true_of_ne_false hrun)] at hshare
    cases hshare
  · rw [h.conserved.unborn w (Nat.le_of_not_lt hw)]
    rfl

theorem Counted.some_running (h : Counted s) (hpos : s.workers ≠ 0) : ∃ w, (s.worker w).running = true := by
  by_contra hnone
  apply hpos
  rw [h.counter]
  apply totalRank_eq_zero.mpr
  intro w _
  exact if_neg (fun hrun => hnone ⟨w, hrun⟩)

end Counter

section Ending
variable {s s' : Coroutines} {e : HandoffEvent}

private theorem Closing.running (h : Closing s) {w : Nat} (hw : (s.worker w).running = true)
    (hne : s.worker w ≠ .dangling) : s.listener = .closing := by
  rcases h.ended with hc | ⟨-, hleft⟩
  · exact hc
  · exact absurd (hleft w hw) hne

private theorem Closing.moves (h : Closing s) {w : Nat} {phase : WorkerPhase} (hw : s.worker w = phase)
    (phase' : WorkerPhase) (hp : phase'.stepsLeft < phase.stepsLeft) (workers : Nat) :
    ({ s.move w phase' with workers := workers } : Coroutines).stepsLeft < s.stepsLeft := by
  have hne : phase ≠ .absent := by
    rintro rfl
    exact absurd hp (Nat.not_lt_zero _)
  have hmove := h.counted.conserved.total_move WorkerPhase.stepsLeft hw hne phase'
  have hless : (s.move w phase').total WorkerPhase.stepsLeft < s.total WorkerPhase.stepsLeft := by omega
  exact Nat.add_lt_add_right hless _

/-- The steps that are possible then bring the end nearer. -/
theorem handoffStep_closing (h : Closing s) (hs : HandoffStep s e s') : Closing s' ∧ s'.stepsLeft < s.stepsLeft := by
  have hcounted := handoffStep_counted h.counted hs
  have hlistener : ∀ phase, s.listener = phase → phase = .closing ∨ phase = .closed := by
    rintro phase rfl
    exact h.ended.imp id And.left
  cases hs with
  | accept phase => exact absurd (hlistener _ phase) (by decide)
  | refuse phase => exact absurd (hlistener _ phase) (by decide)
  | expire phase => exact absurd (hlistener _ phase) (by simp)
  | reset phase => exact absurd (hlistener _ phase) (by decide)
  | leave phase => exact absurd (hlistener _ phase) (by decide)
  | create phase => exact absurd (hlistener _ phase) (by decide)
  | again phase => exact absurd (hlistener _ phase) (by decide)
  | close phase exited =>
    refine ⟨⟨hcounted, .inr ⟨rfl, fun w hw => ?_⟩, h.message⟩, ?_⟩
    · exact absurd hw (by simp [h.counted.none_running exited w])
    · rw [Coroutines.stepsLeft, Coroutines.stepsLeft, if_neg (by simp), if_pos phase]
      exact Nat.lt_succ_self _
  | start phase live =>
    have hc : s.listener = .closing := h.ended.resolve_right (fun hclosed => live hclosed.1)
    exact ⟨⟨hcounted, .inl hc, h.message⟩, h.moves phase .waiting (by decide) _⟩
  | @startLate w phase gone =>
    refine ⟨⟨hcounted, .inr ⟨gone, fun v hv => ?_⟩, h.message⟩, h.moves phase .dangling (by decide) _⟩
    by_cases hvw : v = w
    · rw [hvw]
      exact Function.update_self _ _ _
    · have hsame : (s.move w .dangling).worker v = s.worker v := Function.update_of_ne hvw _ _
      have hclosed := h.ended.resolve_left (fun hc => ListenerPhase.noConfusion (hc.symm.trans gone))
      exact hsame.trans (hclosed.2 v (hsame ▸ hv))
  | expireWorker phase =>
    have hc := h.running (by rw [phase]; rfl) (by simp [phase])
    exact ⟨⟨hcounted, .inl hc, h.message⟩, h.moves phase .timedOut (by decide) _⟩
  | exit phase =>
    have hc := h.running (by rw [phase]; rfl) (by simp [phase])
    exact ⟨⟨hcounted, .inl hc, h.message⟩, h.moves phase .exited (by decide) _⟩
  | read phase message =>
    rw [h.message] at message
    cases message
  | readNull phase message =>
    -- the listener does not wait, so the signal is lost
    have hc := h.running (by rw [phase]; rfl) (by simp [phase])
    have hsame : signalWrite s.listener = s.listener := by
      rw [hc]
      rfl
    rw [hsame] at hcounted ⊢
    exact ⟨⟨hcounted, .inl hc, h.message⟩, h.moves phase .exited (by decide) _⟩
  | serve phase =>
    have hc := h.running (by rw [phase]; rfl) (by simp [phase])
    exact ⟨⟨hcounted, .inl hc, h.message⟩, h.moves phase .waiting (Nat.lt_succ_self 2) _⟩
  | abandon phase =>
    have hc := h.running (by rw [phase]; rfl) (by simp [phase])
    exact ⟨⟨hcounted, .inl hc, h.message⟩, h.moves phase .exited (Nat.succ_pos 2) _⟩

/-- While the counter is not zero a worker that it counts goes on, and the listener waits. -/
theorem Closing.drains (h : Closing s) (hc : s.listener = .closing) (hpos : s.workers ≠ 0) :
    ∃ s', Handoff s s' ∧ s'.listener = .closing ∧ ∀ v, s.worker v = .created → s'.worker v = .created := by
  obtain ⟨w, hw⟩ := h.counted.some_running hpos
  have hkeeps : ∀ phase v, s.worker v = .created → (s.move w phase).worker v = .created := by
    intro phase v hv
    refine (Function.update_of_ne ?_ _ _).trans hv
    rintro rfl
    rw [hv] at hw
    cases hw
  have hsignal : signalWrite s.listener = .closing := by
    rw [hc]
    rfl
  cases hphase : s.worker w with
  | absent | created | exited =>
    rw [hphase] at hw
    cases hw
  | waiting => exact ⟨_, ⟨.expireWorker w, .expireWorker hphase⟩, hc, hkeeps _⟩
  | signalled => exact ⟨_, ⟨.resume w, .readNull hphase h.message⟩, hsignal, hkeeps _⟩
  | timedOut => exact ⟨_, ⟨.resume w, .exit hphase⟩, hc, hkeeps _⟩
  | serving socket => exact ⟨_, ⟨.serve w, .serve hphase⟩, hc, hkeeps _⟩
  | dangling =>
    have hclosed := h.counted.late w hphase
    rw [hc] at hclosed
    cases hclosed

private theorem Closing.stopped (h : Closing s) (hstops : ∀ u, ¬ Handoff s u) :
    s.listener = .closed ∧ ∀ w, s.worker w = .absent ∨ s.worker w = .exited ∨ s.worker w = .dangling := by
  have hclosed : s.listener = .closed := by
    by_contra hopen
    have hc : s.listener = .closing := h.ended.resolve_right (fun hclosed => hopen hclosed.1)
    by_cases hzero : s.workers = 0
    · exact hstops _ ⟨.listen, .close hc hzero⟩
    · obtain ⟨u, hu, -⟩ := h.drains hc hzero
      exact hstops u hu
  refine ⟨hclosed, fun w => ?_⟩
  have hopen : s.listener ≠ .closing := by simp [hclosed]
  cases hphase : s.worker w with
  | absent => exact .inl rfl
  | exited => exact .inr (.inl rfl)
  | dangling => exact .inr (.inr rfl)
  | created => exact absurd ⟨.start w, .startLate hphase hclosed⟩ (hstops _)
  | waiting | signalled | timedOut | serving =>
    exact absurd (h.running (by rw [hphase]; rfl) (by simp [hphase])) hopen

private theorem Closing.leaves_late (h : Closing s) (hc : s.listener = .closing) {w : Nat} (hw : s.worker w = .created) :
    ∃ t, ReflTransGen Handoff s t ∧ t.worker w = .dangling := by
  have hprogress : ∀ s, (Closing s ∧ s.listener = .closing ∧ s.worker w = .created) → ¬ s.workers = 0 →
      ∃ t, Handoff s t ∧ (Closing t ∧ t.listener = .closing ∧ t.worker w = .created) ∧ t.stepsLeft < s.stepsLeft := by
    intro s hs hpos
    obtain ⟨t, ⟨e, ht⟩, hlistener, hkeeps⟩ := hs.1.drains hs.2.1 hpos
    obtain ⟨hclosing, hless⟩ := handoffStep_closing hs.1 ht
    exact ⟨t, ⟨e, ht⟩, ⟨hclosing, hlistener, hkeeps w hs.2.2⟩, hless⟩
  obtain ⟨t, hrun, ⟨-, hlistener, hcreated⟩, hzero⟩ := reaches_goal Coroutines.stepsLeft hprogress ⟨h, hc, hw⟩
  have hclose : Handoff t { t with listener := .closed } := ⟨.listen, .close hlistener hzero⟩
  have hstart : Handoff { t with listener := .closed } _ := ⟨.start w, .startLate hcreated rfl⟩
  exact ⟨_, (hrun.tail hclose).tail hstart, Function.update_self _ _ _⟩

private theorem Closing.late_created (h : Closing s) {t : Coroutines} (hrun : ReflTransGen Handoff s t)
    (hnone : ∀ w, s.worker w ≠ .created ∧ s.worker w ≠ .dangling) :
    ∀ w, t.worker w ≠ .created ∧ t.worker w ≠ .dangling := by
  have hstep : ∀ s t, (Closing s ∧ ∀ w, s.worker w ≠ .created ∧ s.worker w ≠ .dangling) → Handoff s t →
      Closing t ∧ ∀ w, t.worker w ≠ .created ∧ t.worker w ≠ .dangling := by
    rintro s t ⟨hclosing, hnone⟩ ⟨e, hs⟩
    refine ⟨(handoffStep_closing hclosing hs).1, fun w => ⟨fun hw => ?_, fun hw => ?_⟩⟩
    · rcases handoffStep_created hs hw with hbefore | htimed
      · exact (hnone w).1 hbefore
      · rcases hclosing.ended with hc | ⟨hc, -⟩
        all_goals
          rw [hc] at htimed
          cases htimed
    · exact (handoffStep_dangling hs hw).elim (hnone w).2 (fun hbefore => (hnone w).1 hbefore.1)
  exact (reflTransGen_invariant hstep ⟨h, hnone⟩ hrun).2

private theorem handoffStep_ends (hs : HandoffStep s e s') (h : s'.listener = .closing ∨ s'.listener = .closed) :
    (s.listener = .closing ∨ s.listener = .closed) ∨ s'.listener = .closing ∧ s'.socket = none := by
  have hsignal : signalWrite s.listener = .closing ∨ signalWrite s.listener = .closed →
      s.listener = .closing ∨ s.listener = .closed := by
    cases s.listener with
    | waiting first => simp [signalWrite]
    | _ => exact id
  cases hs with
  | accept | expire | reset | leave | create | again => simp at h
  | refuse => exact .inr ⟨rfl, rfl⟩
  | close phase => exact .inl (.inl phase)
  | read => exact .inl (hsignal h)
  | readNull => exact .inl (hsignal h)
  | _ => exact .inl h

theorem handoff_closing (hrun : ReflTransGen Handoff .start s) (h : s.listener = .closing ∨ s.listener = .closed) :
    Closing s := by
  induction hrun with
  | refl => simp [Coroutines.start] at h
  | tail hrun hlast ih =>
    obtain ⟨e, hs⟩ := hlast
    rcases handoffStep_ends hs h with hbefore | ⟨hc, hnone⟩
    · exact (handoffStep_closing (ih hbefore) hs).1
    · exact ⟨handoffStep_counted (handoff_counted hrun) hs, .inl hc, hnone⟩

theorem stepsLeft_le (phase : WorkerPhase) : phase.stepsLeft ≤ 3 := by
  cases phase <;> simp [WorkerPhase.stepsLeft]

end Ending

/-- The counter of the workers is right in every state. Once the listener accepts no more there are at most
three steps for each worker that was ever created, and one for the listener; and a run that stops has stopped
because the listener has returned and no worker is left but those that started behind its return. Some run has
such a worker exactly when one was created and had not started. -/
theorem shutdown_completes {s : Coroutines} (hrun : ReflTransGen Handoff .start s) :
    s.workers = ((Finset.range s.created).filter (fun w => (s.worker w).running)).card ∧
    (s.listener = .closing →
      (∀ n t, RunOf Handoff n s t → n ≤ 3 * s.created + 1) ∧
      (∀ t, ReflTransGen Handoff s t → (∀ u, ¬ Handoff t u) →
        t.listener = .closed ∧ ∀ w, t.worker w = .absent ∨ t.worker w = .exited ∨ t.worker w = .dangling) ∧
      ((∃ t, ReflTransGen Handoff s t ∧ ∃ w, t.worker w = .dangling) ↔ ∃ w, s.worker w = .created)) := by
  have hcounted := handoff_counted hrun
  refine ⟨?_, fun hc => ?_⟩
  · rw [hcounted.counter, Finset.card_filter]
    rfl
  have hclosing := handoff_closing hrun (.inl hc)
  have hstep : ∀ s t, Closing s → Handoff s t → Closing t ∧ t.stepsLeft < s.stepsLeft :=
    fun _ _ h ⟨_, hs⟩ => handoffStep_closing h hs
  refine ⟨fun n t ht => ?_, fun t ht hstops => ?_, ?_, ?_⟩
  · have hbound := ht.bounded Coroutines.stepsLeft hstep hclosing
    have htotal : s.total WorkerPhase.stepsLeft ≤ 3 * s.created := totalRank_le stepsLeft_le
    rw [Coroutines.stepsLeft, Coroutines.stepsLeft, if_pos hc] at hbound
    omega
  · exact (reflTransGen_invariant (fun s t h hst => (hstep s t h hst).1) hclosing ht).stopped hstops
  · rintro ⟨t, ht, w, hw⟩
    by_contra hnone
    have hlate : ∀ w, s.worker w ≠ .dangling := by
      intro w hw
      have hclosed := hcounted.late w hw
      rw [hc] at hclosed
      cases hclosed
    exact (hclosing.late_created ht (fun w => ⟨fun hw => hnone ⟨w, hw⟩, hlate w⟩) w).2 hw
  · rintro ⟨w, hw⟩
    obtain ⟨t, ht, hdangling⟩ := hclosing.leaves_late hc hw
    exact ⟨t, ht, w, hdangling⟩

/-- The listener closes while a worker serves the second socket and the one created for it has not started. -/
theorem shutdown_completes_serving :
    ∃ s, ReflTransGen Handoff .start s ∧ s.listener = .closing ∧ s.worker 0 = .serving 1 ∧ s.worker 1 = .created ∧
      s.workers = 1 ∧ (∀ n t, RunOf Handoff n s t → n ≤ 7) ∧
      (∀ t, ReflTransGen Handoff s t → (∀ u, ¬ Handoff t u) →
        t.listener = .closed ∧ ∀ w, t.worker w = .absent ∨ t.worker w = .exited ∨ t.worker w = .dangling) ∧
      ∃ t, ReflTransGen Handoff s t ∧ ∃ w, t.worker w = .dangling := by
  have hfirst : ReflTransGen Handoff .start _ :=
    (((((((ReflTransGen.refl.tail
      ⟨.accept, .accept rfl (.inr ⟨fun _ => nofun, rfl⟩)⟩).tail
      ⟨.expire, .expire rfl⟩).tail
      ⟨.listen, .create rfl⟩).tail
      ⟨.start 0, .start rfl nofun⟩).tail
      ⟨.expire, .expire rfl⟩).tail
      ⟨.listen, .again rfl (.inl ⟨0, rfl, rfl⟩)⟩).tail
      ⟨.resume 0, .read rfl rfl⟩).tail
      ⟨.listen, .leave rfl⟩
  have hrun : ReflTransGen Handoff .start _ :=
    (((((hfirst.tail
      ⟨.serve 0, .serve rfl⟩).tail
      ⟨.accept, .accept rfl (.inl ⟨0, rfl, rfl⟩)⟩).tail
      ⟨.expire, .expire rfl⟩).tail
      ⟨.listen, .create rfl⟩).tail
      ⟨.resume 0, .read rfl rfl⟩).tail
      ⟨.listen, .leave rfl⟩
  have hclosing := hrun.tail ⟨.refuse, .refuse rfl⟩
  obtain ⟨hcounter, hends⟩ := shutdown_completes hclosing
  obtain ⟨hbound, hstops, hlate⟩ := hends rfl
  exact ⟨_, hclosing, rfl, rfl, rfl, hcounter, hbound, hstops, hlate.mpr ⟨1, rfl⟩⟩

end CFlare.Threads
