import Mathlib.Data.List.Nodup
import Mathlib.Logic.Function.Basic
import Mathlib.Logic.Relation

/-! The hand-off of accepted sockets to worker coroutines. A coroutine runs from one wait to the
next in one step; a signal wakes one waiting coroutine, or is lost. -/
namespace CFlare.Threads

/-- The listener accepts, or waits on the write condition, for the first time for a socket or
again in its loop, or has been woken there by a signal or by the timeout. At the end it waits
for the workers to exit and returns. -/
inductive ListenerPhase where
  | accepting
  | waiting (first : Bool)
  | signalled (first : Bool)
  | timedOut (first : Bool)
  | closing
  | closed
  deriving DecidableEq, Repr

/-- A worker is created and starts, waits on the read condition, has been woken there, serves a
socket and waits again, or has exited. One that starts when the condition is gone waits on what is left of it. -/
inductive WorkerPhase where
  | absent
  | created
  | waiting
  | signalled
  | timedOut
  | serving (socket : Nat)
  | exited
  | dangling
  deriving DecidableEq, Repr

/-- The listener's message and the coroutines. Sockets are numbered as they are accepted, and
`taken` lists which worker has read which of them. -/
structure Coroutines where
  socket : Option Nat
  listener : ListenerPhase
  worker : Nat → WorkerPhase
  workers : Nat
  created : Nat
  accepted : Nat
  taken : List (Nat × Nat)

def Coroutines.start : Coroutines := ⟨none, .accepting, fun _ => .absent, 0, 0, 0, []⟩

/-- A signal on the read condition, where only workers wait. -/
def SignalRead (worker worker' : Nat → WorkerPhase) : Prop :=
  (∃ w, worker w = .waiting ∧ worker' = Function.update worker w .signalled) ∨
  ((∀ w, worker w ≠ .waiting) ∧ worker' = worker)

def broadcastRead (worker : Nat → WorkerPhase) : Nat → WorkerPhase := fun w =>
  if worker w = .waiting then .signalled else worker w

/-- A signal on the write condition, where only the listener waits. -/
def signalWrite : ListenerPhase → ListenerPhase
  | .waiting first => .signalled first
  | phase => phase

/-- What happens next: a coroutine runs to its next wait, or a wait of it ends. -/
inductive HandoffEvent where
  | accept
  | refuse
  | expire
  | listen
  | start (w : Nat)
  | expireWorker (w : Nat)
  | resume (w : Nat)
  | serve (w : Nat)
  deriving DecidableEq, Repr

def Coroutines.move (s : Coroutines) (w : Nat) (phase : WorkerPhase) : Coroutines :=
  { s with worker := Function.update s.worker w phase }

inductive HandoffStep : Coroutines → HandoffEvent → Coroutines → Prop where
  /-- The listener stores a socket, signals a worker and waits. -/
  | accept {s : Coroutines} {worker' : Nat → WorkerPhase} (phase : s.listener = .accepting)
      (signal : SignalRead s.worker worker') :
      HandoffStep s .accept { s with
        socket := some s.accepted, accepted := s.accepted + 1, listener := .waiting true, worker := worker' }
  /-- No socket: all waiting workers are woken to exit. -/
  | refuse {s : Coroutines} (phase : s.listener = .accepting) :
      HandoffStep s .refuse { s with
        socket := none, listener := .closing, worker := broadcastRead s.worker }
  | expire {s : Coroutines} {first : Bool} (phase : s.listener = .waiting first) :
      HandoffStep s .expire { s with listener := .timedOut first }
  /-- A worker has got the socket in time, so the message is reset. -/
  | reset {s : Coroutines} (phase : s.listener = .signalled true) :
      HandoffStep s .listen { s with socket := none, listener := .accepting }
  /-- A worker has got the socket in the loop. -/
  | leave {s : Coroutines} (phase : s.listener = .signalled false) :
      HandoffStep s .listen { s with listener := .accepting }
  /-- No thread to accept, so a new one is created. -/
  | create {s : Coroutines} (phase : s.listener = .timedOut true) :
      HandoffStep s .listen { s with
        listener := .waiting false, worker := Function.update s.worker s.created .created,
        created := s.created + 1 }
  /-- The loop signals again. -/
  | again {s : Coroutines} {worker' : Nat → WorkerPhase} (phase : s.listener = .timedOut false)
      (signal : SignalRead s.worker worker') :
      HandoffStep s .listen { s with listener := .waiting false, worker := worker' }
  | close {s : Coroutines} (phase : s.listener = .closing) (exited : s.workers = 0) :
      HandoffStep s .listen { s with listener := .closed }
  | start {s : Coroutines} {w : Nat} (phase : s.worker w = .created) (live : s.listener ≠ .closed) :
      HandoffStep s (.start w) { s.move w .waiting with workers := s.workers + 1 }
  /-- The listener has freed the conditions and returned. -/
  | startLate {s : Coroutines} {w : Nat} (phase : s.worker w = .created) (gone : s.listener = .closed) :
      HandoffStep s (.start w) { s.move w .dangling with workers := s.workers + 1 }
  | expireWorker {s : Coroutines} {w : Nat} (phase : s.worker w = .waiting) :
      HandoffStep s (.expireWorker w) (s.move w .timedOut)
  | exit {s : Coroutines} {w : Nat} (phase : s.worker w = .timedOut) :
      HandoffStep s (.resume w) { s.move w .exited with workers := s.workers - 1 }
  /-- A worker that was signalled reads the message and signals the listener. -/
  | read {s : Coroutines} {w socket : Nat} (phase : s.worker w = .signalled)
      (message : s.socket = some socket) :
      HandoffStep s (.resume w) { s.move w (.serving socket) with
        listener := signalWrite s.listener, taken := s.taken ++ [(w, socket)] }
  | readNull {s : Coroutines} {w : Nat} (phase : s.worker w = .signalled) (message : s.socket = none) :
      HandoffStep s (.resume w) { s.move w .exited with
        listener := signalWrite s.listener, workers := s.workers - 1 }
  /-- The socket is processed, closed and deleted. -/
  | serve {s : Coroutines} {w socket : Nat} (phase : s.worker w = .serving socket) :
      HandoffStep s (.serve w) (s.move w .waiting)
  /-- The socket is broken. -/
  | abandon {s : Coroutines} {w socket : Nat} (phase : s.worker w = .serving socket) :
      HandoffStep s (.serve w) { s.move w .exited with workers := s.workers - 1 }

def Handoff (s s' : Coroutines) : Prop := ∃ e, HandoffStep s e s'

/-- No accepted socket was read twice. -/
def Coroutines.TakenOnce (s : Coroutines) : Prop := (s.taken.map Prod.snd).Nodup

/-- What keeps the hand-off safe: a worker that was signalled reads a socket only while the
listener still waits for it to do so. -/
def Coroutines.Punctual (s : Coroutines) : HandoffEvent → Prop
  | .resume w => s.worker w = .signalled → s.socket ≠ none → ∃ first, s.listener = .waiting first
  | _ => True

def PunctualHandoff (s s' : Coroutines) : Prop := ∃ e, s.Punctual e ∧ HandoffStep s e s'

/-- The listener has stored a socket and has not heard of a worker. -/
def ListenerPhase.Offering (phase : ListenerPhase) : Prop :=
  ∃ first, phase = .waiting first ∨ phase = .timedOut first

/-- Sockets are numbered below the count; one that no worker has read is still offered. -/
structure Conserved (s : Coroutines) : Prop where
  message : ∀ k, s.socket = some k → k < s.accepted
  read : ∀ k ∈ s.taken.map Prod.snd, k < s.accepted
  kept : ∀ k < s.accepted, k ∈ s.taken.map Prod.snd ∨ (s.socket = some k ∧ s.listener.Offering)
  offered : s.listener.Offering → s.socket ≠ none
  unborn : ∀ w, s.created ≤ w → s.worker w = .absent

section Steps
variable {s s' : Coroutines} {e : HandoffEvent}

theorem Conserved.start : Conserved .start := by
  refine ⟨nofun, nofun, nofun, ?_, fun _ _ => rfl⟩
  rintro ⟨first, h | h⟩ <;> cases h

private theorem absent_signal {worker worker' : Nat → WorkerPhase} (h : SignalRead worker worker') {w : Nat}
    (hw : worker w = .absent) : worker' w = .absent := by
  rcases h with ⟨v, hv, rfl⟩ | ⟨-, rfl⟩
  · rw [Function.update_apply]
    split
    · next hwv =>
      rw [← hwv, hw] at hv
      cases hv
    · exact hw
  · exact hw

private theorem absent_update {worker : Nat → WorkerPhase} {v w : Nat} {phase : WorkerPhase}
    (hv : worker v ≠ .absent) (hw : worker w = .absent) : Function.update worker v phase w = .absent := by
  rw [Function.update_of_ne, hw]
  rintro rfl
  exact hv hw

private theorem offering_signalWrite {phase : ListenerPhase} (h : (signalWrite phase).Offering) :
    ∃ first, phase = .timedOut first := by
  obtain ⟨first, h | h⟩ := h
  all_goals
    cases phase with
    | timedOut first => exact ⟨first, rfl⟩
    | _ => cases h

private theorem Conserved.workers (h : Conserved s) {worker' : Nat → WorkerPhase} (n : Nat)
    (hu : ∀ w, s.worker w = .absent → worker' w = .absent) :
    Conserved { s with worker := worker', workers := n } :=
  ⟨h.message, h.read, h.kept, h.offered, fun w hw => hu w (h.unborn w hw)⟩

private theorem Conserved.heard (h : Conserved s) (hn : ¬ s.listener.Offering) {socket : Option Nat}
    (hs : ∀ k, socket = some k → k < s.accepted) {phase : ListenerPhase} (hp : ¬ phase.Offering)
    {worker' : Nat → WorkerPhase} (hu : ∀ w, s.worker w = .absent → worker' w = .absent) :
    Conserved { s with socket := socket, listener := phase, worker := worker' } := by
  refine ⟨hs, h.read, fun k hk => .inl ?_, fun ho => absurd ho hp, fun w hw => hu w (h.unborn w hw)⟩
  rcases h.kept k hk with hr | ⟨-, ho⟩
  · exact hr
  · exact absurd ho hn

private theorem not_offering {phase phase' : ListenerPhase} (h : phase = phase')
    (hp : ∀ first, phase' ≠ .waiting first ∧ phase' ≠ .timedOut first) : ¬ phase.Offering := by
  rintro ⟨first, he | he⟩
  · exact (hp first).1 (h.symm.trans he)
  · exact (hp first).2 (h.symm.trans he)

/-- Nothing that happens loses a socket. -/
theorem handoffStep_conserved (h : Conserved s) (hs : HandoffStep s e s') : Conserved s' := by
  cases hs with
  | accept phase signal =>
    have hn : ¬ s.listener.Offering := not_offering phase (by simp)
    refine ⟨?_, fun k hk => Nat.lt_succ_of_lt (h.read k hk), fun k hk => ?_, fun _ => Option.some_ne_none _,
      fun w hw => absent_signal signal (h.unborn w hw)⟩
    · intro k hk
      rw [← Option.some.inj hk]
      exact Nat.lt_succ_self _
    · rcases Nat.lt_succ_iff_lt_or_eq.mp hk with hlt | rfl
      · rcases h.kept k hlt with hr | ⟨-, ho⟩
        · exact .inl hr
        · exact absurd ho hn
      · exact .inr ⟨rfl, true, .inl rfl⟩
  | refuse phase =>
    refine h.heard (not_offering phase (by simp)) (by simp) (not_offering rfl (by simp)) (fun w hw => ?_)
    rw [broadcastRead, hw]
    exact if_neg nofun
  | @expire first phase =>
    refine ⟨h.message, h.read, fun k hk => ?_, fun _ => h.offered ⟨first, .inl phase⟩, h.unborn⟩
    exact (h.kept k hk).imp id (fun hk => ⟨hk.1, first, .inr rfl⟩)
  | reset phase =>
    exact h.heard (not_offering phase (by simp)) (by simp) (not_offering rfl (by simp)) (fun _ => id)
  | leave phase =>
    exact h.heard (not_offering phase (by simp)) h.message (not_offering rfl (by simp)) (fun _ => id)
  | create phase =>
    refine ⟨h.message, h.read, fun k hk => ?_, fun _ => h.offered ⟨true, .inr phase⟩, fun w hw => ?_⟩
    · exact (h.kept k hk).imp id (fun hk => ⟨hk.1, false, .inl rfl⟩)
    · change Function.update s.worker s.created .created w = .absent
      rw [Function.update_of_ne (Nat.ne_of_gt hw), h.unborn w (Nat.le_of_succ_le hw)]
  | again phase signal =>
    refine ⟨h.message, h.read, fun k hk => ?_, fun _ => h.offered ⟨false, .inr phase⟩,
      fun w hw => absent_signal signal (h.unborn w hw)⟩
    exact (h.kept k hk).imp id (fun hk => ⟨hk.1, false, .inl rfl⟩)
  | close phase =>
    exact h.heard (not_offering phase (by simp)) h.message (not_offering rfl (by simp)) (fun _ => id)
  | start phase | startLate phase => exact h.workers _ (fun _ => absent_update (by simp [phase]))
  | expireWorker phase => exact h.workers _ (fun _ => absent_update (by simp [phase]))
  | exit phase => exact h.workers _ (fun _ => absent_update (by simp [phase]))
  | @read w socket phase message =>
    refine ⟨h.message, ?_, fun k hk => .inl ?_, fun _ => ?_,
      fun v hv => absent_update (by simp [phase]) (h.unborn v hv)⟩
    · intro k hk
      change k ∈ (s.taken ++ [(w, socket)]).map Prod.snd at hk
      rw [List.map_append, List.mem_append] at hk
      rcases hk with hk | hk
      · exact h.read k hk
      · obtain rfl := List.mem_singleton.mp hk
        exact h.message _ message
    · change k ∈ (s.taken ++ [(w, socket)]).map Prod.snd
      rw [List.map_append, List.mem_append]
      rcases h.kept k hk with hr | ⟨hk, -⟩
      · exact .inl hr
      · rw [message] at hk
        exact .inr (List.mem_singleton.mpr (Option.some.inj hk).symm)
    · change s.socket ≠ none
      rw [message]
      exact Option.some_ne_none _
  | @readNull w phase message =>
    -- the listener does not wait with a null message, so the signal is lost
    have hn : ¬ s.listener.Offering := fun ho => h.offered ho message
    have hn' : ¬ (signalWrite s.listener).Offering := by
      intro ho
      obtain ⟨first, hp⟩ := offering_signalWrite ho
      exact hn ⟨first, .inr hp⟩
    exact (h.heard hn h.message hn' (fun _ hw => hw)).workers _ (fun _ => absent_update (by simp [phase]))
  | serve phase => exact h.workers _ (fun _ => absent_update (by simp [phase]))
  | abandon phase => exact h.workers _ (fun _ => absent_update (by simp [phase]))

/-- No socket was read twice, and the one that is offered has not been read. -/
structure Fresh (s : Coroutines) : Prop where
  once : s.TakenOnce
  unread : s.listener.Offering → ∀ k, s.socket = some k → k ∉ s.taken.map Prod.snd

theorem Fresh.start : Fresh .start := ⟨List.nodup_nil, fun _ _ h => nomatch h⟩

private theorem Fresh.heard (h : Fresh s) {socket : Option Nat} {phase : ListenerPhase}
    (hp : ¬ phase.Offering) (worker' : Nat → WorkerPhase) :
    Fresh { s with socket := socket, listener := phase, worker := worker' } :=
  ⟨h.once, fun ho => absurd ho hp⟩

/-- A punctual step reads no socket twice. -/
theorem handoffStep_fresh (hc : Conserved s) (h : Fresh s) (hp : s.Punctual e) (hs : HandoffStep s e s') :
    Fresh s' := by
  cases hs with
  | accept phase signal =>
    refine ⟨h.once, fun _ k hk hmem => ?_⟩
    rw [← Option.some.inj hk] at hmem
    exact Nat.lt_irrefl _ (hc.read _ hmem)
  | refuse phase => exact h.heard (not_offering rfl (by simp)) _
  | @expire first phase => exact ⟨h.once, fun _ => h.unread ⟨first, .inl phase⟩⟩
  | reset phase => exact h.heard (not_offering rfl (by simp)) _
  | leave phase => exact h.heard (not_offering rfl (by simp)) _
  | create phase => exact ⟨h.once, fun _ => h.unread ⟨true, .inr phase⟩⟩
  | again phase signal => exact ⟨h.once, fun _ => h.unread ⟨false, .inr phase⟩⟩
  | close phase => exact h.heard (not_offering rfl (by simp)) _
  | start | startLate => exact ⟨h.once, h.unread⟩
  | expireWorker phase => exact ⟨h.once, h.unread⟩
  | exit phase => exact ⟨h.once, h.unread⟩
  | @read w socket phase message =>
    have hsome : s.socket ≠ none := by
      rw [message]
      exact Option.some_ne_none _
    obtain ⟨first, hw⟩ := hp phase hsome
    have hnew := h.unread ⟨first, .inl hw⟩ socket message
    have hphase : signalWrite s.listener = .signalled first := by
      rw [hw]
      rfl
    refine ⟨?_, fun ho => absurd ho (not_offering hphase (by simp))⟩
    change ((s.taken ++ [(w, socket)]).map Prod.snd).Nodup
    rw [List.map_append, List.nodup_append]
    refine ⟨h.once, List.nodup_singleton _, fun k hk l hl => ?_⟩
    obtain rfl := List.mem_singleton.mp hl
    rintro rfl
    exact hnew hk
  | readNull phase message =>
    refine ⟨h.once, fun _ k hk => ?_⟩
    rw [show s.socket = some k from hk] at message
    cases message
  | serve phase => exact ⟨h.once, h.unread⟩
  | abandon phase => exact ⟨h.once, h.unread⟩

theorem handoff_conserved (hrun : Relation.ReflTransGen Handoff .start s) : Conserved s := by
  induction hrun with
  | refl => exact .start
  | tail _ hstep ih =>
    obtain ⟨e, hs⟩ := hstep
    exact handoffStep_conserved ih hs

theorem punctual_fresh (hrun : Relation.ReflTransGen PunctualHandoff .start s) : Conserved s ∧ Fresh s := by
  induction hrun with
  | refl => exact ⟨.start, .start⟩
  | tail _ hstep ih =>
    obtain ⟨e, hp, hs⟩ := hstep
    exact ⟨handoffStep_conserved ih.1 hs, handoffStep_fresh ih.1 ih.2 hp hs⟩

private theorem loop_hands_over {w k : Nat} (hl : s.listener = .timedOut false) (hw : s.worker w = .waiting)
    (hk : s.socket = some k) :
    ∃ s', Relation.ReflTransGen Handoff s s' ∧ s'.taken = s.taken ++ [(w, k)] := by
  have hsignal : Handoff s { s with
      listener := .waiting false, worker := Function.update s.worker w .signalled } :=
    ⟨.listen, .again hl (.inl ⟨w, hw, rfl⟩)⟩
  exact ⟨_, .tail (.single hsignal) ⟨.resume w, .read (Function.update_self _ _ _) hk⟩, rfl⟩

private theorem hands_over_again {first : Bool} {w k : Nat} (hl : s.listener = .timedOut first)
    (hw : s.worker w = .serving k) (hk : s.socket = some k) (hne : w ≠ s.created) :
    ∃ s', Relation.ReflTransGen Handoff s s' ∧ s'.taken = s.taken ++ [(w, k)] := by
  have hserve : Handoff s (s.move w .waiting) := ⟨.serve w, .serve hw⟩
  cases first with
  | false =>
    obtain ⟨s', hrun, ht⟩ := loop_hands_over (s := s.move w .waiting) hl (Function.update_self _ _ _) hk
    exact ⟨s', .head hserve hrun, ht⟩
  | true =>
    have hcreate : Handoff (s.move w .waiting) { s.move w .waiting with
        listener := .waiting false
        worker := Function.update (s.move w .waiting).worker s.created .created
        created := s.created + 1 } := ⟨.listen, .create hl⟩
    have hexpire : Handoff _ _ := ⟨.expire, .expire (s := { s.move w .waiting with
        listener := .waiting false
        worker := Function.update (s.move w .waiting).worker s.created .created
        created := s.created + 1 }) rfl⟩
    have hw' : Function.update (s.move w .waiting).worker s.created .created w = .waiting := by
      rw [Function.update_of_ne hne]
      exact Function.update_self _ _ _
    obtain ⟨s', hrun, ht⟩ := loop_hands_over (s := { s.move w .waiting with
        listener := .timedOut false
        worker := Function.update (s.move w .waiting).worker s.created .created
        created := s.created + 1 }) rfl hw' hk
    exact ⟨s', .head hserve (.head hcreate (.head hexpire hrun)), ht⟩

private theorem unpunctual_reads_twice (hc : Conserved s) (hs : HandoffStep s e s') (hp : ¬ s.Punctual e) :
    ∃ s'', Relation.ReflTransGen Handoff s' s'' ∧ ¬ s''.TakenOnce := by
  cases hs with
  | @read w k phase message =>
    have hnot : ¬ ∃ first, s.listener = .waiting first := fun hw => hp (fun _ _ => hw)
    rcases hc.kept k (hc.message k message) with hread | ⟨-, first, hw | ht⟩
    · refine ⟨_, .refl, fun hnodup => ?_⟩
      change ((s.taken ++ [(w, k)]).map Prod.snd).Nodup at hnodup
      rw [List.map_append, List.nodup_append] at hnodup
      exact hnodup.2.2 k hread k (List.mem_singleton.mpr rfl) rfl
    · exact absurd ⟨first, hw⟩ hnot
    · have hne : w ≠ s.created := by
        rintro rfl
        rw [hc.unborn _ (Nat.le_refl _)] at phase
        cases phase
      have hlost : signalWrite s.listener = .timedOut first := by
        rw [ht]
        rfl
      obtain ⟨s'', hrun, htaken⟩ := hands_over_again hlost
        (s := { s.move w (.serving k) with listener := signalWrite s.listener, taken := s.taken ++ [(w, k)] })
        (Function.update_self _ _ _) message hne
      refine ⟨s'', hrun, fun hnodup => ?_⟩
      rw [Coroutines.TakenOnce, htaken, List.append_assoc, List.map_append, List.nodup_append] at hnodup
      exact absurd hnodup.2.1 (by simp)
  | exit phase =>
    refine absurd (fun hsig => ?_) hp
    rw [phase] at hsig
    cases hsig
  | readNull phase message => exact absurd (fun _ hn => absurd message hn) hp
  | _ => exact absurd trivial hp

/-- No accepted socket is lost before a worker has read it. In a punctual run none is read
twice either, and after the first step that is not punctual one can be. -/
theorem socket_handed_over (hrun : Relation.ReflTransGen Handoff .start s) :
    (∀ k < s.accepted, k ∈ s.taken.map Prod.snd ∨ s.socket = some k) ∧
    (Relation.ReflTransGen PunctualHandoff .start s →
      s.TakenOnce ∧ ∀ e s', HandoffStep s e s' → ¬ s.Punctual e →
        ∃ s'', Relation.ReflTransGen Handoff s' s'' ∧ ¬ s''.TakenOnce) := by
  have hc := handoff_conserved hrun
  refine ⟨fun k hk => (hc.kept k hk).imp id And.left, fun hpunctual => ?_⟩
  obtain ⟨-, hf⟩ := punctual_fresh hpunctual
  refine ⟨hf.once, ?_⟩
  intro e s' hs hp
  exact unpunctual_reads_twice hc hs hp

end Steps

/-- The first socket goes to the worker that is created for it. -/
theorem socket_handed_over_first :
    ∃ s, Relation.ReflTransGen Handoff .start s ∧ s.taken = [(0, 0)] ∧ s.TakenOnce := by
  have hrun : Relation.ReflTransGen PunctualHandoff .start _ :=
    (((((((Relation.ReflTransGen.refl.tail
      ⟨.accept, trivial, .accept rfl (.inr ⟨fun _ => nofun, rfl⟩)⟩).tail
      ⟨.expire, trivial, .expire rfl⟩).tail
      ⟨.listen, trivial, .create rfl⟩).tail
      ⟨.start 0, trivial, .start rfl nofun⟩).tail
      ⟨.expire, trivial, .expire rfl⟩).tail
      ⟨.listen, trivial, .again rfl (.inl ⟨0, rfl, rfl⟩)⟩).tail
      ⟨.resume 0, fun _ _ => ⟨false, rfl⟩, .read rfl rfl⟩)
  have hall : Relation.ReflTransGen Handoff .start _ :=
    Relation.ReflTransGen.mono (fun _ _ ⟨e, _, hs⟩ => ⟨e, hs⟩) _ _ hrun
  exact ⟨_, hall, rfl, ((socket_handed_over hall).2 hrun).1⟩

/-- The second socket is read by the worker that was woken for it and by the one that the
listener creates when it times out. -/
theorem two_workers_read_one_socket :
    ∃ s, Relation.ReflTransGen Handoff .start s ∧
      ∃ w w' k, w ≠ w' ∧ (w, k) ∈ s.taken ∧ (w', k) ∈ s.taken := by
  have hfirst : Relation.ReflTransGen Handoff .start _ :=
    (((((((Relation.ReflTransGen.refl.tail
      ⟨.accept, .accept rfl (.inr ⟨fun _ => nofun, rfl⟩)⟩).tail
      ⟨.expire, .expire rfl⟩).tail
      ⟨.listen, .create rfl⟩).tail
      ⟨.start 0, .start rfl nofun⟩).tail
      ⟨.expire, .expire rfl⟩).tail
      ⟨.listen, .again rfl (.inl ⟨0, rfl, rfl⟩)⟩).tail
      ⟨.resume 0, .read rfl rfl⟩)
  have hsecond : Relation.ReflTransGen Handoff .start _ :=
    (((((((((hfirst.tail
      ⟨.listen, .leave rfl⟩).tail
      ⟨.serve 0, .serve rfl⟩).tail
      ⟨.accept, .accept rfl (.inl ⟨0, rfl, rfl⟩)⟩).tail
      ⟨.expire, .expire rfl⟩).tail
      ⟨.listen, .create rfl⟩).tail
      ⟨.start 1, .start rfl nofun⟩).tail
      ⟨.expire, .expire rfl⟩).tail
      ⟨.listen, .again rfl (.inl ⟨1, rfl, rfl⟩)⟩).tail
      ⟨.resume 0, .read rfl rfl⟩).tail
      ⟨.resume 1, .read rfl rfl⟩
  have hmem : ∀ w < 2, (w, 1) ∈ [(0, 0), (0, 1), (1, 1)] := by decide
  exact ⟨_, hsecond, 0, 1, 1, Nat.zero_ne_one, hmem 0 (by decide), hmem 1 (by decide)⟩

end CFlare.Threads
