import CFlare.Network.SocketLines
import CFlare.Network.SocketWrites

/-! From the first call on a socket to its deletion: a descriptor stays until it is closed, once, and what
is no longer connected neither receives nor sends. -/
namespace CFlare.Network
open CFlare.Library

/-- Nothing more is sent then; one receive waits for the far side to finish, and its bytes are dropped. -/
def socketDisconnect (s : Socket) : Socket :=
  if s.connected = false then s else (lthreadRecv { s with connected := false } 1024).2.2

/-- All that is done with a socket between its creation and its deletion. -/
inductive SocketUse where
  | read (length : Nat)
  | readLine (length : Nat)
  | requeue (bytes : Bytes)
  | write (bytes : Bytes)
  | writeLine (bytes : Bytes)
  | disconnect
  | close
  deriving DecidableEq, Repr

def socketUse (s : Socket) : SocketUse → Except Fault Socket
  | .read length => (socketRead s length).map Prod.snd
  | .readLine length => (socketReadLine s length).map Prod.snd
  | .requeue bytes => .ok (socketRequeue s bytes)
  | .write bytes => .ok (socketWrite s bytes).2
  | .writeLine bytes => .ok (socketWriteLine s bytes).2
  | .disconnect => .ok (socketDisconnect s)
  | .close => .ok (socketClose s)

/-- What a call leaves of a socket: it keeps its descriptor or has closed it, a connection that is lost stays
lost and has no traffic, a network that takes in everything at once goes on to, and the requeue is in order. -/
structure Lasts (s s' : Socket) : Prop where
  descriptor : s'.fd = s.fd ∨ 0 ≤ s.fd ∧ s'.fd = -1 ∧ s'.connected = false
  lost : s.connected = false → s'.connected = false ∧ s'.peer = s.peer
  unscripted : s.peer.sends = [] → s'.peer.sends = []
  wellFormed : s.WellFormed → s'.WellFormed

/-- A descriptor is closed in the call that takes it from its socket. -/
def closings (s s' : Socket) : List Int := if 0 ≤ s.fd ∧ s'.fd < 0 then [s.fd] else []

def Socket.Attached (s : Socket) : Prop := s.connected = true → 0 ≤ s.fd

section Calls
variable {s s' t : Socket}

theorem Lasts.refl (s : Socket) : Lasts s s := ⟨.inl rfl, fun h => ⟨h, rfl⟩, id, id⟩

theorem Lasts.trans (h : Lasts s s') (h' : Lasts s' t) : Lasts s t := by
  refine ⟨?_, fun hc => ?_, fun hs => h'.unscripted (h.unscripted hs), fun hw => h'.wellFormed (h.wellFormed hw)⟩
  · rcases h'.descriptor with hsame | ⟨hopen, hgone, hlost⟩
    · rcases h.descriptor with hfirst | ⟨hopen, hgone, hlost⟩
      · exact .inl (hsame.trans hfirst)
      · exact .inr ⟨hopen, hsame.trans hgone, (h'.lost hlost).1⟩
    · rcases h.descriptor with hfirst | ⟨-, hclosed, -⟩
      · rw [hfirst] at hopen
        exact .inr ⟨hopen, hgone, hlost⟩
      · rw [hclosed] at hopen
        exact absurd hopen (by decide)
  · obtain ⟨hc', hpeer⟩ := h.lost hc
    obtain ⟨hc'', hpeer'⟩ := h'.lost hc'
    exact ⟨hc'', hpeer'.trans hpeer⟩

/-- A call that keeps the descriptor and does nothing to a lost connection. -/
theorem Lasts.stays (hfd : s'.fd = s.fd) (hlost : s.connected = false → s' = s) (hsends : s'.peer.sends = s.peer.sends)
    (hw : s.WellFormed → s'.WellFormed) : Lasts s s' := by
  refine ⟨.inl hfd, fun hc => ?_, fun hs => hsends.trans hs, hw⟩
  rw [hlost hc]
  exact ⟨hc, rfl⟩

theorem Lasts.attached (h : Lasts s s') (ha : s.Attached) : s'.Attached := by
  intro hc
  have hbefore : s.connected = true := by
    by_contra hnot
    rw [(h.lost (eq_false_of_ne_true hnot)).1] at hc
    cases hc
  rcases h.descriptor with hsame | ⟨-, -, hlost⟩
  · rw [hsame]
    exact ha hbefore
  · rw [hlost] at hc
    cases hc

/-- Fetching bytes from a connection changes neither its descriptor nor what it can send. -/
structure Fetches (s s' : Socket) : Prop where
  fd : s'.fd = s.fd
  sends : s'.peer.sends = s.peer.sends
  wellFormed : s.WellFormed → s'.WellFormed

theorem Fetches.trans (h : Fetches s s') (h' : Fetches s' t) : Fetches s t :=
  ⟨h'.fd.trans h.fd, h'.sends.trans h.sends, fun hw => h'.wellFormed (h.wellFormed hw)⟩

private theorem lthreadRecv_fetches (s : Socket) (length : Nat) : Fetches s (lthreadRecv s length).2.2 := by
  have hsame : (lthreadRecv s length).2.2.fd = s.fd ∧ (lthreadRecv s length).2.2.peer.sends = s.peer.sends := by
    unfold lthreadRecv
    split <;> exact ⟨rfl, rfl⟩
  exact ⟨hsame.1, hsame.2, (lthreadRecv_spec rfl).2.1.mpr⟩

private theorem requeueRead_fetches (s : Socket) (length : Nat) : Fetches s (requeueRead s length).2 := by
  have hsame : (requeueRead s length).2.fd = s.fd ∧ (requeueRead s length).2.peer.sends = s.peer.sends := by
    unfold requeueRead
    split
    · exact ⟨rfl, rfl⟩
    · dsimp only
      generalize (if length < s.requeueLength then length else s.requeueLength) = canRead
      split <;> exact ⟨rfl, rfl⟩
  exact ⟨hsame.1, hsame.2, fun hw => (requeueRead_spec hw rfl).2.2.1⟩

private theorem readFailed_fetches (s : Socket) (count : Int) : Fetches s (readFailed s count) := by
  have hsame : (readFailed s count).fd = s.fd ∧ (readFailed s count).peer.sends = s.peer.sends := by
    unfold readFailed
    split
    · exact ⟨rfl, rfl⟩
    · split <;> exact ⟨rfl, rfl⟩
  exact ⟨hsame.1, hsame.2, (readFailed_spec s count).2.mpr⟩

private theorem Fetches.lasts (h : Fetches s s') (hc : s.connected = true) : Lasts s s' :=
  .stays h.fd (fun hlost => absurd hc (by rw [hlost]; exact Bool.false_ne_true)) h.sends h.wellFormed

private theorem readEnd_fetches {count : Int} {bytes : Bytes} {reply : Option Bytes}
    (h : (if count ≤ 0 then (.ok (none, readFailed s count) : Except Fault (Option Bytes × Socket))
      else .ok (some bytes, s)) = .ok (reply, s')) : Fetches s s' := by
  split at h
  · obtain ⟨-, rfl⟩ := Prod.mk.inj (Except.ok.inj h)
    exact readFailed_fetches s count
  · obtain ⟨-, rfl⟩ := Prod.mk.inj (Except.ok.inj h)
    exact ⟨rfl, rfl, id⟩

theorem socketRead_lasts {length : Nat} {reply : Option Bytes} (h : socketRead s length = .ok (reply, s')) :
    Lasts s s' := by
  unfold socketRead at h
  split at h
  · obtain ⟨-, rfl⟩ := Prod.mk.inj (Except.ok.inj h)
    exact .refl s
  next hc =>
  rw [Bool.not_eq_false] at hc
  split at h
  · cases h
  split at h
  · exact (((requeueRead_fetches s length).trans (lthreadRecv_fetches _ _)).trans (readEnd_fetches h)).lasts hc
  · exact ((lthreadRecv_fetches s length).trans (readEnd_fetches h)).lasts hc

private theorem fetchByte_fetches (s : Socket) : Fetches s (fetchByte s).2.2 := by
  unfold fetchByte
  split
  · exact requeueRead_fetches s 1
  · exact lthreadRecv_fetches s 1

private theorem readLineBytes_fetches (room : Nat) (s : Socket) (got : Bytes) :
    Fetches s (readLineBytes room s got).2.2 := by
  induction room generalizing s got with
  | zero => exact ⟨rfl, rfl, id⟩
  | succ room ih =>
    have hfetch := fetchByte_fetches s
    rw [readLineBytes_succ]
    generalize fetchByte s = fetched at hfetch
    obtain ⟨r, bytes, s1⟩ := fetched
    dsimp only at hfetch ⊢
    split
    · exact hfetch.trans (readFailed_fetches s1 r)
    split
    · exact hfetch
    · exact hfetch.trans (ih s1 _)

theorem socketReadLine_lasts {length : Nat} {reply : Bool × Bytes} (h : socketReadLine s length = .ok (reply, s')) :
    Lasts s s' := by
  unfold socketReadLine at h
  split at h
  · cases h
  split at h
  · obtain ⟨-, rfl⟩ := Prod.mk.inj (Except.ok.inj h)
    exact .refl s
  next hc =>
  rw [Bool.not_eq_false] at hc
  obtain ⟨-, rfl⟩ := Prod.mk.inj (Except.ok.inj h)
  exact (readLineBytes_fetches _ s []).lasts hc

theorem socketClose_lasts (s : Socket) : Lasts s (socketClose s) := by
  unfold socketClose
  split
  · exact .refl s
  · next hfd => exact ⟨.inr ⟨Int.not_lt.mp hfd, rfl, rfl⟩, fun _ => ⟨rfl, rfl⟩, id, id⟩

private theorem abandoned_lasts (hc : s.connected = true) (h : s'.fd = s.fd)
    (hsends : s.peer.sends = [] → s'.peer.sends = []) (hw : s.WellFormed → s'.WellFormed) :
    Lasts s { socketClose s' with connected := false } := by
  have hclose := socketClose_lasts s'
  refine ⟨?_, fun hlost => ?_, fun hs => hclose.unscripted (hsends hs), fun h => hclose.wellFormed (hw h)⟩
  · rcases hclose.descriptor with hsame | ⟨hopen, hgone, -⟩
    · exact .inl (hsame.trans h)
    · rw [h] at hopen
      exact .inr ⟨hopen, hgone, rfl⟩
  · rw [hc] at hlost
    cases hlost

theorem writeBytes_lasts (hc : s.connected = true) (bytes : Bytes) : Lasts s (writeBytes s.peer.sends bytes s).2 := by
  cases hscript : s.peer.sends with
  | nil => exact .stays rfl (fun hlost => absurd hc (by rw [hlost]; exact Bool.false_ne_true)) hscript.symm id
  | cons send sends =>
    have hne : s.peer.sends ≠ [] := by
      rw [hscript]
      exact List.cons_ne_nil _ _
    have hend := writeBytes_end (send :: sends) bytes s
    generalize writeBytes (send :: sends) bytes s = out at hend
    cases hend with
    | sent rest =>
      refine ⟨.inl rfl, fun hlost => ?_, fun hs => absurd hs hne, id⟩
      rw [hc] at hlost
      cases hlost
    | failed front rest => exact abandoned_lasts hc rfl (fun hs => absurd hs hne) id

theorem socketWrite_lasts (s : Socket) (bytes : Bytes) : Lasts s (socketWrite s bytes).2 := by
  unfold socketWrite
  split
  · exact .refl s
  · next hc => exact writeBytes_lasts (eq_true_of_ne_false hc) bytes

theorem socketWriteLine_lasts (s : Socket) (bytes : Bytes) : Lasts s (socketWriteLine s bytes).2 := by
  unfold socketWriteLine
  split
  · exact .refl s
  have hline := socketWrite_lasts s bytes
  generalize socketWrite s bytes = out at hline
  obtain ⟨ok, s1⟩ := out
  cases ok with
  | false => exact hline
  | true =>
    have hend := socketWrite_lasts s1 [newline]
    dsimp only
    generalize socketWrite s1 [newline] = out at hend
    obtain ⟨ok, s2⟩ := out
    cases ok with
    | false => exact hline.trans hend
    | true => exact hline.trans hend

theorem socketRequeue_lasts (s : Socket) (bytes : Bytes) : Lasts s (socketRequeue s bytes) :=
  ⟨.inl rfl, fun hc => ⟨hc, rfl⟩, id, fun hw => (socketRequeue_spec hw bytes).2⟩

theorem socketDisconnect_lasts (s : Socket) : Lasts s (socketDisconnect s) := by
  unfold socketDisconnect
  split
  · exact .refl s
  · next hc =>
    have hfetch := lthreadRecv_fetches { s with connected := false } 1024
    exact ⟨.inl hfetch.fd, fun hlost => absurd hlost hc, fun hs => hfetch.sends.trans hs, hfetch.wellFormed⟩

/-- Every use keeps the descriptor or closes it. -/
theorem socketUse_lasts {u : SocketUse} (h : socketUse s u = .ok s') : Lasts s s' := by
  cases u with
  | read length =>
    obtain ⟨⟨reply, s1⟩, hread, rfl⟩ := map_eq_ok.mp h
    exact socketRead_lasts hread
  | readLine length =>
    obtain ⟨⟨reply, s1⟩, hread, rfl⟩ := map_eq_ok.mp h
    exact socketReadLine_lasts hread
  | requeue bytes =>
    cases h
    exact socketRequeue_lasts s bytes
  | write bytes =>
    cases h
    exact socketWrite_lasts s bytes
  | writeLine bytes =>
    cases h
    exact socketWriteLine_lasts s bytes
  | disconnect =>
    cases h
    exact socketDisconnect_lasts s
  | close =>
    cases h
    exact socketClose_lasts s

end Calls

end CFlare.Network
