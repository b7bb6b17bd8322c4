import CFlare.Library.Runs
import CFlare.Network.Socket

/-! Conservation of the socket's byte stream. Pending bytes are the requeued ones followed
by those still in the network; reading takes a front part off, requeueing puts one on. -/
namespace CFlare.Network
open CFlare.Library

def Socket.queued (s : Socket) : Bytes :=
  match s.requeue with
  | none => []
  | some position => ((s.requeueBuffer.getD []).drop position).take s.requeueLength

def Socket.pending (s : Socket) : Bytes := s.queued ++ s.peer.incoming

/-- The requeue position and count stay inside the owned block, and end where it ends. -/
def Socket.WellFormed (s : Socket) : Prop :=
  match s.requeue with
  | none => s.requeueLength = 0
  | some position => position + s.requeueLength = (s.requeueBuffer.getD []).length

theorem socketNew_wellFormed (fd : Int) (ip : Bytes) (port : UInt16) (peer : Peer) :
    (socketNew fd ip port peer).WellFormed := rfl

@[simp] theorem socketNew_pending (fd : Int) (ip : Bytes) (port : UInt16) (peer : Peer) :
    (socketNew fd ip port peer).pending = peer.incoming := rfl

theorem queued_length {s : Socket} (h : s.WellFormed) : s.queued.length = s.requeueLength := by
  unfold Socket.WellFormed at h
  unfold Socket.queued
  cases hq : s.requeue with
  | none => simp [hq] at h; simp [h]
  | some position =>
    simp only [hq] at h
    simp only [List.length_take, List.length_drop]
    omega

theorem requeueRead_spec {s s' : Socket} {length : Nat} {bytes : Bytes} (h : s.WellFormed)
    (he : requeueRead s length = (bytes, s')) :
    bytes = s.queued.take length ∧ s'.queued = s.queued.drop length ∧ s'.WellFormed ∧
      s'.peer = s.peer ∧ s'.connected = s.connected := by
  have hlen := queued_length h
  cases hq : s.requeue with
  | none =>
    have hn : s.queued = [] := by simp [Socket.queued, hq]
    simp only [requeueRead, hq, Prod.mk.injEq] at he
    obtain ⟨rfl, rfl⟩ := he
    simp [hn, h]
  | some position =>
    have hf : position + s.requeueLength = (s.requeueBuffer.getD []).length := by
      simpa [Socket.WellFormed, hq] using h
    have hqe : s.queued = (s.requeueBuffer.getD []).drop position := by
      simp only [Socket.queued, hq]
      exact List.take_of_length_le (by rw [List.length_drop]; omega)
    simp only [requeueRead, hq, ← hqe] at he
    by_cases hlt : length < s.requeueLength
    · rw [if_pos hlt, if_neg (by omega), Prod.mk.injEq] at he
      obtain ⟨rfl, rfl⟩ := he
      refine ⟨rfl, ?_, ?_, rfl, rfl⟩
      · rw [hqe, List.drop_drop]
        simp only [Socket.queued]
        exact List.take_of_length_le (by rw [List.length_drop]; omega)
      · simp only [Socket.WellFormed]
        omega
    · rw [if_neg hlt, if_pos (by omega), Prod.mk.injEq] at he
      obtain ⟨rfl, rfl⟩ := he
      refine ⟨?_, ?_, rfl, rfl, rfl⟩
      · rw [List.take_of_length_le (by omega), List.take_of_length_le (by omega)]
      · rw [List.drop_of_length_le (by omega)]
        rfl

/-- One receive takes bytes off the network exactly when its count is positive. -/
theorem lthreadRecv_spec {s s' : Socket} {length : Nat} {r : Int} {bytes : Bytes}
    (he : lthreadRecv s length = (r, bytes, s')) :
    s'.queued = s.queued ∧ (s'.WellFormed ↔ s.WellFormed) ∧ s'.connected = s.connected ∧
      s.peer.incoming = bytes ++ s'.peer.incoming ∧ bytes.length ≤ length ∧
      (0 < r → r = bytes.length) ∧ (r ≤ 0 → bytes = []) := by
  unfold lthreadRecv at he
  split at he
  · simp only [Prod.mk.injEq] at he
    obtain ⟨rfl, rfl, rfl⟩ := he
    simp
  · simp only [Prod.mk.injEq] at he
    obtain ⟨rfl, rfl, rfl⟩ := he
    exact ⟨rfl, Iff.rfl, rfl, rfl, Nat.zero_le _, fun hr => by omega, fun _ => rfl⟩
  · next count recvs _ =>
    simp only [Prod.mk.injEq] at he
    obtain ⟨rfl, rfl, rfl⟩ := he
    refine ⟨rfl, Iff.rfl, rfl, ?_, ?_, fun _ => rfl, ?_⟩
    · simp only [List.length_take, ← List.drop_eq_drop_min, List.take_append_drop]
    · rw [List.length_take]
      omega
    · intro hz
      exact List.eq_nil_of_length_eq_zero (by omega)

theorem readFailed_spec (s : Socket) (count : Int) :
    (readFailed s count).pending = s.pending ∧ ((readFailed s count).WellFormed ↔ s.WellFormed) := by
  unfold readFailed
  split
  · exact ⟨rfl, Iff.rfl⟩
  · split <;> exact ⟨rfl, Iff.rfl⟩

/-- A read returns a nonempty front of the pending bytes and removes it, or fails and
removes nothing. It does not fault for a positive length. -/
theorem socketRead_spec {s : Socket} (h : s.WellFormed) {length : Nat} (hl : 0 < length) :
    ∃ reply s', socketRead s length = .ok (reply, s') ∧ s'.WellFormed ∧
      (∀ bytes, reply = some bytes →
        bytes ≠ [] ∧ bytes.length ≤ length ∧ s.pending = bytes ++ s'.pending) ∧
      (reply = none → s'.pending = s.pending) := by
  unfold socketRead
  split
  · exact ⟨none, s, rfl, h, by simp, fun _ => rfl⟩
  rw [if_neg (by omega)]
  have hlen := queued_length h
  split
  · next hq =>
    rcases hread : requeueRead s length with ⟨queued, mid⟩
    obtain ⟨hb, hrest, hw, hp, -⟩ := requeueRead_spec h hread
    rcases hrecv : lthreadRecv mid (length - queued.length) with ⟨r, received, s'⟩
    obtain ⟨hrq, hrw, -, hinc, hle, hpos, hneg⟩ := lthreadRecv_spec hrecv
    have hql : queued.length = min length s.requeueLength := by rw [hb, List.length_take, hlen]
    have hcount : 0 < (if 0 < r then (queued.length : Int) + r else queued.length) := by
      split <;> omega
    simp only [hrecv]
    rw [if_neg (by omega)]
    refine ⟨_, s', rfl, hrw.mpr hw, ?_, by simp⟩
    rintro bytes he
    obtain rfl := Option.some.inj he
    refine ⟨?_, ?_, ?_⟩
    · intro hnil
      have hz := congrArg List.length hnil
      simp only [List.length_append, List.length_nil] at hz
      omega
    · rw [List.length_append]
      omega
    · -- bytes still queued mean a full buffer, so the receive asked for nothing
      have hcross : mid.queued ++ received = received ++ mid.queued := by
        rcases Nat.lt_or_ge length s.requeueLength with hlt | hge
        · have hz : received = [] := List.eq_nil_of_length_eq_zero (by omega)
          simp [hz]
        · have hz : mid.queued = [] := by rw [hrest]; exact List.drop_of_length_le (by omega)
          simp [hz]
      calc s.pending = (queued ++ mid.queued) ++ s.peer.incoming := by
            rw [Socket.pending, hb, hrest, List.take_append_drop]
        _ = queued ++ (mid.queued ++ received) ++ s'.peer.incoming := by
            rw [← hp, hinc]
            simp only [List.append_assoc]
        _ = queued ++ received ++ s'.pending := by
            rw [hcross, Socket.pending, hrq]
            simp only [List.append_assoc]
  · next hq =>
    rcases hrecv : lthreadRecv s length with ⟨r, received, s'⟩
    obtain ⟨hrq, hrw, -, hinc, hle, hpos, hneg⟩ := lthreadRecv_spec hrecv
    have hz : s.queued = [] := List.eq_nil_of_length_eq_zero (by omega)
    have hpend : s.pending = received ++ s'.pending := by
      rw [Socket.pending, Socket.pending, hrq, hz, hinc]
      rfl
    simp only
    split
    · next hr =>
      obtain ⟨hpe, hwf⟩ := readFailed_spec s' r
      refine ⟨none, _, rfl, hwf.mpr (hrw.mpr h), by simp, fun _ => ?_⟩
      rw [hpe, hpend, hneg hr]
      rfl
    · next hr =>
      refine ⟨_, s', rfl, hrw.mpr h, ?_, by simp⟩
      rintro bytes he
      obtain rfl := Option.some.inj he
      refine ⟨?_, hle, hpend⟩
      rintro rfl
      have hr0 := hpos (by omega)
      simp only [List.length_nil] at hr0
      omega

theorem fetch_spec {s s' : Socket} {r : Int} {bytes : Bytes} (h : s.WellFormed)
    (he : (if 0 < s.requeueLength then
        (((requeueRead s 1).1.length : Int), (requeueRead s 1).1, (requeueRead s 1).2)
      else lthreadRecv s 1) = (r, bytes, s')) :
    s.pending = bytes ++ s'.pending ∧ s'.WellFormed ∧ bytes.length ≤ 1 ∧
      (0 < r → r = bytes.length) ∧ (r ≤ 0 → bytes = []) := by
  split at he
  · have hpair : requeueRead s 1 = ((requeueRead s 1).1, (requeueRead s 1).2) := rfl
    obtain ⟨hb, hrest, hw, hp, -⟩ := requeueRead_spec h hpair
    simp only [Prod.mk.injEq] at he
    obtain ⟨rfl, rfl, rfl⟩ := he
    refine ⟨?_, hw, ?_, fun _ => rfl, fun hz => List.eq_nil_of_length_eq_zero (by omega)⟩
    · rw [Socket.pending, Socket.pending, hb, hrest, hp, ← List.append_assoc,
        List.take_append_drop]
    · rw [hb, List.length_take]
      omega
  · next hq =>
    obtain ⟨hrq, hrw, -, hinc, hle, hpos, hneg⟩ := lthreadRecv_spec he
    have hz : s.queued = [] := List.eq_nil_of_length_eq_zero (by rw [queued_length h]; omega)
    refine ⟨?_, hrw.mpr h, hle, hpos, hneg⟩
    rw [Socket.pending, Socket.pending, hrq, hz, hinc]
    rfl

/-- The bytes that a line read scanned are exactly those that left the stream; they hold no
newline but, when one was met, the last. -/
theorem readLineBytes_spec {room : Nat} {s s' : Socket} {got text : Bytes} {gotNewline : Bool}
    (h : s.WellFormed) (he : readLineBytes room s got = (gotNewline, text, s')) :
    ∃ scanned, s.pending = scanned ++ (if gotNewline then [newline] else []) ++ s'.pending ∧
      newline ∉ scanned ∧ text = got ++ scanned ∧ s'.WellFormed := by
  induction room generalizing s got with
  | zero =>
    simp only [readLineBytes, Prod.mk.injEq] at he
    obtain ⟨rfl, rfl, rfl⟩ := he
    exact ⟨[], by simp, by simp, by simp, h⟩
  | succ room ih =>
    rw [readLineBytes] at he
    rcases hf : (if 0 < s.requeueLength then
        (((requeueRead s 1).1.length : Int), (requeueRead s 1).1, (requeueRead s 1).2)
      else lthreadRecv s 1) with ⟨r, bytes, mid⟩
    obtain ⟨hpend, hw, hle, hpos, hneg⟩ := fetch_spec h hf
    simp only [hf] at he
    split at he
    · next hr =>
      obtain ⟨hpe, hwf⟩ := readFailed_spec mid r
      simp only [Prod.mk.injEq] at he
      obtain ⟨rfl, rfl, rfl⟩ := he
      refine ⟨[], ?_, by simp, by simp, hwf.mpr hw⟩
      rw [hpend, hneg hr, hpe]
      rfl
    · next hr =>
      split at he
      · next hnl =>
        simp only [Prod.mk.injEq] at he
        obtain ⟨rfl, rfl, rfl⟩ := he
        exact ⟨[], by simp [hpend, hnl], by simp, by simp, hw⟩
      · next hnl =>
        obtain ⟨scanned, hs, hni, ht, hw'⟩ := ih hw he
        refine ⟨bytes ++ scanned, ?_, ?_, ?_, hw'⟩
        · rw [hpend, hs]
          simp only [List.append_assoc]
        · have h1 : bytes.length = 1 := by have := hpos (by omega); omega
          obtain ⟨b, rfl⟩ := List.length_eq_one_iff.mp h1
          simp only [List.cons_append, List.nil_append, List.mem_cons, not_or]
          exact ⟨fun hb => hnl (by rw [hb]), hni⟩
        · rw [ht, List.append_assoc]

/-- Requeued bytes go in front of everything that was pending, a half consumed older
requeue included. -/
theorem socketRequeue_spec {s : Socket} (h : s.WellFormed) (bytes : Bytes) :
    (socketRequeue s bytes).pending = bytes ++ s.pending ∧ (socketRequeue s bytes).WellFormed := by
  have hlen := queued_length h
  have hold : ((s.requeueBuffer.getD []).drop (s.requeue.getD 0)).take s.requeueLength = s.queued := by
    cases hq : s.requeue with
    | none =>
      have hz : s.requeueLength = 0 := by simpa [Socket.WellFormed, hq] using h
      simp [Socket.queued, hq, hz]
    | some position => simp [Socket.queued, hq]
  constructor
  · rw [Socket.pending, Socket.queued]
    simp only [socketRequeue, hold, Option.getD_some, List.drop_zero]
    rw [List.take_of_length_le (by rw [List.length_append, hlen]), List.append_assoc]
    rfl
  · simp only [Socket.WellFormed, socketRequeue, hold, Option.getD_some, List.length_append, hlen,
      Nat.zero_add]

/-- A call of the reading side of the interface, with the lengths its assertions allow. -/
inductive SocketCall where
  | read (length : Nat) (positive : 0 < length)
  | readLine (length : Nat) (positive : 0 < length)
  | requeue (bytes : Bytes)

inductive SocketReply where
  | read (bytes : Option Bytes)
  | line (gotNewline : Bool) (text : Bytes)
  | requeued
  deriving DecidableEq, Repr

def socketCall (s : Socket) : SocketCall → Except Fault (SocketReply × Socket)
  | .read length _ => (socketRead s length).map (fun out => (.read out.1, out.2))
  | .readLine length _ => (socketReadLine s length).map (fun out => (.line out.1.1 out.1.2, out.2))
  | .requeue bytes => .ok (.requeued, socketRequeue s bytes)

/-- What a call may do to the pending bytes: nothing is lost, duplicated or reordered. -/
inductive Conserves : Bytes → SocketCall → SocketReply → Bytes → Prop where
  | read {length : Nat} {positive : 0 < length} {bytes rest : Bytes}
      (some_bytes : bytes ≠ []) (fits : bytes.length ≤ length) :
      Conserves (bytes ++ rest) (.read length positive) (.read (some bytes)) rest
  | failedRead {length : Nat} {positive : 0 < length} {pending : Bytes} :
      Conserves pending (.read length positive) (.read none) pending
  | line {length : Nat} {positive : 0 < length} {scanned rest : Bytes} (one : newline ∉ scanned) :
      Conserves (scanned ++ [newline] ++ rest) (.readLine length positive)
        (.line true (scanned.filter (· ≠ carriageReturn))) rest
  | partialLine {length : Nat} {positive : 0 < length} {scanned rest : Bytes}
      (none : newline ∉ scanned) :
      Conserves (scanned ++ rest) (.readLine length positive)
        (.line false (scanned.filter (· ≠ carriageReturn))) rest
  | requeue {bytes pending : Bytes} : Conserves pending (.requeue bytes) .requeued (bytes ++ pending)

theorem socketCall_conserves {s : Socket} (h : s.WellFormed) (call : SocketCall) :
    ∃ reply s', socketCall s call = .ok (reply, s') ∧
      Conserves s.pending call reply s'.pending ∧ s'.WellFormed := by
  cases call with
  | read length positive =>
    obtain ⟨reply, s', he, hw, hsome, hnone⟩ := socketRead_spec h positive
    refine ⟨.read reply, s', by simp [socketCall, he, Except.map], ?_, hw⟩
    cases reply with
    | none => rw [hnone rfl]; exact .failedRead
    | some bytes =>
      obtain ⟨hne, hle, hp⟩ := hsome bytes rfl
      rw [hp]
      exact .read hne hle
  | readLine length positive =>
    simp only [socketCall, socketReadLine, if_neg (Nat.pos_iff_ne_zero.mp positive)]
    split
    · have hnone : Conserves ([] ++ s.pending) (.readLine length positive) (.line false []) s.pending :=
        .partialLine List.not_mem_nil
      exact ⟨_, s, rfl, hnone, h⟩
    · rcases he : readLineBytes (length - 1) s [] with ⟨gotNewline, text, s'⟩
      obtain ⟨scanned, hp, hni, ht, hw⟩ := readLineBytes_spec h he
      refine ⟨_, s', rfl, ?_, hw⟩
      rw [hp, ht, List.nil_append]
      cases gotNewline with
      | true => exact .line hni
      | false =>
        simp only [Bool.false_eq_true, if_false, List.append_nil]
        exact .partialLine hni
  | requeue bytes =>
    obtain ⟨hp, hw⟩ := socketRequeue_spec h bytes
    exact ⟨.requeued, _, rfl, by rw [hp]; exact .requeue, hw⟩

/-- On a connected socket every sequence of reads, line reads and requeues, under every
behaviour of the receives, returns and conserves the pending bytes call by call. -/
theorem socket_stream_conserved (fd : Int) (ip : Bytes) (port : UInt16) (peer : Peer)
    (calls : List SocketCall) :
    ∃ replies s', runCalls socketCall (socketNew fd ip port peer) calls = .ok (replies, s') ∧
      Chain Conserves peer.incoming calls replies s'.pending := by
  obtain ⟨replies, s', _, he, hc, hp, -⟩ := runCalls_simulates
    (fun (s : Socket) (pending : Bytes) => s.pending = pending ∧ s.WellFormed)
    (by
      rintro s _ call ⟨rfl, hw⟩
      obtain ⟨reply, s', he, hc, hw'⟩ := socketCall_conserves hw call
      exact ⟨reply, s', _, he, hc, rfl, hw'⟩)
    calls ⟨socketNew_pending fd ip port peer, socketNew_wellFormed fd ip port peer⟩
  exact ⟨replies, s', he, hp ▸ hc⟩

end CFlare.Network
