import CFlare.Network.SocketStream

/-! Writing with the buffer in memory and the results of each send and each wait as the coroutine library returns
them. What the network has accepted is a front part of the buffer, and all of it when the call returns true.
The write of the socket's model is this one with the results as its script. -/
namespace CFlare.Network
open CFlare.Library

/-- The error numbers that a failed send tells apart. -/
inductive Errno where
  | wouldBlock
  | again
  | other
  deriving DecidableEq, Repr

/-- What one `lthread_send` does: accept up to that many bytes, or set `errno` and return `-(code + 1)`. -/
inductive SendResult where
  | accept (count : Nat)
  | fail (code : Nat) (errno : Errno)
  deriving DecidableEq, Repr

/-- Results still to come, of `lthread_send` and of `lthread_wait_write`. -/
structure WriteResults where
  sends : List SendResult
  waits : List Int
  deriving DecidableEq, Repr

/-- A block of memory that a caller hands over; sizes of blocks fit `ptrdiff_t`. -/
structure WriteBuffer where
  memory : Memory
  start : Nat
  length : Nat
  fits : length < 2^63

def WriteBuffer.bytes (b : WriteBuffer) : Bytes := slice b.memory b.start b.length

/-- The block that holds the one byte of a newline. -/
def newlineBuffer : WriteBuffer := ⟨fun _ => newline, 0, 1, Nat.one_lt_two_pow (Nat.succ_ne_zero 62)⟩

/-- The largest `int`. -/
def intMax : Nat := 2147483647

/-- An `int` converted to `size_t`. -/
def sizeOfInt (n : Int) : Nat := (n % (sizeLimit : Int)).toNat

def Socket.accept (s : Socket) (bytes : Bytes) : Socket :=
  { s with peer := { s.peer with outgoing := s.peer.outgoing ++ bytes } }

/-- Returned count, `errno` and the socket after it. After a send that succeeds nobody looks at `errno`. -/
def lthreadSend (m : Memory) (s : Socket) (buffer length : Nat) : SendResult → Int × Errno × Socket
  | .accept count =>
    let accepted := min (min count length) intMax
    (accepted, .other, s.accept (slice m buffer accepted))
  | .fail code errno => (-(min code intMax + 1 : Nat), errno, s)

/-- The loop of a write. None says that it still runs when the results are used up. -/
def writeLoop (m : Memory) :
    List SendResult → List Int → Nat → Nat → Socket → Option (Bool × WriteResults × Socket)
  | [], _, _, _, _ => none
  | result :: sends, waits, buffer, length, s =>
    let (error, errno, s) := lthreadSend m s buffer length result
    -- the comparison takes the signed result as a size
    if sizeOfInt error = length then some (true, ⟨sends, waits⟩, s)
    else if 0 ≤ error then
      writeLoop m sends waits (buffer + error.toNat) (sizeSub length (sizeOfInt error)) s
    else if errno ≠ .wouldBlock ∧ errno ≠ .again then
      some (false, ⟨sends, waits⟩, { socketClose s with connected := false })
    else
      match waits with
      | [] => none
      | wait :: waits =>
        if wait < 0 then some (false, ⟨sends, waits⟩, { socketClose s with connected := false })
        else writeLoop m sends waits buffer length s

def socketWriteFrom (b : WriteBuffer) (results : WriteResults) (s : Socket) : Option (Bool × WriteResults × Socket) :=
  if s.connected = false then some (false, results, s)
  else writeLoop b.memory results.sends results.waits b.start b.length s

def socketWriteLineFrom (b : WriteBuffer) (results : WriteResults) (s : Socket) :
    Option (Bool × WriteResults × Socket) :=
  if s.connected = false then some (false, results, s)
  else do
    let (ok, results, s) ← socketWriteFrom b results s
    if ok = false then some (false, results, s)
    else
      let (ok, results, s) ← socketWriteFrom newlineBuffer results s
      if ok = false then some (false, results, s) else some (s.connected, results, s)

theorem sizeOfInt_natCast {n : Nat} (h : n < sizeLimit) : sizeOfInt n = n := by
  rw [sizeOfInt, ← Int.natCast_emod, Int.toNat_natCast, Nat.mod_eq_of_lt h]

theorem sizeOfInt_neg {code : Nat} (h : code ≤ intMax) : 2^63 ≤ sizeOfInt (-(code + 1 : Nat)) := by
  have hm : code + 1 ≤ 2147483648 := Nat.succ_le_succ h
  have hs : (-(code + 1 : Nat) : Int) % (18446744073709551616 : Int) = 18446744073709551616 - (code + 1 : Nat) := by
    omega
  show 2^63 ≤ ((-(code + 1 : Nat) : Int) % (18446744073709551616 : Int)).toNat
  rw [hs]
  omega

def Socket.scripted (s : Socket) (sends : List Send) : Socket := { s with peer := { s.peer with sends := sends } }

section Accepted

@[simp] theorem Socket.accept_nil (s : Socket) : s.accept [] = s := by
  simp [Socket.accept]

@[simp] theorem Socket.accept_accept (s : Socket) (xs ys : Bytes) : (s.accept xs).accept ys = s.accept (xs ++ ys) := by
  simp [Socket.accept]

/-- A connection that failed is closed and no longer counts as one. -/
theorem abandoned (s : Socket) :
    let s' : Socket := { socketClose s with connected := false }
    s'.fd < 0 ∧ s'.connected = false ∧ s'.peer = s.peer := by
  rw [socketClose]
  by_cases hfd : s.fd < 0
  · rw [if_pos hfd]
    exact ⟨hfd, rfl, rfl⟩
  · rw [if_neg hfd]
    exact ⟨Int.negSucc_lt_zero 0, rfl, rfl⟩

/-- How a write of the socket's model ends: all is accepted, or a front part is and the connection given up. -/
inductive WriteEnd (s : Socket) (bytes : Bytes) : Bool × Socket → Prop where
  | sent (sends : List Send) : WriteEnd s bytes (true, (s.accept bytes).scripted sends)
  | failed {part : Bytes} (front : part <+: bytes) (sends : List Send) :
    WriteEnd s bytes (false, { socketClose ((s.accept part).scripted sends) with connected := false })

theorem WriteEnd.nothing (s : Socket) (bytes : Bytes) (sends : List Send) :
    WriteEnd s bytes (false, { socketClose (s.scripted sends) with connected := false }) := by
  have hfailed : WriteEnd s bytes (false, { socketClose ((s.accept []).scripted sends) with connected := false }) :=
    .failed List.nil_prefix sends
  rwa [Socket.accept_nil] at hfailed

theorem WriteEnd.behind {s : Socket} {xs ys : Bytes} {old : List Send} {out : Bool × Socket}
    (h : WriteEnd ((s.accept xs).scripted old) ys out) : WriteEnd s (xs ++ ys) out := by
  have haccept : ∀ zs sends, (((s.accept xs).scripted old).accept zs).scripted sends =
      (s.accept (xs ++ zs)).scripted sends := by
    intro zs sends
    rw [← Socket.accept_accept]
    rfl
  cases h with
  | sent sends =>
    rw [haccept]
    exact .sent sends
  | failed front sends =>
    rw [haccept]
    exact .failed ((List.prefix_append_right_inj xs).mpr front) sends

theorem writeBytes_end (sends : List Send) (bytes : Bytes) (s : Socket) :
    WriteEnd s bytes (writeBytes sends bytes s) := by
  induction sends generalizing bytes s with
  | nil => exact .sent []
  | cons send sends ih =>
    cases send with
    | accept count =>
      rw [writeBytes]
      dsimp only
      split
      · next hle =>
        rw [List.take_of_length_le hle]
        exact .sent sends
      · have hrest := ih (bytes.drop count) ((s.accept (bytes.take count)).scripted sends)
        have hall := hrest.behind
        rwa [List.take_append_drop] at hall
    | retry writable =>
      cases writable with
      | true => exact ih bytes s
      | false => exact .nothing s bytes sends
    | broken => exact .nothing s bytes sends

/-- The sends that a write makes are the first ones, and it fails only where one of them does. -/
theorem writeBytes_made (sends : List Send) (bytes : Bytes) (s : Socket) :
    ∃ made, sends = made ++ (writeBytes sends bytes s).2.peer.sends ∧
      ((∀ send ∈ made, send.succeeds = true) → (writeBytes sends bytes s).1 = true) := by
  have hgivenUp : ∀ (s : Socket) (send : Send) (rest : List Send), send.succeeds = false → ∃ made, send :: rest = made ++
      ({ socketClose (s.scripted rest) with connected := false } : Socket).peer.sends ∧
        ((∀ x ∈ made, x.succeeds = true) → false = true) := by
    intro s send rest hfails
    refine ⟨[send], by rw [(abandoned (s.scripted rest)).2.2]; rfl, fun h => ?_⟩
    rw [← hfails]
    exact h send List.mem_cons_self
  induction sends generalizing bytes s with
  | nil => exact ⟨[], rfl, fun _ => rfl⟩
  | cons send sends ih =>
    cases send with
    | accept count =>
      rw [writeBytes]
      dsimp only
      split
      · exact ⟨[.accept count], rfl, fun _ => rfl⟩
      · obtain ⟨made, he, hok⟩ := ih (bytes.drop count) ((s.accept (bytes.take count)).scripted sends)
        exact ⟨.accept count :: made, congrArg _ he, fun h => hok (fun x hx => h x (List.mem_cons_of_mem _ hx))⟩
    | retry writable =>
      cases writable with
      | true =>
        obtain ⟨made, he, hok⟩ := ih bytes s
        exact ⟨.retry true :: made, congrArg _ he, fun h => hok (fun x hx => h x (List.mem_cons_of_mem _ hx))⟩
      | false => exact hgivenUp s _ sends rfl
    | broken => exact hgivenUp s _ sends rfl

/-- The sends that were made between two states of a socket, and all of them succeeded. -/
def SendsSucceed (s s' : Socket) : Prop :=
  ∃ made, s.peer.sends = made ++ s'.peer.sends ∧ ∀ send ∈ made, send.succeeds = true

end Accepted

section Loop
variable {m : Memory}

theorem sizeSub_accepted {length accepted : Nat} (hl : length < 2^63) (ha : accepted ≤ length) :
    sizeSub length (sizeOfInt accepted) = length - accepted := by
  have hsize : length < sizeLimit := Nat.lt_trans hl (Nat.pow_lt_pow_right Nat.one_lt_two (by decide))
  rw [sizeOfInt_natCast (Nat.lt_of_le_of_lt ha hsize), sizeSub_of_le ha hsize]

/-- A send that accepts bytes ends the loop when they are the rest of the buffer. -/
theorem writeLoop_accept {length : Nat} (hl : length < 2^63) (count : Nat) (sends : List SendResult)
    (waits : List Int) (buffer : Nat) (s : Socket) :
    writeLoop m (.accept count :: sends) waits buffer length s =
      let accepted := min (min count length) intMax
      if accepted = length then some (true, ⟨sends, waits⟩, s.accept (slice m buffer length))
      else writeLoop m sends waits (buffer + accepted) (length - accepted) (s.accept (slice m buffer accepted)) := by
  have ha : min (min count length) intMax ≤ length := Nat.le_trans (Nat.min_le_left _ _) (Nat.min_le_right _ _)
  have hsize : length < sizeLimit := Nat.lt_trans hl (Nat.pow_lt_pow_right Nat.one_lt_two (by decide))
  rw [writeLoop, lthreadSend]
  dsimp only
  rw [sizeSub_accepted hl ha, sizeOfInt_natCast (Nat.lt_of_le_of_lt ha hsize), Int.toNat_natCast,
    if_pos (Int.natCast_nonneg _)]
  by_cases he : min (min count length) intMax = length
  · rw [if_pos he, if_pos he, he]
  · rw [if_neg he, if_neg he]

/-- A send that fails ends the loop, unless the socket may be waited for. -/
theorem writeLoop_fail {length : Nat} (hl : length < 2^63) (code : Nat) (errno : Errno) (sends : List SendResult)
    (waits : List Int) (buffer : Nat) (s : Socket) :
    writeLoop m (.fail code errno :: sends) waits buffer length s =
      if errno = .other then some (false, ⟨sends, waits⟩, { socketClose s with connected := false })
      else
        match waits with
        | [] => none
        | wait :: waits =>
          if wait < 0 then some (false, ⟨sends, waits⟩, { socketClose s with connected := false })
          else writeLoop m sends waits buffer length s := by
  have hne : sizeOfInt (-(min code intMax + 1 : Nat)) ≠ length :=
    Nat.ne_of_gt (Nat.lt_of_lt_of_le hl (sizeOfInt_neg (Nat.min_le_right _ _)))
  have hneg : ¬ 0 ≤ (-(min code intMax + 1 : Nat) : Int) := by omega
  have herrno : (errno ≠ .wouldBlock ∧ errno ≠ .again) ↔ errno = .other := by
    cases errno <;> simp
  rw [writeLoop, lthreadSend]
  dsimp only
  rw [if_neg hne, if_neg hneg]
  simp only [herrno]

/-- What the network has accepted when the loop ends: the buffer, or a front part of it and the socket is given up. -/
theorem writeLoop_spec {sends : List SendResult} {waits : List Int} {buffer length : Nat} (hl : length < 2^63)
    {s s' : Socket} {ok : Bool} {results : WriteResults}
    (h : writeLoop m sends waits buffer length s = some (ok, results, s')) :
    (ok = true → s' = s.accept (slice m buffer length)) ∧
      (ok = false → ∃ sent ≤ length,
        s' = { socketClose (s.accept (slice m buffer sent)) with connected := false }) := by
  induction sends generalizing waits buffer length s with
  | nil => cases h
  | cons result sends ih =>
    cases result with
    | accept count =>
      rw [writeLoop_accept hl] at h
      dsimp only at h
      have ha : min (min count length) intMax ≤ length := Nat.le_trans (Nat.min_le_left _ _) (Nat.min_le_right _ _)
      generalize min (min count length) intMax = accepted at ha h
      by_cases he : accepted = length
      · rw [if_pos he] at h
        cases h
        exact ⟨fun _ => rfl, fun hok => absurd hok.symm Bool.false_ne_true⟩
      · rw [if_neg he] at h
        obtain ⟨hwhole, hfront⟩ := ih (Nat.lt_of_le_of_lt (Nat.sub_le _ _) hl) h
        -- the accepted part and what a later send takes lie next to each other
        refine ⟨fun hok => ?_, fun hok => ?_⟩
        · rw [hwhole hok, Socket.accept_accept, ← slice_add, Nat.add_sub_cancel' ha]
        · obtain ⟨sent, hsent, hs'⟩ := hfront hok
          refine ⟨accepted + sent, by omega, ?_⟩
          rw [hs', Socket.accept_accept, ← slice_add]
    | fail code errno =>
      have hnothing : ∀ s' : Socket, s' = { socketClose s with connected := false } → ∃ sent ≤ length,
          s' = { socketClose (s.accept (slice m buffer sent)) with connected := false } := by
        intro s' hs'
        refine ⟨0, Nat.zero_le _, ?_⟩
        rw [hs', slice_zero, Socket.accept_nil]
      rw [writeLoop_fail hl] at h
      by_cases he : errno = .other
      · rw [if_pos he] at h
        cases h
        exact ⟨fun hok => absurd hok Bool.false_ne_true, fun _ => hnothing _ rfl⟩
      · rw [if_neg he] at h
        cases waits with
        | nil => cases h
        | cons wait waits =>
          dsimp only at h
          by_cases hw : wait < 0
          · rw [if_pos hw] at h
            cases h
            exact ⟨fun hok => absurd hok Bool.false_ne_true, fun _ => hnothing _ rfl⟩
          · rw [if_neg hw] at h
            exact ih hl h

end Loop

section Call
variable {s s' : Socket} {b : WriteBuffer} {results results' : WriteResults}

theorem socketWriteFrom_spec (hc : s.connected = true) {ok : Bool}
    (h : socketWriteFrom b results s = some (ok, results', s')) :
    (ok = true → s' = s.accept b.bytes) ∧
      (ok = false → ∃ sent ≤ b.length,
        s' = { socketClose (s.accept (slice b.memory b.start sent)) with connected := false }) := by
  rw [socketWriteFrom, hc, if_neg (by decide)] at h
  exact writeLoop_spec b.fits h

theorem socketWriteLineFrom_sent (h : socketWriteLineFrom b results s = some (true, results', s')) :
    s' = s.accept (b.bytes ++ [newline]) := by
  rw [socketWriteLineFrom] at h
  by_cases hc : s.connected = false
  · rw [if_pos hc] at h
    cases h
  · rw [if_neg hc] at h
    rw [Bool.not_eq_false] at hc
    obtain ⟨⟨ok, results1, s1⟩, hline, h⟩ := Option.bind_eq_some_iff.mp h
    dsimp only at h
    cases ok with
    | false => cases h
    | true =>
      obtain rfl := (socketWriteFrom_spec hc hline).1 rfl
      obtain ⟨⟨ok, results2, s2⟩, hend, h⟩ := Option.bind_eq_some_iff.mp h
      dsimp only at h
      cases ok with
      | false => cases h
      | true =>
        have hc1 : (s.accept b.bytes).connected = true := hc
        have hs2 : s2 = (s.accept b.bytes).accept newlineBuffer.bytes := (socketWriteFrom_spec hc1 hend).1 rfl
        rw [if_neg (by decide)] at h
        obtain ⟨-, hs'⟩ := Prod.mk.inj (Option.some.inj h)
        rw [← (Prod.mk.inj hs').2, hs2, Socket.accept_accept]
        rfl

end Call

/-- The script of a socket that stands for these results. -/
def sendScript : List SendResult → List Int → List Send
  | [], _ => []
  | .accept count :: sends, waits => .accept (min count intMax) :: sendScript sends waits
  | .fail _ .other :: sends, waits => .broken :: sendScript sends waits
  | .fail _ .wouldBlock :: _, [] | .fail _ .again :: _, [] => []
  | .fail _ .wouldBlock :: sends, wait :: waits | .fail _ .again :: sends, wait :: waits =>
    .retry (decide (0 ≤ wait)) :: sendScript sends waits

def WriteResults.script (results : WriteResults) : List Send := sendScript results.sends results.waits

section Script
variable {m : Memory}

theorem sendScript_wait {code : Nat} {errno : Errno} (he : errno ≠ .other) (sends : List SendResult) (wait : Int)
    (waits : List Int) :
    sendScript (.fail code errno :: sends) (wait :: waits) = .retry (decide (0 ≤ wait)) :: sendScript sends waits := by
  cases errno with
  | wouldBlock => rw [sendScript]
  | again => rw [sendScript]
  | other => exact absurd rfl he

theorem abandoned_scripted (s : Socket) (sends : List Send) :
    ({ socketClose (s.scripted sends) with connected := false } : Socket) =
      ({ socketClose s with connected := false } : Socket).scripted sends := by
  unfold socketClose
  by_cases hfd : s.fd < 0
  · rw [if_pos hfd, if_pos (show (s.scripted sends).fd < 0 from hfd)]
    rfl
  · rw [if_neg hfd, if_neg (show ¬ (s.scripted sends).fd < 0 from hfd)]
    rfl

/-- The loop is the one of the socket's model, with its results as the script. -/
theorem writeLoop_script {sends : List SendResult} {waits : List Int} {buffer length : Nat} (hl : length < 2^63)
    {s s' : Socket} {ok : Bool} {results : WriteResults} (old : List Send)
    (h : writeLoop m sends waits buffer length s = some (ok, results, s')) :
    writeBytes (sendScript sends waits) (slice m buffer length) (s.scripted old) = (ok, s'.scripted results.script) := by
  induction sends generalizing waits buffer length s old with
  | nil => cases h
  | cons result sends ih =>
    cases result with
    | accept count =>
      rw [writeLoop_accept hl] at h
      rw [sendScript, writeBytes, slice_length]
      dsimp only at h ⊢
      by_cases hwhole : length ≤ min count intMax
      · have he : min (min count length) intMax = length := by omega
        rw [he, if_pos rfl] at h
        cases h
        rw [if_pos hwhole, List.take_of_length_le (by rwa [slice_length])]
        rfl
      · have he : min (min count length) intMax = min count intMax := by omega
        rw [he, if_neg (by omega)] at h
        obtain ⟨rest, hrest⟩ := Nat.exists_eq_add_of_le (Nat.le_of_not_le hwhole)
        rw [if_neg hwhole, hrest, slice_drop, slice_add, List.take_left' (slice_length _ _ _)]
        rw [hrest, Nat.add_sub_cancel_left] at h
        exact ih (by omega) (sendScript sends waits) h
    | fail code errno =>
      rw [writeLoop_fail hl] at h
      by_cases he : errno = .other
      · subst he
        rw [if_pos rfl] at h
        cases h
        rw [sendScript, writeBytes]
        exact congrArg _ (abandoned_scripted s _)
      · rw [if_neg he] at h
        cases waits with
        | nil => cases h
        | cons wait waits =>
          rw [sendScript_wait he]
          dsimp only at h
          by_cases hw : wait < 0
          · rw [if_pos hw] at h
            cases h
            rw [decide_eq_false (Int.not_le.mpr hw), writeBytes]
            exact congrArg _ (abandoned_scripted s _)
          · rw [if_neg hw] at h
            rw [decide_eq_true (Int.not_lt.mp hw), writeBytes]
            exact ih hl old h

/-- A write that returns is the write of the socket's model, which has its results as the script. -/
theorem socketWriteFrom_script {b : WriteBuffer} {results results' : WriteResults} {s s' : Socket} {ok : Bool}
    (h : socketWriteFrom b results s = some (ok, results', s')) :
    socketWrite (s.scripted results.script) b.bytes = (ok, s'.scripted results'.script) := by
  rw [socketWriteFrom] at h
  rw [socketWrite]
  by_cases hc : s.connected = false
  · rw [if_pos hc] at h
    cases h
    exact if_pos hc
  · rw [if_neg hc] at h
    rw [if_neg (show ¬ (s.scripted results.script).connected = false from hc)]
    exact writeLoop_script b.fits results.script h

theorem socketWriteLineFrom_script {b : WriteBuffer} {results results' : WriteResults} {s s' : Socket} {ok : Bool}
    (h : socketWriteLineFrom b results s = some (ok, results', s')) :
    socketWriteLine (s.scripted results.script) b.bytes = (ok, s'.scripted results'.script) := by
  rw [socketWriteLineFrom] at h
  rw [socketWriteLine]
  by_cases hc : s.connected = false
  · rw [if_pos hc] at h
    cases h
    exact if_pos hc
  · rw [if_neg hc] at h
    rw [if_neg (show ¬ (s.scripted results.script).connected = false from hc)]
    obtain ⟨⟨sent, results1, s1⟩, hline, h⟩ := Option.bind_eq_some_iff.mp h
    rw [socketWriteFrom_script hline]
    cases sent with
    | false =>
      cases h
      rfl
    | true =>
      obtain ⟨⟨ended, results2, s2⟩, hend, h⟩ := Option.bind_eq_some_iff.mp h
      have hend' : socketWrite (s1.scripted results1.script) [newline] = (ended, s2.scripted results2.script) :=
        socketWriteFrom_script hend
      dsimp only
      rw [hend']
      cases ended with
      | false =>
        cases h
        rfl
      | true =>
        cases h
        rfl

end Script

/-- Writes are complete. Whatever the sends and the waits return, the network has accepted exactly the buffer when a
write returns true, and a front part of it when it returns false, which closes the socket. Both calls are those of
the socket's model, which has the results as its script. -/
theorem socket_write_complete {s : Socket} (hc : s.connected = true) (b : WriteBuffer) (results : WriteResults) :
    (∀ results' s', socketWriteFrom b results s = some (true, results', s') →
      s'.peer.outgoing = s.peer.outgoing ++ b.bytes) ∧
    (∀ results' s', socketWriteFrom b results s = some (false, results', s') →
      (∃ sent, sent <+: b.bytes ∧ s'.peer.outgoing = s.peer.outgoing ++ sent) ∧ s'.fd < 0 ∧ s'.connected = false) ∧
    (∀ results' s', socketWriteLineFrom b results s = some (true, results', s') →
      s'.peer.outgoing = s.peer.outgoing ++ b.bytes ++ [newline]) ∧
    (∀ ok results' s', socketWriteFrom b results s = some (ok, results', s') →
      socketWrite (s.scripted results.script) b.bytes = (ok, s'.scripted results'.script)) ∧
    (∀ ok results' s', socketWriteLineFrom b results s = some (ok, results', s') →
      socketWriteLine (s.scripted results.script) b.bytes = (ok, s'.scripted results'.script)) := by
  refine ⟨fun results' s' h => ?_, fun results' s' h => ?_, fun results' s' h => ?_,
    fun ok results' s' => socketWriteFrom_script, fun ok results' s' => socketWriteLineFrom_script⟩
  · rw [(socketWriteFrom_spec hc h).1 rfl]
    rfl
  · obtain ⟨sent, hsent, rfl⟩ := (socketWriteFrom_spec hc h).2 rfl
    obtain ⟨hfd, hconnected, hpeer⟩ := abandoned (s.accept (slice b.memory b.start sent))
    refine ⟨⟨slice b.memory b.start sent, ?_, by rw [hpeer]; rfl⟩, hfd, hconnected⟩
    rw [WriteBuffer.bytes, ← Nat.add_sub_cancel' hsent, slice_add]
    exact List.prefix_append _ _
  · rw [socketWriteLineFrom_sent h, List.append_assoc]
    rfl

def abc : WriteBuffer := ⟨fun i => i.toUInt8, 97, 3, by decide⟩

theorem socket_write_complete_abc :
    (∃ s', socketWriteFrom abc ⟨[.accept 1, .fail 10 .wouldBlock, .accept 0, .accept 2], [0]⟩
        (socketNew 3 [] 80 ⟨[], [], [], []⟩) = some (true, ⟨[], []⟩, s') ∧ s'.peer.outgoing = [97, 98, 99]) ∧
      (∃ s', socketWriteFrom abc ⟨[.accept 1, .fail 0 .again], [-1]⟩
        (socketNew 3 [] 80 ⟨[], [], [], []⟩) = some (false, ⟨[], []⟩, s') ∧ s'.fd < 0 ∧ s'.connected = false) ∧
      ∃ s', socketWriteLineFrom abc ⟨[.accept 2, .accept 1, .accept 1], []⟩
        (socketNew 3 [] 80 ⟨[], [], [], []⟩) = some (true, ⟨[], []⟩, s') ∧ s'.peer.outgoing = [97, 98, 99, 10] := by
  have hsent : socketWriteFrom abc ⟨[.accept 1, .fail 10 .wouldBlock, .accept 0, .accept 2], [0]⟩
      (socketNew 3 [] 80 ⟨[], [], [], []⟩) = some (true, ⟨[], []⟩, socketNew 3 [] 80 ⟨[], [], [97, 98, 99], []⟩) := by
    decide +kernel
  have hfailed : socketWriteFrom abc ⟨[.accept 1, .fail 0 .again], [-1]⟩ (socketNew 3 [] 80 ⟨[], [], [], []⟩) =
      some (false, ⟨[], []⟩, socketClose (socketNew 3 [] 80 ⟨[], [], [97], []⟩)) := by
    decide +kernel
  have hline : socketWriteLineFrom abc ⟨[.accept 2, .accept 1, .accept 1], []⟩
      (socketNew 3 [] 80 ⟨[], [], [], []⟩) = some (true, ⟨[], []⟩, socketNew 3 [] 80 ⟨[], [], [97, 98, 99, 10], []⟩) := by
    decide +kernel
  refine ⟨⟨_, hsent, ?_⟩, ⟨_, hfailed, ?_⟩, ⟨_, hline, ?_⟩⟩
  · exact (socket_write_complete rfl abc _).1 _ _ hsent
  · exact ((socket_write_complete rfl abc _).2.1 _ _ hfailed).2
  · exact (socket_write_complete rfl abc _).2.2.1 _ _ hline

end CFlare.Network
