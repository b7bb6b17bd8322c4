import CFlare.Http.RequestExtension

/-! What a call's outcome depends on. A request is parsed in an object that earlier requests have
filled, and from as many bytes as the reads happened to bring; neither is to matter. -/
namespace CFlare.Http
open CFlare.Library CFlare.Network
variable {env : Environment} {sock sock' : Socket}

/-- Two calls come to the same: the same rejection, or the same request with the same bytes still
to be read. -/
inductive SameOutcome : Except Fault Arrival → Except Fault Arrival → Prop where
  | fault (fault : Fault) : SameOutcome (.error fault) (.error fault)
  | rejected (status : UInt32) (req req' : Request) (sock sock' : Socket) :
      SameOutcome (.ok (.rejected status req sock)) (.ok (.rejected status req' sock'))
  | ready {req req' : Request} {sock sock' : Socket} (view : requestView req = requestView req')
      (unread : unreadBytes req sock = unreadBytes req' sock') :
      SameOutcome (.ok (.ready req sock)) (.ok (.ready req' sock'))

def Arrival.socket : Arrival → Socket
  | .rejected _ _ sock => sock
  | .ready _ sock => sock

/-- Besides, the same was done to the socket. A call that leaves its buffer has no result: what
it finds there is not the request's. -/
structure SameResult (x y : Except Fault Arrival) : Prop where
  outcome : SameOutcome x y
  socket : x.map Arrival.socket = y.map Arrival.socket
  inside : x ≠ .error .overrun

/-- The bytes received, parsed in a buffer that ends where they end. -/
def parsedAlone (env : Environment) (bytes : Bytes) : Except Stop HeaderScan :=
  parsePhases env bytes.length (filled requestNew bytes) bytes.length

section Views
variable {bad : Stop → Prop} {d la lb : Nat} {s t : HeaderScan}

/-- Scans that follow each other show the same request. -/
theorem FollowsScan.view (h : FollowsScan bad d la lb s t) {m : Memory} {n : Nat} (hp : Parsed m n s)
    (hmax : la ≤ requestMaxLength) (sock sock' : Socket) :
    requestView (finishRequest s sock) = requestView (finishRequest t sock') := by
  obtain ⟨-, -, -, z, hinside, hnull, hpointers⟩ := hp
  obtain ⟨hmethod, hmethodLen, hpath, hpathLen, hqueryLen, hversion, hversionLen, hquery⟩ :=
    lineSpans_eq.mp h.spans
  have hroom := h.room
  have hstring : ∀ p ∈ s.pointers, stringOf (finishRequest s sock) p = stringOf (finishRequest t sock') p := by
    intro p hp
    have hle := hpointers p hp
    exact cstring_congr (fun i (_ : p ≤ i) (hi : i < z + 1) => h.memory i (by omega))
      ⟨z, hle, Nat.lt_succ_self z, hnull⟩ (by omega) (by omega)
  have hheaders : s.req.headers.map (fun hd => (hd.header, stringOf (finishRequest s sock) hd.value, hd.valueLen)) =
      t.req.headers.map (fun hd => (hd.header, stringOf (finishRequest t sock') hd.value, hd.valueLen)) := by
    rw [← h.headers]
    apply List.map_congr_left
    intro hd hm
    rw [hstring _ (mem_pointers.mpr (.inr (.inr (.inr (.inr (.inr ⟨hd, hm, rfl⟩))))))]
  have hqueries : s.req.query.map (stringOf (finishRequest s sock)) =
      t.req.query.map (stringOf (finishRequest t sock')) := by
    rw [← hquery]
    apply Option.map_congr
    intro q hq
    exact hstring _ (mem_pointers.mpr (.inr (.inr (.inr (.inl hq)))))
  have hhosts : s.host.map (stringOf (finishRequest s sock)) =
      t.host.map (stringOf (finishRequest t sock')) := by
    rw [← h.host]
    apply Option.map_congr
    intro v hv
    exact hstring _ (mem_pointers.mpr (.inr (.inr (.inr (.inr (.inl hv))))))
  have hmethods := hstring s.req.method (mem_pointers.mpr (.inl rfl))
  have hpaths := hstring s.req.path (mem_pointers.mpr (.inr (.inl rfl)))
  have hversions := hstring s.req.version (mem_pointers.mpr (.inr (.inr (.inl rfl))))
  rw [requestView, requestView]
  dsimp only [finishRequest] at *
  rw [hmethods, hpaths, hversions, hheaders, hqueries, hhosts, hmethod, hmethodLen, hpath, hpathLen,
    hqueryLen, hversion, hversionLen, h.hostLen, h.contentLength, h.keepalive]

end Views

/-- The same bytes in front of two buffers. -/
theorem filled_follows (req req' : Request) (block rest : Bytes) :
    Follows rest.length block.length (filled req block, block.length)
      (filled req' (block ++ rest), block.length + rest.length) := by
  refine ⟨fun i hi => ?_, rfl, (Nat.zero_add _).le, rfl, rfl⟩
  have hlong : i < (block ++ rest).length := by
    rw [List.length_append]
    omega
  rw [filled_buffer hi, filled_buffer hlong, List.getElem_append_left hi]

abbrev FollowSame (m : Memory) (n : Nat) (y z : Except Stop HeaderScan) : Prop :=
  Agrees (fun _ => False) SameStop (fun t u => ∃ s bad d d' la lb, Parsed m n s ∧ la ≤ requestMaxLength ∧
    FollowsScan bad d la lb s t ∧ FollowsScan bad d' la lb s u) y z

theorem FollowSame.of_agrees {bad : Stop → Prop} {d d' la lb n : Nat} {m : Memory}
    {x y z : Except Stop HeaderScan} (hmax : la ≤ requestMaxLength)
    (hxy : Agrees bad SameStop (FollowsScan bad d la lb) x y)
    (hxz : Agrees bad SameStop (FollowsScan bad d' la lb) x z)
    (hbad : ∀ stop, x = .error stop → ¬ bad stop) (hparsed : ∀ s, x = .ok s → Parsed m n s) :
    FollowSame m n y z := by
  cases hxy.span hxz hbad SameStop.span with
  | ok h =>
    obtain ⟨s, hs, ht, hu⟩ := h
    exact .ok ⟨s, bad, d, d', la, lb, hparsed s hs, hmax, ht, hu⟩
  | error h => exact .error h
  | bad h => exact h.elim

theorem FollowSame.outcome {n : Nat} {m : Memory} {y z : Except Stop HeaderScan} (h : FollowSame m n y z)
    (hunread : ∀ t u, y = .ok t → z = .ok u → t.req.bufferPosition = u.req.bufferPosition →
      unreadBytes (finishRequest t sock) sock = unreadBytes (finishRequest u sock') sock') :
    SameOutcome (arrive env sock y) (arrive env sock' z) := by
  cases h with
  | ok h =>
    obtain ⟨s, bad, d, d', la, lb, hp, hmax, ht, hu⟩ := h
    have hview := (ht.view hp hmax sock sock).symm.trans (hu.view hp hmax sock sock')
    exact .ready hview (hunread _ _ rfl rfl (ht.position.symm.trans hu.position))
  | error h =>
    cases h with
    | fault fault => exact .fault fault
    | reject status message req req' => exact .rejected status _ _ _ _
  | bad h => exact h.elim

/-- What is left to be read behind a parsed request. -/
theorem Received.unread {bytes : Bytes} (h : Received sock bytes sock') {req : Request} {st : HeaderScan}
    (hp : parsePhases env requestMaxLength (filled req bytes) bytes.length = .ok st) :
    unreadBytes (finishRequest st sock') sock' = sock.pending.drop st.req.bufferPosition := by
  have harrived : Arrived env req sock bytes st (finishRequest st sock') sock' := ⟨h, hp, rfl⟩
  exact harrived.unread

section Fragmentation

/-- A parse that needs nothing behind its bytes: no separator is missed, and no byte read. -/
def StandsAlone (env : Environment) (block : Bytes) : Prop :=
  ∀ stop, parsedAlone env block = .error stop → stop ≠ .fault .overrun ∧ ¬ stop.Unfound

variable (env) in
private theorem parse_follows_block (req : Request) {block rest : Bytes}
    (hshort : (block ++ rest).length < requestMaxLength) :
    Agrees (fun stop => stop = .fault .overrun ∨ stop.Unfound) SameStop
      (FollowsScan (fun stop => stop = .fault .overrun ∨ stop.Unfound) rest.length block.length requestMaxLength)
      (parsedAlone env block)
      (parsePhases env requestMaxLength (filled req (block ++ rest)) (block ++ rest).length) := by
  have hmax : requestMaxLength + 2 < sizeLimit := by decide
  rw [List.length_append] at hshort ⊢
  exact parsePhases_agrees (.inl rfl) (.inr fun _ h => .inr h) rfl (by omega) (by omega) (by omega)
    (filled_follows _ _ _ _)

/-- What the reads of a call bring: bytes up to the one read that ends a block or fills the
buffer. -/
def fetched (sock : Socket) : Except Fault Fetched :=
  (fetchBlock (requestMaxLength + 1) 0 0 sock).map Prod.fst

def Supplied (sock : Socket) : Prop := ∀ bytes, fetched sock ≠ .ok (.failed bytes)

def fetchedLength (sock : Socket) : Nat :=
  match fetched sock with
  | .error _ => 0
  | .ok result => result.bytes.length

/-- The reads of two sockets over one stream bring equally many bytes; or both bring less than
the buffer holds, and the stream's header block stands alone. -/
def FragmentsAgree (env : Environment) (sock1 sock2 : Socket) : Prop :=
  fetchedLength sock1 = fetchedLength sock2 ∨
    fetchedLength sock1 < requestMaxLength ∧ fetchedLength sock2 < requestMaxLength ∧
      ∀ stop, blockEnd 0 sock1.pending = some stop → StandsAlone env (sock1.pending.take stop)

private theorem sameOutcome_of_received {req : Request} {bytes bytes' : Bytes} {sock1 sock2 : Socket}
    (h1 : Received sock1 bytes sock) (h2 : Received sock2 bytes' sock') (hstream : sock1.pending = sock2.pending)
    (halone : ∀ stop, blockEnd 0 sock1.pending = some stop → StandsAlone env (sock1.pending.take stop)) :
    SameOutcome (arrive env sock (parsePhases env requestMaxLength (filled req bytes) bytes.length))
      (arrive env sock' (parsePhases env requestMaxLength (filled req bytes') bytes'.length)) := by
  obtain ⟨stop, hstop⟩ := h1.block
  obtain ⟨stop', hstop'⟩ := h2.block
  have hend : blockEnd 0 sock1.pending = some stop := by
    rw [h1.received]
    exact blockEnd_append hstop
  have hend' : blockEnd 0 sock1.pending = some stop' := by
    rw [hstream, h2.received]
    exact blockEnd_append hstop'
  obtain rfl := Option.some.inj (hend.symm.trans hend')
  have hle := blockEnd_le hstop
  have hle' := blockEnd_le hstop'
  obtain ⟨block, hblock⟩ : ∃ block, block = sock1.pending.take stop := ⟨_, rfl⟩
  have hlength : block.length ≤ requestMaxLength := by
    rw [hblock, List.length_take]
    have := h1.short
    omega
  have hfront : bytes = block ++ bytes.drop stop := by
    rw [hblock, h1.received, List.take_append_of_le_length hle, List.take_append_drop]
  have hfront' : bytes' = block ++ bytes'.drop stop := by
    rw [hblock, hstream, h2.received, List.take_append_of_le_length hle', List.take_append_drop]
  have hfollows := parse_follows_block env req (hfront ▸ h1.short)
  have hfollows' := parse_follows_block env req (hfront' ▸ h2.short)
  rw [← hfront] at hfollows
  rw [← hfront'] at hfollows'
  have hboth : FollowSame (filled requestNew block).buffer block.length
      (parsePhases env requestMaxLength (filled req bytes) bytes.length)
      (parsePhases env requestMaxLength (filled req bytes') bytes'.length) := by
    refine .of_agrees hlength hfollows hfollows' (fun s hs hbad => ?_)
      (fun s hs => parsePhases_parsed rfl hlength (Nat.le_of_eq rfl |>.trans hlength) hs)
    have hnot := halone stop hend s (hblock ▸ hs)
    exact hbad.elim hnot.1 hnot.2
  apply hboth.outcome
  intro t u ht hu hpos
  rw [h1.unread ht, h2.unread hu, hstream, hpos]

private theorem sameOutcome_of_parsed {req : Request} {bytes : Bytes} {sock1 sock2 : Socket}
    (h1 : Received sock1 bytes sock) (h2 : Received sock2 bytes sock') (hstream : sock1.pending = sock2.pending) :
    SameOutcome (arrive env sock (parsePhases env requestMaxLength (filled req bytes) bytes.length))
      (arrive env sock' (parsePhases env requestMaxLength (filled req bytes) bytes.length)) := by
  cases hp : parsePhases env requestMaxLength (filled req bytes) bytes.length with
  | error stop =>
    cases stop with
    | fault fault => exact .fault fault
    | reject status message req' => exact .rejected status _ _ _ _
  | ok st =>
    refine .ready rfl ?_
    rw [h1.unread hp, h2.unread hp, hstream]

/-- One stream, read in two ways that do not run out of data, with the same request object: the
outcome is the same whenever the reads bring equally many bytes, and also when they do not but
neither fills the buffer and the header block stands alone. -/
theorem fragmentation_independent (env : Environment) (req : Request) {sock1 sock2 : Socket}
    (hw1 : sock1.WellFormed) (hw2 : sock2.WellFormed) (hstream : sock1.pending = sock2.pending)
    (h1 : Supplied sock1) (h2 : Supplied sock2) (hfragments : FragmentsAgree env sock1 sock2) :
    SameOutcome (requestArrive env req sock1) (requestArrive env req sock2) := by
  obtain ⟨fetched1, sock1', hw1', hpend1, hholds1, hfetch1, harrive1⟩ := requestArrive_spec env hw1
  obtain ⟨fetched2, sock2', hw2', hpend2, hholds2, hfetch2, harrive2⟩ := requestArrive_spec env hw2
  rw [harrive1 req, harrive2 req]
  have hresult1 : fetched sock1 = .ok fetched1 := by rw [fetched, hfetch1]; rfl
  have hresult2 : fetched sock2 = .ok fetched2 := by rw [fetched, hfetch2]; rfl
  rw [FragmentsAgree, fetchedLength, fetchedLength, hresult1, hresult2] at hfragments
  dsimp only at hfragments
  have hsame : fetched1.bytes.length = fetched2.bytes.length → fetched1.bytes = fetched2.bytes := by
    intro hlen
    rw [hpend1, hpend2] at hstream
    exact List.append_inj_left hstream hlen
  cases fetched1 with
  | failed bytes => exact absurd hresult1 (h1 bytes)
  | tooLong bytes =>
    cases fetched2 with
    | failed bytes' => exact absurd hresult2 (h2 bytes')
    | tooLong bytes' => exact .rejected _ _ _ _ _
    | got bytes' =>
      have hfull : bytes.length = requestMaxLength := hholds1
      have hshort : bytes'.length < requestMaxLength := hholds2.1
      simp only [Fetched.bytes] at hfragments
      omega
  | got bytes =>
    cases fetched2 with
    | failed bytes' => exact absurd hresult2 (h2 bytes')
    | tooLong bytes' =>
      have hshort : bytes.length < requestMaxLength := hholds1.1
      have hfull : bytes'.length = requestMaxLength := hholds2
      simp only [Fetched.bytes] at hfragments
      omega
    | got bytes' =>
      have hreceived : Received sock1 bytes sock1' := ⟨hw1', hpend1, hholds1.1, hholds1.2⟩
      have hreceived' : Received sock2 bytes' sock2' := ⟨hw2', hpend2, hholds2.1, hholds2.2⟩
      rcases hfragments with hlen | ⟨-, -, halone⟩
      · obtain rfl : bytes = bytes' := hsame hlen
        exact sameOutcome_of_parsed hreceived hreceived' hstream
      · exact sameOutcome_of_received hreceived hreceived' hstream halone

def wholeSocket (counts : List Nat) : Socket :=
  socketNew 3 [] 80 ⟨ascii "a b HTTP/1.0\n\nxy", counts.map Recv.deliver, [], []⟩

/-- Read up to the blank line or to the end, it comes to the same. -/
theorem fragmentation_independent_whole :
    SameOutcome (requestArrive plainEnvironment requestNew (wholeSocket [14]))
      (requestArrive plainEnvironment requestNew (wholeSocket [16])) := by
  have hfirst : fetched (wholeSocket [14]) = .ok (.got (ascii "a b HTTP/1.0\n\n")) := rfl
  have hsecond : fetched (wholeSocket [16]) = .ok (.got (ascii "a b HTTP/1.0\n\nxy")) := rfl
  have hblock : ∃ st, parsedAlone plainEnvironment (ascii "a b HTTP/1.0\n\n") = .ok st := ⟨_, rfl⟩
  refine fragmentation_independent plainEnvironment requestNew (socketNew_wellFormed _ _ _ _)
    (socketNew_wellFormed _ _ _ _) rfl ?_ ?_ (.inr ⟨?_, ?_, ?_⟩)
  · intro bytes h
    rw [hfirst] at h
    cases h
  · intro bytes h
    rw [hsecond] at h
    cases h
  · rw [fetchedLength, hfirst]
    decide
  · rw [fetchedLength, hsecond]
    decide
  · intro stop hstop error herror
    obtain rfl : 14 = stop := Option.some.inj hstop
    obtain ⟨st, hst⟩ := hblock
    have hok : parsedAlone plainEnvironment ((wholeSocket [14]).pending.take 14) = .ok st := hst
    rw [hok] at herror
    cases herror

/-- A method and no more, then a blank line, and something behind it. -/
def unfinishedStream : Bytes := ascii "G /\n\nx y"

def unfinishedSocket (counts : List Nat) : Socket :=
  socketNew 3 [] 80 ⟨unfinishedStream, counts.map Recv.deliver, [], []⟩

/-- The answer tells where the first read ended: the path is too long for the block alone, and
ends behind it when the rest of the stream is there. -/
theorem fragments_distinguished :
    ¬ SameOutcome (requestArrive plainEnvironment requestNew (unfinishedSocket [5]))
      (requestArrive plainEnvironment requestNew (unfinishedSocket [8])) := by
  have halone : ∃ req sock, requestArrive plainEnvironment requestNew (unfinishedSocket [5]) =
      .ok (.rejected 414 req sock) := ⟨_, _, rfl⟩
  have hall : ∃ req sock, requestArrive plainEnvironment requestNew (unfinishedSocket [8]) =
      .ok (.rejected 400 req sock) := ⟨_, _, rfl⟩
  obtain ⟨req, sock, halone⟩ := halone
  obtain ⟨req', sock', hall⟩ := hall
  rw [halone, hall]
  intro h
  cases h

end Fragmentation

section Reuse

/-- The parse of the received bytes needs no others. The version's second number is looked at
even when the first one decides. -/
def SelfContained (env : Environment) (bytes : Bytes) : Prop :=
  parsedAlone env bytes ≠ .error (.fault .overrun) ∨
    ∃ st, parseHeaderBlock env bytes.length (filled requestNew bytes) bytes.length = .ok st ∧
      st.req.version + 5 < bytes.length ∧ st.req.version + 7 < requestMaxLength ∧
      st.req.buffer (st.req.version + 5) ≠ 49

variable {limit : Nat} {st : HeaderScan}

theorem checkVersion_inside (h : st.req.version + 7 < limit) :
    checkVersion limit st =
      if st.req.buffer (st.req.version + 5) ≠ 49 then
        .error (.reject 400 (ascii "HTTP version not supported") st.req)
      else if st.req.buffer (st.req.version + 7) = 49 then
        if st.host = none then .error (.reject 400 (ascii "HTTP version requires host") st.req) else .ok st
      else if st.req.buffer (st.req.version + 7) = 50 then parseAuthority limit st
      else .ok { st with req := { st.req with keepalive := false } } := by
  rw [checkVersion, byteAt, byteAt, if_pos h, if_pos (by omega), fault_ok_bind, fault_ok_bind]

theorem checkVersion_outside (h : limit ≤ st.req.version + 7) :
    checkVersion limit st = .error (.fault .overrun) := by
  rw [checkVersion, byteAt, byteAt, if_neg (Nat.not_lt.mpr h)]
  split <;> rfl

private theorem checkVersion_overrun (hlt : st.req.version + 7 < limit)
    (h : checkVersion limit st = .error (.fault .overrun)) :
    st.req.buffer (st.req.version + 5) = 49 ∧ st.req.buffer (st.req.version + 7) = 50 ∧
      parseAuthority limit st = .error (.fault .overrun) := by
  rw [checkVersion_inside hlt] at h
  split at h
  · cases h
  · next hmajor =>
    split at h
    · split at h <;> cases h
    · split at h
      · next hminor => exact ⟨not_not.mp hmajor, hminor, h⟩
      · cases h

private theorem Framed.authority_overrun {m : Memory} {n : Nat} (hf : Framed m n st) (hn : n ≤ limit)
    (h : parseAuthority limit st = .error (.fault .overrun)) : st.hostLen = sizeLimit - 1 := by
  have htotal := hf.total
  have hversion := hf.version
  obtain ⟨-, -, ⟨-, heq⟩ | ⟨-, heq | ⟨hostPart, hostPartLen, hlow, hup, heq⟩⟩⟩ :=
    parseAuthority_spec hf.path.1 hf.path.2 (show st.req.version ≤ limit by omega)
  · rw [heq] at h
    cases h
  · rw [heq] at h
    cases h
  · rw [heq] at h
    split at h
    · next hlong =>
      rcases hf.host with ⟨-, hlen⟩ | ⟨v, -, hv, -, hlen | hlen⟩
      · omega
      · omega
      · exact hlen
    · cases h

variable (env) in
private theorem parse_follows_received (req : Request) {bytes : Bytes} (hshort : bytes.length < requestMaxLength) :
    Agrees (fun stop => stop = .fault .overrun) SameStop
      (FollowsScan (fun stop => stop = .fault .overrun) 0 bytes.length requestMaxLength)
      (parsedAlone env bytes) (parsePhases env requestMaxLength (filled req bytes) bytes.length) := by
  have hmax : requestMaxLength + 2 < sizeLimit := by decide
  have hfollows := filled_follows requestNew req bytes []
  rw [List.append_nil] at hfollows
  exact parsePhases_agrees rfl (.inl rfl) rfl hshort.le (by omega) hshort.le hfollows

variable (env) in
private theorem block_follows_received (req : Request) {bytes : Bytes} (hshort : bytes.length < requestMaxLength)
    (bad : Stop → Prop)
    (hstrings : bad (.fault .overrun) ∨
      ∀ i, bytes.length ≤ i → i < requestMaxLength → (filled req bytes).buffer i ≠ 0) :
    Agrees bad SameStop (FollowsScan bad 0 bytes.length requestMaxLength)
      (parseHeaderBlock env bytes.length (filled requestNew bytes) bytes.length)
      (parseHeaderBlock env requestMaxLength (filled req bytes) bytes.length) := by
  have hmax : requestMaxLength + 2 < sizeLimit := by decide
  have hfollows := filled_follows requestNew req bytes []
  rw [List.append_nil] at hfollows
  exact parseHeaderBlock_agrees (.inl rfl) rfl hshort.le (by omega) hshort.le hfollows hstrings

/-- A request object whose buffer is full of stale bytes. -/
def stale (bytes : Memory) : Request := { requestNew with buffer := bytes }

theorem filled_stale (m : Memory) (bytes : Bytes) {i : Nat} (h : bytes.length ≤ i) :
    (filled (stale m) bytes).buffer i = m i :=
  store_after (by rwa [Nat.zero_add])

private theorem arrive_overrun {x : Except Stop HeaderScan} :
    arrive env sock x = .error .overrun ↔ x = .error (.fault .overrun) := by
  constructor
  · intro h
    cases x with
    | ok st => cases h
    | error stop =>
      cases stop with
      | fault fault =>
        obtain rfl := Except.error.inj h
        rfl
      | reject status message req => cases h
  · rintro rfl
    rfl

private theorem FollowSame.result {n : Nat} {m : Memory} {y z : Except Stop HeaderScan} (h : FollowSame m n y z)
    (hunread : ∀ t u, y = .ok t → z = .ok u → t.req.bufferPosition = u.req.bufferPosition →
      unreadBytes (finishRequest t sock) sock = unreadBytes (finishRequest u sock) sock)
    (hinside : y ≠ .error (.fault .overrun)) :
    SameResult (arrive env sock y) (arrive env sock z) := by
  refine ⟨h.outcome hunread, ?_, fun hover => hinside (arrive_overrun.mp hover)⟩
  cases h with
  | ok h => rfl
  | error h =>
    cases h with
    | fault fault => rfl
    | reject status message req req' => rfl
  | bad h => exact h.elim

private theorem parse_major_rejected (req : Request) {bytes : Bytes} (hshort : bytes.length < requestMaxLength)
    (hblock : parseHeaderBlock env bytes.length (filled requestNew bytes) bytes.length = .ok st)
    (h5 : st.req.version + 5 < bytes.length) (h7 : st.req.version + 7 < requestMaxLength)
    (hmajor : st.req.buffer (st.req.version + 5) ≠ 49) :
    ∃ req', parsePhases env requestMaxLength (filled req bytes) bytes.length =
      .error (.reject 400 (ascii "HTTP version not supported") req') := by
  have hfollows := block_follows_received env req hshort (fun stop => stop = .fault .overrun)
    (.inl rfl)
  rw [hblock] at hfollows
  obtain ⟨t, ht, hst⟩ := hfollows.of_ok
  obtain ⟨-, -, -, -, -, hversion, -, -⟩ := lineSpans_eq.mp hst.spans
  refine ⟨t.req, ?_⟩
  rw [parsePhases_eq, ht, fault_ok_bind, checkVersion_inside (by rw [← hversion]; exact h7), if_pos]
  rw [← hversion, ← hst.memory _ h5]
  exact hmajor

private theorem selfContained_same (req req' : Request) {bytes : Bytes} (h : Received sock bytes sock')
    (hs : SelfContained env bytes) :
    SameResult (arrive env sock' (parsePhases env requestMaxLength (filled req bytes) bytes.length))
      (arrive env sock' (parsePhases env requestMaxLength (filled req' bytes) bytes.length)) := by
  have hunread : ∀ t u,
      parsePhases env requestMaxLength (filled req bytes) bytes.length = .ok t →
      parsePhases env requestMaxLength (filled req' bytes) bytes.length = .ok u →
      t.req.bufferPosition = u.req.bufferPosition →
      unreadBytes (finishRequest t sock') sock' = unreadBytes (finishRequest u sock') sock' := by
    intro t u ht hu hpos
    rw [h.unread ht, h.unread hu, hpos]
  rcases hs with halone | ⟨st, hblock, h5, h7, hmajor⟩
  · have hfollows := parse_follows_received env req h.short
    have hgood : ∀ stop, parsedAlone env bytes = .error stop → stop ≠ .fault .overrun := by
      rintro stop hstop rfl
      exact halone hstop
    have hboth : FollowSame (filled requestNew bytes).buffer bytes.length
        (parsePhases env requestMaxLength (filled req bytes) bytes.length)
        (parsePhases env requestMaxLength (filled req' bytes) bytes.length) :=
      .of_agrees h.short.le hfollows (parse_follows_received env req' h.short) hgood
        (fun s hs => parsePhases_parsed rfl h.short.le h.short.le hs)
    refine hboth.result hunread (fun hover => ?_)
    rw [hover] at hfollows
    obtain ⟨stop, hstop, hsame⟩ := hfollows.of_error_right hgood
    cases hsame with
    | fault => exact halone hstop
  · obtain ⟨req1, h1⟩ := parse_major_rejected req h.short hblock h5 h7 hmajor
    obtain ⟨req2, h2⟩ := parse_major_rejected req' h.short hblock h5 h7 hmajor
    rw [h1, h2]
    exact ⟨.rejected _ _ _ _ _, rfl, fun hf => nomatch hf⟩

/-- The stale bytes that say HTTP/1.1 everywhere, and those with another second number. -/
private def onesEverywhere : Memory := fun _ => 49

private def zeroAt (i : Nat) : Memory := Function.update onesEverywhere i 48

variable (env) in
private theorem block_stale {bytes : Bytes} (hshort : bytes.length < requestMaxLength) {m : Memory}
    (hm : ∀ i, m i ≠ 0) :
    Agrees (fun _ => False) SameStop (FollowsScan (fun _ => False) 0 bytes.length requestMaxLength)
      (parseHeaderBlock env bytes.length (filled requestNew bytes) bytes.length)
      (parseHeaderBlock env requestMaxLength (filled (stale m) bytes) bytes.length) := by
  apply block_follows_received env (stale m) hshort (fun _ => False)
  refine .inr (fun i hi _ => ?_)
  rw [filled_stale m bytes hi]
  exact hm i

private theorem block_stale_ok {bytes : Bytes} (hshort : bytes.length < requestMaxLength) {m : Memory}
    (hm : ∀ i, m i ≠ 0)
    (hblock : parseHeaderBlock env bytes.length (filled requestNew bytes) bytes.length = .ok st) :
    ∃ t, parsePhases env requestMaxLength (filled (stale m) bytes) bytes.length =
        checkVersion requestMaxLength t ∧
      FollowsScan (fun _ => False) 0 bytes.length requestMaxLength st t ∧
      ∀ i, bytes.length ≤ i → t.req.buffer i = m i := by
  have hfollows := block_stale env hshort hm
  rw [hblock] at hfollows
  obtain ⟨t, ht, hst⟩ := hfollows.of_ok
  obtain ⟨hframed, -⟩ := parseHeaderBlock_framed rfl hshort.le ht
  refine ⟨t, by rw [parsePhases_eq, ht, fault_ok_bind], hst, fun i hi => ?_⟩
  have htotal := hframed.total
  rw [hframed.ahead i (by omega), filled_stale m bytes hi]

private theorem stale_overrun {bytes : Bytes} (hshort : bytes.length < requestMaxLength) {m : Memory} (hm : ∀ i, m i ≠ 0)
    (hblock : parseHeaderBlock env bytes.length (filled requestNew bytes) bytes.length = .ok st)
    (halone : checkVersion bytes.length st = .error (.fault .overrun)) (hlt : st.req.version + 7 < bytes.length) :
    parsePhases env requestMaxLength (filled (stale m) bytes) bytes.length = .error (.fault .overrun) := by
  obtain ⟨hframed, -⟩ := parseHeaderBlock_framed rfl hshort.le hblock
  obtain ⟨t, ht, hst, -⟩ := block_stale_ok hshort hm hblock
  obtain ⟨-, -, -, -, -, hversion, -, -⟩ := lineSpans_eq.mp hst.spans
  obtain ⟨hmajor, hminor, hauth⟩ := checkVersion_overrun hlt halone
  have hlong := hframed.authority_overrun (Nat.le_of_eq rfl) hauth
  have hauthority := parseAuthority_agrees hshort.le hst (.inr (by rw [hlong]; decide))
  rw [hauth] at hauthority
  obtain ⟨stop, hstop, hsame⟩ := hauthority.of_error (fun hf => hf)
  rw [ht, checkVersion_inside (by omega), ← hversion, ← hst.memory _ (by omega), ← hst.memory _ hlt,
    if_neg (not_not.mpr hmajor), hminor, if_neg (by decide), if_pos rfl, hstop]
  cases hsame with
  | fault => rfl

private theorem stale_major {bytes : Bytes} {m : Memory} {t : HeaderScan}
    (hst : FollowsScan (fun _ => False) 0 bytes.length requestMaxLength st t)
    (hstale : ∀ i, bytes.length ≤ i → t.req.buffer i = m i)
    (hfirst : st.req.version + 5 < bytes.length → st.req.buffer (st.req.version + 5) = 49)
    (hm : m (st.req.version + 5) = 49) : t.req.buffer (st.req.version + 5) = 49 := by
  rcases Nat.lt_or_ge (st.req.version + 5) bytes.length with h5 | h5
  · rw [← hst.memory _ h5, hfirst h5]
  · rw [hstale _ h5, hm]

private theorem onesEverywhere_ne_null (i : Nat) : onesEverywhere i ≠ 0 := by
  rw [onesEverywhere]
  decide

private theorem zeroAt_ne_null (j i : Nat) : zeroAt j i ≠ 0 := by
  by_cases hi : i = j
  · rw [zeroAt, hi, Function.update_self]
    decide
  · rw [zeroAt, Function.update_of_ne hi]
    exact onesEverywhere_ne_null i

private theorem stale_differs {bytes : Bytes} (hshort : bytes.length < requestMaxLength)
    (hblock : parseHeaderBlock env bytes.length (filled requestNew bytes) bytes.length = .ok st)
    (hfirst : st.req.version + 5 < bytes.length → st.req.buffer (st.req.version + 5) = 49)
    (hge : bytes.length ≤ st.req.version + 7) (hroom : st.req.version + 7 < requestMaxLength) :
    ¬ SameResult
      (arrive env sock' (parsePhases env requestMaxLength (filled (stale onesEverywhere) bytes) bytes.length))
      (arrive env sock' (parsePhases env requestMaxLength (filled (stale (zeroAt (st.req.version + 7))) bytes)
        bytes.length)) := by
  obtain ⟨hframed, z, -, hclosed⟩ := parseHeaderBlock_framed rfl hshort.le hblock
  have htotal := hframed.total
  have hinside := hclosed.inside
  have hhost : st.host = none := by
    rcases hframed.host with ⟨hnone, -⟩ | ⟨v, hv, hlow, -, -⟩
    · exact hnone
    · have hle := hclosed.pointers v (mem_pointers.mpr (.inr (.inr (.inr (.inr (.inl hv))))))
      omega
  obtain ⟨t, ht, hst, hstale⟩ := block_stale_ok hshort onesEverywhere_ne_null hblock
  obtain ⟨u, hu, hsu, hstale'⟩ := block_stale_ok hshort (zeroAt_ne_null (st.req.version + 7)) hblock
  obtain ⟨-, -, -, -, -, hversion, -, -⟩ := lineSpans_eq.mp hst.spans
  obtain ⟨-, -, -, -, -, hversion', -, -⟩ := lineSpans_eq.mp hsu.spans
  have hmajor1 : t.req.buffer (st.req.version + 5) = 49 := stale_major hst hstale hfirst rfl
  have hmajor2 : u.req.buffer (st.req.version + 5) = 49 :=
    stale_major hsu hstale' hfirst (Function.update_of_ne (by omega) _ _)
  have hminor1 : t.req.buffer (st.req.version + 7) = 49 := hstale _ hge
  have hminor2 : u.req.buffer (st.req.version + 7) = 48 := by
    rw [hstale' _ hge]
    exact Function.update_self _ _ _
  intro hsame
  rw [ht, hu, checkVersion_inside (by omega), checkVersion_inside (by omega), ← hversion, ← hversion',
    hmajor1, hmajor2, hminor1, hminor2, ← hst.host, hhost] at hsame
  cases hsame.outcome

private theorem not_selfContained_differs {bytes : Bytes} (h : Received sock bytes sock')
    (hs : ¬ SelfContained env bytes) :
    ∃ req req', ¬ SameResult (arrive env sock' (parsePhases env requestMaxLength (filled req bytes) bytes.length))
      (arrive env sock' (parsePhases env requestMaxLength (filled req' bytes) bytes.length)) := by
  rw [SelfContained, not_or, not_not] at hs
  obtain ⟨halone, hmajor⟩ := hs
  have hleaves : parsePhases env requestMaxLength (filled (stale onesEverywhere) bytes) bytes.length =
        .error (.fault .overrun) →
      ∃ req req', ¬ SameResult
        (arrive env sock' (parsePhases env requestMaxLength (filled req bytes) bytes.length))
        (arrive env sock' (parsePhases env requestMaxLength (filled req' bytes) bytes.length)) :=
    fun hover => ⟨stale onesEverywhere, requestNew, fun hsame => hsame.inside (arrive_overrun.mpr hover)⟩
  rw [parsedAlone, parsePhases_eq] at halone
  cases hblock : parseHeaderBlock env bytes.length (filled requestNew bytes) bytes.length with
  | error stop =>
    have hfollows := block_stale env h.short onesEverywhere_ne_null
    rw [hblock] at hfollows halone
    obtain rfl := Except.error.inj halone
    obtain ⟨stop', hstop, hsame⟩ := hfollows.of_error (fun hf => hf)
    cases hsame with
    | fault =>
      apply hleaves
      rw [parsePhases_eq, hstop]
      rfl
  | ok st =>
    rw [hblock, fault_ok_bind] at halone
    rcases Nat.lt_or_ge (st.req.version + 7) bytes.length with hlt | hge
    · exact hleaves (stale_overrun h.short onesEverywhere_ne_null hblock halone hlt)
    rcases Nat.lt_or_ge (st.req.version + 7) requestMaxLength with hroom | hout
    · refine ⟨_, _, stale_differs h.short hblock (fun h5 => ?_) hge hroom⟩
      by_contra hnot
      exact hmajor ⟨st, hblock, h5, hroom, hnot⟩
    · obtain ⟨t, ht, hst, -⟩ := block_stale_ok h.short onesEverywhere_ne_null hblock
      obtain ⟨-, -, -, -, -, hversion, -, -⟩ := lineSpans_eq.mp hst.spans
      apply hleaves
      rw [ht]
      exact checkVersion_outside (by rw [← hversion]; exact hout)

/-- Whatever two request objects hold, the call comes to the same with both, exactly when the
bytes it parses are self-contained. -/
theorem reuse_independent_iff (env : Environment) (hw : sock.WellFormed) :
    (∀ req req', SameResult (requestArrive env req sock) (requestArrive env req' sock)) ↔
      ∀ bytes, fetched sock = .ok (.got bytes) → SelfContained env bytes := by
  obtain ⟨result, sock', hw', hpend, hholds, hfetch, harrive⟩ := requestArrive_spec env hw
  have hresult : fetched sock = .ok result := by rw [fetched, hfetch]; rfl
  cases result with
  | failed bytes =>
    refine ⟨fun _ bytes' hgot => ?_, fun _ req req' => ?_⟩
    · rw [hresult] at hgot
      cases hgot
    · rw [harrive req, harrive req']
      exact ⟨.rejected _ _ _ _ _, rfl, fun hf => nomatch hf⟩
  | tooLong bytes =>
    refine ⟨fun _ bytes' hgot => ?_, fun _ req req' => ?_⟩
    · rw [hresult] at hgot
      cases hgot
    · rw [harrive req, harrive req']
      exact ⟨.rejected _ _ _ _ _, rfl, fun hf => nomatch hf⟩
  | got bytes =>
    have hreceived : Received sock bytes sock' := ⟨hw', hpend, hholds.1, hholds.2⟩
    constructor
    · intro hall bytes' hgot
      rw [hresult] at hgot
      obtain rfl := Fetched.got.inj (Except.ok.inj hgot)
      by_contra hnot
      obtain ⟨req, req', hdiffer⟩ := not_selfContained_differs hreceived hnot
      have hsame := hall req req'
      rw [harrive req, harrive req'] at hsame
      exact hdiffer hsame
    · intro hself req req'
      rw [harrive req, harrive req']
      exact selfContained_same req req' hreceived (hself bytes hresult)

def shortSocket : Socket := socketNew 3 [] 80 ⟨ascii "a b \n\n", [.deliver 6], [], []⟩

/-- An object in which an earlier request left its version. -/
def usedRequest : Request := stale (store (fun _ => 0) 0 (ascii "G / HTTP/1.0\n\n"))

/-- The version of an earlier request is taken for that of a request that has none. -/
theorem version_leaks :
    ¬ SameResult (requestArrive plainEnvironment requestNew shortSocket)
      (requestArrive plainEnvironment usedRequest shortSocket) := by
  have hfresh : ∃ req sock, requestArrive plainEnvironment requestNew shortSocket =
      .ok (.rejected 400 req sock) := ⟨_, _, rfl⟩
  have hused : ∃ req sock, requestArrive plainEnvironment usedRequest shortSocket =
      .ok (.ready req sock) := ⟨_, _, rfl⟩
  obtain ⟨req, sock, hfresh⟩ := hfresh
  obtain ⟨req', sock', hused⟩ := hused
  rw [hfresh, hused]
  intro h
  cases h.outcome

/-- On that stream two objects are told apart. -/
theorem reuse_independent_short :
    (∀ req req', SameResult (requestArrive plainEnvironment req shortSocket)
        (requestArrive plainEnvironment req' shortSocket)) ↔
      ∀ bytes, fetched shortSocket = .ok (.got bytes) → SelfContained plainEnvironment bytes :=
  reuse_independent_iff plainEnvironment (socketNew_wellFormed _ _ _ _)

end Reuse

end CFlare.Http
