import CFlare.Network.SocketStream

/-! Line reading with the caller's buffer in memory. However the buffers are sized, repeated calls read
the same line and leave the same socket behind. -/
namespace CFlare.Network
open CFlare.Library

def fetchByte (s : Socket) : Int × Bytes × Socket :=
  if 0 < s.requeueLength then
    let (bytes, s) := requeueRead s 1
    (bytes.length, bytes, s)
  else lthreadRecv s 1

/-- The fetching loop: `len` bytes lie in the buffer, `room` more may. -/
def fillLine (buffer : Nat) : Nat → Memory → Nat → Socket → Bool × Nat × Memory × Socket
  | 0, m, len, s => (false, len, m, s)
  | room + 1, m, len, s =>
    let (r, bytes, s) := fetchByte s
    if r ≤ 0 then (false, len, m, readFailed s r)
    else
      let m := store m (buffer + len) bytes
      -- the newline stays in the buffer, but is not counted
      if m (buffer + len) = newline then (true, len, m, s) else fillLine buffer room m (len + 1) s

/-- The loop that moves every byte but the carriage returns to the front; `count` bytes are left to look at. -/
def dropReturns (buffer : Nat) : Nat → Memory → Nat → Nat → Nat × Memory
  | 0, m, _, dst => (dst, m)
  | count + 1, m, src, dst =>
    if m (buffer + src) = carriageReturn then dropReturns buffer count m (src + 1) dst
    else dropReturns buffer count (Function.update m (buffer + dst) (m (buffer + src))) (src + 1) (dst + 1)

def readLineInto (m : Memory) (buffer length : Nat) (s : Socket) :
    Except Fault ((Bool × Nat) × Memory × Socket) :=
  if length = 0 then .error .assertion
  else if s.connected = false then .ok ((false, 0), m, s)
  else
    let (gotNewline, len, m, s) := fillLine buffer (length - 1) m 0 s
    let (dst, m) := dropReturns buffer len m 0 0
    .ok ((gotNewline, dst), Function.update m (buffer + dst) 0, s)

/-- What a call reports and leaves in the buffer: the bytes read, and the byte behind them. -/
structure Piece where
  gotNewline : Bool
  text : Bytes
  behind : UInt8
  deriving DecidableEq, Repr

def readPieces (buffer : Nat) : Memory → Socket → List Nat → Except Fault (List Piece × Socket)
  | _, s, [] => .ok ([], s)
  | m, s, length :: lengths => do
    let ((gotNewline, read), m, s) ← readLineInto m buffer length s
    let (pieces, s) ← readPieces buffer m s lengths
    .ok (⟨gotNewline, slice m buffer read, m (buffer + read)⟩ :: pieces, s)

section Buffer
variable {buffer : Nat}

/-- The bytes of the buffer up to a length, and what is behind it. -/
structure Fills (m m' : Memory) (buffer limit : Nat) (text : Bytes) : Prop where
  bytes : slice m' buffer text.length = text
  outside : ∀ i, i < buffer ∨ buffer + limit ≤ i → m' i = m i

theorem readLineBytes_succ (room : Nat) (s : Socket) (got : Bytes) :
    readLineBytes (room + 1) s got =
      let (r, bytes, s) := fetchByte s
      if r ≤ 0 then (false, got, readFailed s r)
      else if bytes = [newline] then (true, got, s)
      else readLineBytes room s (got ++ bytes) := rfl

theorem fetchByte_one {s s' : Socket} {r : Int} {bytes : Bytes} (h : s.WellFormed)
    (he : fetchByte s = (r, bytes, s')) (hr : ¬ r ≤ 0) : ∃ b, bytes = [b] ∧ s'.WellFormed := by
  obtain ⟨-, hw, hle, hpos, -⟩ := fetch_spec h he
  have hlen := hpos (by omega)
  obtain ⟨b, hb⟩ := List.length_eq_one_iff.mp (show bytes.length = 1 by omega)
  exact ⟨b, hb, hw⟩

/-- The bytes that the loop fetches are in the buffer, in order. -/
theorem fillLine_spec (room : Nat) {s : Socket} (hw : s.WellFormed) {m : Memory} {got : Bytes}
    (hm : slice m buffer got.length = got) :
    ∃ m', fillLine buffer room m got.length s =
        ((readLineBytes room s got).1, (readLineBytes room s got).2.1.length, m', (readLineBytes room s got).2.2) ∧
      Fills m m' buffer (got.length + room) (readLineBytes room s got).2.1 ∧
      (readLineBytes room s got).2.1.length ≤ got.length + room := by
  induction room generalizing s m got with
  | zero => exact ⟨m, rfl, ⟨hm, fun _ _ => rfl⟩, Nat.le_refl _⟩
  | succ room ih =>
    rw [readLineBytes_succ, fillLine]
    cases hf : fetchByte s with
    | mk r fetched =>
      obtain ⟨bytes, s1⟩ := fetched
      dsimp only
      by_cases hr : r ≤ 0
      · rw [if_pos hr, if_pos hr]
        exact ⟨m, rfl, ⟨hm, fun _ _ => rfl⟩, Nat.le_add_right _ _⟩
      · rw [if_neg hr, if_neg hr]
        obtain ⟨b, rfl, hw1⟩ := fetchByte_one hw hf hr
        have hb : store m (buffer + got.length) [b] (buffer + got.length) = b :=
          store_at (i := 0) (show 0 < [b].length from Nat.one_pos)
        have hout : ∀ i, i < buffer ∨ buffer + (got.length + (room + 1)) ≤ i →
            store m (buffer + got.length) [b] i = m i := by
          intro i hi
          rcases hi with hi | hi
          · exact store_before (by omega)
          · exact store_after (by rw [List.length_singleton]; omega)
        have hkeep : slice (store m (buffer + got.length) [b]) buffer got.length = got :=
          (slice_congr (fun i _ hi => store_before hi)).trans hm
        rw [hb]
        by_cases hn : b = newline
        · rw [if_pos hn, if_pos (by rw [hn])]
          exact ⟨_, rfl, ⟨hkeep, hout⟩, Nat.le_add_right _ _⟩
        · rw [if_neg hn, if_neg (fun h => hn (List.cons.inj h).1)]
          have hnext : slice (store m (buffer + got.length) [b]) buffer (got ++ [b]).length = got ++ [b] := by
            rw [List.length_append, slice_add, hkeep]
            simp [slice, hb]
          obtain ⟨m', he, hfills, hle⟩ := ih hw1 hnext
          rw [List.length_append, List.length_singleton] at he hfills hle
          refine ⟨m', he, ⟨hfills.bytes, fun i hi => ?_⟩, by omega⟩
          rw [hfills.outside i (by omega)]
          exact hout i hi

/-- In front of `dst` lies what is kept so far; what is still to be looked at begins at `src`. -/
theorem dropReturns_spec {m : Memory} {src dst : Nat} {kept rest : Bytes} (hle : dst ≤ src) (hk : kept.length = dst)
    (hm : slice m buffer kept.length = kept) (hr : slice m (buffer + src) rest.length = rest) :
    ∃ m', dropReturns buffer rest.length m src dst = ((kept ++ rest.filter (· ≠ carriageReturn)).length, m') ∧
      Fills m m' buffer (src + rest.length) (kept ++ rest.filter (· ≠ carriageReturn)) := by
  induction rest generalizing m src dst kept with
  | nil =>
    rw [List.filter_nil, List.append_nil, hk]
    exact ⟨m, rfl, ⟨hk ▸ hm, fun _ _ => rfl⟩⟩
  | cons b rest ih =>
    obtain ⟨hb, hrest⟩ := List.cons.inj hr
    rw [List.length_cons, dropReturns, hb]
    by_cases hret : b = carriageReturn
    · rw [if_pos hret, List.filter_cons_of_neg (by simpa using hret)]
      obtain ⟨m', he, hfills⟩ := ih (Nat.le_succ_of_le hle) hk hm hrest
      refine ⟨m', he, hfills.bytes, fun i hi => hfills.outside i (by omega)⟩
    · rw [if_neg hret, List.filter_cons_of_pos (by simpa using hret)]
      have hother : ∀ i, i ≠ buffer + dst → Function.update m (buffer + dst) b i = m i :=
        fun i hi => Function.update_of_ne hi _ _
      have hm' : slice (Function.update m (buffer + dst) b) buffer (kept ++ [b]).length = kept ++ [b] := by
        rw [List.length_append, slice_add, hk]
        have hfront : slice (Function.update m (buffer + dst) b) buffer dst = kept :=
          (slice_congr (fun i _ hi => hother i (by omega))).trans (hk ▸ hm)
        rw [hfront]
        simp [slice]
      have hrest' : slice (Function.update m (buffer + dst) b) (buffer + (src + 1)) rest.length = rest :=
        (slice_congr (fun i hi _ => hother i (by omega))).trans hrest
      obtain ⟨m', he, hfills⟩ := ih (Nat.succ_le_succ hle) (by simp [hk]) hm' hrest'
      rw [List.append_assoc, List.singleton_append] at he hfills
      refine ⟨m', he, hfills.bytes, fun i hi => ?_⟩
      rw [hfills.outside i (by omega)]
      exact hother i (by omega)

/-- A line read leaves the text that the reads of the model return in the buffer, with a null byte behind it and
nothing changed beyond the buffer. -/
theorem readLineInto_spec (buffer : Nat) {s : Socket} (hw : s.WellFormed) (hc : s.connected = true) (m : Memory)
    {length : Nat}
    (hl : 0 < length) {gotNewline : Bool} {text : Bytes} {s' : Socket}
    (he : socketReadLine s length = .ok ((gotNewline, text), s')) :
    ∃ m', readLineInto m buffer length s = .ok ((gotNewline, text.length), m', s') ∧
      slice m' buffer text.length = text ∧ m' (buffer + text.length) = 0 ∧ text.length ≤ length - 1 ∧
      ∀ i, i < buffer ∨ buffer + length ≤ i → m' i = m i := by
  have hempty : slice m buffer ([] : Bytes).length = [] := rfl
  obtain ⟨m1, hfill, hfills, hle⟩ := fillLine_spec (length - 1) hw hempty
  rw [socketReadLine, if_neg (Nat.ne_of_gt hl), hc, if_neg (by decide)] at he
  cases hread : readLineBytes (length - 1) s [] with
  | mk got scanned =>
    obtain ⟨bytes, s1⟩ := scanned
    rw [hread] at he hfill hfills hle
    dsimp only at he hfill hfills hle
    obtain ⟨hreply, rfl⟩ := Prod.mk.inj (Except.ok.inj he)
    obtain ⟨rfl, rfl⟩ := Prod.mk.inj hreply
    have hnone : slice m1 buffer ([] : Bytes).length = [] := rfl
    obtain ⟨m2, hdrop, hmoved⟩ := dropReturns_spec (Nat.le_refl 0) rfl hnone hfills.bytes
    rw [List.nil_append] at hmoved hdrop
    rw [Nat.zero_add] at hmoved
    have hshort : (bytes.filter (· ≠ carriageReturn)).length ≤ bytes.length := List.length_filter_le _ _
    rw [List.length_nil, Nat.zero_add] at hle hfills
    refine ⟨Function.update m2 (buffer + (bytes.filter (· ≠ carriageReturn)).length) 0, ?_, ?_,
      Function.update_self _ _ _, by omega, fun i hi => ?_⟩
    · rw [readLineInto, if_neg (Nat.ne_of_gt hl), hc, if_neg (by decide)]
      rw [show fillLine buffer (length - 1) m 0 s = fillLine buffer (length - 1) m ([] : Bytes).length s from rfl, hfill]
      dsimp only
      rw [hdrop]
    · exact (slice_congr (fun i _ hi => Function.update_of_ne (by omega) _ _)).trans hmoved.bytes
    · rw [Function.update_of_ne (by omega), hmoved.outside i (by omega), hfills.outside i (by omega)]

end Buffer

/-- The receives that `n` more bytes need all deliver. -/
def Socket.Delivers (s : Socket) (n : Nat) : Prop :=
  ∃ good more, s.peer.recvs = good ++ more ∧ n ≤ s.queued.length + good.length ∧
    ∀ r ∈ good, ∃ count, r = Recv.deliver (count + 1)

def skipBytes : Nat → Socket → Socket
  | 0, s => s
  | n + 1, s => skipBytes n (fetchByte s).2.2

/-- A socket that is read from: its pending bytes, as many of which as said will be delivered. -/
structure Readable (s : Socket) (pending : Bytes) (n : Nat) : Prop where
  wellFormed : s.WellFormed
  connected : s.connected = true
  pending : s.pending = pending
  delivers : s.Delivers n

section Delivered
variable {s : Socket} {line rest : Bytes} {n : Nat}

theorem Readable.fetch {b : UInt8} (h : Readable s (b :: rest) (n + 1)) :
    ∃ s', fetchByte s = (1, [b], s') ∧ Readable s' rest n := by
  obtain ⟨good, more, hrecvs, hn, hgood⟩ := h.delivers
  have hlen := queued_length h.wellFormed
  have hpending := h.pending
  rw [fetchByte]
  by_cases hq : 0 < s.requeueLength
  · rw [if_pos hq]
    cases hread : requeueRead s 1 with
    | mk bytes s' =>
      obtain ⟨rfl, hrest, hw, hpeer, hc⟩ := requeueRead_spec h.wellFormed hread
      obtain ⟨c, queue, hqueue⟩ := List.exists_cons_of_length_pos (l := s.queued) (by omega)
      rw [Socket.pending, hqueue, List.cons_append] at hpending
      obtain ⟨rfl, hrest'⟩ := List.cons.inj hpending
      rw [hqueue] at hrest hn ⊢
      refine ⟨s', rfl, hw, hc.trans h.connected, ?_, good, more, by rw [hpeer, hrecvs], ?_, hgood⟩
      · rw [Socket.pending, hrest, hpeer]
        exact hrest'
      · rw [hrest]
        simp only [List.length_cons, List.drop_succ_cons, List.drop_zero] at hn ⊢
        omega
  · rw [if_neg hq]
    have hnone : s.queued = [] := List.eq_nil_of_length_eq_zero (by omega)
    rw [hnone, List.length_nil, Nat.zero_add] at hn
    obtain ⟨r, good, rfl⟩ := List.exists_cons_of_length_pos (l := good) (by omega)
    obtain ⟨count, rfl⟩ := hgood r List.mem_cons_self
    rw [Socket.pending, hnone, List.nil_append] at hpending
    have htake : s.peer.incoming.take (min (count + 1) 1) = [b] := by
      rw [Nat.min_eq_right (Nat.succ_pos count), hpending]
      rfl
    rw [lthreadRecv, hrecvs, List.cons_append]
    simp only [htake, List.length_singleton]
    refine ⟨_, rfl, h.wellFormed, h.connected, ?_, good, more, rfl, ?_, fun r hr => hgood r (List.mem_cons_of_mem _ hr)⟩
    · show s.queued ++ s.peer.incoming.drop 1 = rest
      rw [hnone, hpending]
      rfl
    · show n ≤ s.queued.length + good.length
      rw [hnone]
      rw [List.length_cons] at hn
      rw [List.length_nil]
      omega

theorem Readable.skip {front : Bytes} (h : Readable s (front ++ rest) (front.length + n)) :
    Readable (skipBytes front.length s) rest n := by
  induction front generalizing s with
  | nil =>
    rw [List.nil_append, List.length_nil, Nat.zero_add] at h
    exact h
  | cons b front ih =>
    rw [List.length_cons, Nat.add_right_comm] at h
    obtain ⟨s', he, h'⟩ := h.fetch
    rw [List.length_cons, skipBytes, he]
    exact ih h'

theorem skipBytes_add (a b : Nat) (s : Socket) : skipBytes (a + b) s = skipBytes b (skipBytes a s) := by
  induction a generalizing s with
  | zero => rw [Nat.zero_add]; rfl
  | succ a ih =>
    rw [Nat.add_right_comm, skipBytes, skipBytes]
    exact ih _

/-- Reading stops at the newline or where the room ends, whichever comes first. -/
theorem Readable.readLineBytes (h : Readable s (line ++ newline :: rest) (line.length + 1)) (hn : newline ∉ line)
    (room : Nat) (got : Bytes) :
    readLineBytes room s got =
      (decide (line.length < room), got ++ line.take room, skipBytes (min room (line.length + 1)) s) := by
  induction room generalizing s line got with
  | zero => simp [Network.readLineBytes, skipBytes]
  | succ room ih =>
    rw [readLineBytes_succ]
    cases line with
    | nil =>
      obtain ⟨s', he, -⟩ := h.fetch
      have hmin : min (room + 1) 1 = 1 := Nat.min_eq_right (Nat.succ_pos room)
      rw [he, List.length_nil, Nat.zero_add, hmin, skipBytes, skipBytes, he]
      simp
    | cons b line =>
      obtain ⟨s', he, h'⟩ := h.fetch
      have hb : [b] ≠ [newline] := fun hb => hn (by rw [← (List.cons.inj hb).1]; exact List.mem_cons_self)
      have hrest := ih h' (fun hm => hn (List.mem_cons_of_mem _ hm)) (got ++ [b])
      have hmin : min (room + 1) (line.length + 1 + 1) = min room (line.length + 1) + 1 := Nat.succ_min_succ _ _
      rw [he, List.length_cons, hmin, skipBytes, he]
      dsimp only
      rw [if_neg (by decide), if_neg hb, hrest]
      simp

theorem Readable.call (h : Readable s (line ++ newline :: rest) (line.length + 1)) (hn : newline ∉ line)
    {length : Nat} (hl : 0 < length) :
    socketReadLine s length =
      .ok ((decide (line.length < length - 1), (line.take (length - 1)).filter (· ≠ carriageReturn)),
      skipBytes (min (length - 1) (line.length + 1)) s) := by
  rw [socketReadLine, if_neg (Nat.ne_of_gt hl), h.connected, if_neg (by decide), h.readLineBytes hn, List.nil_append]

theorem readPieces_cons (hw : s.WellFormed) (hc : s.connected = true) (buffer : Nat) (m : Memory) {length : Nat}
    (hl : 0 < length) {gotNewline : Bool} {text : Bytes} {s' : Socket}
    (he : socketReadLine s length = .ok ((gotNewline, text), s')) :
    text.length ≤ length - 1 ∧ ∃ m', ∀ lengths pieces s'', readPieces buffer m' s' lengths = .ok (pieces, s'') →
      readPieces buffer m s (length :: lengths) = .ok (⟨gotNewline, text, 0⟩ :: pieces, s'') := by
  obtain ⟨m', hinto, htext, hnull, hlength, -⟩ := readLineInto_spec buffer hw hc m hl he
  refine ⟨hlength, m', fun lengths pieces s'' hrest => ?_⟩
  rw [readPieces, hinto, fault_ok_bind]
  dsimp only
  rw [hrest, htext, hnull]
  rfl

/-- The pieces of a line: only the last call meets the newline, every text fits its buffer with the null byte
behind it, and together they are the line without its carriage returns. -/
structure PiecesOf (line : Bytes) (lengths : Nat → Nat) (pieces : List Piece) : Prop where
  returned : ∃ n, pieces.map Piece.gotNewline = List.replicate n false ++ [true]
  ended : ∀ i p, pieces[i]? = some p → p.behind = 0 ∧ p.text.length ≤ lengths i - 1
  text : pieces.flatMap Piece.text = line.filter (· ≠ carriageReturn)

private theorem PiecesOf.single {lengths : Nat → Nat}
    (hfit : (line.filter (· ≠ carriageReturn)).length ≤ lengths 0 - 1) :
    PiecesOf line lengths [⟨true, line.filter (· ≠ carriageReturn), 0⟩] := by
  refine ⟨⟨0, rfl⟩, fun i p hp => ?_, List.flatMap_singleton _ _⟩
  cases i with
  | zero =>
    obtain rfl := Option.some.inj hp
    exact ⟨rfl, hfit⟩
  | succ i => cases hp

private theorem PiecesOf.cons {lengths : Nat → Nat} {room : Nat} {pieces : List Piece}
    (hfit : ((line.take room).filter (· ≠ carriageReturn)).length ≤ lengths 0 - 1)
    (h : PiecesOf (line.drop room) (fun i => lengths (i + 1)) pieces) :
    PiecesOf line lengths (⟨false, (line.take room).filter (· ≠ carriageReturn), 0⟩ :: pieces) := by
  obtain ⟨n, hn⟩ := h.returned
  refine ⟨⟨n + 1, by rw [List.map_cons, hn]; rfl⟩, fun i p hp => ?_, ?_⟩
  · cases i with
    | zero =>
      obtain rfl := Option.some.inj hp
      exact ⟨rfl, hfit⟩
    | succ i => exact h.ended i p hp
  · rw [List.flatMap_cons, h.text, ← List.filter_append, List.take_append_drop]

private theorem Readable.pieces (h : Readable s (line ++ newline :: rest) (line.length + 1)) (hn : newline ∉ line)
    (buffer : Nat) (m : Memory) (lengths : Nat → Nat) (hl : ∀ i, 2 ≤ lengths i) :
    ∃ calls pieces, readPieces buffer m s ((List.range calls).map lengths) =
        .ok (pieces, skipBytes (line.length + 1) s) ∧ PiecesOf line lengths pieces := by
  induction hsize : line.length using Nat.strong_induction_on generalizing s line m lengths with
  | _ size ih =>
    subst hsize
    have hpos : 0 < lengths 0 := Nat.lt_of_lt_of_le Nat.two_pos (hl 0)
    have hcall := h.call hn hpos
    obtain ⟨hlength, m', hpieces⟩ := readPieces_cons h.wellFormed h.connected buffer m hpos hcall
    by_cases hfit : line.length < lengths 0 - 1
    · rw [List.take_of_length_le (Nat.le_of_lt hfit)] at hpieces hlength
      rw [decide_eq_true hfit, Nat.min_eq_right hfit] at hpieces
      exact ⟨1, _, hpieces [] [] _ rfl, .single hlength⟩
    · have hroom : lengths 0 - 1 ≤ line.length := Nat.le_of_not_lt hfit
      have htake : (line.take (lengths 0 - 1)).length = lengths 0 - 1 := List.length_take_of_le hroom
      have hdrop : (line.drop (lengths 0 - 1)).length = line.length - (lengths 0 - 1) := List.length_drop
      have h2 := hl 0
      rw [decide_eq_false hfit, Nat.min_eq_left (by omega)] at hpieces
      have hsplit : Readable s (line.take (lengths 0 - 1) ++ (line.drop (lengths 0 - 1) ++ newline :: rest))
          ((line.take (lengths 0 - 1)).length + ((line.drop (lengths 0 - 1)).length + 1)) := by
        rw [← List.append_assoc, List.take_append_drop, htake, hdrop,
          show lengths 0 - 1 + (line.length - (lengths 0 - 1) + 1) = line.length + 1 by omega]
        exact h
      have hnext := hsplit.skip
      rw [htake] at hnext
      obtain ⟨calls, pieces, hread, hp⟩ := ih _ (by omega) hnext (fun hm => hn (List.mem_of_mem_drop hm)) m'
        (fun i => lengths (i + 1)) (fun i => hl (i + 1)) rfl
      rw [← skipBytes_add, hdrop, show lengths 0 - 1 + (line.length - (lengths 0 - 1) + 1) = line.length + 1 by omega]
        at hread
      refine ⟨calls + 1, _, ?_, hp.cons hlength⟩
      rw [List.range_succ_eq_map, List.map_cons, List.map_map]
      exact hpieces _ _ _ hread

/-- Reading a line does not depend on the sizes of the buffers. From a connected socket whose pending bytes have a
newline, and whose receives deliver, repeated calls end with one that meets the newline; their texts together are
the line, and the socket is the one that a single call with a large enough buffer leaves. -/
theorem socket_read_line_sizes (h : Readable s (line ++ newline :: rest) (line.length + 1)) (hn : newline ∉ line)
    (buffer : Nat) (m : Memory) (lengths : Nat → Nat) (hl : ∀ i, 2 ≤ lengths i) :
    ∃ calls pieces s', readPieces buffer m s ((List.range calls).map lengths) = .ok (pieces, s') ∧
      PiecesOf line lengths pieces ∧ s'.pending = rest ∧ s'.connected = true ∧
      ∀ length, line.length + 1 < length →
        readPieces buffer m s [length] = .ok ([⟨true, line.filter (· ≠ carriageReturn), 0⟩], s') := by
  obtain ⟨calls, pieces, hread, hp⟩ := h.pieces hn buffer m lengths hl
  have hwhole : Readable s ((line ++ [newline]) ++ rest) ((line ++ [newline]).length + 0) := by
    rw [List.append_assoc, List.length_append]
    exact h
  have hend := hwhole.skip
  rw [List.length_append, List.length_singleton] at hend
  refine ⟨calls, pieces, _, hread, hp, hend.pending, hend.connected, fun length hlarge => ?_⟩
  have hfit : line.length < length - 1 := Nat.lt_sub_of_add_lt hlarge
  have hcall := h.call hn (Nat.lt_of_le_of_lt (Nat.zero_le _) hlarge)
  rw [List.take_of_length_le (Nat.le_of_lt hfit), decide_eq_true hfit, Nat.min_eq_right hfit] at hcall
  obtain ⟨-, m', hpieces⟩ :=
    readPieces_cons h.wellFormed h.connected buffer m (Nat.lt_of_le_of_lt (Nat.zero_le _) hlarge) hcall
  exact hpieces [] [] _ rfl

/-- A line that begins in the requeue and ends in the network, with a carriage return inside. -/
def splitLine : Socket :=
  socketRequeue (socketNew 3 [] 80 ⟨[13, 66, 10, 67], List.replicate 3 (.deliver 1), [], []⟩) [65]

private theorem splitLine_readable :
    Readable splitLine ([65, 13, 66] ++ newline :: [67]) (([65, 13, 66] : Bytes).length + 1) where
  wellFormed := rfl
  connected := rfl
  pending := rfl
  delivers := ⟨List.replicate 3 (.deliver 1), [], rfl, Nat.le_refl 4, fun _ hr => ⟨0, List.eq_of_mem_replicate hr⟩⟩

theorem socket_read_line_sizes_two :
    ∃ calls pieces s', readPieces 0 (fun _ => 0) splitLine ((List.range calls).map fun _ => 2) = .ok (pieces, s') ∧
      PiecesOf [65, 13, 66] (fun _ => 2) pieces ∧ s'.pending = [67] ∧ s'.connected = true ∧
      ∀ length, 4 < length →
        readPieces 0 (fun _ => 0) splitLine [length] = .ok ([⟨true, [65, 66], 0⟩], s') :=
  socket_read_line_sizes splitLine_readable (by decide) 0 (fun _ => 0) (fun _ => 2) (fun _ => Nat.le_refl 2)

end Delivered

end CFlare.Network
