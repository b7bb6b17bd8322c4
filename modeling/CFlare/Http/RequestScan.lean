import CFlare.Http.Request
import CFlare.Network.SocketStream
import Mathlib.Data.List.GetD

/-! Searching and framing: what `firstOf` finds, where a header block ends, and which bytes
the receiving loop takes off the stream. -/
namespace CFlare.Http
open CFlare.Library CFlare.Network

section Search
variable {m m' : Memory} {ptr len k : Nat} {value : UInt8}

theorem firstOf_eq_some : firstOf m ptr len value = some k ↔
    k < len ∧ m (ptr + k) = value ∧ ∀ i < k, m (ptr + i) ≠ value := by
  induction len generalizing ptr k with
  | zero => simp [firstOf]
  | succ len ih =>
    rw [firstOf]
    split
    · next h =>
      constructor
      · rintro ⟨⟩
        exact ⟨Nat.succ_pos _, h, fun i hi => absurd hi (Nat.not_lt_zero i)⟩
      · rintro ⟨-, -, hall⟩
        cases k with
        | zero => rfl
        | succ k => exact absurd h (hall 0 (Nat.succ_pos k))
    · next h =>
      rw [Option.map_eq_some_iff]
      constructor
      · rintro ⟨j, hj, rfl⟩
        obtain ⟨hlt, hv, hall⟩ := ih.mp hj
        refine ⟨Nat.succ_lt_succ hlt, by rwa [Nat.add_comm j, ← Nat.add_assoc], fun i hi => ?_⟩
        cases i with
        | zero => exact h
        | succ i =>
          rw [Nat.add_comm i, ← Nat.add_assoc]
          exact hall i (Nat.lt_of_succ_lt_succ hi)
      · rintro ⟨hlt, hv, hall⟩
        cases k with
        | zero => exact absurd hv h
        | succ k =>
          refine ⟨k, ih.mpr ⟨Nat.lt_of_succ_lt_succ hlt, ?_, fun i hi => ?_⟩, rfl⟩
          · rwa [Nat.add_assoc, Nat.add_comm 1]
          · rw [Nat.add_assoc, Nat.add_comm 1]
            exact hall (i + 1) (Nat.succ_lt_succ hi)

theorem firstOf_eq_none : firstOf m ptr len value = none ↔ ∀ i < len, m (ptr + i) ≠ value := by
  constructor
  · intro h i
    induction i using Nat.strongRecOn with
    | ind i ih =>
      intro hi hv
      have hfound := (firstOf_eq_some (k := i)).mpr ⟨hi, hv, fun j hj => ih j hj (Nat.lt_trans hj hi)⟩
      rw [h] at hfound
      cases hfound
  · intro hall
    cases h : firstOf m ptr len value with
    | none => rfl
    | some k =>
      obtain ⟨hlt, hv, -⟩ := firstOf_eq_some.mp h
      exact absurd hv (hall k hlt)

theorem firstOf_congr (h : ∀ i, ptr ≤ i → i < ptr + len → m i = m' i) :
    firstOf m ptr len value = firstOf m' ptr len value := by
  induction len generalizing ptr with
  | zero => rfl
  | succ len ih =>
    rw [firstOf, firstOf, h ptr (Nat.le_refl _) (by omega),
      ih (fun i hl hu => h i (by omega) (by omega))]

theorem firstOf_longer {len' : Nat} (h : firstOf m ptr len value = some k) (hle : len ≤ len') :
    firstOf m ptr len' value = some k := by
  obtain ⟨hlt, hv, hall⟩ := firstOf_eq_some.mp h
  exact firstOf_eq_some.mpr ⟨Nat.lt_of_lt_of_le hlt hle, hv, hall⟩

/-- The bytes in front of the first such byte, or all of them. -/
theorem slice_firstOf (len : Nat) :
    slice m ptr ((firstOf m ptr len value).getD len) = (slice m ptr len).takeWhile (· ≠ value) := by
  induction len generalizing ptr with
  | zero => rfl
  | succ len ih =>
    rw [firstOf, slice]
    by_cases hb : m ptr = value
    · rw [if_pos hb, List.takeWhile_cons_of_neg (by simpa using hb)]
      rfl
    · rw [if_neg hb, List.takeWhile_cons_of_pos (by simpa using hb), ← ih]
      cases firstOf m (ptr + 1) len value <;> rfl

theorem firstOf_slice {xs ys : Bytes} (h : slice m ptr (xs ++ value :: ys).length = xs ++ value :: ys)
    (hx : value ∉ xs) : firstOf m ptr (xs ++ value :: ys).length value = some xs.length := by
  obtain ⟨hxs, hys⟩ := slice_append _ _ h
  refine firstOf_eq_some.mpr ⟨?_, ?_, fun i hi hv => hx ?_⟩
  · rw [List.length_append, List.length_cons]
    omega
  · exact (List.cons.inj hys).1
  · have hbyte := (slice_eq_iff m ptr xs).mp hxs i hi
    rw [← hv, hbyte]
    exact List.getElem_mem hi

end Search

/-- How many bytes there are up to the blank line's newline, after some newlines in a row. -/
def blockEnd : Nat → Bytes → Option Nat
  | _, [] => none
  | newlines, b :: rest =>
    if b = carriageReturn then (blockEnd newlines rest).map (· + 1)
    else if b = newline then
      if newlines + 1 = 2 then some 1 else (blockEnd (newlines + 1) rest).map (· + 1)
    else (blockEnd 0 rest).map (· + 1)

section Framing
variable {newlines newlines' : Nat} {xs ys : Bytes}

/-- The scan of a fragment finds the end of a block if there is one. -/
theorem scanFragment_fst (newlines : Nat) (bytes : Bytes) :
    (scanFragment newlines bytes).1 = (blockEnd newlines bytes).isSome := by
  induction bytes generalizing newlines with
  | nil => rfl
  | cons b rest ih =>
    rw [scanFragment, blockEnd]
    split
    · rw [ih, Option.isSome_map]
    · split
      · split
        · rfl
        · rw [ih, Option.isSome_map]
      · rw [ih, Option.isSome_map]

theorem scanFragment_append (h : scanFragment newlines xs = (false, newlines')) :
    scanFragment newlines (xs ++ ys) = scanFragment newlines' ys := by
  induction xs generalizing newlines with
  | nil =>
    obtain rfl := (Prod.mk.inj h).2
    rfl
  | cons b xs ih =>
    rw [List.cons_append]
    rw [scanFragment] at h ⊢
    split
    · next hb =>
      rw [if_pos hb] at h
      exact ih h
    · next hb =>
      rw [if_neg hb] at h
      split
      · next hn =>
        rw [if_pos hn] at h
        split
        · next h2 =>
          rw [if_pos h2] at h
          cases h
        · next h2 =>
          rw [if_neg h2] at h
          exact ih h
      · next hn =>
        rw [if_neg hn] at h
        exact ih h

theorem blockEnd_append {e : Nat} (h : blockEnd newlines xs = some e) :
    blockEnd newlines (xs ++ ys) = some e := by
  induction xs generalizing newlines e with
  | nil => cases h
  | cons b xs ih =>
    rw [List.cons_append]
    rw [blockEnd] at h ⊢
    split
    · next hb =>
      rw [if_pos hb] at h
      obtain ⟨d, hd, rfl⟩ := Option.map_eq_some_iff.mp h
      rw [ih hd]
      rfl
    · next hb =>
      rw [if_neg hb] at h
      split
      · next hn =>
        rw [if_pos hn] at h
        split
        · next h2 => rwa [if_pos h2] at h
        · next h2 =>
          rw [if_neg h2] at h
          obtain ⟨d, hd, rfl⟩ := Option.map_eq_some_iff.mp h
          rw [ih hd]
          rfl
      · next hn =>
        rw [if_neg hn] at h
        obtain ⟨d, hd, rfl⟩ := Option.map_eq_some_iff.mp h
        rw [ih hd]
        rfl

theorem blockEnd_le {e : Nat} (h : blockEnd newlines xs = some e) : e ≤ xs.length := by
  induction xs generalizing newlines e with
  | nil => cases h
  | cons b xs ih =>
    rw [blockEnd] at h
    split at h
    · obtain ⟨d, hd, rfl⟩ := Option.map_eq_some_iff.mp h
      exact Nat.succ_le_succ (ih hd)
    · split at h
      · split at h
        · obtain rfl := Option.some.inj h
          exact Nat.succ_le_succ (Nat.zero_le _)
        · obtain ⟨d, hd, rfl⟩ := Option.map_eq_some_iff.mp h
          exact Nat.succ_le_succ (ih hd)
      · obtain ⟨d, hd, rfl⟩ := Option.map_eq_some_iff.mp h
        exact Nat.succ_le_succ (ih hd)

/-- A line is passed over without a count, if no newline came before it. -/
theorem blockEnd_line {line rest : Bytes} (h : newline ∉ line) :
    blockEnd 0 (line ++ newline :: rest) = (blockEnd 1 rest).map (· + (line.length + 1)) := by
  induction line with
  | nil => rfl
  | cons b line ih =>
    rw [List.mem_cons, not_or] at h
    obtain ⟨hb, hline⟩ := h
    rw [List.cons_append, blockEnd, ih hline, Option.map_map]
    split
    · rfl
    · rw [if_neg (fun he => hb he.symm)]
      rfl

/-- A byte that is no carriage return sets the count back. -/
theorem blockEnd_line_of_mem {b : UInt8} {line rest : Bytes} (h : newline ∉ line) (hm : b ∈ line)
    (hb : b ≠ carriageReturn) :
    blockEnd newlines (line ++ newline :: rest) = (blockEnd 1 rest).map (· + (line.length + 1)) := by
  induction line with
  | nil => cases hm
  | cons c line ih =>
    rw [List.mem_cons, not_or] at h
    obtain ⟨hc, hline⟩ := h
    rw [List.cons_append, blockEnd]
    split
    · next hreturn =>
      have hin : b ∈ line := (List.mem_cons.mp hm).resolve_left (fun he => hb (he.trans hreturn))
      rw [ih hline hin, Option.map_map]
      rfl
    · rw [if_neg (fun he => hc he.symm), blockEnd_line hline, Option.map_map]
      rfl

theorem blockEnd_newline {e : Nat} (h : blockEnd newlines xs = some e) : newline ∈ xs := by
  induction xs generalizing newlines e with
  | nil => cases h
  | cons b xs ih =>
    rw [blockEnd] at h
    split at h
    · obtain ⟨d, hd, -⟩ := Option.map_eq_some_iff.mp h
      exact List.mem_cons_of_mem _ (ih hd)
    · split at h
      · next hn =>
        rw [hn]
        exact List.mem_cons_self
      · obtain ⟨d, hd, -⟩ := Option.map_eq_some_iff.mp h
        exact List.mem_cons_of_mem _ (ih hd)

end Framing

/-- What the receiving loop ends with, and the bytes it has received. -/
inductive Fetched where
  | failed (bytes : Bytes)
  | tooLong (bytes : Bytes)
  | got (bytes : Bytes)

def Fetched.bytes : Fetched → Bytes
  | .failed bytes | .tooLong bytes | .got bytes => bytes

def Fetched.after (fragment : Bytes) : Fetched → Fetched
  | .failed bytes => .failed (fragment ++ bytes)
  | .tooLong bytes => .tooLong (fragment ++ bytes)
  | .got bytes => .got (fragment ++ bytes)

/-- The receiving loop without the buffer: the bytes alone decide how it goes on. -/
def fetchBlock : Nat → Nat → Nat → Socket → Except Fault (Fetched × Socket)
  | 0, _, _, _ => .error .diverged
  | fuel + 1, nbytes, newlines, sock => do
    match ← socketRead sock (sizeSub requestMaxLength nbytes) with
    | (none, sock) => .ok (.failed [], sock)
    | (some fragment, sock) =>
      if nbytes + fragment.length = requestMaxLength then .ok (.tooLong fragment, sock)
      else
        match scanFragment newlines fragment with
        | (true, _) => .ok (.got fragment, sock)
        | (false, newlines) => do
          let (fetched, sock) ← fetchBlock fuel (nbytes + fragment.length) newlines sock
          .ok (fetched.after fragment, sock)

/-- What the request becomes, with the bytes stored where the loop had got to. -/
def Fetched.stored (req : Request) (nbytes : Nat) : Fetched → Except Stop Nat × Request
  | .failed bytes =>
    let req := { req with buffer := store req.buffer nbytes bytes }
    (.error (.reject 400 (ascii "recv error") req), req)
  | .tooLong bytes =>
    let req := { req with buffer := store req.buffer nbytes bytes }
    (.error (.reject 413 (ascii "request too long") req), req)
  | .got bytes =>
    (.ok (nbytes + bytes.length),
      { req with
        buffer := store req.buffer nbytes bytes
        bufferFreespace := requestMaxLength - (nbytes + bytes.length) })

theorem Fetched.stored_after (req : Request) (nbytes : Nat) (fragment : Bytes) (fetched : Fetched) :
    fetched.stored { req with buffer := store req.buffer nbytes fragment } (nbytes + fragment.length) =
      (fetched.after fragment).stored req nbytes := by
  cases fetched <;> simp only [stored, after, store_append, List.length_append, Nat.add_assoc]

/-- The receiving loop is the loop on bytes, with its result stored. -/
theorem receive_eq (fuel : Nat) (req : Request) (hf : req.bufferFreespace = requestMaxLength)
    (nbytes newlines : Nat) (sock : Socket) :
    receive fuel req nbytes newlines sock =
      (fetchBlock fuel nbytes newlines sock).map (fun r =>
        ((r.1.stored req nbytes).1, (r.1.stored req nbytes).2, r.2)) := by
  induction fuel generalizing req nbytes newlines sock with
  | zero => rfl
  | succ fuel ih =>
    have hroom : sizeSub req.bufferFreespace nbytes = sizeSub requestMaxLength nbytes := by rw [hf]
    rw [receive, fetchBlock, hroom]
    cases socketRead sock (sizeSub requestMaxLength nbytes) with
    | error fault => rfl
    | ok r =>
      obtain ⟨reply, sock1⟩ := r
      cases reply with
      | none => simp [Fetched.stored, store_nil, Except.map]
      | some fragment =>
        simp only [fault_ok_bind]
        by_cases hfull : nbytes + fragment.length = requestMaxLength
        · rw [if_pos hfull, if_pos (hfull.trans hf.symm)]
          rfl
        · rw [if_neg hfull, if_neg (fun h => hfull (h.trans hf))]
          cases scanFragment newlines fragment with
          | mk found newlines' =>
            cases found with
            | true =>
              simp only [hf, Except.map, Fetched.stored]
            | false =>
              have hstored := ih { req with buffer := store req.buffer nbytes fragment } hf
                (nbytes + fragment.length) newlines' sock1
              dsimp only
              rw [hstored]
              cases fetchBlock fuel (nbytes + fragment.length) newlines' sock1 with
              | error fault => rfl
              | ok r => simp only [Except.map, Fetched.stored_after, fault_ok_bind]

/-- Reading goes on after the bytes `done`: none of them ended a block, and there is room. -/
structure Receiving (done : Bytes) (newlines : Nat) : Prop where
  scan : scanFragment 0 done = (false, newlines)
  room : done.length < requestMaxLength

theorem Receiving.start : Receiving [] 0 := ⟨rfl, by decide⟩

def Fetched.Holds (done : Bytes) : Fetched → Prop
  | .failed _ => True
  | .tooLong bytes => (done ++ bytes).length = requestMaxLength
  | .got bytes => (done ++ bytes).length < requestMaxLength ∧ ∃ stop, blockEnd 0 (done ++ bytes) = some stop

theorem Fetched.bytes_after (fragment : Bytes) (fetched : Fetched) :
    (fetched.after fragment).bytes = fragment ++ fetched.bytes := by
  cases fetched <;> rfl

theorem Fetched.Holds.after {done fragment : Bytes} {fetched : Fetched}
    (h : fetched.Holds (done ++ fragment)) : (fetched.after fragment).Holds done := by
  cases fetched with
  | failed bytes => trivial
  | tooLong bytes => rwa [Fetched.Holds, List.append_assoc] at h
  | got bytes => rwa [Fetched.Holds, List.append_assoc] at h

private theorem room_pos {done : Bytes} (h : done.length < requestMaxLength) :
    sizeSub requestMaxLength done.length = requestMaxLength - done.length ∧
      0 < requestMaxLength - done.length :=
  ⟨sizeSub_of_le h.le (by decide), Nat.sub_pos_of_lt h⟩

/-- The receiving loop returns, and takes a front part off the stream. -/
theorem fetchBlock_spec (fuel : Nat) {done : Bytes} {newlines : Nat} (h : Receiving done newlines)
    (hfuel : requestMaxLength < fuel + done.length) {sock : Socket} (hw : sock.WellFormed) :
    ∃ fetched sock', fetchBlock fuel done.length newlines sock = .ok (fetched, sock') ∧
      sock'.WellFormed ∧ sock.pending = fetched.bytes ++ sock'.pending ∧ fetched.Holds done := by
  induction fuel generalizing done newlines sock with
  | zero => exact absurd h.room (by omega)
  | succ fuel ih =>
    obtain ⟨hsize, hpos⟩ := room_pos h.room
    obtain ⟨reply, sock1, hread, hw1, hsome, hnone⟩ := socketRead_spec hw hpos
    rw [fetchBlock, hsize, hread, fault_ok_bind]
    cases reply with
    | none => exact ⟨.failed [], sock1, rfl, hw1, (hnone rfl).symm, trivial⟩
    | some fragment =>
      obtain ⟨hne, hle, hpend⟩ := hsome fragment rfl
      have hfrag : 0 < fragment.length := List.length_pos_iff.mpr hne
      dsimp only
      by_cases hfull : done.length + fragment.length = requestMaxLength
      · rw [if_pos hfull]
        exact ⟨.tooLong fragment, sock1, rfl, hw1, hpend, by rwa [Fetched.Holds, List.length_append]⟩
      · rw [if_neg hfull]
        have hlt : (done ++ fragment).length < requestMaxLength := by
          rw [List.length_append]
          omega
        have hboth : scanFragment 0 (done ++ fragment) = scanFragment newlines fragment :=
          scanFragment_append h.scan
        cases hscan : scanFragment newlines fragment with
        | mk found newlines' =>
          cases found with
          | true =>
            have hfound := scanFragment_fst 0 (done ++ fragment)
            rw [hboth, hscan] at hfound
            exact ⟨.got fragment, sock1, rfl, hw1, hpend, hlt, Option.isSome_iff_exists.mp hfound.symm⟩
          | false =>
            have hnext : Receiving (done ++ fragment) newlines' := ⟨by rw [hboth, hscan], hlt⟩
            obtain ⟨fetched, sock', he, hw', hp, hh⟩ := ih hnext
              (by rw [List.length_append]; omega) hw1
            rw [List.length_append] at he
            refine ⟨fetched.after fragment, sock', ?_, hw', ?_, hh.after⟩
            · dsimp only
              rw [he]
              rfl
            · rw [hpend, hp, Fetched.bytes_after, List.append_assoc]

/-- The same for a whole request: what is received, and what the call goes on with. -/
theorem receive_spec {sock : Socket} (hw : sock.WellFormed) :
    ∃ fetched sock', sock'.WellFormed ∧ sock.pending = fetched.bytes ++ sock'.pending ∧
      fetched.Holds [] ∧ fetchBlock (requestMaxLength + 1) 0 0 sock = .ok (fetched, sock') ∧
      ∀ req : Request, receive (requestMaxLength + 1) (startRequest req) 0 0 sock =
        .ok ((fetched.stored (startRequest req) 0).1, (fetched.stored (startRequest req) 0).2, sock') := by
  obtain ⟨fetched, sock', he, hw', hp, hh⟩ :=
    fetchBlock_spec (requestMaxLength + 1) Receiving.start (Nat.lt_succ_self _) hw
  refine ⟨fetched, sock', hw', hp, hh, he, fun req => ?_⟩
  have hr := receive_eq (requestMaxLength + 1) (startRequest req) rfl 0 0 sock
  rw [hr]
  exact congrArg _ he

end CFlare.Http
