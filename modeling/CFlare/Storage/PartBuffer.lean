import CFlare.Library.Heap
import CFlare.Library.Simulation
import Mathlib.Algebra.Ring.Nat
import Mathlib.Data.List.Forall2

/-! Buffers that collect parts of a text. A part is a copy of what was appended, or a pointer to it; the text is put
together when it is built. The bytes of the caller and the copies are in heaps of their own. -/
namespace CFlare.Storage
open CFlare.Library

/-- Where bytes of the caller are: a block and a place in it. -/
structure DataPointer where
  address : Nat
  offset : Nat
  deriving DecidableEq, Repr

/-- What `memcpy` reads there. -/
def loadBytes (heap : Heap Bytes) (p : DataPointer) (len : Nat) : Except Fault Bytes :=
  match heap.read p.address with
  | none => .error .undefined
  | some block => if p.offset + len ≤ block.length then .ok ((block.drop p.offset).take len) else .error .overrun

inductive PartPointer where
  | data (p : DataPointer)
  | copy (address : Nat)
  deriving DecidableEq, Repr

structure BufferPart where
  length : Nat
  pointer : PartPointer
  deriving DecidableEq, Repr

/-- The array has room for `allocCount` parts. -/
structure PartBuffer where
  needsCopy : Bool
  reversed : Bool
  nullchar : Bool
  length : Nat
  allocCount : Nat
  parts : List BufferPart

def bufferNoCopy : UInt32 := 1
def bufferReverse : UInt32 := 2
def bufferNullChar : UInt32 := 4
def partSize : Nat := 16

/-- A buffer with the bytes of the caller and the copies. -/
structure BufferWorld where
  data : Heap Bytes
  copies : Heap Bytes
  buffer : PartBuffer

/-- A reversed buffer ends the program. -/
def bufferNew (opts : UInt32) : Except Fault PartBuffer :=
  if opts &&& bufferReverse ≠ 0 then .error .abort
  else .ok ⟨opts &&& bufferNoCopy = 0, opts &&& bufferReverse ≠ 0, opts &&& bufferNullChar ≠ 0, 0, 8, []⟩

/-- How many parts an array has room for. Its size in bytes is what wraps. -/
def partsRoom (allocCount : Nat) : Nat := partSize * allocCount % sizeLimit / partSize

/-- One more part in the array, which is allocated anew when it gets full. -/
def addPart (w : BufferWorld) (copies : Heap Bytes) (part : BufferPart) : Except Fault BufferWorld :=
  let allocCount :=
    if w.buffer.allocCount ≤ sizeAdd w.buffer.parts.length 1 then w.buffer.allocCount * 2 % sizeLimit
    else w.buffer.allocCount
  if w.buffer.parts.length < partsRoom allocCount then
    .ok { w with
      copies := copies
      buffer := { w.buffer with
        length := sizeAdd w.buffer.length part.length
        allocCount := allocCount
        parts := w.buffer.parts ++ [part] } }
  else .error .overrun

def bufferAppend (w : BufferWorld) (data : DataPointer) (len : Nat) : Except Fault BufferWorld :=
  if w.buffer.needsCopy then do
    let newdata ← loadBytes w.data data len
    addPart w (w.copies.alloc newdata) ⟨len, .copy w.copies.next⟩
  else addPart w w.copies ⟨len, .data data⟩

/-- The bytes of a part. -/
def loadPart (w : BufferWorld) (part : BufferPart) : Except Fault Bytes :=
  match part.pointer with
  | .data p => loadBytes w.data p part.length
  | .copy address => loadBytes w.copies ⟨address, 0⟩ part.length

/-- The parts are copied one behind the other. -/
def copyParts (w : BufferWorld) (size : Nat) : List BufferPart → Memory → Nat → Except Fault (Memory × Nat)
  | [], ret, position => .ok (ret, position)
  | part :: parts, ret, position => do
    let bytes ← loadPart w part
    if position + part.length ≤ size then copyParts w size parts (store ret position bytes) (position + part.length)
    else .error .overrun

/-- The text is a new block of the caller. What is in it when it is allocated is never read. -/
def bufferBuild (w : BufferWorld) : Except Fault (Nat × BufferWorld) := do
  let size := if w.buffer.nullchar then sizeAdd w.buffer.length 1 else w.buffer.length
  let (ret, position) ← copyParts w size w.buffer.parts (fun _ => 0) 0
  let ret ←
    if w.buffer.nullchar then
      if position < size then .ok (store ret position [0]) else .error .overrun
    else .ok ret
  .ok (w.data.next, { w with data := w.data.alloc (slice ret 0 size) })

def freePart (copies : Heap Bytes) (part : BufferPart) : Except Fault (Heap Bytes) :=
  match part.pointer with
  | .data _ => .error .undefined
  | .copy address => copies.free address

/-- The copies are freed. What is left of them is the result. -/
def bufferDelete (w : BufferWorld) : Except Fault (Heap Bytes) :=
  if w.buffer.needsCopy then w.buffer.parts.foldlM freePart w.copies else .ok w.copies

def bufferLength (buffer : PartBuffer) : Nat := buffer.length
def bufferParts (buffer : PartBuffer) : Nat := buffer.parts.length

/-- What the caller does with blocks of its own. -/
inductive DataCall where
  | malloc (bytes : Bytes)
  | write (data : DataPointer) (bytes : Bytes)
  | free (address : Nat)
  deriving DecidableEq, Repr

inductive BufferCall where
  | append (data : DataPointer) (len : Nat)
  | build
  | length
  | parts
  | own (call : DataCall)
  deriving DecidableEq, Repr

/-- A built text is answered by its address. -/
inductive BufferReply where
  | done
  | address (a : Nat)
  | count (n : Nat)
  deriving DecidableEq, Repr

def dataCall (heap : Heap Bytes) : DataCall → Except Fault (BufferReply × Heap Bytes)
  | .malloc bytes => .ok (.address heap.next, heap.alloc bytes)
  | .write data bytes =>
    match heap.read data.address with
    | none => .error .undefined
    | some block =>
      if data.offset + bytes.length ≤ block.length then
        .ok (.done, heap.write data.address
          (block.take data.offset ++ bytes ++ block.drop (data.offset + bytes.length)))
      else .error .overrun
  | .free address => do
    let heap ← heap.free address
    .ok (.done, heap)

def bufferCall (w : BufferWorld) : BufferCall → Except Fault (BufferReply × BufferWorld)
  | .append data len => do
    let w ← bufferAppend w data len
    .ok (.done, w)
  | .build => do
    let (address, w) ← bufferBuild w
    .ok (.address address, w)
  | .length => .ok (.count (bufferLength w.buffer), w)
  | .parts => .ok (.count (bufferParts w.buffer), w)
  | .own call => do
    let (reply, data) ← dataCall w.data call
    .ok (reply, { w with data := data })

/-- What a buffer is for: the pieces of a text, each with its bytes, or where they will be when they are asked for. -/
inductive Piece where
  | text (bytes : Bytes)
  | pointed (data : DataPointer) (len : Nat)
  deriving DecidableEq, Repr

namespace Piece

def length : Piece → Nat
  | text bytes => bytes.length
  | pointed _ len => len

def bytes (heap : Heap Bytes) : Piece → Except Fault Bytes
  | text bytes => .ok bytes
  | pointed data len => loadBytes heap data len

end Piece

/-- The calls, as they are seen from outside. -/
def textCall (copying nullchar : Bool) (s : Heap Bytes × List Piece) :
    BufferCall → Except Fault (BufferReply × Heap Bytes × List Piece)
  | .append data len =>
    if copying then do
      let bytes ← loadBytes s.1 data len
      .ok (.done, s.1, s.2 ++ [.text bytes])
    else .ok (.done, s.1, s.2 ++ [.pointed data len])
  | .build => do
    let texts ← s.2.mapM (Piece.bytes s.1)
    .ok (.address s.1.next, s.1.alloc (texts.flatten ++ if nullchar then [0] else []), s.2)
  | .length => .ok (.count (s.2.map Piece.length).sum, s)
  | .parts => .ok (.count s.2.length, s)
  | .own call => do
    let (reply, data) ← dataCall s.1 call
    .ok (reply, data, s.2)

/-- How many bytes are appended. -/
def BufferCall.appended : BufferCall → Option Nat
  | .append _ len => some len
  | _ => none

def appendLengths (calls : List BufferCall) : List Nat := calls.filterMap BufferCall.appended

section Parts
variable {w : BufferWorld} {heap : Heap Bytes} {p : DataPointer} {len : Nat} {bytes : Bytes}

theorem loadBytes_length (h : loadBytes heap p len = .ok bytes) : bytes.length = len := by
  unfold loadBytes at h
  split at h
  · cases h
  · split at h
    · next hle =>
      obtain rfl := Except.ok.inj h
      rw [List.length_take, List.length_drop]
      omega
    · cases h

theorem loadPart_length {part : BufferPart} (h : loadPart w part = .ok bytes) : bytes.length = part.length := by
  unfold loadPart at h
  split at h <;> exact loadBytes_length h

theorem loadBytes_whole (h : heap.read p.address = some bytes) (hp : p.offset = 0) :
    loadBytes heap p bytes.length = .ok bytes := by
  simp [loadBytes, h, hp]

/-- Where there is room the parts are loaded and stored one behind the other. -/
theorem copyParts_eq {size position : Nat} (parts : List BufferPart) (ret : Memory)
    (hfit : position + (parts.map BufferPart.length).sum ≤ size) : copyParts w size parts ret position = (do
      let texts ← parts.mapM (loadPart w)
      .ok (store ret position texts.flatten, position + texts.flatten.length)) := by
  induction parts generalizing ret position with
  | nil =>
    rw [List.mapM_nil]
    show _ = Except.ok (store ret position [], position + 0)
    rw [store_nil]
    rfl
  | cons part parts ih =>
    rw [List.map_cons, List.sum_cons] at hfit
    rw [copyParts, List.mapM_cons]
    cases hload : loadPart w part with
    | error fault => rfl
    | ok bytes =>
      have hlen := loadPart_length hload
      rw [fault_ok_bind, if_pos (by omega), ih _ (by omega)]
      cases parts.mapM (loadPart w) with
      | error fault => rfl
      | ok texts =>
        show Except.ok _ =
          Except.ok (store ret position (bytes ++ texts.flatten), position + (bytes ++ texts.flatten).length)
        rw [← hlen, store_append, List.length_append, Nat.add_assoc]

end Parts

/-- The parts of copies, of which the first one has this address. -/
def copiesOf : Nat → List Bytes → List BufferPart
  | _, [] => []
  | address, text :: texts => ⟨text.length, .copy address⟩ :: copiesOf (address + 1) texts

/-- The parts and copies that a buffer keeps of its pieces. -/
inductive Kept : Bool → Heap Bytes → List BufferPart → List Piece → Prop where
  | copied (texts : List Bytes) : Kept true ⟨texts.map some⟩ (copiesOf 0 texts) (texts.map .text)
  | pointed (refs : List (DataPointer × Nat)) :
    Kept false .empty (refs.map fun ref => ⟨ref.2, .data ref.1⟩) (refs.map fun ref => .pointed ref.1 ref.2)

section Kept
variable {copying : Bool} {w : BufferWorld} {copies : Heap Bytes} {parts : List BufferPart} {pieces : List Piece}

theorem copiesOf_append (address : Nat) (texts : List Bytes) (text : Bytes) :
    copiesOf address (texts ++ [text]) = copiesOf address texts ++ [⟨text.length, .copy (address + texts.length)⟩] := by
  induction texts generalizing address with
  | nil => rfl
  | cons first texts ih =>
    rw [List.cons_append, copiesOf, copiesOf, ih, List.cons_append, List.length_cons, Nat.add_right_comm, Nat.add_assoc]

theorem Kept.copy (h : Kept true copies parts pieces) (bytes : Bytes) :
    Kept true (copies.alloc bytes) (parts ++ [⟨bytes.length, .copy copies.next⟩]) (pieces ++ [.text bytes]) := by
  cases h with
  | copied texts =>
    have hkept := Kept.copied (texts ++ [bytes])
    rw [copiesOf_append, List.map_append, List.map_append, Nat.zero_add] at hkept
    rw [Heap.next, List.length_map]
    exact hkept

theorem Kept.point (h : Kept false copies parts pieces) (data : DataPointer) (len : Nat) :
    Kept false copies (parts ++ [⟨len, .data data⟩]) (pieces ++ [.pointed data len]) := by
  cases h with
  | pointed refs =>
    have hkept := Kept.pointed (refs ++ [(data, len)])
    rwa [List.map_append, List.map_append] at hkept

theorem Kept.uncopied (h : Kept false copies parts pieces) : copies = .empty := by
  cases h
  rfl

theorem Kept.lengths (h : Kept copying copies parts pieces) :
    parts.map BufferPart.length = pieces.map Piece.length := by
  cases h with
  | copied texts =>
    suffices hall : ∀ address, (copiesOf address texts).map BufferPart.length = (texts.map Piece.text).map Piece.length from
      hall 0
    induction texts with
    | nil => exact fun address => rfl
    | cons text texts ih => exact fun address => congrArg _ (ih (address + 1))
  | pointed refs =>
    rw [List.map_map, List.map_map]
    rfl

theorem Kept.count (h : Kept copying copies parts pieces) : parts.length = pieces.length := by
  simpa using congrArg List.length h.lengths

theorem copiesOf_loads (texts : List Bytes) (front : List (Option Bytes))
    (h : w.copies.blocks = front ++ texts.map some) : (copiesOf front.length texts).mapM (loadPart w) = .ok texts := by
  induction texts generalizing front with
  | nil => rfl
  | cons text texts ih =>
    have hread : w.copies.read front.length = some text := by
      rw [Heap.read, h, List.map_cons, List.getElem?_append_right (Nat.le_refl _), Nat.sub_self]
      rfl
    have hfirst : loadPart w ⟨text.length, .copy front.length⟩ = .ok text := loadBytes_whole hread rfl
    have hrest := ih (front ++ [some text]) (by simpa using h)
    rw [List.length_append, List.length_singleton] at hrest
    rw [copiesOf, List.mapM_cons, hfirst, fault_ok_bind, hrest]
    rfl

theorem texts_bytes (heap : Heap Bytes) (texts : List Bytes) :
    (texts.map Piece.text).mapM (Piece.bytes heap) = .ok texts := by
  induction texts with
  | nil => rfl
  | cons text texts ih =>
    rw [List.map_cons, List.mapM_cons, ih]
    rfl

theorem Kept.loads (h : Kept copying w.copies parts pieces) :
    parts.mapM (loadPart w) = pieces.mapM (Piece.bytes w.data) := by
  generalize hcopies : w.copies = copies at h
  cases h with
  | copied texts =>
    rw [texts_bytes]
    exact copiesOf_loads texts [] (by rw [hcopies]; rfl)
  | pointed refs =>
    rw [List.mapM_map, List.mapM_map]
    rfl

theorem copiesOf_freed (texts : List Bytes) (front : List (Option Bytes)) :
    (copiesOf front.length texts).foldlM freePart ⟨front ++ texts.map some⟩ =
      .ok ⟨front ++ List.replicate texts.length none⟩ := by
  induction texts generalizing front with
  | nil => rfl
  | cons text texts ih =>
    have hread : Heap.read ⟨front ++ (text :: texts).map some⟩ front.length = some text := by
      rw [Heap.read, List.map_cons, List.getElem?_append_right (Nat.le_refl _), Nat.sub_self]
      rfl
    have hfree : freePart ⟨front ++ (text :: texts).map some⟩ ⟨text.length, .copy front.length⟩ =
        .ok ⟨front ++ [none] ++ texts.map some⟩ := by
      show Heap.free ⟨front ++ (text :: texts).map some⟩ front.length = _
      rw [Heap.free_ok hread]
      simp
    have hrest := ih (front ++ [none])
    rw [List.length_append, List.length_singleton] at hrest
    rw [copiesOf, List.foldlM_cons, hfree, fault_ok_bind, hrest, List.length_cons, List.replicate_succ]
    simp

/-- Every copy is freed, and nothing else. -/
theorem Kept.freed (h : Kept w.buffer.needsCopy w.copies w.buffer.parts pieces) :
    ∃ left, bufferDelete w = .ok left ∧ left.contents = [] := by
  rw [bufferDelete]
  generalize w.buffer.needsCopy = copying at h
  generalize w.copies = copies at h
  generalize w.buffer.parts = parts at h
  cases h with
  | copied texts =>
    refine ⟨⟨List.replicate texts.length none⟩, ?_, ?_⟩
    · rw [if_pos rfl]
      exact copiesOf_freed texts []
    · simp [Heap.contents]
  | pointed refs => exact ⟨.empty, rfl, rfl⟩

end Kept

/-- A buffer that holds the pieces, while these calls are still to come. -/
structure Collects (copying nullchar : Bool) (calls : List BufferCall) (w : BufferWorld) (s : Heap Bytes × List Piece) :
    Prop where
  data : w.data = s.1
  mode : w.buffer.needsCopy = copying
  null : w.buffer.nullchar = nullchar
  length : w.buffer.length = (s.2.map Piece.length).sum
  kept : Kept copying w.copies w.buffer.parts s.2
  room : w.buffer.parts.length < w.buffer.allocCount
  grown : w.buffer.allocCount ≤ 8 ∨ w.buffer.allocCount ≤ 2 * w.buffer.parts.length
  fits : (s.2.map Piece.length).sum + (appendLengths calls).sum + 1 < sizeLimit
  few : s.2.length + (appendLengths calls).length ≤ 2^58

section Collects
variable {copying nullchar : Bool} {calls : List BufferCall} {w : BufferWorld} {s : Heap Bytes × List Piece}

/-- A call that appends nothing leaves as much room as before. -/
theorem Collects.passes {call : BufferCall} (h : Collects copying nullchar (call :: calls) w s)
    (hcall : call.appended = none) : Collects copying nullchar calls w s := by
  have hlengths : appendLengths (call :: calls) = appendLengths calls := List.filterMap_cons_none hcall
  have hfits := h.fits
  have hfew := h.few
  rw [hlengths] at hfits hfew
  exact ⟨h.data, h.mode, h.null, h.length, h.kept, h.room, h.grown, hfits, hfew⟩

/-- The blocks of the caller are not those of the buffer. -/
theorem Collects.withData (h : Collects copying nullchar calls w s) (data : Heap Bytes) :
    Collects copying nullchar calls { w with data := data } (data, s.2) :=
  ⟨rfl, h.mode, h.null, h.length, h.kept, h.room, h.grown, h.fits, h.few⟩

/-- The array has room for one more part, after it was doubled if need be. -/
theorem partsRoom_spec {count allocCount : Nat} (hroom : count < allocCount)
    (hgrown : allocCount ≤ 8 ∨ allocCount ≤ 2 * count) (hfew : count < 2^58) :
    ∃ allocCount', (if allocCount ≤ sizeAdd count 1 then allocCount * 2 % sizeLimit else allocCount) = allocCount' ∧
      count < partsRoom allocCount' ∧ count + 1 < allocCount' ∧ (allocCount' ≤ 8 ∨ allocCount' ≤ 2 * (count + 1)) := by
  have hadd : sizeAdd count 1 = count + 1 := sizeAdd_of_lt (by rw [sizeLimit]; omega)
  have hdouble : allocCount * 2 % sizeLimit = allocCount * 2 := Nat.mod_eq_of_lt (by rw [sizeLimit]; omega)
  have hall : ∀ n, n < 2^60 → partsRoom n = n := by
    intro n hn
    rw [partsRoom, partSize, Nat.mod_eq_of_lt (by rw [sizeLimit]; omega)]
    exact Nat.mul_div_cancel_left n (by decide)
  rw [hadd, hdouble]
  refine ⟨_, rfl, ?_⟩
  by_cases hfull : allocCount ≤ count + 1
  · rw [if_pos hfull, hall _ (by omega)]
    omega
  · rw [if_neg hfull, hall _ (by omega)]
    omega

/-- A part for a piece as long as what was appended. -/
theorem Collects.addPart {data : DataPointer} {len : Nat}
    (h : Collects copying nullchar (.append data len :: calls) w s) {copies : Heap Bytes} {pointer : PartPointer}
    {piece : Piece} (hpiece : piece.length = len)
    (hkept : Kept copying copies (w.buffer.parts ++ [⟨len, pointer⟩]) (s.2 ++ [piece])) :
    ∃ w', addPart w copies ⟨len, pointer⟩ = .ok w' ∧ Collects copying nullchar calls w' (s.1, s.2 ++ [piece]) := by
  have hlengths : appendLengths (.append data len :: calls) = len :: appendLengths calls := rfl
  have hfits := h.fits
  have hfew := h.few
  have hcount := h.kept.count
  rw [hlengths, List.sum_cons] at hfits
  rw [hlengths, List.length_cons] at hfew
  obtain ⟨allocCount, halloc, hroom, hnext, hgrown⟩ := partsRoom_spec h.room h.grown (by omega)
  have htotal : ((s.2 ++ [piece]).map Piece.length).sum = (s.2.map Piece.length).sum + len := by simp [hpiece]
  have hsum : sizeAdd w.buffer.length len = ((s.2 ++ [piece]).map Piece.length).sum := by
    rw [htotal, h.length]
    exact sizeAdd_of_lt (by omega)
  rw [Storage.addPart, halloc]
  refine ⟨_, if_pos hroom, h.data, h.mode, h.null, hsum, hkept, ?_, ?_, ?_, ?_⟩
  · simpa using hnext
  · simpa using hgrown
  · rw [htotal]
    omega
  · rw [List.length_append, List.length_singleton]
    omega

theorem Collects.append {data : DataPointer} {len : Nat}
    (h : Collects copying nullchar (.append data len :: calls) w s) :
    Agrees (fun _ => False) Eq (fun r r' => r.1 = r'.1 ∧ Collects copying nullchar calls r.2 r'.2)
      (bufferCall w (.append data len)) (textCall copying nullchar s (.append data len)) := by
  rw [bufferCall, textCall, bufferAppend, h.mode]
  cases copying with
  | false =>
    obtain ⟨w', he, h'⟩ := h.addPart rfl (h.kept.point data len)
    rw [if_neg Bool.false_ne_true, if_neg Bool.false_ne_true, he]
    exact .ok ⟨rfl, h'⟩
  | true =>
    rw [if_pos rfl, if_pos rfl, h.data]
    cases hload : loadBytes s.1 data len with
    | error fault => exact .error rfl
    | ok bytes =>
      obtain rfl := loadBytes_length hload
      obtain ⟨w', he, h'⟩ := h.addPart rfl (h.kept.copy bytes)
      rw [fault_ok_bind, he]
      exact .ok ⟨rfl, h'⟩

theorem mapM_lengths {heap : Heap Bytes} {pieces : List Piece} {texts : List Bytes}
    (h : pieces.mapM (Piece.bytes heap) = .ok texts) : texts.flatten.length = (pieces.map Piece.length).sum := by
  induction pieces generalizing texts with
  | nil =>
    obtain rfl := Except.ok.inj h
    rfl
  | cons piece pieces ih =>
    rw [List.mapM_cons] at h
    obtain ⟨text, htext, h⟩ := bind_eq_ok.mp h
    obtain ⟨rest, hrest, h⟩ := bind_eq_ok.mp h
    obtain rfl := Except.ok.inj h
    have hlen : text.length = piece.length := by
      cases piece with
      | text bytes =>
        obtain rfl := Except.ok.inj htext
        rfl
      | pointed data len => exact loadBytes_length htext
    rw [List.flatten_cons, List.length_append, List.map_cons, List.sum_cons, hlen, ih hrest]

/-- The text that is built is that of the pieces. -/
theorem Collects.builds (h : Collects copying nullchar calls w s) : bufferBuild w = (do
    let texts ← s.2.mapM (Piece.bytes s.1)
    .ok (s.1.next, { w with data := s.1.alloc (texts.flatten ++ if nullchar then [0] else []) })) := by
  have hfits := h.fits
  have hlength := h.length
  obtain ⟨size, hsize⟩ : ∃ size, size = if nullchar then sizeAdd w.buffer.length 1 else w.buffer.length := ⟨_, rfl⟩
  have hroom : size = w.buffer.length + if nullchar then 1 else 0 := by
    rw [hsize]
    cases nullchar with
    | false => rfl
    | true => exact sizeAdd_of_lt (by omega)
  have hcopy : copyParts w size w.buffer.parts (fun _ => 0) 0 = (do
      let texts ← w.buffer.parts.mapM (loadPart w)
      .ok (store (fun _ => 0) 0 texts.flatten, 0 + texts.flatten.length)) :=
    copyParts_eq _ _ (by rw [h.kept.lengths, ← hlength]; omega)
  rw [bufferBuild, h.null, ← hsize]
  dsimp only
  rw [hcopy, h.kept.loads, h.data]
  cases htexts : s.2.mapM (Piece.bytes s.1) with
  | error fault => rfl
  | ok texts =>
    have htotal := mapM_lengths htexts
    rw [fault_ok_bind, fault_ok_bind, fault_ok_bind]
    cases nullchar with
    | false =>
      obtain rfl : size = texts.flatten.length := by
        rw [htotal, ← hlength]
        exact hroom
      simp only [Bool.false_eq_true, if_false, fault_ok_bind, slice_store, List.append_nil]
    | true =>
      obtain rfl : size = (texts.flatten ++ [0]).length := by
        rw [List.length_append, htotal, ← hlength]
        exact hroom
      have hlast : 0 + texts.flatten.length < (texts.flatten ++ [0]).length := by simp
      simp only [if_true, if_pos hlast, fault_ok_bind, store_append, slice_store]

theorem Collects.call (call : BufferCall) (calls : List BufferCall) (w : BufferWorld) (s : Heap Bytes × List Piece)
    (h : Collects copying nullchar (call :: calls) w s) :
    Agrees (fun _ => False) Eq (fun r r' => r.1 = r'.1 ∧ Collects copying nullchar calls r.2 r'.2)
      (bufferCall w call) (textCall copying nullchar s call) := by
  cases call with
  | append data len => exact h.append
  | build =>
    rw [bufferCall, textCall, h.builds]
    cases s.2.mapM (Piece.bytes s.1) with
    | error fault => exact .error rfl
    | ok texts => exact .ok ⟨rfl, (h.passes rfl).withData _⟩
  | length => exact .ok ⟨congrArg BufferReply.count h.length, h.passes rfl⟩
  | parts => exact .ok ⟨congrArg BufferReply.count h.kept.count, h.passes rfl⟩
  | own call =>
    rw [bufferCall, textCall, h.data]
    cases dataCall s.1 call with
    | error fault => exact .error rfl
    | ok r => exact .ok ⟨rfl, (h.passes rfl).withData r.2⟩

end Collects

section Runs
variable {opts : UInt32} {calls : List BufferCall}

theorem bufferNew_forward (hopts : opts &&& bufferReverse = 0) :
    bufferNew opts = .ok ⟨opts &&& bufferNoCopy = 0, false, opts &&& bufferNullChar ≠ 0, 0, 8, []⟩ := by
  rw [bufferNew, if_neg (not_not.mpr hopts), hopts]
  rfl

theorem collects_new (copying nullchar : Bool) (data : Heap Bytes) (hsum : (appendLengths calls).sum + 1 < sizeLimit)
    (hcount : (appendLengths calls).length ≤ 2^58) :
    Collects copying nullchar calls ⟨data, .empty, ⟨copying, false, nullchar, 0, 8, []⟩⟩ (data, []) := by
  have hkept : Kept copying .empty [] [] := by
    cases copying with
    | true => exact .copied []
    | false => exact .pointed []
  exact ⟨rfl, rfl, rfl, rfl, hkept, Nat.succ_pos 7, .inl (Nat.le_refl 8), by simpa using hsum, by simpa using hcount⟩

/-- A buffer answers as the pieces of its text do, whatever its caller does with its own blocks in between, and it
fails where they do. When it is deleted every copy has been freed. -/
theorem buffer_refines (opts : UInt32) (hopts : opts &&& bufferReverse = 0) (calls : List BufferCall)
    (hsum : (appendLengths calls).sum + 1 < sizeLimit) (hcount : (appendLengths calls).length ≤ 2^58)
    (data : Heap Bytes) :
    ∃ buffer, bufferNew opts = .ok buffer ∧
      Agrees (fun _ => False) Eq
        (fun r r' => r.1 = r'.1 ∧ r.2.data = r'.2.1 ∧ ∃ left, bufferDelete r.2 = .ok left ∧ left.contents = [])
        (runCalls bufferCall ⟨data, .empty, buffer⟩ calls)
        (runCalls (textCall (opts &&& bufferNoCopy = 0) (opts &&& bufferNullChar ≠ 0)) (data, []) calls) := by
  refine ⟨_, bufferNew_forward hopts, ?_⟩
  have hstart := collects_new (opts &&& bufferNoCopy = 0) (opts &&& bufferNullChar ≠ 0) data hsum hcount
  rcases (runCalls_agrees (Collects _ _) Collects.call hstart).outcomes with
    ⟨r, r', hrun, hrun', hreplies, h⟩ | ⟨fault, hrun, hrun'⟩
  · rw [hrun, hrun']
    exact .ok ⟨hreplies, h.data, Kept.freed (by rw [h.mode]; exact h.kept)⟩
  · rw [hrun, hrun']
    exact .error rfl

end Runs

/-- No block is written to or freed once something of it was appended. -/
def LeavesAppended : List Nat → List BufferCall → Prop
  | _, [] => True
  | seen, .append data _ :: calls => LeavesAppended (data.address :: seen) calls
  | seen, .own (.write data _) :: calls => data.address ∉ seen ∧ LeavesAppended seen calls
  | seen, .own (.free address) :: calls => address ∉ seen ∧ LeavesAppended seen calls
  | seen, _ :: calls => LeavesAppended seen calls

/-- A pointer to what was copied. -/
inductive SamePiece (heap : Heap Bytes) (seen : List Nat) : Piece → Piece → Prop where
  | piece {data : DataPointer} {len : Nat} {bytes : Bytes} (loads : loadBytes heap data len = .ok bytes)
    (mem : data.address ∈ seen) : SamePiece heap seen (.text bytes) (.pointed data len)

/-- The same pieces, copied and not. -/
def SamePieces (calls : List BufferCall) (s t : Heap Bytes × List Piece) : Prop :=
  t.1 = s.1 ∧ ∃ seen, LeavesAppended seen calls ∧ List.Forall₂ (SamePiece s.1 seen) s.2 t.2

section Sharing
variable {heap heap' : Heap Bytes} {seen : List Nat} {pieces pieces' : List Piece} {reply : BufferReply}

theorem SamePiece.keep {a b : Piece} (h : SamePiece heap seen a b) (hread : ∀ address ∈ seen, ∀ bytes,
    heap.read address = some bytes → heap'.read address = some bytes) : SamePiece heap' seen a b := by
  cases h with
  | @piece data len bytes loads mem =>
    refine .piece ?_ mem
    rw [← loads, loadBytes, loadBytes]
    cases hblock : heap.read data.address with
    | none =>
      rw [loadBytes, hblock] at loads
      cases loads
    | some block => rw [hread _ mem block hblock]

/-- What was copied is what is pointed to. -/
theorem points_bytes (h : List.Forall₂ (SamePiece heap seen) pieces pieces') :
    pieces'.mapM (Piece.bytes heap) = pieces.mapM (Piece.bytes heap) := by
  induction h with
  | nil => rfl
  | cons hp hrest ih =>
    cases hp with
    | piece loads mem =>
      rw [List.mapM_cons, List.mapM_cons, ih]
      exact congrArg (· >>= _) loads

theorem points_lengths (h : List.Forall₂ (SamePiece heap seen) pieces pieces') :
    pieces'.map Piece.length = pieces.map Piece.length := by
  induction h with
  | nil => rfl
  | cons hp hrest ih =>
    cases hp with
    | piece loads mem =>
      rw [List.map_cons, List.map_cons, ih]
      exact congrArg (· :: _) (loadBytes_length loads).symm

/-- A call of the caller that leaves what was appended. -/
theorem dataCall_keeps {call : DataCall} {calls : List BufferCall} (hleaves : LeavesAppended seen (.own call :: calls))
    (hcall : dataCall heap call = .ok (reply, heap')) : LeavesAppended seen calls ∧ ∀ address ∈ seen, ∀ bytes,
      heap.read address = some bytes → heap'.read address = some bytes := by
  cases call with
  | malloc text =>
    obtain ⟨-, rfl⟩ := Prod.mk.inj (Except.ok.inj hcall)
    exact ⟨hleaves, fun address _ bytes hread => Heap.read_alloc_old hread text⟩
  | write data text =>
    refine ⟨hleaves.2, fun address hm bytes hread => ?_⟩
    rw [dataCall] at hcall
    split at hcall
    · cases hcall
    · split at hcall
      · obtain ⟨-, rfl⟩ := Prod.mk.inj (Except.ok.inj hcall)
        rwa [Heap.read_write_other _ (ne_of_mem_of_not_mem hm hleaves.1)]
      · cases hcall
  | free freed =>
    refine ⟨hleaves.2, fun address hm bytes hread => ?_⟩
    obtain ⟨left, hfree, he⟩ := bind_eq_ok.mp hcall
    obtain ⟨-, rfl⟩ := Prod.mk.inj (Except.ok.inj he)
    rwa [Heap.read_free_other hfree (ne_of_mem_of_not_mem hm hleaves.1)]

/-- Where copies are made the call returns only if the bytes are there; then pointers do as well. -/
theorem SamePieces.call {nullchar : Bool} (call : BufferCall) (calls : List BufferCall) (s t : Heap Bytes × List Piece)
    (h : SamePieces (call :: calls) s t) :
    Agrees (fun _ => True) Eq (fun r r' => r.1 = r'.1 ∧ SamePieces calls r.2 r'.2)
      (textCall true nullchar s call) (textCall false nullchar t call) := by
  obtain ⟨_, pieces⟩ := s
  obtain ⟨heap, pieces'⟩ := t
  obtain ⟨rfl, seen, hleaves, hpoints⟩ := h
  dsimp only at hpoints
  cases call with
  | append data len =>
    rw [textCall, textCall, if_pos rfl, if_neg Bool.false_ne_true]
    cases hload : loadBytes heap data len with
    | error fault => exact .bad trivial
    | ok bytes =>
      have hall : List.Forall₂ (SamePiece heap (data.address :: seen)) pieces pieces' :=
        hpoints.imp fun a b hp => by
          cases hp with
          | piece loads mem => exact .piece loads (List.mem_cons_of_mem _ mem)
      exact .ok ⟨rfl, rfl, _, hleaves, List.rel_append hall (.cons (.piece hload List.mem_cons_self) .nil)⟩
  | build =>
    rw [textCall, textCall, points_bytes hpoints]
    cases pieces.mapM (Piece.bytes heap) with
    | error fault => exact .bad trivial
    | ok texts =>
      exact .ok ⟨rfl, rfl, seen, hleaves, hpoints.imp fun a b hp =>
        hp.keep fun address _ bytes hread => Heap.read_alloc_old hread _⟩
  | length =>
    rw [textCall, textCall, points_lengths hpoints]
    exact .ok ⟨rfl, rfl, seen, hleaves, hpoints⟩
  | parts =>
    exact .ok ⟨congrArg BufferReply.count hpoints.length_eq, rfl, seen, hleaves, hpoints⟩
  | own call =>
    rw [textCall, textCall]
    cases hcall : dataCall heap call with
    | error fault => exact .bad trivial
    | ok r =>
      obtain ⟨hrest, hread⟩ := dataCall_keeps hleaves hcall
      exact .ok ⟨rfl, rfl, seen, hrest, hpoints.imp fun a b hp => hp.keep hread⟩

end Sharing

/-- Copies are only a precaution: a buffer of pointers gives the answers of one of copies, and leaves the same bytes,
where the caller does not touch what it has appended. It allocates nothing for the parts. -/
theorem nocopy_agrees {opts opts' : UInt32} (hcopy : opts &&& bufferNoCopy = 0) (hpoint : opts' &&& bufferNoCopy ≠ 0)
    (hforward : opts &&& bufferReverse = 0 ∧ opts' &&& bufferReverse = 0)
    (hnull : opts &&& bufferNullChar = opts' &&& bufferNullChar) {calls : List BufferCall}
    (hsum : (appendLengths calls).sum + 1 < sizeLimit) (hcount : (appendLengths calls).length ≤ 2^58)
    (hleaves : LeavesAppended [] calls) {data : Heap Bytes} {buffer : PartBuffer} (hnew : bufferNew opts = .ok buffer)
    {replies : List BufferReply} {w : BufferWorld}
    (hrun : runCalls bufferCall ⟨data, .empty, buffer⟩ calls = .ok (replies, w)) :
    ∃ buffer' w', bufferNew opts' = .ok buffer' ∧
      runCalls bufferCall ⟨data, .empty, buffer'⟩ calls = .ok (replies, w') ∧ w'.data = w.data ∧ w'.copies = .empty := by
  obtain ⟨nullchar, hnullchar⟩ : ∃ nullchar : Bool, nullchar = decide (opts' &&& bufferNullChar ≠ 0) := ⟨_, rfl⟩
  have hnew' : bufferNew opts' = .ok ⟨false, false, nullchar, 0, 8, []⟩ := by
    rw [bufferNew_forward hforward.2, decide_eq_false hpoint, hnullchar]
  rw [bufferNew_forward hforward.1, hnull, ← hnullchar, hcopy] at hnew
  obtain rfl := Except.ok.inj hnew
  -- each buffer answers as its pieces do, and so do the two lists of pieces
  have hcopied := runCalls_agrees (Collects true nullchar) Collects.call (collects_new true nullchar data hsum hcount)
  have hpointed := runCalls_agrees (Collects false nullchar) Collects.call (collects_new false nullchar data hsum hcount)
  have hsame : Agrees (fun _ => True) Eq (fun r r' => r.1 = r'.1 ∧ SamePieces [] r.2 r'.2)
      (runCalls (textCall true nullchar) (data, []) calls) (runCalls (textCall false nullchar) (data, []) calls) :=
    runCalls_agrees SamePieces SamePieces.call ⟨rfl, [], hleaves, .nil⟩
  obtain ⟨⟨_, s⟩, htext, rfl, hw⟩ := Agrees.of_ok (hrun ▸ hcopied)
  obtain ⟨⟨_, t⟩, htext', rfl, hdata, -⟩ := Agrees.of_ok (htext ▸ hsame)
  rcases hpointed.outcomes with ⟨⟨_, w'⟩, r, hrun', hr, rfl, hw'⟩ | ⟨fault, -, hfault⟩
  · obtain rfl := Except.ok.inj (htext'.symm.trans hr)
    refine ⟨_, w', hnew', hrun', ?_, ?_⟩
    · rw [hw'.data, hw.data]
      exact hdata
    · exact hw'.kept.uncopied
  · cases htext'.symm.trans hfault

/-- Twice the same text and what was built of it, while another block is written to. -/
def greetings : List BufferCall :=
  [.append ⟨0, 0⟩ 5, .append ⟨0, 1⟩ 2, .own (.write ⟨1, 0⟩ (ascii "?")), .build, .append ⟨2, 0⟩ 7, .length, .build]

def greetingData : Heap Bytes := ⟨[some (ascii "hello"), some (ascii "!")]⟩

private theorem greetings_text : runCalls (textCall true true) (greetingData, []) greetings =
    .ok ([.done, .done, .done, .address 2, .done, .count 14, .address 3],
      ⟨[some (ascii "hello"), some (ascii "?"), some (ascii "helloel" ++ [0]), some (ascii "helloelhelloel" ++ [0])]⟩,
      [.text (ascii "hello"), .text (ascii "el"), .text (ascii "helloel")]) := by
  decide

theorem buffer_refines_greetings : ∃ buffer r, bufferNew 4 = .ok buffer ∧
    runCalls bufferCall ⟨greetingData, .empty, buffer⟩ greetings = .ok r ∧
      r.1 = [.done, .done, .done, .address 2, .done, .count 14, .address 3] ∧
      r.2.data.read 3 = some (ascii "helloelhelloel" ++ [0]) ∧
      ∃ left, bufferDelete r.2 = .ok left ∧ left.contents = [] := by
  obtain ⟨buffer, hnew, hagrees⟩ := buffer_refines 4 (by decide) greetings (by decide) (by decide) greetingData
  rcases hagrees.outcomes with ⟨r, r', hrun, hr, hreplies, hdata, hleft⟩ | ⟨fault, -, hfault⟩
  · obtain rfl := Except.ok.inj (greetings_text.symm.trans hr)
    exact ⟨buffer, r, hnew, hrun, hreplies, by rw [hdata]; rfl, hleft⟩
  · cases greetings_text.symm.trans hfault

theorem nocopy_agrees_greetings : ∃ buffer' w', bufferNew 5 = .ok buffer' ∧
    runCalls bufferCall ⟨greetingData, .empty, buffer'⟩ greetings =
      .ok ([.done, .done, .done, .address 2, .done, .count 14, .address 3], w') ∧
    w'.data.read 3 = some (ascii "helloelhelloel" ++ [0]) ∧ w'.copies = .empty := by
  have hstart : Collects true true greetings ⟨greetingData, .empty, ⟨true, false, true, 0, 8, []⟩⟩ (greetingData, []) :=
    collects_new true true greetingData (by decide) (by decide)
  have hleaves : LeavesAppended [] greetings := ⟨by decide, trivial⟩
  rcases (runCalls_agrees (Collects true true) Collects.call hstart).outcomes with
    ⟨⟨replies, w⟩, r', hrun, hr, hreplies, hw⟩ | ⟨fault, -, hfault⟩
  · obtain rfl := Except.ok.inj (greetings_text.symm.trans hr)
    obtain rfl : replies = _ := hreplies
    obtain ⟨buffer', w', hnew, hrun', hdata, hcopies⟩ := nocopy_agrees
      (show (4 : UInt32) &&& bufferNoCopy = 0 by decide) (show (5 : UInt32) &&& bufferNoCopy ≠ 0 by decide) (by decide)
      (by decide) (by decide) (by decide) hleaves rfl hrun
    exact ⟨buffer', w', hnew, hrun', by rw [hdata, hw.data]; rfl, hcopies⟩
  · cases greetings_text.symm.trans hfault

end CFlare.Storage
