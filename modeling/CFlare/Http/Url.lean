import CFlare.Http.Integer

/-! Parameters of a query string. Keys and values are copied into two buffers that grow, and are
decoded there. -/
namespace CFlare.Http
open CFlare.Library

def percent : UInt8 := 37
def ampersand : UInt8 := 38
def plus : UInt8 := 43
def equals : UInt8 := 61

/-- An allocated array. Nothing is known of its bytes before they are written. -/
structure Buffer where
  data : Memory
  size : Nat

def Buffer.get (buffer : Buffer) (i : Nat) : Except Fault UInt8 :=
  if i < buffer.size then .ok (buffer.data i) else .error .overrun

def Buffer.set (buffer : Buffer) (i : Nat) (x : UInt8) : Except Fault Buffer :=
  if i < buffer.size then .ok { buffer with data := store buffer.data i [x] } else .error .overrun

/-- Twice the size, with the bytes kept. -/
def Buffer.grow (buffer : Buffer) : Buffer := { buffer with size := buffer.size * 2 % sizeLimit }

def inputAt (input : Bytes) (i : Nat) : Except Fault UInt8 :=
  match input[i]? with
  | some x => .ok x
  | none => .error .overrun

/-- The loop that copies a key or a value, up to a byte that stops it. It returns the index it has
reached in the input and the length copied. -/
def copySegment (input : Bytes) (stops : UInt8 → Bool) : Nat → Nat → Nat → Buffer →
    Except Fault (Nat × Nat × Buffer)
  | 0, _, _, _ => .error .diverged
  | fuel + 1, i, len, buffer =>
    if i < input.length then do
      let x ← inputAt input i
      if stops x then .ok (i, len, buffer)
      else do
        let buffer ← buffer.set len x
        let len := len + 1
        let buffer := if len = buffer.size then buffer.grow else buffer
        copySegment input stops fuel (i + 1) len buffer
    else .ok (i, len, buffer)

/-- The string that is parsed for an escape. -/
def escapeText (hi lo : UInt8) : Bytes := (ascii "0x" ++ [hi, lo]).takeWhile (· ≠ 0)

def charOf (n : Int) : UInt8 := UInt8.ofNat (n % 256).toNat

/-- The decoding loop reads at `i` and writes at `n`. None is a false return. -/
def unescapeLoop (float : FloatArith) (len : Nat) : Nat → Nat → Nat → Buffer →
    Except Fault (Option Nat × Buffer)
  | 0, _, _, _ => .error .diverged
  | fuel + 1, i, n, buffer =>
    if i < len then do
      let x ← buffer.get i
      if x = percent then
        if len ≤ i + 2 then .ok (none, buffer)
        else do
          let hi ← buffer.get (i + 1)
          let lo ← buffer.get (i + 2)
          match ← toInteger float (escapeText hi lo) with
          | none => .ok (none, buffer)
          | some value => do
            let buffer ← buffer.set n (charOf value)
            unescapeLoop float len fuel (i + 3) (n + 1) buffer
      else if x = plus then do
        let buffer ← buffer.set n 32
        unescapeLoop float len fuel (i + 1) (n + 1) buffer
      else do
        let buffer ← buffer.set n x
        unescapeLoop float len fuel (i + 1) (n + 1) buffer
    else .ok (some n, buffer)

/-- Decodes in place. The new length is written on success only. -/
def unescapeUrlMutate (float : FloatArith) (buffer : Buffer) (len : Nat) :
    Except Fault (Option Nat × Buffer) := do
  match ← unescapeLoop float len (len + 1) 0 0 buffer with
  | (none, buffer) => .ok (none, buffer)
  | (some n, buffer) => do
    let buffer ← buffer.set n 0
    .ok (some n, buffer)

/-- The decoding of a key or a value; a text that cannot be decoded keeps its length. -/
def finishSegment (float : FloatArith) (buffer : Buffer) (len : Nat) : Except Fault (Nat × Buffer) := do
  let (newLen, buffer) ← unescapeUrlMutate float buffer len
  .ok (newLen.getD len, buffer)

/-- One call of the callback. -/
structure Parameter where
  key : Bytes
  value : Bytes
  deriving DecidableEq, Repr

/-- The loop over the parameters. -/
def parseParameters (float : FloatArith) (input : Bytes) : Nat → Nat → Buffer → Buffer →
    Except Fault (List Parameter)
  | 0, _, _, _ => .error .diverged
  | fuel + 1, i, bufferKey, bufferVal =>
    if i < input.length then do
      let (i, keyLen, bufferKey) ←
        copySegment input (fun x => x = ampersand || x = equals) (input.length + 1) i 0 bufferKey
      let bufferKey ← bufferKey.set keyLen 0
      let hasValue ← if i < input.length then do .ok ((← inputAt input i) == equals) else .ok false
      let (i, valLen, bufferVal) ←
        if hasValue then copySegment input (fun x => x = ampersand) (input.length + 1) (i + 1) 0 bufferVal
        else .ok (i, 0, bufferVal)
      let bufferVal ← bufferVal.set valLen 0
      let (keyLen, bufferKey) ← finishSegment float bufferKey keyLen
      let (valLen, bufferVal) ← finishSegment float bufferVal valLen
      let rest ← parseParameters float input fuel (i + 1) bufferKey bufferVal
      .ok (⟨slice bufferKey.data 0 keyLen, slice bufferVal.data 0 valLen⟩ :: rest)
    else .ok []

/-- The calls made for a query. The buffers start with 64 unknown bytes each. -/
def urlParseQuery (float : FloatArith) (key value : Memory) (input : Option Bytes) :
    Except Fault (List Parameter) :=
  match input with
  | none => .ok []
  | some input => parseParameters float input (input.length + 1) 0 ⟨key, 64⟩ ⟨value, 64⟩

section Buffers
variable {buffer : Buffer}

theorem buffer_set {i : Nat} (h : i < buffer.size) (x : UInt8) :
    buffer.set i x = .ok { buffer with data := store buffer.data i [x] } := if_pos h

theorem buffer_get {i : Nat} (h : i < buffer.size) : buffer.get i = .ok (buffer.data i) := if_pos h

/-- A byte more behind those written so far. -/
theorem slice_store_next (m : Memory) (n : Nat) (x : UInt8) :
    slice (store m n [x]) 0 (n + 1) = slice m 0 n ++ [x] := by
  rw [slice_add, Nat.zero_add]
  congr 1
  · apply slice_congr
    intro i _ hi
    exact store_before (by omega)
  · have hat : store m n [x] (n + 0) = x := store_at Nat.one_pos
    exact congrArg (fun y => [y]) hat

end Buffers

end CFlare.Http
