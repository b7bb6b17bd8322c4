import CFlare.Storage.LinkedListCells

/-! Listing the files of a directory. What the system shows of its directories is a parameter. -/
namespace CFlare.System
open CFlare.Library CFlare.Storage

inductive EntryType where
  | unknown
  | file
  | directory
  | fifo
  | socket
  | chardev
  | blockdev
  | link
  deriving DecidableEq, Repr

/-- An element of the list. Its name is a pointer into its path. -/
structure FilesystemEntry where
  path : Bytes
  name : Nat
  type : EntryType
  depth : Nat
  deriving DecidableEq, Repr

/-- What `readdir` returns of an entry. -/
structure Dirent where
  name : CString
  type : UInt8
  deriving DecidableEq, Repr

def dtUnknown : UInt8 := 0
def dtFifo : UInt8 := 1
def dtChr : UInt8 := 2
def dtDir : UInt8 := 4
def dtBlk : UInt8 := 6
def dtReg : UInt8 := 8
def dtLnk : UInt8 := 10
def dtSock : UInt8 := 12

def entryType (type : UInt8) : EntryType :=
  if type = dtUnknown then .unknown
  else if type = dtReg then .file
  else if type = dtDir then .directory
  else if type = dtFifo then .fifo
  else if type = dtSock then .socket
  else if type = dtChr then .chardev
  else if type = dtBlk then .blockdev
  else if type = dtLnk then .link
  else .unknown

/-- The directories of the system: what repeated calls of `readdir` return once a path was opened. A path that can be
opened is a string of the machine. -/
structure Directories where
  opendir : Bytes → Option (List Dirent)
  limited : ∀ path entries, opendir path = some entries → path.length + 1 < 2^63

section Concat

/-- The sum of the lengths. -/
def concatSize (args : List Bytes) : Nat := args.foldl (fun total arg => sizeAdd total arg.length) 0

/-- The arguments are copied one behind the other into a buffer. -/
def concatCopy (size : Nat) : List Bytes → Memory → Nat → Except Fault (Memory × Nat)
  | [], ret, ptr => .ok (ret, ptr)
  | arg :: args, ret, ptr =>
    if ptr + arg.length ≤ size then concatCopy size args (store ret ptr arg) (ptr + arg.length) else .error .overrun

/-- The string and its length. What is in the buffer when it is allocated is never read. -/
def stringConcat (args : List Bytes) : Except Fault (Bytes × Nat) := do
  let size := sizeAdd (concatSize args) 1
  let (ret, ptr) ← concatCopy size args (fun _ => 0) 0
  if ptr < size then
    match cstring (store ret ptr [0]) 0 size with
    | none => .error .overrun
    | some text => .ok (text, concatSize args)
  else .error .overrun

end Concat

/-- One turn of the loop that reads a directory. The first argument lists a directory one level down. -/
def populateEntry (descend : LinkedList FilesystemEntry → Bytes → Nat → Nat → Except Fault (LinkedList FilesystemEntry))
    (recursive excDirs : Bool) (path : Bytes) (pathLen depth : Nat) (list : LinkedList FilesystemEntry) (ent : Dirent) :
    Except Fault (LinkedList FilesystemEntry) :=
  if ent.name.bytes = ascii "." then .ok list
  else if ent.name.bytes = ascii ".." then .ok list
  else do
    let t := entryType ent.type
    let list ←
      if excDirs = false ∨ excDirs = true ∧ t ≠ .directory then do
        let (text, _) ← stringConcat [path, ent.name.bytes]
        let (_, list) ← list.insertLast ⟨text, pathLen, t, depth⟩
        .ok list
      else .ok list
    if recursive = true ∧ t = .directory then do
      let (newpath, newpathLen) ← stringConcat [path, ent.name.bytes, ascii "/"]
      descend list newpath newpathLen (depth + 1)
    else .ok list

/-- A directory that cannot be opened is skipped with a warning. -/
def populateList (dirs : Directories) (recursive excDirs : Bool) :
    Nat → LinkedList FilesystemEntry → Bytes → Nat → Nat → Except Fault (LinkedList FilesystemEntry)
  | 0, _, _, _, _ => .error .diverged
  | fuel + 1, list, path, pathLen, depth =>
    match dirs.opendir path with
    | none => .ok list
    | some ents =>
      ents.foldlM (populateEntry (populateList dirs recursive excDirs fuel) recursive excDirs path pathLen depth) list

def listRecursive : UInt32 := 1
def listExcludeDirectories : UInt32 := 2

def filesystemList (dirs : Directories) (fuel : Nat) (path : CString) (opts : UInt32) :
    Except Fault (LinkedList FilesystemEntry) :=
  -- `path[path_len - 1]`
  match path.bytes.getLast? with
  | none => .error .overrun
  | some last => do
    let (path, pathLen) ←
      if last ≠ 47 then stringConcat [path.bytes, ascii "/"] else .ok (path.bytes, path.bytes.length)
    populateList dirs (opts &&& listRecursive ≠ 0) (opts &&& listExcludeDirectories ≠ 0) fuel
      (LinkedList.new.ondelete true) path pathLen 0

section Concat
variable {args : List Bytes}

theorem concatSize_eq (h : args.flatten.length < sizeLimit) : concatSize args = args.flatten.length := by
  have hfold : ∀ (args : List Bytes) (total : Nat), total + args.flatten.length < sizeLimit →
      args.foldl (fun total arg => sizeAdd total arg.length) total = total + args.flatten.length := by
    intro args
    induction args with
    | nil => exact fun total _ => rfl
    | cons arg args ih =>
      intro total hfit
      rw [List.flatten_cons, List.length_append] at hfit ⊢
      rw [List.foldl_cons, sizeAdd_of_lt (by omega), ih _ (by omega)]
      omega
  rw [concatSize, hfold args 0 (by rwa [Nat.zero_add]), Nat.zero_add]

theorem concatCopy_eq {size ptr : Nat} (h : ptr + args.flatten.length ≤ size) (ret : Memory) :
    concatCopy size args ret ptr = .ok (store ret ptr args.flatten, ptr + args.flatten.length) := by
  induction args generalizing ret ptr with
  | nil => rw [concatCopy, List.flatten_nil, store_nil, List.length_nil, Nat.add_zero]
  | cons arg args ih =>
    rw [List.flatten_cons, List.length_append] at h ⊢
    rw [concatCopy, if_pos (by omega), ih (by omega), store_append, Nat.add_assoc]

/-- Strings that fit the machine together are joined. -/
theorem stringConcat_eq (h : args.flatten.length + 1 < sizeLimit) (hnull : (0 : UInt8) ∉ args.flatten) :
    stringConcat args = .ok (args.flatten, args.flatten.length) := by
  have hsize : concatSize args = args.flatten.length := concatSize_eq (by omega)
  have hroom : sizeAdd args.flatten.length 1 = args.flatten.length + 1 := sizeAdd_of_lt h
  have htext : cstring (store (store (fun _ => 0) 0 args.flatten) args.flatten.length [0]) 0 (args.flatten.length + 1) =
      some args.flatten := by
    refine cstring_of_slice _ ?_ hnull ?_ (Nat.lt_succ_self _)
    · rw [slice_store_front (by omega), slice_store]
    · simp [store]
  rw [stringConcat, hsize, hroom, concatCopy_eq (by omega)]
  simp only [fault_ok_bind, Nat.zero_add, if_pos (Nat.lt_succ_self args.flatten.length), htext]

theorem slash_noNull : (0 : UInt8) ∉ ascii "/" := by decide

theorem stringConcat_pair {front back : Bytes} (h : front.length + back.length + 1 < sizeLimit)
    (hfront : (0 : UInt8) ∉ front) (hback : (0 : UInt8) ∉ back) :
    stringConcat [front, back] = .ok (front ++ back, (front ++ back).length) := by
  refine (stringConcat_eq ?_ ?_).trans (by simp)
  · simpa using h
  · simp [hfront, hback]

end Concat

end CFlare.System
