import CFlare.Http.HeaderIdentity
import CFlare.Http.Integer

/-! The status tables: lines of the status files give a code its reason, in one table by the code
and in another by the letters of the reason. The last line that a table has for a key is the one it finds. -/
namespace CFlare.Http
open CFlare.Library CFlare.Storage

/-- What both tables store. Copies of reasons are numbered as `strdup` allocates them. -/
structure KnownStatus where
  code : UInt32
  address : Nat
  string : CString
  deriving DecidableEq, Repr

def knownStatusSize : Nat := 16
def maxLineLength : Nat := 1024

structure HttpStatus where
  code2string : Hashtable KnownStatus
  string2code : Hashtable KnownStatus
  strings : Nat

/-- `isdigit` and `isalpha` of the C locale. -/
def isDigit (b : UInt8) : Bool := 48 ≤ b ∧ b ≤ 57
def isAlpha (b : UInt8) : Bool := 65 ≤ b ∧ b ≤ 90 ∨ 97 ≤ b ∧ b ≤ 122

/-- Only letters are kept, in lower case. -/
def normalizeStatus (text : Bytes) : Bytes := (text.filter isAlpha).map toLower

def codeBytes (code : UInt32) : Bytes :=
  [code.toUInt8, (code >>> 8).toUInt8, (code >>> 16).toUInt8, (code >>> 24).toUInt8]

/-- A null byte put at a position ends the string there. -/
def cut (s : CString) (n : Nat) : CString :=
  ⟨s.bytes.take n, fun h => s.noNull (List.mem_of_mem_take h),
    Nat.lt_of_le_of_lt (Nat.succ_le_succ (List.length_take_le' n s.bytes)) s.short⟩

/-- The string that begins at a position. -/
def behind (s : CString) (n : Nat) : CString :=
  ⟨s.bytes.drop n, fun h => s.noNull (List.mem_of_mem_drop h),
    Nat.lt_of_le_of_lt (Nat.succ_le_succ (s.bytes.length_drop ▸ Nat.sub_le _ _)) s.short⟩

/-- Where the last character is that is no whitespace; zero when there is none. -/
def lastVisible : Bytes → Nat → Nat → Nat
  | [], _, lastpos => lastpos
  | x :: text, pos, lastpos => lastVisible text (pos + 1) (if isSpace x then lastpos else pos)

/-- The code and the reason of a line, if it has both. -/
def lineEntry (float : FloatArith) (line : CString) : Except Fault (Option (UInt32 × CString)) :=
  -- a comment ends the line
  let line := cut line (line.bytes.takeWhile (· ≠ 35)).length
  let line := behind line (line.bytes.takeWhile isSpace).length
  let digitEnd := (line.bytes.takeWhile isDigit).length
  -- the line ends with its digits, or has none
  if digitEnd = line.bytes.length ∨ digitEnd = 0 then .ok none
  else do
    match ← toInteger float (cut line digitEnd).bytes with
    | none => .ok none
    | some tmp =>
      -- the character behind the digits was replaced by the null byte
      let line := behind line (digitEnd + 1)
      let lastpos := lastVisible line.bytes 0 0
      if lastpos = 0 then .ok none else .ok (some (UInt32.ofInt tmp, cut line (lastpos + 1)))

/-- What a call of `fgets` leaves in the line buffer, as a string. -/
def buffString (line : Bytes) : CString :=
  ⟨(line.take (maxLineLength - 1)).takeWhile (· ≠ 0), fun h => by simpa using List.mem_takeWhile_imp h,
    Nat.lt_of_le_of_lt (Nat.succ_le_succ ((List.takeWhile_sublist _).length_le.trans (List.length_take_le _ _)))
      (by decide)⟩

/-- What repeated calls of `fgets` read, each up to a newline or until the buffer is full. The second argument is what
the call has read so far. -/
def fgetsLines : Bytes → Bytes → List Bytes
  | [], line => if line = [] then [] else [line]
  | b :: file, line =>
    if b = 10 ∨ line.length + 1 = maxLineLength - 1 then (line ++ [b]) :: fgetsLines file []
    else fgetsLines file (line ++ [b])

namespace HttpStatus

def parseLine (float : FloatArith) (st : HttpStatus) (line : CString) : Except Fault HttpStatus := do
  match ← lineEntry float line with
  | none => .ok st
  | some (code, string) => do
    let code2string ← st.code2string.set (hashCompute (codeBytes code)) (some ⟨code, st.strings, string⟩) knownStatusSize
    let string2code ← st.string2code.set (hashCompute (normalizeStatus string.bytes))
      (some ⟨code, st.strings + 1, string⟩) knownStatusSize
    .ok ⟨code2string, string2code, st.strings + 2⟩

/-- A file that cannot be opened is skipped with a warning. -/
def parseFile (float : FloatArith) (st : HttpStatus) : Option Bytes → Except Fault HttpStatus
  | none => .ok st
  | some file => (fgetsLines file []).foldlM (fun st line => parseLine float st (buffString line)) st

/-- The files are those of the status directory, in the order in which it lists them. -/
def load (float : FloatArith) (files : List (Option Bytes)) : Except Fault HttpStatus :=
  files.foldlM (parseFile float) ⟨Hashtable.new.ondelete true, Hashtable.new.ondelete true, 0⟩

def tostring (st : HttpStatus) (code : UInt32) : Except Fault (Option CString) := do
  let found ← st.code2string.get (hashCompute (codeBytes code))
  .ok (found.map (fun status => status.data.string))

def fromstring (st : HttpStatus) (stat : Bytes) : Except Fault UInt32 := do
  let found ← st.string2code.get (hashCompute (normalizeStatus stat))
  .ok (found.elim 0 (fun status => status.data.code))

end HttpStatus

section Entries

theorem codeBytes_inj {c d : UInt32} : codeBytes c = codeBytes d ↔ c = d := by
  constructor
  · intro h
    simp only [codeBytes, List.cons.injEq, and_true, ← UInt8.toNat_inj, UInt32.toNat_toUInt8,
      UInt32.toNat_shiftRight] at h
    obtain ⟨h0, h1, h2, h3⟩ := h
    have hc := c.toNat_lt
    have hd := d.toNat_lt
    rw [← UInt32.toNat_inj]
    simp [Nat.shiftRight_eq_div_pow] at h0 h1 h2 h3
    omega
  · rintro rfl
    rfl

def lastWith (key : UInt32 × CString → Bytes) (entries : List (UInt32 × CString)) (k : Bytes) :
    Option (UInt32 × CString) :=
  entries.reverse.find? (fun entry => key entry = k)

theorem lastWith_append (key : UInt32 × CString → Bytes) (entries : List (UInt32 × CString))
    (entry : UInt32 × CString) :
    lastWith key (entries ++ [entry]) = Function.update (lastWith key entries) (key entry) (some entry) := by
  funext k
  rw [lastWith, List.reverse_append, List.reverse_singleton, List.singleton_append, List.find?_cons,
    Function.update_apply]
  by_cases hk : key entry = k
  · rw [if_pos hk.symm, decide_eq_true hk]
  · rw [if_neg (Ne.symm hk), decide_eq_false hk]
    rfl

def KnownStatus.entry (status : KnownStatus) : UInt32 × CString := (status.code, status.string)

/-- A table by some key, after these entries. -/
def Cached (map : Hashtable KnownStatus) (key : UInt32 × CString → Bytes) (entries : List (UInt32 × CString)) : Prop :=
  ∃ values, LooksUp map values ∧ ∀ k, (values k).map KnownStatus.entry = lastWith key entries k

section Cached
variable {map : Hashtable KnownStatus} {key : UInt32 × CString → Bytes} {entries : List (UInt32 × CString)}

theorem cached_new (key : UInt32 × CString → Bytes) : Cached (Hashtable.new.ondelete true) key [] :=
  ⟨_, looksUp_new true, fun _ => rfl⟩

theorem Cached.set (h : Cached map key entries) (entry : UInt32 × CString) (address : Nat) :
    ∃ map', map.set (hashCompute (key entry)) (some ⟨entry.1, address, entry.2⟩) knownStatusSize = .ok map' ∧
      Cached map' key (entries ++ [entry]) := by
  obtain ⟨values, hvalues, hlast⟩ := h
  obtain ⟨map', he, h'⟩ := hvalues.set (key entry) ⟨entry.1, address, entry.2⟩ knownStatusSize
  refine ⟨map', he, _, h', fun k => ?_⟩
  rw [lastWith_append, Function.update_apply, Function.update_apply, ← hlast k,
    apply_ite (Option.map KnownStatus.entry)]
  rfl

theorem Cached.get (h : Cached map key entries) (k : Bytes) :
    ∃ found, map.get (hashCompute k) = .ok found ∧
      found.map (fun block => block.data.entry) = lastWith key entries k := by
  obtain ⟨values, hvalues, hlast⟩ := h
  obtain ⟨found, he, hfound⟩ := hvalues.get k
  refine ⟨found, he, ?_⟩
  rw [← hlast k, ← hfound, Option.map_map]
  rfl

end Cached

def codeKey (entry : UInt32 × CString) : Bytes := codeBytes entry.1
def reasonKey (entry : UInt32 × CString) : Bytes := normalizeStatus entry.2.bytes

/-- The tables after these entries. -/
structure HttpStatus.Loaded (st : HttpStatus) (entries : List (UInt32 × CString)) : Prop where
  code2string : Cached st.code2string codeKey entries
  string2code : Cached st.string2code reasonKey entries

def acceptedEntry (float : FloatArith) (line : CString) : Option (UInt32 × CString) :=
  (lineEntry float line).toOption.join

/-- The entries of a file, in the order of its lines. -/
def fileEntries (float : FloatArith) : Option Bytes → List (UInt32 × CString)
  | none => []
  | some file => (fgetsLines file []).filterMap (fun line => acceptedEntry float (buffString line))

/-- The entries of the status files, in the order in which they are read. -/
def entriesOf (float : FloatArith) (files : List (Option Bytes)) : List (UInt32 × CString) :=
  files.flatMap (fileEntries float)

end Entries

section Lines

theorem isDigit_iff {b : UInt8} : isDigit b = true ↔ 48 ≤ b ∧ b ≤ 57 := decide_eq_true_iff

/-- A line always yields its entry or none; the digits that it begins with are a number. -/
theorem lineEntry_accepted (float : FloatArith) (line : CString) :
    lineEntry float line = .ok (acceptedEntry float line) := by
  suffices h : ∃ entry, lineEntry float line = .ok entry by
    obtain ⟨entry, he⟩ := h
    rw [acceptedEntry, he]
    cases entry <;> rfl
  unfold lineEntry
  dsimp only
  generalize behind (cut line _) _ = line
  by_cases hend : (line.bytes.takeWhile isDigit).length = line.bytes.length ∨
      (line.bytes.takeWhile isDigit).length = 0
  · rw [if_pos hend]
    exact ⟨none, rfl⟩
  · rw [if_neg hend]
    have hcut : (cut line (line.bytes.takeWhile isDigit).length).bytes = line.bytes.takeWhile isDigit :=
      (List.prefix_iff_eq_take.mp (List.takeWhile_prefix isDigit)).symm
    have hdigits : ∀ b ∈ line.bytes.takeWhile isDigit, 48 ≤ b ∧ b ≤ 57 :=
      fun b hb => isDigit_iff.mp (List.mem_takeWhile_imp hb)
    have hne : line.bytes.takeWhile isDigit ≠ [] := fun hnil => hend (.inr (by rw [hnil]; rfl))
    obtain ⟨tmp, htmp⟩ := toInteger_numeral float hne hdigits
    rw [hcut, htmp, fault_ok_bind]
    dsimp only
    split
    · exact ⟨none, rfl⟩
    · exact ⟨_, rfl⟩

/-- A reason is a part of its line. -/
theorem acceptedEntry_length {float : FloatArith} {line : CString} {entry : UInt32 × CString}
    (h : acceptedEntry float line = some entry) : entry.2.bytes.length ≤ line.bytes.length := by
  have hcut : ∀ (s : CString) n, (cut s n).bytes.length ≤ s.bytes.length := fun s n => List.length_take_le' n s.bytes
  have hbehind : ∀ (s : CString) n, (behind s n).bytes.length ≤ s.bytes.length := by
    intro s n
    show (s.bytes.drop n).length ≤ s.bytes.length
    rw [List.length_drop]
    exact Nat.sub_le _ _
  have he : lineEntry float line = .ok (some entry) := by rw [lineEntry_accepted, h]
  unfold lineEntry at he
  dsimp only at he
  have hline : ∀ n m, (behind (cut line n) m).bytes.length ≤ line.bytes.length :=
    fun n m => (hbehind _ m).trans (hcut line n)
  generalize hrest : behind (cut line _) _ = rest at he
  have hshort : rest.bytes.length ≤ line.bytes.length := hrest ▸ hline _ _
  split at he
  · cases he
  obtain ⟨tmp, -, he⟩ := bind_eq_ok.mp he
  cases tmp with
  | none => cases he
  | some tmp =>
    dsimp only at he
    split at he
    · cases he
    · cases he
      exact (hcut _ _).trans ((hbehind _ _).trans hshort)

theorem buffString_length (line : Bytes) : (buffString line).bytes.length ≤ 1023 :=
  (List.takeWhile_sublist _).length_le.trans (List.length_take_le 1023 line)

/-- The lines are the file, and each of them fits the buffer. -/
theorem fgetsLines_spec (file line : Bytes) (h : line.length < 1023) :
    (fgetsLines file line).flatten = line ++ file ∧ ∀ read ∈ fgetsLines file line, read.length ≤ 1023 := by
  induction file generalizing line with
  | nil =>
    rw [fgetsLines]
    by_cases hl : line = []
    · rw [if_pos hl, hl]
      exact ⟨rfl, fun read hr => absurd hr List.not_mem_nil⟩
    · rw [if_neg hl]
      refine ⟨by simp, fun read hr => ?_⟩
      rw [List.mem_singleton.mp hr]
      exact Nat.le_of_lt h
  | cons b file ih =>
    have hlen : (line ++ [b]).length = line.length + 1 := List.length_append
    rw [fgetsLines]
    by_cases hend : b = 10 ∨ line.length + 1 = maxLineLength - 1
    · obtain ⟨hflat, hfit⟩ := ih [] (Nat.succ_pos _)
      rw [if_pos hend, List.flatten_cons, hflat]
      refine ⟨by simp, fun read hr => ?_⟩
      rcases List.mem_cons.mp hr with rfl | hr
      · rw [hlen]
        exact h
      · exact hfit read hr
    · have hshort : line.length + 1 ≠ 1023 := fun he => hend (.inr he)
      obtain ⟨hflat, hfit⟩ := ih (line ++ [b]) (by rw [hlen]; omega)
      rw [if_neg hend, hflat]
      exact ⟨by simp, hfit⟩

theorem buffString_read {file line : Bytes} (h : line ∈ fgetsLines file []) :
    (buffString line).bytes = line.takeWhile (· ≠ 0) := by
  have hfit : line.length ≤ 1023 := (fgetsLines_spec file [] (Nat.succ_pos _)).2 line h
  show (line.take 1023).takeWhile _ = _
  rw [List.take_of_length_le hfit]

/-- No reason is longer than a line. -/
theorem entriesOf_length {float : FloatArith} {files : List (Option Bytes)} {entry : UInt32 × CString}
    (h : entry ∈ entriesOf float files) : entry.2.bytes.length ≤ 1023 := by
  obtain ⟨file, -, hm⟩ := List.mem_flatMap.mp h
  cases file with
  | none => cases hm
  | some file =>
    obtain ⟨line, -, hline⟩ := List.mem_filterMap.mp hm
    exact (acceptedEntry_length hline).trans (buffString_length line)

end Lines

namespace HttpStatus
variable {st : HttpStatus} {entries : List (UInt32 × CString)} (float : FloatArith)

theorem Loaded.parseLine (h : st.Loaded entries) (line : CString) :
    ∃ st', HttpStatus.parseLine float st line = .ok st' ∧ st'.Loaded (entries ++ (acceptedEntry float line).toList) := by
  rw [HttpStatus.parseLine, lineEntry_accepted, fault_ok_bind]
  cases acceptedEntry float line with
  | none =>
    rw [Option.toList_none, List.append_nil]
    exact ⟨st, rfl, h⟩
  | some entry =>
    obtain ⟨code2string, hcode, hcodes⟩ := h.code2string.set entry st.strings
    obtain ⟨string2code, hreason, hreasons⟩ := h.string2code.set entry (st.strings + 1)
    rw [codeKey] at hcode
    rw [reasonKey] at hreason
    dsimp only
    rw [hcode, fault_ok_bind, hreason]
    exact ⟨_, rfl, hcodes, hreasons⟩

theorem Loaded.parseLines (h : st.Loaded entries) (lines : List Bytes) :
    ∃ st', lines.foldlM (fun st line => HttpStatus.parseLine float st (buffString line)) st = .ok st' ∧
      st'.Loaded (entries ++ lines.filterMap (fun line => acceptedEntry float (buffString line))) := by
  induction lines generalizing st entries with
  | nil =>
    rw [List.filterMap_nil, List.append_nil]
    exact ⟨st, rfl, h⟩
  | cons line lines ih =>
    obtain ⟨st1, he, h1⟩ := h.parseLine float (buffString line)
    obtain ⟨st', hes, h'⟩ := ih h1
    rw [List.foldlM_cons, he, fault_ok_bind, hes, List.filterMap_cons]
    refine ⟨st', rfl, ?_⟩
    rw [List.append_assoc] at h'
    cases hentry : acceptedEntry float (buffString line) with
    | none => rwa [hentry] at h'
    | some entry => rwa [hentry] at h'

theorem Loaded.parseFile (h : st.Loaded entries) (file : Option Bytes) :
    ∃ st', HttpStatus.parseFile float st file = .ok st' ∧ st'.Loaded (entries ++ fileEntries float file) := by
  cases file with
  | none =>
    rw [fileEntries, List.append_nil]
    exact ⟨st, rfl, h⟩
  | some file => exact h.parseLines float (fgetsLines file [])

theorem Loaded.parseFiles (h : st.Loaded entries) (files : List (Option Bytes)) :
    ∃ st', files.foldlM (HttpStatus.parseFile float) st = .ok st' ∧ st'.Loaded (entries ++ entriesOf float files) := by
  induction files generalizing st entries with
  | nil =>
    rw [entriesOf, List.flatMap_nil, List.append_nil]
    exact ⟨st, rfl, h⟩
  | cons file files ih =>
    obtain ⟨st1, he, h1⟩ := h.parseFile float file
    obtain ⟨st', hes, h'⟩ := ih h1
    rw [List.foldlM_cons, he, fault_ok_bind, hes]
    refine ⟨st', rfl, ?_⟩
    rw [entriesOf, List.flatMap_cons, ← List.append_assoc]
    exact h'

/-- Loading returns, whatever the files contain, and each table then has the last entry of each key. -/
theorem load_spec (files : List (Option Bytes)) :
    ∃ st, load float files = .ok st ∧ st.Loaded (entriesOf float files) := by
  have hstart : HttpStatus.Loaded ⟨Hashtable.new.ondelete true, Hashtable.new.ondelete true, 0⟩ [] :=
    ⟨cached_new _, cached_new _⟩
  exact hstart.parseFiles float files

/-- The reason of a code is the one of its last entry. -/
theorem Loaded.tostring (h : st.Loaded entries) (code : UInt32) :
    HttpStatus.tostring st code = .ok ((entries.reverse.find? (fun entry => entry.1 = code)).map Prod.snd) := by
  obtain ⟨found, he, hfound⟩ := h.code2string.get (codeBytes code)
  have hlast : lastWith codeKey entries (codeBytes code) = entries.reverse.find? (fun entry => entry.1 = code) := by
    simp only [lastWith, codeKey, codeBytes_inj]
  rw [HttpStatus.tostring, he, fault_ok_bind, ← hlast, ← hfound, Option.map_map]
  rfl

end HttpStatus

end CFlare.Http
