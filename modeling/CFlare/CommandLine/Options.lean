import CFlare.Storage.HashtableMap

/-! The command line: options up to the first "--", and the arguments that are none. Later settings
of a name replace earlier ones. -/
namespace CFlare.CommandLine
open CFlare.Library CFlare.Storage

/-- What is loaded: the option values by name, the arguments, and the name of the executable. -/
structure Options where
  optHashtable : Hashtable Bytes
  args : List CString
  self : Option CString

/-- What the loop over the command line carries. -/
structure Parse where
  optHashtable : Hashtable Bytes
  args : List CString
  parsingOptions : Bool

/-- The array has room for `argc` arguments. -/
def storeArgument (argc : Nat) (args : List CString) (arg : CString) : Except Fault (List CString) :=
  if args.length < argc then .ok (args ++ [arg]) else .error .overrun

/-- How far the name goes: up to the first '=', or to the end. -/
def nameLength : Bytes → Nat
  | [] => 0
  | b :: rest => if b = 61 then 0 else nameLength rest + 1

/-- Each letter of "-abc" is an option with an empty value. -/
def setLetters (map : Hashtable Bytes) : Bytes → Except Fault (Hashtable Bytes)
  | [] => .ok map
  | letter :: letters => do
    let map ← map.set (hashCompute [letter]) (some []) 0
    setLetters map letters

/-- "name" or "name=value", as it stands behind the "--". -/
def setLong (map : Hashtable Bytes) (arg : Bytes) : Except Fault (Hashtable Bytes) :=
  let len := arg.length
  let nameLen := nameLength arg
  let (value, valueLen) : Bytes × Nat :=
    if len = nameLen then ([], 0) else (arg.drop (nameLen + 1), len - nameLen - 1)
  map.set (hashCompute (arg.take nameLen)) (some (value.take valueLen)) valueLen

def parseArgument (argc : Nat) (s : Parse) (arg : CString) : Except Fault Parse :=
  if s.parsingOptions = true ∧ arg.bytes.head? = some 45 then
    if arg.bytes[1]? ≠ some 45 then do
      let map ← setLetters s.optHashtable (arg.bytes.drop 1)
      .ok { s with optHashtable := map }
    else if arg.bytes.length = 2 then .ok { s with parsingOptions := false }
    else do
      let map ← setLong s.optHashtable (arg.bytes.drop 2)
      .ok { s with optHashtable := map }
  else do
    let args ← storeArgument argc s.args arg
    .ok { s with args := args }

def optionsLoad (argv : List CString) : Except Fault Options := do
  let s ← argv.tail.foldlM (parseArgument argv.length) ⟨Hashtable.new, [], true⟩
  .ok ⟨s.optHashtable, s.args, argv.head?⟩

def optionsArgumentCount (options : Options) : Nat := options.args.length

def optionsArgument (options : Options) (position : Nat) : Option CString :=
  if optionsArgumentCount options ≤ position then none else options.args[position]?

def optionsExecutable (options : Options) : Option CString := options.self

/-- The entry sets the name to the value. -/
inductive Sets : Bytes → Bytes → Bytes → Prop where
  | letter {letters : Bytes} {b : UInt8} (single : letters.head? ≠ some 45) (mem : b ∈ letters) :
      Sets (45 :: letters) [b] []
  | plain {name : Bytes} (ne : name ≠ []) (whole : 61 ∉ name) : Sets (45 :: 45 :: name) name []
  | valued {name value : Bytes} (split : 61 ∉ name) : Sets (45 :: 45 :: (name ++ 61 :: value)) name value

/-- The last entry that sets the name sets it to the value. -/
def LastSet (entries : List CString) (name value : Bytes) : Prop :=
  ∃ front entry back, entries = front ++ entry :: back ∧ Sets entry.bytes name value ∧
    ∀ later ∈ back, ∀ v, ¬ Sets later.bytes name v

def optionEntries (argv : List CString) : List CString := argv.tail.takeWhile (fun arg => arg.bytes ≠ [45, 45])

/-- What does not begin with '-' in front of the first "--", and everything behind it. -/
def positional (argv : List CString) : List CString :=
  (optionEntries argv).filter (fun arg => arg.bytes.head? ≠ some 45) ++
    (argv.tail.dropWhile (fun arg => arg.bytes ≠ [45, 45])).tail

section Entries

theorem nameLength_plain {name : Bytes} (h : 61 ∉ name) : nameLength name = name.length := by
  induction name with
  | nil => rfl
  | cons b name ih =>
    obtain ⟨hb, hname⟩ := List.ne_and_not_mem_of_not_mem_cons h
    rw [nameLength, if_neg (Ne.symm hb), ih hname, List.length_cons]

theorem nameLength_valued {name value : Bytes} (h : 61 ∉ name) : nameLength (name ++ 61 :: value) = name.length := by
  induction name with
  | nil => exact if_pos rfl
  | cons b name ih =>
    obtain ⟨hb, hname⟩ := List.ne_and_not_mem_of_not_mem_cons h
    rw [List.cons_append, nameLength, if_neg (Ne.symm hb), ih hname, List.length_cons]

/-- A text is a name, or a name and a value. -/
theorem nameLength_cases (arg : Bytes) :
    61 ∉ arg ∨ ∃ name value, 61 ∉ name ∧ arg = name ++ 61 :: value := by
  induction arg with
  | nil => exact .inl List.not_mem_nil
  | cons b arg ih =>
    by_cases hb : b = 61
    · exact .inr ⟨[], arg, List.not_mem_nil, by rw [hb]; rfl⟩
    · rcases ih with h | ⟨name, value, h, rfl⟩
      · exact .inl (List.not_mem_cons_of_ne_of_not_mem (Ne.symm hb) h)
      · exact .inr ⟨b :: name, value, List.not_mem_cons_of_ne_of_not_mem (Ne.symm hb) h, rfl⟩

theorem setLong_plain (map : Hashtable Bytes) {name : Bytes} (h : 61 ∉ name) :
    setLong map name = map.set (hashCompute name) (some []) 0 := by
  simp only [setLong, nameLength_plain h, if_true, List.take_length]
  rfl

theorem setLong_valued (map : Hashtable Bytes) {name value : Bytes} (h : 61 ∉ name) :
    setLong map (name ++ 61 :: value) = map.set (hashCompute name) (some value) value.length := by
  have hlen : (name ++ 61 :: value).length = name.length + 1 + value.length := by
    rw [List.length_append, List.length_cons]
    omega
  have hne : ¬ (name ++ 61 :: value).length = name.length := by omega
  have hvalue : (name ++ 61 :: value).drop (name.length + 1) = value := by
    rw [List.drop_append, List.drop_eq_nil_of_le (Nat.le_succ _), Nat.add_sub_cancel_left]
    rfl
  have hvalueLen : (name ++ 61 :: value).length - name.length - 1 = value.length := by omega
  simp only [setLong, nameLength_valued h, if_neg hne, hvalue, hvalueLen, List.take_left, List.take_length]

theorem sets_letters {letters name value : Bytes} (h : letters.head? ≠ some 45) :
    Sets (45 :: letters) name value ↔ (∃ b ∈ letters, name = [b]) ∧ value = [] := by
  constructor
  · intro hs
    cases hs with
    | letter _ mem => exact ⟨⟨_, mem, rfl⟩, rfl⟩
    | plain _ _ => exact absurd rfl h
    | valued _ => exact absurd rfl h
  · rintro ⟨⟨b, hb, rfl⟩, rfl⟩
    exact .letter h hb

theorem sets_plain {arg name value : Bytes} (hne : arg ≠ []) (h : 61 ∉ arg) :
    Sets (45 :: 45 :: arg) name value ↔ name = arg ∧ value = [] := by
  constructor
  · intro hs
    cases hs with
    | letter single _ => exact absurd rfl single
    | plain _ _ => exact ⟨rfl, rfl⟩
    | valued _ => exact absurd (List.mem_append_right _ List.mem_cons_self) h
  · rintro ⟨rfl, rfl⟩
    exact .plain hne h

theorem sets_valued {front back name value : Bytes} (h : 61 ∉ front) :
    Sets (45 :: 45 :: (front ++ 61 :: back)) name value ↔ name = front ∧ value = back := by
  constructor
  · intro hs
    generalize harg : 45 :: 45 :: (front ++ 61 :: back) = arg at hs
    cases hs with
    | letter single _ =>
      obtain ⟨-, rfl⟩ := List.cons.inj harg
      exact absurd rfl single
    | plain _ whole =>
      obtain ⟨-, htail⟩ := List.cons.inj harg
      obtain ⟨-, rfl⟩ := List.cons.inj htail
      exact absurd (List.mem_append_right _ List.mem_cons_self) whole
    | @valued name value split =>
      obtain ⟨-, htail⟩ := List.cons.inj harg
      obtain ⟨-, hsplit⟩ := List.cons.inj htail
      have hlen := congrArg nameLength hsplit
      rw [nameLength_valued h, nameLength_valued split] at hlen
      obtain ⟨rfl, hback⟩ := List.append_inj hsplit hlen
      exact ⟨rfl, (List.cons.inj hback).2.symm⟩
  · rintro ⟨rfl, rfl⟩
    exact .valued h

/-- What sets an option begins with '-'. -/
theorem Sets.head {arg name value : Bytes} (h : Sets arg name value) : arg.head? = some 45 := by
  cases h <;> rfl

theorem Sets.sublists {arg name value : Bytes} (h : Sets arg name value) : name.Sublist arg ∧ value.Sublist arg := by
  cases h with
  | letter single mem => exact ⟨(List.singleton_sublist.mpr mem).cons _, List.nil_sublist _⟩
  | plain ne whole => exact ⟨((List.Sublist.refl _).cons _).cons _, List.nil_sublist _⟩
  | valued split =>
    refine ⟨((List.sublist_append_left _ _).cons _).cons _, (List.Sublist.cons _ ?_).cons _⟩
    exact ((List.Sublist.refl _).cons _).trans (List.sublist_append_right _ _)

theorem LastSet.noNull {entries : List CString} {name value : Bytes} (h : LastSet entries name value) :
    (0 : UInt8) ∉ value := by
  obtain ⟨front, entry, back, -, hset, -⟩ := h
  exact fun h0 => entry.noNull (hset.sublists.2.mem h0)

/-- The last setting after one more entry. -/
theorem lastSet_append {entries : List CString} {entry : CString} {name value : Bytes} :
    LastSet (entries ++ [entry]) name value ↔ Sets entry.bytes name value ∨
      (∀ v, ¬ Sets entry.bytes name v) ∧ LastSet entries name value := by
  constructor
  · rintro ⟨front, e, back, hsplit, hset, hlast⟩
    rcases List.eq_nil_or_concat back with rfl | ⟨back, last, rfl⟩
    · obtain ⟨-, hentry⟩ := List.append_inj' hsplit rfl
      obtain rfl := List.singleton_inj.mp hentry
      exact .inl hset
    · rw [List.concat_eq_append] at hsplit hlast
      rw [← List.cons_append, ← List.append_assoc] at hsplit
      obtain ⟨rfl, hentry⟩ := List.append_inj' hsplit rfl
      obtain rfl := List.singleton_inj.mp hentry
      refine .inr ⟨hlast _ (List.mem_append_right _ List.mem_cons_self), front, e, back, rfl, hset, ?_⟩
      exact fun later hm => hlast later (List.mem_append_left _ hm)
  · rintro (hset | ⟨hnone, front, e, back, rfl, hset, hlast⟩)
    · exact ⟨entries, entry, [], rfl, hset, nofun⟩
    · refine ⟨front, e, back ++ [entry], by rw [List.append_assoc]; rfl, hset, fun later hm => ?_⟩
      rcases List.mem_append.mp hm with hm | hm
      · exact hlast later hm
      · obtain rfl := List.mem_singleton.mp hm
        exact hnone

/-- A name has a last setting when some entry sets it. -/
theorem lastSet_exists {entries : List CString} {name : Bytes} :
    (∃ value, LastSet entries name value) ↔ ∃ entry ∈ entries, ∃ value, Sets entry.bytes name value := by
  constructor
  · rintro ⟨value, front, entry, back, rfl, hset, -⟩
    exact ⟨entry, List.mem_append_right _ List.mem_cons_self, value, hset⟩
  · induction entries using List.reverseRecOn with
    | nil =>
      rintro ⟨entry, hm, -⟩
      cases hm
    | append_singleton entries last ih =>
      rintro ⟨entry, hm, value, hset⟩
      by_cases hlast : ∃ v, Sets last.bytes name v
      · obtain ⟨v, hv⟩ := hlast
        exact ⟨v, lastSet_append.mpr (.inl hv)⟩
      · have hentry : entry ∈ entries := by
          rcases List.mem_append.mp hm with hm | hm
          · exact hm
          · obtain rfl := List.mem_singleton.mp hm
            exact absurd ⟨value, hset⟩ hlast
        obtain ⟨v, hv⟩ := ih ⟨entry, hentry, value, hset⟩
        exact ⟨v, lastSet_append.mpr (.inr ⟨fun w hw => hlast ⟨w, hw⟩, hv⟩)⟩

/-- No entry becomes two arguments. -/
theorem positional_length (argv : List CString) : (positional argv).length ≤ argv.length := by
  have hfilter := List.length_filter_le (fun arg : CString => arg.bytes.head? ≠ some 45) (optionEntries argv)
  have hsplit := congrArg List.length
    (List.takeWhile_append_dropWhile (p := fun arg : CString => arg.bytes ≠ [45, 45]) (l := argv.tail))
  rw [List.length_append, List.length_tail] at hsplit
  rw [positional, List.length_append, List.length_tail]
  rw [optionEntries] at hfilter ⊢
  omega

end Entries

end CFlare.CommandLine
