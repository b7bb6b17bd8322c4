import CFlare.CommandLine.Options

/-! What a command line loads: every entry is a setting or an argument, and the table knows the last
setting of each name. -/
namespace CFlare.CommandLine
open CFlare.Library CFlare.Storage

/-- The table holds these texts, each in a block of its own length. -/
def StoresText (map : Hashtable Bytes) (values : Bytes → Option Bytes) : Prop :=
  ∃ es, Holds map es ∧ ∀ k, (entryAt Container.key es k).map (fun e => (e.block.data, e.block.size)) =
    (values k).map (fun value => (value, value.length))

section Tables
variable {map : Hashtable Bytes} {values : Bytes → Option Bytes}

theorem storesText_new : StoresText Hashtable.new (fun _ => none) := ⟨[], holds_new false, fun _ => rfl⟩

theorem StoresText.set (h : StoresText map values) (key value : Bytes) :
    ∃ map', map.set (hashCompute key) (some value) value.length = .ok map' ∧
      StoresText map' (Function.update values key (some value)) := by
  obtain ⟨es, hh, hv⟩ := h
  obtain ⟨map', es', he, heffect, hh', -⟩ := set_spec hh key (some value) value.length nofun
  refine ⟨map', he, es', hh', fun k => ?_⟩
  rw [heffect.stored hh.distinct k, Function.update_apply, hv k]
  split <;> rfl

theorem StoresText.get (h : StoresText map values) (key : Bytes) :
    ∃ found, map.get (hashCompute key) = .ok found ∧
      found.map (fun block => (block.data, block.size)) = (values key).map (fun value => (value, value.length)) := by
  obtain ⟨es, hh, hv⟩ := h
  refine ⟨_, get_spec hh key, ?_⟩
  rw [Option.map_map]
  exact hv key

theorem found_iff {found : Option (Block Bytes)} {stored : Option Bytes}
    (h : found.map (fun block => (block.data, block.size)) = stored.map (fun value => (value, value.length)))
    (value : Bytes) :
    (∃ block, found = some block ∧ block.data = value ∧ block.size = value.length) ↔ stored = some value := by
  cases found with
  | none =>
    cases stored with
    | none => simp
    | some v => cases h
  | some block =>
    cases stored with
    | none => cases h
    | some v =>
      obtain ⟨hdata, hsize⟩ := Prod.mk.inj (Option.some.inj h)
      constructor
      · rintro ⟨_, ⟨⟩, rfl, -⟩
        rw [hdata]
      · intro he
        obtain rfl := Option.some.inj he
        exact ⟨block, rfl, hdata, hsize⟩

/-- The letters get empty values. -/
theorem setLetters_spec (h : StoresText map values) (letters : Bytes) :
    ∃ map' values', setLetters map letters = .ok map' ∧ StoresText map' values' ∧
      (∀ b ∈ letters, values' [b] = some []) ∧ ∀ name, (∀ b ∈ letters, name ≠ [b]) → values' name = values name := by
  induction letters generalizing map values with
  | nil => exact ⟨map, values, rfl, h, nofun, fun _ _ => rfl⟩
  | cons letter letters ih =>
    obtain ⟨map1, hset, h1⟩ := h.set [letter] []
    obtain ⟨map', values', hrest, h', hin, hout⟩ := ih h1
    refine ⟨map', values', bind_eq_ok.mpr ⟨map1, hset, hrest⟩, h', fun b hb => ?_, fun name hname => ?_⟩
    · by_cases hmem : b ∈ letters
      · exact hin b hmem
      · have hfirst : b = letter := (List.mem_cons.mp hb).resolve_right hmem
        rw [hout [b] (fun c hc hbc => hmem ((List.cons.inj hbc).1 ▸ hc)), hfirst, Function.update_self]
    · rw [hout name (fun b hb => hname b (List.mem_cons_of_mem _ hb)),
        Function.update_of_ne (hname letter List.mem_cons_self)]

end Tables

def Tracked (map : Hashtable Bytes) (entries : List CString) : Prop :=
  ∃ values, StoresText map values ∧ ∀ name value, values name = some value ↔ LastSet entries name value

section Entries
variable {map map' : Hashtable Bytes} {values values' : Bytes → Option Bytes} {entries : List CString} {entry : CString}
  {argc : Nat} {s : Parse}

theorem tracked_new : Tracked Hashtable.new [] := by
  refine ⟨_, storesText_new, fun name value => ?_⟩
  constructor
  · exact nofun
  · rintro ⟨front, entry, back, hsplit, -⟩
    exact absurd hsplit.symm (List.append_ne_nil_of_right_ne_nil _ (List.cons_ne_nil _ _))

/-- One more entry: the names it sets, and the others. -/
theorem tracked_append (h : ∀ name value, values name = some value ↔ LastSet entries name value)
    (hstore : StoresText map' values') (hset : ∀ name value, Sets entry.bytes name value → values' name = some value)
    (hkeep : ∀ name, (∀ value, ¬ Sets entry.bytes name value) → values' name = values name) :
    Tracked map' (entries ++ [entry]) := by
  refine ⟨values', hstore, fun name value => ?_⟩
  rw [lastSet_append]
  by_cases hsets : ∃ v, Sets entry.bytes name v
  · obtain ⟨v, hv⟩ := hsets
    rw [hset name v hv]
    constructor
    · intro he
      obtain rfl := Option.some.inj he
      exact .inl hv
    · rintro (hv' | ⟨hnone, -⟩)
      · exact (hset name v hv).symm.trans (hset name value hv')
      · exact absurd hv (hnone v)
  · have hnone : ∀ v, ¬ Sets entry.bytes name v := fun v hv => hsets ⟨v, hv⟩
    rw [hkeep name hnone, h]
    constructor
    · exact fun hl => .inr ⟨hnone, hl⟩
    · rintro (hv | ⟨-, hl⟩)
      · exact absurd hv (hnone value)
      · exact hl

theorem Tracked.argument (h : Tracked map entries) (hentry : entry.bytes.head? ≠ some 45) :
    Tracked map (entries ++ [entry]) := by
  obtain ⟨values, hstore, hlast⟩ := h
  exact tracked_append hlast hstore (fun name value hs => absurd hs.head hentry) fun _ _ => rfl

theorem Tracked.letters (h : Tracked map entries) {letters : Bytes} (hentry : entry.bytes = 45 :: letters)
    (hsingle : letters.head? ≠ some 45) :
    ∃ map', setLetters map letters = .ok map' ∧ Tracked map' (entries ++ [entry]) := by
  obtain ⟨values, hstore, hlast⟩ := h
  obtain ⟨map', values', hset, hstore', hin, hout⟩ := setLetters_spec hstore letters
  refine ⟨map', hset, tracked_append hlast hstore' (fun name value hs => ?_) fun name hnone => hout name ?_⟩
  · rw [hentry, sets_letters hsingle] at hs
    obtain ⟨⟨b, hb, rfl⟩, rfl⟩ := hs
    exact hin b hb
  · intro b hb hname
    apply hnone []
    rw [hentry, sets_letters hsingle]
    exact ⟨⟨b, hb, hname⟩, rfl⟩

theorem Tracked.long (h : Tracked map entries) {arg : Bytes} (hentry : entry.bytes = 45 :: 45 :: arg) (hne : arg ≠ []) :
    ∃ map', setLong map arg = .ok map' ∧ Tracked map' (entries ++ [entry]) := by
  obtain ⟨values, hstore, hlast⟩ := h
  obtain ⟨name, value, hcall, hsets⟩ : ∃ name value,
      setLong map arg = map.set (hashCompute name) (some value) value.length ∧
        ∀ n v, Sets entry.bytes n v ↔ n = name ∧ v = value := by
    rcases nameLength_cases arg with hplain | ⟨name, value, hname, rfl⟩
    · exact ⟨arg, [], setLong_plain map hplain, fun n v => by rw [hentry, sets_plain hne hplain]⟩
    · exact ⟨name, value, setLong_valued map hname, fun n v => by rw [hentry, sets_valued hname]⟩
  obtain ⟨map', hset, hstore'⟩ := hstore.set name value
  refine ⟨map', hcall.trans hset, tracked_append hlast hstore' (fun n v hs => ?_) fun n hnone => ?_⟩
  · obtain ⟨rfl, rfl⟩ := (hsets n v).mp hs
    exact Function.update_self _ _ _
  · apply Function.update_of_ne
    rintro rfl
    exact hnone value ((hsets n value).mpr ⟨rfl, rfl⟩)

theorem parseArgument_option (argc : Nat) (h : Tracked map entries) {args : List CString}
    (hhead : entry.bytes.head? = some 45) (hdashes : entry.bytes ≠ [45, 45]) :
    ∃ map', parseArgument argc ⟨map, args, true⟩ entry = .ok ⟨map', args, true⟩ ∧
      Tracked map' (entries ++ [entry]) := by
  obtain ⟨letters, hentry⟩ := List.head?_eq_some_iff.mp hhead
  have hsecond : entry.bytes[1]? = letters.head? := by
    rw [hentry]
    cases letters <;> rfl
  rw [parseArgument, if_pos ⟨rfl, hhead⟩, hsecond]
  by_cases hsingle : letters.head? = some 45
  · obtain ⟨arg, rfl⟩ := List.head?_eq_some_iff.mp hsingle
    have hne : arg ≠ [] := by
      rintro rfl
      exact hdashes hentry
    have hlen : entry.bytes.length ≠ 2 := by
      rw [hentry]
      simpa using hne
    obtain ⟨map', hset, h'⟩ := h.long hentry hne
    rw [if_neg (not_not.mpr hsingle), if_neg hlen, hentry]
    exact ⟨map', bind_eq_ok.mpr ⟨map', hset, rfl⟩, h'⟩
  · obtain ⟨map', hset, h'⟩ := h.letters hentry hsingle
    rw [if_pos hsingle, hentry]
    exact ⟨map', bind_eq_ok.mpr ⟨map', hset, rfl⟩, h'⟩

/-- An entry that is an argument. -/
theorem parseArgument_argument (map : Hashtable Bytes) {args : List CString} (parsingOptions : Bool)
    (hs : ¬ (parsingOptions = true ∧ entry.bytes.head? = some 45)) (hroom : args.length < argc) :
    parseArgument argc ⟨map, args, parsingOptions⟩ entry = .ok ⟨map, args ++ [entry], parsingOptions⟩ := by
  rw [parseArgument, if_neg hs, storeArgument, if_pos hroom]
  rfl

/-- The entries in front of the first "--". -/
theorem parse_options (args more : List CString) (hnone : ∀ e ∈ more, e.bytes ≠ [45, 45])
    (h : Tracked map entries) (hroom : args.length + more.length ≤ argc) :
    ∃ map', more.foldlM (parseArgument argc) ⟨map, args, true⟩ =
        .ok ⟨map', args ++ more.filter (fun arg => arg.bytes.head? ≠ some 45), true⟩ ∧
      Tracked map' (entries ++ more) := by
  induction more generalizing map args entries with
  | nil => exact ⟨map, by rw [List.filter_nil, List.append_nil]; rfl, by rwa [List.append_nil]⟩
  | cons entry more ih =>
    have hrest : ∀ e ∈ more, e.bytes ≠ [45, 45] := fun e he => hnone e (List.mem_cons_of_mem _ he)
    rw [List.length_cons] at hroom
    rw [List.foldlM_cons, List.append_cons entries]
    by_cases hhead : entry.bytes.head? = some 45
    · obtain ⟨map1, hstep, h1⟩ := parseArgument_option argc h hhead (hnone entry List.mem_cons_self)
      obtain ⟨map', hmore, h'⟩ := ih args hrest h1 (show args.length + more.length ≤ argc by omega)
      refine ⟨map', ?_, h'⟩
      rw [hstep, fault_ok_bind, hmore, List.filter_cons_of_neg (by simpa using hhead)]
    · have hstep := parseArgument_argument map true (fun hp => hhead hp.2) (show args.length < argc by omega)
      obtain ⟨map', hmore, h'⟩ := ih (args ++ [entry]) hrest (h.argument hhead) (by
        rw [List.length_append, List.length_singleton]
        omega)
      refine ⟨map', ?_, h'⟩
      rw [hstep, fault_ok_bind, hmore, List.filter_cons_of_pos (by simpa using hhead), List.append_assoc]
      rfl

theorem parse_arguments (map : Hashtable Bytes) (args more : List CString) (hroom : args.length + more.length ≤ argc) :
    more.foldlM (parseArgument argc) ⟨map, args, false⟩ = .ok ⟨map, args ++ more, false⟩ := by
  induction more generalizing args with
  | nil =>
    rw [List.append_nil]
    rfl
  | cons entry more ih =>
    rw [List.length_cons] at hroom
    have hoff : ¬ (false = true ∧ entry.bytes.head? = some 45) := fun hp => absurd hp.1 Bool.false_ne_true
    have hstep := parseArgument_argument map false hoff (show args.length < argc by omega)
    rw [List.foldlM_cons, hstep, fault_ok_bind, ih, List.append_assoc]
    · rfl
    · rw [List.length_append, List.length_singleton]
      omega

/-- The command line is its options, with the arguments among them, and what is behind the first "--". -/
theorem optionEntries_split (argv : List CString) :
    (argv.tail = optionEntries argv ∧
        positional argv = (optionEntries argv).filter (fun arg => arg.bytes.head? ≠ some 45)) ∨
      ∃ dashes back, dashes.bytes = [45, 45] ∧ argv.tail = optionEntries argv ++ dashes :: back ∧
        positional argv = (optionEntries argv).filter (fun arg => arg.bytes.head? ≠ some 45) ++ back := by
  have hsplit : argv.tail = optionEntries argv ++ argv.tail.dropWhile (fun arg => arg.bytes ≠ [45, 45]) :=
    List.takeWhile_append_dropWhile.symm
  rw [positional]
  cases hback : argv.tail.dropWhile (fun arg => arg.bytes ≠ [45, 45]) with
  | nil =>
    rw [hback, List.append_nil] at hsplit
    exact .inl ⟨hsplit, by rw [List.tail_nil, List.append_nil]⟩
  | cons dashes back =>
    rw [hback] at hsplit
    refine .inr ⟨dashes, back, ?_, hsplit, by rw [List.tail_cons]⟩
    have hfirst := List.head?_dropWhile_not (fun arg : CString => arg.bytes ≠ [45, 45]) argv.tail
    rw [hback] at hfirst
    simpa using hfirst

/-- What does not stop the options. -/
theorem mem_optionEntries {argv : List CString} {entry : CString} (h : entry ∈ optionEntries argv) :
    entry.bytes ≠ [45, 45] := by
  have hentry := List.mem_takeWhile_imp h
  simpa using hentry

theorem parse_all (argv : List CString) :
    ∃ s, argv.tail.foldlM (parseArgument argv.length) ⟨Hashtable.new, [], true⟩ = .ok s ∧
      s.args = positional argv ∧ Tracked s.optHashtable (optionEntries argv) := by
  have hlen : argv.tail.length ≤ argv.length := by
    rw [List.length_tail]
    exact Nat.sub_le _ _
  have hroom : ([] : List CString).length + (optionEntries argv).length ≤ argv.length := by
    rw [List.length_nil, Nat.zero_add]
    exact (List.takeWhile_sublist _).length_le.trans hlen
  obtain ⟨map, hrun, htracked⟩ :=
    parse_options [] (optionEntries argv) (fun e he => mem_optionEntries he) tracked_new hroom
  rcases optionEntries_split argv with ⟨hsplit, hpositional⟩ | ⟨dashes, back, hdashes, hsplit, hpositional⟩
  · rw [hpositional, hsplit]
    exact ⟨_, hrun, rfl, htracked⟩
  · have hstop : ∀ args, parseArgument argv.length ⟨map, args, true⟩ dashes = .ok ⟨map, args, false⟩ := by
      intro args
      rw [parseArgument, if_pos ⟨rfl, by rw [hdashes]; rfl⟩, hdashes]
      rfl
    have hbehind := parse_arguments map ((optionEntries argv).filter (fun arg => arg.bytes.head? ≠ some 45)) back
      (show _ ≤ argv.length by
        have hfilter := List.length_filter_le (fun arg : CString => arg.bytes.head? ≠ some 45) (optionEntries argv)
        rw [hsplit, List.length_append, List.length_cons] at hlen
        omega)
    rw [hpositional, hsplit, List.foldlM_append, hrun, fault_ok_bind, List.foldlM_cons, hstop, fault_ok_bind,
      List.nil_append, hbehind]
    exact ⟨_, rfl, rfl, htracked⟩

end Entries

/-- The command line, parsed: the arguments in order and inside their array; the last setting of each
name before the first "--", in a block of its own length; and no other name. -/
theorem options_load (argv : List CString) :
    ∃ options, optionsLoad argv = .ok options ∧
      (∀ position, optionsArgument options position = (positional argv)[position]?) ∧
      optionsArgumentCount options = (positional argv).length ∧ optionsArgumentCount options ≤ argv.length ∧
      ∀ name, ∃ found, options.optHashtable.get (hashCompute name) = .ok found ∧
        (∀ value, (∃ block, found = some block ∧ block.data = value ∧ block.size = value.length) ↔
          LastSet (optionEntries argv) name value) ∧
        (found = none ↔ ∀ entry ∈ optionEntries argv, ∀ value, ¬ Sets entry.bytes name value) := by
  obtain ⟨s, hrun, hargs, values, hstore, hlast⟩ := parse_all argv
  have hload : optionsLoad argv = .ok ⟨s.optHashtable, s.args, argv.head?⟩ := by
    rw [optionsLoad, hrun]
    rfl
  have hcount : s.args.length = (positional argv).length := congrArg List.length hargs
  refine ⟨_, hload, fun position => ?_, hcount, hcount.trans_le (positional_length argv), fun name => ?_⟩
  · rw [optionsArgument, optionsArgumentCount, ← hargs]
    split
    · next hle => exact (List.getElem?_eq_none hle).symm
    · rfl
  · obtain ⟨found, hget, hfound⟩ := hstore.get name
    refine ⟨found, hget, fun value => ?_, ?_⟩
    · rw [← hlast]
      exact found_iff hfound value
    · have hset : (∃ value, values name = some value) ↔
          ∃ entry ∈ optionEntries argv, ∃ value, Sets entry.bytes name value := by
        simp only [hlast, lastSet_exists]
      have hnone : found = none ↔ ¬ ∃ value, values name = some value := by
        rw [← Option.map_eq_none_iff, hfound, Option.map_eq_none_iff, ← Option.ne_none_iff_exists', not_not]
      rw [hnone, hset]
      push Not
      exact Iff.rfl

end CFlare.CommandLine
