import CFlare.CommandLine.OptionParsing
import CFlare.Handles.HandleLifecycle
import CFlare.Hooks.HookNames
import CFlare.Http.HeaderFiles
import CFlare.Http.ResponseReading
import CFlare.System.FilesystemListing

/-! The start of the program: what it reads from its configuration is what requests are processed with. -/
namespace CFlare.Http
open CFlare.Library CFlare.Storage CFlare.System CFlare.Hooks CFlare.Handles CFlare.CommandLine CFlare.Network

/-- The directories of the system, and what can be read of a file. -/
structure Disk where
  directories : Directories
  read : Bytes → Option Bytes

def cfgpath : Bytes := ascii "./"

/-- A string in memory that is given to a function. -/
def givenString (text : Bytes) : Except Fault CString :=
  if h : (0 : UInt8) ∉ text ∧ text.length + 1 < 2^63 then .ok ⟨text, h.1, h.2⟩ else .error .undefined

section Load
variable {σ P F X : Type}

/-- The loop over the files of a directory. -/
def parseEach (disk : Disk) (parse : σ → Option Bytes → Except Fault σ) (files : LinkedList FilesystemEntry) :
    Nat → Iterator → σ → Except Fault σ
  | 0, _, _ => .error .diverged
  | fuel + 1, it, loaded => do
    let (position, it) ← files.iteratorNext it
    match position with
    | none => .ok loaded
    | some p =>
      let ent ← files.node p
      let loaded ← parse loaded (disk.read ent.data.path)
      parseEach disk parse files fuel it loaded

/-- What both loaders do: every file of a directory of the configuration is parsed. -/
def loadFiles (disk : Disk) (fuel : Nat) (dir : Bytes) (parse : σ → Option Bytes → Except Fault σ) (start : σ) :
    Except Fault σ := do
  let (text, _) ← stringConcat [cfgpath, dir]
  let path ← givenString text
  let files ← filesystemList disk.directories fuel path 0
  let loaded ← parseEach disk parse files fuel LinkedList.getIterator start
  let _ ← files.delete
  .ok loaded

def httpstatusLoad (float : FloatArith) (disk : Disk) (fuel : Nat) : Except Fault HttpStatus :=
  loadFiles disk fuel (ascii "http/statuses") (HttpStatus.parseFile float)
    ⟨Hashtable.new.ondelete true, Hashtable.new.ondelete true, 0⟩

def headersLoadFrom (disk : Disk) (fuel : Nat) : Except Fault (GlobalTable × CommonHeaders) := do
  let table ← loadFiles disk fuel (ascii "http/headers") parseFile (Hashtable.new.ondelete true, 1)
  let common ← commonHeaders table.1
  .ok (table, common)

/-- What is loaded at the start. -/
structure Server (P F X : Type) where
  handles : HandleTable
  hooks : Registry P F X
  options : Options
  statuses : HttpStatus
  headers : GlobalTable
  common : CommonHeaders

def cflareLoad (float : FloatArith) (disk : Disk) (fuel : Nat) (argv : List CString) :
    Except Fault (Server P F X) := do
  let (loaded, handles) := handleLoad HandleTable.initial
  let () ← loaded
  let hooks ← hookLoad Registry.unloaded
  let options ← optionsLoad argv
  let statuses ← httpstatusLoad float disk fuel
  let (headers, common) ← headersLoadFrom disk fuel
  .ok ⟨handles, hooks, options, statuses, headers, common⟩

end Load

/-- The entries that every directory has are not listed. -/
def isListed (ent : Dirent) : Bool := ent.name.bytes ≠ ascii "." && ent.name.bytes ≠ ascii ".."

namespace Disk
variable (disk : Disk)

/-- The files of a directory, in the order in which it lists them. One that cannot be opened has none. -/
def files (path : Bytes) : List FilesystemEntry :=
  ((disk.directories.opendir path).getD []).filter isListed |>.map fun ent =>
    ⟨path ++ ent.name.bytes, path.length, entryType ent.type, 0⟩

def contents (path : Bytes) : List (Option Bytes) := (disk.files path).map (fun ent => disk.read ent.path)

def headerNames : List CString :=
  (disk.contents (ascii "./http/headers/")).flatMap (fun file => file.elim [] createdNames)

def statusEntries (float : FloatArith) : List (UInt32 × CString) :=
  entriesOf float (disk.contents (ascii "./http/statuses/"))

end Disk

section Listing
variable {dirs : Directories} {path : Bytes} {list : LinkedList FilesystemEntry} {es : List FilesystemEntry}

/-- Without options what is listed does not depend on what is below the directory. -/
theorem populateEntry_flat
    (descend : LinkedList FilesystemEntry → Bytes → Nat → Nat → Except Fault (LinkedList FilesystemEntry))
    (h : Lists list es) (hfit : path.length + 1 < 2^63) (hnull : (0 : UInt8) ∉ path) (ent : Dirent) :
    ∃ list', populateEntry descend false false path path.length 0 list ent = .ok list' ∧
      Lists list' (es ++ if isListed ent then [⟨path ++ ent.name.bytes, path.length, entryType ent.type, 0⟩] else []) := by
  have hshort := ent.name.short
  have hpath : stringConcat [path, ent.name.bytes] =
      .ok (path ++ ent.name.bytes, (path ++ ent.name.bytes).length) :=
    stringConcat_pair (by rw [sizeLimit]; omega) hnull ent.name.noNull
  rw [populateEntry]
  by_cases hself : ent.name.bytes = ascii "."
  · exact ⟨list, if_pos hself, by simpa [isListed, hself] using h⟩
  · rw [if_neg hself]
    by_cases hparent : ent.name.bytes = ascii ".."
    · exact ⟨list, if_pos hparent, by simpa [isListed, hparent] using h⟩
    · obtain ⟨p, list', he, hlist'⟩ :=
        h.insertLast ⟨path ++ ent.name.bytes, path.length, entryType ent.type, 0⟩
      refine ⟨list', ?_, by simpa [isListed, hself, hparent] using hlist'⟩
      rw [if_neg hparent]
      simp [hpath, he]

theorem populateEntries_flat
    (descend : LinkedList FilesystemEntry → Bytes → Nat → Nat → Except Fault (LinkedList FilesystemEntry))
    (h : Lists list es) (hfit : path.length + 1 < 2^63) (hnull : (0 : UInt8) ∉ path) (ents : List Dirent) :
    ∃ list', ents.foldlM (populateEntry descend false false path path.length 0) list = .ok list' ∧
      Lists list' (es ++ (ents.filter isListed).map
        (fun ent => ⟨path ++ ent.name.bytes, path.length, entryType ent.type, 0⟩)) := by
  induction ents generalizing list es with
  | nil => exact ⟨list, rfl, by simpa using h⟩
  | cons ent ents ih =>
    obtain ⟨list1, he, h1⟩ := populateEntry_flat descend h hfit hnull ent
    obtain ⟨list', hes, h'⟩ := ih h1
    rw [List.foldlM_cons, he, fault_ok_bind]
    refine ⟨list', hes, ?_⟩
    cases hl : isListed ent <;> simpa [hl] using h'

end Listing

section Loop
variable {σ : Type} {disk : Disk}

/-- The loop is a fold over what is read of the files. -/
theorem parseEach_eq (parse : σ → Option Bytes → Except Fault σ) {files : LinkedList FilesystemEntry}
    {front rest : Cells FilesystemEntry} (h : Represents files (front ++ rest)) {it : Iterator}
    (hi : it.Ahead files rest) {fuel : Nat} (hfuel : rest.length < fuel) (loaded : σ) :
    parseEach disk parse files fuel it loaded =
      ((Cells.data rest).map (fun ent => disk.read ent.path)).foldlM parse loaded := by
  induction rest generalizing front it fuel loaded with
  | nil =>
    obtain ⟨fuel, rfl⟩ := Nat.exists_eq_succ_of_ne_zero (Nat.ne_of_gt hfuel)
    obtain ⟨it', he, -⟩ := iteratorNext_nil hi
    simp only [parseEach, he, fault_ok_bind]
    rfl
  | cons c rest ih =>
    obtain ⟨p, ent⟩ := c
    obtain ⟨fuel, rfl⟩ := Nat.exists_eq_succ_of_ne_zero (Nat.ne_zero_of_lt hfuel)
    obtain ⟨it', n, he, -, hnode, hdata, hahead⟩ := iteratorNext_cons h hi
    have h' : Represents files ((front ++ [(p, ent)]) ++ rest) := by simpa using h
    simp only [parseEach, he, fault_ok_bind, hnode, hdata]
    show _ = ((ent :: Cells.data rest).map _).foldlM parse loaded
    rw [List.map_cons, List.foldlM_cons]
    cases parse loaded (disk.read ent.path) with
    | error fault => rfl
    | ok loaded => exact ih h' (hahead files) (Nat.lt_of_succ_lt_succ hfuel) loaded

/-- Loading parses what is read of the files of the directory, in their order. -/
theorem loadFiles_eq (parse : σ → Option Bytes → Except Fault σ) (start : σ) {dir : Bytes} {fuel : Nat}
    (hnull : (0 : UInt8) ∉ dir) (hdir : dir.length < 2^32) (hslash : dir.getLast? ≠ some 47) (hne : dir ≠ [])
    (hfuel : (disk.files (cfgpath ++ dir ++ ascii "/")).length < fuel) :
    loadFiles disk fuel dir parse start =
      (disk.contents (cfgpath ++ dir ++ ascii "/")).foldlM parse start := by
  have htwo : cfgpath.length = 2 := rfl
  have hcfg : (0 : UInt8) ∉ cfgpath := by decide
  have hfree : (0 : UInt8) ∉ cfgpath ++ dir := by simp [hcfg, hnull]
  have hlen : (cfgpath ++ dir).length + 1 < 2^63 := by
    rw [List.length_append, htwo]
    omega
  have hconcat : stringConcat [cfgpath, dir] = .ok (cfgpath ++ dir, (cfgpath ++ dir).length) :=
    stringConcat_pair (by rw [sizeLimit, htwo]; omega) hcfg hnull
  have hgiven : givenString (cfgpath ++ dir) = .ok ⟨cfgpath ++ dir, hfree, hlen⟩ := dif_pos ⟨hfree, hlen⟩
  have hstart : withSeparator (cfgpath ++ dir) = cfgpath ++ dir ++ ascii "/" := by
    rw [withSeparator, List.getLast?_append_of_ne_nil _ hne, if_neg hslash]
  obtain ⟨files, hfiles, cells, hrep, hcount, hdata⟩ : ∃ files,
      filesystemList disk.directories fuel ⟨cfgpath ++ dir, hfree, hlen⟩ 0 = .ok files ∧
        Lists files (disk.files (cfgpath ++ dir ++ ascii "/")) := by
    obtain ⟨fuel, rfl⟩ := Nat.exists_eq_succ_of_ne_zero (Nat.ne_zero_of_lt hfuel)
    rw [filesystemList_start _ 0 (by simp [hne]), hstart, populateList, Disk.files]
    cases hopen : disk.directories.opendir (cfgpath ++ dir ++ ascii "/") with
    | none => exact ⟨_, rfl, lists_new⟩
    | some ents =>
      obtain ⟨files, he, hlists⟩ := populateEntries_flat
        (populateList disk.directories false false fuel) lists_new (disk.directories.limited _ _ hopen)
        (by simp [hcfg, hnull, slash_noNull]) ents
      exact ⟨files, he, hlists⟩
  have hrep0 : Represents files ([] ++ cells) := hrep
  have hturns : cells.length < fuel := by
    rwa [← hdata, List.length_map] at hfuel
  have hloop : parseEach disk parse files fuel LinkedList.getIterator start =
      ((cells.map Prod.snd).map (fun ent => disk.read ent.path)).foldlM parse start :=
    parseEach_eq parse hrep0 (ahead_getIterator hrep) hturns start
  simp only [loadFiles, hconcat, fault_ok_bind, hgiven, hfiles, hloop, delete_spec hrep hcount, Disk.contents, ← hdata]
  show ((cells.map Prod.snd).map (fun ent => disk.read ent.path)).foldlM parse start >>= _ = _
  cases ((cells.map Prod.snd).map (fun ent => disk.read ent.path)).foldlM parse start <;> rfl

end Loop

section Lines
variable {line : Bytes}

/-- A newline ends what `fgets` reads. -/
theorem fgetsLines_newline (file : Bytes) (h : newline ∉ line) :
    ∀ read ∈ fgetsLines file line, newline ∉ read.dropLast := by
  induction file generalizing line with
  | nil =>
    intro read hr
    rw [fgetsLines] at hr
    split at hr
    · cases hr
    · rw [List.mem_singleton.mp hr]
      exact fun hm => h (List.mem_of_mem_dropLast hm)
  | cons b file ih =>
    intro read hr
    rw [fgetsLines] at hr
    split at hr
    · rcases List.mem_cons.mp hr with rfl | hr
      · rwa [List.dropLast_concat]
      · exact ih List.not_mem_nil read hr
    · next hb =>
      refine ih ?_ read hr
      rw [List.mem_append, not_or]
      exact ⟨h, fun hm => hb (.inl (List.mem_singleton.mp hm).symm)⟩

theorem dropLast_of_take (line : Bytes) (n : Nat) : (line.take n).dropLast = line.dropLast.take (n - 1) := by
  rw [List.dropLast_eq_take, List.take_take, List.dropLast_eq_take, List.take_take, List.length_take]
  congr 1
  omega

theorem newline_cut {s : CString} (h : newline ∉ s.bytes.dropLast) (n : Nat) : newline ∉ (cut s n).bytes.dropLast := by
  show newline ∉ (s.bytes.take n).dropLast
  rw [dropLast_of_take]
  exact fun hm => h (List.mem_of_mem_take hm)

theorem newline_behind {s : CString} (h : newline ∉ s.bytes.dropLast) (n : Nat) :
    newline ∉ (behind s n).bytes.dropLast := by
  show newline ∉ (s.bytes.drop n).dropLast
  rw [List.dropLast_drop_eq_drop_dropLast]
  exact fun hm => h (List.mem_of_mem_drop hm)

/-- Where the last visible character was found there is one. -/
theorem lastVisible_spec (text : Bytes) (pos lastpos : Nat) : lastVisible text pos lastpos = lastpos ∨
    ∃ i b, text[i]? = some b ∧ isSpace b = false ∧ lastVisible text pos lastpos = pos + i := by
  induction text generalizing pos lastpos with
  | nil => exact .inl rfl
  | cons x text ih =>
    rw [lastVisible]
    rcases ih (pos + 1) (if isSpace x then lastpos else pos) with h | ⟨i, b, hi, hb, h⟩
    · rw [h]
      by_cases hx : isSpace x = true
      · exact .inl (if_pos hx)
      · exact .inr ⟨0, x, rfl, Bool.eq_false_iff.mpr hx, if_neg hx⟩
    · exact .inr ⟨i + 1, b, hi, hb, by rw [h]; omega⟩

/-- A text that is cut behind its last visible character has no newline if it could have had one only at its end. -/
theorem newline_visible {text : Bytes} (h : newline ∉ text.dropLast) (hpos : lastVisible text 0 0 ≠ 0) :
    newline ∉ text.take (lastVisible text 0 0 + 1) := by
  rcases lastVisible_spec text 0 0 with hnone | ⟨i, b, hi, hb, hlast⟩
  · exact absurd hnone hpos
  · obtain ⟨hlt, hget⟩ := List.getElem?_eq_some_iff.mp hi
    rw [hlast, Nat.zero_add, List.take_succ_eq_append_getElem hlt, hget, List.mem_append, List.mem_singleton, not_or]
    refine ⟨fun hm => h ?_, ?_⟩
    · rw [List.dropLast_eq_take]
      exact (List.take_subset_take_left text (Nat.le_sub_one_of_lt hlt)) hm
    · rintro rfl
      exact absurd hb (by decide)

theorem acceptedEntry_newline {float : FloatArith} {line : CString} {entry : UInt32 × CString}
    (hline : newline ∉ line.bytes.dropLast) (h : acceptedEntry float line = some entry) : newline ∉ entry.2.bytes := by
  have he : lineEntry float line = .ok (some entry) := by rw [lineEntry_accepted, h]
  unfold lineEntry at he
  dsimp only at he
  have hrest := newline_behind (newline_cut hline (line.bytes.takeWhile (· ≠ 35)).length)
    ((cut line (line.bytes.takeWhile (· ≠ 35)).length).bytes.takeWhile isSpace).length
  generalize behind (cut line _) _ = rest at he hrest
  split at he
  · cases he
  obtain ⟨tmp, -, he⟩ := bind_eq_ok.mp he
  cases tmp with
  | none => cases he
  | some tmp =>
    dsimp only at he
    split at he
    · cases he
    · next hpos =>
      cases he
      exact newline_visible (newline_behind hrest _) hpos

theorem entriesOf_newline {float : FloatArith} {files : List (Option Bytes)} {entry : UInt32 × CString}
    (h : entry ∈ entriesOf float files) : newline ∉ entry.2.bytes := by
  obtain ⟨file, -, hm⟩ := List.mem_flatMap.mp h
  cases file with
  | none => cases hm
  | some file =>
    obtain ⟨read, hread, hentry⟩ := List.mem_filterMap.mp hm
    refine acceptedEntry_newline ?_ hentry
    show newline ∉ ((read.take (maxLineLength - 1)).takeWhile (· ≠ 0)).dropLast
    have hpiece := fgetsLines_newline file List.not_mem_nil read hread
    obtain ⟨n, hn⟩ : ∃ n, (read.take (maxLineLength - 1)).takeWhile (· ≠ 0) = read.take n :=
      ⟨_, List.prefix_iff_eq_take.mp ((List.takeWhile_prefix _).trans (List.take_prefix _ _))⟩
    rw [hn, dropLast_of_take]
    exact fun hm => hpiece (List.mem_of_mem_take hm)

end Lines

section Start
variable {P F X : Type} {float : FloatArith} {disk : Disk} {fuel : Nat}

/-- The reason of the last entry with a code. -/
def listedReason (entries : List (UInt32 × CString)) (code : UInt32) : Option CString :=
  (entries.reverse.find? (fun entry => entry.1 = code)).map Prod.snd

theorem listedReason_mem {entries : List (UInt32 × CString)} {code : UInt32} {text : CString}
    (h : listedReason entries code = some text) : ∃ entry ∈ entries, entry.2 = text := by
  obtain ⟨entry, he, ht⟩ := Option.map_eq_some_iff.mp h
  exact ⟨entry, List.mem_reverse.mp (List.mem_of_find?_eq_some he), ht⟩

/-- What is loaded is what an environment of requests knows, and the tables that grow later are as new. -/
structure Server.Provides (server : Server P F X) (argv : List CString) (names : List CString) (env : Environment) :
    Prop where
  handles : Lifecycle 0 [] [] server.handles
  hooks : Tracks server.hooks [] (fun _ => [])
  arguments : server.options.args = positional argv
  options : Tracked server.options.optHashtable (optionEntries argv)
  statuses : ∀ code, server.statuses.tostring code = .ok (env.statusString code)
  headers : env.table.canonicalHeaders = server.headers.1
  common : env.table.common = server.common
  named : Loading server.headers names env.table.entries

theorem parseFiles_created (files : List (Option Bytes)) (table : GlobalTable) :
    files.foldlM parseFile table = (files.flatMap (fun file => file.elim [] createdNames)).foldlM createHeader table := by
  induction files generalizing table with
  | nil => rfl
  | cons file files ih =>
    have hfile : parseFile table file = (file.elim [] createdNames).foldlM createHeader table := by
      cases file with
      | none => rfl
      | some file => exact parseFile_created table file
    rw [List.foldlM_cons, List.flatMap_cons, List.foldlM_append, hfile]
    exact congrArg _ (funext ih)

theorem commonHeaders_loaded {map : Hashtable LoadedHeader} {es : List (Container LoadedHeader)} (h : Holds map es) :
    ∃ common, commonHeaders map = .ok common := by
  simp only [commonHeaders, headersGet_holds h, fault_ok_bind]
  exact ⟨_, rfl⟩

theorem headers_loaded (hroom : disk.headerNames.length < 2^31)
    (hcommon : ∀ name ∈ commonNames, ∃ listed ∈ disk.headerNames, normalizeHeader listed.bytes = normalizeHeader name)
    (hfuel : (disk.files (ascii "./http/headers/")).length < fuel) :
    ∃ (headers : GlobalTable) (table : HeaderTable), headersLoadFrom disk fuel = .ok (headers, table.common) ∧
      table.canonicalHeaders = headers.1 ∧ Loading headers disk.headerNames table.entries ∧ Spelled table.entries := by
  have hlen : ∀ name ∈ disk.headerNames, name.bytes.length ≤ maxHeaderLength := by
    intro name hn
    obtain ⟨file, -, hn⟩ := List.mem_flatMap.mp hn
    cases file with
    | none => cases hn
    | some file =>
      obtain ⟨line, -, hname⟩ := List.mem_filterMap.mp hn
      exact lineName_length hname
  obtain ⟨headers, es, hrun, hloading, hspelled⟩ := createHeaders_spec loading_start hlen hroom
  rw [List.nil_append] at hloading
  obtain ⟨common, hc⟩ := commonHeaders_loaded hloading.holds
  have hload : loadFiles disk fuel (ascii "http/headers") parseFile (Hashtable.new.ondelete true, 1) =
      (disk.contents (ascii "./http/headers/")).foldlM parseFile (Hashtable.new.ondelete true, 1) :=
    loadFiles_eq parseFile _ (by decide) (by decide) (by decide) (by decide) hfuel
  rw [parseFiles_created, ← Disk.headerNames, hrun] at hload
  have hknown : ∀ name ∈ commonNames, entryAt Container.key es (normalizeHeader name) ≠ none := by
    intro name hn
    obtain ⟨listed, hm, heq⟩ := hcommon name hn
    exact (hloading.known _).mpr (List.mem_map.mpr ⟨listed, hm, heq⟩)
  refine ⟨headers, ⟨headers.1, common, es, hloading.holds, hloading.positive, hloading.distinct, hc, hknown⟩, ?_, rfl,
    hloading, hspelled spelled_nil⟩
  simp only [headersLoadFrom, hload, fault_ok_bind, hc]

theorem statuses_loaded (hfuel : (disk.files (ascii "./http/statuses/")).length < fuel) :
    ∃ st, httpstatusLoad float disk fuel = .ok st ∧ st.Loaded (disk.statusEntries float) := by
  obtain ⟨st, he, hloaded⟩ := HttpStatus.load_spec float (disk.contents (ascii "./http/statuses/"))
  have hload : httpstatusLoad float disk fuel = HttpStatus.load float (disk.contents (ascii "./http/statuses/")) :=
    loadFiles_eq (HttpStatus.parseFile float) _ (by decide) (by decide) (by decide) (by decide) hfuel
  exact ⟨st, hload.trans he, hloaded⟩

/-- A file with the common names, and one with two statuses, the second of them twice. -/
def smallDisk : Disk where
  directories :=
    { opendir := fun path =>
        if path = ascii "./http/headers/" then some [⟨⟨ascii ".", by decide, by decide⟩, dtDir⟩,
          ⟨⟨ascii "names", by decide, by decide⟩, dtReg⟩]
        else if path = ascii "./http/statuses/" then some [⟨⟨ascii "codes", by decide, by decide⟩, dtReg⟩]
        else none
      limited := by
        intro path entries h
        by_cases hheaders : path = ascii "./http/headers/"
        · subst hheaders
          decide
        · rw [if_neg hheaders] at h
          by_cases hstatuses : path = ascii "./http/statuses/"
          · subst hstatuses
            decide
          · rw [if_neg hstatuses] at h
            cases h }
  read path :=
    if path = ascii "./http/headers/names" then
      some (ascii "# the common names\nHost\ncontent-type\nContent-Length\nConnection\nServer\nDate # of the day\n")
    else if path = ascii "./http/statuses/codes" then some (ascii "200 OK\n404 Not found\n404 Not Found # again\n")
    else none

end Start

end CFlare.Http
