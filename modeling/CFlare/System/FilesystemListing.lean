import CFlare.Library.Lines
import CFlare.System.Filesystem

/-! What is listed of a tree of directories: its entries in depth-first order, as far as the options select them. -/
namespace CFlare.System
open CFlare.Library CFlare.Storage

/-- A name of an entry other than the two that every directory has. -/
structure FileName where
  text : CString
  plain : (47 : UInt8) ∉ text.bytes
  notSelf : text.bytes ≠ ascii "."
  notParent : text.bytes ≠ ascii ".."

/-- The entries of a directory, in the order in which they are read, and those of its directories. -/
inductive Tree where
  | nil
  | dots (name : CString) (h : name.bytes = ascii "." ∨ name.bytes = ascii "..") (type : UInt8) (rest : Tree)
  | leaf (name : FileName) (type : UInt8) (h : entryType type ≠ .directory) (rest : Tree)
  | dir (name : FileName) (children rest : Tree)

/-- An entry of a tree, with the names of the directories that it is in. -/
structure TreeEntry where
  up : List Bytes
  name : Bytes
  type : EntryType

namespace Tree

def dirents : Tree → List Dirent
  | nil => []
  | dots name _ type rest => ⟨name, type⟩ :: dirents rest
  | leaf name type _ rest => ⟨name.text, type⟩ :: dirents rest
  | dir name _ rest => ⟨name.text, dtDir⟩ :: dirents rest

/-- Depth-first, each directory in front of what is in it. -/
def entries (up : List Bytes) : Tree → List TreeEntry
  | nil => []
  | dots _ _ _ rest => entries up rest
  | leaf name type _ rest => ⟨up, name.text.bytes, entryType type⟩ :: entries up rest
  | dir name children rest =>
    ⟨up, name.text.bytes, .directory⟩ :: (entries (up ++ [name.text.bytes]) children ++ entries up rest)

def depth : Tree → Nat
  | nil => 0
  | dots _ _ _ rest => depth rest
  | leaf _ _ _ rest => depth rest
  | dir _ children rest => max (depth children + 1) (depth rest)

end Tree

/-- The directories below a path are those of a tree. -/
def Directories.Below (dirs : Directories) : Bytes → Tree → Prop
  | _, .nil => True
  | path, .dots _ _ _ rest => dirs.Below path rest
  | path, .leaf _ _ _ rest => dirs.Below path rest
  | path, .dir name children rest =>
    dirs.opendir (path ++ name.text.bytes ++ ascii "/") = some children.dirents ∧
      dirs.Below (path ++ name.text.bytes ++ ascii "/") children ∧ dirs.Below path rest

/-- The directory at a path is a tree: it and all directories in it can be opened. -/
def Directories.Shows (dirs : Directories) (path : Bytes) (tree : Tree) : Prop :=
  dirs.opendir path = some tree.dirents ∧ dirs.Below path tree

/-- The entries that the options ask for. -/
def TreeEntry.selected (recursive excDirs : Bool) (entry : TreeEntry) : Bool :=
  (recursive || entry.up = []) && !(excDirs && entry.type = .directory)

/-- What an element of the list says. -/
structure Listed where
  path : Bytes
  name : Bytes
  type : EntryType
  depth : Nat
  deriving DecidableEq, Repr

def FilesystemEntry.listed (entry : FilesystemEntry) : Listed :=
  ⟨entry.path, entry.path.drop entry.name, entry.type, entry.depth⟩

/-- What it has to say of an entry: the path from the start on, with the names of the directories on the way. -/
def TreeEntry.listed (start : Bytes) (entry : TreeEntry) : Listed :=
  ⟨start ++ joinLines 47 entry.up ++ entry.name, entry.name, entry.type, entry.up.length⟩

def withSeparator (path : Bytes) : Bytes := if path.getLast? = some 47 then path else path ++ ascii "/"

/-- What is behind the last separator of a path. -/
def lastPart (path : Bytes) : Bytes := (path.reverse.takeWhile (· ≠ 47)).reverse

def TreeEntry.element (start : Bytes) (entry : TreeEntry) : FilesystemEntry :=
  ⟨start ++ joinLines 47 entry.up ++ entry.name, (start ++ joinLines 47 entry.up).length, entry.type, entry.up.length⟩

/-- A list in memory with its elements. -/
def Lists (list : LinkedList FilesystemEntry) (es : List FilesystemEntry) : Prop :=
  ∃ cells, Represents list cells ∧ list.count = cells.length ∧ cells.map Prod.snd = es

section Elements
variable {list : LinkedList FilesystemEntry} {es : List FilesystemEntry} {start : Bytes} {recursive excDirs : Bool}

theorem Lists.insertLast (h : Lists list es) (entry : FilesystemEntry) :
    ∃ p list', list.insertLast entry = .ok (p, list') ∧ Lists list' (es ++ [entry]) := by
  obtain ⟨cells, hrep, hcount, hes⟩ := h
  obtain ⟨list', he, hrep', hcount', -⟩ := insertLast_spec hrep entry
  refine ⟨_, list', he, _, hrep', ?_, ?_⟩
  · rw [hcount', hcount, List.length_append]
    rfl
  · rw [List.map_append, hes]
    rfl

theorem element_listed (start : Bytes) (entry : TreeEntry) : (entry.element start).listed = entry.listed start := by
  simp [TreeEntry.element, FilesystemEntry.listed, TreeEntry.listed]

/-- All entries of a tree are below the directory that it is the tree of, and no name has a separator in it. -/
theorem Tree.entries_spec {tree : Tree} {up : List Bytes} {entry : TreeEntry} (h : entry ∈ tree.entries up) :
    (∃ more, entry.up = up ++ more) ∧ (47 : UInt8) ∉ entry.name := by
  induction tree generalizing up with
  | nil => cases h
  | dots _ _ _ _ ih => exact ih h
  | leaf name type _ rest ih =>
    rcases List.mem_cons.mp h with rfl | h
    · exact ⟨⟨[], (List.append_nil up).symm⟩, name.plain⟩
    · exact ih h
  | dir name children rest ihc ihr =>
    rcases List.mem_cons.mp h with rfl | h
    · exact ⟨⟨[], (List.append_nil up).symm⟩, name.plain⟩
    · rcases List.mem_append.mp h with h | h
      · obtain ⟨⟨more, hup⟩, hplain⟩ := ihc h
        exact ⟨⟨name.text.bytes :: more, by rw [hup, List.append_assoc]; rfl⟩, hplain⟩
      · exact ihr h

theorem Tree.entries_deeper (tree : Tree) (up : List Bytes) (name : Bytes) :
    (tree.entries (up ++ [name])).filter (TreeEntry.selected false excDirs) = [] := by
  refine List.filter_eq_nil_iff.mpr fun entry hm => ?_
  obtain ⟨⟨more, hup⟩, -⟩ := entries_spec hm
  simp [TreeEntry.selected, hup]

/-- Where the loop gets, only the type decides whether an entry is selected. -/
theorem selected_here (excDirs : Bool) {up : List Bytes} (h : recursive = true ∨ up = []) (name : Bytes)
    (type : EntryType) : TreeEntry.selected recursive excDirs ⟨up, name, type⟩ = true ↔
      excDirs = false ∨ excDirs = true ∧ type ≠ .directory := by
  rcases h with rfl | rfl <;> cases excDirs <;> simp [TreeEntry.selected]

end Elements

section Populate
variable {dirs : Directories} {recursive excDirs : Bool} {path : Bytes} {list : LinkedList FilesystemEntry}
  {es : List FilesystemEntry}

theorem populateEntry_spec (recursive : Bool)
    (descend : LinkedList FilesystemEntry → Bytes → Nat → Nat → Except Fault (LinkedList FilesystemEntry))
    (hlist : Lists list es) (hfit : path.length + 1 < 2^63) (hnull : (0 : UInt8) ∉ path) (name : FileName) (type : UInt8)
    (depth : Nat) :
    ∃ list', Lists list' (es ++ if excDirs = false ∨ excDirs = true ∧ entryType type ≠ .directory then
        [⟨path ++ name.text.bytes, path.length, entryType type, depth⟩] else []) ∧
      populateEntry descend recursive excDirs path path.length depth list ⟨name.text, type⟩ =
        if recursive = true ∧ entryType type = .directory then
          descend list' (path ++ name.text.bytes ++ ascii "/") (path ++ name.text.bytes ++ ascii "/").length (depth + 1)
        else .ok list' := by
  have hshort := name.text.short
  have hone : (ascii "/").length = 1 := rfl
  have hpath : stringConcat [path, name.text.bytes] =
      .ok (path ++ name.text.bytes, (path ++ name.text.bytes).length) :=
    stringConcat_pair (by rw [sizeLimit]; omega) hnull name.text.noNull
  have hdown : stringConcat [path, name.text.bytes, ascii "/"] =
      .ok (path ++ name.text.bytes ++ ascii "/", (path ++ name.text.bytes ++ ascii "/").length) := by
    refine (stringConcat_eq ?_ ?_).trans (by simp)
    · simp [sizeLimit, hone]
      omega
    · simp [hnull, name.text.noNull, slash_noNull]
  rw [populateEntry, if_neg name.notSelf, if_neg name.notParent]
  by_cases hwanted : excDirs = false ∨ excDirs = true ∧ entryType type ≠ .directory
  · obtain ⟨p, list', he, hlist'⟩ := hlist.insertLast ⟨path ++ name.text.bytes, path.length, entryType type, depth⟩
    refine ⟨list', by rwa [if_pos hwanted], ?_⟩
    simp only [if_pos hwanted, hpath, fault_ok_bind, he, hdown]
  · refine ⟨list, by rwa [if_neg hwanted, List.append_nil], ?_⟩
    simp only [if_neg hwanted, fault_ok_bind, hdown]

/-- The element for an entry of the directory comes in front of the others, if the options ask for it. -/
theorem elements_cons {start : Bytes} {up : List Bytes} (hhere : recursive = true ∨ up = [])
    (hpath : path = start ++ joinLines 47 up) (name : Bytes) (type : EntryType) (more : List TreeEntry) :
    ((⟨up, name, type⟩ :: more).filter (TreeEntry.selected recursive excDirs)).map (TreeEntry.element start) =
      (if excDirs = false ∨ excDirs = true ∧ type ≠ .directory then
        [⟨path ++ name, path.length, type, up.length⟩] else []) ++
        (more.filter (TreeEntry.selected recursive excDirs)).map (TreeEntry.element start) := by
  have hselected := selected_here excDirs hhere name type
  by_cases hwanted : excDirs = false ∨ excDirs = true ∧ type ≠ .directory
  · rw [List.filter_cons_of_pos (hselected.mpr hwanted), List.map_cons, if_pos hwanted, List.singleton_append, hpath]
    rfl
  · rw [List.filter_cons_of_neg fun h => hwanted (hselected.mp h), if_neg hwanted, List.nil_append]

/-- The loop over a directory and all that is below it lists the selected entries. -/
theorem populate_spec (recursive excDirs : Bool) {start : Bytes} {tree : Tree} {up : List Bytes} {fuel : Nat}
    (hlist : Lists list es) (hhere : recursive = true ∨ up = []) (hpath : path = start ++ joinLines 47 up)
    (hfit : path.length + 1 < 2^63) (hnull : (0 : UInt8) ∉ path) (hbelow : dirs.Below path tree)
    (hfuel : tree.depth ≤ fuel) :
    ∃ list', tree.dirents.foldlM (populateEntry (populateList dirs recursive excDirs fuel) recursive excDirs path
        path.length up.length) list = .ok list' ∧
      Lists list' (es ++
        ((tree.entries up).filter (TreeEntry.selected recursive excDirs)).map (TreeEntry.element start)) := by
  induction tree generalizing list es path up fuel with
  | nil => exact ⟨list, rfl, by simpa [Tree.entries] using hlist⟩
  | dots name h type rest ih =>
    have hskip : populateEntry (populateList dirs recursive excDirs fuel) recursive excDirs path path.length up.length
        list ⟨name, type⟩ = .ok list := by
      rcases h with h | h <;> simp [populateEntry, h]
    rw [Tree.dirents, List.foldlM_cons, hskip, fault_ok_bind]
    exact ih hlist hhere hpath hfit hnull hbelow hfuel
  | leaf name type h rest ih =>
    obtain ⟨list', hlist', hturn⟩ := populateEntry_spec recursive (populateList dirs recursive excDirs fuel) hlist hfit
      hnull name type up.length
    rw [Tree.dirents, List.foldlM_cons, hturn, if_neg fun hdir => h hdir.2, fault_ok_bind]
    obtain ⟨final, he, hfinal⟩ := ih hlist' hhere hpath hfit hnull hbelow hfuel
    refine ⟨final, he, ?_⟩
    rw [Tree.entries, elements_cons hhere hpath, ← List.append_assoc]
    exact hfinal
  | dir name children rest ihc ihr =>
    obtain ⟨hopen, hchildren, hrest⟩ := hbelow
    rw [Tree.depth] at hfuel
    obtain ⟨list', hlist', hturn⟩ := populateEntry_spec recursive (populateList dirs recursive excDirs fuel) hlist hfit
      hnull name dtDir up.length
    have htype : entryType dtDir = .directory := rfl
    rw [htype] at hlist' hturn
    have hdown : path ++ name.text.bytes ++ ascii "/" = start ++ joinLines 47 (up ++ [name.text.bytes]) := by
      rw [hpath, joinLines_append, joinLines_cons, joinLines_nil, List.append_assoc, List.append_assoc]
      rfl
    have hfree : (0 : UInt8) ∉ path ++ name.text.bytes ++ ascii "/" := by
      simp [hnull, name.text.noNull, slash_noNull]
    -- what is in the directory is listed, or left out as a whole
    obtain ⟨inner, hinner, hdescend⟩ : ∃ inner, Lists inner
        (es ++ (if excDirs = false ∨ excDirs = true ∧ EntryType.directory ≠ .directory then
          [⟨path ++ name.text.bytes, path.length, .directory, up.length⟩] else []) ++
        ((children.entries (up ++ [name.text.bytes])).filter (TreeEntry.selected recursive excDirs)).map
          (TreeEntry.element start)) ∧
        populateEntry (populateList dirs recursive excDirs fuel) recursive excDirs path path.length up.length list
          ⟨name.text, dtDir⟩ = .ok inner := by
      cases recursive with
      | false =>
        refine ⟨list', ?_, hturn⟩
        rwa [Tree.entries_deeper, List.map_nil, List.append_nil]
      | true =>
        obtain ⟨fuel, rfl⟩ : ∃ n, fuel = n + 1 := ⟨fuel - 1, by omega⟩
        obtain ⟨inner, he, hinner⟩ := ihc hlist' (.inl rfl) hdown (dirs.limited _ _ hopen) hfree hchildren
          (show children.depth ≤ fuel by omega)
        refine ⟨inner, hinner, ?_⟩
        have hlen : (up ++ [name.text.bytes]).length = up.length + 1 := List.length_append
        rw [hlen] at he
        rw [hturn, if_pos ⟨rfl, rfl⟩, populateList, hopen]
        exact he
    obtain ⟨final, he, hfinal⟩ := ihr hinner hhere hpath hfit hnull hrest (show rest.depth ≤ fuel by omega)
    refine ⟨final, ?_, ?_⟩
    · rw [Tree.dirents, List.foldlM_cons, hdescend, fault_ok_bind]
      exact he
    · rw [Tree.entries, elements_cons hhere hpath, List.filter_append, List.map_append]
      simpa only [List.append_assoc] using hfinal

end Populate

section Names
variable {front name : Bytes} {tree : Tree} {up : List Bytes}

theorem lastPart_name (h : (47 : UInt8) ∉ name) (front : Bytes) : lastPart (front ++ [47] ++ name) = name := by
  have hplain : ∀ b ∈ name.reverse, decide (b ≠ 47) = true := by
    intro b hb
    refine decide_eq_true ?_
    rintro rfl
    exact h (List.mem_reverse.mp hb)
  rw [lastPart, List.reverse_append, List.reverse_append, List.reverse_singleton,
    List.takeWhile_append_of_pos hplain, List.singleton_append, List.takeWhile_cons_of_neg (by simp), List.append_nil,
    List.reverse_reverse]

theorem withSeparator_ends (path : Bytes) : ∃ front, withSeparator path = front ++ [47] := by
  rw [withSeparator]
  by_cases h : path.getLast? = some 47
  · obtain ⟨front, hfront⟩ := List.getLast?_eq_some_iff.mp h
    exact ⟨front, by rw [if_pos h, hfront]⟩
  · exact ⟨path, by rw [if_neg h]; rfl⟩

theorem joinLines_ends (front : Bytes) (up : List Bytes) :
    ∃ front', front ++ [47] ++ joinLines 47 up = front' ++ [47] := by
  rcases List.eq_nil_or_concat up with rfl | ⟨up, name, rfl⟩
  · exact ⟨front, List.append_nil _⟩
  · refine ⟨front ++ [47] ++ joinLines 47 up ++ name, ?_⟩
    rw [List.concat_eq_append, joinLines_append, joinLines_cons, joinLines_nil]
    simp only [List.append_assoc]

/-- The name of an element is what is behind the last separator of its path. -/
theorem element_name {entry : TreeEntry} (h : entry ∈ tree.entries up) (path : Bytes) :
    (entry.element (withSeparator path)).listed.name = lastPart (entry.element (withSeparator path)).path := by
  obtain ⟨front, hfront⟩ := withSeparator_ends path
  obtain ⟨front', hfront'⟩ := joinLines_ends front entry.up
  rw [element_listed, TreeEntry.listed, TreeEntry.element, hfront, hfront', lastPart_name (Tree.entries_spec h).2]

end Names

theorem lists_new : Lists (LinkedList.new.ondelete true) [] :=
  ⟨[], represents_new.congr rfl rfl rfl rfl, rfl, rfl⟩

theorem filesystemList_start {dirs : Directories} {path : CString} (fuel : Nat) (opts : UInt32)
    (hpath : path.bytes ≠ []) : filesystemList dirs fuel path opts =
      populateList dirs (opts &&& listRecursive ≠ 0) (opts &&& listExcludeDirectories ≠ 0) fuel
        (LinkedList.new.ondelete true) (withSeparator path.bytes) (withSeparator path.bytes).length 0 := by
  have hshort := path.short
  obtain ⟨last, hlast⟩ : ∃ last, path.bytes.getLast? = some last := ⟨_, List.getLast?_eq_some_getLast hpath⟩
  rw [filesystemList, withSeparator, hlast]
  by_cases h : last = 47
  · simp only [h, ne_eq, not_true_eq_false, if_false, if_true, fault_ok_bind]
  · have hconcat : stringConcat [path.bytes, ascii "/"] =
        .ok (path.bytes ++ ascii "/", (path.bytes ++ ascii "/").length) :=
      stringConcat_pair (show path.bytes.length + 1 + 1 < sizeLimit by rw [sizeLimit]; omega) path.noNull slash_noNull
    have hne : some last ≠ some 47 := fun he => h (Option.some.inj he)
    simp only [ne_eq, h, not_false_eq_true, if_true, hconcat, fault_ok_bind, if_neg hne]

/-- Where the directory is a tree, its list has one element for each entry that the options select, in depth-first order:
with the path from the start on, the name behind the last separator of it, the type, and how deep the entry is. -/
theorem filesystem_list (dirs : Directories) (path : CString) (opts : UInt32) (tree : Tree) (hpath : path.bytes ≠ [])
    (htree : dirs.Shows (withSeparator path.bytes) tree) {fuel : Nat} (hfuel : tree.depth < fuel) :
    ∃ list es, filesystemList dirs fuel path opts = .ok list ∧ Lists list es ∧
      es.map FilesystemEntry.listed = ((tree.entries []).filter
        (TreeEntry.selected (opts &&& listRecursive ≠ 0) (opts &&& listExcludeDirectories ≠ 0))).map
          (TreeEntry.listed (withSeparator path.bytes)) ∧
      ∀ entry ∈ es, entry.listed.name = lastPart entry.path := by
  obtain ⟨hopen, hbelow⟩ := htree
  obtain ⟨fuel, rfl⟩ : ∃ n, fuel = n + 1 := ⟨fuel - 1, by omega⟩
  have hnull : (0 : UInt8) ∉ withSeparator path.bytes := by
    rw [withSeparator]
    split
    · exact path.noNull
    · simp [path.noNull, slash_noNull]
  obtain ⟨list, he, hlist⟩ := populate_spec (opts &&& listRecursive ≠ 0) (opts &&& listExcludeDirectories ≠ 0) lists_new
    (.inr rfl) (List.append_nil (withSeparator path.bytes)).symm (dirs.limited _ _ hopen) hnull hbelow
    (Nat.le_of_lt_succ hfuel)
  refine ⟨list, _, ?_, hlist, ?_, ?_⟩
  · rw [filesystemList_start _ opts hpath, populateList, hopen]
    exact he
  · rw [List.nil_append, List.map_map]
    exact List.map_congr_left fun entry _ => element_listed _ entry
  · intro entry hm
    rw [List.nil_append] at hm
    obtain ⟨found, hfound, rfl⟩ := List.mem_map.mp hm
    exact element_name (List.mem_of_mem_filter hfound) path.bytes

def oneText (b : UInt8) (h : b ≠ 0) : CString := ⟨[b], fun hm => h (List.mem_singleton.mp hm).symm, by simp⟩

def oneName (b : UInt8) (h : b ≠ 0) (hslash : b ≠ 47) (hdot : b ≠ 46) : FileName :=
  ⟨oneText b h, fun hm => hslash (List.mem_singleton.mp hm).symm, fun he => hdot (List.cons.inj he).1,
    fun he => hdot (List.cons.inj he).1⟩

/-- A directory in a directory, with one file in it. -/
def smallTree : Tree :=
  .dots (oneText 46 (by decide)) (.inl rfl) dtDir
    (.dir (oneName 100 (by decide) (by decide) (by decide))
      (.leaf (oneName 102 (by decide) (by decide) (by decide)) dtReg (by decide) .nil) .nil)

def smallDirectories : Directories where
  opendir path :=
    if path = ascii "a/" then some smallTree.dirents
    else if path = ascii "a/d/" then some [⟨oneText 102 (by decide), dtReg⟩] else none
  limited := by
    intro path entries h
    by_cases ha : path = ascii "a/"
    · subst ha
      decide
    · rw [if_neg ha] at h
      by_cases hd : path = ascii "a/d/"
      · subst hd
        decide
      · rw [if_neg hd] at h
        cases h

theorem filesystem_list_small : ∃ list es,
    filesystemList smallDirectories 2 (oneText 97 (by decide)) listRecursive = .ok list ∧ Lists list es ∧
      es.map FilesystemEntry.listed =
        [⟨ascii "a/d", ascii "d", .directory, 0⟩, ⟨ascii "a/d/f", ascii "f", .file, 1⟩] := by
  have hshows : smallDirectories.Shows (withSeparator (oneText 97 (by decide)).bytes) smallTree :=
    ⟨rfl, rfl, trivial, trivial⟩
  obtain ⟨list, es, he, hlist, hlisted, -⟩ := filesystem_list smallDirectories (oneText 97 (by decide)) listRecursive
    smallTree (by decide) hshows (show smallTree.depth < 2 by decide)
  exact ⟨list, es, he, hlist, hlisted⟩

end CFlare.System
