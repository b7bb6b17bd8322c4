import CFlare.Storage.HashtableMap

/-! The table of known headers. A lookup ignores case, and the ids of two names differ. -/
namespace CFlare.Http
open CFlare.Library CFlare.Storage

/-- An invalid header has the id zero and a null name. -/
structure Header where
  id : Int
  name : Option CString
  deriving DecidableEq, Repr

/-- What the table stores for a name, by a pointer of `headerPointerSize` bytes. -/
structure LoadedHeader where
  id : Int
  name : CString
  deriving DecidableEq, Repr

def headerPointerSize : Nat := 8
def maxHeaderLength : Nat := 64

/-- The headers looked up once, after the files are read. -/
structure CommonHeaders where
  host : Header
  contentType : Header
  contentLength : Header
  connection : Header
  server : Header
  date : Header
  deriving DecidableEq, Repr

/-- `tolower` of the C locale. -/
def toLower (b : UInt8) : UInt8 := if 65 ≤ b ∧ b ≤ 90 then b + 32 else b

def normalizeHeader (name : Bytes) : Bytes := name.map toLower

def headersGet (canonicalHeaders : Hashtable LoadedHeader) (name : Bytes) : Except Fault Header := do
  match ← canonicalHeaders.get (hashCompute (normalizeHeader name)) with
  | none => .ok ⟨0, none⟩
  | some header => .ok ⟨header.data.id, some header.data.name⟩

def headersValid (header : Header) : Bool := 0 < header.id ∧ header.name ≠ none

def headersEquals (a b : Header) : Except Fault Bool :=
  if a.id ≠ 0 ∧ b.id ≠ 0 then .ok (a.id = b.id)
  else
    match a.name, b.name with
    | some x, some y => .ok (x.bytes = y.bytes)
    | _, _ => .error .undefined

/-- A size stored in 32 signed bits. -/
def int32 (n : Nat) : Int := Int.bmod n (2^32)

theorem int32_of_lt {n : Nat} (h : n < 2^31) : int32 n = n :=
  Int.bmod_eq_of_le_mul_two (by omega) (by omega)

def createHeader (table : Hashtable LoadedHeader × Nat) (name : CString) :
    Except Fault (Hashtable LoadedHeader × Nat) :=
  let (canonicalHeaders, gid) := table
  if maxHeaderLength < name.bytes.length then .error .assertion
  else do
    let hash := hashCompute (normalizeHeader name.bytes)
    let canonicalHeaders ← canonicalHeaders.set hash
      (some ⟨int32 gid, name⟩) headerPointerSize
    .ok (canonicalHeaders, gid + 1)

def commonHeaders (canonicalHeaders : Hashtable LoadedHeader) : Except Fault CommonHeaders := do
  let host ← headersGet canonicalHeaders (ascii "Host")
  let contentType ← headersGet canonicalHeaders (ascii "Content-Type")
  let contentLength ← headersGet canonicalHeaders (ascii "Content-Length")
  let connection ← headersGet canonicalHeaders (ascii "Connection")
  let server ← headersGet canonicalHeaders (ascii "Server")
  let date ← headersGet canonicalHeaders (ascii "Date")
  .ok ⟨host, contentType, contentLength, connection, server, date⟩

/-- `names` are those of the header files, in the order they are read. -/
def headersLoad (names : List CString) : Except Fault (Hashtable LoadedHeader × CommonHeaders) := do
  let (canonicalHeaders, _) ← names.foldlM createHeader (Hashtable.new.ondelete true, 1)
  let common ← commonHeaders canonicalHeaders
  .ok (canonicalHeaders, common)

/-- The names that the program itself relies on, as the header files list them. -/
def commonNames : List Bytes :=
  [ascii "Host", ascii "Content-Type", ascii "Content-Length", ascii "Connection", ascii "Server",
    ascii "Date"]

section Entries
variable {map : Hashtable LoadedHeader} {es : List (Container LoadedHeader)}

/-- What entries know under a name, whatever its case. -/
def headerIn (es : List (Container LoadedHeader)) (name : Bytes) : Header :=
  match entryAt Container.key es (normalizeHeader name) with
  | none => ⟨0, none⟩
  | some e => ⟨e.block.data.id, some e.block.data.name⟩

theorem headerIn_eq (es : List (Container LoadedHeader)) (name : Bytes) :
    headerIn es name = ((entryAt Container.key es (normalizeHeader name)).map (fun e => e.block.data)).elim
      ⟨0, none⟩ (fun loaded => ⟨loaded.id, some loaded.name⟩) := by
  rw [headerIn]
  cases entryAt Container.key es (normalizeHeader name) <;> rfl

theorem headersGet_holds (hh : Holds map es) (name : Bytes) :
    headersGet map name = .ok (headerIn es name) := by
  rw [headersGet, get_spec hh, headerIn]
  cases entryAt Container.key es (normalizeHeader name) <;> rfl

/-- With positive ids a known header is valid, and an unknown one is not. -/
theorem headersValid_headerIn (hp : ∀ e ∈ es, 0 < e.block.data.id) (name : Bytes) :
    headersValid (headerIn es name) = true ↔ entryAt Container.key es (normalizeHeader name) ≠ none := by
  rw [headerIn]
  cases he : entryAt Container.key es (normalizeHeader name) with
  | none => simp [headersValid]
  | some e => simp [headersValid, hp e (List.mem_of_find?_eq_some he)]

/-- With distinct ids two known headers have the same one when their keys are the same. -/
theorem headerIn_id_iff (hh : Holds map es) (hd : (es.map (fun e => e.block.data.id)).Nodup) {a b : Bytes}
    (ha : entryAt Container.key es (normalizeHeader a) ≠ none)
    (hb : entryAt Container.key es (normalizeHeader b) ≠ none) :
    (headerIn es a).id = (headerIn es b).id ↔ normalizeHeader a = normalizeHeader b := by
  obtain ⟨e, hx⟩ := Option.ne_none_iff_exists'.mp ha
  obtain ⟨f, hy⟩ := Option.ne_none_iff_exists'.mp hb
  obtain ⟨he, hke⟩ := (entryAt_eq_some hh.distinct).mp hx
  obtain ⟨hf, hkf⟩ := (entryAt_eq_some hh.distinct).mp hy
  simp only [headerIn, hx, hy]
  constructor
  · intro h
    have hef : e = f := List.inj_on_of_nodup_map hd he hf h
    rw [← hke, ← hkf, hef]
  · intro h
    have hef : e = f := List.inj_on_of_nodup_map hh.distinct he hf (by rw [hke, hkf, h])
    rw [hef]

theorem headerIn_pos (hp : ∀ e ∈ es, 0 < e.block.data.id) {name : Bytes}
    (h : entryAt Container.key es (normalizeHeader name) ≠ none) : 0 < (headerIn es name).id := by
  obtain ⟨e, he⟩ := Option.ne_none_iff_exists'.mp h
  simp only [headerIn, he]
  exact hp e (List.mem_of_find?_eq_some he)

theorem headersEquals_headerIn (hh : Holds map es) (hp : ∀ e ∈ es, 0 < e.block.data.id)
    (hd : (es.map (fun e => e.block.data.id)).Nodup) {a b : Bytes}
    (ha : entryAt Container.key es (normalizeHeader a) ≠ none)
    (hb : entryAt Container.key es (normalizeHeader b) ≠ none) :
    headersEquals (headerIn es a) (headerIn es b) =
      .ok (decide (normalizeHeader a = normalizeHeader b)) := by
  rw [headersEquals, if_pos ⟨(headerIn_pos hp ha).ne', (headerIn_pos hp hb).ne'⟩,
    decide_eq_decide.mpr (headerIn_id_iff hh hd ha hb)]

end Entries

/-- The names found are those looked up, but for case. -/
def Spelled (es : List (Container LoadedHeader)) : Prop :=
  ∀ name text, (headerIn es name).name = some text → normalizeHeader text.bytes = normalizeHeader name

/-- A loaded table: distinct positive ids, and every common name known. -/
structure HeaderTable where
  canonicalHeaders : Hashtable LoadedHeader
  common : CommonHeaders
  entries : List (Container LoadedHeader)
  holds : Holds canonicalHeaders entries
  positive : ∀ e ∈ entries, 0 < e.block.data.id
  distinct : (entries.map (fun e => e.block.data.id)).Nodup
  cached : commonHeaders canonicalHeaders = .ok common
  known : ∀ name ∈ commonNames, entryAt Container.key entries (normalizeHeader name) ≠ none

namespace HeaderTable
variable (table : HeaderTable)

/-- What the table knows under a name, whatever its case. -/
def lookup (name : Bytes) : Option LoadedHeader :=
  (entryAt Container.key table.entries (normalizeHeader name)).map (fun e => e.block.data)

def header (name : Bytes) : Header :=
  match table.lookup name with
  | none => ⟨0, none⟩
  | some loaded => ⟨loaded.id, some loaded.name⟩

theorem header_eq (name : Bytes) : table.header name = headerIn table.entries name := by
  rw [header, lookup, headerIn]
  cases entryAt Container.key table.entries (normalizeHeader name) <;> rfl

theorem lookup_ne_none {name : Bytes} : table.lookup name ≠ none ↔
    entryAt Container.key table.entries (normalizeHeader name) ≠ none := by
  rw [lookup, ne_eq, Option.map_eq_none_iff]

theorem headersGet_eq (name : Bytes) :
    headersGet table.canonicalHeaders name = .ok (table.header name) := by
  rw [header_eq]
  exact headersGet_holds table.holds name

theorem common_eq : table.common =
    ⟨table.header (ascii "Host"), table.header (ascii "Content-Type"),
      table.header (ascii "Content-Length"), table.header (ascii "Connection"),
      table.header (ascii "Server"), table.header (ascii "Date")⟩ := by
  have h := table.cached
  simp only [commonHeaders, headersGet_eq, fault_ok_bind] at h
  exact (Except.ok.inj h).symm

/-- A known header is valid, and an unknown one is not. -/
theorem headersValid_iff (name : Bytes) :
    headersValid (table.header name) = true ↔ table.lookup name ≠ none := by
  rw [header_eq, lookup_ne_none]
  exact headersValid_headerIn table.positive name

/-- Two known headers are equal when their names differ in case only. -/
theorem headersEquals_eq {a b : Bytes} (ha : table.lookup a ≠ none) (hb : table.lookup b ≠ none) :
    headersEquals (table.header a) (table.header b) =
      .ok (decide (normalizeHeader a = normalizeHeader b)) := by
  rw [header_eq, header_eq]
  exact headersEquals_headerIn table.holds table.positive table.distinct
    (table.lookup_ne_none.mp ha) (table.lookup_ne_none.mp hb)

theorem common_known {name : Bytes} (h : name ∈ commonNames) : table.lookup name ≠ none := by
  rw [lookup_ne_none]
  exact table.known name h

theorem header_named {name : Bytes} (h : table.lookup name ≠ none) :
    ∃ text, (table.header name).name = some text := by
  obtain ⟨loaded, hl⟩ := Option.ne_none_iff_exists'.mp h
  exact ⟨loaded.name, by rw [header, hl]⟩

end HeaderTable

/-- A table in the middle of loading: these names are known, with ids below the next one. -/
structure Loading (table : Hashtable LoadedHeader × Nat) (names : List CString)
    (es : List (Container LoadedHeader)) : Prop where
  holds : Holds table.1 es
  next : table.2 = names.length + 1
  ids : ∀ e ∈ es, 0 < e.block.data.id ∧ e.block.data.id < table.2
  distinct : (es.map (fun e => e.block.data.id)).Nodup
  known : ∀ key, entryAt Container.key es key ≠ none ↔
    key ∈ names.map (fun name => normalizeHeader name.bytes)

/-- Creating a header makes its name known under a fresh id, and no other name notices. -/
theorem createHeader_spec {table : Hashtable LoadedHeader × Nat} {names : List CString}
    {es : List (Container LoadedHeader)} (h : Loading table names es) {name : CString}
    (hlen : name.bytes.length ≤ maxHeaderLength) (hroom : names.length + 1 < 2^31) :
    ∃ table' es', createHeader table name = .ok table' ∧ Loading table' (names ++ [name]) es' ∧
      (∀ other, normalizeHeader other = normalizeHeader name.bytes → (headerIn es' other).name = some name) ∧
      ∀ other, normalizeHeader other ≠ normalizeHeader name.bytes → headerIn es' other = headerIn es other := by
  obtain ⟨map, gid⟩ := table
  obtain ⟨hh, rfl, hids, hdist, hknown⟩ := h
  let key := normalizeHeader name.bytes
  have hid := int32_of_lt hroom
  obtain ⟨loaded, hloaded⟩ : ∃ loaded : LoadedHeader,
      loaded = ⟨int32 (names.length + 1), name⟩ := ⟨_, rfl⟩
  have hlid : loaded.id = (names.length + 1 : Nat) := by rw [hloaded, ← hid]
  obtain ⟨map', es', hset, heffect, hh', -⟩ :=
    set_spec hh key (some loaded) headerPointerSize (by simp)
  have hnew : ∀ c : Container LoadedHeader, c.key = key → c.block.data.id = (names.length + 1 : Nat) →
      Holds map' (replaceAt Container.key es key (some c)) →
      Loading (map', names.length + 1 + 1) (names ++ [name]) (replaceAt Container.key es key (some c)) := by
    intro c hk hcid hh'
    refine ⟨hh', by simp, fun e he => ?_, ?_, fun k => ?_⟩
    · rcases mem_replaceAt he with hm | hm
      · have := hids e hm
        exact ⟨this.1, this.2.trans (Int.ofNat_lt.mpr (Nat.lt_succ_self _))⟩
      · obtain rfl := Option.some.inj hm
        rw [hcid]
        exact ⟨by omega, Int.ofNat_lt.mpr (Nat.lt_succ_self _)⟩
    · rw [replaceAt, List.map_append, List.nodup_append]
      refine ⟨hdist.sublist (List.filter_sublist.map _), by simp, ?_⟩
      intro a ha b hb hab
      obtain ⟨e, he, rfl⟩ := List.mem_map.mp ha
      obtain rfl : b = (names.length + 1 : Nat) := by simpa [hcid] using hb
      exact (hids e (List.mem_filter.mp he).1).2.ne hab
    · rw [entryAt_replaceAt es (by rintro e ⟨⟩; exact hk) k, List.map_append, List.mem_append]
      split
      · next he => simp [he, key]
      · next hne => simp [hknown k, hne, key]
  have hdata := fun other => heffect.data hh.distinct (normalizeHeader other)
  refine ⟨(map', names.length + 1 + 1), es', ?_, ?_, fun other heq => ?_, fun other hne => ?_⟩
  · rw [createHeader, if_neg (Nat.not_lt.mpr hlen), ← hloaded]
    show map.set (hashCompute key) (some loaded) headerPointerSize >>= _ = _
    rw [hset]
    rfl
  · cases heffect with
    | @kept e value before same books =>
      obtain ⟨he, -⟩ := (entryAt_eq_some hh.distinct).mp before
      have hlt := (hids e he).2
      rw [same.2, hlid] at hlt
      exact absurd hlt (Int.lt_irrefl _)
    | @updated e value before differs books =>
      obtain ⟨-, hk⟩ := (entryAt_eq_some hh.distinct).mp before
      exact hnew _ hk hlid hh'
    | inserted before books => exact hnew _ rfl hlid hh'
  · rw [headerIn_eq, hdata other, if_pos heq, hloaded]
    rfl
  · rw [headerIn_eq, headerIn_eq, hdata other, if_neg hne]

/-- Every header created is found under its own name. -/
theorem createHeader_spelled {name : CString} {es es' : List (Container LoadedHeader)}
    (h : Spelled es)
    (hsame : ∀ other, normalizeHeader other = normalizeHeader name.bytes → (headerIn es' other).name = some name)
    (hother : ∀ other, normalizeHeader other ≠ normalizeHeader name.bytes → headerIn es' other = headerIn es other) :
    Spelled es' := by
  intro other text ht
  by_cases heq : normalizeHeader other = normalizeHeader name.bytes
  · rw [hsame other heq] at ht
    rw [← Option.some.inj ht, heq]
  · rw [hother other heq] at ht
    exact h other text ht

theorem createHeaders_spec {table : Hashtable LoadedHeader × Nat} {done names : List CString}
    {es : List (Container LoadedHeader)} (h : Loading table done es)
    (hlen : ∀ name ∈ names, name.bytes.length ≤ maxHeaderLength)
    (hroom : (done ++ names).length < 2^31) :
    ∃ table' es', names.foldlM createHeader table = .ok table' ∧ Loading table' (done ++ names) es' ∧
      (Spelled es → Spelled es') := by
  induction names generalizing table done es with
  | nil => exact ⟨table, es, rfl, by simpa using h, id⟩
  | cons name names ih =>
    rw [List.length_append, List.length_cons] at hroom
    obtain ⟨table1, es1, he, h1, hsame, hother⟩ := createHeader_spec h (hlen name (by simp)) (by omega)
    obtain ⟨table', es', hrun, h', hspelled⟩ := ih h1 (fun n hn => hlen n (List.mem_cons_of_mem _ hn))
      (by simpa [Nat.add_assoc, Nat.add_comm 1] using hroom)
    refine ⟨table', es', ?_, by simpa using h', fun hs => hspelled (createHeader_spelled hs hsame hother)⟩
    rw [List.foldlM_cons, he]
    exact hrun

theorem loading_start : Loading (Hashtable.new.ondelete true, 1) [] [] :=
  ⟨⟨.inr ⟨rfl, rfl, rfl⟩, by simp, List.nodup_nil, rfl⟩, rfl, by simp, List.nodup_nil, by simp [entryAt]⟩

theorem spelled_nil : Spelled [] := by
  intro name text h
  cases h

/-- Loading files that list the common names, and less than all the ids there are, makes a
table that knows exactly the names listed. -/
theorem headersLoad_spec (names : List CString)
    (hlen : ∀ name ∈ names, name.bytes.length ≤ maxHeaderLength) (hroom : names.length < 2^31)
    (hcommon : ∀ name ∈ commonNames, ∃ listed ∈ names, normalizeHeader listed.bytes = normalizeHeader name) :
    ∃ table : HeaderTable, headersLoad names = .ok (table.canonicalHeaders, table.common) ∧
      Spelled table.entries ∧
      ∀ name, table.lookup name ≠ none ↔
        ∃ listed ∈ names, normalizeHeader listed.bytes = normalizeHeader name := by
  obtain ⟨⟨map, gid⟩, es, he, h, hspelled⟩ := createHeaders_spec loading_start hlen hroom
  have hget : ∀ name, ∃ header, headersGet map name = .ok header := fun name =>
    ⟨_, headersGet_holds h.holds name⟩
  have hloaded : ∃ common, commonHeaders map = .ok common := by
    obtain ⟨host, hhost⟩ := hget (ascii "Host")
    obtain ⟨contentType, hct⟩ := hget (ascii "Content-Type")
    obtain ⟨contentLength, hcl⟩ := hget (ascii "Content-Length")
    obtain ⟨connection, hconn⟩ := hget (ascii "Connection")
    obtain ⟨server, hserver⟩ := hget (ascii "Server")
    obtain ⟨date, hdate⟩ := hget (ascii "Date")
    exact ⟨⟨host, contentType, contentLength, connection, server, date⟩,
      by simp only [commonHeaders, hhost, hct, hcl, hconn, hserver, hdate, fault_ok_bind]⟩
  obtain ⟨common, hc⟩ := hloaded
  have hknown : ∀ name, entryAt Container.key es (normalizeHeader name) ≠ none ↔
      ∃ listed ∈ names, normalizeHeader listed.bytes = normalizeHeader name := by
    intro name
    rw [h.known, List.nil_append, List.mem_map]
  refine ⟨⟨map, common, es, h.holds, fun e he => (h.ids e he).1, h.distinct, hc,
    fun name hn => (hknown name).mpr (hcommon name hn)⟩, ?_, hspelled spelled_nil, fun name => ?_⟩
  · simp only [headersLoad, he, fault_ok_bind, hc]
  · rw [HeaderTable.lookup_ne_none]
    exact hknown name

/-- Header files that list the common names and no others. -/
def commonTexts : List CString :=
  [⟨ascii "Host", by decide, by decide⟩, ⟨ascii "Content-Type", by decide, by decide⟩,
    ⟨ascii "Content-Length", by decide, by decide⟩, ⟨ascii "Connection", by decide, by decide⟩,
    ⟨ascii "Server", by decide, by decide⟩, ⟨ascii "Date", by decide, by decide⟩]

private theorem commonTexts_load : ∃ table : HeaderTable,
    headersLoad commonTexts = .ok (table.canonicalHeaders, table.common) ∧ Spelled table.entries ∧
      ∀ name, table.lookup name ≠ none ↔
        ∃ listed ∈ commonTexts, normalizeHeader listed.bytes = normalizeHeader name := by
  refine headersLoad_spec commonTexts (by decide) (by decide) (fun name hn => ?_)
  have hlisted : commonTexts.map CString.bytes = commonNames := rfl
  rw [← hlisted, List.mem_map] at hn
  obtain ⟨listed, hm, rfl⟩ := hn
  exact ⟨listed, hm, rfl⟩

/-- The table that loading them makes. -/
noncomputable def commonTable : HeaderTable := commonTexts_load.choose

theorem commonTable_spelled : Spelled commonTable.entries := commonTexts_load.choose_spec.2.1

end CFlare.Http
