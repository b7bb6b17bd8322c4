import CFlare.Library.Runs
import CFlare.Http.Headers

/-! What identifies a header: the lines of the header files and the names ensured later give each
name one id and one spelling, whatever the case it is looked up in. -/
namespace CFlare.Http
open CFlare.Library CFlare.Storage

/-- `isspace` of the C locale. -/
def isSpace (b : UInt8) : Bool := b = 32 ∨ 9 ≤ b ∧ b ≤ 13

def headerWord (line : Bytes) : Bytes :=
  ((line.takeWhile (· ≠ 35)).dropWhile isSpace).takeWhile (fun b => !isSpace b)

theorem headerWord_noNull (line : CString) : (0 : UInt8) ∉ headerWord line.bytes := by
  intro h
  apply line.noNull
  exact (List.takeWhile_sublist _).mem ((List.dropWhile_sublist _).mem ((List.takeWhile_sublist _).mem h))

/-- The name that a line of a header file lists; one above the limit is skipped with a warning. -/
def lineName (line : CString) : Option CString :=
  if h : (headerWord line.bytes).length ≤ maxHeaderLength then
    if headerWord line.bytes = [] then none
    else some ⟨headerWord line.bytes, headerWord_noNull line,
      Nat.lt_of_le_of_lt (Nat.succ_le_succ h) (by decide)⟩
  else none

abbrev GlobalTable := Hashtable LoadedHeader × Nat

def parseLine (table : GlobalTable) (line : CString) : Except Fault GlobalTable :=
  match lineName line with
  | none => .ok table
  | some name => createHeader table name

def headersEnsure (table : GlobalTable) (name : CString) : Except Fault (Header × GlobalTable) := do
  let got ← headersGet table.1 name.bytes
  if headersValid got then .ok (got, table)
  else if maxHeaderLength < name.bytes.length then .error .assertion
  else do
    let table ← createHeader table name
    let got ← headersGet table.1 name.bytes
    if headersValid got then .ok (got, table) else .error .assertion

inductive HeaderUse where
  | get (name : CString)
  | ensure (name : CString)

def headerUse (table : GlobalTable) : HeaderUse → Except Fault (Header × GlobalTable)
  | .get name => (headersGet table.1 name.bytes).map (·, table)
  | .ensure name => headersEnsure table name

/-- The table after the lines of the header files, from the first on. -/
def linesLoaded (lines : List CString) : Except Fault GlobalTable :=
  lines.foldlM parseLine (Hashtable.new.ondelete true, 1)

section Names

def SameLetter (x y : UInt8) : Prop :=
  x = y ∨ (65 ≤ x ∧ x ≤ 90 ∧ y = x + 32) ∨ (65 ≤ y ∧ y ≤ 90 ∧ x = y + 32)

/-- Names that differ in the case of their letters only. -/
def SameName (a b : Bytes) : Prop := List.Forall₂ SameLetter a b

theorem toLower_eq_iff {x y : UInt8} : toLower x = toLower y ↔ SameLetter x y := by
  have h65 : (65 : UInt8).toNat = 65 := rfl
  have h90 : (90 : UInt8).toNat = 90 := rfl
  simp only [toLower, SameLetter, UInt8.le_iff_toNat_le, ← UInt8.toNat_inj]
  split <;> split <;> simp [UInt8.toNat_add] <;> omega

/-- The keys of two names are equal when their names are the same. -/
theorem normalizeHeader_eq_iff {a b : Bytes} : normalizeHeader a = normalizeHeader b ↔ SameName a b := by
  unfold normalizeHeader SameName
  induction a generalizing b with
  | nil => cases b <;> simp
  | cons x a ih =>
    cases b with
    | nil => simp
    | cons y b => simp [toLower_eq_iff, ih]

/-- The names for which headers are created, in order: an ensured name that is known is not. -/
def created (names : List CString) : HeaderUse → List CString
  | .get _ => names
  | .ensure name =>
    if normalizeHeader name.bytes ∈ names.map (fun name => normalizeHeader name.bytes) then names
    else names ++ [name]

theorem created_length (names : List CString) (use : HeaderUse) :
    names.length ≤ (created names use).length := by
  cases use with
  | get name => exact Nat.le_refl _
  | ensure name =>
    rw [created]
    split
    · exact Nat.le_refl _
    · simp

theorem created_run_length (names : List CString) (uses : List HeaderUse) :
    names.length ≤ (uses.foldl created names).length := by
  induction uses generalizing names with
  | nil => exact Nat.le_refl _
  | cons use uses ih => exact (created_length names use).trans (ih _)

/-- Every name ensured is among those created, in some case. -/
theorem mem_created {key : Bytes} (names : List CString) (use : HeaderUse) :
    key ∈ (created names use).map (fun name => normalizeHeader name.bytes) ↔
      key ∈ names.map (fun name => normalizeHeader name.bytes) ∨
        ∃ name, use = .ensure name ∧ normalizeHeader name.bytes = key := by
  cases use with
  | get name => simp [created]
  | ensure name =>
    rw [created]
    split
    · next hknown =>
      constructor
      · exact .inl
      · rintro (h | ⟨_, ⟨⟩, rfl⟩)
        · exact h
        · exact hknown
    · rw [List.map_append, List.mem_append]
      refine or_congr_right ?_
      constructor
      · intro h
        exact ⟨name, rfl, (List.mem_singleton.mp h).symm⟩
      · rintro ⟨_, ⟨⟩, rfl⟩
        exact List.mem_singleton.mpr rfl

theorem mem_created_run {key : Bytes} (names : List CString) (uses : List HeaderUse) :
    key ∈ (uses.foldl created names).map (fun name => normalizeHeader name.bytes) ↔
      key ∈ names.map (fun name => normalizeHeader name.bytes) ∨
        ∃ name, .ensure name ∈ uses ∧ normalizeHeader name.bytes = key := by
  induction uses generalizing names with
  | nil => simp
  | cons use uses ih =>
    rw [List.foldl_cons, ih, mem_created, or_assoc]
    refine or_congr_right ?_
    constructor
    · rintro (⟨name, rfl, hk⟩ | ⟨name, hm, hk⟩)
      · exact ⟨name, List.mem_cons_self, hk⟩
      · exact ⟨name, List.mem_cons_of_mem _ hm, hk⟩
    · rintro ⟨name, hm, hk⟩
      rcases List.mem_cons.mp hm with rfl | hm
      · exact .inl ⟨name, rfl, hk⟩
      · exact .inr ⟨name, hm, hk⟩

end Names

section Loads

/-- The lines create the headers that they list, in order. -/
theorem parseLines_eq (lines : List CString) (table : GlobalTable) :
    lines.foldlM parseLine table = (lines.filterMap lineName).foldlM createHeader table := by
  induction lines generalizing table with
  | nil => rfl
  | cons line lines ih =>
    rw [List.foldlM_cons, parseLine, List.filterMap_cons]
    cases lineName line with
    | none => exact ih table
    | some name =>
      dsimp only
      rw [List.foldlM_cons]
      apply bind_congr
      exact ih

theorem lineName_length {line name : CString} (h : lineName line = some name) :
    name.bytes.length ≤ maxHeaderLength := by
  unfold lineName at h
  split at h
  · next hle =>
    split at h
    · cases h
    · obtain rfl := Option.some.inj h
      exact hle
  · cases h

theorem linesLoaded_spec (lines : List CString) (hroom : (lines.filterMap lineName).length < 2^31) :
    ∃ table es, linesLoaded lines = .ok table ∧ Loading table (lines.filterMap lineName) es := by
  rw [linesLoaded, parseLines_eq]
  have hlen : ∀ name ∈ lines.filterMap lineName, name.bytes.length ≤ maxHeaderLength := by
    intro name hn
    obtain ⟨line, -, hl⟩ := List.mem_filterMap.mp hn
    exact lineName_length hl
  obtain ⟨table, es, he, h, -⟩ := createHeaders_spec loading_start hlen (by simpa using hroom)
  exact ⟨table, es, he, h⟩

end Loads

section Uses
variable {table : GlobalTable} {names : List CString} {es : List (Container LoadedHeader)}

theorem Loading.positive (h : Loading table names es) : ∀ e ∈ es, 0 < e.block.data.id :=
  fun e he => (h.ids e he).1

/-- Ensuring a name makes it known, and changes nothing for a name that is. -/
theorem headersEnsure_spec (h : Loading table names es) {name : CString}
    (hlen : name.bytes.length ≤ maxHeaderLength)
    (hroom : (created names (.ensure name)).length < 2^31) :
    ∃ header table' es', headersEnsure table name = .ok (header, table') ∧
      Loading table' (created names (.ensure name)) es' ∧
      ∀ other, entryAt Container.key es (normalizeHeader other) ≠ none →
        headerIn es' other = headerIn es other := by
  have hgot := headersGet_holds h.holds name.bytes
  have hvalid := headersValid_headerIn h.positive name.bytes
  rw [h.known] at hvalid
  rw [headersEnsure, hgot, fault_ok_bind]
  by_cases hknown : normalizeHeader name.bytes ∈ names.map (fun name => normalizeHeader name.bytes)
  · rw [if_pos (hvalid.mpr hknown), created, if_pos hknown]
    exact ⟨_, table, es, rfl, h, fun _ _ => rfl⟩
  · rw [created, if_neg hknown] at hroom ⊢
    rw [List.length_append] at hroom
    obtain ⟨table', es', he, h', -, hother⟩ := createHeader_spec h hlen hroom
    have hvalid' : headersValid (headerIn es' name.bytes) = true := by
      rw [headersValid_headerIn h'.positive, h'.known]
      exact List.mem_map_of_mem (List.mem_append_right _ List.mem_cons_self)
    refine ⟨headerIn es' name.bytes, table', es', ?_, h', fun other hes => hother other ?_⟩
    · rw [if_neg (fun hv => hknown (hvalid.mp hv)), if_neg (Nat.not_lt.mpr hlen), he, fault_ok_bind,
        headersGet_holds h'.holds, fault_ok_bind, if_pos hvalid']
    · intro hsame
      rw [hsame] at hes
      exact hknown ((h.known _).mp hes)

theorem headerUse_spec (h : Loading table names es) {use : HeaderUse}
    (hlen : ∀ name, use = .ensure name → name.bytes.length ≤ maxHeaderLength)
    (hroom : (created names use).length < 2^31) :
    ∃ header table' es', headerUse table use = .ok (header, table') ∧
      Loading table' (created names use) es' ∧
      ∀ other, entryAt Container.key es (normalizeHeader other) ≠ none →
        headerIn es' other = headerIn es other := by
  cases use with
  | get name =>
    refine ⟨headerIn es name.bytes, table, es, ?_, h, fun _ _ => rfl⟩
    rw [headerUse, headersGet_holds h.holds]
    rfl
  | ensure name => exact headersEnsure_spec h (hlen name rfl) hroom

/-- A run of lookups and ensured names keeps every known name as it is. -/
theorem headerUses_spec (uses : List HeaderUse) (h : Loading table names es)
    (hlen : ∀ name, .ensure name ∈ uses → name.bytes.length ≤ maxHeaderLength)
    (hroom : (uses.foldl created names).length < 2^31) :
    ∃ headers table' es', runCalls headerUse table uses = .ok (headers, table') ∧
      Loading table' (uses.foldl created names) es' ∧
      ∀ other, entryAt Container.key es (normalizeHeader other) ≠ none →
        headerIn es' other = headerIn es other := by
  induction uses generalizing table names es with
  | nil => exact ⟨[], table, es, rfl, h, fun _ _ => rfl⟩
  | cons use uses ih =>
    have hnext := created_run_length (created names use) uses
    obtain ⟨header, table1, es1, he, h1, hkeep⟩ := headerUse_spec h
      (fun name hu => hlen name (hu ▸ List.mem_cons_self)) (Nat.lt_of_le_of_lt hnext hroom)
    obtain ⟨headers, table', es', hes, h', hkeep'⟩ := ih h1
      (fun name hm => hlen name (List.mem_cons_of_mem _ hm)) hroom
    refine ⟨header :: headers, table', es', by simp only [runCalls, he, hes], h', fun other hk => ?_⟩
    have hk1 : entryAt Container.key es1 (normalizeHeader other) ≠ none := by
      rw [h1.known, mem_created]
      exact .inl ((h.known _).mp hk)
    rw [hkeep' other hk1, hkeep other hk]

end Uses

/-- Some case variant of the name is listed in the lines or ensured by the uses. -/
def Introduced (lines : List CString) (uses : List HeaderUse) (name : Bytes) : Prop :=
  (∃ line ∈ lines, ∃ listed, lineName line = some listed ∧ SameName listed.bytes name) ∨
    ∃ ensured, .ensure ensured ∈ uses ∧ SameName ensured.bytes name

theorem introduced_iff (lines : List CString) (uses : List HeaderUse) (name : Bytes) :
    Introduced lines uses name ↔ normalizeHeader name ∈
      (uses.foldl created (lines.filterMap lineName)).map (fun name => normalizeHeader name.bytes) := by
  rw [mem_created_run, List.mem_map]
  refine or_congr ?_ ?_
  · constructor
    · rintro ⟨line, hm, listed, hl, hs⟩
      exact ⟨listed, List.mem_filterMap.mpr ⟨line, hm, hl⟩, normalizeHeader_eq_iff.mpr hs⟩
    · rintro ⟨listed, hm, hs⟩
      obtain ⟨line, hline, hl⟩ := List.mem_filterMap.mp hm
      exact ⟨line, hline, listed, hl, normalizeHeader_eq_iff.mp hs⟩
  · simp only [normalizeHeader_eq_iff]

/-- Header identity, at any moment after the header files are loaded: a lookup is valid for the
names introduced so far, two valid headers are equal and have the same positive id when their
names are the same, and what is valid stays as it is whatever is ensured later. -/
theorem header_identity (lines : List CString) (before after : List HeaderUse)
    (hlen : ∀ name, .ensure name ∈ before ++ after → name.bytes.length ≤ maxHeaderLength)
    (hroom : ((before ++ after).foldl created (lines.filterMap lineName)).length < 2^31) :
    ∃ start headers table headers' table',
      linesLoaded lines = .ok start ∧
      runCalls headerUse start before = .ok (headers, table) ∧
      runCalls headerUse table after = .ok (headers', table') ∧
      (∀ name, ∃ header, headersGet table'.1 name = .ok header ∧
        (headersValid header = true ↔ Introduced lines (before ++ after) name)) ∧
      (∀ a b x y, headersGet table'.1 a = .ok x → headersGet table'.1 b = .ok y →
        headersValid x = true → headersValid y = true →
        0 < x.id ∧ 0 < y.id ∧ (x.id = y.id ↔ SameName a b) ∧
        ∃ equal, headersEquals x y = .ok equal ∧ (equal = true ↔ SameName a b)) ∧
      ∀ name header, headersGet table.1 name = .ok header → headersValid header = true →
        headersGet table'.1 name = .ok header := by
  have hsplit := hroom
  rw [List.foldl_append] at hsplit
  have hbefore := Nat.lt_of_le_of_lt (created_run_length _ after) hsplit
  have hlines := Nat.lt_of_le_of_lt (created_run_length _ before) hbefore
  obtain ⟨start, es, hstart, hs⟩ := linesLoaded_spec lines hlines
  obtain ⟨headers, table, es1, hrun, h1, -⟩ := headerUses_spec before hs
    (fun name hm => hlen name (List.mem_append_left _ hm)) hbefore
  obtain ⟨headers', table', es2, hrun', h2, hkeep⟩ := headerUses_spec after h1
    (fun name hm => hlen name (List.mem_append_right _ hm)) hsplit
  rw [← List.foldl_append] at h2
  refine ⟨start, headers, table, headers', table', hstart, hrun, hrun', fun name => ?_, ?_, ?_⟩
  · refine ⟨headerIn es2 name, headersGet_holds h2.holds name, ?_⟩
    rw [headersValid_headerIn h2.positive, h2.known, introduced_iff]
  · intro a b x y hx hy hvx hvy
    obtain rfl := Except.ok.inj ((headersGet_holds h2.holds a).symm.trans hx)
    obtain rfl := Except.ok.inj ((headersGet_holds h2.holds b).symm.trans hy)
    have ha := (headersValid_headerIn h2.positive a).mp hvx
    have hb := (headersValid_headerIn h2.positive b).mp hvy
    refine ⟨headerIn_pos h2.positive ha, headerIn_pos h2.positive hb, ?_, _,
      headersEquals_headerIn h2.holds h2.positive h2.distinct ha hb, ?_⟩
    · exact (headerIn_id_iff h2.holds h2.distinct ha hb).trans normalizeHeader_eq_iff
    · rw [decide_eq_true_iff, normalizeHeader_eq_iff]
  · intro name header hget hv
    obtain rfl := Except.ok.inj ((headersGet_holds h1.holds name).symm.trans hget)
    rw [headersGet_holds h2.holds, hkeep name ((headersValid_headerIn h1.positive name).mp hv)]

/-- A line with a comment, then a name that is ensured in two spellings. -/
theorem header_identity_small :
    ∃ start headers table headers' table',
      linesLoaded [⟨ascii " Host # the host", by decide, by decide⟩] = .ok start ∧
      runCalls headerUse start [.ensure ⟨ascii "X-Nope", by decide, by decide⟩] = .ok (headers, table) ∧
      runCalls headerUse table [.ensure ⟨ascii "x-nope", by decide, by decide⟩] = .ok (headers', table') ∧
      ∀ name header, headersGet table.1 name = .ok header → headersValid header = true →
        headersGet table'.1 name = .ok header := by
  obtain ⟨start, headers, table, headers', table', hstart, hrun, hrun', -, -, hkeep⟩ := header_identity
    [⟨ascii " Host # the host", by decide, by decide⟩] [.ensure ⟨ascii "X-Nope", by decide, by decide⟩]
    [.ensure ⟨ascii "x-nope", by decide, by decide⟩]
    (by rintro name hm; rcases List.mem_pair.mp hm with ⟨⟨⟩⟩ | ⟨⟨⟩⟩ <;> decide) (by decide)
  exact ⟨start, headers, table, headers', table', hstart, hrun, hrun', hkeep⟩

end CFlare.Http
