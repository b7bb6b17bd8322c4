import CFlare.Http.HttpStatus

/-! The two lookups in the status tables. A code and a reason that were stored together find each other as long as no
later line gives the letters of the reason to another code. -/
namespace CFlare.Http
open CFlare.Library

/-- The same letters in any case, with anything that is no letter left out. -/
def SameLetters (a b : Bytes) : Prop := SameName (a.filter isAlpha) (b.filter isAlpha)

def IsLast {α : Type} (p : α → Prop) (entries : List α) : Option α → Prop
  | none => ∀ entry ∈ entries, ¬ p entry
  | some entry => ∃ before after, entries = before ++ entry :: after ∧ p entry ∧ ∀ later ∈ after, ¬ p later

section Entries
variable {key : UInt32 × CString → Bytes} {entries before after : List (UInt32 × CString)}

theorem normalizeStatus_eq_iff {a b : Bytes} : normalizeStatus a = normalizeStatus b ↔ SameLetters a b :=
  normalizeHeader_eq_iff

/-- The search from the end finds the last entry. -/
theorem lastWith_isLast (key : UInt32 × CString → Bytes) (entries : List (UInt32 × CString)) (k : Bytes) :
    IsLast (fun entry => key entry = k) entries (lastWith key entries k) := by
  rw [lastWith]
  cases hfind : entries.reverse.find? (fun entry => key entry = k) with
  | none =>
    intro entry hentry
    simpa using List.find?_eq_none.mp hfind entry (List.mem_reverse.mpr hentry)
  | some entry =>
    obtain ⟨hkey, front, back, hsplit, hfront⟩ := List.find?_eq_some_iff_append.mp hfind
    refine ⟨back.reverse, front.reverse, ?_, by simpa using hkey, fun later hlater => ?_⟩
    · rw [← List.reverse_reverse entries, hsplit]
      simp
    · simpa using hfront later (List.mem_reverse.mp hlater)

theorem IsLast.congr {α : Type} {p q : α → Prop} {entries : List α} {found : Option α} (h : IsLast p entries found)
    (hpq : ∀ entry, p entry ↔ q entry) : IsLast q entries found := by
  have hsame : p = q := funext fun entry => propext (hpq entry)
  rwa [← hsame]

/-- Entries that come later are found first. -/
theorem lastWith_later (key : UInt32 × CString → Bytes) (before after : List (UInt32 × CString)) (k : Bytes) :
    lastWith key (before ++ after) k = (lastWith key after k).or (lastWith key before k) := by
  rw [lastWith, List.reverse_append, List.find?_append]
  rfl

theorem lastWith_split (key : UInt32 × CString → Bytes) (before after : List (UInt32 × CString))
    (entry : UInt32 × CString) :
    lastWith key (before ++ entry :: after) (key entry) = (lastWith key after (key entry)).or (some entry) := by
  have hown : lastWith key [entry] (key entry) = some entry := by
    rw [lastWith, List.reverse_singleton]
    exact List.find?_cons_of_pos (decide_eq_true rfl)
  rw [lastWith_later, ← List.singleton_append, lastWith_later, hown, Option.or_assoc]
  rfl

theorem lastWith_eq_none {k : Bytes} : lastWith key entries k = none ↔ ∀ entry ∈ entries, key entry ≠ k := by
  simp [lastWith]

theorem lastWith_mem {k : Bytes} {entry : UInt32 × CString} (h : lastWith key entries k = some entry) :
    entry ∈ entries :=
  List.mem_reverse.mp (List.mem_of_find?_eq_some h)

end Entries

namespace HttpStatus
variable {st : HttpStatus} {entries : List (UInt32 × CString)}

theorem Loaded.fromstring (h : st.Loaded entries) (stat : Bytes) :
    HttpStatus.fromstring st stat = .ok ((lastWith reasonKey entries (normalizeStatus stat)).elim 0 Prod.fst) := by
  obtain ⟨found, he, hfound⟩ := h.string2code.get (normalizeStatus stat)
  rw [HttpStatus.fromstring, he, fault_ok_bind, ← hfound]
  cases found <;> rfl

theorem Loaded.tostring_last (h : st.Loaded entries) (code : UInt32) :
    HttpStatus.tostring st code = .ok ((lastWith codeKey entries (codeBytes code)).map Prod.snd) := by
  have hsame : (fun entry : UInt32 × CString => decide (codeKey entry = codeBytes code)) =
      fun entry => decide (entry.1 = code) := by
    funext entry
    rw [codeKey, decide_eq_decide, codeBytes_inj]
  rw [h.tostring, lastWith, hsame]

/-- The reason of the last entry with a code finds that code, unless a later entry has its letters. -/
theorem Loaded.fromstring_last (h : st.Loaded entries) {before after : List (UInt32 × CString)}
    {entry : UInt32 × CString} (hsplit : entries = before ++ entry :: after)
    (hlast : ∀ later ∈ after, later.1 ≠ entry.1) :
    HttpStatus.fromstring st entry.2.bytes = .ok entry.1 ↔
      ∀ later ∈ after, ¬ SameLetters later.2.bytes entry.2.bytes := by
  have hfound := lastWith_split reasonKey before after entry
  rw [← hsplit, reasonKey] at hfound
  rw [h.fromstring, hfound]
  cases hafter : lastWith reasonKey after (normalizeStatus entry.2.bytes) with
  | none =>
    refine iff_of_true rfl fun later hlater hsame => ?_
    exact lastWith_eq_none.mp hafter later hlater (normalizeStatus_eq_iff.mpr hsame)
  | some later =>
    have hmem := lastWith_mem hafter
    have hkey : reasonKey later = normalizeStatus entry.2.bytes := by
      simpa using List.find?_some hafter
    refine iff_of_false (fun heq => ?_) fun hfree => hfree later hmem (normalizeStatus_eq_iff.mp hkey)
    exact hlast later hmem (Except.ok.inj heq)

/-- A code that a reason finds has a reason. -/
theorem Loaded.tostring_fromstring (h : st.Loaded entries) {stat : Bytes} {code : UInt32}
    (hcode : HttpStatus.fromstring st stat = .ok code) (hne : code ≠ 0) :
    ∃ reason, HttpStatus.tostring st code = .ok (some reason) := by
  rw [h.fromstring] at hcode
  cases hfound : lastWith reasonKey entries (normalizeStatus stat) with
  | none =>
    rw [hfound] at hcode
    exact absurd (Except.ok.inj hcode).symm hne
  | some entry =>
    rw [hfound] at hcode
    obtain rfl : entry.1 = code := Except.ok.inj hcode
    rw [h.tostring_last]
    cases hlast : lastWith codeKey entries (codeBytes entry.1) with
    | none => exact absurd rfl (lastWith_eq_none.mp hlast entry (lastWith_mem hfound))
    | some last => exact ⟨last.2, rfl⟩

end HttpStatus

/-- After the status files are loaded a code finds the reason of its last entry, and a text the code of the last entry
with the text's letters. So a code finds itself by way of its reason unless a later entry has given the letters to
another code, and whatever code is found has a reason. -/
theorem status_lookups (float : FloatArith) (files : List (Option Bytes)) :
    ∃ st, HttpStatus.load float files = .ok st ∧
      (∀ code, ∃ found, IsLast (fun entry => entry.1 = code) (entriesOf float files) found ∧
        st.tostring code = .ok (found.map Prod.snd)) ∧
      (∀ stat, ∃ found, IsLast (fun entry => SameLetters entry.2.bytes stat) (entriesOf float files) found ∧
        st.fromstring stat = .ok (found.elim 0 Prod.fst)) ∧
      (∀ before entry after, entriesOf float files = before ++ entry :: after → (∀ later ∈ after, later.1 ≠ entry.1) →
        st.tostring entry.1 = .ok (some entry.2) ∧
        (st.fromstring entry.2.bytes = .ok entry.1 ↔ ∀ later ∈ after, ¬ SameLetters later.2.bytes entry.2.bytes)) ∧
      ∀ stat code, st.fromstring stat = .ok code → code ≠ 0 → ∃ reason, st.tostring code = .ok (some reason) := by
  obtain ⟨st, he, hloaded⟩ := HttpStatus.load_spec float files
  refine ⟨st, he, fun code => ⟨_, ?_, hloaded.tostring_last code⟩, fun stat => ⟨_, ?_, hloaded.fromstring stat⟩, ?_,
    fun _ _ => hloaded.tostring_fromstring⟩
  · exact (lastWith_isLast codeKey _ (codeBytes code)).congr fun _ => codeBytes_inj
  · exact (lastWith_isLast reasonKey _ (normalizeStatus stat)).congr fun _ => normalizeStatus_eq_iff
  · intro before entry after hsplit hlast
    refine ⟨?_, hloaded.fromstring_last hsplit hlast⟩
    have hnone : lastWith codeKey after (codeBytes entry.1) = none :=
      lastWith_eq_none.mpr fun later hlater hsame => hlast later hlater (codeBytes_inj.mp hsame)
    have hfound := lastWith_split codeKey before after entry
    rw [← hsplit, codeKey, hnone] at hfound
    rw [hloaded.tostring_last, hfound]
    rfl

end CFlare.Http
