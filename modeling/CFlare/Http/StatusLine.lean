import CFlare.Http.HttpStatus
import CFlare.Http.ResponseBuffer
import CFlare.Network.SocketWrites

/-! The write of the status line. It is formatted into an array on the stack, and as many bytes are passed on
as the whole line has, so the line goes out whole as long as the array holds it. -/
namespace CFlare.Http
open CFlare.Library CFlare.Network

def reasonText (statusString : Option CString) : Bytes := statusString.elim (ascii "Unknown") CString.bytes

def statusText (code : UInt32) (reason : Bytes) : Bytes :=
  ascii "HTTP/1.1 " ++ decimal code.toNat ++ ascii " " ++ reason ++ [newline]

/-- Format a text into an array: what does not fit is cut off, but counts in the length returned. -/
def snprintf (m : Memory) (buffer size : Nat) (text : Bytes) : Nat × Memory :=
  (text.length, store m buffer (text.take (size - 1) ++ [0]))

/-- What `send_headers` passes to the write of the status line: its array on the stack and the length. -/
def statusWrite (st : HttpStatus) (stack : Memory) (status : Nat) (code : UInt32) : Except Fault WriteBuffer := do
  let statusString ← st.tostring code
  let (statusLen, stack) := snprintf stack status 128 (statusText code (reasonText statusString))
  -- a length that is no `int` would come back negative
  if h : statusLen ≤ intMax then .ok ⟨stack, status, statusLen, Nat.lt_of_le_of_lt h (by decide)⟩
  else .error .assertion

section Formatted
variable {m : Memory} {start : Nat} {text : Bytes}

theorem statusText_length (code : UInt32) (reason : Bytes) :
    (statusText code reason).length = (decimal code.toNat).length + reason.length + 11 := by
  have hhead : (ascii "HTTP/1.1 ").length = 9 := rfl
  have hsep : (ascii " ").length = 1 := rfl
  simp only [statusText, List.length_append, hhead, hsep, List.length_singleton]
  omega

theorem snprintf_whole (h : text.length ≤ 127) : slice (snprintf m start 128 text).2 start text.length = text := by
  have hstored : slice (store m start (text ++ [0])) start (text ++ [0]).length = text ++ [0] := slice_store
  have hsnprintf : (snprintf m start 128 text).2 = store m start (text ++ [0]) := by
    rw [snprintf, List.take_of_length_le h]
  rw [hsnprintf]
  exact (slice_append _ _ hstored).1

theorem snprintf_cut (h : 128 ≤ text.length) (hnull : text[127]? ≠ some 0) :
    slice (snprintf m start 128 text).2 start text.length ≠ text := by
  intro heq
  have htake : (text.take 127).length = 127 := List.length_take_of_le (Nat.le_of_succ_le h)
  have hbyte : store m start (text.take 127 ++ [0]) (start + 127) = 0 := by
    have hlen : (text.take 127 ++ [0]).length = 128 := by rw [List.length_append, htake]; rfl
    rw [store_at (by rw [hlen]; decide), List.getElem_append_right (Nat.le_of_eq htake)]
    simp [htake]
  apply hnull
  rw [← heq, slice_getElem? _ _ _ _ h]
  exact congrArg some hbyte

end Formatted

section Written
variable {st : HttpStatus} {code : UInt32} {statusString : Option CString}

theorem statusText_noNull (code : UInt32) (statusString : Option CString) :
    (0 : UInt8) ∉ statusText code (reasonText statusString) := by
  have hhead : (0 : UInt8) ∉ ascii "HTTP/1.1 " := by decide
  have hsep : (0 : UInt8) ∉ ascii " " := by decide
  have hreason : (0 : UInt8) ∉ reasonText statusString := by
    cases statusString with
    | none =>
      show (0 : UInt8) ∉ ascii "Unknown"
      decide
    | some text => exact text.noNull
  simp [statusText, hhead, hsep, hreason, decimal_noNull, newline]

/-- The line is passed on whole, inside the array, exactly when it fits there with its null byte. -/
theorem statusWrite_whole (htext : st.tostring code = .ok statusString) (hline : (reasonText statusString).length ≤ 1023)
    (stack : Memory) (status : Nat) :
    ∃ passed, statusWrite st stack status code = .ok passed ∧
      (passed.bytes = statusText code (reasonText statusString) ∧ passed.length ≤ 128 ↔
        (decimal code.toNat).length + (reasonText statusString).length ≤ 116) := by
  have hlen := statusText_length code (reasonText statusString)
  have hdigits := status_digits code
  have hfits : (statusText code (reasonText statusString)).length ≤ intMax := by
    rw [hlen, intMax]
    omega
  refine ⟨⟨(snprintf stack status 128 (statusText code (reasonText statusString))).2, status,
    (statusText code (reasonText statusString)).length, Nat.lt_of_le_of_lt hfits (by decide)⟩, ?_, ?_⟩
  · rw [statusWrite, htext, fault_ok_bind]
    exact dif_pos hfits
  · constructor
    · rintro ⟨hbytes, hlength⟩
      by_contra hlong
      refine snprintf_cut (by omega) (fun hnull => ?_) hbytes
      exact statusText_noNull code statusString (List.mem_of_getElem? hnull)
    · intro hshort
      exact ⟨snprintf_whole (by omega), show (statusText code _).length ≤ 128 by omega⟩

/-- The status line of the response's model, whose tables have no overlong texts, is the one that is passed on. -/
theorem statusWrite_statusLine {tables : Tables} (htext : st.tostring code = .ok (tables.statusString code))
    (stack : Memory) (status : Nat) :
    ∃ passed, statusWrite st stack status code = .ok passed ∧ passed.bytes = statusLine tables code := by
  have hline : statusText code (reasonText (tables.statusString code)) = statusLine tables code := by
    rw [statusLine]
    cases tables.statusString code <;> rfl
  have hshort := statusLine_short tables code
  rw [← hline, statusText_length] at hshort
  obtain ⟨passed, he, hwhole⟩ := statusWrite_whole htext (by omega) stack status
  exact ⟨passed, he, (hwhole.mpr (by omega)).1.trans hline⟩

end Written

def reasonOf (entries : List (UInt32 × CString)) (code : UInt32) : Bytes :=
  reasonText ((entries.reverse.find? (fun entry => entry.1 = code)).map Prod.snd)

theorem reasonOf_length (float : FloatArith) (files : List (Option Bytes)) (code : UInt32) :
    (reasonOf (entriesOf float files) code).length ≤ 1023 := by
  rw [reasonOf]
  cases hfind : (entriesOf float files).reverse.find? (fun entry => entry.1 = code) with
  | none => decide
  | some entry => exact entriesOf_length (List.mem_reverse.mp (List.mem_of_find?_eq_some hfind))

/-- The status files load, and the bytes passed to the write are the status line of the code and its reason, no more
than the array has, exactly when the code and the reason have at most 116 characters together. A table whose reasons
are those of the response's model has none that is longer, and the model's line is passed on. -/
theorem status_line_whole (float : FloatArith) (files : List (Option Bytes)) :
    ∃ st, HttpStatus.load float files = .ok st ∧
      (∀ code stack status, ∃ passed,
        statusWrite st stack status code = .ok passed ∧
        (passed.bytes = statusText code (reasonOf (entriesOf float files) code) ∧ passed.length ≤ 128 ↔
          (decimal code.toNat).length + (reasonOf (entriesOf float files) code).length ≤ 116)) ∧
      ∀ (tables : Tables) code, st.tostring code = .ok (tables.statusString code) → ∀ stack status, ∃ passed,
        statusWrite st stack status code = .ok passed ∧ passed.bytes = statusLine tables code := by
  obtain ⟨st, he, hloaded⟩ := HttpStatus.load_spec float files
  exact ⟨st, he, fun code stack status =>
      statusWrite_whole (hloaded.tostring code) (reasonOf_length float files code) stack status,
    fun tables code htext => statusWrite_statusLine htext⟩

/-- A status file with one line, whose reason has 120 characters. -/
def longReason : Bytes := ascii "200 " ++ List.replicate 120 97 ++ [newline]

private theorem longReason_entries :
    (entriesOf machineArith [some longReason]).map (fun entry => (entry.1, entry.2.bytes)) =
      [(200, List.replicate 120 97)] := by
  decide +kernel

theorem status_line_whole_fails :
    ¬ ∀ float files st, HttpStatus.load float files = .ok st → ∀ code stack status statusString passed,
      st.tostring code = .ok statusString → statusWrite st stack status code = .ok passed →
      passed.bytes = statusText code (reasonText statusString) ∧ passed.length ≤ 128 := by
  intro hclaim
  obtain ⟨st, he, hloaded⟩ := HttpStatus.load_spec machineArith [some longReason]
  obtain ⟨entry, hentries, hentry⟩ := List.map_eq_singleton_iff.mp longReason_entries
  obtain ⟨hcode, hreason⟩ := Prod.mk.inj hentry
  have htext : st.tostring 200 = .ok (some entry.2) := by
    rw [hloaded.tostring, hentries]
    simp [hcode]
  have hlength : (reasonText (some entry.2)).length = 120 := by
    rw [reasonText, Option.elim_some, hreason, List.length_replicate]
  obtain ⟨passed, hpassed, hwhole⟩ := statusWrite_whole htext (by omega) (fun _ => 0) 0
  have hshort := hwhole.mp (hclaim _ _ st he 200 _ 0 _ passed htext hpassed)
  omega

end CFlare.Http
