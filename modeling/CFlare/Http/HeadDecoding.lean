import CFlare.Http.Request
import CFlare.Http.ResponseText
import CFlare.Library.Lines

/-! The header lines of a response, read back from its buffer: they are those that fitted, in the
order of the calls. -/
namespace CFlare.Http
open CFlare.Library CFlare.Network

/-- A call that sets a header. -/
structure HeaderCall where
  id : Int
  name : CString
  value : CString

namespace HeaderCall
variable (call : HeaderCall)

def header : Header := ⟨call.id, some call.name⟩
def line : Bytes := call.name.bytes ++ ascii ": " ++ call.value.bytes
def pair : Bytes × Bytes := (call.name.bytes, call.value.bytes)

/-- What the line takes of the buffer. -/
def size : Nat := call.name.bytes.length + call.value.bytes.length + 3

/-- Nothing in it ends its name or its line. -/
structure Plain : Prop where
  name : colon ∉ call.name.bytes ∧ newline ∉ call.name.bytes
  value : newline ∉ call.value.bytes

end HeaderCall

def setHeader (res : Response) (call : HeaderCall) : Except Fault Response :=
  responseHeader res call.header call.value

/-- The calls that fit when so much of the buffer is used. -/
def accepted : Nat → List HeaderCall → List HeaderCall
  | _, [] => []
  | used, call :: calls =>
    if call.size ≤ responseMaxLength - 1 - used then call :: accepted (used + call.size) calls
    else accepted used calls

/-- A line at its first colon and space. -/
def splitHeader (line : Bytes) : Option (Bytes × Bytes) :=
  (occurrence line (ascii ": ")).map (fun k => (line.take k, line.drop (k + 2)))

def decodeHead (res : Response) : List (Option (Bytes × Bytes)) :=
  (splitLines newline (slice res.buffer 0 res.bufferPos)).map splitHeader

/-- A call that fits adds its header to those that are read back; another one changes nothing. -/
structure HeaderTaken (res res' : Response) (call : HeaderCall) : Prop where
  fits : call.size ≤ responseMaxLength - 1 - res.bufferPos →
    decodeHead res' = decodeHead res ++ [some call.pair] ∧ res'.bufferPos = res.bufferPos + call.size
  refused : ¬ call.size ≤ responseMaxLength - 1 - res.bufferPos →
    res'.buffer = res.buffer ∧ res'.bufferPos = res.bufferPos

section Calls
variable {res res' : Response} {call : HeaderCall} {calls : List HeaderCall} {text : Bytes}

theorem HeaderCall.named (call : HeaderCall) : call.header.name ≠ none := Option.some_ne_none call.name

theorem HeaderCall.line_length (call : HeaderCall) : (call.line ++ [newline]).length = call.size :=
  headerLine_length call.name call.value

theorem HeaderCall.fits_iff {used : Nat} (h : used < responseMaxLength) :
    call.size ≤ responseMaxLength - 1 - used ↔ used + (call.line ++ [newline]).length < responseMaxLength := by
  rw [call.line_length]
  omega

theorem HeaderCall.Plain.split (h : call.Plain) : newline ∉ call.line ∧ splitHeader call.line = some call.pair := by
  have hcolon : ascii ": " = colon :: [space] := rfl
  constructor
  · intro hm
    rcases List.mem_append.mp hm with hm | hm
    · rcases List.mem_append.mp hm with hm | hm
      · exact h.name.2 hm
      · exact absurd hm (by decide)
    · exact h.value hm
  · have hline : call.line = call.name.bytes ++ (colon :: [space] ++ call.value.bytes) := List.append_assoc _ _ _
    rw [splitHeader, hcolon, hline, occurrence_behind _ _ h.name.1, Option.map_some, List.take_left,
      ← List.drop_drop, List.drop_left]
    rfl

/-- The lines formatted are those that fit. -/
theorem setHeaders_formatted (h : Formatted res text) (calls : List HeaderCall) :
    ∃ res', calls.foldlM setHeader res = .ok res' ∧ SameChoices res res' ∧
      Formatted res' (text ++ joinLines newline ((accepted text.length calls).map HeaderCall.line)) := by
  induction calls generalizing res text with
  | nil =>
    refine ⟨res, rfl, ⟨rfl, rfl, rfl⟩, ?_⟩
    rw [accepted, List.map_nil, joinLines_nil, List.append_nil]
    exact h
  | cons call calls ih =>
    obtain ⟨res1, hcall, hsame, hadded⟩ := responseHeader_adds call.named h call.value
    have hline : call.header.line call.value = call.line ++ [newline] := rfl
    obtain ⟨res', hrest, hsame', hall⟩ := ih hadded
    refine ⟨res', ?_, hsame.trans hsame', ?_⟩
    · rw [List.foldlM_cons, setHeader, hcall]
      exact hrest
    · rw [accepted]
      rw [hline, addLine] at hall
      split at hall
      · next hfits =>
        rw [if_pos ((HeaderCall.fits_iff h.room).mpr hfits), List.map_cons, joinLines_cons]
        rw [List.length_append, call.line_length] at hall
        simpa only [List.append_assoc, List.singleton_append] using hall
      · next hfits =>
        rw [if_neg (fun hsize => hfits ((HeaderCall.fits_iff h.room).mp hsize))]
        exact hall

theorem accepted_subset (used : Nat) (calls : List HeaderCall) : accepted used calls ⊆ calls := by
  induction calls generalizing used with
  | nil => exact List.Subset.refl _
  | cons call calls ih =>
    rw [accepted]
    split
    · exact List.cons_subset_cons call (ih _)
    · exact List.subset_cons_of_subset call (ih _)

/-- Nothing is formatted by an initialised response. -/
theorem responseInit_formatted (res : Response) : Formatted (responseInit res) [] := ⟨rfl, by decide, rfl⟩

theorem Formatted.decode (h : Formatted res text) : decodeHead res = (splitLines newline text).map splitHeader := by
  rw [decodeHead, h.pos, h.bytes]

/-- Plain headers that were set are read back. -/
theorem decode_lines (h : Formatted res (joinLines newline (calls.map HeaderCall.line)))
    (hplain : ∀ call ∈ calls, call.Plain) : decodeHead res = calls.map (fun call => some call.pair) := by
  have hlines : ∀ line ∈ calls.map HeaderCall.line, newline ∉ line := by
    intro line hm
    obtain ⟨call, hc, rfl⟩ := List.mem_map.mp hm
    exact (hplain call hc).split.1
  rw [h.decode, splitLines_joinLines hlines, List.map_map]
  apply List.map_congr_left
  intro call hc
  exact (hplain call hc).split.2

theorem headerTaken_of_formatted (h : Formatted res (joinLines newline (calls.map HeaderCall.line)))
    (hplain : ∀ call ∈ calls, call.Plain) (hcall : call.Plain) (hset : setHeader res call = .ok res') :
    HeaderTaken res res' call := by
  have hnamed : call.header.name = some call.name := rfl
  have hroom : res.bufferPos < responseMaxLength := h.pos ▸ h.room
  constructor
  · intro hsize
    have hfits := (HeaderCall.fits_iff hroom).mp hsize
    obtain rfl := Except.ok.inj ((responseHeader_fits hnamed hfits).symm.trans hset)
    obtain ⟨res1, hadds, -, hadded⟩ := responseHeader_adds call.named h call.value
    obtain rfl := Except.ok.inj (hset.symm.trans hadds)
    have hline : call.header.line call.value = call.line ++ [newline] := rfl
    rw [hline, addLine, if_pos (h.pos ▸ hfits)] at hadded
    have hmore : joinLines newline (calls.map HeaderCall.line) ++ (call.line ++ [newline]) =
        joinLines newline ((calls ++ [call]).map HeaderCall.line) := by
      rw [List.map_append, joinLines_append, List.map_singleton, joinLines_cons, joinLines_nil]
    rw [hmore] at hadded
    have hall : ∀ call' ∈ calls ++ [call], call'.Plain := by
      intro call' hm
      rcases List.mem_append.mp hm with hm | hm
      · exact hplain call' hm
      · exact List.mem_singleton.mp hm ▸ hcall
    refine ⟨?_, congrArg (res.bufferPos + ·) call.line_length⟩
    rw [decode_lines hadded hall, decode_lines h hplain, List.map_append, List.map_singleton]
  · intro hsize
    have hdrops := responseHeader_drops hnamed hroom (fun hfits => hsize ((HeaderCall.fits_iff hroom).mpr hfits))
    obtain rfl := Except.ok.inj (hdrops.symm.trans hset)
    exact ⟨rfl, rfl⟩

/-- From an initialised response on, the buffer's text is read back as the headers that fitted, whatever
was refused in between. -/
theorem response_head_decodes (res : Response) (hplain : ∀ call ∈ calls, call.Plain) :
    ∃ res', calls.foldlM setHeader (responseInit res) = .ok res' ∧
      decodeHead res' = (accepted 0 calls).map (fun call => some call.pair) ∧
      ∀ done call rest, calls = done ++ call :: rest → ∃ before after,
        done.foldlM setHeader (responseInit res) = .ok before ∧ setHeader before call = .ok after ∧
          HeaderTaken before after call := by
  obtain ⟨res', hrun, -, hformatted⟩ := setHeaders_formatted (responseInit_formatted res) calls
  refine ⟨res', hrun, decode_lines hformatted (fun call hm => hplain call (accepted_subset 0 calls hm)), ?_⟩
  rintro done call rest rfl
  obtain ⟨before, hdone, -, hbefore⟩ := setHeaders_formatted (responseInit_formatted res) done
  obtain ⟨after, hcall, -⟩ := responseHeader_adds call.named hbefore call.value
  have haccepted : ∀ call' ∈ accepted 0 done, call'.Plain := fun call' hm =>
    hplain call' (List.mem_append_left _ (accepted_subset 0 done hm))
  have hlast : call.Plain := hplain call (List.mem_append_right _ List.mem_cons_self)
  exact ⟨before, after, hdone, hcall, headerTaken_of_formatted hbefore haccepted hlast hcall⟩

end Calls

/-- A header that is too long by a byte, and one that is not. -/
def overlongCall : HeaderCall := ⟨1, ⟨ascii "ab", by decide, by decide⟩, fillingText⟩
def shortCall : HeaderCall := ⟨1, ⟨ascii "a", by decide, by decide⟩, ⟨ascii "b", by decide, by decide⟩⟩

theorem response_head_decodes_short :
    ∃ res', [overlongCall, shortCall].foldlM setHeader (responseInit requestNew.response) = .ok res' ∧
      decodeHead res' = (accepted 0 [overlongCall, shortCall]).map (fun call => some call.pair) := by
  have hfilling : newline ∉ fillingText.bytes := fun hm => absurd (List.eq_of_mem_replicate hm) (by decide)
  have hplain : ∀ call ∈ [overlongCall, shortCall], call.Plain := by
    intro call hm
    rcases List.mem_cons.mp hm with rfl | hm
    · exact ⟨by decide, hfilling⟩
    · obtain rfl := List.mem_singleton.mp hm
      exact ⟨by decide, by decide⟩
  obtain ⟨res', hrun, hdecode, -⟩ := response_head_decodes requestNew.response hplain
  exact ⟨res', hrun, hdecode⟩

end CFlare.Http
