import CFlare.Http.RequestHeaders

/-! What a request says about its connection. The last Connection header decides, and an old
version overrules it. -/
namespace CFlare.Http
open CFlare.Library CFlare.Network
variable {env : Environment} {limit : Nat} {st st' : HeaderScan}

def connectionHeaders (env : Environment) (headers : List RequestHeader) : List RequestHeader :=
  headers.filter (fun h => headersEquals h.header env.table.common.connection = .ok true)

/-- The value of a header, over its length, is `close`. -/
def ReadsClose (m : Memory) (h : RequestHeader) : Prop := slice m h.value h.valueLen = ascii "close"

/-- A request with these headers is to be the last one: its version is 1.0, or a Connection header
says so. -/
def AsksToClose (env : Environment) (st : HeaderScan) : Prop :=
  slice st.req.buffer st.req.version st.req.versionLen = ascii "HTTP/1.0" ∨
    ∃ h ∈ connectionHeaders env st.req.headers, ReadsClose st.req.buffer h

/-- Values lie behind the cursor, or their length has wrapped; while the connection is kept the
last Connection header does not say `close`. -/
structure LastRead (env : Environment) (st : HeaderScan) : Prop where
  inside : ∀ h ∈ st.req.headers, h.value + h.valueLen < st.req.bufferPosition ∨ h.valueLen = sizeLimit - 1
  last : st.req.keepalive = true → ∀ h, (connectionHeaders env st.req.headers).getLast? = some h →
    ¬ ReadsClose st.req.buffer h

/-- A value that reads `close` read so before the bytes behind it changed. -/
theorem ReadsClose.before {m m' : Memory} {h : RequestHeader} {bound : Nat} (hc : ReadsClose m' h)
    (hin : h.value + h.valueLen < bound ∨ h.valueLen = sizeLimit - 1) (hm : ∀ i < bound, m' i = m i) :
    ReadsClose m h := by
  rcases hin with hin | hlong
  · refine Eq.trans ?_ hc
    apply slice_congr
    intro i _ hi
    exact (hm i (by omega)).symm
  · have hlen := congrArg List.length hc
    rw [slice_length, hlong] at hlen
    exact absurd hlen (by decide)

private theorem connection_iff {key : Bytes} (hv : headersValid (env.table.header key) = true) :
    headersEquals (env.table.header key) env.table.common.connection = .ok true ↔ NameIs key (ascii "Connection") := by
  have hknown := (env.table.headersValid_iff key).mp hv
  rw [env.table.common_eq]
  change headersEquals (env.table.header key) (env.table.header (ascii "Connection")) = _ ↔ _
  rw [env.table.headersEquals_eq hknown (env.table.common_known (by simp [commonNames]))]
  exact ⟨fun h => of_decide_eq_true (Except.ok.inj h), fun h => congrArg _ (decide_eq_true h)⟩

private theorem value_end {m : Memory} {line lineLen posCol : Nat} (hcol : posCol < lineLen)
    (hsize : lineLen + 2 < sizeLimit) (hlen : valueLength lineLen posCol < sizeLimit - 1) :
    cutHeader m line lineLen posCol (valueStart line posCol + valueLength lineLen posCol) = 0 := by
  have hend : valueStart line posCol + valueLength lineLen posCol = line + lineLen := by
    rw [valueStart, valueLength] at *
    rcases Nat.lt_or_ge lineLen (posCol + 1 + 1) with hshort | hlong
    · rw [sizeSub_of_lt hshort (by omega)] at hlen
      omega
    · rw [sizeSub_of_le hlong (by omega)]
      omega
  rw [hend]
  exact cutHeader_end _ _ _ _

namespace LastRead
variable {pos : Nat}

theorem afterLine (h : LastRead env st) (pos : Nat) : LastRead env (st.afterLine pos) := by
  have hposition := afterLine_position st pos
  refine ⟨fun hd hm => ?_, fun hk hd hl hc => h.last hk hd hl ?_⟩
  · rw [hposition]
    exact (h.inside hd hm).imp (Nat.lt_add_right _) id
  · apply hc.before (h.inside hd ((List.mem_filter.mp (List.mem_of_getLast? hl)).1))
    intro i hi
    exact afterLine_buffer_of_ne st (by omega)

theorem headerLine (h : LastRead env st) (hn : st.req.bufferPosition + st.nbytes ≤ requestMaxLength)
    (hf : firstOf st.req.buffer st.req.bufferPosition st.nbytes newline = some pos)
    (hp : parseHeader env limit (st.afterLine pos) st.req.bufferPosition
      (lineLength st.req.buffer st.req.bufferPosition pos) = .ok st') : LastRead env st' := by
  have hmax : requestMaxLength + 2 < sizeLimit := by decide
  have hlt := (firstOf_eq_some.mp hf).1
  have hle := lineLength_le st.req.buffer st.req.bufferPosition pos
  generalize hlen : lineLength st.req.buffer st.req.bufferPosition pos = lineLen at hp hle
  obtain ⟨posCol, key, hstart, hcol, hkey⟩ := parseHeader_named (by omega) (by omega) hp
  have hposCol := (firstOf_eq_some.mp hcol).1
  rw [parseHeader_eq (by omega) (by omega) hstart hcol hkey] at hp
  let cut := (st.afterLine pos).cutLine st.req.bufferPosition lineLen posCol
  have hbehind : ∀ i < st.req.bufferPosition, cut.req.buffer i = st.req.buffer i := by
    intro i hi
    exact (cutHeader_of_ne (by omega) (by omega)).trans (afterLine_buffer_of_ne st (by omega))
  have hold : ∀ hd ∈ st.req.headers, hd.value + hd.valueLen < st.req.bufferPosition + (pos + 1) ∨
      hd.valueLen = sizeLimit - 1 := fun hd hm => (h.inside hd hm).imp (Nat.lt_add_right _) id
  have hlast : ∀ hd, (connectionHeaders env st.req.headers).getLast? = some hd → st.req.keepalive = true →
      ¬ ReadsClose cut.req.buffer hd := by
    intro hd hl hk hc
    apply h.last hk hd hl
    exact hc.before (h.inside hd ((List.mem_filter.mp (List.mem_of_getLast? hl)).1)) hbehind
  split at hp
  · next hv =>
    have hrecorded := recordHeader_ok hv hp
    have hheaders := congrArg (fun req => req.headers) hrecorded.req
    have hbuffer := congrArg (fun req => req.buffer) hrecorded.req
    have hposition := congrArg (fun req => req.bufferPosition) hrecorded.req
    dsimp only at hheaders hbuffer hposition
    have hvalue : valueStart st.req.bufferPosition posCol + valueLength lineLen posCol < st.req.bufferPosition + (pos + 1) ∨
        valueLength lineLen posCol = sizeLimit - 1 := by
      have hend := valueLength_end st.req.bufferPosition hposCol (by omega)
      exact hend.imp (fun he => by omega) id
    let new : RequestHeader :=
      ⟨env.table.header key, valueStart st.req.bufferPosition posCol, valueLength lineLen posCol⟩
    have hall : st'.req.headers = st.req.headers ++ [new] := hheaders
    refine ⟨fun hd hm => ?_, fun hk hd hl => ?_⟩
    · rw [hposition]
      rw [hall, List.mem_append, List.mem_singleton] at hm
      rcases hm with hm | rfl
      · exact hold hd hm
      · exact hvalue
    · rw [hbuffer]
      rw [connectionHeaders, hall, List.filter_append] at hl
      by_cases hname : NameIs key (ascii "Connection")
      · -- this header is the last one now, and it decides
        obtain ⟨text, htext, hkeep⟩ := hrecorded.connection hname
        have hyes := decide_eq_true ((connection_iff hv).mpr hname)
        rw [List.filter_cons_of_pos (by exact hyes), List.filter_nil, List.getLast?_concat] at hl
        obtain rfl := Option.some.inj hl
        intro hc
        have hfive : valueLength lineLen posCol = 5 := (slice_length _ _ _).symm.trans (congrArg List.length hc)
        have hend : cut.req.buffer
            (valueStart st.req.bufferPosition posCol + valueLength lineLen posCol) = 0 :=
          value_end hposCol (by omega) (hfive ▸ by decide)
        have hshort := cstring_length_le (stringAt_eq_ok.mp htext) hend
        rw [hkeep] at hk
        obtain ⟨k, hk⟩ := Option.isSome_iff_exists.mp hk
        have hten : k + 10 ≤ text.length := occurrence_le hk
        omega
      · have hkeep := hrecorded.noConnection hname
        have hdecide : decide (headersEquals new.header env.table.common.connection = .ok true) = false :=
          decide_eq_false (fun hyes => hname ((connection_iff hv).mp hyes))
        rw [List.filter_cons_of_neg (by rw [hdecide]; decide), List.filter_nil, List.append_nil] at hl
        exact hlast hd hl (hkeep ▸ hk)
  · obtain rfl := Except.ok.inj hp
    exact ⟨hold, fun hk hd hl => hlast hd hl hk⟩

end LastRead

theorem parseHeaders_lastRead {m : Memory} {n fuel : Nat} (h : Framed m n st) (hr : LastRead env st)
    (hp : parseHeaders env limit fuel st = .ok st') : LastRead env st' := by
  induction fuel generalizing st with
  | zero => cases hp
  | succ fuel ih =>
    have hroom := h.room
    have htotal := h.total
    obtain ⟨pos, hpos, ⟨-, rfl⟩ | ⟨st1, hheader, hframed, -, hrest⟩⟩ := h.turn hp
    · exact hr.afterLine pos
    · exact ih hframed (hr.headerLine (by omega) hpos hheader) hrest

theorem parseHeaderBlock_lastRead {req : Request} {n : Nat} (hstart : req.bufferPosition = 0)
    (hn : n ≤ requestMaxLength) (h : parseHeaderBlock env limit req n = .ok st) : LastRead env st := by
  obtain ⟨a, b, c, req', hmarks, hparsed, -, hheaders⟩ := parseHeaderBlock_ok hstart hn h
  refine parseHeaders_lastRead (hparsed.framed hn hmarks) ⟨fun hd hm => ?_, fun _ hd hl => ?_⟩ hheaders
  · cases hm
  · cases hl

/-- A request that keeps its connection asks to close it only in a Connection header before the
last one. -/
theorem asksToClose_iff_earlier (h : LastRead env st) (hv : VersionPassed limit st st')
    (hk : st'.req.keepalive = true) : AsksToClose env st ↔
      ∃ hd ∈ (connectionHeaders env st.req.headers).dropLast, ReadsClose st.req.buffer hd := by
  have hkept : st.req.keepalive = true ∧ st.req.buffer (st.req.version + 7) ≠ 48 := by
    cases hv with
    | host minor given => exact ⟨hk, by rw [minor]; decide⟩
    | authority minor parsed => exact ⟨(parseAuthority_keeps parsed).1 ▸ hk, by rw [minor]; decide⟩
    | close minor => cases hk
  obtain ⟨hkeep, hminor⟩ := hkept
  have hversion : slice st.req.buffer st.req.version st.req.versionLen ≠ ascii "HTTP/1.0" := by
    intro ht
    have hlen : st.req.versionLen = 8 := (slice_length _ _ _).symm.trans (congrArg List.length ht)
    have hbyte : (slice st.req.buffer st.req.version 8)[7]? = some (st.req.buffer (st.req.version + 7)) :=
      slice_getElem? _ _ 8 7 (by decide)
    rw [← hlen, ht] at hbyte
    exact hminor (Option.some.inj hbyte).symm
  rw [AsksToClose, or_iff_right hversion]
  constructor
  · rintro ⟨hd, hm, hc⟩
    rcases List.eq_nil_or_concat (connectionHeaders env st.req.headers) with hnil | ⟨hds, last, hlast⟩
    · rw [hnil] at hm
      cases hm
    · rw [List.concat_eq_append] at hlast
      rw [hlast, List.mem_append, List.mem_singleton] at hm
      rw [hlast, List.dropLast_concat]
      rcases hm with hm | rfl
      · exact ⟨hd, hm, hc⟩
      · exact absurd hc (h.last hkeep hd (by rw [hlast, List.getLast?_concat]))
  · rintro ⟨hd, hm, hc⟩
    exact ⟨hd, (List.dropLast_sublist _).mem hm, hc⟩

/-- What the request says leaves its connection free to be kept: no Connection header before the last one
says `close`, and where the request does not keep it, that is neither for its version nor for the last one. -/
structure LeavesOpen (env : Environment) (st : HeaderScan) (keepalive : Bool) : Prop where
  earlier : ∀ hd ∈ (connectionHeaders env st.req.headers).dropLast, ¬ ReadsClose st.req.buffer hd
  decided : keepalive = false → slice st.req.buffer st.req.version st.req.versionLen ≠ ascii "HTTP/1.0" ∧
    ∀ hd, (connectionHeaders env st.req.headers).getLast? = some hd → ¬ ReadsClose st.req.buffer hd

theorem leavesOpen_iff (h : LastRead env st) (hv : VersionPassed limit st st') :
    LeavesOpen env st st'.req.keepalive ↔ ¬ AsksToClose env st := by
  cases hk : st'.req.keepalive with
  | true =>
    rw [asksToClose_iff_earlier h hv hk]
    constructor
    · rintro ⟨hearlier, -⟩ ⟨hd, hm, hc⟩
      exact hearlier hd hm hc
    · intro hno
      exact ⟨fun hd hm hc => hno ⟨hd, hm, hc⟩, fun hf => absurd hf.symm Bool.false_ne_true⟩
  | false =>
    constructor
    · rintro ⟨hearlier, hdecided⟩ (hold | ⟨hd, hm, hc⟩)
      · exact (hdecided rfl).1 hold
      · rcases List.eq_nil_or_concat (connectionHeaders env st.req.headers) with hnil | ⟨hds, last, hlast⟩
        · rw [hnil] at hm
          cases hm
        · rw [List.concat_eq_append] at hlast
          rw [hlast] at hearlier hdecided hm
          rw [List.dropLast_concat] at hearlier
          rcases List.mem_append.mp hm with hm | hm
          · exact hearlier hd hm hc
          · obtain rfl := List.mem_singleton.mp hm
            exact (hdecided rfl).2 hd List.getLast?_concat hc
    · intro hno
      exact ⟨fun hd hm hc => hno (.inr ⟨hd, (List.dropLast_sublist _).mem hm, hc⟩),
        fun _ => ⟨fun hold => hno (.inl hold), fun hd hl hc => hno (.inr ⟨hd, List.mem_of_getLast? hl, hc⟩)⟩⟩

end CFlare.Http
