import CFlare.Http.HeadDecoding
import CFlare.Http.Persistence

/-! Whether a response announces its body. The header lines that a finalizer adds go through the same
test for room as those of the handler, and stand behind them. -/
namespace CFlare.Http
open CFlare.Library CFlare.Network

def SetsField (name line : Bytes) : Bool :=
  decide (colon ∈ line) && decide (NameIs (line.takeWhile (· ≠ colon)) name)

/-- The bytes are a status line, header lines, a blank line and the body, and one of the header lines
gives the body's length, and one the connection. -/
structure Announced (tables : Tables) (code : UInt32) (written body : Bytes) (lines : List Bytes) : Prop where
  head : ∃ status, status ++ [newline] = statusLine tables code ∧ headLines written = status :: lines
  framed : written = joinLines newline (headLines written) ++ newline :: body
  length : ∃ key, NameIs key (ascii "Content-Length") ∧
    lines.filter (SetsField (ascii "Content-Length")) = [key ++ ascii ": " ++ decimal body.length]
  connection : ∃ line, lines.filter (SetsField (ascii "Connection")) = [line]

/-- What the calls have put into the buffer. -/
def setText (calls : List HeaderCall) : Bytes := joinLines newline ((accepted 0 calls).map HeaderCall.line)

/-- No header that was taken has a blank line in it, and behind those that were taken there is room for
the length, and then for the connection. -/
structure HeadRoom (tables : Tables) (calls : List HeaderCall) (keep : Bool) (date : CString) (body : Bytes) : Prop where
  whole : ∀ call ∈ accepted 0 calls, [] ∉ call.line.splitOn newline
  length : (setText calls).length +
    (tables.common.contentLength.line (contentLengthText body.length)).length < responseMaxLength
  connection : (ownLines tables date body.length (setText calls)).length + (connectionLine tables keep).length <
    responseMaxLength

section Lines
variable {text line : Bytes}

/-- The head of lines ends at the first blank one. -/
theorem headLines_joinLines {lines : List Bytes} (h : ∀ line ∈ lines, newline ∉ line) (rest : Bytes) :
    headLines (joinLines newline lines ++ newline :: rest) = lines.takeWhile (· ≠ []) := by
  have hrest : (newline :: rest).splitOn newline = [] :: rest.splitOn newline := by
    rw [show (newline :: rest : Bytes) = [] ++ newline :: rest from rfl, List.splitOn_append_cons_self]
    rfl
  rw [headLines, splitOn_joinLines h, hrest]
  induction lines with
  | nil => rfl
  | cons line lines ih =>
    have htail := ih (fun line' hm => h line' (List.mem_cons_of_mem _ hm))
    rw [List.cons_append, List.takeWhile_cons, List.takeWhile_cons, htail]

/-- The lines that a call comes to when its header fits. -/
def fitting (text line : Bytes) : List Bytes :=
  if text.length + (line ++ [newline]).length < responseMaxLength then [line] else []

theorem addLine_fitting (text line : Bytes) :
    addLine text (line ++ [newline]) = text ++ joinLines newline (fitting text line) := by
  unfold addLine fitting
  split
  · rw [joinLines_cons, joinLines_nil]
  · rw [joinLines_nil, List.append_nil]

theorem mem_fitting {other : Bytes} (h : other ∈ fitting text line) : other = line := by
  unfold fitting at h
  split at h
  · exact List.mem_singleton.mp h
  · cases h

theorem filter_fitting (p : Bytes → Bool) (text line : Bytes) :
    (fitting text line).filter p = if p line then fitting text line else [] := by
  unfold fitting
  split
  · rw [List.filter_singleton]
    cases p line <;> rfl
  · rw [List.filter_nil, ite_self]

end Lines

section Fields
variable {key name : Bytes} {value : CString}

/-- Under its own name a line is a header, and under no other. -/
theorem setsField_line (hk : NameIs key name) (hc : colon ∉ normalizeHeader name) (value other : Bytes) :
    SetsField other (key ++ ascii ": " ++ value) = decide (NameIs name other) := by
  have hcolon : colon ∉ key := by
    intro hm
    apply hc
    rw [← hk]
    exact List.mem_map.mpr ⟨colon, hm, by decide⟩
  have hsplit : key ++ ascii ": " ++ value = key ++ colon :: (space :: value) := List.append_assoc _ _ _
  have hfront : (key ++ colon :: (space :: value)).takeWhile (· ≠ colon) = key := by
    rw [List.takeWhile_append_of_pos (fun b hb => decide_eq_true (ne_of_mem_of_not_mem hb hcolon)),
      List.takeWhile_cons_of_neg (by simp), List.append_nil]
  have hmem : colon ∈ key ++ colon :: (space :: value) := List.mem_append_right _ List.mem_cons_self
  rw [SetsField, hsplit, hfront, decide_eq_true hmem, Bool.true_and, decide_eq_decide, NameIs, NameIs, hk]

/-- Such a line is one line. -/
theorem whole_line (hk : NameIs key name) (hn : newline ∉ normalizeHeader name) {value : Bytes} (hv : newline ∉ value) :
    newline ∉ key ++ ascii ": " ++ value ∧ key ++ ascii ": " ++ value ≠ [] := by
  constructor
  · intro hm
    rcases List.mem_append.mp hm with hm | hm
    · rcases List.mem_append.mp hm with hm | hm
      · apply hn
        rw [← hk]
        exact List.mem_map.mpr ⟨newline, hm, by decide⟩
      · exact absurd hm (by decide)
    · exact hv hm
  · exact List.append_ne_nil_of_left_ne_nil (List.append_ne_nil_of_right_ne_nil _ (by decide)) _

theorem Header.line_eq {hdr : Header} {key value : CString} (h : hdr.name = some key) :
    hdr.line value = key.bytes ++ ascii ": " ++ value.bytes ++ [newline] := by
  rw [Header.line, h]
  rfl

theorem contentLengthText_eq {n : Nat} (h : n < sizeLimit) : (contentLengthText n).bytes = decimal n := by
  have hdigits : (decimal n).length ≤ 20 := by
    rw [decimal, List.length_map]
    exact (Nat.length_toDigits_le_iff (by decide) (by decide)).mpr (h.trans (by decide))
  exact List.take_of_length_le (hdigits.trans (by decide))

end Fields

section Written
variable {tables : Tables} {calls : List HeaderCall} {keep : Bool} {date : CString} {body : Bytes} {code : UInt32}

/-- The lines of the calls, also where a header has more than one. -/
def setLines (calls : List HeaderCall) : List Bytes := (accepted 0 calls).flatMap (fun call => call.line.splitOn newline)

theorem setText_eq (calls : List HeaderCall) : setText calls = joinLines newline (setLines calls) := by
  unfold setText setLines
  induction accepted 0 calls with
  | nil => rfl
  | cons call rest ih =>
    rw [List.map_cons, joinLines_cons, List.flatMap_cons, joinLines_append, joinLines_splitOn, ih, List.append_assoc]
    rfl

theorem setLines_whole {line : Bytes} (h : line ∈ setLines calls) : newline ∉ line := by
  obtain ⟨call, -, hm⟩ := List.mem_flatMap.mp h
  exact not_mem_of_splitOn hm

/-- The lines that a finalizer adds: of those, the length's and the connection's are there if they fit. -/
structure OwnLines (tables : Tables) (calls : List HeaderCall) (keep : Bool) (date : CString) (body : Bytes)
    (own : List Bytes) : Prop where
  text : addLine (ownLines tables date body.length (setText calls)) (connectionLine tables keep) =
    setText calls ++ joinLines newline own
  whole : ∀ line ∈ own, newline ∉ line ∧ line ≠ []
  length : ∃ key, NameIs key (ascii "Content-Length") ∧ own.filter (SetsField (ascii "Content-Length")) =
    if (setText calls).length + (tables.common.contentLength.line (contentLengthText body.length)).length <
      responseMaxLength then [key ++ ascii ": " ++ decimal body.length] else []
  connection : ∃ line, own.filter (SetsField (ascii "Connection")) =
    if (ownLines tables date body.length (setText calls)).length + (connectionLine tables keep).length <
      responseMaxLength then [line] else []

theorem ownLines_added (ht : TablesSpelled tables) (hdate : newline ∉ date.bytes) (hbody : body.length < sizeLimit)
    (calls : List HeaderCall) (keep : Bool) : ∃ own, OwnLines tables calls keep date body own := by
  obtain ⟨length, hlength, hlengthIs⟩ := ht.contentLength
  obtain ⟨server, hserver, hserverIs⟩ := ht.server
  obtain ⟨day, hday, hdayIs⟩ := ht.date
  obtain ⟨connection, hconnection, hconnectionIs⟩ := ht.connection
  let value := if keep then keepAliveText else closeText
  have hvalue : newline ∉ value.bytes := by
    cases keep with
    | true => exact fun hm => absurd hm (by decide)
    | false => exact fun hm => absurd hm (by decide)
  have hdigits : newline ∉ decimal body.length := fun hm => absurd (decimal_digits hm).1 (by decide)
  have hlengthLine : tables.common.contentLength.line (contentLengthText body.length) = _ := Header.line_eq hlength
  have hserverLine : tables.common.server.line serverText = _ := Header.line_eq hserver
  have hdateLine : tables.common.date.line date = _ := Header.line_eq hday
  have hconnectionLine : connectionLine tables keep = _ := Header.line_eq hconnection
  rw [contentLengthText_eq hbody] at hlengthLine
  let t1 := addLine (setText calls) (tables.common.contentLength.line (contentLengthText body.length))
  let t2 := addLine t1 (tables.common.server.line serverText)
  let t3 := addLine t2 (tables.common.date.line date)
  refine ⟨fitting (setText calls) (length.bytes ++ ascii ": " ++ decimal body.length) ++
    (fitting t1 (server.bytes ++ ascii ": " ++ serverText.bytes) ++
      (fitting t2 (day.bytes ++ ascii ": " ++ date.bytes) ++
        fitting t3 (connection.bytes ++ ascii ": " ++ value.bytes))), ?_, ?_, ?_, ?_⟩
  · change addLine t3 (connectionLine tables keep) = _
    have h1 : t1 = _ := congrArg (addLine (setText calls)) hlengthLine
    have h2 : t2 = _ := congrArg (addLine t1) hserverLine
    have h3 : t3 = _ := congrArg (addLine t2) hdateLine
    rw [addLine_fitting] at h1 h2 h3
    rw [hconnectionLine, addLine_fitting]
    simp only [joinLines_append, ← List.append_assoc]
    rw [← h1, ← h2, ← h3]
  · intro line hm
    rcases List.mem_append.mp hm with hm | hm
    · rw [mem_fitting hm]
      exact whole_line hlengthIs (by decide) hdigits
    rcases List.mem_append.mp hm with hm | hm
    · rw [mem_fitting hm]
      exact whole_line hserverIs (by decide) (by decide)
    rcases List.mem_append.mp hm with hm | hm
    · rw [mem_fitting hm]
      exact whole_line hdayIs (by decide) hdate
    · rw [mem_fitting hm]
      exact whole_line hconnectionIs (by decide) hvalue
  · refine ⟨length.bytes, hlengthIs, ?_⟩
    simp only [List.filter_append, filter_fitting]
    rw [setsField_line hlengthIs (by decide), setsField_line hserverIs (by decide), setsField_line hdayIs (by decide),
      setsField_line hconnectionIs (by decide), if_pos (by decide), if_neg (by decide), if_neg (by decide),
      if_neg (by decide), List.append_nil, List.append_nil, List.append_nil, hlengthLine]
    rfl
  · refine ⟨connection.bytes ++ ascii ": " ++ value.bytes, ?_⟩
    simp only [List.filter_append, filter_fitting]
    rw [setsField_line hlengthIs (by decide), setsField_line hserverIs (by decide), setsField_line hdayIs (by decide),
      setsField_line hconnectionIs (by decide), if_neg (by decide), if_neg (by decide), if_neg (by decide),
      if_pos (by decide), hconnectionLine]
    rfl

/-- A status line is one line. -/
theorem statusLine_whole (hstatus : ∀ text, tables.statusString code = some text → newline ∉ text.bytes) :
    ∃ status, status ++ [newline] = statusLine tables code ∧ newline ∉ status ∧ status ≠ [] := by
  refine ⟨_, rfl, fun hm => ?_, List.append_ne_nil_of_left_ne_nil (List.append_ne_nil_of_left_ne_nil
    (List.append_ne_nil_of_left_ne_nil (by decide) _) _) _⟩
  rcases List.mem_append.mp hm with hm | hm
  · rcases List.mem_append.mp hm with hm | hm
    · rcases List.mem_append.mp hm with hm | hm
      · exact absurd hm (by decide)
      · exact absurd (decimal_digits hm).1 (by decide)
    · exact absurd hm (by decide)
  · cases hs : tables.statusString code with
    | none =>
      rw [hs] at hm
      exact absurd hm (by decide)
    | some text =>
      rw [hs] at hm
      exact hstatus text hs hm

section Heads
variable {written status : Bytes} {own : List Bytes}

private theorem not_announced (hhead : headLines written = (status :: (setLines calls ++ own)).takeWhile (· ≠ []))
    (hne : status ≠ []) (hblank : [] ∈ setLines calls)
    (hplain : ∀ line ∈ setLines calls, SetsField (ascii "Content-Length") line = false) :
    ¬ ∃ lines, Announced tables code written body lines := by
  rintro ⟨lines, hannounced⟩
  obtain ⟨status', -, hfirst⟩ := hannounced.head
  obtain ⟨key, -, hfound⟩ := hannounced.length
  rw [hhead, List.takeWhile_cons, if_pos (decide_eq_true hne), takeWhile_blank hblank] at hfirst
  obtain ⟨-, rfl⟩ := List.cons.inj hfirst
  have hmem : key ++ ascii ": " ++ decimal body.length ∈
      ((setLines calls).takeWhile (· ≠ [])).filter (SetsField (ascii "Content-Length")) := by
    rw [hfound]
    exact List.mem_singleton.mpr rfl
  obtain ⟨hm, hsets⟩ := List.mem_filter.mp hmem
  have hno := hplain _ ((List.takeWhile_sublist _).subset hm)
  rw [hno] at hsets
  cases hsets

private theorem filter_own {p : Bytes → Bool} (hp : ∀ line ∈ setLines calls, p line = false) (own : List Bytes) :
    (setLines calls ++ own).filter p = own.filter p := by
  have hnone : (setLines calls).filter p = [] :=
    List.filter_eq_nil_iff.mpr (fun line hm => by rw [hp line hm]; exact Bool.false_ne_true)
  rw [List.filter_append, hnone, List.nil_append]

private theorem announced_own (hown : OwnLines tables calls keep date body own)
    (hline : status ++ [newline] = statusLine tables code) (hhead : headLines written = status :: (setLines calls ++ own))
    (hframed : written = joinLines newline (headLines written) ++ newline :: body) (hblank : [] ∉ setLines calls)
    (hplain : ∀ line ∈ setLines calls, SetsField (ascii "Content-Length") line = false ∧
      SetsField (ascii "Connection") line = false) :
    (∃ lines, Announced tables code written body lines) ↔ HeadRoom tables calls keep date body := by
  obtain ⟨length, hlengthIs, hlength⟩ := hown.length
  obtain ⟨connection, hconnection⟩ := hown.connection
  rw [← filter_own (fun line hm => (hplain line hm).1)] at hlength
  rw [← filter_own (fun line hm => (hplain line hm).2)] at hconnection
  constructor
  · rintro ⟨lines, hannounced⟩
    obtain ⟨status', -, hfirst⟩ := hannounced.head
    rw [hhead] at hfirst
    obtain ⟨-, rfl⟩ := List.cons.inj hfirst
    refine ⟨fun call hm hempty => hblank (List.mem_flatMap.mpr ⟨call, hm, hempty⟩), ?_, ?_⟩
    · obtain ⟨key, -, hfound⟩ := hannounced.length
      rw [hlength] at hfound
      by_contra hroom
      rw [if_neg hroom] at hfound
      cases hfound
    · obtain ⟨line, hfound⟩ := hannounced.connection
      rw [hconnection] at hfound
      by_contra hroom
      rw [if_neg hroom] at hfound
      cases hfound
  · intro hroom
    refine ⟨setLines calls ++ own, ⟨status, hline, hhead⟩, hframed, ⟨length, hlengthIs, ?_⟩, ⟨connection, ?_⟩⟩
    · rw [hlength, if_pos hroom.length]
    · rw [hconnection, if_pos hroom.connection]

end Heads

/-- What a finalizer sends behind these calls announces its body exactly when there is room for that. -/
theorem announced_iff (ht : TablesSpelled tables) (hstatus : ∀ text, tables.statusString code = some text →
      newline ∉ text.bytes) (hdate : newline ∉ date.bytes) (hbody : body.length < sizeLimit)
    (hplain : ∀ line ∈ setLines calls, SetsField (ascii "Content-Length") line = false ∧
      SetsField (ascii "Connection") line = false) :
    (∃ lines, Announced tables code (statusLine tables code ++
        (addLine (ownLines tables date body.length (setText calls)) (connectionLine tables keep) ++ newline :: body))
      body lines) ↔ HeadRoom tables calls keep date body := by
  obtain ⟨own, hown⟩ := ownLines_added ht hdate hbody calls keep
  obtain ⟨status, hline, hwhole, hne⟩ := statusLine_whole hstatus
  let all := status :: (setLines calls ++ own)
  have hwritten : statusLine tables code ++
      (addLine (ownLines tables date body.length (setText calls)) (connectionLine tables keep) ++ newline :: body) =
        joinLines newline all ++ newline :: body := by
    rw [hown.text, setText_eq, ← joinLines_append, joinLines_cons, ← hline]
    simp only [List.append_assoc, List.cons_append, List.nil_append]
  have hlines : ∀ line ∈ all, newline ∉ line := by
    intro line hm
    rcases List.mem_cons.mp hm with rfl | hm
    · exact hwhole
    rcases List.mem_append.mp hm with hm | hm
    · exact setLines_whole hm
    · exact (hown.whole line hm).1
  have hhead := headLines_joinLines hlines body
  rw [hwritten]
  by_cases hblank : [] ∈ setLines calls
  · -- the head ends among the handler's own lines
    refine iff_of_false (not_announced hhead hne hblank (fun line hm => (hplain line hm).1)) (fun hroom => ?_)
    obtain ⟨call, hm, hempty⟩ := List.mem_flatMap.mp hblank
    exact hroom.whole call hm hempty
  · have hfull : ∀ line ∈ all, decide (line ≠ []) = true := by
      intro line hm
      apply decide_eq_true
      rcases List.mem_cons.mp hm with rfl | hm
      · exact hne
      rcases List.mem_append.mp hm with hm | hm
      · rintro rfl
        exact hblank hm
      · exact (hown.whole line hm).2
    rw [List.takeWhile_eq_self_iff.mpr hfull] at hhead
    refine announced_own hown hline hhead ?_ hblank hplain
    rw [hhead]

end Written

theorem plainTables_spelled : TablesSpelled plainTables :=
  ⟨⟨_, rfl, rfl⟩, ⟨_, rfl, rfl⟩, ⟨_, rfl, rfl⟩, ⟨_, rfl, rfl⟩⟩

def freshResponse : Response := responseInit ⟨0, false, true, 0, fun _ => 0, []⟩

def openSocket : Socket := socketNew 3 [] 80 ⟨[], [], [], []⟩

private theorem openSocket_sends : SendsAll openSocket := ⟨rfl, rfl⟩

/-- A header whose line fills the buffer up to the byte that is kept for the last newline. -/
def fillingCall : HeaderCall := { shortCall with value := fillingText }

private theorem fillingCall_length : (fillingCall.line ++ [newline]).length = 4095 := by
  have hfill : fillingText.bytes.length = 4091 := List.length_replicate
  rw [HeaderCall.line_length, HeaderCall.size, fillingCall, hfill]
  rfl

private theorem fillingCall_plain : ∀ line ∈ fillingCall.line.splitOn newline,
    SetsField (ascii "Content-Length") line = false ∧ SetsField (ascii "Connection") line = false := by
  have hwhole : newline ∉ fillingCall.line := by
    intro hm
    rcases List.mem_append.mp hm with hm | hm
    · exact absurd hm (by decide)
    · exact absurd (List.eq_of_mem_replicate hm) (by decide)
  intro line hm
  rw [List.splitOn_eq_singleton hwhole, List.mem_singleton] at hm
  have hname : NameIs (ascii "a") (ascii "a") := rfl
  have hfield := setsField_line hname (by decide) fillingText.bytes
  rw [hm]
  exact ⟨hfield (ascii "Content-Length"), hfield (ascii "Connection")⟩

private theorem full_head_sent : ∃ res' sock',
    ([fillingCall].foldlM setHeader freshResponse >>= fun res =>
      responseData plainTables true 0 closeText res openSocket (ascii "x")) = .ok (true, res', sock') := by
  have hstart : Formatted freshResponse [] := responseInit_formatted _
  obtain ⟨res, hset, hsame, hformatted⟩ := setHeaders_formatted hstart [fillingCall]
  rw [hset, fault_ok_bind]
  exact responseData_sends plainTables hformatted hsame.sent openSocket_sends true 0 closeText (ascii "x")

end CFlare.Http
