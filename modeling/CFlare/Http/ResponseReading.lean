import CFlare.Http.SingleResponse
import CFlare.Http.AnnouncedBody
import CFlare.Http.HttpStatus
import CFlare.Library.Framing

/-! What a client makes of the bytes that it is sent: a status line, header lines up to a blank one, and
as many bytes behind it as they announce. -/
namespace CFlare.Http
open CFlare.Library CFlare.Network

structure Message where
  status : Bytes
  fields : List Bytes
  body : Bytes
  deriving DecidableEq, Repr

def fieldNumber (line : Bytes) : Option Nat :=
  let digits := ((line.dropWhile (· ≠ colon)).drop 1).dropWhile (· = space)
  if digits ≠ [] ∧ digits.all isDigit then some (decimalOf digits) else none

/-- The length that a head announces, if it does so once. -/
def announcedLength (fields : List Bytes) : Option Nat :=
  match fields.filter (SetsField (ascii "Content-Length")) with
  | [line] => fieldNumber line
  | _ => none

/-- Take one message off the front of a stream, if the whole of it is there. -/
def readMessage (stream : Bytes) : Option (Message × Bytes) :=
  match headLines stream with
  | [] => none
  | status :: fields =>
    match announcedLength fields with
    | none => none
    | some length =>
      let head := (joinLines newline (status :: fields)).length + 1
      if stream.length < head + length then none
      else some (⟨status, fields, (stream.drop head).take length⟩, stream.drop (head + length))

section Reading
variable {status body line key : Bytes} {fields : List Bytes}

theorem decimalOf_decimal (n : Nat) : decimalOf (decimal n) = n := by
  have hread : Nat.ofDigitChars 10 (Nat.toDigits 10 n) 0 = n := Nat.ofDigitChars_toDigits (by decide) (by decide)
  rw [Nat.ofDigitChars_eq_foldl] at hread
  rw [decimalOf, decimal, List.foldl_map]
  refine Eq.trans (List.foldl_ext _ _ _ (fun m c hc => ?_)) hread
  have hd := Nat.isDigit_of_mem_toDigits (by decide) (by decide) hc
  simp only [Char.isDigit, ge_iff_le, Bool.and_eq_true, decide_eq_true_eq] at hd
  have hu : c.toNat ≤ 57 := UInt32.le_iff_toNat_le.mp hd.2
  have hcode : c.toNat.toUInt8.toNat = c.toNat := by
    rw [Nat.toUInt8_eq, UInt8.toNat_ofNat']
    omega
  rw [hcode]
  rfl

theorem decimal_ne_nil (n : Nat) : decimal n ≠ [] := by
  rw [decimal, Ne, List.map_eq_nil_iff]
  exact Nat.toDigits_ne_nil

theorem fieldNumber_decimal (hk : colon ∉ key) (n : Nat) : fieldNumber (key ++ ascii ": " ++ decimal n) = some n := by
  have hsplit : key ++ ascii ": " ++ decimal n = key ++ (colon :: space :: decimal n) := List.append_assoc _ _ _
  have hdrop : (key ++ (colon :: space :: decimal n)).dropWhile (· ≠ colon) = colon :: space :: decimal n := by
    rw [List.dropWhile_append_of_pos (fun b hb => decide_eq_true (ne_of_mem_of_not_mem hb hk)),
      List.dropWhile_cons_of_neg (by simp)]
  have hdigits : (space :: decimal n).dropWhile (· = space) = decimal n := by
    rw [List.dropWhile_cons_of_pos (by simp)]
    apply List.dropWhile_eq_self_iff.mpr
    intro hpos
    have hb := decimal_digits (List.getElem_mem hpos)
    intro hspace
    rw [of_decide_eq_true hspace] at hb
    exact absurd hb.1 (by decide)
  have hall : (decimal n).all isDigit = true :=
    List.all_eq_true.mpr (fun b hb => isDigit_iff.mpr (decimal_digits hb))
  rw [fieldNumber, hsplit, hdrop, List.drop_succ_cons, List.drop_zero, hdigits, if_pos ⟨decimal_ne_nil n, hall⟩,
    decimalOf_decimal]

/-- A head and the body that it announces are taken off whole. -/
theorem readMessage_takes (hlines : ∀ line ∈ status :: fields, newline ∉ line ∧ line ≠ [])
    (hlength : announcedLength fields = some body.length) :
    Takes readMessage (joinLines newline (status :: fields) ++ newline :: body) ⟨status, fields, body⟩ := by
  intro rest
  have hsplit : joinLines newline (status :: fields) ++ newline :: body ++ rest =
      joinLines newline (status :: fields) ++ newline :: (body ++ rest) := by
    rw [List.append_assoc, List.cons_append]
  have hhead : headLines (joinLines newline (status :: fields) ++ newline :: (body ++ rest)) = status :: fields := by
    rw [headLines_joinLines (fun line hm => (hlines line hm).1),
      List.takeWhile_eq_self_iff.mpr (fun line hm => decide_eq_true (hlines line hm).2)]
  have hbehind : (joinLines newline (status :: fields) ++ newline :: (body ++ rest)).drop
      ((joinLines newline (status :: fields)).length + 1) = body ++ rest := by
    rw [← List.drop_drop, List.drop_left]
    rfl
  have hroom : ¬ (joinLines newline (status :: fields) ++ newline :: (body ++ rest)).length <
      (joinLines newline (status :: fields)).length + 1 + body.length := by
    simp only [List.length_append, List.length_cons]
    omega
  rw [hsplit, readMessage, hhead]
  dsimp only
  rw [hlength]
  dsimp only
  have hrest : (joinLines newline (status :: fields) ++ newline :: (body ++ rest)).drop
      ((joinLines newline (status :: fields)).length + 1 + body.length) = rest := by
    rw [← List.drop_drop, hbehind, List.drop_left]
  rw [if_neg hroom, hbehind, hrest, List.take_left]

end Reading

def headerCalls (actions : List HandlerAction) : List HeaderCall :=
  actions.filterMap fun
    | .respond (.header id name value) => some ⟨id, name, value⟩
    | _ => none

/-- A message says what a handler answered: the last status that it chose, the lines that it set and
that fitted, behind them those of its first finalizer, and the body. -/
inductive Message.Answers (env : Environment) (handler : Handler) (date : CString) : Message → Prop where
  | intro {done rest : List HandlerAction} {day : CString} {body status : Bytes} {keep : Bool} {own : List Bytes}
      (split : handler.answers date = done ++ .respond (.data day body) :: rest)
      (first : ∀ a ∈ done, a.finalizes = false)
      (statusIs : status ++ [newline] = statusLine env.tables (lastStatus 0 done))
      (ownLines : OwnLines env.tables (headerCalls done) keep day body own) :
      Message.Answers env handler date ⟨status, setLines (headerCalls done) ++ own, body⟩

/-- An answer that a client can read: it has a finalizer, and in front of the first one no header sets a
blank line or a length, and there is room for the lines that the finalizer adds. -/
structure Handler.Readable (env : Environment) (handler : Handler) (date : CString) : Prop where
  answered : (∃ a ∈ handler.actions, a.finalizes = true) ∨ handler.result = none
  head : ∀ done day body rest, handler.answers date = done ++ .respond (.data day body) :: rest →
    (∀ a ∈ done, a.finalizes = false) → newline ∉ day.bytes ∧ body.length < sizeLimit ∧
      (∀ line ∈ setLines (headerCalls done), SetsField (ascii "Content-Length") line = false) ∧
      ∀ keep, HeadRoom env.tables (headerCalls done) keep day body

def Environment.ReasonsWhole (env : Environment) : Prop :=
  ∀ code text, env.statusString code = some text → newline ∉ text.bytes

section Answers
variable {env : Environment} {handler : Handler} {date : CString} {s : Request × Socket}

private theorem fieldText_accepted {text : Bytes} (h : text.length < responseMaxLength) (actions : List HandlerAction) :
    fieldText text actions =
      text ++ joinLines newline ((accepted text.length (headerCalls actions)).map HeaderCall.line) := by
  induction actions generalizing text with
  | nil => exact (List.append_nil text).symm
  | cons action actions ih =>
    have hskip : HandlerAction.fields text action = text → headerCalls (action :: actions) = headerCalls actions →
        fieldText text (action :: actions) =
          text ++ joinLines newline ((accepted text.length (headerCalls (action :: actions))).map HeaderCall.line) := by
      intro hf hc
      rw [fieldText, List.foldl_cons, hf, hc]
      exact ih h
    cases action with
    | respond call =>
      cases call with
      | header id name value =>
        let set : HeaderCall := ⟨id, name, value⟩
        have hcalls : headerCalls (.respond (.header id name value) :: actions) = set :: headerCalls actions := rfl
        have hfields : HandlerAction.fields text (.respond (.header id name value)) =
          addLine text (set.line ++ [newline]) := rfl
        rw [fieldText, List.foldl_cons, hfields, hcalls, accepted, addLine]
        split
        · next hfits =>
          have hlonger : (text ++ (set.line ++ [newline])).length < responseMaxLength := by
            rw [List.length_append]
            exact hfits
          rw [if_pos ((HeaderCall.fits_iff h).mpr hfits), List.map_cons, joinLines_cons]
          refine (ih hlonger).trans ?_
          rw [List.length_append, set.line_length]
          simp only [List.append_assoc, List.singleton_append]
        · next hfits =>
          rw [if_neg (fun hsize => hfits ((HeaderCall.fits_iff h).mp hsize))]
          exact ih h
      | status code => exact hskip rfl rfl
      | keepalive keep => exact hskip rfl rfl
      | data day body => exact hskip rfl rfl
    | chunk len => exact hskip rfl rfl
    | file => exact hskip rfl rfl
    | cookie => exact hskip rfl rfl

theorem fieldText_setText (actions : List HandlerAction) : fieldText [] actions = setText (headerCalls actions) :=
  fieldText_accepted (by decide) actions

private theorem colon_not_mem {key name : Bytes} (hk : NameIs key name) (hc : colon ∉ normalizeHeader name) :
    colon ∉ key := by
  intro hm
  apply hc
  rw [← hk]
  exact List.mem_map.mpr ⟨colon, hm, by decide⟩

/-- The answer of a readable handler is taken off the stream as one message. -/
theorem FirstHead.taken (head : FirstHead env s (handler.answers date)) (ht : TablesSpelled env.tables)
    (hreasons : env.ReasonsWhole) (h : handler.Readable env date) :
    ∃ message, message.Answers env handler date ∧ Takes readMessage head.sent message := by
  obtain ⟨hday, hbody, hplain, hroom⟩ := h.head _ _ _ _ head.split head.first
  obtain ⟨own, hown⟩ := ownLines_added ht hday hbody (headerCalls head.done) head.keep
  have hreason : ∀ text, env.tables.statusString (lastStatus 0 head.done) = some text → newline ∉ text.bytes :=
    fun text => hreasons _ text
  obtain ⟨status, hline, hwhole, hne⟩ := statusLine_whole hreason
  refine ⟨_, .intro head.split head.first hline hown, ?_⟩
  have hsent : head.sent = joinLines newline (status :: (setLines (headerCalls head.done) ++ own)) ++
      newline :: head.buffer := by
    rw [FirstHead.sent, fieldText_setText, hown.text, setText_eq, ← joinLines_append, joinLines_cons, ← hline]
    simp only [List.append_assoc, List.cons_append, List.nil_append]
  rw [hsent]
  apply readMessage_takes
  · intro line hm
    rcases List.mem_cons.mp hm with rfl | hm
    · exact ⟨hwhole, hne⟩
    rcases List.mem_append.mp hm with hm | hm
    · refine ⟨setLines_whole hm, ?_⟩
      rintro rfl
      obtain ⟨call, hcall, hempty⟩ := List.mem_flatMap.mp hm
      exact (hroom head.keep).whole call hcall hempty
    · exact hown.whole line hm
  · obtain ⟨key, hkey, hlength⟩ := hown.length
    have hnone : (setLines (headerCalls head.done)).filter (SetsField (ascii "Content-Length")) = [] :=
      List.filter_eq_nil_iff.mpr (fun line hm => by rw [hplain line hm]; exact Bool.false_ne_true)
    rw [if_pos (hroom head.keep).length] at hlength
    rw [announcedLength, List.filter_append, hnone, List.nil_append, hlength]
    exact fieldNumber_decimal (colon_not_mem hkey (by decide)) _

/-- The message that the server itself sends for a request that it refuses. -/
def refusal (env : Environment) (status : UInt32) (message : Bytes) : Message where
  status := ascii "HTTP/1.1 " ++ decimal status.toNat ++ ascii " " ++
    ((env.statusString status).map CString.bytes).getD (ascii "(null)")
  fields := [ascii "Content-Length: " ++ decimal (message.length + 1), ascii "Content-Type: text/plain",
    ascii "Server: cflare", ascii "Connection: close"]
  body := message ++ [newline]

theorem quickResponse_taken (hreasons : env.ReasonsWhole) (status : UInt32) (message : Bytes) :
    Takes readMessage (quickResponse env status message false) (refusal env status message) := by
  have hlength : ascii "\nContent-Length: " = newline :: ascii "Content-Length: " := rfl
  have hmiddle : ascii "\nContent-Type: text/plain\nServer: cflare\nConnection: " =
      newline :: (ascii "Content-Type: text/plain" ++ newline :: (ascii "Server: cflare" ++
        newline :: ascii "Connection: ")) := rfl
  have hlast : ascii "Connection: close" = ascii "Connection: " ++ ascii "close" := rfl
  have hend : ascii "\n" = [newline] := rfl
  have htext : quickResponse env status message false =
      joinLines newline ((refusal env status message).status :: (refusal env status message).fields) ++
        newline :: (message ++ [newline]) := by
    rw [quickResponse, quickHeaders, if_neg Bool.false_ne_true, hlength, hmiddle, hend, refusal]
    simp only [joinLines_cons, joinLines_nil, hlast, List.append_assoc, List.cons_append, List.nil_append]
  rw [htext]
  apply readMessage_takes
  · have hdigits : ∀ n, newline ∉ decimal n := fun n hm => absurd (decimal_digits hm).1 (by decide)
    have hfixed : ∀ line ∈ [ascii "Content-Type: text/plain", ascii "Server: cflare", ascii "Connection: close"],
        newline ∉ line ∧ line ≠ [] := by decide
    intro line hm
    rcases List.mem_cons.mp hm with rfl | hm
    · refine ⟨fun hn => ?_, List.append_ne_nil_of_left_ne_nil (List.append_ne_nil_of_left_ne_nil
        (List.append_ne_nil_of_left_ne_nil (by decide) _) _) _⟩
      rcases List.mem_append.mp hn with hn | hn
      · rcases List.mem_append.mp hn with hn | hn
        · rcases List.mem_append.mp hn with hn | hn
          · exact absurd hn (by decide)
          · exact hdigits _ hn
        · exact absurd hn (by decide)
      · cases hs : env.statusString status with
        | none =>
          rw [hs] at hn
          exact absurd hn (by decide)
        | some text =>
          rw [hs] at hn
          exact hreasons status text hs hn
    rcases List.mem_cons.mp hm with rfl | hm
    · refine ⟨fun hn => ?_, List.append_ne_nil_of_left_ne_nil (by decide) _⟩
      rcases List.mem_append.mp hn with hn | hn
      · exact absurd hn (by decide)
      · exact hdigits _ hn
    · exact hfixed line hm
  · have hkey : NameIs (ascii "Content-Length") (ascii "Content-Length") := rfl
    have hfirst := setsField_line hkey (by decide) (decimal (message.length + 1)) (ascii "Content-Length")
    have hrest : [ascii "Content-Type: text/plain", ascii "Server: cflare", ascii "Connection: close"].filter
        (SetsField (ascii "Content-Length")) = [] := by decide
    have hsize : (message ++ [newline]).length = message.length + 1 := List.length_append
    have hline : ascii "Content-Length: " ++ decimal (message.length + 1) =
        ascii "Content-Length" ++ ascii ": " ++ decimal (message.length + 1) := rfl
    rw [announcedLength, refusal, hline, List.filter_cons_of_pos (hfirst.trans (decide_eq_true hkey)), hrest, hsize]
    exact fieldNumber_decimal (by decide) _

end Answers

end CFlare.Http
