import CFlare.Http.RequestScan

/-! The request line. Its three separators are found in the bytes as received, since each phase
writes behind the cursor only. -/
namespace CFlare.Http
open CFlare.Library CFlare.Network

/-- The length of a line whose newline is at `pos`, without a carriage return at its end. -/
def lineLength (m : Memory) (line pos : Nat) : Nat :=
  if 0 < pos ∧ m (line + pos - 1) = carriageReturn then pos - 1 else pos

theorem lineLength_le (m : Memory) (line pos : Nat) : lineLength m line pos ≤ pos := by
  unfold lineLength
  split
  · exact Nat.sub_le _ _
  · exact Nat.le_refl _

/-- No carriage return in front of a line means that only the line's own bytes count. -/
theorem endLine_eq {m : Memory} {line pos : Nat} (h : m (line - 1) ≠ carriageReturn)
    (hpos : pos < sizeLimit) :
    endLine m line pos =
      (Function.update m (line + lineLength m line pos) 0, lineLength m line pos) := by
  unfold endLine lineLength
  rcases Nat.eq_zero_or_pos pos with rfl | hp
  · rw [Nat.add_zero, if_neg h, if_neg (fun hc => absurd hc.1 (Nat.lt_irrefl 0)), Nat.add_zero]
  · by_cases hc : m (line + pos - 1) = carriageReturn
    · rw [if_pos hc, if_pos ⟨hp, hc⟩, sizeSub_of_le hp hpos, ← Nat.add_sub_assoc hp]
    · rw [if_neg hc, if_neg (fun h => hc h.2)]

theorem lineLength_congr {m m' : Memory} {line pos : Nat}
    (h : ∀ i, line ≤ i → i < line + pos → m i = m' i) :
    lineLength m line pos = lineLength m' line pos := by
  unfold lineLength
  rcases Nat.eq_zero_or_pos pos with rfl | hp
  · rw [if_neg (fun hc => absurd hc.1 (Nat.lt_irrefl 0)), if_neg (fun hc => absurd hc.1 (Nat.lt_irrefl 0))]
  · rw [h (line + pos - 1) (by omega) (by omega)]

/-- Where the request line's separators are, in the bytes received: the method's end, the path's
end, and the newline, each counted from its part's start. -/
structure LineMarks (m : Memory) (n a b c : Nat) : Prop where
  method : firstOf m 0 n space = some a
  path : firstOf m (a + 1) (n - (a + 1)) space = some b
  version : firstOf m (a + 1 + b + 1) (n - (a + 1) - (b + 1)) newline = some c

namespace LineMarks
variable {m m' : Memory} {n n' a b c a' b' c' : Nat}

theorem unique (h : LineMarks m n a b c) (h' : LineMarks m n a' b' c') : a = a' ∧ b = b' ∧ c = c' := by
  obtain rfl := Option.some.inj (h.method.symm.trans h'.method)
  obtain rfl := Option.some.inj (h.path.symm.trans h'.path)
  exact ⟨rfl, rfl, Option.some.inj (h.version.symm.trans h'.version)⟩

theorem inside (h : LineMarks m n a b c) : a + 1 + b + 1 + c < n := by
  have h1 := (firstOf_eq_some.mp h.method).1
  have h2 := (firstOf_eq_some.mp h.path).1
  have h3 := (firstOf_eq_some.mp h.version).1
  omega

theorem extend (h : LineMarks m n a b c) (hm : ∀ i < n, m i = m' i) (hn : n ≤ n') :
    LineMarks m' n' a b c := by
  have h1 := (firstOf_eq_some.mp h.method).1
  have h2 := (firstOf_eq_some.mp h.path).1
  refine ⟨?_, ?_, ?_⟩
  · refine firstOf_longer ?_ hn
    rw [← h.method]
    exact firstOf_congr (fun i _ hi => (hm i (by omega)).symm)
  · refine firstOf_longer ?_ (Nat.sub_le_sub_right hn _)
    rw [← h.path]
    exact firstOf_congr (fun i _ hi => (hm i (by omega)).symm)
  · refine firstOf_longer ?_ (Nat.sub_le_sub_right (Nat.sub_le_sub_right hn _) _)
    rw [← h.version]
    exact firstOf_congr (fun i _ hi => (hm i (by omega)).symm)

end LineMarks

/-- The query, if any, starts behind the first question mark of the `b` bytes at `path`. -/
def QueryParsed (m : Memory) (path b : Nat) (req : Request) : Prop :=
  match firstOf m path b questionMark with
  | none => req.query = none ∧ req.queryLen = 0 ∧ req.pathLen = b
  | some q => req.query = some (path + q + 1) ∧ req.queryLen = b - q - 1 ∧ req.pathLen = q

/-- The path, and then the query with its question mark, fill the span. -/
theorem QueryParsed.cases {m : Memory} {path b : Nat} {req : Request} (h : QueryParsed m path b req) :
    req.query = none ∧ req.queryLen = 0 ∧ req.pathLen = b ∨
      req.query = some (path + req.pathLen + 1) ∧ req.pathLen + 1 + req.queryLen = b := by
  unfold QueryParsed at h
  cases hf : firstOf m path b questionMark with
  | none =>
    rw [hf] at h
    exact .inl h
  | some q =>
    rw [hf] at h
    obtain ⟨hquery, hlen, rfl⟩ := h
    have hlt := (firstOf_eq_some.mp hf).1
    exact .inr ⟨hquery, by omega⟩

theorem QueryParsed.pathLen_le {m : Memory} {path b : Nat} {req : Request} (h : QueryParsed m path b req) :
    req.pathLen ≤ b := by
  rcases h.cases with ⟨-, -, hlen⟩ | ⟨-, hlen⟩
  · exact hlen.le
  · omega

/-- A request whose line was parsed: the spans, and the buffer with its null bytes. -/
structure LineParsed (m : Memory) (a b c : Nat) (req : Request) : Prop where
  method : req.method = 0
  methodLen : req.methodLen = a
  path : req.path = a + 1
  query : QueryParsed m (a + 1) b req
  version : req.version = a + 1 + b + 1
  versionLen : req.versionLen = lineLength m (a + 1 + b + 1) c
  position : req.bufferPosition = a + 1 + b + 1 + c + 1
  nulls : req.buffer a = 0 ∧ req.buffer (a + 1 + b) = 0 ∧ req.buffer (a + 1 + req.pathLen) = 0 ∧
    req.buffer (req.version + req.versionLen) = 0
  kept : ∀ i, i ≠ a → i ≠ a + 1 + b → i ≠ a + 1 + req.pathLen → i ≠ req.version + req.versionLen →
    req.buffer i = m i

section Line
variable {req req' : Request} {n n' a b c : Nat}

/-- What the method phase leaves, from the bytes it starts with. -/
structure MethodParsed (req : Request) (a : Nat) (req' : Request) : Prop where
  method : req'.method = 0
  methodLen : req'.methodLen = a
  position : req'.bufferPosition = a + 1
  null : req'.buffer a = 0
  kept : ∀ i, i ≠ a → req'.buffer i = req.buffer i
  keepalive : req'.keepalive = req.keepalive

private theorem parseMethod_spec (hstart : req.bufferPosition = 0)
    (h : firstOf req.buffer 0 n space = some a) :
    ∃ req', parseMethod req n = .ok (req', n - (a + 1)) ∧ MethodParsed req a req' := by
  rw [parseMethod, hstart]
  dsimp only
  rw [h]
  dsimp only
  rw [Nat.zero_add]
  exact ⟨_, rfl, rfl, rfl, rfl, Function.update_self _ _ _,
    fun i hi => Function.update_of_ne hi _ _, rfl⟩

private theorem parseMethod_found (hstart : req.bufferPosition = 0) (h : parseMethod req n = .ok (req', n')) :
    ∃ a, firstOf req.buffer 0 n space = some a := by
  rw [parseMethod, hstart] at h
  dsimp only at h
  cases hf : firstOf req.buffer 0 n space with
  | none =>
    rw [hf] at h
    cases h
  | some a => exact ⟨a, rfl⟩

/-- What the path phase leaves. The query is looked for in the path as received. -/
structure PathParsed (req : Request) (b : Nat) (req' : Request) : Prop where
  path : req'.path = req.bufferPosition
  query : QueryParsed req.buffer req.bufferPosition b req'
  position : req'.bufferPosition = req.bufferPosition + b + 1
  nulls : req'.buffer (req.bufferPosition + b) = 0 ∧ req'.buffer (req.bufferPosition + req'.pathLen) = 0
  kept : ∀ i, i ≠ req.bufferPosition + b → i ≠ req.bufferPosition + req'.pathLen →
    req'.buffer i = req.buffer i
  others : req'.method = req.method ∧ req'.methodLen = req.methodLen ∧ req'.keepalive = req.keepalive

private theorem parsePath_spec (h : firstOf req.buffer req.bufferPosition n space = some b) :
    ∃ req', parsePath req n = .ok (req', n - (b + 1)) ∧ PathParsed req b req' := by
  have hquery : firstOf (Function.update req.buffer (req.bufferPosition + b) 0) req.bufferPosition b
      questionMark = firstOf req.buffer req.bufferPosition b questionMark := by
    apply firstOf_congr
    intro i _ hi
    exact Function.update_of_ne (Nat.ne_of_lt hi) _ _
  rw [parsePath]
  dsimp only
  rw [h]
  dsimp only
  rw [hquery]
  cases hq : firstOf req.buffer req.bufferPosition b questionMark with
  | none =>
    refine ⟨_, rfl, rfl, by rw [QueryParsed, hq]; exact ⟨rfl, rfl, rfl⟩, rfl, ?_, fun i hi _ => ?_, rfl, rfl, rfl⟩
    · exact ⟨Function.update_self _ _ _, Function.update_self _ _ _⟩
    · exact Function.update_of_ne hi _ _
  | some q =>
    have hlt : q < b := (firstOf_eq_some.mp hq).1
    refine ⟨_, rfl, rfl, by rw [QueryParsed, hq]; exact ⟨rfl, rfl, rfl⟩, rfl, ⟨?_, ?_⟩, fun i hi hi' => ?_, rfl, rfl, rfl⟩
    · dsimp only
      rw [Function.update_of_ne (by omega), Function.update_self]
    · exact Function.update_self _ _ _
    · dsimp only at hi' ⊢
      rw [Function.update_of_ne hi', Function.update_of_ne hi]

private theorem parsePath_found (h : parsePath req n = .ok (req', n')) :
    ∃ b, firstOf req.buffer req.bufferPosition n space = some b := by
  rw [parsePath] at h
  dsimp only at h
  cases hf : firstOf req.buffer req.bufferPosition n space with
  | none =>
    rw [hf] at h
    cases h
  | some b => exact ⟨b, rfl⟩

/-- Behind the path's end the bytes are the ones received. -/
theorem PathParsed.ahead {req0 : Request} (hm : MethodParsed req0 a req) (h : PathParsed req b req') {i : Nat}
    (hi : a + 1 + b + 1 ≤ i) : req'.buffer i = req0.buffer i := by
  have hle := h.query.pathLen_le
  rw [h.kept i (by rw [hm.position]; omega) (by rw [hm.position]; omega), hm.kept i (by omega)]

private theorem parseVersion_eq (h : firstOf req.buffer req.bufferPosition n newline = some c)
    (hbefore : req.buffer (req.bufferPosition - 1) ≠ carriageReturn) (hn : n < sizeLimit) :
    parseVersion req n = .ok ({ req with
      buffer := Function.update req.buffer
        (req.bufferPosition + lineLength req.buffer req.bufferPosition c) 0
      version := req.bufferPosition
      versionLen := lineLength req.buffer req.bufferPosition c
      bufferPosition := req.bufferPosition + c + 1 }, n - (c + 1)) := by
  rw [parseVersion]
  dsimp only
  rw [h]
  dsimp only
  rw [endLine_eq hbefore (Nat.lt_trans (firstOf_eq_some.mp h).1 hn)]

private theorem parseVersion_found (h : parseVersion req n = .ok (req', n')) :
    ∃ c, firstOf req.buffer req.bufferPosition n newline = some c := by
  rw [parseVersion] at h
  dsimp only at h
  cases hf : firstOf req.buffer req.bufferPosition n newline with
  | none =>
    rw [hf] at h
    cases h
  | some c => exact ⟨c, rfl⟩

/-- A request line is parsed when its separators are there. -/
theorem parseRequestLine_of_marks (hstart : req.bufferPosition = 0) (hn : n < sizeLimit)
    (h : LineMarks req.buffer n a b c) :
    ∃ req', parseRequestLine req n = .ok (req', n - (a + 1) - (b + 1) - (c + 1)) ∧
      LineParsed req.buffer a b c req' ∧ req'.keepalive = req.keepalive := by
  obtain ⟨req1, h1, hm⟩ := parseMethod_spec hstart h.method
  have hpath : firstOf req1.buffer req1.bufferPosition (n - (a + 1)) space = some b := by
    rw [hm.position, ← h.path]
    exact firstOf_congr (fun i hi _ => hm.kept i (by omega))
  obtain ⟨req2, h2, hp⟩ := parsePath_spec hpath
  have hquery := hp.query
  rw [QueryParsed, hm.position, firstOf_congr (fun i hi _ => hm.kept i (by omega))] at hquery
  have hpathLen := hp.query.pathLen_le
  have hpos : req2.bufferPosition = a + 1 + b + 1 := by rw [hp.position, hm.position]
  have hnulls := hp.nulls
  rw [hm.position] at hnulls
  have hkept : ∀ i, i ≠ a → i ≠ a + 1 + b → i ≠ a + 1 + req2.pathLen → req2.buffer i = req.buffer i := by
    intro i ha hb hq
    rw [hp.kept i (by rwa [hm.position]) (by rwa [hm.position]), hm.kept i ha]
  have hversion : firstOf req2.buffer req2.bufferPosition (n - (a + 1) - (b + 1)) newline = some c := by
    rw [hpos, ← h.version]
    exact firstOf_congr (fun i hi _ => hp.ahead hm hi)
  have hbefore : req2.buffer (req2.bufferPosition - 1) ≠ carriageReturn := by
    rw [hpos, Nat.add_sub_cancel, hnulls.1]
    decide
  have hlen : lineLength req2.buffer (a + 1 + b + 1) c = lineLength req.buffer (a + 1 + b + 1) c :=
    lineLength_congr (fun i hi _ => hp.ahead hm hi)
  have h3 := parseVersion_eq hversion hbefore (show n - (a + 1) - (b + 1) < sizeLimit by omega)
  rw [hpos, hlen] at h3
  have hrun : parseRequestLine req n = parseVersion req2 (n - (a + 1) - (b + 1)) := by
    rw [parseRequestLine, h1, fault_ok_bind]
    dsimp only
    rw [h2, fault_ok_bind]
  refine ⟨_, hrun.trans h3, ⟨hp.others.1.trans hm.method, hp.others.2.1.trans hm.methodLen,
    hp.path.trans hm.position, hquery, rfl, rfl, rfl, ⟨?_, ?_, ?_, Function.update_self _ _ _⟩, ?_⟩,
    hp.others.2.2.trans hm.keepalive⟩
  · dsimp only
    rw [Function.update_of_ne (by omega), hp.kept a (by rw [hm.position]; omega)
      (by rw [hm.position]; omega), hm.null]
  · dsimp only
    rw [Function.update_of_ne (by omega), hnulls.1]
  · dsimp only
    rw [Function.update_of_ne (by omega), hnulls.2]
  · intro i h1 h2 h3 h4
    dsimp only at h3 h4 ⊢
    rw [Function.update_of_ne h4, hkept i h1 h2 h3]

theorem parseRequestLine_ok (hstart : req.bufferPosition = 0) (hn : n < sizeLimit)
    (h : parseRequestLine req n = .ok (req', n')) :
    ∃ a b c, LineMarks req.buffer n a b c ∧ LineParsed req.buffer a b c req' ∧
      n' = n - (a + 1) - (b + 1) - (c + 1) ∧ req'.keepalive = req.keepalive := by
  have hmarks : ∃ a b c, LineMarks req.buffer n a b c := by
    unfold parseRequestLine at h
    obtain ⟨⟨req1, n1⟩, h1, h⟩ := bind_eq_ok.mp h
    obtain ⟨⟨req2, n2⟩, h2, h3⟩ := bind_eq_ok.mp h
    obtain ⟨a, ha⟩ := parseMethod_found hstart h1
    obtain ⟨req1', h1', hm⟩ := parseMethod_spec hstart ha
    obtain ⟨rfl, rfl⟩ := Prod.mk.inj (Except.ok.inj (h1.symm.trans h1'))
    obtain ⟨b, hb⟩ := parsePath_found h2
    obtain ⟨req2', h2', hp⟩ := parsePath_spec hb
    obtain ⟨rfl, rfl⟩ := Prod.mk.inj (Except.ok.inj (h2.symm.trans h2'))
    obtain ⟨c, hc⟩ := parseVersion_found h3
    refine ⟨a, b, c, ha, ?_, ?_⟩
    · rw [← hb, hm.position]
      exact firstOf_congr (fun i hi _ => (hm.kept i (by omega)).symm)
    · rw [← hc, hp.position, hm.position]
      exact firstOf_congr (fun i hi _ => (hp.ahead hm hi).symm)
  obtain ⟨a, b, c, hm⟩ := hmarks
  obtain ⟨req1, h1, hp, hk⟩ := parseRequestLine_of_marks hstart hn hm
  obtain ⟨rfl, rfl⟩ := Prod.mk.inj (Except.ok.inj (h.symm.trans h1))
  exact ⟨a, b, c, hm, hp, rfl, hk⟩

theorem parseRequestLine_response (h : parseRequestLine req n = .ok (req', n')) :
    req'.response = req.response := by
  unfold parseRequestLine at h
  obtain ⟨⟨req1, n1⟩, h1, h⟩ := bind_eq_ok.mp h
  obtain ⟨⟨req2, n2⟩, h2, h3⟩ := bind_eq_ok.mp h
  have hmethod : req1.response = req.response := by
    unfold parseMethod at h1
    dsimp only at h1
    split at h1
    · cases h1
    · obtain ⟨rfl, -⟩ := Prod.mk.inj (Except.ok.inj h1)
      rfl
  have hpath : req2.response = req1.response := by
    unfold parsePath at h2
    dsimp only at h2
    split at h2
    · cases h2
    · split at h2
      · obtain ⟨rfl, -⟩ := Prod.mk.inj (Except.ok.inj h2)
        rfl
      · obtain ⟨rfl, -⟩ := Prod.mk.inj (Except.ok.inj h2)
        rfl
  have hversion : req'.response = req2.response := by
    unfold parseVersion at h3
    dsimp only at h3
    split at h3
    · cases h3
    · obtain ⟨rfl, -⟩ := Prod.mk.inj (Except.ok.inj h3)
      rfl
  rw [hversion, hpath, hmethod]

end Line

end CFlare.Http
