import LinuxWebsocket.Lib.Machine
import LinuxWebsocket.Http.Stream

/-!
# Reading lines

A caller of `parse_line` appends what it receives to one buffer and calls the parser in
between. Behind the lines already reported the buffer still holds the stream, and a scan
goes on from where the last one came to rest. So the lines and the last status are those
of the stream, however it was cut into reads, and no scan ever stops behind a CR.
-/

namespace LinuxWebsocket

namespace Http

/-- The caller's view: the bytes read so far, and what the calls reported. -/
structure Reader where
  /-- The buffer up to `read_index`. -/
  buffer : List UInt8
  checkedIndex : Nat
  /-- Where the line being read begins. -/
  lineStart : Nat
  /-- The lines reported, oldest first. -/
  lines : List (List UInt8)
  /-- What the last call returned, if nothing was received since. -/
  status : Option LineStatus
  deriving DecidableEq, Repr

/-- What the caller does next. -/
inductive Event
  /-- Bytes received are appended to the buffer. -/
  | recv (bytes : List UInt8)
  /-- `parse_line` is called. -/
  | call
  deriving DecidableEq, Repr

/-- The stream: all bytes received. -/
def received (es : List Event) : List UInt8 :=
  es.flatMap fun
    | .recv bytes => bytes
    | .call => []

/-- The reader after a call. The line reported stands between where it began and its CR LF. -/
def Reader.after (s : Reader) (r : Scanned) : Reader :=
  if r.status = .lineOk then
    { buffer := r.buffer
      checkedIndex := r.checkedIndex
      lineStart := r.checkedIndex
      lines := s.lines ++ [(r.buffer.take (r.checkedIndex - 2)).drop s.lineStart]
      status := some .lineOk }
  else
    { s with buffer := r.buffer, checkedIndex := r.checkedIndex, status := some r.status }

/-- One step of a caller of the parser `parse`. -/
def Reader.step (parse : List UInt8 → Nat → Nat → Except Fault Scanned) (s : Reader) :
    Event → Except Fault Reader
  | .recv bytes => .ok { s with buffer := s.buffer ++ bytes, status := none }
  | .call => do
    let r ← parse s.buffer s.checkedIndex s.buffer.length
    .ok (s.after r)

/-- Before the first byte. -/
def Reader.start : Reader := ⟨[], 0, 0, [], none⟩

/-- A caller that stops at `LINE_BAD`. -/
def readerMachine (parse : List UInt8 → Nat → Nat → Except Fault Scanned) :
    Machine Reader Event Fault where
  init := .start
  Allowed s _ := s.status ≠ some .lineBad
  step := Reader.step parse

instance (parse : List UInt8 → Nat → Nat → Except Fault Scanned) (s : Reader) (e : Event) :
    Decidable ((readerMachine parse).Allowed s e) :=
  inferInstanceAs (Decidable (s.status ≠ some .lineBad))

theorem Reader.step_call {parse : List UInt8 → Nat → Nat → Except Fault Scanned} (s : Reader)
    {r : Scanned} (h : parse s.buffer s.checkedIndex s.buffer.length = .ok r) :
    s.step parse .call = .ok (s.after r) := by
  rw [Reader.step, h, ok_bind]

/-- How the buffer stands to the stream: behind the lines reported, of which the bytes
`front` are left, both hold the plain bytes passed over and the bytes ahead of the scan. -/
structure Stands (stream : List UInt8) (s : Reader) (front mid ahead : List UInt8) : Prop where
  buffer : s.buffer = front ++ (mid ++ ahead)
  stream : stream = ended s.lines ++ (mid ++ ahead)
  length : front.length = (ended s.lines).length
  lineStart : s.lineStart = front.length
  checkedIndex : s.checkedIndex = front.length + mid.length
  resumes : Resumes front
  plain : Plain mid
  lines : ∀ line ∈ s.lines, Plain line
  rests : ∀ status, s.status = some status → status ≠ .lineOk → Rest ahead status

/-- What a call returns keeps `checked_index` within the buffer and changes no byte, except
that `LINE_OK` overwrites the CR LF that ends the line. -/
structure CallRight (s : Reader) (r : Scanned) : Prop where
  advances : s.checkedIndex ≤ r.checkedIndex
  within : r.checkedIndex ≤ s.buffer.length
  kept : r.status ≠ .lineOk → r.buffer = s.buffer
  cut : r.status = .lineOk → ∃ k, s.checkedIndex ≤ k ∧ r.checkedIndex = k + 2 ∧
    s.buffer[k]? = some cr ∧ s.buffer[k + 1]? = some lf ∧
      r.buffer = (s.buffer.set k 0).set (k + 1) 0

section Steps

variable {stream front mid ahead : List UInt8} {s : Reader}

theorem stands_start : Stands [] .start [] [] [] where
  buffer := rfl
  stream := rfl
  length := rfl
  lineStart := rfl
  checkedIndex := rfl
  resumes := by simp [Resumes]
  plain := plain_nil
  lines := by simp [Reader.start]
  rests := by simp [Reader.start]

/-- Bytes received are bytes ahead. -/
theorem Stands.recv (h : Stands stream s front mid ahead) (bytes : List UInt8) :
    Stands (stream ++ bytes) { s with buffer := s.buffer ++ bytes, status := none } front mid
      (ahead ++ bytes) where
  buffer := by simp [h.buffer]
  stream := by simp [h.stream]
  length := h.length
  lineStart := h.lineStart
  checkedIndex := h.checkedIndex
  resumes := h.resumes
  plain := h.plain
  lines := h.lines
  rests := by simp

/-- What a call returns, by the place of rest it comes to. -/
theorem Stands.call_eq {bytes rest : List UInt8} {status : LineStatus}
    (h : Stands stream s front mid (bytes ++ rest)) (hb : Plain bytes) (hr : Rest rest status)
    (behind : List UInt8) :
    parseLine (s.buffer ++ behind) s.checkedIndex s.buffer.length =
      .ok ⟨status, front ++ (mid ++ (bytes ++ settle status rest)) ++ behind,
        s.checkedIndex + bytes.length + passed status⟩ := by
  have hspec := parseLine_spec (h.resumes.append h.plain) hb hr behind
  rw [h.buffer, h.checkedIndex]
  simpa only [List.length_append, List.append_assoc, Nat.add_assoc] using hspec

/-- A call that ends no line moves the scan to the place of rest and leaves the buffer alone. -/
theorem Stands.rest {bytes rest : List UInt8} {status : LineStatus}
    (h : Stands stream s front mid (bytes ++ rest)) (hb : Plain bytes) (hr : Rest rest status)
    (hs : status ≠ .lineOk) (r : Scanned) (hrs : r.status = status) (hrb : r.buffer = s.buffer)
    (hrc : r.checkedIndex = s.checkedIndex + bytes.length) :
    CallRight s r ∧ Stands stream (s.after r) front (mid ++ bytes) rest := by
  have hafter : s.after r = { s with
      buffer := r.buffer, checkedIndex := r.checkedIndex, status := some r.status } := by
    rw [Reader.after, if_neg (by rwa [hrs])]
  constructor
  · refine ⟨by omega, ?_, fun _ => hrb, fun hok => absurd (hrs.symm.trans hok) hs⟩
    rw [hrc, h.checkedIndex, h.buffer]
    simp only [List.length_append]
    omega
  · rw [hafter]
    exact
      { buffer := by simp [hrb, h.buffer]
        stream := by simp [h.stream]
        length := h.length
        lineStart := h.lineStart
        checkedIndex := by simp [hrc, h.checkedIndex, Nat.add_assoc]
        resumes := h.resumes
        plain := h.plain.append hb
        lines := h.lines
        rests := fun st hst _ => by
          obtain rfl : r.status = st := Option.some.inj hst
          rwa [hrs] }

private theorem callRight_pair {before tail : List UInt8} {r : Scanned}
    (hbuffer : s.buffer = before ++ cr :: lf :: tail) (hle : s.checkedIndex ≤ before.length)
    (hrs : r.status = .lineOk) (hrb : r.buffer = before ++ 0 :: 0 :: tail)
    (hrc : r.checkedIndex = before.length + 2) : CallRight s r where
  advances := by omega
  within := by
    rw [hrc, hbuffer]
    simp
  kept hne := absurd hrs hne
  cut _ := ⟨before.length, hle, hrc, by simp [hbuffer], by simp [hbuffer], by simp [hbuffer, hrb]⟩

/-- A call that ends a line overwrites its CR LF, and the next line begins behind them. -/
theorem Stands.pair {bytes tail : List UInt8}
    (h : Stands stream s front mid (bytes ++ cr :: lf :: tail)) (hb : Plain bytes) (r : Scanned)
    (hrs : r.status = .lineOk) (hrb : r.buffer = front ++ (mid ++ (bytes ++ 0 :: 0 :: tail)))
    (hrc : r.checkedIndex = s.checkedIndex + bytes.length + 2) :
    CallRight s r ∧
      Stands stream (s.after r) (front ++ (mid ++ bytes) ++ [0, 0]) [] tail := by
  have hfront : s.checkedIndex + bytes.length = (front ++ (mid ++ bytes)).length := by
    simp only [h.checkedIndex, List.length_append, Nat.add_assoc]
  have hbuffer : s.buffer = front ++ (mid ++ bytes) ++ cr :: lf :: tail := by
    simp [h.buffer]
  have hline : (r.buffer.take (r.checkedIndex - 2)).drop s.lineStart = mid ++ bytes := by
    rw [hrb, hrc, Nat.add_sub_cancel, hfront, h.lineStart]
    rw [show front ++ (mid ++ (bytes ++ 0 :: 0 :: tail)) =
      (front ++ (mid ++ bytes)) ++ 0 :: 0 :: tail by simp, List.take_left, List.drop_left]
  constructor
  · exact callRight_pair hbuffer (by omega) hrs (by simp [hrb]) (by rw [hrc, hfront])
  · rw [Reader.after, if_pos hrs, hline]
    exact
      { buffer := by simp [hrb]
        stream := by simp [h.stream]
        length := by
          have := h.length
          simp only [List.length_append, List.length_cons, List.length_nil, ended_append,
            ended_cons, ended_nil] at this ⊢
          omega
        lineStart := by simp [hrc, hfront, Nat.add_assoc]
        checkedIndex := by simp [hrc, hfront, Nat.add_assoc]
        resumes := by simp [Resumes, cr]
        plain := plain_nil
        lines := fun line hline => by
          rcases List.mem_append.mp hline with hline | hline
          · exact h.lines line hline
          · rw [List.mem_singleton.mp hline]
            exact h.plain.append hb
        rests := by simp }

/-- Every call returns, with the place of rest it has come to. -/
theorem Stands.call (h : Stands stream s front mid ahead) :
    ∃ r front' mid' ahead', (∀ behind, parseLine (s.buffer ++ behind) s.checkedIndex
        s.buffer.length = .ok { r with buffer := r.buffer ++ behind }) ∧
      CallRight s r ∧ Stands stream (s.after r) front' mid' ahead' := by
  obtain ⟨bytes, rest, status, rfl, hb, hr⟩ := exists_rest ahead
  let r : Scanned := ⟨status, front ++ (mid ++ (bytes ++ settle status rest)),
    s.checkedIndex + bytes.length + passed status⟩
  refine ⟨r, ?_⟩
  by_cases hs : status = .lineOk
  · subst hs
    cases hr with
    | pair tail => exact ⟨_, _, _, h.call_eq hb (.pair tail), h.pair hb r rfl rfl rfl⟩
  · have hbuffer : r.buffer = s.buffer := by
      rw [h.buffer, ← settle_of_ne hs rest]
    have hindex : r.checkedIndex = s.checkedIndex + bytes.length := by
      rw [← Nat.add_zero (_ + _), ← passed_of_ne hs]
    exact ⟨_, _, _, h.call_eq hb hr, h.rest hb hr hs r rfl hbuffer hindex⟩

/-- A call on the buffer alone, with nothing behind it. -/
private theorem call_alone {r : Scanned} (h : ∀ behind, parseLine (s.buffer ++ behind)
      s.checkedIndex s.buffer.length = .ok { r with buffer := r.buffer ++ behind }) :
    parseLine s.buffer s.checkedIndex s.buffer.length = .ok r := by
  simpa using h []

theorem CallRight.length_eq {r : Scanned} (h : CallRight s r) :
    r.buffer.length = s.buffer.length := by
  by_cases hs : r.status = .lineOk
  · obtain ⟨k, -, -, -, -, hb⟩ := h.cut hs
    simp [hb]
  · rw [h.kept hs]

/-- Calls that report lines move the scan on. -/
theorem CallRight.moves {r : Scanned} (h : CallRight s r) (hs : r.status = .lineOk) :
    s.checkedIndex < r.checkedIndex := by
  obtain ⟨k, hk, hr, -⟩ := h.cut hs
  omega

@[simp] theorem status_after (r : Scanned) : (s.after r).status = some r.status := by
  rw [Reader.after]
  split
  · next hs => rw [hs]
  · rfl

@[simp] theorem buffer_after (r : Scanned) : (s.after r).buffer = r.buffer := by
  rw [Reader.after]
  split <;> rfl

@[simp] theorem checkedIndex_after (r : Scanned) :
    (s.after r).checkedIndex = r.checkedIndex := by
  rw [Reader.after]
  split <;> rfl

theorem lines_after (r : Scanned) : s.lines <+: (s.after r).lines := by
  rw [Reader.after]
  split
  · exact List.prefix_append ..
  · exact List.prefix_rfl

end Steps

/-! ## Runs -/

section Runs

variable {es : List Event} {s : Reader}

/-- The last call found no line: the caller stops, or waits for more bytes. -/
def Reader.Finished (s : Reader) : Prop :=
  s.status = some .lineBad ∨ s.status = some .lineOpen

@[simp] theorem received_recv (es : List Event) (bytes : List UInt8) :
    received (es ++ [.recv bytes]) = received es ++ bytes := by
  simp [received]

@[simp] theorem received_call (es : List Event) : received (es ++ [.call]) = received es := by
  simp [received]

/-- In every run the buffer stands to the stream as it should. -/
theorem stands_of_run (h : (readerMachine parseLine).Run es s) :
    ∃ front mid ahead, Stands (received es) s front mid ahead := by
  induction h with
  | nil => exact ⟨[], [], [], stands_start⟩
  | @snoc es s t e _ _ hstep ih =>
      obtain ⟨front, mid, ahead, hs⟩ := ih
      cases e with
      | recv bytes =>
          obtain rfl := Except.ok.inj hstep
          rw [received_recv]
          exact ⟨front, mid, _, hs.recv bytes⟩
      | call =>
          obtain ⟨r, front', mid', ahead', hcall, -, ht⟩ := hs.call
          obtain rfl := Except.ok.inj ((s.step_call (call_alone hcall)).symm.trans hstep)
          rw [received_call]
          exact ⟨front', mid', ahead', ht⟩

/-- Every call of a run returns. -/
theorem call_of_run (h : (readerMachine parseLine).Run es s) :
    ∃ r, (∀ behind, parseLine (s.buffer ++ behind) s.checkedIndex s.buffer.length =
        .ok { r with buffer := r.buffer ++ behind }) ∧ CallRight s r := by
  obtain ⟨front, mid, ahead, hs⟩ := stands_of_run h
  obtain ⟨r, -, -, -, hcall, hr, -⟩ := hs.call
  exact ⟨r, hcall, hr⟩

/-- Once a call finds no line, the lines reported are those of the stream, and the status
tells whether the stream is malformed. -/
theorem finished_of_run (h : (readerMachine parseLine).Run es s) (hf : s.Finished) :
    Delimited (received es) s.lines ∧ (s.status = some .lineBad ↔ Malformed (received es)) := by
  obtain ⟨front, mid, ahead, hs⟩ := stands_of_run h
  rw [hs.stream, malformed_ended hs.lines]
  rcases hf with hbad | hopen
  · have hr := hs.rests _ hbad (by decide)
    exact ⟨delimited_of_rest hs.lines hs.plain hr (by decide),
      fun _ => ⟨_, malformedAt_rest hs.plain hr⟩, fun _ => hbad⟩
  · have hr := hs.rests _ hopen (by decide)
    refine ⟨delimited_of_rest hs.lines hs.plain hr (by decide), fun hbad => ?_,
      fun hm => absurd hm (not_malformed_rest hs.plain hr)⟩
    rw [hopen] at hbad
    cases hbad

/-- Finitely many calls come to one that finds no line. -/
theorem finishes (h : (readerMachine parseLine).Run es s) (hs : s.status ≠ some .lineBad) :
    ∃ n t, (readerMachine parseLine).Run (es ++ List.replicate n .call) t ∧ t.Finished ∧
      s.lines <+: t.lines := by
  induction hk : s.buffer.length - s.checkedIndex using Nat.strongRecOn
    generalizing es s with
  | _ k ih =>
      obtain ⟨r, hcall, hr⟩ := call_of_run h
      have hstep : s.step parseLine .call = .ok (s.after r) :=
        s.step_call (call_alone hcall)
      have hnext := h.snoc (e := Event.call) hs hstep
      by_cases hok : r.status = .lineOk
      · have hmoves := hr.moves hok
        have hwithin := hr.within
        obtain ⟨n, t, ht, hf, hl⟩ := ih _ (by
          simp only [buffer_after, checkedIndex_after, hr.length_eq]
          omega) hnext (by simp [hok]) rfl
        refine ⟨n + 1, t, ?_, hf, (lines_after r).trans hl⟩
        simpa [List.replicate_succ] using ht
      · refine ⟨1, _, hnext, ?_, lines_after r⟩
        rw [Reader.Finished, status_after]
        cases hst : r.status with
        | lineOk => exact absurd hst hok
        | lineBad => exact .inl rfl
        | lineOpen => exact .inr rfl

/-- However a stream is cut into reads, the lines reported and the last status are those of
the stream. Every call of the parser returns, reads nothing behind `read_index`, and changes
no byte but the CR LF of the line it reports. -/
theorem lines_of_stream (h : (readerMachine parseLine).Run es s) :
    (∃ r, (∀ behind, parseLine (s.buffer ++ behind) s.checkedIndex s.buffer.length =
        .ok { r with buffer := r.buffer ++ behind }) ∧ CallRight s r) ∧
      (s.status ≠ some .lineBad → ∃ n t,
        (readerMachine parseLine).Run (es ++ List.replicate n .call) t ∧ t.Finished ∧
          s.lines <+: t.lines) ∧
      (s.Finished → Delimited (received es) s.lines ∧
        (s.status = some .lineBad ↔ Malformed (received es))) ∧
      ∀ es' s', (readerMachine parseLine).Run es' s' → received es' = received es →
        s.Finished → s'.Finished → s'.lines = s.lines ∧ s'.status = s.status := by
  refine ⟨call_of_run h, finishes h, finished_of_run h, fun es' s' h' he hf hf' => ?_⟩
  obtain ⟨hd, hbad⟩ := finished_of_run h hf
  obtain ⟨hd', hbad'⟩ := finished_of_run h' hf'
  rw [he] at hd' hbad'
  refine ⟨hd'.unique hd, ?_⟩
  have hiff := hbad'.trans hbad.symm
  rcases hf with hs | hs <;> rcases hf' with hs' | hs' <;> simp [hs, hs'] at hiff ⊢

/-- A stream cut between the CR and the LF of its first line. -/
theorem lines_of_stream_split :
    Delimited [71, 13, 10, 10] [[71]] ∧ Malformed [71, 13, 10, 10] := by
  let es : List Event := [.recv [71, 13], .call, .recv [10, 10], .call, .call]
  have hrun : (readerMachine parseLine).Run es ⟨[71, 0, 0, 10], 3, 3, [[71]], some .lineBad⟩ :=
    .of_exec es (by decide) rfl
  obtain ⟨hd, hbad⟩ := (lines_of_stream hrun).2.2.1 (.inl rfl)
  exact ⟨hd, hbad.mp rfl⟩

/-- A reader that stands as it should goes through the same states whatever is done behind
the inner `if` of `temp == '\n'`, and also if the outer branch rejects at once. -/
theorem Stands.exec {stream front mid ahead : List UInt8}
    (h : Stands stream s front mid ahead) (es : List Event) :
    ∃ t, (readerMachine parseLineStrict).exec s es = .ok t ∧
      ∀ accept, (readerMachine (parseLineWith (newlineBranch accept))).exec s es = .ok t := by
  induction es generalizing s stream front mid ahead with
  | nil => exact ⟨s, rfl, fun _ => rfl⟩
  | cons e es ih =>
      cases e with
      | recv bytes => exact ih (h.recv bytes)
      | call =>
          obtain ⟨r, _, _, _, hcall, -, ht⟩ := h.call
          obtain ⟨t, hstrict, haccept⟩ := ih ht
          have hfront : s.checkedIndex = (front ++ mid).length := by
            rw [h.checkedIndex, List.length_append]
          have hbuffer : s.buffer = front ++ mid ++ ahead := by simp [h.buffer]
          have hsame : ∀ accept, parseLineWith (newlineBranch accept) s.buffer s.checkedIndex
              s.buffer.length = parseLineStrict s.buffer s.checkedIndex s.buffer.length := by
            intro accept
            rw [hfront, hbuffer]
            simpa only [List.append_nil] using
              parseLineWith_newlineBranch accept (h.resumes.append h.plain) ahead []
          have hstrict' : parseLineStrict s.buffer s.checkedIndex s.buffer.length = .ok r := by
            rw [← hsame acceptNewline]
            exact call_alone hcall
          refine ⟨t, ?_, fun accept => ?_⟩
          · rw [Machine.exec, show (readerMachine parseLineStrict).step s .call = .ok (s.after r)
              from s.step_call hstrict']
            exact hstrict
          · rw [Machine.exec, show (readerMachine (parseLineWith (newlineBranch accept))).step s
              .call = .ok (s.after r) from s.step_call ((hsame accept).trans hstrict')]
            exact haccept accept

/-- The statements that end a line at a LF behind a CR are never reached: whatever they do,
every sequence of reads and calls goes through the states of the parser that rejects at
every LF its scan meets. -/
theorem newline_accept_unreachable (es : List Event) :
    ∃ t, (readerMachine parseLine).exec .start es = .ok t ∧
      (readerMachine parseLineStrict).exec .start es = .ok t ∧
      ∀ accept, (readerMachine (parseLineWith (newlineBranch accept))).exec .start es = .ok t := by
  obtain ⟨t, hstrict, haccept⟩ := stands_start.exec es
  exact ⟨t, haccept acceptNewline, hstrict, haccept⟩

end Runs

end Http

end LinuxWebsocket
