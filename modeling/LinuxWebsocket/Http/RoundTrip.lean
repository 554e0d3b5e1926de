import LinuxWebsocket.Http.Lines
import LinuxWebsocket.Http.RequestLine

/-!
# From a request to its URL

A request whose parts hold no blanks, line ends or NUL is written as `GET`, its URL and
`HTTP/1.1`, followed by its headers. `parse_line` gives back its lines however they are cut
into reads, and leaves the first one in the buffer as a string of which
`parse_requestline` takes the path.
-/

namespace LinuxWebsocket

namespace Http

/-- A byte that may stand in a URL. -/
def Visible (b : UInt8) : Prop := b ∉ [0, 9, 10, 13, 32]

instance (b : UInt8) : Decidable (Visible b) := inferInstanceAs (Decidable (b ∉ _))

/-- A request for a path, with the host in the URL or without it. -/
structure Request where
  host : Option (List UInt8)
  /-- The path behind its first slash. -/
  path : List UInt8
  headers : List (List UInt8)
  host_visible : ∀ h ∈ host, ∀ b ∈ h, Visible b
  host_slash : ∀ h ∈ host, slash ∉ h
  path_visible : ∀ b ∈ path, Visible b
  headers_plain : ∀ line ∈ headers, Plain line

namespace Request

/-- What is asked for. -/
def target (q : Request) : List UInt8 := slash :: q.path

/-- The URL. -/
def url (q : Request) : List UInt8 :=
  match q.host with
  | none => q.target
  | some h => http ++ (h ++ q.target)

/-- The request line. -/
def line (q : Request) : List UInt8 := get ++ 32 :: ([] ++ (q.url ++ 32 :: ([] ++ http11)))

/-- The lines, down to the empty one. -/
def lines (q : Request) : List (List UInt8) := q.line :: (q.headers ++ [[]])

/-- The request as it is sent. -/
def text (q : Request) : List UInt8 := ended q.lines

variable {q : Request} {b : UInt8}

theorem visible_url (hb : b ∈ q.url) : Visible b := by
  have htarget : ∀ b ∈ q.target, Visible b :=
    List.forall_mem_cons.mpr ⟨by decide, q.path_visible⟩
  have hhttp : ∀ b ∈ http, Visible b := by simp [http, Visible]
  unfold url at hb
  split at hb
  · exact htarget b hb
  · next h hh =>
      rcases List.mem_append.mp hb with hb | hb
      · exact hhttp b hb
      · rcases List.mem_append.mp hb with hb | hb
        · exact q.host_visible h hh b hb
        · exact htarget b hb

theorem url_nonempty : q.url ≠ [] := by
  unfold url
  split <;> simp [target, http]

/-- The path is what is taken of the URL. -/
theorem urlTaken : UrlTaken q.url q.target := by
  unfold url
  split
  · exact .path q.path
  · next h hh => exact .absolute http h q.path rfl (q.host_slash h hh)

/-- The request line is one. -/
theorem requestLine : RequestLine q.line get [32] q.url [32] http11 :=
  requestLine_of_runs (by simp [get, blanks]) (by decide) (by simp)
    (fun c hc => by
      have hv := visible_url hc
      simp only [Visible, List.mem_cons, not_or] at hv
      simp [blanks, hv])
    url_nonempty (by decide) (by simp) (by simp [http11, blanks]) rfl rfl

/-- The request line is made of blanks and visible bytes. -/
theorem not_mem_line (hb : ¬ Visible b) (h32 : b ≠ 32) : b ∉ q.line := by
  have hget : ∀ b ∈ get, Visible b := by simp [get, Visible]
  have hversion : ∀ b ∈ http11, Visible b := by simp [http11, Visible]
  intro hmem
  simp only [line, List.nil_append, List.mem_append, List.mem_cons] at hmem
  rcases hmem with hmem | hmem | hmem | hmem | hmem
  · exact hb (hget b hmem)
  · exact h32 hmem
  · exact hb (visible_url hmem)
  · exact h32 hmem
  · exact hb (hversion b hmem)

/-- No line of a request holds a line end. -/
theorem lines_plain : ∀ line ∈ q.lines, Plain line := by
  have hline : Plain q.line :=
    ⟨not_mem_line (by decide) (by decide), not_mem_line (by decide) (by decide)⟩
  refine List.forall_mem_cons.mpr ⟨hline, fun l hl => ?_⟩
  rcases List.mem_append.mp hl with hl | hl
  · exact q.headers_plain l hl
  · rw [List.mem_singleton.mp hl]
    exact plain_nil

/-- A request is not malformed. -/
theorem not_malformed : ¬ Malformed q.text := by
  have h : Malformed (ended q.lines ++ []) ↔ Malformed [] := malformed_ended q.lines_plain
  rw [List.append_nil] at h
  rw [text, h]
  rintro ⟨i, h⟩
  simp [MalformedAt] at h

/-- The lines of a request are those it is made of. -/
theorem delimited : Delimited q.text q.lines where
  begins := List.prefix_rfl
  plain := q.lines_plain
  last i hi hcr _ := by
    have hnone : q.text[i]? = none := List.getElem?_eq_none hi
    rw [hnone] at hcr
    cases hcr

/-- The request line at the start of the memory is accepted, and its path is left behind as a
string of its own. -/
theorem accepted (q : Request) (st : CheckState) (rest : List UInt8) :
    ∃ p i back, parseRequestline (q.line ++ 0 :: rest) st = .ok p ∧ p.code = .noRequest ∧
      p.checkstate = .header ∧ p.url = some i ∧ p.temp.drop i = q.target ++ 0 :: back := by
  have h0 : 0 ∉ q.line := not_mem_line (by decide) (by decide)
  obtain ⟨back, hback⟩ := taken_string q.requestLine q.urlTaken
  refine ⟨_, _, back ++ rest, parseRequestline_accepts q.requestLine q.urlTaken h0 st rest, rfl,
    rfl, rfl, ?_⟩
  rw [List.drop_append_of_le_length, hback]
  · simp
  · by_contra hlong
    rw [List.drop_eq_nil_of_le (Nat.le_of_not_le hlong)] at hback
    simp at hback

end Request

/-- The lines as they are left in the buffer. -/
def sealed (lines : List (List UInt8)) : List UInt8 :=
  lines.flatMap fun line => line ++ [0, 0]

@[simp] theorem sealed_append (lines more : List (List UInt8)) :
    sealed (lines ++ more) = sealed lines ++ sealed more := by
  simp [sealed]

/-- Lines are sealed in place. -/
theorem sealed_length (lines : List (List UInt8)) :
    (sealed lines).length = (ended lines).length := by
  simp [sealed, ended, List.length_flatMap]

section Runs

variable {es : List Event} {s : Reader}

/-- Two neighbouring bytes are overwritten. -/
private theorem set_pair {bytes : List UInt8} {k : Nat} {a b : UInt8}
    (hk : k + 1 < bytes.length) :
    (bytes.set k a).set (k + 1) b = bytes.take k ++ a :: b :: bytes.drop (k + 2) := by
  obtain ⟨front, x, y, tail, rfl, rfl⟩ : ∃ front x y tail,
      bytes = front ++ x :: y :: tail ∧ front.length = k := by
    refine ⟨bytes.take k, bytes[k], bytes[k + 1], bytes.drop (k + 2), ?_, ?_⟩
    · rw [List.getElem_cons_drop, List.getElem_cons_drop, List.take_append_drop]
    · exact List.length_take_of_le (by omega)
  simp [List.drop_append]

/-- A call that reports a line leaves it in the buffer behind those before it. -/
theorem CallRight.seals {stream front mid ahead rest : List UInt8} {r : Scanned}
    (hr : CallRight s r) (hs : Stands stream s front mid ahead)
    (hb : s.buffer = sealed s.lines ++ rest) :
    ∃ rest', (s.after r).buffer = sealed (s.after r).lines ++ rest' := by
  by_cases hok : r.status = .lineOk
  · obtain ⟨k, hk, hrk, hcr, hlf, hrb⟩ := hr.cut hok
    obtain ⟨hklt, -⟩ := List.getElem?_eq_some_iff.mp hcr
    obtain ⟨hklt', -⟩ := List.getElem?_eq_some_iff.mp hlf
    have hstart : s.lineStart = (sealed s.lines).length := by
      rw [hs.lineStart, hs.length, sealed_length]
    have hle : (sealed s.lines).length ≤ k := by
      rw [← hstart, hs.lineStart]
      exact Nat.le_trans (Nat.le_add_right ..) (hs.checkedIndex ▸ hk)
    have hline : s.buffer.take k = sealed s.lines ++ rest.take (k - (sealed s.lines).length) := by
      rw [hb, List.take_append, List.take_of_length_le hle]
    have hleft : r.buffer = s.buffer.take k ++ 0 :: 0 :: s.buffer.drop (k + 2) := by
      rw [hrb, set_pair hklt']
    have hlen : (s.buffer.take k).length = k := List.length_take_of_le (Nat.le_of_lt hklt)
    have htaken : r.buffer.take k = s.buffer.take k := by
      rw [hleft, List.take_left' hlen]
    refine ⟨s.buffer.drop (k + 2), ?_⟩
    rw [buffer_after, Reader.after, if_pos hok, hrk, Nat.add_sub_cancel, htaken, hstart, hleft,
      hline, List.drop_left]
    simp [sealed]
  · rw [buffer_after, hr.kept hok, Reader.after, if_neg hok]
    exact ⟨rest, hb⟩

/-- In every run the buffer begins with the lines reported. -/
theorem sealed_of_run (h : (readerMachine parseLine).Run es s) :
    ∃ rest, s.buffer = sealed s.lines ++ rest := by
  induction h with
  | nil => exact ⟨[], rfl⟩
  | @snoc es s t e hrun _ hstep ih =>
      obtain ⟨rest, hb⟩ := ih
      cases e with
      | recv bytes =>
          obtain rfl := Except.ok.inj hstep
          exact ⟨rest ++ bytes, by simp [hb]⟩
      | call =>
          obtain ⟨front, mid, ahead, hs⟩ := stands_of_run hrun
          obtain ⟨r, hcall, hr⟩ := call_of_run hrun
          obtain rfl := Except.ok.inj ((s.step_call (by simpa using hcall [])).symm.trans hstep)
          exact hr.seals hs hb

/-- What a beginning of a stream holds malformed, the stream does. -/
theorem Malformed.mono {front stream : List UInt8} (h : Malformed front)
    (hp : front <+: stream) : Malformed stream := by
  obtain ⟨tail, rfl⟩ := hp
  have hkeep {i : Nat} {b : UInt8} (h : front[i]? = some b) : (front ++ tail)[i]? = some b := by
    rw [List.getElem?_append_left (List.getElem?_eq_some_iff.mp h).1, h]
  obtain ⟨i, ⟨hcr, b, hb, hne⟩ | ⟨hlf, hno⟩⟩ := h
  · exact ⟨i, Or.inl ⟨hkeep hcr, b, hkeep hb, hne⟩⟩
  · refine ⟨i, Or.inr ⟨hkeep hlf, fun j hj hcr => hno j hj ?_⟩⟩
    have hi := (List.getElem?_eq_some_iff.mp hlf).1
    rwa [List.getElem?_append_left (by omega)] at hcr

/-- However a request is cut into reads, no call finds it malformed, and the lines reported are
its first lines, all of them once the last call waits for more. From the first line on, the
buffer begins with a string that `parse_requestline` accepts, with the path asked for. -/
theorem request_round_trip (q : Request) (h : (readerMachine parseLine).Run es s)
    (hs : received es <+: q.text) :
    s.status ≠ some .lineBad ∧ s.lines <+: q.lines ∧
      (received es = q.text → s.status = some .lineOpen → s.lines = q.lines) ∧
      (s.lines ≠ [] → ∀ st, ∃ p i back, parseRequestline s.buffer st = .ok p ∧
        p.code = .noRequest ∧ p.checkstate = .header ∧ p.url = some i ∧
        p.temp.drop i = q.target ++ 0 :: back) := by
  have hlines : s.lines <+: q.lines := by
    obtain ⟨front, mid, ahead, hst⟩ := stands_of_run h
    have hb : ended s.lines <+: received es := hst.stream ▸ List.prefix_append ..
    exact q.delimited.prefix_of_begins hst.lines (hb.trans hs)
  refine ⟨fun hbad => ?_, hlines, fun hall hopen => ?_, fun hne st => ?_⟩
  · exact q.not_malformed (((finished_of_run h (Or.inl hbad)).2.mp hbad).mono hs)
  · have hd := (finished_of_run h (Or.inr hopen)).1
    rw [hall] at hd
    exact hd.unique q.delimited
  · obtain ⟨rest, hb⟩ := sealed_of_run h
    obtain ⟨line, lines, hl⟩ := List.exists_cons_of_ne_nil hne
    obtain rfl : line = q.line := by
      rw [hl] at hlines
      exact (List.cons_prefix_cons.mp hlines).1
    rw [hb, hl]
    simpa [sealed] using q.accepted st (0 :: (sealed lines ++ rest))

theorem sample_host_visible : ∀ h ∈ some [97], ∀ b ∈ h, Visible b := by simp [Visible]

theorem sample_host_slash : ∀ h ∈ some [97], slash ∉ h := by simp [slash]

theorem sample_path_visible : ∀ b ∈ [98], Visible b := by simp [Visible]

/-- A request for `http://a/b`. -/
def sampleRequest : Request where
  host := some [97]
  path := [98]
  headers := []
  host_visible := sample_host_visible
  host_slash := sample_host_slash
  path_visible := sample_path_visible
  headers_plain := List.forall_mem_nil _

/-- It comes in two parts, cut behind the CR of its first line. -/
def sampleSplit : List Event :=
  [.recv (sampleRequest.text.take 26), .call, .recv (sampleRequest.text.drop 26), .call, .call,
    .call]

/-- Its path is found all the same. -/
theorem request_round_trip_split :
    ∃ s, (readerMachine parseLine).Run sampleSplit s ∧
      s.lines = sampleRequest.lines ∧ ∀ st, ∃ p i back, parseRequestline s.buffer st = .ok p ∧
        p.code = .noRequest ∧ p.checkstate = .header ∧ p.url = some i ∧
        p.temp.drop i = [47, 98] ++ 0 :: back :=
  have ⟨s, hrun, hs⟩ := Machine.Run.of_exec_map (M := readerMachine parseLine)
    (f := fun s => (s.status, s.lines)) (x := (some .lineOpen, sampleRequest.lines))
    sampleSplit (by decide) (by decide)
  have hlines : s.lines = sampleRequest.lines := congrArg Prod.snd hs
  have ⟨_, _, _, hparse⟩ := request_round_trip sampleRequest hrun (by decide)
  ⟨s, hrun, hlines, hparse (by simp [hlines, Request.lines])⟩

end Runs

end Http

end LinuxWebsocket
