import LinuxWebsocket.Web.FileServer

/-!
# The one response

What the server sends is worked out branch by branch. The header is a string that grows by
what is printed where it ends, as long as that fits; the answer then depends on the branch
alone, and where the branch leaves `valid` or `file_buf` without a value, on what these held
before.
-/

namespace LinuxWebsocket

namespace Web

open CString

/-! ## The response that is due -/

/-- A response as it is meant for the client. -/
inductive Response
  | file (body : List UInt8)
  | error
deriving DecidableEq

/-- The bytes of a response. -/
def Response.render : Response → List UInt8
  | .file body =>
    ascii "HTTP/1.1 200 OK\r\nContent-Length: " ++ decimal body.length ++ ascii "\r\n\r\n" ++ body
  | .error => ascii "HTTP/1.1 500 Internal server error\r\n\r\n"

/-- `stat` reports a file that others may read, and no directory. -/
def File.Readable (file : File) : Prop :=
  ∃ mode, file.stat = some mode ∧ S_ISDIR mode = false ∧ mode &&& S_IROTH ≠ 0

/-- Such a file, and there is memory for it: `main` gets to its `read`. -/
def File.Reads (file : File) : Prop := file.Readable ∧ file.allocates = true

/-- Such a file, and it was read completely. -/
def File.Served (file : File) : Prop := file.Reads ∧ file.readResult = some file.st_size

/-- Such a file, and it could not be opened or read. -/
def File.ReadFails (file : File) : Prop := file.Reads ∧ file.readResult = none

/-- The response that is due for the file. -/
def File.IsDue (file : File) (r : Response) : Prop :=
  (file.Served ∧ r = .file file.bytes) ∨ (¬file.Served ∧ r = .error)

/-- The run sends the response that is due, once, and reads no variable without a value. -/
def Right (file : File) (g : Garbage) : Prop :=
  ∃ o r, serve file g = .ok o ∧ file.IsDue r ∧ o.sent = [r.render] ∧ o.unassigned = []

/-! ## Texts without a terminator -/

private theorem toNat_of_digit {c : Char} (h : c.isDigit) : 48 ≤ c.toNat ∧ c.toNat ≤ 57 := by
  simp only [Char.isDigit, Bool.and_eq_true, decide_eq_true_eq, ge_iff_le,
    UInt32.le_iff_toNat_le] at h
  exact h

/-- A size is printed in digits. -/
theorem digit_of_mem_decimal {n : Nat} {b : UInt8} (hb : b ∈ decimal n) :
    48 ≤ b.toNat ∧ b.toNat ≤ 57 := by
  rw [decimal, ascii, Nat.toList_repr] at hb
  obtain ⟨c, hc, rfl⟩ := List.mem_map.mp hb
  have hdigit := toNat_of_digit (Nat.isDigit_of_mem_toDigits (by decide) (by decide) hc)
  simp only [Nat.toUInt8, UInt8.toNat_ofNat']
  omega

theorem not_mem_decimal {b : UInt8} (hb : b.toNat < 48) (n : Nat) : b ∉ decimal n := by
  intro hmem
  have hdigit := digit_of_mem_decimal hmem
  omega

theorem length_decimal_le {n : Nat} (hn : n < 2 ^ 63) : (decimal n).length ≤ 19 := by
  rw [decimal, ascii, List.length_map, Nat.toList_repr]
  exact Nat.toDigits_length 10 n 19 (by decide) (by omega)

theorem zero_not_mem_lengthText (n : Nat) : 0 ∉ lengthText n := by
  have hdecimal : 0 ∉ decimal n := not_mem_decimal (by decide) n
  have hname : 0 ∉ ascii "Content-Length: " := by decide
  have hend : 0 ∉ ascii "\r\n" := by decide
  simp [lengthText, hdecimal, hname, hend]

theorem length_lengthText_le {n : Nat} (hn : n < 2 ^ 63) : (lengthText n).length ≤ 37 := by
  have hdecimal := length_decimal_le hn
  have hname : (ascii "Content-Length: ").length = 16 := by decide
  have hend : (ascii "\r\n").length = 2 := by decide
  simp only [lengthText, List.length_append]
  omega

theorem zero_not_mem_statusText (ok : Bool) : 0 ∉ statusText (status_line ok) := by
  cases ok <;> decide

theorem length_statusText_le (ok : Bool) : (statusText (status_line ok)).length ≤ 36 := by
  cases ok <;> decide

/-- Two responses with the same bytes are the same, so the bytes tell the client which it is. -/
theorem Response.render_injective : Function.Injective Response.render := by
  have hstart (body : List UInt8) :
      (Response.file body).render.take 10 = ascii "HTTP/1.1 2" := by
    have hlength : 10 ≤ (ascii "HTTP/1.1 200 OK\r\nContent-Length: ").length := by decide
    have hfront : (ascii "HTTP/1.1 200 OK\r\nContent-Length: ").take 10 = ascii "HTTP/1.1 2" := by
      decide
    simp only [render, List.append_assoc, List.take_append_of_le_length hlength, hfront]
  have herror : Response.error.render.take 10 ≠ ascii "HTTP/1.1 2" := by decide
  intro r r' h
  cases r with
  | error =>
      cases r' with
      | error => rfl
      | file body => exact absurd (h ▸ hstart body) herror
  | file body =>
      cases r' with
      | error => exact absurd (h ▸ hstart body) herror
      | file body' =>
          have hcr (n : Nat) : 13 ∉ decimal n := not_mem_decimal (by decide) n
          have hstop : ascii "\r\n\r\n" = 13 :: ascii "\n\r\n" := by decide
          simp only [render, hstop, List.append_assoc, List.cons_append,
            List.append_cancel_left_eq] at h
          have hdecimal := congrArg (List.takeWhile (· ≠ 13)) h
          rw [takeWhile_first (hcr _), takeWhile_first (hcr _)] at hdecimal
          rw [hdecimal, List.append_cancel_left_eq, List.cons_inj_right,
            List.append_cancel_left_eq] at h
          rw [h]

/-! ## The header -/

/-- The header so far: `header_buf` holds it and `len` is its length. -/
structure Locals.Prints (l : Locals) (s : List UInt8) : Prop where
  holds : Holds l.header_buf s
  len_eq : l.len = s.length
  size : l.header_buf.length = BUFFER_SIZE

variable {file : File} {g : Garbage} {l : Locals} {s t : List UInt8} {mode : UInt32}

/-- A text that fits behind the header is printed there as a whole. -/
theorem Locals.Prints.print (h : l.Prints s) (ht : 0 ∉ t)
    (hfits : s.length + t.length < BUFFER_SIZE - 1) :
    Holds (l.print t).1.header_buf (s ++ t) ∧
      (l.print t).1.header_buf.length = BUFFER_SIZE := by
  have hlen := h.len_eq
  have hsize := h.size
  have hleft : t.length < BUFFER_SIZE - 1 - l.len := by omega
  have hprinted := h.holds.snprintf ht hleft (by omega)
  simpa only [Locals.print, hlen, hsize] using hprinted

theorem Locals.Prints.printOn (h : l.Prints s) (ht : 0 ∉ t)
    (hfits : s.length + t.length < BUFFER_SIZE - 1) : (l.printOn t).Prints (s ++ t) where
  holds := (h.print ht hfits).1
  len_eq := by simp [Locals.printOn, Locals.print, snprintf_length, h.len_eq]
  size := (h.print ht hfits).2

theorem Locals.Prints.header_print (h : l.Prints s) (ht : 0 ∉ t)
    (hfits : s.length + t.length < BUFFER_SIZE - 1) : (l.print t).1.header = some (s ++ t) := by
  have hholds := (h.print ht hfits).1
  simp only [Locals.header, hholds.strlen_eq, Option.map_some, hholds.take_length]

theorem prints_declared (g : Garbage) : (Locals.declared g).Prints [] where
  holds := holds_zeros (by decide)
  len_eq := rfl
  size := List.length_replicate

/-- The tests of the file leave the header alone. -/
theorem Locals.Prints.examine (h : l.Prints s) {l' : Locals}
    (hl : examine file mode l = .ok l') : l'.Prints s := by
  have hsame : l'.header_buf = l.header_buf ∧ l'.len = l.len := by
    rw [Web.examine] at hl
    split at hl
    · obtain rfl := Except.ok.inj hl
      exact ⟨rfl, rfl⟩
    · split at hl
      · split at hl
        · split at hl
          · obtain rfl := Except.ok.inj hl
            exact ⟨rfl, rfl⟩
          · obtain rfl := Except.ok.inj hl
            exact ⟨rfl, rfl⟩
        · cases hl
      · obtain rfl := Except.ok.inj hl
        exact ⟨rfl, rfl⟩
  obtain ⟨hbuf, hlen⟩ := hsame
  exact ⟨hbuf ▸ h.holds, hlen ▸ h.len_eq, hbuf ▸ h.size⟩

@[simp] theorem Locals.printOn_file_buf (l : Locals) (t : List UInt8) :
    (l.printOn t).file_buf = l.file_buf := rfl

@[simp] theorem Locals.print_file_buf (l : Locals) (t : List UInt8) :
    (l.print t).1.file_buf = l.file_buf := rfl

/-! ## The two answers -/

theorem answerError_eq (h : l.Prints []) : answerError l = some Response.error.render := by
  have hstatus := length_statusText_le false
  have hprinted := h.printOn (zero_not_mem_statusText false) (by simp [BUFFER_SIZE]; omega)
  have hend : (ascii "\r\n").length = 2 := by decide
  have hheader := hprinted.header_print (t := ascii "\r\n") (by decide)
    (by simp [hend, BUFFER_SIZE]; omega)
  rw [answerError, hheader]
  decide

/-- The branch for a valid file sends a header with `st_size`, and that much of the buffer. -/
theorem answerFile_eq (h : l.Prints []) (file : File) :
    answerFile file l = some (ascii "HTTP/1.1 200 OK\r\nContent-Length: " ++ decimal file.st_size ++
      ascii "\r\n\r\n" ++ l.file_buf.value.take file.st_size) := by
  have hstatus := length_statusText_le true
  have hlength := length_lengthText_le (Nat.lt_of_succ_lt file.size_lt)
  have hend : (ascii "\r\n").length = 2 := by decide
  have hprinted := h.printOn (zero_not_mem_statusText true) (by simp [BUFFER_SIZE]; omega)
  have hprinted' := hprinted.printOn (zero_not_mem_lengthText file.st_size)
    (by simp [BUFFER_SIZE, File.st_size]; omega)
  have hheader := hprinted'.header_print (t := ascii "\r\n") (by decide)
    (by simp [hend, BUFFER_SIZE, File.st_size]; omega)
  have hstart : ascii "HTTP/1.1 200 OK\r\nContent-Length: " =
      statusText (status_line true) ++ ascii "Content-Length: " := by decide
  have hstop : ascii "\r\n\r\n" = ascii "\r\n" ++ ascii "\r\n" := by decide
  rw [answerFile, hheader, hstart, hstop]
  simp [lengthText]

/-! ## What the tests leave -/

/-- What `file_buf` holds of the file once `n` of its bytes were read. -/
def File.content (file : File) (n : Nat) : List UInt8 :=
  file.bytes.take n ++ List.replicate (file.st_size - n) 0

theorem File.content_length {n : Nat} (hn : n ≤ file.st_size) :
    (file.content n).length = file.st_size := by
  rw [File.content, List.length_append, List.length_replicate, List.length_take_of_le hn]
  exact Nat.add_sub_cancel' hn

theorem File.content_st_size : file.content file.st_size = file.bytes := by
  simp [File.content, File.st_size]

theorem File.readResult_le {n : Nat} (h : file.readResult = some n) : n ≤ file.st_size := by
  rw [File.readResult] at h
  split at h
  · exact file.read_le n h
  · cases h

/-- The buffer behind the read has one byte more than the file, for a terminator. -/
theorem overwrite_take {n : Nat} (hn : n ≤ file.st_size) :
    (overwrite (List.replicate (file.st_size + 1) 0) 0 (file.bytes.take n)).take file.st_size =
      file.content n := by
  have hread : (file.bytes.take n).length = n := List.length_take_of_le hn
  have hrest : min (file.st_size - n) (file.st_size + 1 - n) = file.st_size - n := by omega
  simp [overwrite, File.content, List.take_append, hread, hrest, List.take_take, hn]

theorem examine_readFails (h : file.ReadFails) (hstat : file.stat = some mode) :
    examine file mode l = .ok { l with
      valid := .assign false, file_buf := .assign (List.replicate (file.st_size + 1) 0) } := by
  obtain ⟨⟨⟨mode', hstat', hdir, hroth⟩, halloc⟩, hread⟩ := h
  obtain rfl := Option.some.inj (hstat.symm.trans hstat')
  simp [examine, hdir, hroth, halloc, hread]

/-- The path of a read that succeeds assigns nothing to `valid`. -/
theorem examine_read {n : Nat} (h : file.Reads) (hread : file.readResult = some n)
    (hstat : file.stat = some mode) :
    examine file mode l = .ok { l with
      file_buf := .assign
        (overwrite (List.replicate (file.st_size + 1) 0) 0 (file.bytes.take n)) } := by
  obtain ⟨⟨mode', hstat', hdir, hroth⟩, halloc⟩ := h
  obtain rfl := Option.some.inj (hstat.symm.trans hstat')
  simp [examine, hdir, hroth, halloc, hread]

theorem examine_refused (h : ¬file.Readable) (hstat : file.stat = some mode) :
    examine file mode l = .ok { l with valid := .assign false } := by
  rw [examine]
  split
  · rfl
  · next hdir =>
      split
      · next hroth => exact absurd ⟨mode, hstat, Bool.not_eq_true _ ▸ hdir, hroth⟩ h
      · rfl

/-- No memory for the file. -/
theorem examine_unallocated (h : file.Readable) (halloc : file.allocates = false)
    (hstat : file.stat = some mode) : examine file mode l = .error .bad_alloc := by
  obtain ⟨mode', hstat', hdir, hroth⟩ := h
  obtain rfl := Option.some.inj (hstat.symm.trans hstat')
  simp [examine, hdir, hroth, halloc]

/-! ## What a run sends and reads -/

theorem answer_error (file : File) (h : l.Prints []) (hvalid : l.valid.value = false) :
    answer file l = some (Response.error.render, l.valid.noteRead .valid) := by
  rw [answer, hvalid, answerError_eq h]
  rfl

/-- What the branch for a valid file sends is a response with `body`, if the buffer holds that. -/
theorem answer_file {body : List UInt8} (h : l.Prints []) (hvalid : l.valid.value = true)
    (hbody : l.file_buf.value.take file.st_size = body) (hlength : body.length = file.st_size) :
    answer file l = some ((Response.file body).render,
      l.valid.noteRead .valid ++ l.file_buf.noteRead .file_buf) := by
  rw [answer, hvalid, answerFile_eq h, hbody, ← hlength]
  rfl

theorem serve_of_answer {sent : List UInt8} {reads : List Variable}
    (hstat : file.stat = some mode) (hl : examine file mode (.declared g) = .ok l)
    (h : answer file l = some (sent, reads)) :
    serve file g = .ok (cleanUp l [sent] reads) := by
  simp only [serve, hstat, hl, h]

/-- Behind tests that leave `valid` false, whoever wrote it, the error is sent. -/
theorem serve_error (hstat : file.stat = some mode)
    (hl : examine file mode (.declared g) = .ok l) (hvalid : l.valid.value = false) :
    serve file g = .ok (cleanUp l [Response.error.render] (l.valid.noteRead .valid)) :=
  serve_of_answer hstat hl (answer_error file ((prints_declared g).examine hl) hvalid)

/-- If `stat` fails nothing is sent, and `delete[]` is given the undefined pointer. -/
theorem serve_stat_failed (h : file.stat = none) (g : Garbage) :
    serve file g = .ok { sent := [], deleted := g.file_buf, unassigned := [.file_buf] } := by
  rw [serve, h]
  rfl

/-- If there is no memory for the file, nothing is sent either. -/
theorem serve_unallocated (h : file.Readable) (halloc : file.allocates = false) (g : Garbage) :
    serve file g = .error .bad_alloc := by
  obtain ⟨mode, hstat, -⟩ := id h
  simp only [serve, hstat, examine_unallocated h halloc hstat]

/-- A directory, or a file that others may not read: `delete[]` is given the same pointer. -/
theorem serve_refused (hstat : file.stat = some mode) (h : ¬file.Readable) (g : Garbage) :
    serve file g = .ok {
      sent := [Response.error.render], deleted := g.file_buf, unassigned := [.file_buf] } :=
  serve_error hstat (examine_refused h hstat) rfl

/-- A file that cannot be opened or read: the one path that assigns both variables. -/
theorem serve_readFails (h : file.ReadFails) (g : Garbage) :
    serve file g = .ok {
      sent := [Response.error.render], deleted := List.replicate (file.st_size + 1) 0,
      unassigned := [] } := by
  obtain ⟨mode, hstat, -⟩ := h.1.1
  exact serve_error hstat (examine_readFails h hstat) rfl

/-- The response to a file of which `n` bytes were read, as `valid` happens to be. -/
def File.chosen (file : File) (g : Garbage) (n : Nat) : Response :=
  if g.valid then .file (file.content n) else .error

/-- A file that was read, all of it or less: `valid` is tested without a value. -/
theorem serve_read {n : Nat} (h : file.Reads) (hread : file.readResult = some n)
    (g : Garbage) :
    serve file g = .ok {
      sent := [(file.chosen g n).render],
      deleted := overwrite (List.replicate (file.st_size + 1) 0) 0 (file.bytes.take n),
      unassigned := [.valid] } := by
  obtain ⟨mode, hstat, -⟩ := id h.1
  have hleft := examine_read (l := .declared g) h hread hstat
  have hn := file.readResult_le hread
  cases hg : g.valid with
  | false =>
      rw [serve_error hstat hleft hg, File.chosen, hg]
      rfl
  | true =>
      have hanswer := answer_file ((prints_declared g).examine hleft) hg (overwrite_take hn)
        (file.content_length hn)
      rw [serve_of_answer hstat hleft hanswer, File.chosen, hg]
      rfl

/-! ## When the answer is right -/

/-- The ways a run can go. -/
theorem File.ways (file : File) :
    file.stat = none ∨ (∃ mode, file.stat = some mode ∧ ¬file.Readable) ∨
      (file.Readable ∧ file.allocates = false) ∨ file.ReadFails ∨
      ∃ n, file.Reads ∧ file.readResult = some n := by
  cases hstat : file.stat with
  | none => exact .inl rfl
  | some mode =>
      by_cases h : file.Readable
      · cases halloc : file.allocates with
        | false => exact .inr (.inr (.inl ⟨h, rfl⟩))
        | true =>
            cases hread : file.readResult with
            | none => exact .inr (.inr (.inr (.inl ⟨⟨h, halloc⟩, hread⟩)))
            | some n => exact .inr (.inr (.inr (.inr ⟨n, ⟨h, halloc⟩, rfl⟩)))
      · exact .inr (.inl ⟨mode, rfl, h⟩)

theorem File.not_readable (h : file.stat = none) : ¬file.Readable := by
  rintro ⟨mode, hstat, -⟩
  simp [h] at hstat

theorem File.ReadFails.not_served (h : file.ReadFails) : ¬file.Served := by
  intro hserved
  simpa [h.2] using hserved.2

/-- No variable is read without a value exactly when the memory is missing or the read fails. -/
theorem unassigned_iff (file : File) (g : Garbage) :
    (∀ o, serve file g = .ok o → o.unassigned = []) ↔
      (file.Readable ∧ file.allocates = false) ∨ file.ReadFails := by
  have hway {o : Outcome} (ho : serve file g = .ok o) :
      (∀ o, serve file g = .ok o → o.unassigned = []) ↔ o.unassigned = [] := by
    refine ⟨fun h => h o ho, fun h o' ho' => ?_⟩
    obtain rfl := Except.ok.inj (ho.symm.trans ho')
    exact h
  rcases file.ways with h | ⟨mode, hstat, h⟩ | ⟨h, halloc⟩ | h | ⟨n, h, hread⟩
  · rw [hway (serve_stat_failed h g)]
    simp [File.ReadFails, File.Reads, File.not_readable h]
  · rw [hway (serve_refused hstat h g)]
    simp [File.ReadFails, File.Reads, h]
  · simp [serve_unallocated h halloc, h, halloc]
  · simp [hway (serve_readFails h g), h]
  · rw [hway (serve_read h hread g)]
    simp [File.ReadFails, hread, h.2]

/-- These reads matter: the outcome does not depend on what the two variables held before
exactly when neither is read without a value. -/
theorem serve_same_iff (file : File) :
    (∀ g g', serve file g = serve file g') ↔
      (file.Readable ∧ file.allocates = false) ∨ file.ReadFails := by
  constructor
  · intro h
    have hsame := h ⟨true, []⟩ ⟨false, [0]⟩
    rcases file.ways with hstat | ⟨mode, hstat, hnot⟩ | hnone | hfails | ⟨n, hread, hn⟩
    · rw [serve_stat_failed hstat, serve_stat_failed hstat] at hsame
      simp at hsame
    · rw [serve_refused hstat hnot, serve_refused hstat hnot] at hsame
      simp at hsame
    · exact .inl hnone
    · exact .inr hfails
    · rw [serve_read hread hn, serve_read hread hn] at hsame
      have hrender : (file.chosen ⟨true, []⟩ n).render = (file.chosen ⟨false, [0]⟩ n).render := by
        simpa using hsame
      simpa [File.chosen] using Response.render_injective hrender
  · rintro (⟨h, halloc⟩ | h) g g'
    · rw [serve_unallocated h halloc, serve_unallocated h halloc]
    · rw [serve_readFails h g, serve_readFails h g']

/-- The run sends the response that is due, once. -/
def SendsDue (file : File) (g : Garbage) : Prop :=
  ∃ o r, serve file g = .ok o ∧ file.IsDue r ∧ o.sent = [r.render]

theorem sendsDue_iff {o : Outcome} {r : Response} (h : serve file g = .ok o)
    (hsent : o.sent = [r.render]) : SendsDue file g ↔ file.IsDue r := by
  constructor
  · rintro ⟨o', r', h', hdue, hsent'⟩
    obtain rfl := Except.ok.inj (h.symm.trans h')
    have hrender : r'.render = r.render := by simpa using hsent'.symm.trans hsent
    rwa [← Response.render_injective hrender]
  · exact fun hdue => ⟨o, r, h, hdue, hsent⟩

theorem File.isDue_error (file : File) (h : ¬file.Served) : file.IsDue .error := .inr ⟨h, rfl⟩

/-- After a read that succeeds, the response chosen is due when `valid` happens to say whether
all of the file was read. -/
theorem File.isDue_chosen {n : Nat} (h : file.Reads) (hread : file.readResult = some n)
    (g : Garbage) : file.IsDue (file.chosen g n) ↔ (g.valid = true ↔ n = file.st_size) := by
  have hserved : file.Served ↔ n = file.st_size := by simp [Served, h, hread]
  cases hg : g.valid with
  | false => simp [IsDue, chosen, hg, hserved]
  | true =>
      simp only [IsDue, chosen, hg, hserved, if_true, true_iff, Response.file.injEq, reduceCtorEq,
        and_false, or_false, and_iff_left_iff_imp]
      rintro rfl
      exact file.content_st_size

/-- The response by itself is the one that is due exactly when `stat` succeeds, there is memory
for a file that is to be read, and `valid`, if a read left it without a value, happens to say
whether all of the file was read. -/
theorem sendsDue_iff_garbage (file : File) (g : Garbage) :
    SendsDue file g ↔ file.stat ≠ none ∧ (file.Readable → file.allocates = true) ∧
      ∀ n, file.Reads → file.readResult = some n → (g.valid = true ↔ n = file.st_size) := by
  rcases file.ways with hstat | ⟨mode, hstat, h⟩ | ⟨h, halloc⟩ | h | ⟨n, h, hread⟩
  · have hnone : ¬SendsDue file g := by
      rintro ⟨o, r, ho, -, hsent⟩
      obtain rfl := Except.ok.inj ((serve_stat_failed hstat g).symm.trans ho)
      cases hsent
    simp [hnone, hstat]
  · have hdue := file.isDue_error fun hserved => h hserved.1.1
    simp [sendsDue_iff (serve_refused hstat h g) rfl, hdue, hstat, h, File.Reads]
  · have hnone : ¬SendsDue file g := by
      rintro ⟨o, r, ho, -⟩
      cases (serve_unallocated h halloc g).symm.trans ho
    simp [hnone, h, halloc]
  · obtain ⟨mode, hstat, -⟩ := h.1.1
    simp [sendsDue_iff (serve_readFails h g) rfl, file.isDue_error h.not_served, hstat, h.2,
      h.1.2]
  · obtain ⟨mode, hstat, -⟩ := id h.1
    simp [sendsDue_iff (serve_read h hread g) rfl, File.isDue_chosen h hread, hstat, h, h.2, hread]

theorem not_right {o : Outcome} (h : serve file g = .ok o) (hreads : o.unassigned ≠ []) :
    ¬Right file g := by
  rintro ⟨o', r, h', -, -, hnone⟩
  obtain rfl := Except.ok.inj (h.symm.trans h')
  exact hreads hnone

/-- The response is right and no variable is read without a value exactly when the file passes
its tests, there is memory for it, and it cannot be opened or read. -/
theorem responses_right_iff (file : File) (g : Garbage) : Right file g ↔ file.ReadFails := by
  constructor
  · rintro ⟨o, r, ho, -, -, hreads⟩
    refine ((unassigned_iff file g).mp fun o' ho' => ?_).resolve_left ?_
    · obtain rfl := Except.ok.inj (ho.symm.trans ho')
      exact hreads
    · rintro ⟨h, halloc⟩
      cases (serve_unallocated h halloc g).symm.trans ho
  · intro h
    exact ⟨_, .error, serve_readFails h g, file.isDue_error h.not_served, rfl, rfl⟩

/-- A file of two bytes that others may read, and that is read completely. -/
def twoBytes : File where
  bytes := ascii "hi"
  size_lt := by decide
  stat := some 0x81A4
  opens := true
  allocates := true
  read := some 2
  read_le := by decide

/-- The same place, and no file there. -/
def missing : File := { twoBytes with stat := none }

theorem twoBytes_reads : twoBytes.Reads := ⟨⟨0x81A4, rfl, by decide, by decide⟩, rfl⟩

/-- The file that is read completely is answered with an error if `valid` held `false` before,
and a missing file is not answered at all. -/
theorem responses_wrong :
    (twoBytes.Served ∧ ¬Right twoBytes ⟨false, []⟩ ∧
      ∃ o, serve twoBytes ⟨false, []⟩ = .ok o ∧ o.sent = [Response.error.render]) ∧
    (missing.stat = none ∧ ¬Right missing ⟨true, []⟩ ∧
      ∃ o, serve missing ⟨true, []⟩ = .ok o ∧ o.sent = []) := by
  have hread := serve_read twoBytes_reads (n := 2) (by decide) ⟨false, []⟩
  have hmissing := serve_stat_failed (show missing.stat = none from rfl) ⟨true, []⟩
  constructor
  · exact ⟨⟨twoBytes_reads, by decide⟩, not_right hread (by simp), _, hread, rfl⟩
  · exact ⟨rfl, not_right hmissing (by simp), _, hmissing, rfl⟩

end Web

end LinuxWebsocket
