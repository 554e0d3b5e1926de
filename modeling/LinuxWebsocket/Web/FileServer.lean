import Mathlib.Data.Nat.Digits.Defs
import LinuxWebsocket.Lib.CString

/-!
# Serving one file

`webServer6_2` takes one connection and answers it with a file: it asks for the attributes
of the file, reads the file into a buffer if others may read it, and sends a header and the
content, or a report of failure. Of `main` this is what follows a successful `accept`, cut
where its branches meet. A variable that is declared without a value holds whatever was
there before, and every read of one that was never assigned is put on record.
-/

namespace LinuxWebsocket

namespace Web

open CString

/-! ## The texts of the header -/

/-- `BUFFER_SIZE` -/
def BUFFER_SIZE : Nat := 1024

/-- The bytes of a text. -/
def ascii (s : String) : List UInt8 := s.toList.map fun c => c.toNat.toUInt8

/-- What `%ld` prints for a size. -/
def decimal (n : Nat) : List UInt8 := ascii n.repr

/-- `status_line` -/
def status_line : Bool → List UInt8
  | false => ascii "500 Internal server error"
  | true => ascii "200 OK"

/-- `"%s %s\r\n"` of the protocol and a status line. -/
def statusText (status : List UInt8) : List UInt8 :=
  ascii "HTTP/1.1" ++ ascii " " ++ status ++ ascii "\r\n"

/-- `"Content-Length: %ld\r\n"` -/
def lengthText (n : Nat) : List UInt8 := ascii "Content-Length: " ++ decimal n ++ ascii "\r\n"

/-! ## The target file -/

/-- `S_IFMT` -/
def S_IFMT : UInt32 := 0xF000

/-- `S_IFDIR` -/
def S_IFDIR : UInt32 := 0x4000

/-- `S_IROTH` -/
def S_IROTH : UInt32 := 4

/-- `S_ISDIR` -/
def S_ISDIR (mode : UInt32) : Bool := mode &&& S_IFMT == S_IFDIR

/-- The target file, and how the calls on it turn out. -/
structure File where
  bytes : List UInt8
  /-- `st_size + 1`, the size of the buffer, is within `off_t`. -/
  size_lt : bytes.length + 1 < 2 ^ 63
  /-- The `st_mode` that `stat` reports, unless it fails. -/
  stat : Option UInt32
  opens : Bool
  /-- `new char[file_stat.st_size+1]` finds the memory. -/
  allocates : Bool
  /-- What `read` returns for an open descriptor and all of the file, unless it fails. -/
  read : Option Nat
  read_le : ∀ n ∈ read, n ≤ bytes.length

/-- `file_stat.st_size` -/
def File.st_size (file : File) : Nat := file.bytes.length

/-- What the `read` of `main` returns: it fails on the descriptor `-1` of a failed `open`. -/
def File.readResult (file : File) : Option Nat := if file.opens then file.read else none

/-! ## The variables of `main` -/

/-- A variable, and whether anything was ever assigned to it. -/
structure Cell (α : Type) where
  value : α
  assigned : Bool

/-- A variable after an assignment. -/
def Cell.assign {α : Type} (a : α) : Cell α := ⟨a, true⟩

/-- A variable as it is declared, with what its place held before. -/
def Cell.declare {α : Type} (old : α) : Cell α := ⟨old, false⟩

/-- The variables that `main` declares without a value. -/
inductive Variable
  | valid
  | file_buf
deriving DecidableEq

/-- The record that a read of a variable leaves. -/
def Cell.noteRead {α : Type} (c : Cell α) (x : Variable) : List Variable :=
  if c.assigned then [] else [x]

/-- What the two places held before: a truth value, and the memory that the pointer leads to. -/
structure Garbage where
  valid : Bool
  file_buf : List UInt8

/-- The variables that the answer depends on. -/
structure Locals where
  valid : Cell Bool
  file_buf : Cell (List UInt8)
  header_buf : List UInt8
  len : Nat

/-- The variables once `header_buf` is cleared. -/
def Locals.declared (g : Garbage) : Locals where
  valid := .declare g.valid
  file_buf := .declare g.file_buf
  header_buf := List.replicate BUFFER_SIZE 0
  len := 0

/-- What a run leaves behind: the sends on the connection, what `delete[]` was given, and the
variables that were read although nothing was ever assigned to them. -/
structure Outcome where
  sent : List (List UInt8)
  deleted : List UInt8
  unassigned : List Variable
deriving DecidableEq

/-- What ends the program early, with nothing sent. -/
inductive Fault
  /-- `new` throws, and nobody catches it. -/
  | bad_alloc
  /-- `strlen` runs past `header_buf`. -/
  | header_buf
deriving DecidableEq

/-! ## The program -/

/-- The tests of the file behind a successful `stat`, up to its `read`. The memory is asked for
whether or not the file could be opened. -/
def examine (file : File) (mode : UInt32) (l : Locals) : Except Fault Locals :=
  if S_ISDIR mode then .ok { l with valid := .assign false }
  else if mode &&& S_IROTH ≠ 0 then
    if file.allocates then
      let buf := List.replicate (file.st_size + 1) 0
      match file.readResult with
      | none => .ok { l with valid := .assign false, file_buf := .assign buf }
      | some n => .ok { l with file_buf := .assign (overwrite buf 0 (file.bytes.take n)) }
    else .error .bad_alloc
  else .ok { l with valid := .assign false }

/-- `ret = snprintf(header_buf + len, BUFFER_SIZE-1-len, …)` -/
def Locals.print (l : Locals) (text : List UInt8) : Locals × Nat :=
  let (buf, ret) := snprintf l.header_buf l.len (BUFFER_SIZE - 1 - l.len) text
  ({ l with header_buf := buf }, ret)

/-- The same, and `len += ret`. -/
def Locals.printOn (l : Locals) (text : List UInt8) : Locals :=
  let (l, ret) := l.print text
  { l with len := l.len + ret }

/-- The bytes of `header_buf` up to its `strlen`; nothing if that runs past the buffer. -/
def Locals.header (l : Locals) : Option (List UInt8) :=
  (strlen l.header_buf).map fun n => l.header_buf.take n

/-- The branch for a valid file, up to its `writev`: what is sent. -/
def answerFile (file : File) (l : Locals) : Option (List UInt8) :=
  let l := ((l.printOn (statusText (status_line true))).printOn (lengthText file.st_size))
  let l := (l.print (ascii "\r\n")).1
  l.header.map fun header => header ++ l.file_buf.value.take file.st_size

/-- The other branch, up to its `send`. -/
def answerError (l : Locals) : Option (List UInt8) :=
  let l := (l.printOn (statusText (status_line false)))
  let l := (l.print (ascii "\r\n")).1
  l.header

/-- `if(valid)` with its two branches: what is sent, and the reads on record. -/
def answer (file : File) (l : Locals) : Option (List UInt8 × List Variable) :=
  if l.valid.value then
    (answerFile file l).map fun sent =>
      (sent, l.valid.noteRead .valid ++ l.file_buf.noteRead .file_buf)
  else (answerError l).map fun sent => (sent, l.valid.noteRead .valid)

/-- `delete []file_buf` at the end. -/
def cleanUp (l : Locals) (sent : List (List UInt8)) (unassigned : List Variable) : Outcome where
  sent := sent
  deleted := l.file_buf.value
  unassigned := unassigned ++ l.file_buf.noteRead .file_buf

/-- `main` from the accepted connection on. -/
def serve (file : File) (g : Garbage) : Except Fault Outcome :=
  let l := Locals.declared g
  match file.stat with
  | none => .ok (cleanUp { l with valid := .assign false } [] [])
  | some mode =>
    match examine file mode l with
    | .error e => .error e
    | .ok l =>
      match answer file l with
      | none => .error .header_buf
      | some (sent, unassigned) => .ok (cleanUp l [sent] unassigned)

end Web

end LinuxWebsocket
