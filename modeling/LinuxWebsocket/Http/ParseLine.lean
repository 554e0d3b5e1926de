import LinuxWebsocket.Memory
import Mathlib.Data.List.Basic
import Mathlib.Tactic.Common

/-!
# The line parser

`parse_line` over the bytes read so far. The buffer of the model ends at
`read_index`, so that every access outside `[0, read_index)` is a fault. The branch
behind `temp == '\n'` is a parameter of the scan: the program's own branch and the one
that rejects at once are two values of it. From a place that is not behind a CR the scan
comes to rest at the first CR or LF, and what it finds there decides the call.
-/

namespace LinuxWebsocket

namespace Http

/-- `enum LINE_STATUS` -/
inductive LineStatus
  | lineOk
  | lineBad
  | lineOpen
  deriving DecidableEq, Repr

/-- `'\r'` -/
def cr : UInt8 := 13

/-- `'\n'` -/
def lf : UInt8 := 10

theorem lf_ne_cr : lf ≠ cr := by decide

/-- What a call returns and leaves behind. -/
structure Scanned where
  status : LineStatus
  buffer : List UInt8
  checkedIndex : Nat
  deriving DecidableEq, Repr

/-- `buffer[i]` read. -/
def readByte (buffer : List UInt8) (i : Nat) : Except Fault UInt8 :=
  match buffer[i]? with
  | some b => .ok b
  | none => .error .outOfRange

/-- `buffer[i] = b` -/
def writeByte (buffer : List UInt8) (i : Nat) (b : UInt8) : Except Fault (List UInt8) :=
  if i < buffer.length then .ok (buffer.set i b) else .error .outOfRange

/-- The statements that end a line at a LF behind a CR. -/
def acceptNewline (buffer : List UInt8) (checkedIndex : Nat) : Except Fault Scanned := do
  let buffer ← writeByte buffer (checkedIndex - 1) 0
  let buffer ← writeByte buffer checkedIndex 0
  .ok ⟨.lineOk, buffer, checkedIndex + 1⟩

/-- The branch behind `temp == '\n'`, with the statements under its inner `if`. -/
def newlineBranch (accept : List UInt8 → Nat → Except Fault Scanned)
    (buffer : List UInt8) (checkedIndex : Nat) : Except Fault Scanned :=
  if checkedIndex > 1 then do
    let before ← readByte buffer (checkedIndex - 1)
    if before = cr then accept buffer checkedIndex
    else .ok ⟨.lineBad, buffer, checkedIndex⟩
  else .ok ⟨.lineBad, buffer, checkedIndex⟩

/-- The `for` loop of `parse_line`, at most `rounds` times round. -/
def scanFrom (newline : List UInt8 → Nat → Except Fault Scanned) (readIndex : Nat) :
    Nat → List UInt8 → Nat → Except Fault Scanned
  | 0, _, _ => .error .diverges
  | rounds + 1, buffer, checkedIndex =>
    if checkedIndex < readIndex then do
      let temp ← readByte buffer checkedIndex
      if temp = cr then
        if checkedIndex + 1 = readIndex then .ok ⟨.lineOpen, buffer, checkedIndex⟩
        else do
          let after ← readByte buffer (checkedIndex + 1)
          if after = lf then do
            let buffer ← writeByte buffer checkedIndex 0
            let buffer ← writeByte buffer (checkedIndex + 1) 0
            .ok ⟨.lineOk, buffer, checkedIndex + 2⟩
          else .ok ⟨.lineBad, buffer, checkedIndex⟩
      else if temp = lf then newline buffer checkedIndex
      else scanFrom newline readIndex rounds buffer (checkedIndex + 1)
    else .ok ⟨.lineOpen, buffer, checkedIndex⟩

/-- A `parse_line` whose branch behind `temp == '\n'` is `newline`. -/
def parseLineWith (newline : List UInt8 → Nat → Except Fault Scanned)
    (buffer : List UInt8) (checkedIndex readIndex : Nat) : Except Fault Scanned :=
  scanFrom newline readIndex (readIndex - checkedIndex + 1) buffer checkedIndex

/-- `parse_line` -/
def parseLine : List UInt8 → Nat → Nat → Except Fault Scanned :=
  parseLineWith (newlineBranch acceptNewline)

/-- The branch that returns `LINE_BAD` at once. -/
def rejectNewline (buffer : List UInt8) (checkedIndex : Nat) : Except Fault Scanned :=
  .ok ⟨.lineBad, buffer, checkedIndex⟩

/-- The `parse_line` in which every `'\n'` met by the scan returns `LINE_BAD`. -/
def parseLineStrict : List UInt8 → Nat → Nat → Except Fault Scanned :=
  parseLineWith rejectNewline

/-! ## Bytes in front of a place and from it on -/

section Access

variable {front rest : List UInt8} {b c : UInt8} {i : Nat}

@[simp] theorem readByte_at (h : front.length = i) :
    readByte (front ++ b :: rest) i = .ok b := by
  subst h
  simp [readByte]

@[simp] theorem readByte_succ (h : front.length = i) :
    readByte (front ++ b :: c :: rest) (i + 1) = .ok c := by
  subst h
  simp [readByte]

@[simp] theorem writeByte_at (h : front.length = i) :
    writeByte (front ++ b :: rest) i c = .ok (front ++ c :: rest) := by
  subst h
  simp [writeByte]

@[simp] theorem writeByte_succ {d : UInt8} (h : front.length = i) :
    writeByte (front ++ b :: c :: rest) (i + 1) d = .ok (front ++ b :: d :: rest) := by
  subst h
  simp [writeByte]

theorem readByte_of_some {buffer : List UInt8} (h : buffer[i]? = some b) :
    readByte buffer i = .ok b := by
  rw [readByte, h]

/-- A stretch of bytes of one kind is determined by the byte of another kind behind it. -/
theorem stretch_unique {p : UInt8 → Prop} {front' rest' : List UInt8} (h : ∀ a ∈ front, p a)
    (h' : ∀ a ∈ front', p a) (hb : ¬ p b) (hc : ¬ p c)
    (he : front ++ b :: rest = front' ++ c :: rest') : front = front' ∧ b = c ∧ rest = rest' := by
  induction front generalizing front' with
  | nil =>
      cases front' with
      | nil => simpa using he
      | cons d front' =>
          obtain rfl := (List.cons.inj he).1
          exact absurd (h' b List.mem_cons_self) hb
  | cons a front ih =>
      cases front' with
      | nil =>
          obtain rfl := (List.cons.inj he).1
          exact absurd (h a List.mem_cons_self) hc
      | cons d front' =>
          obtain ⟨rfl, htail⟩ := List.cons.inj he
          obtain ⟨rfl, hr⟩ := ih (List.forall_mem_cons.mp h).2 (List.forall_mem_cons.mp h').2 htail
          exact ⟨rfl, hr⟩

/-- The first place of a byte is determined. -/
theorem first_unique {front' rest' : List UInt8} (h : b ∉ front) (h' : b ∉ front')
    (he : front ++ b :: rest = front' ++ b :: rest') : front = front' ∧ rest = rest' := by
  obtain ⟨hfront, -, hrest⟩ := stretch_unique (p := (· ≠ b)) (fun a ha hab => h (hab ▸ ha))
    (fun a ha hab => h' (hab ▸ ha)) (by simp) (by simp) he
  exact ⟨hfront, hrest⟩

end Access

/-! ## Where a call comes to rest -/

/-- A stretch of bytes the scan passes over. -/
def Plain (bytes : List UInt8) : Prop := cr ∉ bytes ∧ lf ∉ bytes

@[simp] theorem plain_nil : Plain [] := by simp [Plain]

@[simp] theorem plain_cons {b : UInt8} {bytes : List UInt8} :
    Plain (b :: bytes) ↔ (b ≠ cr ∧ b ≠ lf) ∧ Plain bytes := by
  simp only [Plain, List.mem_cons, not_or, ne_eq, eq_comm (a := b)]
  tauto

theorem Plain.append {xs ys : List UInt8} (hx : Plain xs) (hy : Plain ys) : Plain (xs ++ ys) := by
  simp only [Plain, List.mem_append, not_or]
  exact ⟨⟨hx.1, hy.1⟩, hx.2, hy.2⟩

/-- The bytes a scan comes to rest at, and the status it then returns. -/
inductive Rest : List UInt8 → LineStatus → Prop
  | drained : Rest [] .lineOpen
  | half : Rest [cr] .lineOpen
  | pair (tail : List UInt8) : Rest (cr :: lf :: tail) .lineOk
  | loneCr (b : UInt8) (tail : List UInt8) (h : b ≠ lf) : Rest (cr :: b :: tail) .lineBad
  | loneLf (tail : List UInt8) : Rest (lf :: tail) .lineBad

/-- Every stretch of bytes is passed over up to a place of rest. -/
theorem exists_rest (bytes : List UInt8) :
    ∃ mid rest status, bytes = mid ++ rest ∧ Plain mid ∧ Rest rest status := by
  induction bytes with
  | nil => exact ⟨[], [], _, rfl, plain_nil, .drained⟩
  | cons b bytes ih =>
      by_cases hcr : b = cr
      · subst hcr
        cases bytes with
        | nil => exact ⟨[], _, _, rfl, plain_nil, .half⟩
        | cons c tail =>
            by_cases hlf : c = lf
            · subst hlf
              exact ⟨[], _, _, rfl, plain_nil, .pair tail⟩
            · exact ⟨[], _, _, rfl, plain_nil, .loneCr c tail hlf⟩
      · by_cases hlf : b = lf
        · subst hlf
          exact ⟨[], _, _, rfl, plain_nil, .loneLf bytes⟩
        · obtain ⟨mid, rest, status, rfl, hm, hr⟩ := ih
          exact ⟨b :: mid, rest, status, rfl, plain_cons.mpr ⟨⟨hcr, hlf⟩, hm⟩, hr⟩

/-- The bytes at the place of rest after the call. -/
def settle : LineStatus → List UInt8 → List UInt8
  | .lineOk, _ :: _ :: tail => 0 :: 0 :: tail
  | _, rest => rest

/-- How far the call moves on from the place of rest. -/
def passed : LineStatus → Nat
  | .lineOk => 2
  | _ => 0

/-- A call that ends no line changes no byte. -/
theorem settle_of_ne {status : LineStatus} (h : status ≠ .lineOk) (rest : List UInt8) :
    settle status rest = rest := by
  cases status with
  | lineOk => exact absurd rfl h
  | lineBad => rfl
  | lineOpen => rfl

theorem passed_of_ne {status : LineStatus} (h : status ≠ .lineOk) : passed status = 0 := by
  cases status with
  | lineOk => exact absurd rfl h
  | lineBad => rfl
  | lineOpen => rfl

/-- A place from which the scan can go on: no CR stands just before it. -/
def Resumes (front : List UInt8) : Prop := front.getLast? ≠ some cr

theorem Resumes.append {front mid : List UInt8} (hf : Resumes front) (hm : Plain mid) :
    Resumes (front ++ mid) := by
  rcases mid.eq_nil_or_concat with rfl | ⟨init, b, rfl⟩
  · simpa using hf
  · intro h
    apply hm.1
    have hb : b = cr := by simpa using h
    simp [hb]

/-- The inner `if` behind `temp == '\n'` fails where no CR stands just before. -/
theorem newlineBranch_bad (accept : List UInt8 → Nat → Except Fault Scanned)
    {front : List UInt8} (h : Resumes front) (tail : List UInt8) :
    newlineBranch accept (front ++ tail) front.length =
      rejectNewline (front ++ tail) front.length := by
  rw [newlineBranch]
  by_cases hi : front.length > 1
  · rcases front.eq_nil_or_concat with rfl | ⟨init, b, rfl⟩
    · simp at hi
    · have hb : b ≠ cr := by simpa [Resumes] using h
      simp [List.append_assoc, hb, rejectNewline]
  · rw [if_neg hi, rejectNewline]

section Scan

variable {newline : List UInt8 → Nat → Except Fault Scanned}

private theorem scanFrom_rest (hnew : ∀ front tail, Resumes front →
      newline (front ++ tail) front.length = rejectNewline (front ++ tail) front.length)
    {front rest : List UInt8} {status : LineStatus} (hf : Resumes front) (hr : Rest rest status)
    (behind : List UInt8) (rounds : Nat) :
    scanFrom newline (front.length + rest.length) (rounds + 1) (front ++ (rest ++ behind))
        front.length =
      .ok ⟨status, front ++ (settle status rest ++ behind), front.length + passed status⟩ := by
  cases hr with
  | drained => simp [scanFrom, settle, passed]
  | half => simp [scanFrom, settle, passed]
  | pair tail => simp [scanFrom, settle, passed]
  | loneCr b tail hb => simp [scanFrom, settle, passed, hb]
  | loneLf tail => simp [scanFrom, settle, passed, hnew _ _ hf, lf_ne_cr, rejectNewline]

private theorem scanFrom_plain {buffer : List UInt8} {readIndex n : Nat} (rounds : Nat)
    {i : Nat} (hread : i + n ≤ readIndex)
    (hplain : ∀ k, k < n → ∃ b, buffer[i + k]? = some b ∧ b ≠ cr ∧ b ≠ lf) :
    scanFrom newline readIndex (n + rounds) buffer i =
      scanFrom newline readIndex rounds buffer (i + n) := by
  induction n generalizing i with
  | zero => simp
  | succ n ih =>
      obtain ⟨b, hb, hcr, hlf⟩ := hplain 0 (Nat.succ_pos n)
      have hround : scanFrom newline readIndex (n + rounds + 1) buffer i =
          scanFrom newline readIndex (n + rounds) buffer (i + 1) := by
        rw [Nat.add_zero] at hb
        rw [scanFrom, if_pos (by omega), readByte_of_some hb, ok_bind, if_neg hcr, if_neg hlf]
      rw [show n + 1 + rounds = n + rounds + 1 by omega, hround, ih (by omega),
        show i + 1 + n = i + (n + 1) by omega]
      intro k hk
      obtain ⟨c, hc⟩ := hplain (k + 1) (by omega)
      exact ⟨c, by rwa [show i + 1 + k = i + (k + 1) by omega]⟩

private theorem plain_bytes {front mid rest : List UInt8} (hm : Plain mid) (k : Nat)
    (hk : k < mid.length) :
    ∃ b, (front ++ (mid ++ rest))[front.length + k]? = some b ∧ b ≠ cr ∧ b ≠ lf := by
  have hb : mid[k] ∈ mid := List.getElem_mem hk
  refine ⟨mid[k], ?_, fun h => hm.1 (h ▸ hb), fun h => hm.2 (h ▸ hb)⟩
  rw [List.getElem?_append_right (Nat.le_add_right ..), Nat.add_sub_cancel_left,
    List.getElem?_append_left hk, List.getElem?_eq_getElem hk]

/-- One call, from a place that is not behind a CR: it passes over plain bytes, and what
stands behind them decides. The `newline` branch is only entered at such a place, and what
lies behind `readIndex` is neither read nor changed. -/
theorem parseLineWith_spec (hnew : ∀ front tail, Resumes front →
      newline (front ++ tail) front.length = rejectNewline (front ++ tail) front.length)
    {front mid rest : List UInt8} {status : LineStatus} (hf : Resumes front)
    (hm : Plain mid) (hr : Rest rest status) (behind : List UInt8) :
    parseLineWith newline (front ++ (mid ++ rest) ++ behind) front.length
        (front ++ (mid ++ rest)).length =
      .ok ⟨status, front ++ (mid ++ settle status rest) ++ behind,
        front.length + mid.length + passed status⟩ := by
  have hrest := scanFrom_rest hnew (hf.append hm) hr behind rest.length
  have hrounds : (front ++ (mid ++ rest)).length - front.length + 1 =
      mid.length + (rest.length + 1) := by
    simp only [List.length_append]
    omega
  rw [parseLineWith, hrounds, List.append_assoc, List.append_assoc mid,
    scanFrom_plain (rest.length + 1) (by simp) (plain_bytes hm)]
  simpa only [List.length_append, List.append_assoc, Nat.add_assoc] using hrest

end Scan

/-- One call of `parse_line`. -/
theorem parseLine_spec {front mid rest : List UInt8} {status : LineStatus} (hf : Resumes front)
    (hm : Plain mid) (hr : Rest rest status) (behind : List UInt8) :
    parseLine (front ++ (mid ++ rest) ++ behind) front.length (front ++ (mid ++ rest)).length =
      .ok ⟨status, front ++ (mid ++ settle status rest) ++ behind,
        front.length + mid.length + passed status⟩ :=
  parseLineWith_spec (fun _ tail h => newlineBranch_bad acceptNewline h tail) hf hm hr behind

/-- From a place that is not behind a CR the inner `if` behind `temp == '\n'` is never
entered: what stands there does not matter, and the outer branch may as well reject. -/
theorem parseLineWith_newlineBranch (accept : List UInt8 → Nat → Except Fault Scanned)
    {front : List UInt8} (hf : Resumes front) (bytes behind : List UInt8) :
    parseLineWith (newlineBranch accept) (front ++ bytes ++ behind) front.length
        (front ++ bytes).length =
      parseLineStrict (front ++ bytes ++ behind) front.length (front ++ bytes).length := by
  obtain ⟨mid, rest, status, rfl, hm, hr⟩ := exists_rest bytes
  rw [parseLineWith_spec (fun _ tail h => newlineBranch_bad accept h tail) hf hm hr behind,
    parseLineStrict, parseLineWith_spec (fun _ _ _ => rfl) hf hm hr behind]

end Http

end LinuxWebsocket
