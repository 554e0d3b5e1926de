import Mathlib.Data.List.Basic
import Mathlib.Tactic.Common

/-!
# C strings in memory

The string functions of C over the memory from a pointer on. A result of `none` means
that the function ran past the end of that memory; a position counts from the pointer.
Each function is described on a string in front of the byte it stops at, so that what
lies behind that byte is never looked at.
-/

namespace CString

/-! ## The functions -/

/-- `strspn`: how many bytes at the front are among `accept`. -/
def strspn (accept : List UInt8) : List UInt8 → Option Nat
  | [] => none
  | b :: mem => if b ≠ 0 ∧ b ∈ accept then (strspn accept mem).map (· + 1) else some 0

/-- `strpbrk`: where the first byte among `accept` stands. -/
def strpbrk (accept : List UInt8) : List UInt8 → Option (Option Nat)
  | [] => none
  | b :: mem =>
    if b = 0 then some none
    else if b ∈ accept then some (some 0)
    else (strpbrk accept mem).map (Option.map (· + 1))

/-- `strlen`: where the terminator stands. -/
def strlen : List UInt8 → Option Nat
  | [] => none
  | b :: mem => if b = 0 then some 0 else (strlen mem).map (· + 1)

/-- `strchr`: where the byte `c` first stands; the terminator belongs to the string. -/
def strchr (c : UInt8) : List UInt8 → Option (Option Nat)
  | [] => none
  | b :: mem =>
    if b = c then some (some 0)
    else if b = 0 then some none
    else (strchr c mem).map (Option.map (· + 1))

/-- `tolower` in the C locale. -/
def tolower (b : UInt8) : UInt8 := if 65 ≤ b ∧ b ≤ 90 then b + 32 else b

/-- `strcasecmp` -/
def strcasecmp : List UInt8 → List UInt8 → Option Int
  | a :: mem, b :: mem' =>
    if tolower a = tolower b ∧ a ≠ 0 then strcasecmp mem mem'
    else some ((tolower a).toNat - (tolower b).toNat)
  | _, _ => none

/-- `strncasecmp` -/
def strncasecmp : List UInt8 → List UInt8 → Nat → Option Int
  | _, _, 0 => some 0
  | a :: mem, b :: mem', n + 1 =>
    if tolower a = tolower b ∧ a ≠ 0 then strncasecmp mem mem' n
    else some ((tolower a).toNat - (tolower b).toNat)
  | _, _, _ + 1 => none

/-- Bytes written into a buffer from `offset` on. -/
def overwrite (buf : List UInt8) (offset : Nat) (bytes : List UInt8) : List UInt8 :=
  buf.take offset ++ bytes ++ buf.drop (offset + bytes.length)

/-- `snprintf(buf + offset, size, …)` of a formatted text: the buffer behind it, and the length
that it returns. At most `size - 1` bytes of the text are written, and a terminator. -/
def snprintf (buf : List UInt8) (offset size : Nat) (text : List UInt8) : List UInt8 × Nat :=
  match size with
  | 0 => (buf, text.length)
  | size + 1 => (overwrite buf offset (text.take size ++ [0]), text.length)

/-! ## What they find -/

/-- Two strings of bytes that differ in the case of letters at most. -/
def CaseEq (s t : List UInt8) : Prop := s.map tolower = t.map tolower

instance (s t : List UInt8) : Decidable (CaseEq s t) :=
  inferInstanceAs (Decidable (_ = _))

variable {accept s t mem mem' : List UInt8} {b c : UInt8}

theorem strspn_eq (hs : ∀ a ∈ s, a ∈ accept) (h0 : 0 ∉ accept) (hb : b ∉ accept) :
    strspn accept (s ++ b :: mem) = some s.length := by
  induction s with
  | nil => simp [strspn, hb]
  | cons a s ih =>
      obtain ⟨ha, hs⟩ := List.forall_mem_cons.mp hs
      have ha0 : a ≠ 0 := fun h => h0 (h ▸ ha)
      simp [strspn, ha, ha0, ih hs]

theorem strpbrk_eq_some (hs : ∀ a ∈ s, a ∉ accept) (h0 : 0 ∉ s) (hb : b ∈ accept) (hb0 : b ≠ 0) :
    strpbrk accept (s ++ b :: mem) = some (some s.length) := by
  induction s with
  | nil => simp [strpbrk, hb, hb0]
  | cons a s ih =>
      obtain ⟨ha, hs⟩ := List.forall_mem_cons.mp hs
      obtain ⟨ha0, h0⟩ := List.ne_and_not_mem_of_not_mem_cons h0
      simp [strpbrk, ha, Ne.symm ha0, ih hs h0]

theorem strpbrk_eq_none (hs : ∀ a ∈ s, a ∉ accept) (h0 : 0 ∉ s) :
    strpbrk accept (s ++ 0 :: mem) = some none := by
  induction s with
  | nil => simp [strpbrk]
  | cons a s ih =>
      obtain ⟨ha, hs⟩ := List.forall_mem_cons.mp hs
      obtain ⟨ha0, h0⟩ := List.ne_and_not_mem_of_not_mem_cons h0
      simp [strpbrk, ha, Ne.symm ha0, ih hs h0]

theorem strchr_eq_some (hs : c ∉ s) (h0 : 0 ∉ s) :
    strchr c (s ++ c :: mem) = some (some s.length) := by
  induction s with
  | nil => simp [strchr]
  | cons a s ih =>
      obtain ⟨ha, hs⟩ := List.ne_and_not_mem_of_not_mem_cons hs
      obtain ⟨ha0, h0⟩ := List.ne_and_not_mem_of_not_mem_cons h0
      simp [strchr, Ne.symm ha, Ne.symm ha0, ih hs h0]

theorem strchr_eq_none (hs : c ∉ s) (h0 : 0 ∉ s) (hc : c ≠ 0) :
    strchr c (s ++ 0 :: mem) = some none := by
  induction s with
  | nil => simp [strchr, Ne.symm hc]
  | cons a s ih =>
      obtain ⟨ha, hs⟩ := List.ne_and_not_mem_of_not_mem_cons hs
      obtain ⟨ha0, h0⟩ := List.ne_and_not_mem_of_not_mem_cons h0
      simp [strchr, Ne.symm ha, Ne.symm ha0, ih hs h0]

/-- What stands in front of the first place of a byte. -/
theorem takeWhile_first {front tail : List UInt8} (h : b ∉ front) :
    (front ++ b :: tail).takeWhile (· ≠ b) = front := by
  have hfront : ∀ a ∈ front, decide (a ≠ b) = true := by
    intro a ha
    exact decide_eq_true fun he => h (he ▸ ha)
  rw [List.takeWhile_append_of_pos hfront]
  simp

theorem tolower_zero : tolower 0 = 0 := by decide

theorem tolower_eq_zero : tolower b = 0 ↔ b = 0 := by
  constructor
  · intro h
    rw [tolower] at h
    split at h
    · next hb =>
        obtain ⟨hlo, hhi⟩ := hb
        exfalso
        have h' := congrArg UInt8.toNat h
        rw [UInt8.le_iff_toNat_le] at hlo hhi
        simp at h' hlo hhi
        omega
    · exact h
  · rintro rfl
    exact tolower_zero

@[simp] theorem caseEq_nil : CaseEq [] [] := rfl

@[simp] theorem not_caseEq_nil_cons : ¬ CaseEq [] (b :: t) := by simp [CaseEq]

@[simp] theorem not_caseEq_cons_nil : ¬ CaseEq (b :: s) [] := by simp [CaseEq]

theorem caseEq_cons : CaseEq (b :: s) (c :: t) ↔ tolower b = tolower c ∧ CaseEq s t := by
  simp [CaseEq]

theorem CaseEq.length_eq (h : CaseEq s t) : s.length = t.length := by
  simpa using congrArg List.length h

theorem tolower_ne (hb : 0 ≠ b) : tolower 0 ≠ tolower b := by
  rw [tolower_zero]
  exact fun h => hb (tolower_eq_zero.mp h.symm).symm

/-- What a comparison returns for the first two bytes that differ in more than case. -/
def difference (a b : UInt8) : Int := (tolower a).toNat - (tolower b).toNat

theorem difference_eq_zero : difference b c = 0 ↔ tolower b = tolower c := by
  rw [difference, ← UInt8.toNat_inj]
  omega

theorem strcasecmp_differ (h : tolower b ≠ tolower c) :
    strcasecmp (b :: mem) (c :: mem') = some (difference b c) := by
  rw [strcasecmp, if_neg fun hbc => h hbc.1, difference]

theorem strcasecmp_agree (h : tolower b = tolower c) (hb : 0 ≠ b) :
    strcasecmp (b :: mem) (c :: mem') = strcasecmp mem mem' := by
  rw [strcasecmp, if_pos ⟨h, hb.symm⟩]

/-- Strings compare as equal exactly when they differ in case at most. -/
theorem strcasecmp_eq (hs : 0 ∉ s) (ht : 0 ∉ t) (mem mem' : List UInt8) :
    ∃ d, strcasecmp (s ++ 0 :: mem) (t ++ 0 :: mem') = some d ∧ (d = 0 ↔ CaseEq s t) := by
  induction s generalizing t with
  | nil =>
      cases t with
      | nil => exact ⟨0, by simp [strcasecmp], by simp⟩
      | cons b t =>
          have hb := tolower_ne (List.ne_of_not_mem_cons ht)
          exact ⟨_, strcasecmp_differ hb, by simp [difference_eq_zero, hb]⟩
  | cons a s ih =>
      obtain ⟨ha, hs⟩ := List.ne_and_not_mem_of_not_mem_cons hs
      cases t with
      | nil =>
          have ha' := (tolower_ne ha).symm
          exact ⟨_, strcasecmp_differ ha', by simp [difference_eq_zero, ha']⟩
      | cons b t =>
          by_cases hab : tolower a = tolower b
          · obtain ⟨d, hd, hiff⟩ := ih hs (List.not_mem_of_not_mem_cons ht)
            exact ⟨d, (strcasecmp_agree hab ha).trans hd, by simp [caseEq_cons, hab, hiff]⟩
          · exact ⟨_, strcasecmp_differ hab, by simp [difference_eq_zero, caseEq_cons, hab]⟩

theorem strncasecmp_differ {n : Nat} (h : tolower b ≠ tolower c) :
    strncasecmp (b :: mem) (c :: mem') (n + 1) = some (difference b c) := by
  rw [strncasecmp, if_neg fun hbc => h hbc.1, difference]

theorem strncasecmp_agree {n : Nat} (h : tolower b = tolower c) (hb : 0 ≠ b) :
    strncasecmp (b :: mem) (c :: mem') (n + 1) = strncasecmp mem mem' n := by
  rw [strncasecmp, if_pos ⟨h, hb.symm⟩]

/-- A string compares as equal to one of `n` bytes on `n` bytes exactly when it begins
with it, up to case. -/
theorem strncasecmp_eq (hs : 0 ∉ s) (ht : 0 ∉ t) (mem mem' : List UInt8) :
    ∃ d, strncasecmp (s ++ 0 :: mem) (t ++ 0 :: mem') t.length = some d ∧
      (d = 0 ↔ CaseEq (s.take t.length) t) := by
  induction t generalizing s with
  | nil => exact ⟨0, by simp [strncasecmp], by simp⟩
  | cons b t ih =>
      obtain ⟨hb, ht⟩ := List.ne_and_not_mem_of_not_mem_cons ht
      cases s with
      | nil =>
          have hb' := tolower_ne hb
          exact ⟨_, strncasecmp_differ hb', by simp [difference_eq_zero, hb']⟩
      | cons a s =>
          obtain ⟨ha, hs⟩ := List.ne_and_not_mem_of_not_mem_cons hs
          by_cases hab : tolower a = tolower b
          · obtain ⟨d, hd, hiff⟩ := ih hs ht
            exact ⟨d, (strncasecmp_agree hab ha).trans hd, by simp [caseEq_cons, hab, hiff]⟩
          · exact ⟨_, strncasecmp_differ hab, by simp [difference_eq_zero, caseEq_cons, hab]⟩

theorem strlen_eq (hs : 0 ∉ s) : strlen (s ++ 0 :: mem) = some s.length := by
  induction s with
  | nil => simp [strlen]
  | cons a s ih =>
      obtain ⟨ha, hs⟩ := List.ne_and_not_mem_of_not_mem_cons hs
      simp [strlen, ha.symm, ih hs]

/-! ## The string that a buffer holds -/

/-- The buffer holds the string `s`: its bytes up to the first terminator. -/
structure Holds (buf s : List UInt8) : Prop where
  no_zero : 0 ∉ s
  front : ∃ mem, buf = s ++ 0 :: mem

section Holds

variable {buf : List UInt8} {size n : Nat}

/-- A buffer of zeros holds the empty string. -/
theorem holds_zeros (hn : 0 < n) : Holds (List.replicate n 0) [] := by
  obtain ⟨n, rfl⟩ := Nat.exists_eq_succ_of_ne_zero (Nat.ne_zero_of_lt hn)
  exact ⟨List.not_mem_nil, List.replicate n 0, List.replicate_succ⟩

theorem Holds.strlen_eq (h : Holds buf s) : strlen buf = some s.length := by
  obtain ⟨mem, rfl⟩ := h.front
  exact CString.strlen_eq h.no_zero

theorem Holds.take_length (h : Holds buf s) : buf.take s.length = s := by
  obtain ⟨mem, rfl⟩ := h.front
  exact List.take_left

@[simp] theorem snprintf_length (buf : List UInt8) (offset size : Nat) (text : List UInt8) :
    (CString.snprintf buf offset size text).2 = text.length := by
  cases size <;> rfl

/-- A text that fits, printed where the string ends, is appended to it. -/
theorem Holds.snprintf (h : Holds buf s) (ht : 0 ∉ t) (hsize : t.length < size)
    (hbuf : s.length + t.length < buf.length) :
    Holds (snprintf buf s.length size t).1 (s ++ t) ∧
      (snprintf buf s.length size t).1.length = buf.length := by
  obtain ⟨size, rfl⟩ := Nat.exists_eq_succ_of_ne_zero (Nat.ne_zero_of_lt hsize)
  have hprinted : (CString.snprintf buf s.length (size + 1) t).1 =
      s ++ t ++ 0 :: buf.drop (s.length + (t.length + 1)) := by
    simp [CString.snprintf, overwrite, h.take_length, List.take_of_length_le
      (Nat.lt_succ_iff.mp hsize)]
  refine ⟨⟨by simp [h.no_zero, ht], _, hprinted⟩, ?_⟩
  rw [hprinted]
  simp only [List.length_append, List.length_cons, List.length_drop]
  omega

end Holds

end CString
