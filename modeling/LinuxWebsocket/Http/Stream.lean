import LinuxWebsocket.Http.ParseLine

/-!
# The lines of a stream

What a stream of bytes delimits, said of the stream alone: its malformed places, and the
lines ended by a CR LF pair in front of the first of them. A place where a scan comes to
rest without reporting a line settles both.
-/

namespace LinuxWebsocket

namespace Http

/-- The place `i` of the stream holds a CR followed by another byte than LF, or a LF that
no CR precedes. -/
def MalformedAt (stream : List UInt8) (i : Nat) : Prop :=
  (stream[i]? = some cr ∧ ∃ b, stream[i + 1]? = some b ∧ b ≠ lf) ∨
    (stream[i]? = some lf ∧ ∀ j, i = j + 1 → stream[j]? ≠ some cr)

/-- The stream has a malformed place. -/
def Malformed (stream : List UInt8) : Prop := ∃ i, MalformedAt stream i

/-- The lines, each with its CR LF. -/
def ended (lines : List (List UInt8)) : List UInt8 :=
  lines.flatMap fun line => line ++ [cr, lf]

@[simp] theorem ended_nil : ended [] = [] := rfl

@[simp] theorem ended_cons (line : List UInt8) (lines : List (List UInt8)) :
    ended (line :: lines) = line ++ cr :: lf :: ended lines := by
  simp [ended]

@[simp] theorem ended_append (lines more : List (List UInt8)) :
    ended (lines ++ more) = ended lines ++ ended more := by
  simp [ended]

/-- The stream begins with exactly these lines: a CR LF pair behind them, if there is one,
stands behind a malformed place. -/
structure Delimited (stream : List UInt8) (lines : List (List UInt8)) : Prop where
  begins : ended lines <+: stream
  plain : ∀ line ∈ lines, Plain line
  last : ∀ i, (ended lines).length ≤ i → stream[i]? = some cr → stream[i + 1]? = some lf →
    ∃ j, j < i ∧ MalformedAt stream j

section Streams

variable {stream line mid rest : List UInt8} {lines more : List (List UInt8)}

theorem Plain.not_cr (h : Plain mid) (i : Nat) : mid[i]? ≠ some cr :=
  fun hi => h.1 (List.mem_of_getElem? hi)

theorem Plain.not_lf (h : Plain mid) (i : Nat) : mid[i]? ≠ some lf :=
  fun hi => h.2 (List.mem_of_getElem? hi)

private theorem getElem?_behind (front tail : List UInt8) (k : Nat) :
    (front ++ tail)[front.length + k]? = tail[k]? := by
  rw [List.getElem?_append_right (Nat.le_add_right ..), Nat.add_sub_cancel_left]

/-- No place in a plain stretch is malformed, nor the LF of a pair behind it. -/
theorem Plain.malformedAt_append (hl : Plain line) {i : Nat}
    (h : MalformedAt (line ++ stream) i) : line.length ≤ i := by
  by_contra hi
  rw [Nat.not_le] at hi
  rw [MalformedAt, List.getElem?_append_left hi] at h
  rcases h with ⟨h, -⟩ | ⟨h, -⟩
  · exact hl.not_cr i h
  · exact hl.not_lf i h

/-- Behind a line's CR LF the malformed places are those of the stream from there on. -/
theorem malformedAt_line (hl : Plain line) (i : Nat) :
    MalformedAt (line ++ cr :: lf :: stream) i ↔
      ∃ k, i = line.length + 2 + k ∧ MalformedAt stream k := by
  constructor
  · intro h
    obtain ⟨n, rfl⟩ := Nat.exists_eq_add_of_le (hl.malformedAt_append h)
    simp only [MalformedAt, Nat.add_assoc, getElem?_behind] at h
    match n with
    | 0 => simp [cr, lf] at h
    | 1 =>
        rcases h with ⟨h, -⟩ | ⟨-, h⟩
        · simp [cr, lf] at h
        · simpa using h line.length rfl
    | k + 2 =>
        refine ⟨k, by omega, ?_⟩
        rcases h with h | ⟨h, hbefore⟩
        · left
          simpa using h
        · right
          refine ⟨by simpa using h, fun j hj => ?_⟩
          have hb := hbefore (line.length + (j + 2)) (by omega)
          rw [getElem?_behind] at hb
          simpa using hb
  · rintro ⟨k, rfl, h⟩
    simp only [MalformedAt, Nat.add_assoc, getElem?_behind]
    rcases h with h | ⟨h, hbefore⟩
    · left
      simpa [Nat.add_comm 2, Nat.add_assoc] using h
    · right
      refine ⟨by simpa [Nat.add_comm 2] using h, fun j hj => ?_⟩
      cases k with
      | zero =>
          obtain rfl : j = line.length + 1 := by omega
          simp [cr, lf]
      | succ k =>
          obtain rfl : j = line.length + (k + 2) := by omega
          rw [getElem?_behind]
          simpa using hbefore k rfl

/-- Behind whole lines the malformed places are those of the stream from there on. -/
theorem malformedAt_ended (hl : ∀ line ∈ lines, Plain line) (i : Nat) :
    MalformedAt (ended lines ++ stream) i ↔
      ∃ k, i = (ended lines).length + k ∧ MalformedAt stream k := by
  induction lines generalizing i with
  | nil => simp
  | cons line lines ih =>
      obtain ⟨hline, hl⟩ := List.forall_mem_cons.mp hl
      simp only [ended_cons, List.append_assoc, List.cons_append, malformedAt_line hline, ih hl,
        List.length_append, List.length_cons]
      constructor
      · rintro ⟨_, rfl, k, rfl, h⟩
        exact ⟨k, by omega, h⟩
      · rintro ⟨k, rfl, h⟩
        exact ⟨_, by omega, k, rfl, h⟩

/-- Whole lines hold no malformed place. -/
theorem malformed_ended (hl : ∀ line ∈ lines, Plain line) :
    Malformed (ended lines ++ stream) ↔ Malformed stream := by
  simp only [Malformed, malformedAt_ended hl]
  constructor
  · rintro ⟨_, k, rfl, h⟩
    exact ⟨k, h⟩
  · rintro ⟨k, h⟩
    exact ⟨_, k, rfl, h⟩

/-- A scan that ends in `LINE_BAD` rests at a malformed place. -/
theorem malformedAt_rest (hm : Plain mid) (hr : Rest rest .lineBad) :
    MalformedAt (mid ++ rest) mid.length := by
  cases hr with
  | loneCr b tail hb =>
      refine .inl ⟨by simp, b, ?_, hb⟩
      rw [getElem?_behind]
      rfl
  | loneLf tail =>
      refine .inr ⟨by simp, fun j hj => ?_⟩
      rw [List.getElem?_append_left (by omega)]
      exact hm.not_cr j

/-- A scan that ends in `LINE_OPEN` has met no malformed place. -/
theorem not_malformed_rest (hm : Plain mid) (hr : Rest rest .lineOpen) :
    ¬ Malformed (mid ++ rest) := by
  rintro ⟨i, h⟩
  obtain ⟨n, rfl⟩ := Nat.exists_eq_add_of_le (hm.malformedAt_append h)
  simp only [MalformedAt, Nat.add_assoc, getElem?_behind] at h
  cases hr with
  | drained => simp at h
  | half =>
      cases n with
      | zero => simp [cr, lf] at h
      | succ n => simp at h

/-- A pair behind the place of rest of a scan that reported no line. -/
theorem rest_lt_pair {status : LineStatus} (hm : Plain mid) (hr : Rest rest status)
    (hs : status ≠ .lineOk) {i : Nat} (hcr : (mid ++ rest)[i]? = some cr)
    (hlf : (mid ++ rest)[i + 1]? = some lf) : mid.length < i ∧ status = .lineBad := by
  have hi : mid.length ≤ i := by
    by_contra hi
    rw [List.getElem?_append_left (by omega)] at hcr
    exact hm.not_cr i hcr
  obtain ⟨n, rfl⟩ := Nat.exists_eq_add_of_le hi
  rw [getElem?_behind] at hcr
  rw [Nat.add_assoc, getElem?_behind] at hlf
  cases hr with
  | drained => simp at hcr
  | half => simp at hlf
  | pair tail => exact absurd rfl hs
  | loneCr b tail hb =>
      refine ⟨?_, rfl⟩
      rcases n with _ | n
      · exact absurd (by simpa using hlf) hb
      · omega
  | loneLf tail =>
      refine ⟨?_, rfl⟩
      rcases n with _ | n
      · exact absurd (by simpa using hcr) lf_ne_cr
      · omega

/-- The lines in front of a place of rest where no line ends are those of the stream. -/
theorem delimited_of_rest {status : LineStatus} (hl : ∀ line ∈ lines, Plain line)
    (hm : Plain mid) (hr : Rest rest status) (hs : status ≠ .lineOk) :
    Delimited (ended lines ++ (mid ++ rest)) lines := by
  refine ⟨List.prefix_append .., hl, fun i hi hcr hlf => ?_⟩
  obtain ⟨k, rfl⟩ := Nat.exists_eq_add_of_le hi
  rw [getElem?_behind] at hcr
  rw [Nat.add_assoc, getElem?_behind] at hlf
  obtain ⟨hk, rfl⟩ := rest_lt_pair hm hr hs hcr hlf
  exact ⟨(ended lines).length + mid.length, by omega,
    (malformedAt_ended hl _).mpr ⟨_, rfl, malformedAt_rest hm hr⟩⟩

/-- Whole lines at the start of a stream are among its first lines. -/
theorem Delimited.prefix_of_begins {lines' : List (List UInt8)}
    (h : Delimited stream lines) (hl : ∀ line ∈ lines', Plain line)
    (hb : ended lines' <+: stream) : lines' <+: lines := by
  induction lines' generalizing stream lines with
  | nil => exact List.nil_prefix
  | cons line lines' ih =>
      obtain ⟨hline, htail⟩ := List.forall_mem_cons.mp hl
      obtain ⟨rest, rfl⟩ := hb
      simp only [ended_cons, List.append_assoc, List.cons_append] at h
      cases lines with
      | nil =>
          obtain ⟨j, hj, hbad⟩ := h.last line.length (Nat.zero_le _) (by simp)
            (by rw [getElem?_behind]; rfl)
          exact absurd (hline.malformedAt_append hbad) (Nat.not_le.mpr hj)
      | cons line' lines =>
          obtain ⟨tail, ht⟩ := h.begins
          obtain ⟨hline', hlines⟩ := List.forall_mem_cons.mp h.plain
          simp only [ended_cons, List.append_assoc, List.cons_append] at ht
          obtain ⟨rfl, hrest⟩ := first_unique hline'.1 hline.1 ht
          obtain ⟨-, hrest⟩ := List.cons.inj hrest
          have hd : Delimited (ended lines' ++ rest) lines := by
            refine ⟨⟨tail, hrest⟩, hlines, fun i hi hcr hlf => ?_⟩
            have hshift : ∀ n,
                (line' ++ cr :: lf :: (ended lines' ++ rest))[line'.length + 2 + n]? =
                (ended lines' ++ rest)[n]? := by
              intro n
              rw [Nat.add_assoc, getElem?_behind, Nat.add_comm 2]
              rfl
            obtain ⟨j, hj, hbad⟩ := h.last (line'.length + 2 + i)
              (by simp only [ended_cons, List.length_append, List.length_cons]; omega)
              (by rw [hshift, hcr]) (by rw [Nat.add_assoc, hshift, hlf])
            obtain ⟨k, rfl, hk⟩ := (malformedAt_line hline j).mp hbad
            exact ⟨k, by omega, hk⟩
          obtain ⟨more, rfl⟩ := ih hd htail (List.prefix_append ..)
          exact ⟨more, rfl⟩

/-- The lines of a stream are determined by it. -/
theorem Delimited.unique {lines' : List (List UInt8)} (h : Delimited stream lines)
    (h' : Delimited stream lines') : lines = lines' := by
  have hle := h.prefix_of_begins h'.plain h'.begins
  have hge := h'.prefix_of_begins h.plain h.begins
  exact hge.eq_of_length (Nat.le_antisymm hge.length_le hle.length_le)

end Streams

end Http

end LinuxWebsocket
