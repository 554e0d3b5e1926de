import LinuxWebsocket.Http.RequestLine

/-!
# The extent of a line

`parse_line` ends a line at its CR LF, `parse_requestline` at the first NUL. A NUL that came
in with the stream makes the two disagree: a request line in front of it is accepted
whatever stands between the NUL and the CR LF.
-/

namespace LinuxWebsocket

namespace Http

open CString

/-- The line is a request line and nothing else. -/
def WellFormed (line : List UInt8) : Prop :=
  ∃ method run url run' version, RequestLine line method run url run' version

/-- A NUL came in with the line at the start of the buffer, and what stands in front of the
first one is a request line by itself. -/
def HidesTail (buffer : List UInt8) : Prop :=
  0 ∈ buffer.takeWhile (· ≠ cr) ∧ Acceptable ((buffer.takeWhile (· ≠ cr)).takeWhile (· ≠ 0))

section Extent

variable {line method run url run' version more : List UInt8} {b : UInt8}

/-- The first bytes of the parts of a request line. -/
private theorem RequestLine.heads (h : RequestLine line method run url run' version) :
    ∃ r run₁ u url₁ r' run₁' v version₁, run = r :: run₁ ∧ url = u :: url₁ ∧
      run' = r' :: run₁' ∧ version = v :: version₁ ∧ ¬ r ∉ blanks ∧ u ∉ blanks ∧ ¬ r' ∉ blanks ∧
      v ∉ blanks := by
  obtain ⟨r, run, rfl⟩ := List.exists_cons_of_ne_nil h.run.nonempty
  obtain ⟨u, url, rfl⟩ := List.exists_cons_of_ne_nil h.url_nonempty
  obtain ⟨r', run', rfl⟩ := List.exists_cons_of_ne_nil h.run'.nonempty
  obtain ⟨v, version, rfl⟩ := List.exists_cons_of_length_pos
    (show 0 < version.length by rw [h.version.length_eq]; decide)
  exact ⟨r, run, u, url, r', run', v, version, rfl, rfl, rfl, rfl,
    not_not_intro (h.run.blank r List.mem_cons_self), h.url_blankless u List.mem_cons_self,
    not_not_intro (h.run'.blank r' List.mem_cons_self), h.run'.right v rfl⟩

/-- Nothing can be added behind a request line: the parts are found one after the other,
and the version leaves no room. -/
theorem RequestLine.not_wellFormed (h : RequestLine line method run url run' version) :
    ¬ WellFormed (line ++ b :: more) := by
  rintro ⟨method₂, run₂, url₂, run₂', version₂, h₂⟩
  have hlen := h.version.length_eq
  have hlen₂ := h₂.version.length_eq
  have heq := h₂.eq
  rw [h.eq] at heq
  obtain ⟨r, run, u, url, r', run', v, version, rfl, rfl, rfl, rfl, hr, hu, hr', hv⟩ := h.heads
  obtain ⟨s, run₂, w, url₂, s', run₂', x, version₂, rfl, rfl, rfl, rfl, hs, hw, hs', hx⟩ :=
    h₂.heads
  simp only [List.append_assoc, List.cons_append] at heq
  obtain ⟨-, -, heq⟩ :=
    stretch_unique (get_blankless h.method) (get_blankless h₂.method) hr hs heq
  obtain ⟨-, -, heq⟩ := stretch_unique (p := (· ∈ blanks)) (List.forall_mem_cons.mp h.run.blank).2
    (List.forall_mem_cons.mp h₂.run.blank).2 hu hw heq
  obtain ⟨-, -, heq⟩ := stretch_unique (List.forall_mem_cons.mp h.url_blankless).2
    (List.forall_mem_cons.mp h₂.url_blankless).2 hr' hs' heq
  obtain ⟨-, -, heq⟩ := stretch_unique (p := (· ∈ blanks)) (List.forall_mem_cons.mp h.run'.blank).2
    (List.forall_mem_cons.mp h₂.run'.blank).2 hv hx heq
  have hmore := congrArg List.length heq
  simp only [List.length_append, List.length_cons] at hmore hlen hlen₂
  omega

/-- What `parse_line` makes of a buffer that begins with a line. -/
theorem parseLine_line {buffer : List UInt8} {r : Scanned}
    (h : parseLine buffer 0 buffer.length = .ok r) (hok : r.status = .lineOk) :
    ∃ line tail, buffer = line ++ cr :: lf :: tail ∧ cr ∉ line ∧
      r.buffer = line ++ 0 :: 0 :: tail ∧ r.checkedIndex = line.length + 2 := by
  obtain ⟨line, rest, status, rfl, hl, hr⟩ := exists_rest buffer
  have hresume : Resumes [] := by simp [Resumes]
  have hspec := parseLine_spec hresume hl hr []
  simp only [List.nil_append, List.append_nil, List.length_nil, Nat.zero_add] at hspec
  obtain rfl := Except.ok.inj (h.symm.trans hspec)
  obtain rfl : status = .lineOk := hok
  cases hr with
  | pair tail => exact ⟨line, tail, rfl, hl.1, rfl, rfl⟩

/-- A line accepted is a request line and nothing else exactly as long as no request line
stands in front of a NUL that came in with the line. -/
theorem line_extent_right_iff {buffer : List UInt8} {r : Scanned}
    (h : parseLine buffer 0 buffer.length = .ok r) (hok : r.status = .lineOk) (st : CheckState) :
    (∀ p, parseRequestline r.buffer st = .ok p → p.code = .noRequest →
        WellFormed (buffer.take (r.checkedIndex - 2))) ↔
      ¬ HidesTail buffer := by
  obtain ⟨line, tail, rfl, hcr, hbuffer, hindex⟩ := parseLine_line h hok
  have hline : (line ++ cr :: lf :: tail).takeWhile (· ≠ cr) = line :=
    takeWhile_first hcr
  rw [HidesTail, hline, hbuffer, hindex, Nat.add_sub_cancel, List.take_left]
  by_cases h0 : 0 ∈ line
  · obtain ⟨s, more, rfl, hs⟩ := List.eq_append_cons_of_mem h0
    obtain ⟨p, hparse, -, hiff, -⟩ := parseRequestline_answers hs st
    have hp := hparse (more ++ 0 :: 0 :: tail)
    rw [takeWhile_first hs, List.append_assoc, List.cons_append, hp]
    constructor
    · rintro hright ⟨-, haccept⟩
      have hwell := hright _ rfl (hiff.mpr haccept)
      obtain ⟨method, run, url, run', version, taken, hreq, -⟩ := haccept
      exact hreq.not_wellFormed hwell
    · intro hnot q hq hcode
      obtain rfl := Except.ok.inj hq
      exact absurd ⟨h0, hiff.mp hcode⟩ hnot
  · obtain ⟨p, hparse, -, hiff, -⟩ := parseRequestline_answers h0 st
    rw [hparse (0 :: tail)]
    refine iff_of_true (fun q hq hcode => ?_) fun hboth => h0 hboth.1
    obtain rfl := Except.ok.inj hq
    obtain ⟨method, run, url, run', version, -, hreq, -⟩ := hiff.mp hcode
    exact ⟨method, run, url, run', version, hreq⟩

/-- `GET / HTTP/1.1` -/
def getRoot : List UInt8 := [71, 69, 84, 32, 47, 32, 72, 84, 84, 80, 47, 49, 46, 49]

/-- A line without NUL is accepted as a whole. -/
theorem line_extent_right_root : ¬ HidesTail (getRoot ++ [cr, lf]) ∧ WellFormed getRoot := by
  have hline : parseLine (getRoot ++ [cr, lf]) 0 (getRoot ++ [cr, lf]).length =
      .ok ⟨.lineOk, getRoot ++ [0, 0], 16⟩ := by
    decide
  have hrequest : parseRequestline (getRoot ++ [0, 0]) .requestline = .ok ⟨.noRequest,
      [71, 69, 84, 0, 47, 0, 72, 84, 84, 80, 47, 49, 46, 49, 0, 0], .header, some 4⟩ := by
    decide
  have hnot : ¬ HidesTail (getRoot ++ [cr, lf]) := fun h => absurd h.1 (by decide)
  have hright := (line_extent_right_iff hline rfl .requestline).mpr hnot
  exact ⟨hnot, hright _ hrequest rfl⟩

/-- `GET / HTTP/1.1`, a NUL and an `x` are accepted as a line. -/
theorem nul_hides_tail : ∃ r p,
    parseLine (getRoot ++ [0, 120, cr, lf]) 0 (getRoot ++ [0, 120, cr, lf]).length = .ok r ∧
      r.status = .lineOk ∧ parseRequestline r.buffer .requestline = .ok p ∧ p.code = .noRequest ∧
      ¬ WellFormed ((getRoot ++ [0, 120, cr, lf]).take (r.checkedIndex - 2)) := by
  have hroot : RequestLine ([71, 69, 84] ++ 32 :: ([] ++ ([47] ++ 32 :: ([] ++ http11))))
      [71, 69, 84] [32] [47] [32] http11 :=
    requestLine_of_runs (by simp [blanks]) (by decide) (by simp) (by simp [blanks]) (by simp)
      (by decide) (by simp) (by simp [blanks, http11]) rfl rfl
  have hlong : ¬ WellFormed (_ ++ 0 :: [120]) := hroot.not_wellFormed
  refine ⟨⟨.lineOk, getRoot ++ [0, 120, 0, 0], 18⟩,
    ⟨.noRequest, [71, 69, 84, 0, 47, 0, 72, 84, 84, 80, 47, 49, 46, 49, 0, 120, 0, 0], .header,
      some 4⟩, by decide, rfl, by decide, rfl, ?_⟩
  exact hlong

end Extent

end Http

end LinuxWebsocket
