import LinuxWebsocket.Lib.CString
import LinuxWebsocket.Http.ParseLine

/-!
# The request line

`parse_requestline` on a string in memory. A pointer is a position in the memory from
`temp` on, and the string functions fault when they run past its end. The parser cuts
the string in place at the first byte of its first two runs of blanks, and what it accepts
is the grammar of a request line.
-/

namespace LinuxWebsocket

namespace Http

open CString

/-- `enum CHECK_STATE` -/
inductive CheckState
  | requestline
  | header
  deriving DecidableEq, Repr

/-- `enum HTTP_CODE` -/
inductive HttpCode
  | noRequest
  | getRequest
  | badRequest
  | forbidenRequest
  | internalError
  | closedConnection
  deriving DecidableEq, Repr

/-- `" \t"` -/
def blanks : List UInt8 := [32, 9]

/-- `"GET"` -/
def get : List UInt8 := [71, 69, 84]

/-- `"HTTP/1.1"` -/
def http11 : List UInt8 := [72, 84, 84, 80, 47, 49, 46, 49]

/-- `"http://"` -/
def http : List UInt8 := [104, 116, 116, 112, 58, 47, 47]

/-- `'/'` -/
def slash : UInt8 := 47

/-- What the parser returns and leaves behind. -/
structure Requested where
  code : HttpCode
  /-- The memory from `temp` on. -/
  temp : List UInt8
  checkstate : CheckState
  /-- Where the URL taken begins. -/
  url : Option Nat
  deriving DecidableEq, Repr

/-- A string function that runs past the memory faults. -/
def inMemory {α : Type} : Option α → Except Fault α
  | some a => .ok a
  | none => .error .outOfRange

@[simp] theorem inMemory_some {α : Type} (a : α) : inMemory (some a) = .ok a := rfl

/-- `return BAD_REQUEST` -/
def refused (temp : List UInt8) (checkstate : CheckState) : Except Fault Requested :=
  .ok ⟨.badRequest, temp, checkstate, none⟩

/-- `parse_requestline` from the test of the URL on. -/
def takeUrl (temp : List UInt8) (url : Nat) (checkstate : CheckState) :
    Except Fault Requested := do
  let scheme ← inMemory (strncasecmp (temp.drop url) (http ++ [0]) 7)
  let url ← if scheme = 0 then do
      let url := url + 7
      let found ← inMemory (strchr slash (temp.drop url))
      .ok (found.map (url + ·))
    else .ok (some url)
  match url with
  | none => refused temp checkstate
  | some url => do
    let first ← readByte temp url
    if first ≠ slash then refused temp checkstate
    else .ok ⟨.noRequest, temp, .header, some url⟩

/-- `parse_requestline` behind the test of the method; `url` points behind the byte cut. -/
def takeVersion (temp : List UInt8) (url : Nat) (checkstate : CheckState) :
    Except Fault Requested := do
  let skipped ← inMemory (strspn blanks (temp.drop url))
  let url := url + skipped
  let version ← inMemory (strpbrk blanks (temp.drop url))
  match version with
  | none => refused temp checkstate
  | some found => do
    let version := url + found
    let temp ← writeByte temp version 0
    let version := version + 1
    let skipped ← inMemory (strspn blanks (temp.drop version))
    let version := version + skipped
    let compared ← inMemory (strcasecmp (temp.drop version) (http11 ++ [0]))
    if compared ≠ 0 then refused temp checkstate else takeUrl temp url checkstate

/-- `parse_requestline` -/
def parseRequestline (temp : List UInt8) (checkstate : CheckState) : Except Fault Requested := do
  let url ← inMemory (strpbrk blanks temp)
  match url with
  | none => refused temp checkstate
  | some url => do
    let temp ← writeByte temp url 0
    let url := url + 1
    let method := temp
    let compared ← inMemory (strcasecmp method (get ++ [0]))
    if compared = 0 then takeVersion temp url checkstate else refused temp checkstate

/-! ## The grammar -/

/-- A maximal run of blanks between two stretches of bytes. -/
structure BlankRun (before run after : List UInt8) : Prop where
  nonempty : run ≠ []
  blank : ∀ b ∈ run, b ∈ blanks
  left : ∀ b, before.getLast? = some b → b ∉ blanks
  right : ∀ b, after.head? = some b → b ∉ blanks

/-- A line of a method, a URL without blanks and a version, with nothing behind it. -/
structure RequestLine (line method run url run' version : List UInt8) : Prop where
  eq : line = method ++ (run ++ (url ++ (run' ++ version)))
  run : BlankRun method run (url ++ (run' ++ version))
  run' : BlankRun url run' version
  method : CaseEq method get
  url_nonempty : url ≠ []
  url_blankless : ∀ b ∈ url, b ∉ blanks
  version : CaseEq version http11

/-- What is taken of a URL: all of an absolute path, or the path behind the host. -/
inductive UrlTaken : List UInt8 → List UInt8 → Prop
  | path (path : List UInt8) : UrlTaken (slash :: path) (slash :: path)
  | absolute (scheme host path : List UInt8) (hs : CaseEq scheme http) (hh : slash ∉ host) :
      UrlTaken (scheme ++ (host ++ slash :: path)) (slash :: path)

/-- The string is a request line whose URL has something to take. -/
def Acceptable (s : List UInt8) : Prop :=
  ∃ method run url run' version taken, RequestLine s method run url run' version ∧
    UrlTaken url taken

/-- The place `i` is the first byte of the first run of blanks. -/
def FirstRun (s : List UInt8) (i : Nat) : Prop :=
  ∃ method b tail, s = method ++ b :: tail ∧ (∀ c ∈ method, c ∉ blanks) ∧ b ∈ blanks ∧
    i = method.length

/-- The place `i` is the first byte of the second run of blanks. -/
def SecondRun (s : List UInt8) (i : Nat) : Prop :=
  ∃ method run url b tail, s = method ++ (run ++ (url ++ b :: tail)) ∧
    (∀ c ∈ method, c ∉ blanks) ∧ run ≠ [] ∧ (∀ c ∈ run, c ∈ blanks) ∧ url ≠ [] ∧
    (∀ c ∈ url, c ∉ blanks) ∧ b ∈ blanks ∧ i = method.length + (run.length + url.length)

section Stages

variable {front mid bytes method run url run' version taken : List UInt8} {b : UInt8}

private theorem drop_behind (front mid bytes : List UInt8) :
    (front ++ (mid ++ bytes)).drop (front.length + mid.length) = bytes := by
  rw [← List.append_assoc, ← List.length_append, List.drop_left]

theorem slash_ne_zero : slash ≠ 0 := by decide

theorem not_caseEq_slash : ¬ CaseEq ((slash :: bytes).take 7) http := by
  intro h
  have hl : (slash :: bytes).take 7 = slash :: bytes.take 6 := rfl
  rw [hl, http, caseEq_cons] at h
  exact absurd h.1 (by decide)

/-- The comparison of a URL with the scheme. -/
private theorem scheme_compared (front : List UInt8) (h0 : 0 ∉ url) (rest : List UInt8) :
    ∃ d, strncasecmp ((front ++ (url ++ 0 :: rest)).drop front.length) (http ++ [0]) 7 = some d ∧
      (d = 0 ↔ CaseEq (url.take 7) http) := by
  rw [List.drop_left]
  exact strncasecmp_eq h0 (show 0 ∉ http by decide) rest []

/-- What stands behind the scheme. -/
private theorem drop_scheme {scheme : List UInt8} (hs : scheme.length = 7)
    (front tail : List UInt8) :
    (front ++ (scheme ++ tail)).drop (front.length + 7) = tail := by
  rw [← hs]
  exact drop_behind front scheme tail

/-- A URL with something to take is accepted, with the place where that begins. -/
theorem takeUrl_taken (front : List UInt8) (h : UrlTaken url taken) (h0 : 0 ∉ url)
    (st : CheckState) (rest : List UInt8) :
    takeUrl (front ++ (url ++ 0 :: rest)) front.length st =
      .ok ⟨.noRequest, front ++ (url ++ 0 :: rest), .header,
        some (front.length + (url.length - taken.length))⟩ := by
  obtain ⟨d, hd, hiff⟩ := scheme_compared front h0 rest
  rw [takeUrl, hd, inMemory_some, ok_bind]
  cases h with
  | path path =>
      rw [if_neg fun h => not_caseEq_slash (hiff.mp h), ok_bind]
      simp
  | absolute scheme host path hs hh =>
      have hlen : scheme.length = 7 := hs.length_eq
      have htake : CaseEq ((scheme ++ (host ++ slash :: path)).take 7) http := by
        rwa [← hlen, List.take_left]
      have hhost : 0 ∉ host := fun h => h0 (by simp [h])
      have hread : readByte (front ++ (scheme ++ (host ++ slash :: (path ++ 0 :: rest))))
          (front.length + 7 + host.length) = .ok slash := by
        rw [← List.append_assoc scheme, ← List.append_assoc front]
        apply readByte_at
        simp only [List.length_append, hlen, Nat.add_assoc]
      have hindex : front.length + 7 + host.length = front.length +
          ((scheme ++ (host ++ slash :: path)).length - (slash :: path).length) := by
        simp only [List.length_append, hlen]
        omega
      rw [if_pos (hiff.mpr htake)]
      simp only [List.append_assoc, List.cons_append]
      rw [drop_scheme hlen, strchr_eq_some hh hhost, inMemory_some, ok_bind, Option.map_some,
        ok_bind]
      dsimp only
      rw [hread, ok_bind, if_neg (not_not_intro rfl), hindex]

/-- Any other URL is refused. -/
theorem takeUrl_refused (front : List UInt8) (h : ∀ taken, ¬ UrlTaken url taken) (h0 : 0 ∉ url)
    (st : CheckState) (rest : List UInt8) :
    takeUrl (front ++ (url ++ 0 :: rest)) front.length st =
      refused (front ++ (url ++ 0 :: rest)) st := by
  obtain ⟨d, hd, hiff⟩ := scheme_compared front h0 rest
  rw [takeUrl, hd, inMemory_some, ok_bind]
  by_cases hs : CaseEq (url.take 7) http
  · have hlen : (url.take 7).length = 7 := hs.length_eq
    have hslash : slash ∉ url.drop 7 := by
      intro hmem
      obtain ⟨host, path, he, hh⟩ := List.eq_append_cons_of_mem hmem
      have ht := UrlTaken.absolute (url.take 7) host path hs hh
      rw [← he, List.take_append_drop] at ht
      exact h _ ht
    have hdrop := drop_scheme hlen front (url.drop 7 ++ 0 :: rest)
    rw [← List.append_assoc (url.take 7), List.take_append_drop] at hdrop
    rw [if_pos (hiff.mpr hs)]
    dsimp only
    rw [hdrop, strchr_eq_none hslash (fun hz => h0 (List.mem_of_mem_drop hz)) slash_ne_zero]
    rfl
  · rw [if_neg fun hz => hs (hiff.mp hz), ok_bind]
    cases url with
    | nil => simp [Ne.symm slash_ne_zero]
    | cons b url =>
        have hb : b ≠ slash := by
          rintro rfl
          exact h _ (.path url)
        simp [hb]

theorem zero_not_blank : (0 : UInt8) ∉ blanks := by decide

theorem blank_ne_zero (h : b ∈ blanks) : b ≠ 0 :=
  fun h0 => zero_not_blank (h0 ▸ h)

/-- The bytes that follow a run of blanks stop `strspn`, the terminator if there are none. -/
private theorem skip_run (hrun : ∀ c ∈ run, c ∈ blanks) (hstop : ∀ c, bytes.head? = some c →
    c ∉ blanks) (rest : List UInt8) :
    strspn blanks (run ++ (bytes ++ 0 :: rest)) = some run.length := by
  cases bytes with
  | nil => exact strspn_eq hrun zero_not_blank zero_not_blank
  | cons c bytes => exact strspn_eq hrun zero_not_blank (hstop c rfl)

/-- A URL that no blank follows is refused. -/
theorem takeVersion_blankless (front : List UInt8) (hrun : ∀ c ∈ run, c ∈ blanks)
    (hurl : ∀ c ∈ url, c ∉ blanks) (h0 : 0 ∉ url) (st : CheckState) (rest : List UInt8) :
    takeVersion (front ++ (run ++ (url ++ 0 :: rest))) front.length st =
      refused (front ++ (run ++ (url ++ 0 :: rest))) st := by
  have hstop : ∀ c, url.head? = some c → c ∉ blanks := fun c hc => hurl c (List.mem_of_head? hc)
  rw [takeVersion, List.drop_left, skip_run hrun hstop, inMemory_some, ok_bind]
  dsimp only
  rw [drop_behind, strpbrk_eq_none hurl h0]
  rfl

/-- Behind the method the URL is cut off at the first blank, and the version decides whether
it is looked at. -/
theorem takeVersion_cut (hrun : ∀ c ∈ run, c ∈ blanks) (hurl : ∀ c ∈ url, c ∉ blanks)
    (hne : url ≠ []) (h0 : 0 ∉ url) (hb : b ∈ blanks) (hrun' : ∀ c ∈ run', c ∈ blanks)
    (hstop : ∀ c, version.head? = some c → c ∉ blanks) (h0' : 0 ∉ version) (st : CheckState)
    (rest : List UInt8) :
    takeVersion (front ++ (run ++ (url ++ b :: (run' ++ (version ++ 0 :: rest))))) front.length st =
      if CaseEq version http11 then
        takeUrl ((front ++ run) ++ (url ++ 0 :: (run' ++ (version ++ 0 :: rest))))
          (front ++ run).length st
      else refused ((front ++ run) ++ (url ++ 0 :: (run' ++ (version ++ 0 :: rest)))) st := by
  have hskip : strspn blanks (run ++ (url ++ b :: (run' ++ (version ++ 0 :: rest)))) =
      some run.length := by
    cases url with
    | nil => exact absurd rfl hne
    | cons c url => exact strspn_eq hrun zero_not_blank (hurl c List.mem_cons_self)
  have hcut : writeByte (front ++ (run ++ (url ++ b :: (run' ++ (version ++ 0 :: rest)))))
      (front.length + run.length + url.length) 0 =
      .ok (front ++ run ++ (url ++ 0 :: (run' ++ (version ++ 0 :: rest)))) := by
    rw [← List.append_assoc run, ← List.append_assoc front,
      writeByte_at (by simp only [List.length_append, Nat.add_assoc])]
    simp
  have hafter : ∀ bytes, (front ++ run ++ (url ++ 0 :: bytes)).drop
      (front.length + run.length + url.length + 1) = bytes := by
    intro bytes
    rw [show front ++ run ++ (url ++ 0 :: bytes) = (front ++ run) ++ ((url ++ [0]) ++ bytes) by
      simp,
      show front.length + run.length + url.length + 1 =
        (front ++ run).length + (url ++ [0]).length by simp; omega, drop_behind]
  obtain ⟨d, hd, hiff⟩ := strcasecmp_eq h0' (show 0 ∉ http11 by decide) rest []
  rw [takeVersion, List.drop_left, hskip, inMemory_some, ok_bind]
  dsimp only
  rw [drop_behind, strpbrk_eq_some hurl h0 hb (blank_ne_zero hb), inMemory_some, ok_bind]
  dsimp only
  rw [hcut, ok_bind]
  rw [hafter, skip_run hrun' hstop, inMemory_some, ok_bind, ← List.drop_drop, hafter,
    List.drop_left, hd, inMemory_some, ok_bind, List.length_append]
  by_cases hv : CaseEq version http11
  · rw [if_pos hv, if_neg (not_not_intro (hiff.mpr hv))]
  · rw [if_neg hv, if_pos fun h => hv (hiff.mp h)]

/-- A string without blanks is refused. -/
theorem parseRequestline_blankless (hs : ∀ c ∈ bytes, c ∉ blanks) (h0 : 0 ∉ bytes)
    (st : CheckState) (rest : List UInt8) :
    parseRequestline (bytes ++ 0 :: rest) st = refused (bytes ++ 0 :: rest) st := by
  rw [parseRequestline, strpbrk_eq_none hs h0]
  rfl

/-- The method is cut off at the first blank, and decides whether the rest is looked at. -/
theorem parseRequestline_cut (hm : ∀ c ∈ method, c ∉ blanks) (h0 : 0 ∉ method) (hb : b ∈ blanks)
    (st : CheckState) (rest : List UInt8) :
    parseRequestline (method ++ b :: rest) st =
      if CaseEq method get then takeVersion (method ++ [0] ++ rest) (method ++ [0]).length st
      else refused (method ++ [0] ++ rest) st := by
  obtain ⟨d, hd, hiff⟩ := strcasecmp_eq h0 (show 0 ∉ get by decide) rest []
  rw [parseRequestline, strpbrk_eq_some hm h0 hb (blank_ne_zero hb), inMemory_some, ok_bind]
  dsimp only
  rw [writeByte_at rfl, ok_bind]
  rw [hd, inMemory_some, ok_bind, List.append_assoc, List.length_append]
  by_cases hv : CaseEq method get
  · rw [if_pos hv, if_pos (hiff.mpr hv)]
    rfl
  · rw [if_neg hv, if_neg fun h => hv (hiff.mp h)]
    rfl

end Stages

/-! ## Every string -/

/-- What the parser has made of the string: it may have cut it at the first byte of its
first run of blanks, and then of its second. -/
inductive Cut (s : List UInt8) : List UInt8 → Prop
  | uncut : Cut s (s ++ [0])
  | method (i : Nat) (hi : FirstRun s i) : Cut s ((s ++ [0]).set i 0)
  | both (i j : Nat) (hi : FirstRun s i) (hj : SecondRun s j) :
      Cut s (((s ++ [0]).set i 0).set j 0)

section Strings

variable {s method run url run' version taken : List UInt8} {b : UInt8}

/-- A string without blanks, or what stands in front of its first one. -/
theorem exists_blank (s : List UInt8) : (∀ c ∈ s, c ∉ blanks) ∨
    ∃ front b tail, s = front ++ b :: tail ∧ (∀ c ∈ front, c ∉ blanks) ∧ b ∈ blanks := by
  induction s with
  | nil => exact .inl (by simp)
  | cons a s ih =>
      by_cases ha : a ∈ blanks
      · exact .inr ⟨[], a, s, rfl, by simp, ha⟩
      · rcases ih with hs | ⟨front, b, tail, rfl, hfront, hb⟩
        · exact .inl (List.forall_mem_cons.mpr ⟨ha, hs⟩)
        · exact .inr ⟨a :: front, b, tail, rfl, List.forall_mem_cons.mpr ⟨ha, hfront⟩, hb⟩

/-- The blanks at the front of a string, and what follows them. -/
theorem exists_run (s : List UInt8) : ∃ run tail, s = run ++ tail ∧ (∀ c ∈ run, c ∈ blanks) ∧
    ∀ c, tail.head? = some c → c ∉ blanks := by
  induction s with
  | nil => exact ⟨[], [], rfl, by simp, by simp⟩
  | cons a s ih =>
      by_cases ha : a ∈ blanks
      · obtain ⟨run, tail, rfl, hrun, htail⟩ := ih
        exact ⟨a :: run, tail, rfl, List.forall_mem_cons.mpr ⟨ha, hrun⟩, htail⟩
      · refine ⟨[], a :: s, rfl, by simp, fun c hc => ?_⟩
        obtain rfl := Option.some.inj hc
        exact ha

/-- The method of a request line holds no blank. -/
theorem get_blankless (h : CaseEq method get) : ∀ c ∈ method, c ∉ blanks := by
  intro c hc hb
  have hl : tolower c ∈ get.map tolower := by
    rw [← h]
    exact List.mem_map_of_mem hc
  have hne : ∀ w ∈ blanks, tolower w ∉ get.map tolower := by simp [blanks, get, tolower]
  exact hne c hb hl

private theorem set_at (front tail : List UInt8) (b c : UInt8) :
    (front ++ b :: tail).set front.length c = front ++ c :: tail := by
  simp

/-- The string cut at its first two runs. -/
private theorem set_runs (method run url tail : List UInt8) (b b' : UInt8) :
    ((method ++ b :: (run ++ (url ++ b' :: tail))).set method.length 0).set
        (method.length + ((b :: run).length + url.length)) 0 =
      method ++ [0] ++ run ++ (url ++ 0 :: tail) := by
  rw [set_at, show method ++ 0 :: (run ++ (url ++ b' :: tail)) =
      (method ++ [0] ++ run ++ url) ++ b' :: tail by simp,
    show method.length + ((b :: run).length + url.length) =
      (method ++ [0] ++ run ++ url).length by simp; omega, set_at]
  simp

/-- A string with two runs of blanks: its three parts decide one after the other. -/
theorem parseRequestline_runs {b' : UInt8} (hm : ∀ c ∈ method, c ∉ blanks) (hb : b ∈ blanks)
    (hrun : ∀ c ∈ run, c ∈ blanks) (hurl : ∀ c ∈ url, c ∉ blanks) (hne : url ≠ [])
    (hb' : b' ∈ blanks) (hrun' : ∀ c ∈ run', c ∈ blanks)
    (hstop : ∀ c, version.head? = some c → c ∉ blanks)
    (h0 : 0 ∉ method ++ b :: (run ++ (url ++ b' :: (run' ++ version)))) (st : CheckState)
    (rest : List UInt8) :
    parseRequestline (method ++ b :: (run ++ (url ++ b' :: (run' ++ (version ++ 0 :: rest))))) st =
      if CaseEq method get then
        if CaseEq version http11 then
          takeUrl ((method ++ [0] ++ run) ++ (url ++ 0 :: (run' ++ (version ++ 0 :: rest))))
            (method ++ [0] ++ run).length st
        else refused ((method ++ [0] ++ run) ++ (url ++ 0 :: (run' ++ (version ++ 0 :: rest)))) st
      else
        refused (method ++ [0] ++ (run ++ (url ++ b' :: (run' ++ (version ++ 0 :: rest))))) st := by
  simp only [List.mem_append, List.mem_cons, not_or] at h0
  obtain ⟨hm0, -, -, hu0, -, -, hv0⟩ := h0
  rw [parseRequestline_cut hm hm0 hb, takeVersion_cut hrun hurl hne hu0 hb' hrun' hstop hv0]

/-- A request line whose URL has something to take is accepted. -/
theorem parseRequestline_accepts (h : RequestLine s method run url run' version)
    (ht : UrlTaken url taken) (h0 : 0 ∉ s) (st : CheckState) (rest : List UInt8) :
    parseRequestline (s ++ 0 :: rest) st =
      .ok ⟨.noRequest, ((s ++ [0]).set method.length 0).set
          (method.length + (run.length + url.length)) 0 ++ rest, .header,
        some (method.length + run.length + (url.length - taken.length))⟩ := by
  obtain ⟨b, run, rfl⟩ := List.exists_cons_of_ne_nil h.run.nonempty
  obtain ⟨b', run', rfl⟩ := List.exists_cons_of_ne_nil h.run'.nonempty
  obtain rfl := h.eq
  simp only [List.cons_append] at h0
  obtain ⟨hb, hrun⟩ := List.forall_mem_cons.mp h.run.blank
  obtain ⟨hb', hrun'⟩ := List.forall_mem_cons.mp h.run'.blank
  have hparse := parseRequestline_runs (get_blankless h.method) hb hrun h.url_blankless
    h.url_nonempty hb' hrun' h.run'.right h0 st rest
  have hu0 : 0 ∉ url := by
    simp only [List.mem_append, List.mem_cons, not_or] at h0
    exact h0.2.2.2.1
  rw [if_pos h.method, if_pos h.version, takeUrl_taken _ ht hu0] at hparse
  have hset := set_runs method run url (run' ++ (version ++ [0])) b b'
  simp only [List.append_assoc, List.cons_append, List.length_append, List.length_cons,
    List.length_nil, Nat.zero_add] at hparse hset ⊢
  rw [hset, hparse]
  simp [Nat.add_assoc, Nat.add_comm 1]

/-- A string with two runs of blanks around a URL, between the method and the version. -/
theorem requestLine_of_runs {b' : UInt8} (hm : ∀ c ∈ method, c ∉ blanks) (hb : b ∈ blanks)
    (hrun : ∀ c ∈ run, c ∈ blanks) (hurl : ∀ c ∈ url, c ∉ blanks) (hne : url ≠ [])
    (hb' : b' ∈ blanks) (hrun' : ∀ c ∈ run', c ∈ blanks)
    (hstop : ∀ c, version.head? = some c → c ∉ blanks) (hget : CaseEq method get)
    (hver : CaseEq version http11) :
    RequestLine (method ++ b :: (run ++ (url ++ b' :: (run' ++ version)))) method (b :: run) url
      (b' :: run') version where
  eq := by simp
  run :=
    { nonempty := by simp
      blank := List.forall_mem_cons.mpr ⟨hb, hrun⟩
      left := fun c hc => hm c (List.mem_of_getLast? hc)
      right := fun c hc => by
        obtain ⟨a, url, rfl⟩ := List.exists_cons_of_ne_nil hne
        obtain rfl := Option.some.inj hc
        exact hurl a List.mem_cons_self }
  run' :=
    { nonempty := by simp
      blank := List.forall_mem_cons.mpr ⟨hb', hrun'⟩
      left := fun c hc => hurl c (List.mem_of_getLast? hc)
      right := hstop }
  method := hget
  url_nonempty := hne
  url_blankless := hurl
  version := hver

/-- A request refused, whatever lies behind the string. -/
private theorem refused_exit {temp : List UInt8} {st : CheckState} (hcut : Cut s temp)
    (h : ∀ rest, parseRequestline (s ++ 0 :: rest) st = refused (temp ++ rest) st) :
    ∃ p : Requested, (∀ rest, parseRequestline (s ++ 0 :: rest) st =
        .ok { p with temp := p.temp ++ rest }) ∧ Cut s p.temp ∧
      (p.code = .badRequest ∧ p.checkstate = st ∨ Acceptable s) :=
  ⟨⟨.badRequest, temp, st, none⟩, h, hcut, .inl ⟨rfl, rfl⟩⟩

/-- A string with two runs of blanks behind `GET` is accepted only if it is a request line. -/
private theorem exits_runs {b' : UInt8} (hm : ∀ c ∈ method, c ∉ blanks) (hb : b ∈ blanks)
    (hrun : ∀ c ∈ run, c ∈ blanks) (hurl : ∀ c ∈ url, c ∉ blanks) (hne : url ≠ [])
    (hb' : b' ∈ blanks) (hrun' : ∀ c ∈ run', c ∈ blanks)
    (hstop : ∀ c, version.head? = some c → c ∉ blanks) (hget : CaseEq method get)
    (h0 : 0 ∉ method ++ b :: (run ++ (url ++ b' :: (run' ++ version)))) (st : CheckState) :
    ∃ p : Requested, (∀ rest, parseRequestline
          (method ++ b :: (run ++ (url ++ b' :: (run' ++ version))) ++ 0 :: rest) st =
        .ok { p with temp := p.temp ++ rest }) ∧
      Cut (method ++ b :: (run ++ (url ++ b' :: (run' ++ version)))) p.temp ∧
      (p.code = .badRequest ∧ p.checkstate = st ∨
        Acceptable (method ++ b :: (run ++ (url ++ b' :: (run' ++ version))))) := by
  have hfirst : FirstRun (method ++ b :: (run ++ (url ++ b' :: (run' ++ version))))
      method.length := ⟨method, b, _, rfl, hm, hb, rfl⟩
  have hsecond : SecondRun (method ++ b :: (run ++ (url ++ b' :: (run' ++ version))))
      (method.length + ((b :: run).length + url.length)) :=
    ⟨method, b :: run, url, b', run' ++ version, by simp, hm, by simp,
      List.forall_mem_cons.mpr ⟨hb, hrun⟩, hne, hurl, hb', rfl⟩
  by_cases haccept : CaseEq version http11 ∧ ∃ taken, UrlTaken url taken
  · obtain ⟨hver, taken, ht⟩ := haccept
    have hline := requestLine_of_runs hm hb hrun hurl hne hb' hrun' hstop hget hver
    exact ⟨⟨.noRequest, _, .header, some _⟩, parseRequestline_accepts hline ht h0 st,
      .both _ _ hfirst hsecond, .inr ⟨_, _, _, _, _, taken, hline, ht⟩⟩
  · apply refused_exit (.both _ _ hfirst hsecond)
    intro rest
    have hset := set_runs method run url (run' ++ (version ++ [0])) b b'
    have hp := parseRequestline_runs hm hb hrun hurl hne hb' hrun' hstop h0 st rest
    rw [if_pos hget] at hp
    simp only [List.append_assoc, List.cons_append] at hp hset ⊢
    rw [hset, hp]
    split
    · next hver =>
        have hu0 : 0 ∉ url := fun h => h0 (by simp [h])
        have hno : ∀ taken, ¬ UrlTaken url taken := fun taken ht => haccept ⟨hver, taken, ht⟩
        have hr := takeUrl_refused (method ++ [0] ++ run) hno hu0 st
          (run' ++ (version ++ 0 :: rest))
        simpa using hr
    · simp

/-- Every string is answered, and accepted only if it is a request line. -/
theorem parseRequestline_exits (h0 : 0 ∉ s) (st : CheckState) :
    ∃ p : Requested, (∀ rest, parseRequestline (s ++ 0 :: rest) st =
        .ok { p with temp := p.temp ++ rest }) ∧ Cut s p.temp ∧
      (p.code = .badRequest ∧ p.checkstate = st ∨ Acceptable s) := by
  rcases exists_blank s with hs | ⟨method, b, tail, rfl, hm, hb⟩
  · apply refused_exit .uncut
    intro rest
    rw [parseRequestline_blankless hs h0]
    simp
  have hfirst : FirstRun (method ++ b :: tail) method.length := ⟨method, b, tail, rfl, hm, hb, rfl⟩
  have hm0 : 0 ∉ method := fun h => h0 (List.mem_append_left _ h)
  have hcut : (method ++ b :: tail ++ [0]).set method.length 0 =
      method ++ [0] ++ tail ++ [0] := by
    rw [List.append_assoc, List.cons_append, set_at]
    simp
  have hparse := fun rest => parseRequestline_cut hm hm0 hb st (tail ++ 0 :: rest)
  by_cases hget : CaseEq method get
  · obtain ⟨run, t, rfl, hrun, hstop⟩ := exists_run tail
    rcases exists_blank t with ht | ⟨url, b', tail, rfl, hurl, hb'⟩
    · apply refused_exit (.method _ hfirst)
      intro rest
      have ht0 : 0 ∉ t := fun h => h0 (by simp [h])
      have hver := takeVersion_blankless (method ++ [0]) hrun ht ht0 st rest
      have hp := hparse rest
      rw [if_pos hget, List.append_assoc run, hver] at hp
      rw [hcut]
      simpa using hp
    · have hne : url ≠ [] := by
        rintro rfl
        exact hstop b' rfl hb'
      obtain ⟨run', version, rfl, hrun', hstop'⟩ := exists_run tail
      exact exits_runs hm hb hrun hurl hne hb' hrun' hstop' hget h0 st
  · apply refused_exit (.method _ hfirst)
    intro rest
    have hp := hparse rest
    rw [if_neg hget] at hp
    rw [hcut]
    simpa using hp

theorem UrlTaken.suffix (h : UrlTaken url taken) : ∃ front, url = front ++ taken := by
  cases h with
  | path path => exact ⟨[], rfl⟩
  | absolute scheme host path _ _ => exact ⟨scheme ++ host, by simp⟩

/-- In the string cut at its two runs the URL taken is a string of its own. -/
theorem taken_string (h : RequestLine s method run url run' version) (ht : UrlTaken url taken) :
    ∃ back, (((s ++ [0]).set method.length 0).set (method.length + (run.length + url.length))
        0).drop (method.length + run.length + (url.length - taken.length)) =
          taken ++ 0 :: back := by
  obtain ⟨b, run, rfl⟩ := List.exists_cons_of_ne_nil h.run.nonempty
  obtain ⟨b', run', rfl⟩ := List.exists_cons_of_ne_nil h.run'.nonempty
  obtain ⟨front, rfl⟩ := ht.suffix
  obtain rfl := h.eq
  refine ⟨run' ++ (version ++ [0]), ?_⟩
  have hset := set_runs method run (front ++ taken) (run' ++ (version ++ [0])) b b'
  have hlen : method.length + (b :: run).length + ((front ++ taken).length - taken.length) =
      (method ++ [0] ++ run).length + front.length := by
    simp only [List.length_append, List.length_cons, List.length_nil]
    omega
  have hdrop := drop_behind (method ++ [0] ++ run) front (taken ++ 0 :: (run' ++ (version ++ [0])))
  rw [hlen, ← hdrop]
  congr 1
  simpa using hset

/-- What an accepted request leaves behind. -/
theorem accepted_eq {p : Requested} {st : CheckState} (hparse : ∀ rest,
      parseRequestline (s ++ 0 :: rest) st = .ok { p with temp := p.temp ++ rest })
    (h : RequestLine s method run url run' version) (ht : UrlTaken url taken) (h0 : 0 ∉ s) :
    p = ⟨.noRequest, ((s ++ [0]).set method.length 0).set
        (method.length + (run.length + url.length)) 0, .header,
      some (method.length + run.length + (url.length - taken.length))⟩ := by
  have he := (hparse []).symm.trans (parseRequestline_accepts h ht h0 st [])
  cases p
  simpa using he

/-- Every string is answered by what it is. -/
theorem parseRequestline_answers (h0 : 0 ∉ s) (st : CheckState) :
    ∃ p : Requested, (∀ rest, parseRequestline (s ++ 0 :: rest) st =
        .ok { p with temp := p.temp ++ rest }) ∧ Cut s p.temp ∧
      (p.code = .noRequest ↔ Acceptable s) ∧
      (p.code ≠ .noRequest → p.code = .badRequest ∧ p.checkstate = st) := by
  obtain ⟨p, hparse, hcut, hexit⟩ := parseRequestline_exits h0 st
  have haccept : Acceptable s → p.code = .noRequest := by
    rintro ⟨method, run, url, run', version, taken, h, ht⟩
    rw [accepted_eq hparse h ht h0]
  refine ⟨p, hparse, hcut, ⟨fun hcode => ?_, haccept⟩, fun hcode => ?_⟩
  · rcases hexit with ⟨hbad, -⟩ | hline
    · exact absurd (hcode.symm.trans hbad) (by decide)
    · exact hline
  · rcases hexit with hbad | hline
    · exact hbad
    · exact absurd (haccept hline) hcode

/-- On every string in memory `parse_requestline` answers the grammar of a request line. It
reads nothing behind the terminator, and cuts the string at most at the first bytes of the
two runs of blanks. -/
theorem parseRequestline_grammar (h0 : 0 ∉ s) (st : CheckState) :
    ∃ p : Requested, (∀ rest, parseRequestline (s ++ 0 :: rest) st =
        .ok { p with temp := p.temp ++ rest }) ∧
      Cut s p.temp ∧
      (p.code = .noRequest ↔ ∃ method run url run' version taken,
        RequestLine s method run url run' version ∧ UrlTaken url taken) ∧
      (∀ method run url run' version taken, RequestLine s method run url run' version →
        UrlTaken url taken → p.checkstate = .header ∧
          p.temp = ((s ++ [0]).set method.length 0).set
            (method.length + (run.length + url.length)) 0 ∧
          ∃ i back, p.url = some i ∧ p.temp.drop i = taken ++ 0 :: back) ∧
      (p.code ≠ .noRequest → p.code = .badRequest ∧ p.checkstate = st) := by
  obtain ⟨p, hparse, hcut, hiff, hbad⟩ := parseRequestline_answers h0 st
  refine ⟨p, hparse, hcut, hiff, ?_, hbad⟩
  intro method run url run' version taken h ht
  obtain ⟨back, hback⟩ := taken_string h ht
  rw [accepted_eq hparse h ht h0]
  exact ⟨rfl, rfl, _, back, rfl, hback⟩

/-- `get http://a/b HTTP/1.1` -/
theorem parseRequestline_grammar_absolute : ∃ method run url run' version taken,
    RequestLine [103, 101, 116, 32, 104, 116, 116, 112, 58, 47, 47, 97, 47, 98, 32, 9, 72, 84, 84,
      80, 47, 49, 46, 49] method run url run' version ∧ UrlTaken url taken := by
  obtain ⟨p, hparse, -, hiff, -⟩ := parseRequestline_grammar (s := [103, 101, 116, 32, 104, 116,
    116, 112, 58, 47, 47, 97, 47, 98, 32, 9, 72, 84, 84, 80, 47, 49, 46, 49]) (by decide)
    .requestline
  have hcode : Except.map Requested.code (parseRequestline ([103, 101, 116, 32, 104, 116, 116, 112,
      58, 47, 47, 97, 47, 98, 32, 9, 72, 84, 84, 80, 47, 49, 46, 49] ++ 0 :: []) .requestline) =
      .ok .noRequest := by
    decide
  rw [hparse] at hcode
  exact hiff.mp (Except.ok.inj hcode)

end Strings

end Http

end LinuxWebsocket
