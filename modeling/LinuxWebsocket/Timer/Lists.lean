import LinuxWebsocket.Lib.DoublyLinked
import LinuxWebsocket.Timer.SortTimerLst
import Mathlib.Data.List.Sort

/-!
# What the timer list holds

A list memory is read as the sequence of timers met from `head`. The sequence
determines what each operation does: the operations redirect links only, so
the data of every timer outlives them. Neither order by expiry nor an exact
`tail` of the empty list is assumed, because the code loses both.
-/

namespace LinuxWebsocket

namespace SortTimerLst

open DoublyLinked

/-- What a timer holds besides its two links. -/
def data (m : SortTimerLst) (p : Ptr) : Option (Int × Nat × Nat) :=
  (m.heap p).map fun t => (t.expire, t.cbFunc, t.userData)

/-- The forward link stored at an address. -/
def nextOf (m : SortTimerLst) (p : Ptr) : Option Ptr := (m.heap p).bind UtilTimer.next

/-- The backward link stored at an address. -/
def prevOf (m : SortTimerLst) (p : Ptr) : Option Ptr := (m.heap p).bind UtilTimer.prev

/-- The address holds an allocated timer. -/
def Alloc (m : SortTimerLst) (p : Ptr) : Prop := (m.data p).isSome

instance (m : SortTimerLst) (p : Ptr) : Decidable (m.Alloc p) :=
  inferInstanceAs (Decidable ((m.data p).isSome = true))

/-- The expiry stored at an address. -/
def expireOf (m : SortTimerLst) (p : Ptr) : Int := ((m.data p).map Prod.fst).getD 0

/-- The user data stored at an address. -/
def userDataOf (m : SortTimerLst) (p : Ptr) : Nat := ((m.data p).map fun d => d.2.2).getD 0

/-- Redirect the forward link of one timer. -/
def linkNext (m : SortTimerLst) (p : Ptr) (q : Option Ptr) : SortTimerLst :=
  { m with heap := Function.update m.heap p ((m.heap p).map fun t => { t with next := q }) }

/-- Redirect the backward link of one timer. -/
def linkPrev (m : SortTimerLst) (p : Ptr) (q : Option Ptr) : SortTimerLst :=
  { m with heap := Function.update m.heap p ((m.heap p).map fun t => { t with prev := q }) }

/-- Release one timer. -/
def free (m : SortTimerLst) (p : Ptr) : SortTimerLst :=
  { m with heap := Function.update m.heap p none }

variable {m m' : SortTimerLst} {p x : Ptr} {q : Option Ptr} {xs ys : List Ptr}

theorem alloc_iff : m.Alloc p ↔ ∃ t, m.heap p = some t := by
  simp only [Alloc, data, Option.isSome_map, Option.isSome_iff_exists]

/-- Timers with the same data are allocated alike. -/
theorem alloc_congr (h : m'.data = m.data) : m'.Alloc p ↔ m.Alloc p := by
  simp only [Alloc, h]

theorem expireOf_congr (h : m'.data = m.data) : m'.expireOf = m.expireOf := by
  funext p
  simp only [expireOf, h]

/-- Writing the data of one timer does not change when the others expire. -/
theorem expireOf_update {d : Option (Int × Nat × Nat)}
    (hd : m'.data = Function.update m.data p d) (hx : x ≠ p) : m'.expireOf x = m.expireOf x := by
  simp only [expireOf, hd, Function.update_of_ne hx]

/-- Writing the data of one timer does not change whom the others serve. -/
theorem userDataOf_update {d : Option (Int × Nat × Nat)}
    (hd : m'.data = Function.update m.data p d) (hx : x ≠ p) :
    m'.userDataOf x = m.userDataOf x := by
  simp only [userDataOf, hd, Function.update_of_ne hx]

@[simp] theorem data_linkNext : (m.linkNext p q).data = m.data := by
  funext x
  by_cases hx : x = p
  · subst x
    cases hp : m.heap p <;> simp [data, linkNext, hp]
  · simp [data, linkNext, hx]

@[simp] theorem data_linkPrev : (m.linkPrev p q).data = m.data := by
  funext x
  by_cases hx : x = p
  · subst x
    cases hp : m.heap p <;> simp [data, linkPrev, hp]
  · simp [data, linkPrev, hx]

@[simp] theorem alloc_linkNext : (m.linkNext p q).Alloc x ↔ m.Alloc x := alloc_congr data_linkNext

@[simp] theorem alloc_linkPrev : (m.linkPrev p q).Alloc x ↔ m.Alloc x := alloc_congr data_linkPrev

theorem nextOf_linkNext (h : m.Alloc p) :
    (m.linkNext p q).nextOf = Function.update m.nextOf p q := by
  obtain ⟨t, ht⟩ := alloc_iff.mp h
  funext x
  by_cases hx : x = p
  · subst x
    simp [nextOf, linkNext, ht]
  · simp [nextOf, linkNext, hx]

@[simp] theorem prevOf_linkNext : (m.linkNext p q).prevOf = m.prevOf := by
  funext x
  by_cases hx : x = p
  · subst x
    cases hp : m.heap p <;> simp [prevOf, linkNext, hp]
  · simp [prevOf, linkNext, hx]

theorem prevOf_linkPrev (h : m.Alloc p) :
    (m.linkPrev p q).prevOf = Function.update m.prevOf p q := by
  obtain ⟨t, ht⟩ := alloc_iff.mp h
  funext x
  by_cases hx : x = p
  · subst x
    simp [prevOf, linkPrev, ht]
  · simp [prevOf, linkPrev, hx]

@[simp] theorem nextOf_linkPrev : (m.linkPrev p q).nextOf = m.nextOf := by
  funext x
  by_cases hx : x = p
  · subst x
    cases hp : m.heap p <;> simp [nextOf, linkPrev, hp]
  · simp [nextOf, linkPrev, hx]

@[simp] theorem head_linkNext : (m.linkNext p q).head = m.head := rfl
@[simp] theorem head_linkPrev : (m.linkPrev p q).head = m.head := rfl
@[simp] theorem tail_linkNext : (m.linkNext p q).tail = m.tail := rfl
@[simp] theorem tail_linkPrev : (m.linkPrev p q).tail = m.tail := rfl
@[simp] theorem news_linkNext : (m.linkNext p q).news = m.news := rfl
@[simp] theorem news_linkPrev : (m.linkPrev p q).news = m.news := rfl

@[simp] theorem data_setHead : (m.setHead q).data = m.data := rfl
@[simp] theorem data_setTail : (m.setTail q).data = m.data := rfl
@[simp] theorem nextOf_setHead : (m.setHead q).nextOf = m.nextOf := rfl
@[simp] theorem nextOf_setTail : (m.setTail q).nextOf = m.nextOf := rfl
@[simp] theorem prevOf_setHead : (m.setHead q).prevOf = m.prevOf := rfl
@[simp] theorem prevOf_setTail : (m.setTail q).prevOf = m.prevOf := rfl
@[simp] theorem head_setHead : (m.setHead q).head = q := rfl
@[simp] theorem head_setTail : (m.setTail q).head = m.head := rfl
@[simp] theorem tail_setHead : (m.setHead q).tail = m.tail := rfl
@[simp] theorem tail_setTail : (m.setTail q).tail = q := rfl
@[simp] theorem news_setHead : (m.setHead q).news = m.news := rfl
@[simp] theorem news_setTail : (m.setTail q).news = m.news := rfl
@[simp] theorem alloc_setHead : (m.setHead q).Alloc x ↔ m.Alloc x := Iff.rfl
@[simp] theorem alloc_setTail : (m.setTail q).Alloc x ↔ m.Alloc x := Iff.rfl

theorem data_free : (m.free p).data = Function.update m.data p none := by
  funext x
  by_cases hx : x = p
  · subst x
    simp [data, free]
  · simp [data, free, hx]

theorem nextOf_free : (m.free p).nextOf = Function.update m.nextOf p none := by
  funext x
  by_cases hx : x = p
  · subst x
    simp [nextOf, free]
  · simp [nextOf, free, hx]

theorem prevOf_free : (m.free p).prevOf = Function.update m.prevOf p none := by
  funext x
  by_cases hx : x = p
  · subst x
    simp [prevOf, free]
  · simp [prevOf, free, hx]

theorem alloc_free : (m.free p).Alloc x ↔ x ≠ p ∧ m.Alloc x := by
  by_cases hx : x = p
  · subst x
    simp [Alloc, data_free]
  · simp [Alloc, data_free, hx]

@[simp] theorem head_free : (m.free p).head = m.head := rfl
@[simp] theorem tail_free : (m.free p).tail = m.tail := rfl
@[simp] theorem news_free : (m.free p).news = m.news := rfl

/-- Releasing an allocated timer. -/
theorem delete_some (h : m.Alloc p) : m.delete (some p) = .ok (m.free p) := by
  obtain ⟨t, ht⟩ := alloc_iff.mp h
  simp [delete, free, ht]

/-- Writing a forward link through a good pointer redirects it. -/
theorem setNext_some (h : m.Alloc p) : m.setNext (some p) q = .ok (m.linkNext p q) := by
  obtain ⟨t, ht⟩ := alloc_iff.mp h
  simp [setNext, modify, linkNext, ht]

/-- Writing a backward link through a good pointer redirects it. -/
theorem setPrev_some (h : m.Alloc p) : m.setPrev (some p) q = .ok (m.linkPrev p q) := by
  obtain ⟨t, ht⟩ := alloc_iff.mp h
  simp [setPrev, modify, linkPrev, ht]

theorem getNext_some (h : m.Alloc p) : m.getNext (some p) = .ok (m.nextOf p) := by
  obtain ⟨t, ht⟩ := alloc_iff.mp h
  simp only [getNext, deref, ht, nextOf, Option.bind_some]
  rfl

theorem getPrev_some (h : m.Alloc p) : m.getPrev (some p) = .ok (m.prevOf p) := by
  obtain ⟨t, ht⟩ := alloc_iff.mp h
  simp only [getPrev, deref, ht, prevOf, Option.bind_some]
  rfl

theorem getExpire_some (h : m.Alloc p) : m.getExpire (some p) = .ok (m.expireOf p) := by
  obtain ⟨t, ht⟩ := alloc_iff.mp h
  simp only [getExpire, deref, ht, expireOf, data, Option.map_some, Option.getD_some]
  rfl

/-- The list memory holds exactly the timers `xs`, threaded in this order. -/
structure Lists (m : SortTimerLst) (xs : List Ptr) : Prop where
  /-- No timer is listed twice. -/
  nodup : xs.Nodup
  /-- Every listed timer is allocated. -/
  alloc : ∀ p ∈ xs, m.Alloc p
  /-- The walk starts at the first listed timer. -/
  head : m.head = xs.head?
  /-- A list that is not empty has its last timer at `tail`. -/
  tail : xs ≠ [] → m.tail = xs.getLast?
  /-- The links run through the listed timers and are null at both ends. -/
  linked : Linked m.nextOf m.prevOf none xs none
  /-- No more timers are allocated than ever were. -/
  room : ∀ ys : List Ptr, ys.Nodup → (∀ p ∈ ys, m.Alloc p) → ys.length ≤ m.news

/-- The constructed list holds no timer. -/
theorem lists_empty : empty.Lists [] := by
  refine ⟨List.nodup_nil, by simp, rfl, by simp, trivial, ?_⟩
  intro ys _ ha
  cases ys with
  | nil => exact le_rfl
  | cons y ys => simpa [empty, Alloc, data] using ha y (List.mem_cons_self ..)

/-- A list is determined by its memory. -/
theorem Lists.unique (h : m.Lists xs) (h' : m.Lists ys) : xs = ys := by
  have key : ∀ (xs ys : List Ptr) (b : Option Ptr), xs.head? = ys.head? →
      Linked m.nextOf m.prevOf b xs none → Linked m.nextOf m.prevOf b ys none → xs = ys := by
    intro xs
    induction xs with
    | nil =>
        intro ys b hh _ _
        exact (List.head?_eq_none_iff.mp hh.symm).symm
    | cons x xs ih =>
        intro ys b hh hx hy
        cases ys with
        | nil => simp at hh
        | cons y ys =>
            obtain rfl : x = y := by simpa using hh
            have hn : xs.head? = ys.head? := by simpa using hx.2.1.symm.trans hy.2.1
            rw [ih ys _ hn hx.2.2 hy.2.2]
  exact key xs ys none (h.head.symm.trans h'.head) h.linked h'.linked

/-- Redirecting links, `head` and `tail` so that other allocated timers are listed. -/
theorem Lists.relink (h : m.Lists xs) (hd : m'.data = m.data) (hn : m'.news = m.news)
    (hnodup : ys.Nodup) (ha : ∀ p ∈ ys, m.Alloc p) (hhead : m'.head = ys.head?)
    (htail : ys ≠ [] → m'.tail = ys.getLast?) (hl : Linked m'.nextOf m'.prevOf none ys none) :
    m'.Lists ys := by
  refine ⟨hnodup, fun p hp => (alloc_congr hd).mpr (ha p hp), hhead, htail, hl, ?_⟩
  intro zs hz haz
  rw [hn]
  exact h.room zs hz fun p hp => (alloc_congr hd).mp (haz p hp)

theorem Lists.length_le (h : m.Lists xs) : xs.length ≤ m.news := h.room xs h.nodup h.alloc

/-- Releasing a timer that is not listed. -/
theorem Lists.free_foreign (h : m.Lists xs) (hp : p ∉ xs) : (m.free p).Lists xs := by
  refine ⟨h.nodup, ?_, h.head, h.tail, ?_, ?_⟩
  · intro x hx
    exact alloc_free.mpr ⟨fun he => hp (by rwa [he] at hx), h.alloc x hx⟩
  · rw [nextOf_free, prevOf_free]
    exact (h.linked.update_next hp none).update_prev hp none
  · intro ys hy ha
    exact h.room ys hy fun x hx => (alloc_free.mp (ha x hx)).2

@[simp] theorem data_new {e : Int} {c u : Nat} :
    (m.new p e c u).data = Function.update m.data p (some (e, c, u)) := by
  funext x
  by_cases hx : x = p
  · subst x
    simp [data, new]
  · simp [data, new, hx]

theorem nextOf_new {e : Int} {c u : Nat} :
    (m.new p e c u).nextOf = Function.update m.nextOf p none := by
  funext x
  by_cases hx : x = p
  · subst x
    simp [nextOf, new]
  · simp [nextOf, new, hx]

theorem prevOf_new {e : Int} {c u : Nat} :
    (m.new p e c u).prevOf = Function.update m.prevOf p none := by
  funext x
  by_cases hx : x = p
  · subst x
    simp [prevOf, new]
  · simp [prevOf, new, hx]

/-- A timer allocated at a fresh address leaves the listed timers as they are. -/
theorem Lists.new (h : m.Lists xs) (hp : ¬m.Alloc p) (e : Int) (c u : Nat) :
    (m.new p e c u).Lists xs := by
  have hnot : p ∉ xs := fun hx => hp (h.alloc p hx)
  refine ⟨h.nodup, ?_, h.head, h.tail, ?_, ?_⟩
  · intro x hx
    have hne : x ≠ p := fun he => hnot (by rwa [he] at hx)
    simpa [Alloc, hne] using h.alloc x hx
  · rw [nextOf_new, prevOf_new]
    exact (h.linked.update_next hnot none).update_prev hnot none
  · intro ys hy ha
    have hold : (ys.erase p).length ≤ m.news := by
      refine h.room _ (hy.erase p) fun x hx => ?_
      obtain ⟨hne, hx⟩ := (List.Nodup.mem_erase_iff hy).mp hx
      simpa [Alloc, hne] using ha x hx
    have hlen := List.le_length_erase (l := ys) (a := p)
    have hnews : (m.new p e c u).news = m.news + 1 := rfl
    omega

/-- Writing an expiry changes the data of that timer only. -/
theorem setExpire_spec (h : m.Lists xs) {e e₀ : Int} {c u : Nat} (hd : m.data p = some (e₀, c, u)) :
    ∃ m', m.setExpire (some p) e = .ok m' ∧ m'.Lists xs ∧
      m'.data = Function.update m.data p (some (e, c, u)) ∧ m'.tail = m.tail ∧
      m'.news = m.news := by
  obtain ⟨t, ht⟩ := alloc_iff.mp (show m.Alloc p by simp [Alloc, hd])
  obtain ⟨-, rfl, rfl⟩ : t.expire = e₀ ∧ t.cbFunc = c ∧ t.userData = u := by
    simpa [data, ht] using hd
  have hdata : ({ m with heap := Function.update m.heap p (some { t with expire := e }) } :
      SortTimerLst).data = Function.update m.data p (some (e, t.cbFunc, t.userData)) := by
    funext x
    by_cases hx : x = p
    · subst x
      simp [data]
    · simp [data, hx]
  have halloc : ∀ x, ({ m with heap := Function.update m.heap p (some { t with expire := e }) } :
      SortTimerLst).Alloc x ↔ m.Alloc x := by
    intro x
    by_cases hx : x = p
    · subst x
      simp [Alloc, hdata, hd]
    · simp [Alloc, hdata, hx]
  refine ⟨_, by simp [setExpire, modify, ht], ?_, hdata, rfl, rfl⟩
  refine ⟨h.nodup, fun x hx => (halloc x).mpr (h.alloc x hx), h.head, h.tail, ?_,
    fun ys hy ha => h.room ys hy fun x hx => (halloc x).mp (ha x hx)⟩
  refine h.linked.congr (fun x _ => ?_) fun x _ => ?_
  · by_cases hx : x = p
    · subst x
      simp [nextOf, ht]
    · simp [nextOf, hx]
  · by_cases hx : x = p
    · subst x
      simp [prevOf, ht]
    · simp [prevOf, hx]

/-- A timer with others before it is not at `head`. -/
theorem Lists.head_ne {pre rest : List Ptr} (h : m.Lists (pre ++ p :: rest)) (hne : pre ≠ []) :
    some p ≠ m.head := by
  intro he
  have hp : p ∈ pre := by
    apply List.mem_of_head?
    rw [← List.head?_append_of_ne_nil _ hne, ← h.head, ← he]
  exact (List.nodup_append.mp h.nodup).2.2 p hp p (List.mem_cons_self ..) rfl

/-- A timer with others behind it is not at `tail`. -/
theorem Lists.tail_ne {pre rest : List Ptr} (h : m.Lists (pre ++ p :: rest)) (hne : rest ≠ []) :
    some p ≠ m.tail := by
  intro he
  have hp : p ∈ rest := by
    apply List.mem_of_getLast?
    have ht := h.tail (by simp)
    rw [List.getLast?_append_of_ne_nil _ (by simp), List.getLast?_cons_of_ne_nil hne] at ht
    rw [← ht, ← he]
  exact (List.nodup_cons.mp (List.nodup_append.mp h.nodup).2.1).1 hp

/-- The first of several timers is unlinked. -/
theorem Lists.unlink_first (h : m.Lists (p :: x :: xs)) :
    ((m.setHead (some x)).linkPrev x none).Lists (x :: xs) := by
  have hx : m.Alloc x := h.alloc x (by simp)
  have hn := (List.nodup_cons.mp h.nodup).2
  refine h.relink (by simp) rfl hn (fun q hq => h.alloc q (List.mem_cons_of_mem _ hq)) rfl ?_ ?_
  · intro _
    simpa [List.getLast?_cons] using h.tail (by simp)
  · simpa [prevOf_linkPrev, hx] using h.linked.unlink_first hn

/-- A timer with neighbours on both sides is unlinked. -/
theorem Lists.unlink_between {pre rest : List Ptr} {y : Ptr}
    (h : m.Lists (pre ++ x :: p :: y :: rest)) :
    ((m.linkNext x (some y)).linkPrev y (some x)).Lists (pre ++ x :: y :: rest) := by
  have hx : m.Alloc x := h.alloc x (by simp)
  have hy : m.Alloc y := h.alloc y (by simp)
  have hsub : (pre ++ x :: y :: rest).Sublist (pre ++ x :: p :: y :: rest) :=
    (List.Sublist.refl pre).append ((List.sublist_cons_self p _).cons_cons x)
  have hn := hsub.nodup h.nodup
  refine h.relink (by simp) rfl hn (fun q hq => h.alloc q (hsub.subset hq)) ?_ ?_ ?_
  · simpa using h.head
  · intro _
    simpa [List.getLast?_cons] using h.tail (by simp)
  · simpa [nextOf_linkNext, prevOf_linkPrev, hx, hy] using h.linked.unlink_between hn

/-- The last of several timers is unlinked. -/
theorem Lists.unlink_last {pre : List Ptr} (h : m.Lists (pre ++ [x, p])) :
    ((m.setTail (some x)).linkNext x none).Lists (pre ++ [x]) := by
  have hx : m.Alloc x := h.alloc x (by simp)
  have hsub : (pre ++ [x]).Sublist (pre ++ [x, p]) :=
    (List.Sublist.refl pre).append (by simp)
  have hn := hsub.nodup h.nodup
  refine h.relink (by simp) rfl hn (fun q hq => h.alloc q (hsub.subset hq)) ?_ (by simp) ?_
  · simpa using h.head
  · have hl := h.linked.unlink_last hn
    rw [nextOf_linkNext (by simpa using hx)]
    simpa using hl

/-- Redirecting the forward link of a timer that is not listed. -/
theorem Lists.linkNext_foreign (h : m.Lists xs) (hp : p ∉ xs) (ha : m.Alloc p) :
    (m.linkNext p q).Lists xs := by
  refine h.relink (by simp) rfl h.nodup h.alloc h.head h.tail ?_
  simpa [nextOf_linkNext, ha] using h.linked.update_next hp q

/-- Where the scan of the private `add_timer` puts a timer among those it scans:
before the first that expires later. -/
def scanInsert (m : SortTimerLst) (p : Ptr) (xs : List Ptr) : List Ptr :=
  xs.orderedInsert (fun a b => m.expireOf a < m.expireOf b) p

@[simp] theorem scanInsert_nil : m.scanInsert p [] = [p] := rfl

theorem scanInsert_cons : m.scanInsert p (x :: xs) =
    if m.expireOf p < m.expireOf x then p :: x :: xs else x :: m.scanInsert p xs := rfl

theorem scanInsert_perm : (m.scanInsert p xs).Perm (p :: xs) := List.perm_orderedInsert ..

theorem scanInsert_congr (h : m'.data = m.data) : m'.scanInsert p xs = m.scanInsert p xs := by
  simp only [scanInsert, expireOf_congr h]

/-- Listing one more timer behind some position adds just that timer. -/
private theorem perm_insert (pre : List Ptr) {rest ins : List Ptr} {y : Ptr}
    (hi : ins.Perm (p :: rest)) :
    (pre ++ y :: ins).Perm (p :: (pre ++ y :: rest)) :=
  calc pre ++ y :: ins
    _ |>.Perm (pre ++ y :: p :: rest) := (hi.cons y).append_left pre
    _ |>.Perm (pre ++ p :: y :: rest) := (List.Perm.swap p y rest).append_left pre
    _ |>.Perm (p :: (pre ++ y :: rest)) := List.perm_middle

/-- The scan loop threads a timer that is not listed in behind its starting point. -/
theorem insertLoop_spec {pre rest : List Ptr} {y : Ptr} {fuel : Nat}
    (h : m.Lists (pre ++ y :: rest)) (hp : p ∉ pre ++ y :: rest) (ha : m.Alloc p)
    (hf : rest.length < fuel) :
    ∃ m', insertLoop (some p) fuel (some y) rest.head? m = .ok m' ∧
      m'.Lists (pre ++ y :: m.scanInsert p rest) ∧ m'.data = m.data ∧ m'.news = m.news := by
  have hy : m.Alloc y := h.alloc y (by simp)
  have hperm : (pre ++ y :: m.scanInsert p rest).Perm (p :: (pre ++ y :: rest)) :=
    perm_insert pre scanInsert_perm
  have hnodup := hperm.nodup_iff.mpr (List.nodup_cons.mpr ⟨hp, h.nodup⟩)
  have halloc : ∀ q ∈ pre ++ y :: m.scanInsert p rest, m.Alloc q := by
    intro q hq
    rcases List.mem_cons.mp (hperm.mem_iff.mp hq) with rfl | hq
    · exact ha
    · exact h.alloc q hq
  induction rest generalizing pre y fuel with
  | nil =>
      obtain ⟨fuel, rfl⟩ : ∃ k, fuel = k + 1 := ⟨fuel - 1, by simp at hf; omega⟩
      refine ⟨(((m.linkNext y (some p)).linkPrev p (some y)).linkNext p none).setTail (some p),
        ?_, ?_, by simp, rfl⟩
      · simp only [insertLoop, List.head?_nil]
        rw [setNext_some hy, ok_bind, setPrev_some (by simpa using ha), ok_bind,
          setNext_some (by simpa using ha), ok_bind]
      · have hl := h.linked.insert_last h.nodup hp
        refine h.relink (by simp) rfl hnodup halloc ?_ (by simp) ?_
        · simpa using h.head
        · simpa [nextOf_linkNext, prevOf_linkPrev, ha, hy] using hl
  | cons z rest ih =>
      obtain ⟨fuel, rfl⟩ : ∃ k, fuel = k + 1 := ⟨fuel - 1, by simp at hf; omega⟩
      have hz : m.Alloc z := h.alloc z (by simp)
      simp only [insertLoop, List.head?_cons]
      rw [getExpire_some ha, ok_bind, getExpire_some hz, ok_bind]
      rw [scanInsert_cons] at hnodup halloc ⊢
      by_cases hlt : m.expireOf p < m.expireOf z
      · simp only [hlt, ite_true] at hnodup halloc ⊢
        refine ⟨(((m.linkNext p (some z)).linkPrev p (some y)).linkNext y (some p)).linkPrev z
          (some p), ?_, ?_, by simp, rfl⟩
        · rw [setNext_some ha, ok_bind, setPrev_some (by simpa using ha), ok_bind,
            setNext_some (by simpa using hy), ok_bind, setPrev_some (by simpa using hz)]
        · have hl := h.linked.insert_between h.nodup hp
          refine h.relink (by simp) rfl hnodup halloc ?_ ?_ ?_
          · simpa using h.head
          · intro _
            simpa [List.getLast?_cons] using h.tail (by simp)
          · simpa [nextOf_linkNext, prevOf_linkPrev, ha, hy, hz] using hl
      · simp only [hlt, ite_false] at hnodup halloc ⊢
        have hseam : m.Lists ((pre ++ [y]) ++ z :: rest) := by simpa using h
        have hnext : m.nextOf z = rest.head? := by simpa using hseam.linked.next_eq
        have hlen : rest.length < fuel := by
          simp at hf
          omega
        rw [getNext_some hz, ok_bind, hnext]
        obtain ⟨m', hm', hl, hd⟩ := ih hseam (by simpa using hp) hlen hz
          (perm_insert (pre ++ [y]) scanInsert_perm) (by simpa using hnodup) (by simpa using halloc)
        exact ⟨m', hm', by simpa using hl, hd⟩

/-- The private `add_timer` started at a listed timer threads the timer in behind it. -/
theorem addTimerFrom_spec (pre : List Ptr) {rest : List Ptr} {y : Ptr}
    (h : m.Lists (pre ++ y :: rest))
    (hp : p ∉ pre ++ y :: rest) (ha : m.Alloc p) :
    ∃ m', m.addTimerFrom (some p) (some y) = .ok m' ∧
      m'.Lists (pre ++ y :: m.scanInsert p rest) ∧ m'.data = m.data ∧ m'.news = m.news := by
  have hnext : m.nextOf y = rest.head? := by simpa using h.linked.next_eq
  have hlen := h.length_le
  rw [addTimerFrom, getNext_some (h.alloc y (by simp)), ok_bind, hnext]
  exact insertLoop_spec h hp ha (by simp at hlen; omega)

/-- What the public `add_timer` makes of a sequence: a timer that expires before
the first goes in front of it, any other is scanned in behind the second, which
a sequence of one does not have. -/
def added (m : SortTimerLst) (p : Ptr) : List Ptr → Option (List Ptr)
  | [] => some [p]
  | x :: xs =>
    if m.expireOf p < m.expireOf x then some (p :: x :: xs)
    else match xs with
      | [] => none
      | y :: ys => some (x :: y :: m.scanInsert p ys)

/-- Adding adds the timer and keeps the others. -/
theorem added_perm (h : m.added p xs = some ys) : ys.Perm (p :: xs) := by
  cases xs with
  | nil =>
      obtain rfl : [p] = ys := by simpa [added] using h
      exact List.Perm.refl _
  | cons x xs =>
      by_cases hlt : m.expireOf p < m.expireOf x
      · obtain rfl : p :: x :: xs = ys := by simpa [added, hlt] using h
        exact List.Perm.refl _
      · cases xs with
        | nil => simp [added, hlt] at h
        | cons y xs =>
            obtain rfl : x :: y :: m.scanInsert p xs = ys := by simpa [added, hlt] using h
            exact perm_insert [x] scanInsert_perm

/-- Adding a timer whose links are still null does what the sequence says. -/
theorem addTimer_spec (h : m.Lists xs) (hp : p ∉ xs) (ha : m.Alloc p)
    (hprev : m.prevOf p = none) (hnext : m.nextOf p = none) (hs : m.added p xs = some ys) :
    ∃ m', m.addTimer (some p) = .ok m' ∧ m'.Lists ys ∧ m'.data = m.data ∧ m'.news = m.news := by
  cases xs with
  | nil =>
      obtain rfl : [p] = ys := by simpa [added] using hs
      refine ⟨(m.setHead (some p)).setTail (some p), by simp [addTimer, h.head]; rfl, ?_, rfl, rfl⟩
      exact h.relink rfl rfl (List.nodup_singleton p) (by simpa using ha) rfl (fun _ => rfl)
        ⟨hprev, hnext, trivial⟩
  | cons x xs =>
      have hx : m.Alloc x := h.alloc x (by simp)
      have hhead : m.head = some x := h.head
      simp only [addTimer, hhead, reduceCtorEq, ite_false]
      rw [getExpire_some ha, ok_bind, getExpire_some hx, ok_bind]
      by_cases hlt : m.expireOf p < m.expireOf x
      · obtain rfl : p :: x :: xs = ys := by simpa [added, hlt] using hs
        have hn : (p :: x :: xs).Nodup := List.nodup_cons.mpr ⟨hp, h.nodup⟩
        refine ⟨((m.linkNext p (some x)).linkPrev x (some p)).setHead (some p), ?_, ?_, by simp,
          rfl⟩
        · simp only [hlt, ite_true]
          rw [setNext_some ha, ok_bind, head_linkNext, hhead, setPrev_some (by simpa using hx),
            ok_bind]
          rfl
        · refine h.relink (by simp) rfl hn ?_ rfl ?_ ?_
          · simpa [ha] using h.alloc
          · intro _
            simpa [List.getLast?_cons] using h.tail (by simp)
          · simpa [nextOf_linkNext, prevOf_linkPrev, ha, hx] using
              h.linked.insert_first hn hprev
      · cases xs with
        | nil => simp [added, hlt] at hs
        | cons y xs =>
            obtain rfl : x :: y :: m.scanInsert p xs = ys := by simpa [added, hlt] using hs
            have hy : m.nextOf x = some y := h.linked.2.1
            simp only [hlt, ite_false]
            rw [getNext_some hx, ok_bind, hy]
            exact addTimerFrom_spec [x] h hp ha

/-- Where the sequence has no place for the timer, adding it follows a null pointer. -/
theorem addTimer_null (h : m.Lists xs) (ha : m.Alloc p) (hs : m.added p xs = none) :
    m.addTimer (some p) = .error .null := by
  cases xs with
  | nil => simp [added] at hs
  | cons x xs =>
      by_cases hlt : m.expireOf p < m.expireOf x
      · simp [added, hlt] at hs
      · cases xs with
        | cons y xs => simp [added, hlt] at hs
        | nil =>
            have hx : m.Alloc x := h.alloc x (by simp)
            have hhead : m.head = some x := h.head
            have hnext : m.nextOf x = none := h.linked.2.1
            simp only [addTimer, hhead, reduceCtorEq, ite_false]
            rw [getExpire_some ha, ok_bind, getExpire_some hx, ok_bind]
            simp only [hlt, ite_false]
            rw [getNext_some hx, ok_bind, hnext]
            rfl

/-- What `adjust_timer` makes of the timers from the given one on: it stays if the
next one expires later, and is scanned in behind the next one otherwise. -/
def adjusted (m : SortTimerLst) (p : Ptr) : List Ptr → List Ptr
  | [] => [p]
  | y :: ys => if m.expireOf p < m.expireOf y then p :: y :: ys else y :: m.scanInsert p ys

/-- Adjusting keeps the timers. -/
theorem adjusted_perm : (m.adjusted p xs).Perm (p :: xs) := by
  cases xs with
  | nil => exact List.Perm.refl _
  | cons y ys =>
      by_cases hlt : m.expireOf p < m.expireOf y
      · simp only [adjusted, hlt, ite_true, List.Perm.refl]
      · simp only [adjusted, hlt, ite_false]
        exact perm_insert [] scanInsert_perm

/-- Adjusting a listed timer does what the sequence says. -/
theorem adjustTimer_spec {pre rest : List Ptr} (h : m.Lists (pre ++ p :: rest)) :
    ∃ m', m.adjustTimer (some p) = .ok m' ∧ m'.Lists (pre ++ m.adjusted p rest) ∧
      m'.data = m.data ∧ m'.news = m.news := by
  have ha : m.Alloc p := h.alloc p (by simp)
  have hnext : m.nextOf p = rest.head? := by simpa using h.linked.next_eq
  have hprev : m.prevOf p = pre.getLast? := by simpa using h.linked.prev_eq
  simp only [adjustTimer, reduceCtorEq, ite_false]
  rw [getNext_some ha, ok_bind, hnext]
  cases rest with
  | nil => exact ⟨m, rfl, h, rfl, rfl⟩
  | cons y rest =>
      have hy : m.Alloc y := h.alloc y (by simp)
      simp only [List.head?_cons, reduceCtorEq, ite_false]
      rw [getExpire_some ha, ok_bind, getExpire_some hy, ok_bind]
      by_cases hlt : m.expireOf p < m.expireOf y
      · refine ⟨m, by simp only [hlt, ite_true]; rfl, ?_, rfl, rfl⟩
        simpa only [adjusted, hlt, ite_true] using h
      · simp only [adjusted, hlt, ite_false]
        have hperm : (pre ++ p :: y :: rest).Perm (p :: (pre ++ y :: rest)) := List.perm_middle
        obtain ⟨hp, hn⟩ := List.nodup_cons.mp (hperm.nodup_iff.mp h.nodup)
        have halloc : ∀ q ∈ pre ++ y :: rest, m.Alloc q := fun q hq =>
          h.alloc q (hperm.mem_iff.mpr (List.mem_cons_of_mem _ hq))
        rcases pre.eq_nil_or_concat' with rfl | ⟨pre, x, rfl⟩
        · -- the head: the list goes on from its second timer, which the scan starts behind
          have hl := h.unlink_first.linkNext_foreign (p := p) (q := none) hp (by simpa using ha)
          obtain ⟨m', hm', hl', hd, hw⟩ := addTimerFrom_spec [] hl hp (by simpa using ha)
          rw [scanInsert_congr (m := m) (by simp)] at hl'
          refine ⟨m', ?_, hl', by simpa using hd, hw⟩
          have hhead : m.head = some p := h.head
          simp only [hhead, ite_true]
          rw [getNext_some ha, ok_bind, hnext, List.head?_cons, head_setHead,
            setPrev_some (by simpa using hy), ok_bind, setNext_some (by simpa using ha), ok_bind]
          exact hm'
        · -- behind the head: the neighbours are linked, and the scan starts behind the next one
          have hx : m.Alloc x := h.alloc x (by simp)
          have hpx : p ≠ x := fun he => hp (by simp [he])
          have hseam : m.Lists (pre ++ x :: p :: y :: rest) := by simpa using h
          have hl : ((m.linkNext x (some y)).linkPrev y (some x)).Lists
              ((pre ++ [x]) ++ y :: rest) := by simpa using hseam.unlink_between
          obtain ⟨m', hm', hl', hd, hw⟩ := addTimerFrom_spec (pre ++ [x]) hl hp (by simpa using ha)
          rw [scanInsert_congr (m := m) (by simp)] at hl'
          refine ⟨m', ?_, hl', by simpa using hd, hw⟩
          have hpx' : m.prevOf p = some x := by simpa using hprev
          have hpn : (m.linkNext x (some y)).nextOf p = some y := by
            rw [nextOf_linkNext hx, Function.update_of_ne hpx, hnext, List.head?_cons]
          simp only [h.head_ne (by simp), ite_false]
          rw [getPrev_some ha, ok_bind, ok_bind, hpx', setNext_some hx, ok_bind,
            getNext_some (by simpa using ha), ok_bind,
            getPrev_some (by simpa using ha), ok_bind, hpn, prevOf_linkNext, hpx',
            setPrev_some (by simpa using hy), ok_bind, getNext_some (by simpa using ha), ok_bind,
            nextOf_linkPrev, hpn]
          exact hm'

/-- The memory after deleting a timer, by the neighbours it has. -/
def unlinked (m : SortTimerLst) (p : Ptr) : Option Ptr → Option Ptr → SortTimerLst
  | none, none => ((m.free p).setHead none).setTail none
  | none, some y => ((m.setHead (some y)).linkPrev y none).free p
  | some x, none => ((m.setTail (some x)).linkNext x none).free p
  | some x, some y => ((m.linkNext x (some y)).linkPrev y (some x)).free p

/-- Deleting a listed timer goes by the neighbours it has. -/
theorem delTimer_eq {pre rest : List Ptr} (h : m.Lists (pre ++ p :: rest)) :
    m.delTimer (some p) = .ok (m.unlinked p pre.getLast? rest.head?) := by
  have ha : m.Alloc p := h.alloc p (by simp)
  have hnext : m.nextOf p = rest.head? := by simpa using h.linked.next_eq
  have hprev : m.prevOf p = pre.getLast? := by simpa using h.linked.prev_eq
  have hp : p ∉ pre ++ rest :=
    (List.nodup_cons.mp (List.perm_middle.nodup_iff.mp h.nodup)).1
  simp only [delTimer, reduceCtorEq, ite_false]
  rcases pre.eq_nil_or_concat' with rfl | ⟨pre, x, rfl⟩
  · have hhead : m.head = some p := h.head
    cases rest with
    | nil =>
        -- the only timer
        have htail : m.tail = some p := h.tail (by simp)
        simp only [hhead, htail, and_self, ite_true]
        rw [delete_some ha, ok_bind]
        rfl
    | cons y rest =>
        -- the head of several
        have hy : m.Alloc y := h.alloc y (by simp)
        have htail : some p ≠ m.tail := Lists.tail_ne (h : m.Lists ([] ++ p :: y :: rest)) (by simp)
        simp only [hhead, htail, and_false, ite_true, ite_false]
        rw [getNext_some ha, ok_bind, hnext, List.head?_cons, head_setHead,
          setPrev_some (by simpa using hy), ok_bind, delete_some (by simpa using ha)]
        rfl
  · have hhead : some p ≠ m.head := h.head_ne (by simp)
    have hx : m.Alloc x := h.alloc x (by simp)
    have hpx : p ≠ x := fun he => hp (by simp [he])
    have hpx' : m.prevOf p = some x := by simpa using hprev
    rw [List.getLast?_concat]
    cases rest with
    | nil =>
        -- the tail of several
        have htail : m.tail = some p := by simpa using h.tail (by simp)
        simp only [hhead, htail, false_and, ite_true, ite_false]
        rw [getPrev_some ha, ok_bind, hpx', tail_setTail, setNext_some (by simpa using hx),
          ok_bind, delete_some (by simpa using ha)]
        rfl
    | cons y rest =>
        -- between two neighbours
        have hy : m.Alloc y := h.alloc y (by simp)
        have htail : some p ≠ m.tail := h.tail_ne (by simp)
        have hpn : (m.linkNext x (some y)).nextOf p = some y := by
          rw [nextOf_linkNext hx, Function.update_of_ne hpx, hnext, List.head?_cons]
        simp only [hhead, htail, false_and, ite_false]
        rw [getPrev_some ha, ok_bind, getNext_some ha, ok_bind, hpx', hnext, List.head?_cons,
          setNext_some hx, ok_bind, getNext_some (by simpa using ha), ok_bind,
          getPrev_some (by simpa using ha), ok_bind, hpn, prevOf_linkNext, hpx',
          setPrev_some (by simpa using hy), ok_bind, delete_some (by simpa using ha)]
        rfl

/-- What is left of the list is threaded as before. -/
theorem Lists.unlinked {pre rest : List Ptr} (h : m.Lists (pre ++ p :: rest)) :
    (m.unlinked p pre.getLast? rest.head?).Lists (pre ++ rest) := by
  have hp : p ∉ pre ++ rest :=
    (List.nodup_cons.mp (List.perm_middle.nodup_iff.mp h.nodup)).1
  rcases pre.eq_nil_or_concat' with rfl | ⟨pre, x, rfl⟩
  · cases rest with
    | nil =>
        exact ⟨List.nodup_nil, by simp, rfl, by simp, trivial,
          fun ys hy hys => h.room ys hy fun q hq => (alloc_free.mp (hys q hq)).2⟩
    | cons y rest => exact h.unlink_first.free_foreign hp
  · rw [List.getLast?_concat]
    cases rest with
    | nil =>
        have hseam : m.Lists (pre ++ [x, p]) := by simpa using h
        rw [List.append_nil]
        exact hseam.unlink_last.free_foreign (by simpa using hp)
    | cons y rest =>
        have hseam : m.Lists (pre ++ x :: p :: y :: rest) := by simpa using h
        rw [List.append_assoc]
        exact hseam.unlink_between.free_foreign (by simpa using hp)

theorem data_unlinked (before after : Option Ptr) :
    (m.unlinked p before after).data = Function.update m.data p none := by
  cases before <;> cases after <;> simp [SortTimerLst.unlinked, data_free]

/-- Deleting a listed timer takes it out of the sequence and releases it. -/
theorem delTimer_spec {pre rest : List Ptr} (h : m.Lists (pre ++ p :: rest)) :
    ∃ m', m.delTimer (some p) = .ok m' ∧ m'.Lists (pre ++ rest) ∧
      m'.data = Function.update m.data p none ∧ m'.news = m.news ∧
      (pre ++ rest = [] → m'.tail = none) := by
  refine ⟨_, delTimer_eq h, h.unlinked, data_unlinked .., ?_, ?_⟩
  · cases pre.getLast? <;> cases rest.head? <;> rfl
  · intro he
    obtain ⟨rfl, rfl⟩ := List.append_eq_nil_iff.mp he
    rfl

/-- `tick` unlinks and releases the first timer, and never touches `tail`. -/
theorem dropHead_spec (h : m.Lists (x :: xs)) :
    ∃ m', m.dropHead (some x) = .ok m' ∧ m'.Lists xs ∧
      m'.data = Function.update m.data x none ∧ m'.tail = m.tail ∧ m'.news = m.news := by
  have hx : m.Alloc x := h.alloc x (by simp)
  have hnext : m.nextOf x = xs.head? := by simpa using h.linked.2.1
  rw [dropHead, getNext_some hx, ok_bind, hnext]
  cases xs with
  | nil =>
      refine ⟨(m.setHead none).free x, ?_, ?_, by rw [data_free, data_setHead], rfl, rfl⟩
      · simp only [List.head?_nil, head_setHead, ite_true]
        exact delete_some (by simpa using hx)
      · exact ⟨List.nodup_nil, by simp, rfl, by simp, trivial,
          fun ys hy hys => h.room ys hy fun q hq => (alloc_free.mp (hys q hq)).2⟩
  | cons y xs =>
      have hy : m.Alloc y := h.alloc y (by simp)
      refine ⟨((m.setHead (some y)).linkPrev y none).free x, ?_,
        h.unlink_first.free_foreign (List.nodup_cons.mp h.nodup).1,
        by rw [data_free, data_linkPrev, data_setHead], rfl, rfl⟩
      simp only [List.head?_cons, head_setHead, reduceCtorEq, ite_false]
      rw [setPrev_some (by simpa using hy), ok_bind, delete_some (by simpa using hx)]

/-- What running the callback of the timer at an address does. -/
def runCallback {ω : Type} (call : Ptr → Nat → Nat → ω → ω) (m : SortTimerLst) (w : ω) (p : Ptr) :
    ω :=
  match m.data p with
  | none => w
  | some (_, cbFunc, userData) => call p cbFunc userData w

/-- Rounds of the loop of `tick` over due timers: exactly their callbacks have run, in
order, and exactly these timers are released. -/
theorem tickLoop_rounds {ω : Type} (call : Ptr → Nat → Nat → ω → ω) (cur : Int) (w : ω)
    {fired rest : List Ptr} (h : m.Lists (fired ++ rest))
    (hfired : ∀ p ∈ fired, m.expireOf p ≤ cur) (fuel : Nat) :
    ∃ m', tickLoop call cur (fired.length + fuel) m.head m w =
        tickLoop call cur fuel m'.head m' (fired.foldl (runCallback call m) w) ∧
      m'.Lists rest ∧ (∀ p, m'.data p = if p ∈ fired then none else m.data p) ∧
      m'.tail = m.tail ∧ m'.news = m.news := by
  induction fired generalizing m w with
  | nil => exact ⟨m, by rw [List.length_nil, Nat.zero_add, List.foldl_nil], h, by simp, rfl, rfl⟩
  | cons x fired ih =>
      obtain ⟨hx, hfired⟩ := List.forall_mem_cons.mp hfired
      have hhead : m.head = some x := h.head
      obtain ⟨t, ht⟩ := alloc_iff.mp (h.alloc x (by simp))
      have hd : m.data x = some (t.expire, t.cbFunc, t.userData) := by simp [data, ht]
      have he : m.expireOf x = t.expire := by simp [expireOf, hd]
      obtain ⟨m₁, hm₁, hl₁, hd₁, ht₁, hn₁⟩ :=
        dropHead_spec (show m.Lists (x :: (fired ++ rest)) from h)
      have hnot : x ∉ fired := fun hf => (List.nodup_cons.mp h.nodup).1 (List.mem_append_left _ hf)
      -- the timers still to fire keep their data
      have hsame : ∀ p ∈ fired, m₁.data p = m.data p := by
        intro p hp
        rw [hd₁, Function.update_of_ne (fun hpx => hnot (by rwa [hpx] at hp))]
      have hfired₁ : ∀ p ∈ fired, m₁.expireOf p ≤ cur := by
        intro p hp
        have hle := hfired p hp
        rwa [expireOf, ← hsame p hp] at hle
      obtain ⟨m', hrun, hl', hd', htl, hn'⟩ := ih (call x t.cbFunc t.userData w) hl₁ hfired₁
      refine ⟨m', ?_, hl', ?_, htl.trans ht₁, hn'.trans hn₁⟩
      · have hfold : (x :: fired).foldl (runCallback call m) w =
            fired.foldl (runCallback call m₁) (call x t.cbFunc t.userData w) := by
          rw [List.foldl_cons, show runCallback call m w x = call x t.cbFunc t.userData w by
            simp [runCallback, hd]]
          exact List.foldl_ext _ _ _ fun v p hp => by simp only [runCallback, hsame p hp]
        have hlt : ¬cur < t.expire := by omega
        rw [hfold, ← hrun, List.length_cons, Nat.add_right_comm, hhead, tickLoop]
        simp only [deref, ht, ok_bind, hlt, ite_false]
        rw [hm₁, ok_bind]
      · intro p
        rw [hd', hd₁]
        by_cases hpx : p = x
        · simp [hpx]
        · simp [hpx]

/-- The loop of `tick` ends at a timer that is not due, and behind the last one. -/
theorem tickLoop_stop {ω : Type} (call : Ptr → Nat → Nat → ω → ω) {cur : Int} (w : ω)
    (h : m.Lists xs) (hstop : ∀ p, xs.head? = some p → cur < m.expireOf p) (fuel : Nat) :
    tickLoop call cur (fuel + 1) m.head m w = .ok (m, w) := by
  rw [h.head]
  cases xs with
  | nil => rfl
  | cons x xs =>
      obtain ⟨t, ht⟩ := alloc_iff.mp (h.alloc x (by simp))
      have hlt : cur < t.expire := by simpa [expireOf, data, ht] using hstop x rfl
      simp only [List.head?_cons, tickLoop, deref, ht, ok_bind, hlt, ite_true]
      rfl

/-- The loop of `tick` splits the sequence at the first timer still to expire. It
runs the callback of every timer before that one, releases it, and keeps the rest. -/
theorem tickLoop_spec {ω : Type} (call : Ptr → Nat → Nat → ω → ω) (cur : Int) (w : ω)
    (h : m.Lists xs) {fuel : Nat} (hf : xs.length < fuel) :
    ∃ fired rest m', xs = fired ++ rest ∧ (∀ p ∈ fired, m.expireOf p ≤ cur) ∧
      (∀ p, rest.head? = some p → cur < m.expireOf p) ∧
      tickLoop call cur fuel m.head m w = .ok (m', fired.foldl (runCallback call m) w) ∧
      m'.Lists rest ∧ (∀ p, m'.data p = if p ∈ fired then none else m.data p) ∧
      m'.tail = m.tail ∧ m'.news = m.news := by
  obtain ⟨fired, rest, rfl, hfired, hrest⟩ : ∃ fired rest, xs = fired ++ rest ∧
      (∀ p ∈ fired, m.expireOf p ≤ cur) ∧ ∀ p, rest.head? = some p → cur < m.expireOf p := by
    refine ⟨xs.takeWhile fun p => m.expireOf p ≤ cur, xs.dropWhile fun p => m.expireOf p ≤ cur,
      List.takeWhile_append_dropWhile.symm, fun p hp => ?_, fun p hp => ?_⟩
    · simpa using List.all_eq_true.mp List.all_takeWhile p hp
    · have hnot := List.head?_dropWhile_not (fun p => decide (m.expireOf p ≤ cur)) xs
      rw [hp] at hnot
      simpa using hnot
  obtain ⟨k, rfl⟩ : ∃ k, fuel = fired.length + (k + 1) := by
    rw [List.length_append] at hf
    exact ⟨fuel - fired.length - 1, by omega⟩
  obtain ⟨m', hrun, hl', hd', htl, hn⟩ := tickLoop_rounds call cur w h hfired (k + 1)
  have hnot : ∀ p ∈ rest, p ∉ fired := fun p hp hf =>
    (List.nodup_append.mp h.nodup).2.2 p hf p hp rfl
  have hrest' : ∀ p, rest.head? = some p → cur < m'.expireOf p := by
    intro p hp
    rw [expireOf, hd', if_neg (hnot p (List.mem_of_head? hp))]
    exact hrest p hp
  exact ⟨fired, rest, m', rfl, hfired, hrest, hrun.trans (tickLoop_stop call _ hl' hrest' k), hl',
    hd', htl, hn⟩

/-- The test at the start of `tick` is that of its loop. -/
theorem tick_eq_loop {ω : Type} (call : Ptr → Nat → Nat → ω → ω) (cur : Int) (w : ω) :
    tick call cur m w = tickLoop call cur (m.news + 1) m.head m w := by
  by_cases hh : m.head = none
  · simp only [tick, hh, ite_true, tickLoop]
  · simp only [tick, hh, ite_false]

/-- `tick` runs and releases the timers before the first still to expire. -/
theorem tick_spec {ω : Type} (call : Ptr → Nat → Nat → ω → ω) (cur : Int) (w : ω)
    (h : m.Lists xs) :
    ∃ fired rest m', xs = fired ++ rest ∧ (∀ p ∈ fired, m.expireOf p ≤ cur) ∧
      (∀ p, rest.head? = some p → cur < m.expireOf p) ∧
      tick call cur m w = .ok (m', fired.foldl (runCallback call m) w) ∧
      m'.Lists rest ∧ (∀ p, m'.data p = if p ∈ fired then none else m.data p) ∧
      m'.tail = m.tail ∧ m'.news = m.news := by
  rw [tick_eq_loop]
  exact tickLoop_spec call cur w h (Nat.lt_succ_of_le h.length_le)

/-- In a sequence in order of expiry no timer is due if the first one is not. -/
theorem not_due_of_head (hsort : xs.Pairwise fun p q => m.expireOf p ≤ m.expireOf q) {cur : Int}
    (hhead : ∀ p, xs.head? = some p → cur < m.expireOf p) : ∀ p ∈ xs, cur < m.expireOf p := by
  cases xs with
  | nil => simp
  | cons x xs =>
      have hx := hhead x rfl
      obtain ⟨hlater, -⟩ := List.pairwise_cons.mp hsort
      exact List.forall_mem_cons.mpr ⟨hx, fun p hp => hx.trans_le (hlater p hp)⟩

end SortTimerLst

end LinuxWebsocket
