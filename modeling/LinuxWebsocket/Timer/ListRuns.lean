import LinuxWebsocket.Lib.Machine
import LinuxWebsocket.Timer.Lists
import Mathlib.Data.Finset.Basic

/-!
# Sequences of timer list operations

The callers of `sort_timer_lst` add fresh timers, raise the expiry of listed
ones, delete listed ones and tick. After each operation the list should thread
exactly the timers added and not yet deleted or fired, by non-decreasing expiry.
Two defects break this: the public `add_timer` hands the second timer to a scan
that only looks behind its starting point, and `tick` leaves `tail` where it was
when it empties the list.
-/

namespace LinuxWebsocket

open SortTimerLst

/-- An operation a caller may issue. -/
inductive ListOp
  /-- `new util_timer` at an address, filled in, then `add_timer`. -/
  | add (p : Ptr) (expire : Int) (cbFunc userData : Nat)
  /-- `timer->expire = expire`, then `adjust_timer`. -/
  | adjust (p : Ptr) (expire : Int)
  /-- `del_timer` -/
  | del (p : Ptr)
  /-- `tick` at a clock reading. -/
  | tick (cur : Int)
  deriving DecidableEq, Repr

/-- The list, what the callbacks have made of the rest of the program, and the
timers added and not yet deleted or fired. -/
structure ListState (ω : Type) where
  lst : SortTimerLst
  world : ω
  listed : Finset Ptr

/-- What callers promise: a new timer is at an unused address, an adjusted or
deleted timer is listed, and adjusting never lowers an expiry. -/
def ListOp.Allowed {ω : Type} (s : ListState ω) : ListOp → Prop
  | .add p _ _ _ => ¬s.lst.Alloc p
  | .adjust p expire => p ∈ s.listed ∧ s.lst.expireOf p ≤ expire
  | .del p => p ∈ s.listed
  | .tick _ => True

instance {ω : Type} (s : ListState ω) : ∀ op : ListOp, Decidable (op.Allowed s)
  | .add p _ _ _ => inferInstanceAs (Decidable (¬s.lst.Alloc p))
  | .adjust p expire => inferInstanceAs (Decidable (p ∈ s.listed ∧ s.lst.expireOf p ≤ expire))
  | .del p => inferInstanceAs (Decidable (p ∈ s.listed))
  | .tick _ => inferInstanceAs (Decidable True)

/-- A callback that also notes the timer it was run for. -/
def noting {ω : Type} (call : Nat → Nat → ω → ω) (p : Ptr) (cbFunc userData : Nat)
    (w : ω × List Ptr) : ω × List Ptr :=
  (call cbFunc userData w.1, p :: w.2)

/-- One operation. -/
def ListOp.step {ω : Type} (call : Nat → Nat → ω → ω) (s : ListState ω) :
    ListOp → Except Fault (ListState ω)
  | .add p expire cbFunc userData => do
    let m ← (s.lst.new p expire cbFunc userData).addTimer (some p)
    .ok { s with lst := m, listed := insert p s.listed }
  | .adjust p expire => do
    let m ← s.lst.setExpire (some p) expire
    let m ← m.adjustTimer (some p)
    .ok { s with lst := m }
  | .del p => do
    let m ← s.lst.delTimer (some p)
    .ok { s with lst := m, listed := s.listed.erase p }
  | .tick cur => do
    let (m, w, fired) ← SortTimerLst.tick (noting call) cur s.lst (s.world, [])
    .ok ⟨m, w, s.listed \ fired.toFinset⟩

/-- The timer list in the hands of its callers, from the constructed empty list. -/
def listMachine {ω : Type} (call : Nat → Nat → ω → ω) (w : ω) :
    Machine (ListState ω) ListOp Fault where
  init := ⟨empty, w, ∅⟩
  Allowed := ListOp.Allowed
  step := ListOp.step call

/-- The walk from `head` meets exactly the timers `listed`, each once, along
inverse links and by non-decreasing expiry, and ends at `tail`. -/
def WellFormed (m : SortTimerLst) (listed : Finset Ptr) : Prop :=
  ∃ xs : List Ptr, m.Lists xs ∧ m.tail = xs.getLast? ∧ xs.toFinset = listed ∧
    xs.Pairwise fun p q => m.expireOf p ≤ m.expireOf q

/-- The operation follows no null or released pointer, ends, and leaves the list well formed. -/
def ListOp.Sound {ω : Type} (call : Nat → Nat → ω → ω) (s : ListState ω) (op : ListOp) : Prop :=
  ∃ t, op.step call s = .ok t ∧ WellFormed t.lst t.listed

/-- When the code gets an operation right: an added timer finds the list empty,
expires before the first timer or not before the second one, and `tick` finds
the list empty or does not reach its last timer. -/
def ListOp.Safe {ω : Type} (s : ListState ω) : ListOp → Prop
  | .add _ expire _ _ => ∀ h ∈ s.lst.head, expire < s.lst.expireOf h ∨
      ∃ n ∈ s.lst.nextOf h, s.lst.expireOf n ≤ expire
  | .tick cur => s.lst.head = none ∨ ∃ l ∈ s.lst.tail, cur < s.lst.expireOf l
  | _ => True

instance {ω : Type} (s : ListState ω) : ∀ op : ListOp, Decidable (op.Safe s)
  | .add _ expire _ _ => inferInstanceAs (Decidable (∀ h ∈ s.lst.head,
      expire < s.lst.expireOf h ∨ ∃ n ∈ s.lst.nextOf h, s.lst.expireOf n ≤ expire))
  | .adjust .. => inferInstanceAs (Decidable True)
  | .del _ => inferInstanceAs (Decidable True)
  | .tick cur => inferInstanceAs
      (Decidable (s.lst.head = none ∨ ∃ l ∈ s.lst.tail, cur < s.lst.expireOf l))

/-- Scanning a timer into an ordered sequence keeps it ordered. -/
theorem scanInsert_sorted {m : SortTimerLst} {p : Ptr} {xs : List Ptr}
    (h : xs.Pairwise fun p q => m.expireOf p ≤ m.expireOf q) :
    (m.scanInsert p xs).Pairwise fun p q => m.expireOf p ≤ m.expireOf q := by
  induction xs with
  | nil => exact List.pairwise_singleton _ _
  | cons x xs ih =>
      obtain ⟨hx, hxs⟩ := List.pairwise_cons.mp h
      rw [scanInsert_cons]
      by_cases hlt : m.expireOf p < m.expireOf x
      · simp only [hlt, ite_true]
        refine List.pairwise_cons.mpr ⟨?_, h⟩
        intro y hy
        rcases List.mem_cons.mp hy with rfl | hy
        · omega
        · have := hx y hy
          omega
      · simp only [hlt, ite_false]
        refine List.pairwise_cons.mpr ⟨?_, ih hxs⟩
        intro y hy
        rcases List.mem_cons.mp (scanInsert_perm.mem_iff.mp hy) with rfl | hy
        · omega
        · exact hx y hy

/-- A timer that may stand behind `x` keeps the sequence from `x` on ordered when
it is scanned in. -/
theorem scanInsert_sorted_cons {m : SortTimerLst} {p x : Ptr} {xs : List Ptr}
    (h : (x :: xs).Pairwise fun p q => m.expireOf p ≤ m.expireOf q)
    (hp : m.expireOf x ≤ m.expireOf p) :
    (x :: m.scanInsert p xs).Pairwise fun p q => m.expireOf p ≤ m.expireOf q := by
  have hs := scanInsert_sorted (p := p) h
  rwa [scanInsert_cons, if_neg (by omega)] at hs

/-- The place `add_timer` finds in an ordered sequence is right exactly under the
condition on the first two timers. -/
theorem added_sorted_iff {m : SortTimerLst} {p : Ptr} {xs : List Ptr}
    (h : xs.Pairwise fun p q => m.expireOf p ≤ m.expireOf q) :
    (∃ ys, m.added p xs = some ys ∧ ys.Pairwise fun p q => m.expireOf p ≤ m.expireOf q) ↔
      ∀ x, xs.head? = some x → m.expireOf p < m.expireOf x ∨
        ∃ y, xs.tail.head? = some y ∧ m.expireOf y ≤ m.expireOf p := by
  cases xs with
  | nil => simp [added]
  | cons x xs =>
      by_cases hlt : m.expireOf p < m.expireOf x
      · have hs := scanInsert_sorted (p := p) h
        rw [scanInsert_cons, if_pos hlt] at hs
        simp [added, hlt, hs]
      · cases xs with
        | nil => simp [added, hlt]
        | cons y ys =>
            obtain ⟨hx, hxs⟩ := List.pairwise_cons.mp h
            have hxy := hx y (List.mem_cons_self ..)
            simp only [added, hlt, ite_false, List.head?_cons, List.tail_cons]
            constructor
            · rintro ⟨_, hys, hs⟩
              obtain rfl := Option.some.inj hys
              rintro _ -
              have hy := (List.pairwise_cons.mp (List.pairwise_cons.mp hs).2).1 p
                (scanInsert_perm.mem_iff.mpr (List.mem_cons_self ..))
              exact Or.inr ⟨y, rfl, hy⟩
            · intro hc
              rcases hc x rfl with hc | ⟨_, hy, hyp⟩
              · exact absurd hc hlt
              · obtain rfl := Option.some.inj hy
                refine ⟨_, rfl, List.pairwise_cons.mpr ⟨?_, scanInsert_sorted_cons hxs hyp⟩⟩
                intro z hz
                rcases List.mem_cons.mp hz with rfl | hz
                · exact hxy
                · rcases List.mem_cons.mp (scanInsert_perm.mem_iff.mp hz) with rfl | hz
                  · omega
                  · exact hx z (List.mem_cons_of_mem _ hz)

/-- For a memory known to hold a sequence, well-formedness speaks of that sequence. -/
theorem wellFormed_iff {m : SortTimerLst} {xs : List Ptr} {listed : Finset Ptr} (h : m.Lists xs) :
    WellFormed m listed ↔ m.tail = xs.getLast? ∧ xs.toFinset = listed ∧
      xs.Pairwise fun p q => m.expireOf p ≤ m.expireOf q := by
  constructor
  · rintro ⟨ys, hl, hw⟩
    obtain rfl := hl.unique h
    exact hw
  · intro hw
    exact ⟨xs, h, hw⟩

/-- Order by expiry depends on the data of the listed timers only. -/
theorem sorted_congr {m m' : SortTimerLst} {xs : List Ptr}
    (he : ∀ p ∈ xs, m'.expireOf p = m.expireOf p)
    (h : xs.Pairwise fun p q => m.expireOf p ≤ m.expireOf q) :
    xs.Pairwise fun p q => m'.expireOf p ≤ m'.expireOf q := by
  apply h.imp_of_mem
  intro a b ha hb hab
  rwa [he a ha, he b hb]

section Operations

variable {ω : Type} {call : Nat → Nat → ω → ω} {s : ListState ω}

/-- Adding a fresh timer is sound exactly when the scan can find its place. -/
theorem add_sound_iff (hw : WellFormed s.lst s.listed) {p : Ptr} {e : Int} {c u : Nat}
    (ha : (ListOp.add p e c u).Allowed s) :
    (ListOp.add p e c u).Sound call s ↔ (ListOp.add p e c u).Safe s := by
  obtain ⟨xs, hl, -, hset, hsort⟩ := hw
  have hnot : p ∉ xs := fun hx => ha (hl.alloc p hx)
  have hl₁ := hl.new ha e c u
  have hd₁ : (s.lst.new p e c u).data = Function.update s.lst.data p (some (e, c, u)) := data_new
  have hp₁ : (s.lst.new p e c u).expireOf p = e := by simp [expireOf]
  have hx₁ : ∀ x ∈ xs, (s.lst.new p e c u).expireOf x = s.lst.expireOf x := fun x hx =>
    expireOf_update hd₁ fun he => hnot (by rwa [he] at hx)
  have halloc : (s.lst.new p e c u).Alloc p := by simp [Alloc]
  have hsafe : (ListOp.add p e c u).Safe s ↔ ∀ x, xs.head? = some x →
      (s.lst.new p e c u).expireOf p < (s.lst.new p e c u).expireOf x ∨
        ∃ y, xs.tail.head? = some y ∧
          (s.lst.new p e c u).expireOf y ≤ (s.lst.new p e c u).expireOf p := by
    cases xs with
    | nil => simp [ListOp.Safe, hl.head]
    | cons x xs =>
        have hnext : s.lst.nextOf x = xs.head? := by simpa using hl.linked.2.1
        simp only [ListOp.Safe, Option.mem_def, hl.head, List.head?_cons, Option.some.injEq,
          forall_eq', List.tail_cons, hp₁, hx₁ x (List.mem_cons_self ..), hnext]
        refine or_congr Iff.rfl (exists_congr fun y => and_congr_right fun hy => ?_)
        rw [hx₁ y (List.mem_cons_of_mem _ (List.mem_of_head? hy))]
  rw [hsafe, ← added_sorted_iff (sorted_congr hx₁ hsort)]
  cases hadd : (s.lst.new p e c u).added p xs with
  | none =>
      simp [ListOp.Sound, ListOp.step, addTimer_null hl₁ halloc hadd]
  | some ys =>
      obtain ⟨m', hm', hl', hd', -⟩ := addTimer_spec hl₁ hnot halloc
        (by simp [prevOf_new]) (by simp [nextOf_new]) hadd
      have hperm := added_perm hadd
      have htail : m'.tail = ys.getLast? :=
        hl'.tail fun hn => by simpa [hn] using hperm.length_eq
      have hlist : ys.toFinset = insert p s.listed := by
        rw [List.toFinset_eq_of_perm _ _ hperm, List.toFinset_cons, hset]
      simp only [ListOp.Sound, ListOp.step, hm', ok_bind, Except.ok.injEq, exists_eq_left',
        wellFormed_iff hl', htail, hlist, true_and, Option.some.injEq,
        expireOf_congr hd']

/-- Adjusting a listed timer upwards is always sound. -/
theorem adjust_sound (hw : WellFormed s.lst s.listed) {p : Ptr} {e : Int}
    (ha : (ListOp.adjust p e).Allowed s) : (ListOp.adjust p e).Sound call s := by
  obtain ⟨xs, hl, -, hset, hsort⟩ := hw
  obtain ⟨hp, he⟩ := ha
  obtain ⟨pre, rest, rfl⟩ := List.append_of_mem (List.mem_toFinset.mp (hset ▸ hp : p ∈ xs.toFinset))
  obtain ⟨⟨e₀, c, u⟩, hd⟩ := Option.isSome_iff_exists.mp (hl.alloc p (by simp))
  obtain ⟨m₁, hm₁, hl₁, hd₁, -⟩ := setExpire_spec hl (e := e) hd
  obtain ⟨m', hm', hl', hd', -⟩ := adjustTimer_spec hl₁
  have hperm : (pre ++ m₁.adjusted p rest).Perm (pre ++ p :: rest) := adjusted_perm.append_left pre
  have hp₁ : m₁.expireOf p = e := by simp [expireOf, hd₁]
  have hx₁ : ∀ x, x ≠ p → m₁.expireOf x = s.lst.expireOf x := fun x => expireOf_update hd₁
  obtain ⟨hnot, hnodup⟩ := List.nodup_cons.mp (List.perm_middle.nodup_iff.mp hl.nodup)
  obtain ⟨hpre, hrest, hcross⟩ := List.pairwise_append.mp hsort
  obtain ⟨-, hrest⟩ := List.pairwise_cons.mp hrest
  have hpre₁ : pre.Pairwise fun p q => m₁.expireOf p ≤ m₁.expireOf q :=
    sorted_congr (fun x hx => hx₁ x fun he => hnot (by simp [← he, hx])) hpre
  have hrest₁ : rest.Pairwise fun p q => m₁.expireOf p ≤ m₁.expireOf q :=
    sorted_congr (fun x hx => hx₁ x fun he => hnot (by simp [← he, hx])) hrest
  refine ⟨{ s with lst := m' }, by simp [ListOp.step, hm₁, hm'], ?_⟩
  refine (wellFormed_iff hl').mpr ⟨?_, ?_, ?_⟩
  · exact hl'.tail fun hn => by simpa [hn] using hperm.length_eq
  · rw [List.toFinset_eq_of_perm _ _ hperm, hset]
  · rw [expireOf_congr hd']
    refine List.pairwise_append.mpr ⟨hpre₁, ?_, ?_⟩
    · cases rest with
      | nil => exact List.pairwise_singleton _ _
      | cons y rest =>
          by_cases hlt : m₁.expireOf p < m₁.expireOf y
          · have hs := scanInsert_sorted (p := p) hrest₁
            rw [scanInsert_cons, if_pos hlt] at hs
            simpa only [adjusted, hlt, ite_true] using hs
          · simpa only [adjusted, hlt, ite_false] using
              scanInsert_sorted_cons hrest₁ (by omega)
    · intro a ha b hb
      have hap : a ≠ p := fun he => hnot (by simp [← he, ha])
      rw [hx₁ a hap]
      rcases List.mem_cons.mp (adjusted_perm.mem_iff.mp hb) with rfl | hb
      · rw [hp₁]
        exact (hcross a ha b (List.mem_cons_self ..)).trans he
      · rw [hx₁ b fun he => hnot (by simp [← he, hb])]
        exact hcross a ha b (List.mem_cons_of_mem _ hb)

/-- Deleting a listed timer is always sound. -/
theorem del_sound (hw : WellFormed s.lst s.listed) {p : Ptr} (ha : (ListOp.del p).Allowed s) :
    (ListOp.del p).Sound call s := by
  obtain ⟨xs, hl, -, hset, hsort⟩ := hw
  obtain ⟨pre, rest, rfl⟩ := List.append_of_mem (List.mem_toFinset.mp (hset ▸ ha : p ∈ xs.toFinset))
  obtain ⟨m', hm', hl', hd', -, hempty⟩ := delTimer_spec hl
  have hperm : (pre ++ p :: rest).Perm (p :: (pre ++ rest)) := List.perm_middle
  have hnot := (List.nodup_cons.mp (hperm.nodup_iff.mp hl.nodup)).1
  refine ⟨{ s with lst := m', listed := s.listed.erase p }, by simp [ListOp.step, hm'], ?_⟩
  refine (wellFormed_iff hl').mpr ⟨?_, ?_, ?_⟩
  · by_cases hn : pre ++ rest = []
    · rw [hempty hn, hn, List.getLast?_nil]
    · exact hl'.tail hn
  · rw [← hset, List.toFinset_eq_of_perm _ _ hperm, List.toFinset_cons,
      Finset.erase_insert (by simpa using hnot)]
  · refine sorted_congr (fun x hx => expireOf_update hd' fun he => hnot (by rwa [he] at hx)) ?_
    exact hsort.sublist ((List.Sublist.refl pre).append (List.sublist_cons_self p rest))

/-- The callbacks of `tick` note the fired timers. -/
theorem foldl_noting {m : SortTimerLst} {fired : List Ptr} (ha : ∀ p ∈ fired, m.Alloc p)
    (w : ω × List Ptr) :
    (fired.foldl (runCallback (noting call) m) w).2 = fired.reverse ++ w.2 := by
  induction fired generalizing w with
  | nil => rfl
  | cons p fired ih =>
      obtain ⟨d, hd⟩ := Option.isSome_iff_exists.mp (ha p (List.mem_cons_self ..))
      rw [List.foldl_cons, ih (fun q hq => ha q (List.mem_cons_of_mem _ hq))]
      simp [runCallback, hd, noting]

/-- A tick is sound exactly when it leaves a timer or finds none. -/
theorem tick_sound_iff (hw : WellFormed s.lst s.listed) {cur : Int} :
    (ListOp.tick cur).Sound call s ↔ (ListOp.tick cur).Safe s := by
  obtain ⟨xs, hl, htail, hset, hsort⟩ := hw
  obtain ⟨fired, rest, m', hxs, hfired, hrest, hrun, hl', hd', ht', -⟩ :=
    tick_spec (noting call) cur (s.world, []) hl
  subst hxs
  have hstep : (ListOp.tick cur).step call s = .ok ⟨m',
      (fired.foldl (runCallback (noting call) s.lst) (s.world, [])).1,
      s.listed \ fired.toFinset⟩ := by
    simp only [ListOp.step, hrun, ok_bind]
    rw [foldl_noting fun p hp => hl.alloc p (by simp [hp])]
    simp
  obtain ⟨hnf, -, hdisj⟩ := List.nodup_append.mp hl.nodup
  have hkept : ∀ p ∈ rest, p ∉ fired := fun p hp hf => hdisj p hf p hp rfl
  have hset' : rest.toFinset = s.listed \ fired.toFinset := by
    ext p
    have := hkept p
    simp only [← hset, List.mem_toFinset, Finset.mem_sdiff, List.mem_append]
    tauto
  have hsort' : rest.Pairwise fun p q => m'.expireOf p ≤ m'.expireOf q := by
    refine sorted_congr (fun p hp => ?_) (List.pairwise_append.mp hsort).2.1
    simp only [expireOf, hd', hkept p hp, ite_false]
  have hsound : (ListOp.tick cur).Sound call s ↔ (fired ++ rest).getLast? = rest.getLast? := by
    simp only [ListOp.Sound, hstep, Except.ok.injEq, exists_eq_left', wellFormed_iff hl', ht',
      htail, hset', hsort', and_true]
  rw [hsound]
  rcases rest.eq_nil_or_concat' with rfl | ⟨rest, l, rfl⟩
  · -- every timer fired: `tail` is right only if there was none
    simp only [ListOp.Safe, Option.mem_def, hl.head, htail, List.append_nil, List.getLast?_nil,
      List.getLast?_eq_none_iff, List.head?_eq_none_iff]
    refine ⟨Or.inl, ?_⟩
    rintro (h | ⟨l, hlast, hlt⟩)
    · exact h
    · have := hfired l (List.mem_of_getLast? hlast)
      omega
  · -- a timer is left, so the last one is
    have hle : cur < s.lst.expireOf l :=
      not_due_of_head (List.pairwise_append.mp hsort).2.1 hrest l (by simp)
    simp only [ListOp.Safe, Option.mem_def, htail]
    refine ⟨fun _ => Or.inr ⟨l, by simp, hle⟩, fun _ => by simp⟩

/-- One operation on a well-formed list is sound exactly when it is safe. -/
theorem sound_iff_safe (hw : WellFormed s.lst s.listed) {op : ListOp} (ha : op.Allowed s) :
    op.Sound call s ↔ op.Safe s := by
  cases op with
  | add p e c u => exact add_sound_iff hw ha
  | adjust p e => exact iff_of_true (adjust_sound hw ha) trivial
  | del p => exact iff_of_true (del_sound hw ha) trivial
  | tick cur => exact tick_sound_iff hw

end Operations

/-- The constructed list is well formed. -/
theorem wellFormed_empty : WellFormed empty ∅ :=
  (wellFormed_iff lists_empty).mpr ⟨rfl, rfl, List.Pairwise.nil⟩

/-- In every sequence of operations its callers may issue, the timer list never
faults and stays well formed, if and only if every operation is safe. -/
theorem timer_list_sound_iff {ω : Type} (call : Nat → Nat → ω → ω) (w : ω) (ops : List ListOp)
    (ha : (listMachine call w).Along ListOp.Allowed (listMachine call w).init ops) :
    (listMachine call w).Along (fun s op => op.Sound call s) (listMachine call w).init ops ↔
      (listMachine call w).Along ListOp.Safe (listMachine call w).init ops := by
  refine Machine.along_iff (I := fun s => WellFormed s.lst s.listed)
    (fun s op hw hallowed => sound_iff_safe hw hallowed) ?_ wellFormed_empty ha
  intro s op t hw hallowed hsafe hstep
  have hsound : op.Sound call s := (sound_iff_safe hw hallowed).mpr hsafe
  obtain ⟨t', ht', hw'⟩ := hsound
  obtain rfl : t' = t := Except.ok.inj (ht'.symm.trans hstep)
  exact hw'

/-- Three timers, each added at a place the scan can find, and a tick that fires the first. -/
theorem timer_list_sound_three :
    (listMachine (fun _ _ w => w) ()).Along (fun s op => op.Sound (fun _ _ w => w) s)
      (listMachine (fun _ _ w => w) ()).init
      [.add 1 20 0 0, .add 2 10 0 1, .add 3 30 0 2, .adjust 2 25, .tick 20, .del 2] :=
  (timer_list_sound_iff (fun _ _ w => w) () _ (by decide)).mpr (by decide)

/-- Two timers in order of expiry: the second `add_timer` follows a null pointer. -/
theorem timer_list_unsound :
    (listMachine (fun _ _ w => w) ()).Along ListOp.Allowed
        (listMachine (fun _ _ w => w) ()).init [.add 1 10 0 0, .add 2 20 0 1] ∧
      ¬(listMachine (fun _ _ w => w) ()).Along (fun s op => op.Sound (fun _ _ w => w) s)
        (listMachine (fun _ _ w => w) ()).init [.add 1 10 0 0, .add 2 20 0 1] := by
  refine ⟨by decide, ?_⟩
  rintro ⟨-, h⟩
  obtain ⟨⟨t, ht, -⟩, -⟩ := h _ rfl
  cases ht

end LinuxWebsocket
