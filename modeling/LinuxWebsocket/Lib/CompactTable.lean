import Mathlib.Data.List.Perm.Basic
import Mathlib.Data.List.Range
import Mathlib.Logic.Function.Basic
import Mathlib.Tactic.Common

/-!
# Tables kept compact

The first `n` slots of an array hold its entries. One more entry goes to slot `n`;
an entry is removed by moving the last one into its slot. An index maps each key
back to the slot of its entry; an inverse also sends every other key nowhere.
-/

namespace CompactTable

variable {α κ : Type*} {f g : Nat → α} {n d i : Nat} {a : α}

/-- The entries in the first `n` slots. -/
def entries (f : Nat → α) (n : Nat) : List α := (List.range n).map f

@[simp] theorem length_entries : (entries f n).length = n := by simp [entries]

theorem entries_succ : entries f (n + 1) = entries f n ++ [f n] := by
  simp [entries, List.range_succ]

theorem mem_entries : a ∈ entries f n ↔ ∃ i, i < n ∧ f i = a := by
  simp [entries]

/-- Entries depend on the slots in use only. -/
theorem entries_congr (h : ∀ i, i < n → f i = g i) : entries f n = entries g n := by
  refine List.map_congr_left fun i hi => h i (List.mem_range.mp hi)

/-- Writing a slot out of use changes no entry. -/
theorem entries_update (hd : n ≤ d) : entries (Function.update f d a) n = entries f n := by
  refine entries_congr fun i hi => Function.update_of_ne ?_ ..
  omega

/-- Writing the first free slot appends an entry. -/
theorem entries_push : entries (Function.update f n a) (n + 1) = entries f n ++ [a] := by
  rw [entries_succ, entries_update le_rfl, Function.update_self]

/-- Overwriting a slot in use replaces its entry, up to order. -/
theorem entries_replace (hd : d < n) :
    (f d :: entries (Function.update f d a) n).Perm (a :: entries f n) := by
  induction n with
  | zero => omega
  | succ n ih =>
      by_cases hn : d = n
      · subst d
        rw [entries_push, entries_succ]
        calc f n :: (entries f n ++ [a])
          _ |>.Perm (f n :: a :: entries f n) := (List.perm_append_singleton _ _).cons _
          _ |>.Perm (a :: f n :: entries f n) := List.Perm.swap _ _ _
          _ |>.Perm (a :: (entries f n ++ [f n])) := (List.perm_append_singleton _ _).symm.cons _
      · have hdn : d < n := by omega
        rw [entries_succ, entries_succ, Function.update_of_ne fun he => hn he.symm]
        exact (ih hdn).append_right [f n]

/-- Moving the last entry into a slot removes the entry of that slot, up to order. -/
theorem entries_remove (hd : d ≤ n) :
    (f d :: entries (Function.update f d (f n)) n).Perm (entries f (n + 1)) := by
  rw [entries_succ]
  refine List.Perm.trans ?_ (List.perm_append_singleton _ _).symm
  rcases hd.lt_or_eq with hlt | rfl
  · exact entries_replace hlt
  · rw [Function.update_eq_self]

/-- Dropping the one entry with a given key, up to order. -/
theorem perm_filter_key [DecidableEq κ] {key : α → κ} {as : List α} (hn : (as.map key).Nodup)
    (ha : a ∈ as) : (a :: as.filter fun b => key b ≠ key a).Perm as := by
  obtain ⟨pre, rest, rfl⟩ := List.append_of_mem ha
  rw [List.map_append, List.map_cons] at hn
  obtain ⟨hnot, -⟩ := List.nodup_cons.mp (List.perm_middle.nodup_iff.mp hn)
  have hkeep (l : List α) (hl : key a ∉ l.map key) : l.filter (fun b => key b ≠ key a) = l := by
    refine List.filter_eq_self.mpr fun b hb => decide_eq_true ?_
    exact fun he => hl (he ▸ List.mem_map_of_mem hb)
  rw [List.mem_append, not_or] at hnot
  rw [List.filter_append, List.filter_cons_of_neg (by simp), hkeep pre hnot.1, hkeep rest hnot.2]
  exact List.perm_middle.symm

/-- Looking an entry up by its key finds it. -/
theorem find?_key [DecidableEq κ] {key : α → κ} {as : List α} (hn : (as.map key).Nodup)
    (ha : a ∈ as) : as.find? (fun b => key b = key a) = some a := by
  induction as with
  | nil => cases ha
  | cons b as ih =>
      obtain ⟨hnot, hn⟩ := List.nodup_cons.mp hn
      rcases List.mem_cons.mp ha with rfl | ha
      · simp
      · have hne : key b ≠ key a := fun he => hnot (he ▸ List.mem_map_of_mem ha)
        rw [List.find?_cons_of_neg (by simpa using hne), ih hn ha]

/-- `pos` maps the key of every entry to its slot. -/
def Indexed (f : Nat → κ) (n : Nat) (pos : κ → Int) : Prop := ∀ i, i < n → pos (f i) = i

section Index

variable {f : Nat → κ} {pos : κ → Int} {x : κ} {z : Int}

/-- An indexed table has no key twice. -/
theorem Indexed.injective (h : Indexed f n pos) {j : Nat} (hi : i < n) (hj : j < n)
    (he : f i = f j) : i = j := by
  have hpi := h i hi
  rw [he, h j hj] at hpi
  omega

/-- `pos` inverts the table: a key is at a slot exactly when that slot is in use and
holds it, and every other key is at `z`. -/
structure Inverts (f : Nat → κ) (n : Nat) (pos : κ → Int) (z : Int) : Prop where
  slot : ∀ (x : κ) (i : Nat), pos x = i ↔ i < n ∧ f i = x
  other : ∀ x, (∀ i, i < n → f i ≠ x) → pos x = z

/-- An inverse is an index that sends every key not in the table to `z`. -/
theorem inverts_iff (hz : z < 0) : Inverts f n pos z ↔
    Indexed f n pos ∧ ∀ x, (∀ i, i < n → f i ≠ x) → pos x = z := by
  constructor
  · intro h
    exact ⟨fun i hi => (h.slot _ i).mpr ⟨hi, rfl⟩, h.other⟩
  · rintro ⟨hindex, hother⟩
    refine ⟨fun x i => ⟨fun hx => ?_, ?_⟩, hother⟩
    · by_cases hin : ∃ j, j < n ∧ f j = x
      · obtain ⟨j, hj, rfl⟩ := hin
        have hij : j = i := by
          have := hindex j hj
          omega
        exact ⟨hij ▸ hj, by rw [hij]⟩
      · have hxz := hother x fun j hj he => hin ⟨j, hj, he⟩
        omega
    · rintro ⟨hi, rfl⟩
      exact hindex i hi

/-- An inverse depends on the slots in use only. -/
theorem Inverts.congr {g : Nat → κ} (h : Inverts f n pos z) (hg : ∀ i, i < n → g i = f i) :
    Inverts g n pos z := by
  refine ⟨fun x i => (h.slot x i).trans ?_, fun x hx => h.other x fun i hi => hg i hi ▸ hx i hi⟩
  exact and_congr_right fun hi => by rw [hg i hi]

variable [DecidableEq κ]

/-- A new key goes to the first free slot. -/
theorem Indexed.push (h : Indexed f n pos) (hx : ∀ i, i < n → f i ≠ x) :
    Indexed (Function.update f n x) (n + 1) (Function.update pos x n) := by
  intro i hi
  by_cases hn : i = n
  · simp [hn]
  · have hlt : i < n := by omega
    rw [Function.update_of_ne hn, Function.update_of_ne (hx i hlt)]
    exact h i hlt

/-- When the last entry moves into a slot, its key is sent there; what becomes of
the key removed does not matter. -/
theorem Indexed.remove (h : Indexed f (n + 1) pos) (hd : d ≤ n) :
    Indexed (Function.update f d (f n)) n
      (Function.update (Function.update pos (f d) z) (f n) d) := by
  intro i hi
  by_cases hid : i = d
  · simp [hid]
  · have hn : f i ≠ f n := fun he => by
      have := h.injective (by omega) (by omega) he
      omega
    have hfd : f i ≠ f d := fun he => hid (h.injective (by omega) (by omega) he)
    rw [Function.update_of_ne hid, Function.update_of_ne hn, Function.update_of_ne hfd]
    exact h i (by omega)

/-- A new key in the first free slot keeps the index an inverse. -/
theorem Inverts.push (hz : z < 0) (h : Inverts f n pos z) (hx : ∀ i, i < n → f i ≠ x) :
    Inverts (Function.update f n x) (n + 1) (Function.update pos x n) z := by
  obtain ⟨hindex, hother⟩ := (inverts_iff hz).mp h
  refine (inverts_iff hz).mpr ⟨hindex.push hx, fun y hy => ?_⟩
  have hyx : y ≠ x := by
    have hn := hy n (Nat.lt_succ_self n)
    rw [Function.update_self] at hn
    exact hn.symm
  rw [Function.update_of_ne hyx]
  apply hother
  intro i hi
  have hin := hy i (Nat.lt_succ_of_lt hi)
  rwa [Function.update_of_ne hi.ne] at hin

/-- Filling a slot with the last entry, then sending the key of that entry there, keeps the
index an inverse exactly when the slot is not the last one: there the key removed is
the one sent back. -/
theorem inverts_remove_iff (hz : z < 0) (h : Inverts f (n + 1) pos z) (hd : d ≤ n) :
    Inverts (Function.update f d (f n)) n
      (Function.update (Function.update pos (f d) z) (f n) d) z ↔ d ≠ n := by
  obtain ⟨hindex, hother⟩ := (inverts_iff hz).mp h
  constructor
  · rintro hinv rfl
    have hslot := (hinv.slot (f d) d).mp (by rw [Function.update_self])
    exact absurd hslot.1 (Nat.lt_irrefl d)
  · intro hne
    have hdn : d < n := by omega
    refine (inverts_iff hz).mpr ⟨hindex.remove hd, fun y hy => ?_⟩
    have hyn : y ≠ f n := by
      have hyd := hy d hdn
      rw [Function.update_self] at hyd
      exact hyd.symm
    rw [Function.update_of_ne hyn]
    by_cases hyd : y = f d
    · rw [hyd, Function.update_self]
    · rw [Function.update_of_ne hyd]
      apply hother
      intro i hi
      by_cases hid : i = d
      · exact hid ▸ Ne.symm hyd
      · by_cases hin : i = n
        · exact hin ▸ hyn.symm
        · have hi' := hy i (by omega)
          rwa [Function.update_of_ne hid] at hi'

end Index

end CompactTable
