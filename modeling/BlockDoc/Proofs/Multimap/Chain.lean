/-
# Arenas and the chains in them

Two facts about arenas carry the rest.  Every cell is held or idle and never both: the numbers
that are held and the free list together are the numbers of all cells, each once (`Splits`).
And a chain of links, read as the list of its cells with their values, comes apart wherever the
list does (`Chain.append`), so a value is added, taken out or given back by looking at the two
pieces of a list around it.
-/
import BlockDoc.Proofs.Multimap.Search
import BlockDoc.Multimap.Basic

namespace BlockDoc.Multimap

/-! ## 1. Held and idle cells -/

namespace Arena

variable {β : Type} {a : Arena β} {held held' : List Nat} {i : Nat}

/-- Every cell is either one of `held` or idle, and counted once. -/
def Splits (a : Arena β) (held : List Nat) : Prop :=
  (held ++ a.free).Perm (List.range a.cells.size)

theorem splits_empty : (empty : Arena β).Splits [] := List.Perm.refl _

theorem Splits.perm (h : a.Splits held) (hp : held.Perm held') : a.Splits held' :=
  (hp.symm.append_right _).trans h

/-- Only the number of cells and the free list matter. -/
theorem Splits.congr {a' : Arena β} (h : a.Splits held) (hs : a'.cells.size = a.cells.size)
    (hf : a'.free = a.free) : a'.Splits held := by
  rw [Splits, hs, hf]
  exact h

theorem Splits.nodup (h : a.Splits held) : held.Nodup :=
  (List.nodup_append.mp (h.nodup_iff.mpr List.nodup_range)).1

theorem Splits.lt (h : a.Splits held) (hi : i ∈ held) : i < a.cells.size :=
  List.mem_range.mp (h.mem_iff.mp (List.mem_append_left _ hi))

/-- The cells in use and the idle ones are all cells. -/
theorem Splits.length_add (h : a.Splits held) : held.length + a.free.length = a.cells.size := by
  simpa using h.length_eq

/-- The cells in use are the held ones. -/
theorem Splits.inUse_eq (h : a.Splits held) : a.inUse = held.length := by
  rw [inUse, ← h.length_add, Nat.add_sub_cancel]

/-- A held cell becomes idle. -/
theorem Splits.release (h : a.Splits (i :: held)) : (a.release i).Splits held :=
  List.perm_middle.trans h

/-- **Taking a cell never fails.**  It was not held before, it has the content it was taken
for, and every other cell is as it was.  A cell is made only if all others are in use. -/
theorem Splits.acquire (h : a.Splits held) (b : β) :
    ∃ i a', a.acquire b = .ok (i, a') ∧ i ∉ held ∧ a'.Splits (i :: held) ∧
      a'.cells[i]? = some b ∧ (∀ j, j ≠ i → a'.cells[j]? = a.cells[j]?) ∧
      a'.cells.size = max a.cells.size (held.length + 1) := by
  have hnd : (held ++ a.free).Nodup := h.nodup_iff.mpr List.nodup_range
  have hlen := h.length_add
  cases hf : a.free with
  | nil =>
    rw [hf, List.length_nil, Nat.add_zero] at hlen
    refine ⟨a.cells.size, { a with cells := a.cells.push b }, by rw [Arena.acquire, hf], ?_, ?_,
      by simp, ?_, by rw [Array.size_push]; omega⟩
    · intro hi
      exact absurd (h.lt hi) (Nat.lt_irrefl _)
    · have h' : held.Perm (List.range a.cells.size) := by simpa [Splits, hf] using h
      rw [Splits, hf, List.append_nil, Array.size_push, List.range_succ]
      exact (h'.cons _).trans (List.perm_append_singleton _ _).symm
    · intro j hj
      rw [Array.getElem?_push, if_neg hj]
  | cons i rest =>
    have hi : i < a.cells.size :=
      List.mem_range.mp (h.mem_iff.mp (List.mem_append_right _ (by rw [hf]; exact .head _)))
    rw [hf, List.length_cons] at hlen
    refine ⟨i, ⟨a.cells.setIfInBounds i b, rest⟩, ?_, ?_, ?_, ?_, ?_,
      by rw [Array.size_setIfInBounds]; omega⟩
    · rw [Arena.acquire, hf]
      exact if_pos hi
    · intro hi'
      rw [hf] at hnd
      exact (List.nodup_append.mp hnd).2.2 i hi' i List.mem_cons_self rfl
    · have h' : (held ++ i :: rest).Perm (List.range a.cells.size) := by
        simpa [Splits, hf] using h
      rw [Splits, Array.size_setIfInBounds]
      exact List.perm_middle.symm.trans h'
    · simp [hi]
    · intro j hj
      exact Array.getElem?_setIfInBounds_ne (Ne.symm hj)

/-- Changing a held cell. -/
theorem modify_spec {b : β} (hi : a.cells[i]? = some b) (k : β → β) :
    ∃ a', a.modify i k = .ok a' ∧ a'.cells[i]? = some (k b) ∧
      (∀ j, j ≠ i → a'.cells[j]? = a.cells[j]?) ∧ a'.cells.size = a.cells.size ∧
      a'.free = a.free := by
  obtain ⟨hlt, -⟩ := Array.getElem?_eq_some_iff.mp hi
  refine ⟨{ a with cells := a.cells.modify i k }, by rw [modify, if_pos hlt], ?_, ?_, by simp, rfl⟩
  · simp [Array.getElem?_modify, hi]
  · intro j hj
    simp [Array.getElem?_modify, Ne.symm hj]

theorem read_eq {b : β} (hi : a.cells[i]? = some b) : a.read i = .ok b := by
  rw [read, hi]

end Arena

/-! ## 2. Chains -/

variable {α : Type}

/-- The number of the first cell of a list, or of what follows an empty one. -/
def front (xs : List (Nat × α)) (stop : Option Nat) : Option Nat :=
  match xs with
  | [] => stop
  | x :: _ => some x.1

/-- The cells of a list are linked in this order, each with its value, and the last one points
to `stop`. -/
def Chain (links : Arena (Link α)) : List (Nat × α) → Option Nat → Prop
  | [], _ => True
  | (i, v) :: rest, stop =>
    links.cells[i]? = some ⟨some v, front rest stop⟩ ∧ Chain links rest stop

@[simp] theorem front_nil (stop : Option Nat) : front ([] : List (Nat × α)) stop = stop := rfl
@[simp] theorem front_cons (x : Nat × α) (xs : List (Nat × α)) (stop : Option Nat) :
    front (x :: xs) stop = some x.1 := rfl

variable {links links' : Arena (Link α)} {xs ys : List (Nat × α)} {stop : Option Nat}

@[simp] theorem front_append : front (xs ++ ys) stop = front xs (front ys stop) := by
  cases xs <;> rfl

/-- A chain comes apart wherever its list does. -/
theorem Chain.append :
    Chain links (xs ++ ys) stop ↔ Chain links xs (front ys stop) ∧ Chain links ys stop := by
  induction xs with
  | nil => simp [Chain]
  | cons x xs ih =>
    obtain ⟨i, v⟩ := x
    rw [List.cons_append, Chain, Chain, ih, front_append, and_assoc]

/-- A chain depends on its own cells only. -/
theorem Chain.congr (h : Chain links xs stop)
    (hl : ∀ i ∈ xs.map Prod.fst, links'.cells[i]? = links.cells[i]?) : Chain links' xs stop := by
  induction xs with
  | nil => trivial
  | cons x xs ih =>
    obtain ⟨i, v⟩ := x
    simp only [List.map_cons, List.mem_cons] at hl
    exact ⟨by rw [hl i (.inl rfl)]; exact h.1, ih h.2 fun j hj => hl j (.inr hj)⟩

theorem Chain.lt (h : Chain links xs stop) {i : Nat} (hi : i ∈ xs.map Prod.fst) :
    i < links.cells.size := by
  induction xs with
  | nil => simp at hi
  | cons x xs ih =>
    obtain ⟨j, v⟩ := x
    rcases List.mem_cons.mp hi with rfl | hi
    · obtain ⟨hlt, -⟩ := Array.getElem?_eq_some_iff.mp h.1
      exact hlt
    · exact ih h.2 hi

/-- A chain without repetition has no more links than there are cells. -/
theorem Chain.length_le (h : Chain links xs stop) (hd : (xs.map Prod.fst).Nodup) :
    xs.length ≤ links.cells.size := by
  have hsub : xs.map Prod.fst ⊆ List.range links.cells.size := by
    intro i hi
    exact List.mem_range.mpr (h.lt hi)
  simpa using (List.subperm_of_subset hd hsub).length_le

/-- Reading a chain to its end. -/
theorem Chain.valuesFrom_eq {limit : Nat} (h : Chain links xs none) (hl : xs.length < limit) :
    valuesFrom links limit (front xs none) = xs.map Prod.snd := by
  induction xs generalizing limit with
  | nil => cases limit <;> rfl
  | cons x xs ih =>
    obtain ⟨i, v⟩ := x
    obtain ⟨limit, rfl⟩ : ∃ k, limit = k + 1 := ⟨limit - 1, by omega⟩
    simp only [List.length_cons] at hl
    simp [valuesFrom, h.1, ih h.2 (Nat.lt_of_succ_lt_succ hl)]

/-- Walking down a chain ends at the next cell, and knows the one in front of it. -/
theorem Chain.walk_eq {x : Nat × α} {i : Nat} (h : Chain links (xs ++ x :: ys) stop)
    (before : Option Nat) (hi : front (xs ++ x :: ys) stop = some i) :
    walkChain links xs.length before i = .ok ((xs.getLast?.map Prod.fst).or before, x.1) := by
  induction xs generalizing before i with
  | nil =>
    obtain rfl : x.1 = i := by simpa using hi
    rfl
  | cons y xs ih =>
    obtain ⟨j, v⟩ := y
    obtain rfl : j = i := by simpa using hi
    obtain ⟨k, hk⟩ : ∃ k, front (xs ++ x :: ys) stop = some k := by
      cases xs <;> exact ⟨_, rfl⟩
    have hlast : (((j, v) :: xs).getLast?.map Prod.fst).or before =
        (xs.getLast?.map Prod.fst).or (some j) := by
      cases xs <;> simp [List.getLast?_cons]
    rw [List.cons_append, Chain, hk] at h
    rw [List.length_cons, walkChain, Arena.read_eq h.1, hlast]
    exact ih h.2 (some j) hk

/-- Giving one cell back. -/
theorem freeLink_spec {i : Nat} {l : Link α} {held : List Nat} (hi : links.cells[i]? = some l)
    (hs : links.Splits (i :: held)) :
    ∃ links', freeLink links i = .ok (l.value, links') ∧ links'.Splits held ∧
      (∀ j, j ≠ i → links'.cells[j]? = links.cells[j]?) ∧
      links'.cells.size = links.cells.size := by
  obtain ⟨l', e, -, ho, hsize, hfree⟩ := Arena.modify_spec hi fun _ => ⟨none, none⟩
  refine ⟨l'.release i, ?_, (hs.congr hsize hfree).release, ho, hsize⟩
  simp only [freeLink, Arena.read_eq hi, ok_bind, e]

/-- Giving a whole chain back. -/
theorem freeChain_spec {limit : Nat} {held : List Nat} (h : Chain links xs none)
    (hs : links.Splits (xs.map Prod.fst ++ held)) (hl : xs.length < limit) :
    ∃ links', freeChain limit (front xs none) links = .ok (xs.map Prod.snd, links') ∧
      links'.Splits held ∧ (∀ j ∈ held, links'.cells[j]? = links.cells[j]?) ∧
      links'.cells.size = links.cells.size := by
  induction xs generalizing links limit with
  | nil => exact ⟨links, by cases limit <;> rfl, hs, fun _ _ => rfl, rfl⟩
  | cons x xs ih =>
    obtain ⟨i, v⟩ := x
    obtain ⟨limit, rfl⟩ : ∃ k, limit = k + 1 := ⟨limit - 1, by omega⟩
    simp only [List.length_cons] at hl
    have hnd := hs.nodup
    rw [List.map_cons, List.cons_append, List.nodup_cons] at hnd
    obtain ⟨l1, e1, hs1, ho1, hsize1⟩ := freeLink_spec h.1 hs
    have h1 : Chain l1 xs none := h.2.congr fun j hj =>
      ho1 j fun e => hnd.1 (List.mem_append_left _ (e ▸ hj))
    obtain ⟨l2, e2, hs2, ho2, hsize2⟩ := ih h1 hs1 (Nat.lt_of_succ_lt_succ hl)
    refine ⟨l2, ?_, hs2, ?_, hsize2.trans hsize1⟩
    · simp only [front_cons, freeChain, Arena.read_eq h.1, ok_bind, e1, e2]
      rfl
    · intro j hj
      rw [ho2 j hj, ho1 j fun e => hnd.1 (List.mem_append_right _ (e ▸ hj))]

end BlockDoc.Multimap
