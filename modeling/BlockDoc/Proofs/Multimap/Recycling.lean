/-
# No cell is lost, and none is made without need

Cells of both arenas are given back and used again, while old nodes still hold the ends of chains
that are gone.  That nothing gets mixed up is part of the invariant: a cell is in use at one place
or idle (`Stores`), so a change that keeps the invariant separates what it takes from all the rest.

How many cells there are is not part of it, because that depends on what happened before.  A single
change says enough: a removal makes no cell, and an insertion makes one only if all others are in
use (`Stores.growsTo_onMap`).  Along a run the number of cells is therefore the largest number that
was in use at any time since the map was last cleared (`isGreatest_cells`).
-/
import BlockDoc.Proofs.Multimap.Refinement
import Mathlib.Data.List.Induction
import Mathlib.Order.Bounds.Basic

namespace BlockDoc.Multimap

variable {α : Type} {m : Multimap α} {t : Tree} {bs : List (Bunch α)}
variable {ops : List (Op α)} {op : Op α}

/-! ## 1. One change -/

/-- **A change makes no more cells than are in use after it**, unless there were more before.  Only
clearing takes cells away. -/
theorem Stores.growsTo_onMap (h : m.Stores t bs) (hop : op ≠ .clear) :
    m.GrowsTo (op.onMap m).2 := by
  cases op with
  | insert key value =>
    obtain ⟨m', t', bs', e, -, -, hgrows⟩ := h.insert key value
    simp only [Op.onMap, Multimap.insert, e]
    exact hgrows
  | remove key index =>
    obtain ⟨m', t', bs', e, hs', -, hsame⟩ := h.remove key index
    simp only [Op.onMap, Multimap.remove, e]
    exact hs'.growsTo hsame
  | removeAll key =>
    obtain ⟨m', t', bs', e, hs', -, hsame⟩ := h.removeAll key
    simp only [Op.onMap, Multimap.removeAll, e]
    exact hs'.growsTo hsame
  | clear => exact absurd rfl hop

/-! ## 2. What happened before -/

/-- The map that some changes make of the empty one. -/
def after (ops : List (Op α)) : Multimap α := (run Op.onMap ops empty).2

/-- The maps on the way, from the beginning or from the last time that the map was cleared. -/
def since (ops : List (Op α)) : Set (Multimap α) :=
  {m | ∃ before later, ops = before ++ later ∧ .clear ∉ later ∧ after before = m}

/-- The last change comes after all others. -/
theorem run_concat {σ : Type} (step : Op α → σ → Reply α × σ) (ops : List (Op α)) (op : Op α)
    (s : σ) : (run step (ops ++ [op]) s).2 = (step op (run step ops s).2).2 := by
  induction ops generalizing s with
  | nil => rfl
  | cons op' ops ih => exact ih _

theorem after_concat (ops : List (Op α)) (op : Op α) :
    after (ops ++ [op]) = (op.onMap (after ops)).2 := run_concat _ _ _ _

theorem stores_after (ops : List (Op α)) : ∃ t bs, (after ops).Stores t bs := by
  obtain ⟨-, t, bs, hs, -⟩ := refines_empty.run ops
  exact ⟨t, bs, hs⟩

theorem since_nil : since ([] : List (Op α)) = {empty} := by
  ext m
  constructor
  · rintro ⟨before, later, hops, -, rfl⟩
    obtain ⟨rfl, -⟩ := List.append_eq_nil_iff.mp hops.symm
    rfl
  · rintro rfl
    exact ⟨[], [], rfl, List.not_mem_nil, rfl⟩

/-- Clearing starts again. -/
theorem since_clear (ops : List (Op α)) : since (ops ++ [.clear]) = {empty} := by
  ext m
  constructor
  · rintro ⟨before, later, hops, hclear, rfl⟩
    rcases List.eq_nil_or_concat' later with rfl | ⟨later, op, rfl⟩
    · rw [List.append_nil] at hops
      rw [← hops, after_concat]
      rfl
    · rw [← List.append_assoc] at hops
      obtain ⟨-, rfl⟩ := List.append_singleton_inj.mp hops
      exact absurd (List.mem_append_right _ (List.mem_singleton_self _)) hclear
  · rintro rfl
    exact ⟨ops ++ [.clear], [], (List.append_nil _).symm, List.not_mem_nil, after_concat _ _⟩

/-- Any other change adds one map. -/
theorem since_concat (hop : op ≠ .clear) :
    since (ops ++ [op]) = Insert.insert (after (ops ++ [op])) (since ops) := by
  ext m
  constructor
  · rintro ⟨before, later, hops, hclear, rfl⟩
    rcases List.eq_nil_or_concat' later with rfl | ⟨later, op', rfl⟩
    · rw [List.append_nil] at hops
      rw [hops]
      exact Set.mem_insert _ _
    · rw [← List.append_assoc] at hops
      obtain ⟨hops, -⟩ := List.append_singleton_inj.mp hops
      exact .inr ⟨before, later, hops, fun h => hclear (List.mem_append_left _ h), rfl⟩
  · rintro (rfl | ⟨before, later, rfl, hclear, rfl⟩)
    · exact ⟨ops ++ [op], [], (List.append_nil _).symm, List.not_mem_nil, rfl⟩
    · refine ⟨before, later ++ [op], List.append_assoc _ _ _, fun h => ?_, rfl⟩
      rcases List.mem_append.mp h with h | h
      · exact hclear h
      · exact hop (List.mem_singleton.mp h).symm

/-! ## 3. Every run -/

/-- **There are as many cells as were ever in use at once.** -/
theorem isGreatest_cells (ops : List (Op α)) :
    IsGreatest (keyCount '' since ops) (after ops).forest.nodes.cells.size ∧
      IsGreatest (size '' since ops) (after ops).links.cells.size := by
  induction ops using List.reverseRecOn with
  | nil =>
    rw [since_nil, Set.image_singleton, Set.image_singleton]
    exact ⟨isGreatest_singleton, isGreatest_singleton⟩
  | append_singleton ops op ih =>
    by_cases hop : op = .clear
    · subst hop
      rw [since_clear, Set.image_singleton, Set.image_singleton, after_concat]
      exact ⟨isGreatest_singleton, isGreatest_singleton⟩
    · -- the new map is one more on the way, and the arenas have grown to it or are as before
      obtain ⟨t, bs, hs⟩ := stores_after ops
      have hgrows := hs.growsTo_onMap hop
      rw [← after_concat] at hgrows
      rw [since_concat hop, Set.image_insert_eq, Set.image_insert_eq, hgrows.nodes, hgrows.links,
        Nat.max_comm, Nat.max_comm (after ops).links.cells.size]
      exact ⟨ih.1.insert _, ih.2.insert _⟩

/-- After some changes, every cell of the map is in use at one place or idle, and there are no more
cells than were in use at once. -/
structure Tidy (ops : List (Op α)) (t : Tree) (bs : List (Bunch α)) : Prop where
  /-- The links of the nodes form a tree. -/
  shows : (after ops).forest.Shows t
  /-- A cell for nodes is in the tree, once, or idle, once. -/
  nodes : (after ops).forest.nodes.Splits t.slots
  /-- Every node of the tree has a chain. -/
  cells : bs.map Bunch.cell = t.cells
  /-- The chain runs from the head of the node to its tail, has a value at every link, ends there,
  and is as long as the node says. -/
  linked : ∀ b ∈ bs, b.Linked (after ops).links
  /-- A cell for links is in one chain, once, or idle, once. -/
  links : (after ops).links.Splits (bs.flatMap Bunch.slots)
  /-- The number of keys is that of the distinct keys of the pairs. -/
  keyCount : (after ops).keyCount = (keysOf (run Op.onPairs ops []).2).length
  /-- There were once as many keys as there are cells for nodes, and never more. -/
  nodePeak : IsGreatest (Multimap.keyCount '' since ops) (after ops).forest.nodes.cells.size
  /-- There were once as many values as there are cells for links, and never more. -/
  linkPeak : IsGreatest (Multimap.size '' since ops) (after ops).links.cells.size

/-- **No cell is lost, whatever was changed**: the nodes of the tree and the idle ones are all cells
for nodes, the links of the chains and the idle ones are all cells for links, and both arenas are as
large as they had to be at one time since the map was last cleared. -/
theorem run_tidy (ops : List (Op α)) : ∃ t bs, Tidy ops t bs := by
  have hrefines : (after ops).Refines (run Op.onPairs ops []).2 := (refines_empty.run ops).2
  have hobserves := hrefines.observes
  obtain ⟨t, bs, hs, -⟩ := hrefines
  exact ⟨t, bs, hs.sound.shows, hs.sound.splits, hs.cells, hs.linked, hs.splits,
    hobserves.keyCount, (isGreatest_cells ops).1, (isGreatest_cells ops).2⟩

end BlockDoc.Multimap
