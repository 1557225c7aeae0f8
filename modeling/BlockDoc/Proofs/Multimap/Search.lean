/-
# Looking for a key

In a tree whose keys ascend from left to right, the way down that the comparisons choose leads
to the key, or to the one vacant place between the smaller and the larger keys.
-/
import BlockDoc.Proofs.Multimap.Relink
import Mathlib.Data.String.Basic

namespace BlockDoc.Multimap

/-- The keys ascend from left to right, and none occurs twice. -/
def Ascending (gs : List Cell) : Prop := gs.Pairwise fun g g' => g.key < g'.key

/-- The node above a place with the side of the place. -/
def spotAt (π : List Step) : Option (Nat × Side) :=
  π.head?.map fun st => (st.cell.slot, st.side)

theorem map_fst_spotAt (π : List Step) : (spotAt π).map Prod.fst = above π := by
  cases π <;> rfl

/-- A place lies between the smaller and the larger keys. -/
def Between (π : List Step) (key : String) : Prop :=
  (∀ g ∈ cellsBefore π, g.key < key) ∧ ∀ g ∈ cellsAfter π, key < g.key

namespace Forest

variable {f : Forest} {π : List Step} {t : Tree} {key : String}

/-- One comparison on the way down keeps the place between the smaller and the larger keys. -/
theorem between_left {c : Colour} {l r : Tree} {g : Cell}
    (ha : Ascending (plug π (.node c l g r)).cells) (hb : Between π key) (hk : key < g.key) :
    Between (⟨.left, c, g, r⟩ :: π) key := by
  refine ⟨hb.1, fun g' hg' => ?_⟩
  rcases List.mem_cons.mp hg' with rfl | hg'
  · exact hk
  rcases List.mem_append.mp hg' with hg' | hg'
  · rw [Ascending, cells_plug, List.pairwise_append, List.pairwise_append] at ha
    have h := ha.2.1.1
    rw [Tree.cells_node, List.pairwise_append] at h
    exact lt_trans hk ((List.pairwise_cons.mp h.2.1).1 g' hg')
  · exact hb.2 g' hg'

theorem between_right {c : Colour} {l r : Tree} {g : Cell}
    (ha : Ascending (plug π (.node c l g r)).cells) (hb : Between π key) (hk : g.key < key) :
    Between (⟨.right, c, g, l⟩ :: π) key := by
  refine ⟨fun g' hg' => ?_, hb.2⟩
  rcases List.mem_append.mp hg' with hg' | hg'
  · exact hb.1 g' hg'
  rcases List.mem_append.mp hg' with hg' | hg'
  · rw [Ascending, cells_plug, List.pairwise_append, List.pairwise_append] at ha
    have h := ha.2.1.1
    rw [Tree.cells_node, List.pairwise_append] at h
    exact lt_trans (h.2.2 g' hg' g List.mem_cons_self) hk
  · rw [List.mem_singleton.mp hg']
    exact hk

/-- **The way down finds the key or the place for it.** -/
theorem searchFrom_spec {limit : Nat} (hs : f.Shows (plug π t))
    (ha : Ascending (plug π t).cells) (hb : Between π key) (hh : t.height ≤ limit) :
    (∃ σ c l g r, plug π t = plug σ (.node c l g r) ∧ g.key = key ∧
      f.searchFrom key limit t.root? (spotAt π) = .ok (.found g.slot)) ∨
    (∃ σ, plug π t = plug σ .leaf ∧ Between σ key ∧
      f.searchFrom key limit t.root? (spotAt π) = .ok (.vacant (spotAt σ))) := by
  induction t generalizing π limit with
  | leaf => exact .inr ⟨π, rfl, hb, by cases limit <;> rfl⟩
  | node c l g r ihl ihr =>
    obtain ⟨limit, rfl⟩ : ∃ k, limit = k + 1 := ⟨limit - 1, by simp [Tree.height] at hh; omega⟩
    simp only [Tree.height] at hh
    have hg : f.mem g.slot = some (g.node c (above π) l.root? r.root?) :=
      Shows.mem_join (s := .left) hs
    rcases lt_trichotomy key g.key with hk | hk | hk
    · have hstep : f.searchFrom key (limit + 1) (Tree.node c l g r).root? (spotAt π) =
          f.searchFrom key limit l.root? (spotAt (⟨.left, c, g, r⟩ :: π)) := by
        rw [Tree.root?_node, searchFrom]
        simp only [node_eq hg, ok_bind, Cell.node, if_pos hk]
        rfl
      rw [hstep]
      exact ihl (π := ⟨.left, c, g, r⟩ :: π) hs ha (between_left ha hb hk) (by omega)
    · refine .inl ⟨π, c, l, g, r, rfl, hk.symm, ?_⟩
      rw [Tree.root?_node, searchFrom]
      simp only [node_eq hg, ok_bind, Cell.node, hk, lt_irrefl, if_false]
    · have hstep : f.searchFrom key (limit + 1) (Tree.node c l g r).root? (spotAt π) =
          f.searchFrom key limit r.root? (spotAt (⟨.right, c, g, l⟩ :: π)) := by
        rw [Tree.root?_node, searchFrom]
        simp only [node_eq hg, ok_bind, Cell.node, if_neg (not_lt.mpr hk.le), if_pos hk]
        rfl
      rw [hstep]
      exact ihr (π := ⟨.right, c, g, l⟩ :: π) hs ha (between_right ha hb hk) (by omega)

/-- Looking for a key in the whole tree. -/
theorem search_spec (hs : f.Shows t) (ha : Ascending t.cells) (key : String) :
    (∃ σ c l g r, t = plug σ (.node c l g r) ∧ g.key = key ∧
      f.search key = .ok (.found g.slot)) ∨
    (∃ σ, t = plug σ .leaf ∧ Between σ key ∧ f.search key = .ok (.vacant (spotAt σ))) := by
  rw [search, hs.root]
  exact searchFrom_spec (π := []) hs ha ⟨by simp [cellsBefore], by simp [cellsAfter]⟩
    hs.height_lt_stepLimit.le

/-- The last node on one side is the first or the last in order. -/
theorem outermost_spec {s : Side} {i : Nat} (hs : f.Shows t) (hi : f.root = some i) :
    ∃ g, f.outermost s i = .ok g.slot ∧
      (match s with | .left => t.cells.head? | .right => t.cells.getLast?) = some g := by
  rw [hs.root] at hi
  obtain ⟨σ, d, y, u, rfl, hσ, hy⟩ :=
    outermostFrom_spec (s := s) hs.holds hi hs.height_lt_stepLimit.le
  refine ⟨y, hy, ?_⟩
  rw [cells_plug]
  cases s with
  | left => simp [cellsBefore_of_left hσ, Tree.join]
  | right =>
    have hafter : cellsAfter σ = [] := by
      clear * - hσ
      induction σ with
      | nil => rfl
      | cons st σ ih =>
        obtain ⟨s, c, g, o⟩ := st
        obtain rfl : s = .right := hσ ⟨s, c, g, o⟩ List.mem_cons_self
        exact ih fun st hst => hσ st (List.mem_cons_of_mem _ hst)
    simp [hafter, Tree.join]

end Forest

end BlockDoc.Multimap
