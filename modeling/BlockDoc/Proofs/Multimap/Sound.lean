/-
# The rules of a search tree in an arena

`Sound` collects what the tree of a multimap obeys between two operations: its links form a
tree, the colours are balanced below a black root, the keys ascend, and the cells of the arena
are the nodes of the tree and the idle ones.  The three things that a multimap does with its
tree keep it: a new node at a vacant spot (`Sound.grow`), a node less (`Sound.delete`), another
chain at a node (`Sound.edit`).

The colour rules bound the height: a tree with `n` nodes and the height `h` has
`2 ^ h ≤ (n + 1) ^ 2`.
-/
import BlockDoc.Proofs.Multimap.Chain
import BlockDoc.Proofs.Multimap.Insertion
import BlockDoc.Proofs.Multimap.Deletion

namespace BlockDoc.Multimap

/-! ## 1. Order and height of a tree -/

/-- Every key in a left subtree is smaller, and every key in a right subtree larger, than the
key of the node. -/
def Ordered : Tree → Prop
  | .leaf => True
  | .node _ l g r =>
    (∀ g' ∈ l.cells, g'.key < g.key) ∧ (∀ g' ∈ r.cells, g.key < g'.key) ∧ Ordered l ∧ Ordered r

/-- The order of the tree is the order of its cells from left to right. -/
theorem ordered_of_ascending {t : Tree} (h : Ascending t.cells) : Ordered t := by
  induction t with
  | leaf => trivial
  | node c l g r ihl ihr =>
    rw [Tree.cells_node, Ascending, List.pairwise_append, List.pairwise_cons] at h
    obtain ⟨hl, ⟨hg, hr⟩, hlr⟩ := h
    exact ⟨fun g' hg' => hlr g' hg' g List.mem_cons_self, hg, ihl hl, ihr hr⟩

/-- A tree has all the nodes that its black levels ask for. -/
theorem Balanced.two_pow_le {t : Tree} {h : Nat} (hb : Balanced t h) :
    2 ^ h ≤ t.slots.length + 1 := by
  induction hb with
  | leaf => exact Nat.le_refl _
  | red _ _ _ _ ihl ihr =>
    rw [Tree.slots_node, List.length_append, List.length_cons]
    omega
  | black _ _ ihl ihr =>
    rw [Tree.slots_node, List.length_append, List.length_cons, Nat.pow_succ]
    omega

/-- At most every other node on a way down is red. -/
theorem Balanced.height_le {t : Tree} {h : Nat} (hb : Balanced t h) :
    t.height ≤ 2 * h + (if t.colour = .red then 1 else 0) := by
  induction hb with
  | leaf => exact Nat.le_refl _
  | red _ _ hl hr ihl ihr =>
    simp only [hl, hr, reduceCtorEq, if_false] at ihl ihr
    simp only [Tree.height, Tree.colour_node, if_true]
    omega
  | @black l r _ _ _ _ ihl ihr =>
    have hle : ∀ c : Colour, (if c = .red then 1 else 0) ≤ 1 := by
      intro c
      cases c <;> decide
    have hl := hle l.colour
    have hr := hle r.colour
    simp only [Tree.height, Tree.colour_node, reduceCtorEq, if_false]
    omega

/-- **The height is at most twice the logarithm of the number of nodes.** -/
theorem Balanced.two_pow_height_le {t : Tree} {h : Nat} (hb : Balanced t h)
    (hc : t.colour = .black) : 2 ^ t.height ≤ (t.slots.length + 1) ^ 2 := by
  have hh : t.height ≤ 2 * h := by simpa [hc] using hb.height_le
  calc 2 ^ t.height ≤ 2 ^ (2 * h) := Nat.pow_le_pow_right (by decide) hh
    _ = (2 ^ h) ^ 2 := by rw [Nat.mul_comm, Nat.pow_mul]
    _ ≤ (t.slots.length + 1) ^ 2 := Nat.pow_le_pow_left hb.two_pow_le 2

/-- The colours do not depend on what the nodes hold. -/
theorem Balanced.replace_cell {π : List Step} {c : Colour} {l r : Tree} {g : Cell} {H : Nat}
    (hb : Balanced (plug π (.node c l g r)) H) (g' : Cell)
    (hc : (plug π (.node c l g r)).colour = .black) :
    ∃ H', Balanced (plug π (.node c l g' r)) H' ∧
      (plug π (.node c l g' r)).colour = .black := by
  obtain ⟨h, hn, hf⟩ := exists_fits hb hc
  have hn' : Balanced (.node c l g' r) h := by
    cases hn with
    | red h1 h2 h3 h4 => exact .red h1 h2 h3 h4
    | black h1 h2 => exact .black h1 h2
  exact balanced_plug hf hn' rfl

/-! ## 2. The rules -/

/-- What the tree of a multimap obeys. -/
structure Forest.Sound (f : Forest) (t : Tree) : Prop where
  /-- The links form the tree. -/
  shows : f.Shows t
  /-- No red node has a red child, and all ways down pass the same number of black nodes. -/
  balanced : ∃ h, Balanced t h
  /-- The root is black. -/
  black : t.colour = .black
  /-- The keys ascend from left to right. -/
  ascending : Ascending t.cells
  /-- A cell is a node of the tree or idle. -/
  splits : f.nodes.Splits t.slots

namespace Forest

variable {f : Forest} {σ : List Step} {c : Colour} {l r t : Tree} {g : Cell} {key : String}

theorem sound_empty : empty.Sound .leaf where
  shows := ⟨rfl, trivial, List.nodup_nil⟩
  balanced := ⟨0, .leaf⟩
  black := rfl
  ascending := List.Pairwise.nil
  splits := Arena.splits_empty

/-- A key between the smaller and the larger ones extends the order. -/
theorem Sound.ascending_insert (h : f.Sound (plug σ .leaf)) (hb : Between σ g.key) :
    Ascending (cellsBefore σ ++ g :: cellsAfter σ) := by
  have ha := h.ascending
  rw [Ascending, cells_plug, Tree.cells_leaf, List.nil_append, List.pairwise_append] at ha
  obtain ⟨hl, hr, hlr⟩ := ha
  refine List.pairwise_append.mpr ⟨hl, List.pairwise_cons.mpr ⟨hb.2, hr⟩, ?_⟩
  intro x hx y hy
  rcases List.mem_cons.mp hy with rfl | hy
  · exact hb.1 x hx
  · exact hlr x hx y hy

/-- **A cell is taken for a new node**, and the tree looks as before. -/
theorem Sound.acquire (h : f.Sound (plug σ .leaf)) (key : String) (link : Nat) :
    ∃ i nodes, f.nodes.acquire
        ⟨key, .red, (spotAt σ).map Prod.fst, none, none, link, link, 1⟩ = .ok (i, nodes) ∧
      Shows { f with nodes } (plug σ .leaf) ∧
      mem { f with nodes } i = some ⟨key, .red, above σ, none, none, link, link, 1⟩ ∧
      i ∉ slotsAround σ ∧ nodes.Splits (i :: (plug σ .leaf).slots) ∧
      nodes.cells.size = max f.nodes.cells.size ((plug σ .leaf).slots.length + 1) := by
  rw [map_fst_spotAt]
  obtain ⟨i, nodes, e, hi, hs, hcell, hother, hgrown⟩ :=
    h.splits.acquire ⟨key, .red, above σ, none, none, link, link, 1⟩
  refine ⟨i, nodes, e, ⟨h.shows.root, h.shows.holds.congr fun j hj => hother j ?_, h.shows.nodup⟩,
    hcell, fun hi' => hi ((slots_plug_perm σ .leaf).mem_iff.mpr hi'), hs, hgrown⟩
  exact fun e => hi (e ▸ hj)

/-- **A new node takes its place in the tree.** -/
theorem Sound.grow (h : f.Sound (plug σ .leaf)) (hb : Between σ key) (link : Nat) :
    ∃ i nodes f' t', f.nodes.acquire
        ⟨key, .red, (spotAt σ).map Prod.fst, none, none, link, link, 1⟩ = .ok (i, nodes) ∧
      attach (spotAt σ) i { f with nodes } = .ok f' ∧ f'.Sound t' ∧
      t'.cells = cellsBefore σ ++ ⟨i, key, link, link, 1⟩ :: cellsAfter σ ∧
      f'.nodes.cells.size = max f.nodes.cells.size t'.slots.length := by
  obtain ⟨i, nodes, e, hshow, hcell, hσ, hs, hgrown⟩ := h.acquire key link
  obtain ⟨H, hH⟩ := h.balanced
  obtain ⟨f', t', H', e', hshow', hb', hc', hcells, hsame⟩ :=
    attach_spec (g := ⟨i, key, link, link, 1⟩) hshow hH h.black hcell hσ
  have hslots : (i :: (plug σ .leaf).slots).Perm t'.slots := by
    rw [Tree.slots, Tree.slots, hcells, cells_plug, Tree.cells_leaf, List.nil_append,
      List.map_append, List.map_append, List.map_cons]
    exact List.perm_middle.symm
  refine ⟨i, nodes, f', t', e, e', ⟨hshow', ⟨H', hb'⟩, hc', ?_, ?_⟩, hcells, ?_⟩
  · rw [hcells]
    exact h.ascending_insert (g := ⟨i, key, link, link, 1⟩) hb
  · exact (hs.congr hsame.size hsame.free).perm hslots
  · rw [← hslots.length_eq]
    exact hsame.size.trans hgrown

/-- **A node less**, and its cell is idle. -/
theorem Sound.delete (h : f.Sound (plug σ (.node c l g r))) :
    ∃ f' t', f.delete g.slot = .ok f' ∧ f'.Sound t' ∧
      t'.cells = cellsBefore σ ++ (l.cells ++ (r.cells ++ cellsAfter σ)) ∧
      f'.nodes.cells.size = f.nodes.cells.size := by
  obtain ⟨H, hH⟩ := h.balanced
  obtain ⟨f', t', H', e, hshow, hb, hc, hcells, hfree, hsize⟩ :=
    delete_spec h.shows hH h.black
  have hcells' : (plug σ (.node c l g r)).cells =
      (cellsBefore σ ++ l.cells) ++ g :: (r.cells ++ cellsAfter σ) := by
    rw [cells_plug, Tree.cells_node]
    simp only [List.append_assoc, List.cons_append]
  have hcells'' : t'.cells = (cellsBefore σ ++ l.cells) ++ (r.cells ++ cellsAfter σ) := by
    rw [hcells, List.append_assoc]
  refine ⟨f', t', e, ⟨hshow, ⟨H', hb⟩, hc, ?_, ?_⟩, hcells, hsize⟩
  · have ha := h.ascending
    rw [hcells', Ascending] at ha
    rw [hcells'', Ascending]
    exact ha.sublist ((List.sublist_cons_self _ _).append_left _)
  · have hp : (plug σ (.node c l g r)).slots.Perm (g.slot :: t'.slots) := by
      rw [Tree.slots, Tree.slots, hcells', hcells'']
      simp only [List.map_append, List.map_cons]
      exact List.perm_middle
    exact ((h.splits.perm hp).release).congr hsize hfree

/-- **Another chain at a node.** -/
theorem Sound.edit (h : f.Sound (plug σ (.node c l g r))) (g' : Cell)
    (hslot : g'.slot = g.slot) (hkey : g'.key = g.key) {k : Node → Node}
    (hk : ∀ p l r, k (g.node c p l r) = g'.node c p l r) :
    ∃ f', f.edit g.slot k = .ok f' ∧ f'.Sound (plug σ (.node c l g' r)) ∧
      f'.nodes.cells.size = f.nodes.cells.size := by
  obtain ⟨f', e, hshow, hsame⟩ := Shows.edit_node (s := .left) (y := g') h.shows hslot hk
  obtain ⟨H, hH⟩ := h.balanced
  obtain ⟨H', hb, hc⟩ := hH.replace_cell g' h.black
  refine ⟨f', e, ⟨hshow, ⟨H', hb⟩, hc, ?_, ?_⟩, hsame.size⟩
  · have ha := h.ascending
    rw [Ascending, ← List.pairwise_map (f := Cell.key) (R := (· < ·)), cells_plug,
      Tree.cells_node] at ha ⊢
    simpa only [List.map_append, List.map_cons, hkey] using ha
  · refine (h.splits.congr hsame.size hsame.free).perm (List.Perm.of_eq ?_)
    rw [Tree.slots, Tree.slots, cells_plug, cells_plug, Tree.cells_node, Tree.cells_node]
    simp only [List.map_append, List.map_cons, hslot]

/-- The bound on the height in terms of the cells in use. -/
theorem Sound.two_pow_height_le (h : f.Sound t) : 2 ^ t.height ≤ (f.nodes.inUse + 1) ^ 2 := by
  obtain ⟨H, hH⟩ := h.balanced
  rw [h.splits.inUse_eq]
  exact hH.two_pow_height_le h.black

end Forest

end BlockDoc.Multimap
