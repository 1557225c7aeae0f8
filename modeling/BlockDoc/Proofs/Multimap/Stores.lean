/-
# What a multimap stores

`Stores` is the invariant of a multimap: its tree obeys the rules, every node has its chain, and
the cells of both arenas are in use or idle.  What it stores is then a list of pairs, and the
pairs under one key are all that an operation changes: each of the three operations succeeds,
keeps the invariant, and is described by what lies under each key before and after.
-/
import BlockDoc.Proofs.Multimap.Bunch

namespace BlockDoc.Multimap

variable {α : Type}

/-! ## 1. Pairs under a key -/

/-- The values of the pairs with a key, in order. -/
def under (ps : List (String × α)) (key : String) : List α :=
  (ps.filter fun p => p.1 = key).map Prod.snd

/-- All pairs of a list of bunches. -/
def pairsOf (bs : List (Bunch α)) : List (String × α) :=
  bs.flatMap fun b => b.values.map fun v => (b.cell.key, v)

theorem under_append (ps qs : List (String × α)) (key : String) :
    under (ps ++ qs) key = under ps key ++ under qs key := by
  simp [under]

theorem pairsOf_cons (b : Bunch α) (bs : List (Bunch α)) :
    pairsOf (b :: bs) = (b.values.map fun v => (b.cell.key, v)) ++ pairsOf bs := rfl

theorem pairsOf_append (bs bs' : List (Bunch α)) :
    pairsOf (bs ++ bs') = pairsOf bs ++ pairsOf bs' := List.flatMap_append

/-- The pairs of one bunch. -/
theorem under_map (vs : List α) (key key' : String) :
    under (vs.map fun v => (key, v)) key' = if key = key' then vs else [] := by
  rw [under, List.filter_map, List.map_map]
  by_cases h : key = key' <;> simp [h, Function.comp_def]

/-- Keys that no bunch has. -/
theorem under_of_forall_ne {bs : List (Bunch α)} {key : String}
    (h : ∀ b ∈ bs, b.cell.key ≠ key) : under (pairsOf bs) key = [] := by
  induction bs with
  | nil => rfl
  | cons b bs ih =>
    rw [pairsOf_cons, under_append, under_map, if_neg (h b List.mem_cons_self),
      ih fun b' hb' => h b' (List.mem_cons_of_mem _ hb')]
    rfl

/-- One bunch among others with other keys. -/
theorem under_middle {xs ys : List (Bunch α)} {b : Bunch α}
    (h : ∀ b' ∈ xs ++ ys, b'.cell.key ≠ b.cell.key) (key : String) :
    under (pairsOf (xs ++ b :: ys)) key =
      if key = b.cell.key then b.values else under (pairsOf (xs ++ ys)) key := by
  rw [pairsOf_append, pairsOf_cons, pairsOf_append, under_append, under_append, under_append,
    under_map]
  by_cases hk : key = b.cell.key
  · subst hk
    have hx := under_of_forall_ne fun b' hb' => h b' (List.mem_append_left _ hb')
    have hy := under_of_forall_ne fun b' hb' => h b' (List.mem_append_right _ hb')
    rw [hx, hy, if_pos rfl, if_pos rfl, List.nil_append, List.append_nil]
  · rw [if_neg (Ne.symm hk), if_neg hk, List.nil_append]

/-! ## 2. The invariant -/

/-- The map `m` stores the bunches `bs`, in the order of the tree `t`. -/
structure Stores (m : Multimap α) (t : Tree) (bs : List (Bunch α)) : Prop where
  /-- The tree obeys its rules. -/
  sound : m.forest.Sound t
  /-- Every node has its bunch. -/
  cells : bs.map Bunch.cell = t.cells
  /-- Every node knows its chain. -/
  linked : ∀ b ∈ bs, b.Linked m.links
  /-- A link lies in one chain, at one position, or is idle. -/
  splits : m.links.Splits (bs.flatMap Bunch.slots)
  /-- The values are counted. -/
  size : m.size = (pairsOf bs).length

theorem stores_empty : (empty : Multimap α).Stores .leaf [] where
  sound := Forest.sound_empty
  cells := rfl
  linked := by simp
  splits := Arena.splits_empty
  size := rfl

theorem length_pairsOf (bs : List (Bunch α)) :
    (pairsOf bs).length = (bs.flatMap Bunch.slots).length := by
  induction bs with
  | nil => rfl
  | cons b bs ih =>
    rw [pairsOf_cons, List.flatMap_cons, List.length_append, List.length_append, ih]
    simp [Bunch.values, Bunch.slots]

theorem slots_perm (xs : List (Bunch α)) (b : Bunch α) (ys : List (Bunch α)) :
    ((xs ++ b :: ys).flatMap Bunch.slots).Perm (b.slots ++ (xs ++ ys).flatMap Bunch.slots) := by
  rw [List.flatMap_append, List.flatMap_cons, List.flatMap_append, ← List.append_assoc,
    ← List.append_assoc]
  exact List.perm_append_comm.append_right _

variable {m : Multimap α} {t : Tree} {bs xs ys : List (Bunch α)} {b : Bunch α} {key : String}

/-- The invariant around one bunch. -/
theorem stores_middle {f : Forest} {links : Arena (Link α)} {size : Nat} :
    Stores ⟨f, links, size⟩ t (xs ++ b :: ys) ↔
      f.Sound t ∧ xs.map Bunch.cell ++ b.cell :: ys.map Bunch.cell = t.cells ∧
        b.Linked links ∧ (∀ b' ∈ xs ++ ys, b'.Linked links) ∧
        links.Splits (b.slots ++ (xs ++ ys).flatMap Bunch.slots) ∧
        size = (b.slots ++ (xs ++ ys).flatMap Bunch.slots).length := by
  have hp := slots_perm xs b ys
  constructor
  · rintro ⟨h1, h2, h3, h4, h5⟩
    refine ⟨h1, by rw [← h2]; simp, h3 b (by simp), fun b' hb' => h3 b' ?_, h4.perm hp, ?_⟩
    · rcases List.mem_append.mp hb' with hb' | hb' <;> simp [hb']
    · rw [← hp.length_eq, ← length_pairsOf]
      exact h5
  · rintro ⟨h1, h2, h3, h4, h5, h6⟩
    refine ⟨h1, by rw [← h2]; simp, fun b' hb' => ?_, h5.perm hp.symm, ?_⟩
    · rcases List.mem_append.mp hb' with hb' | hb'
      · exact h4 b' (List.mem_append_left _ hb')
      rcases List.mem_cons.mp hb' with rfl | hb'
      · exact h3
      · exact h4 b' (List.mem_append_right _ hb')
    · rw [length_pairsOf, hp.length_eq]
      exact h6

/-- Both arenas have the cells they had, and no others. -/
structure SameSize (m m' : Multimap α) : Prop where
  /-- The number of cells for nodes. -/
  nodes : m'.forest.nodes.cells.size = m.forest.nodes.cells.size
  /-- The number of cells for links. -/
  links : m'.links.cells.size = m.links.cells.size

/-- Both arenas have made a cell only where all the others are in use. -/
structure GrowsTo (m m' : Multimap α) : Prop where
  /-- The number of cells for nodes. -/
  nodes : m'.forest.nodes.cells.size = max m.forest.nodes.cells.size m'.keyCount
  /-- The number of cells for links. -/
  links : m'.links.cells.size = max m.links.cells.size m'.size

/-- The values are the links in use. -/
theorem Stores.size_eq (h : m.Stores t bs) : m.size = m.links.inUse := by
  rw [h.size, length_pairsOf, h.splits.inUse_eq]

/-- Without new cells there are still enough. -/
theorem Stores.growsTo {m' : Multimap α} (h : m'.Stores t bs) (hsame : m.SameSize m') :
    m.GrowsTo m' where
  nodes := by
    rw [hsame.nodes, Nat.max_eq_left]
    exact (Nat.sub_le _ _).trans_eq hsame.nodes
  links := by
    rw [hsame.links, h.size_eq, Nat.max_eq_left]
    exact (Nat.sub_le _ _).trans_eq hsame.links

/-- The node of a key was found, and its bunch stands between those of the other keys. -/
structure FoundAt (m : Multimap α) (σ : List Step) (c : Colour) (l r : Tree)
    (xs : List (Bunch α)) (b : Bunch α) (ys : List (Bunch α)) : Prop where
  stores : m.Stores (plug σ (.node c l b.cell r)) (xs ++ b :: ys)
  before : xs.map Bunch.cell = cellsBefore σ ++ l.cells
  after : ys.map Bunch.cell = r.cells ++ cellsAfter σ
  others : ∀ b' ∈ xs ++ ys, b'.cell.key ≠ b.cell.key
  search : m.forest.search b.cell.key = .ok (.found b.cell.slot)

/-- **Looking for a key** finds its bunch, or the place between the bunches where it would be. -/
theorem Stores.search_cases (h : m.Stores t bs) (key : String) :
    (∃ σ c l r xs b ys, t = plug σ (.node c l b.cell r) ∧ bs = xs ++ b :: ys ∧
      b.cell.key = key ∧ m.FoundAt σ c l r xs b ys) ∨
    (∃ σ xs ys, t = plug σ .leaf ∧ bs = xs ++ ys ∧ xs.map Bunch.cell = cellsBefore σ ∧
      ys.map Bunch.cell = cellsAfter σ ∧ Between σ key ∧ (∀ b' ∈ xs ++ ys, b'.cell.key ≠ key) ∧
      m.forest.search key = .ok (.vacant (spotAt σ))) := by
  have hcells := h.cells
  rcases Forest.search_spec h.sound.shows h.sound.ascending key with
    ⟨σ, c, l, g, r, rfl, rfl, hs⟩ | ⟨σ, rfl, hb, hs⟩
  · have hsplit : (plug σ (.node c l g r)).cells =
        (cellsBefore σ ++ l.cells) ++ g :: (r.cells ++ cellsAfter σ) := by
      rw [cells_plug, Tree.cells_node]
      simp only [List.append_assoc, List.cons_append]
    have ha := h.sound.ascending
    rw [hsplit] at hcells
    rw [hsplit, Ascending, List.pairwise_append, List.pairwise_cons] at ha
    obtain ⟨xs, zs, rfl, hx, hz⟩ := List.map_eq_append_iff.mp hcells
    obtain ⟨b, ys, rfl, rfl, hy⟩ := List.map_eq_cons_iff.mp hz
    refine .inl ⟨σ, c, l, r, xs, b, ys, rfl, rfl, rfl, h, hx, hy, fun b' hb' => ?_, hs⟩
    rcases List.mem_append.mp hb' with hb' | hb'
    · exact (ha.2.2 b'.cell (hx ▸ List.mem_map_of_mem hb') b.cell List.mem_cons_self).ne
    · exact (ha.2.1.1 b'.cell (hy ▸ List.mem_map_of_mem hb')).ne'
  · rw [cells_plug, Tree.cells_leaf, List.nil_append] at hcells
    obtain ⟨xs, ys, rfl, hx, hy⟩ := List.map_eq_append_iff.mp hcells
    refine .inr ⟨σ, xs, ys, rfl, rfl, hx, hy, hb, ?_, hs⟩
    intro b' hb'
    rcases List.mem_append.mp hb' with hb' | hb'
    · exact (hb.1 b'.cell (hx ▸ List.mem_map_of_mem hb')).ne
    · exact (hb.2 b'.cell (hy ▸ List.mem_map_of_mem hb')).ne'

section Found

variable {σ : List Step} {c : Colour} {l r : Tree}

/-- The cells around a node, and those of the bunches around its bunch. -/
theorem FoundAt.cells_around (h : m.FoundAt σ c l r xs b ys) (g : Cell) :
    xs.map Bunch.cell ++ g :: ys.map Bunch.cell = (plug σ (.node c l g r)).cells := by
  rw [h.before, h.after, cells_plug, Tree.cells_node]
  simp only [List.append_assoc, List.cons_append]

theorem FoundAt.node (h : m.FoundAt σ c l r xs b ys) :
    m.forest.node b.cell.slot = .ok (b.cell.node c (above σ) l.root? r.root?) :=
  Forest.node_eq (Forest.Shows.mem_join (s := .left) h.stores.sound.shows)

/-- The values under the key that was found. -/
theorem FoundAt.under_self (h : m.FoundAt σ c l r xs b ys) :
    under (pairsOf (xs ++ b :: ys)) b.cell.key = b.values := by
  rw [under_middle h.others, if_pos rfl]

/-- Without the bunch there is nothing under its key. -/
theorem FoundAt.under_without (h : m.FoundAt σ c l r xs b ys) (k : String) :
    under (pairsOf (xs ++ ys)) k =
      if k = b.cell.key then [] else under (pairsOf (xs ++ b :: ys)) k := by
  rw [under_middle h.others]
  by_cases hk : k = b.cell.key
  · rw [if_pos hk, hk, under_of_forall_ne h.others]
  · rw [if_neg hk, if_neg hk]

/-- With another bunch there is something else under its key. -/
theorem FoundAt.under_replaced (h : m.FoundAt σ c l r xs b ys) {b' : Bunch α}
    (hkey : b'.cell.key = b.cell.key) (k : String) :
    under (pairsOf (xs ++ b' :: ys)) k =
      if k = b.cell.key then b'.values else under (pairsOf (xs ++ b :: ys)) k := by
  rw [under_middle (by rw [hkey]; exact h.others), under_middle h.others, hkey]
  split <;> rfl

/-! ## 3. Adding a value -/

/-- **A value is added to a known key**: its chain gets longer. -/
theorem FoundAt.extend (h : m.FoundAt σ c l r xs b ys) {v : α} {link : Nat}
    {links1 : Arena (Link α)} (hlinked : ∀ b' ∈ xs ++ b :: ys, b'.Linked links1)
    (hs1 : links1.Splits (link :: (xs ++ b :: ys).flatMap Bunch.slots))
    (hlink : link ∉ (xs ++ b :: ys).flatMap Bunch.slots)
    (hcell : links1.cells[link]? = some ⟨some v, none⟩) :
    ∃ f' links' t', Multimap.extend ⟨m.forest, links1, m.size + 1⟩ b.cell.slot link =
        .ok ⟨f', links', m.size + 1⟩ ∧
      Stores ⟨f', links', m.size + 1⟩ t' (xs ++ b.extended link v :: ys) ∧
      f'.nodes.cells.size = m.forest.nodes.cells.size ∧
      links'.cells.size = links1.cells.size := by
  obtain ⟨hf, -, -, -, hs, hsize⟩ := stores_middle.mp h.stores
  have hnd := hs.nodup
  rw [List.nodup_append] at hnd
  rw [(slots_perm xs b ys).mem_iff, List.mem_append, not_or] at hlink
  obtain ⟨links2, e2, hb2, hother2, hsize2, hfree2⟩ :=
    (hlinked b (by simp)).extend hnd.1 hlink.1 hcell
  obtain ⟨f', e3, hf', hnodes⟩ := hf.edit (b.extended link v).cell rfl rfl
    (k := fun n => { n with tail := link, count := n.count + 1 }) fun _ _ _ => rfl
  refine ⟨f', links2, _, ?_, stores_middle.mpr ⟨hf', h.cells_around _, hb2, ?_, ?_, ?_⟩, hnodes,
    hsize2⟩
  · simp only [Multimap.extend, h.node, ok_bind, Cell.node, e2, e3]
  · intro b' hb'
    refine (hlinked b' ?_).congr fun i hi => hother2 i fun hi' => ?_
    · rcases List.mem_append.mp hb' with hb' | hb' <;> simp [hb']
    · exact hnd.2.2 i hi' i (List.mem_flatMap.mpr ⟨b', hb', hi⟩) rfl
  · refine (hs1.congr hsize2 hfree2).perm (((slots_perm xs b ys).cons link).trans ?_)
    rw [Bunch.slots, Bunch.slots, Bunch.extended, List.map_append, List.append_assoc]
    exact List.perm_middle.symm
  · rw [hsize]
    simp only [Bunch.extended, Bunch.slots, List.length_append, List.length_map,
      List.length_cons, List.length_nil]
    omega

end Found

/-- **Adding a value** puts it behind the others under its key. -/
theorem Stores.insert (h : m.Stores t bs) (key : String) (v : α) :
    ∃ m' t' bs', m.insertChecked key v = .ok m' ∧ m'.Stores t' bs' ∧
      (∀ k, under (pairsOf bs') k =
        if k = key then under (pairsOf bs) key ++ [v] else under (pairsOf bs) k) ∧
      m.GrowsTo m' := by
  obtain ⟨link, links1, e1, hlink, hs1, hcell, hother, hgrown⟩ := h.splits.acquire ⟨some v, none⟩
  rw [← length_pairsOf, ← h.size] at hgrown
  have hkeep : ∀ b ∈ bs, b.Linked links1 := by
    intro b hb
    refine (h.linked b hb).congr fun i hi => hother i fun e => hlink ?_
    exact List.mem_flatMap.mpr ⟨b, hb, e ▸ hi⟩
  rcases h.search_cases key with
    ⟨σ, c, l, r, xs, b, ys, rfl, rfl, rfl, hfound⟩ |
    ⟨σ, xs, ys, rfl, rfl, hx, hy, hbetween, hne, hsearch⟩
  · obtain ⟨f', links2, t', e2, hs', hnodes, hlinks⟩ := hfound.extend hkeep hs1 hlink hcell
    refine ⟨_, t', _, ?_, hs', fun k => ?_, ?_, hlinks.trans hgrown⟩
    · simp only [insertChecked, e1, ok_bind, hfound.search, e2]
    · have hkey : (b.extended link v).cell.key = b.cell.key := rfl
      rw [hfound.under_replaced hkey, hfound.under_self, b.values_extended]
    · exact hnodes.trans (Nat.max_eq_left ((Nat.sub_le _ _).trans_eq hnodes)).symm
  · -- a new key: a node with a chain of one link
    obtain ⟨i, nodes, f', t', e2, e3, hf', hcells, hnodes⟩ := h.sound.grow hbetween link
    refine ⟨⟨f', links1, m.size + 1⟩, t', xs ++ ⟨⟨i, key, link, link, 1⟩, [(link, v)]⟩ :: ys, ?_,
      stores_middle.mpr ⟨hf', ?_, ⟨⟨hcell, trivial⟩, rfl, rfl, rfl⟩, hkeep, hs1, ?_⟩, ?_, ?_,
      hgrown⟩
    · simp only [insertChecked, e1, ok_bind, hsearch, found, e2, e3]
    · rw [hcells, hx, hy]
    · have hsize := h.size
      rw [length_pairsOf] at hsize
      simp only [Bunch.slots, List.map_cons, List.map_nil, List.cons_append, List.nil_append,
        List.length_cons, hsize]
    · intro k
      rw [under_middle (b := ⟨⟨i, key, link, link, 1⟩, [(link, v)]⟩) hne,
        under_of_forall_ne hne]
      rfl
    · rw [keyCount, hf'.splits.inUse_eq]
      exact hnodes

/-! ## 4. Removing values -/

section Found

variable {σ : List Step} {c : Colour} {l r : Tree}

/-- What is left when a bunch goes with its node. -/
theorem FoundAt.delete (h : m.FoundAt σ c l r xs b ys) {links' : Arena (Link α)}
    (hs : links'.Splits ((xs ++ ys).flatMap Bunch.slots))
    (hkeep : ∀ i ∈ (xs ++ ys).flatMap Bunch.slots, links'.cells[i]? = m.links.cells[i]?) :
    ∃ f' t', m.forest.delete b.cell.slot = .ok f' ∧
      Stores ⟨f', links', m.size - b.cell.count⟩ t' (xs ++ ys) ∧
      f'.nodes.cells.size = m.forest.nodes.cells.size := by
  obtain ⟨hf, -, hb, hoth, -, hsize⟩ := stores_middle.mp h.stores
  obtain ⟨f', t', e, hf', hcells, hnodes⟩ := hf.delete
  refine ⟨f', t', e, ⟨hf', ?_, fun b' hb' => ?_, hs, ?_⟩, hnodes⟩
  · rw [hcells, List.map_append, h.before, h.after]
    simp only [List.append_assoc]
  · exact (hoth b' hb').congr fun i hi => hkeep i (List.mem_flatMap.mpr ⟨b', hb', hi⟩)
  · simp only [hsize, List.length_append, length_pairsOf, Bunch.slots, List.length_map, hb.count]
    simp

end Found

/-- **Removing all values under a key** takes the key along. -/
theorem Stores.removeAll (h : m.Stores t bs) (key : String) :
    ∃ m' t' bs', m.removeAllChecked key = .ok (under (pairsOf bs) key, m') ∧ m'.Stores t' bs' ∧
      (∀ k, under (pairsOf bs') k = if k = key then [] else under (pairsOf bs) k) ∧
      m.SameSize m' := by
  rcases h.search_cases key with
    ⟨σ, c, l, r, xs, b, ys, rfl, rfl, rfl, hfound⟩ |
    ⟨σ, xs, ys, rfl, rfl, -, -, -, hne, hsearch⟩
  · obtain ⟨-, -, hb, -, hs, -⟩ := stores_middle.mp h
    have hnd := (List.nodup_append.mp hs.nodup).1
    obtain ⟨links', e1, hs', hkeep, hlinks⟩ := freeChain_spec hb.chain hs
      (Nat.lt_succ_of_le (hb.chain.length_le hnd))
    obtain ⟨f', t', e2, hdel, hnodes⟩ := hfound.delete hs' hkeep
    rw [hb.head] at e1
    refine ⟨_, t', xs ++ ys, ?_, hdel, hfound.under_without, hnodes, hlinks⟩
    rw [hfound.under_self]
    simp only [removeAllChecked, hfound.search, ok_bind, hfound.node, Cell.node, e1, e2]
    rfl
  · refine ⟨m, _, _, ?_, h, ?_, rfl, rfl⟩
    · simp only [removeAllChecked, hsearch, ok_bind, under_of_forall_ne hne]
    · intro k
      by_cases hk : k = key
      · rw [if_pos hk, hk, under_of_forall_ne hne]
      · rw [if_neg hk]

section Found

variable {σ : List Step} {c : Colour} {l r : Tree} {us vs : List (Nat × α)} {i : Nat} {w : α}

/-- The slots of a chain around one of its links. -/
theorem slots_chain (hchain : b.chain = us ++ (i, w) :: vs) :
    b.slots.Perm (i :: (us ++ vs).map Prod.fst) := by
  rw [Bunch.slots, hchain, List.map_append, List.map_cons, List.map_append]
  exact List.perm_middle

/-- **The last value of a key is removed**, and the node goes too. -/
theorem FoundAt.removeLast (h : m.FoundAt σ c l r xs b ys) (hchain : b.chain = [(i, w)]) :
    ∃ m' t', m.removeChecked b.cell.key 0 = .ok (some w, m') ∧ m'.Stores t' (xs ++ ys) ∧
      m.SameSize m' := by
  obtain ⟨-, -, hb, -, hs, -⟩ := stores_middle.mp h.stores
  have hnd := List.nodup_append.mp hs.nodup
  have hone : b.cell.count = 1 := by rw [← hb.count, hchain]; rfl
  have hslots := slots_chain (show b.chain = [] ++ (i, w) :: [] from hchain)
  have hhead := hb.head
  have hlink := hb.chain
  rw [hchain] at hhead hlink
  obtain rfl : i = b.cell.head := by simpa using hhead
  obtain ⟨links', e1, hs', hother, hlinks⟩ :=
    freeLink_spec hlink.1 (hs.perm (hslots.append_right _))
  obtain ⟨f', t', e2, hdel, hnodes⟩ := h.delete hs' fun j hj => hother j fun e =>
    hnd.2.2 b.cell.head (hslots.mem_iff.mpr (by simp)) j hj e.symm
  rw [hone] at hdel
  refine ⟨_, t', ?_, hdel, hnodes, hlinks⟩
  simp only [removeChecked, h.search, ok_bind, h.node, Cell.node, hone,
    if_neg (show ¬ 0 ≥ 1 by decide), if_true, e1, e2]

/-- **One value of several is removed**, and its link goes. -/
theorem FoundAt.removeOne (h : m.FoundAt σ c l r xs b ys)
    (hchain : b.chain = us ++ (i, w) :: vs) (hrest : us ++ vs ≠ []) :
    ∃ m' t' g, m.removeChecked b.cell.key us.length = .ok (some w, m') ∧
      g.key = b.cell.key ∧ m'.Stores t' (xs ++ ⟨g, us ++ vs⟩ :: ys) ∧ m.SameSize m' := by
  obtain ⟨hf, -, hb, hoth, hs, hsize⟩ := stores_middle.mp h.stores
  have hnd := List.nodup_append.mp hs.nodup
  have hslots := slots_chain hchain
  have hcount : us.length + (vs.length + 1) = b.cell.count := by
    rw [← hb.count, hchain, List.length_append, List.length_cons]
  have hone : b.cell.count ≠ 1 := by
    intro e
    refine hrest (List.eq_nil_of_length_eq_zero ?_)
    rw [List.length_append]
    omega
  -- the chain is closed over the link, and the count goes down
  obtain ⟨f1, links1, g, e1, hf1, ⟨hslot, hkey, hgc⟩, hhead, htail, hchain1, hother1, hnodes1,
    hsize1, hfree1⟩ := unchain_spec hf hb hnd.1 hchain hrest
  obtain ⟨f2, e2, hf2, hnodes2⟩ := hf1.edit { g with count := g.count - 1 } rfl rfl
    (k := fun n => { n with count := n.count - 1 }) fun _ _ _ => rfl
  -- the link still holds the value, and is freed
  have hc := hb.chain
  have hnd' := hnd.1
  rw [hchain] at hc
  rw [Bunch.slots, hchain, List.map_append, List.map_cons] at hnd'
  have hi1 : links1.cells[i]? = some ⟨some w, front vs none⟩ := by
    rw [hother1 i fun hi => (List.nodup_append.mp hnd').2.2 i hi i List.mem_cons_self rfl]
    exact (Chain.append.mp hc).2.1
  have hs1 : links1.Splits (i :: ((us ++ vs).map Prod.fst ++ (xs ++ ys).flatMap Bunch.slots)) :=
    (hs.congr hsize1 hfree1).perm (hslots.append_right _)
  obtain ⟨links2, e3, hs2, hother2, hsize2⟩ := freeLink_spec hi1 hs1
  have hfresh := (List.nodup_cons.mp hs1.nodup).1
  rw [List.mem_append, not_or] at hfresh
  have hwalk : walkChain m.links us.length none b.cell.head =
      .ok (us.getLast?.map Prod.fst, i) := by
    rw [hc.walk_eq none (by rw [← hchain]; exact hb.head), Option.or_none]
  refine ⟨⟨f2, links2, m.size - 1⟩, _, { g with count := g.count - 1 }, ?_, hkey,
    stores_middle.mpr ⟨hf2, h.cells_around _, ⟨?_, hhead, htail, ?_⟩, ?_, hs2, ?_⟩,
    hnodes2.trans hnodes1, hsize2.trans hsize1⟩
  · rw [hslot] at e2
    simp only [removeChecked, h.search, ok_bind, h.node, Cell.node,
      if_neg (show ¬ us.length ≥ b.cell.count by omega), if_neg hone, hwalk, e1, e2, e3]
  · exact hchain1.congr fun j hj => hother2 j fun e => hfresh.1 (e ▸ hj)
  · simp only [List.length_append, hgc]
    omega
  · intro b' hb'
    refine (hoth b' hb').congr fun j hj => ?_
    have hj' : j ∈ (xs ++ ys).flatMap Bunch.slots := List.mem_flatMap.mpr ⟨b', hb', hj⟩
    rw [hother2 j fun e => hfresh.2 (e ▸ hj'), hother1 j fun hi => ?_]
    exact hnd.2.2 j (by rw [Bunch.slots, hchain]; simp [hi]) j hj' rfl
  · rw [hsize, List.length_append, List.length_append, hslots.length_eq]
    simp only [Bunch.slots, List.length_cons]
    omega

end Found

/-- A chain around the value at a position. -/
theorem exists_at (b : Bunch α) {index : Nat} (h : index < b.chain.length) :
    ∃ us i w vs, b.chain = us ++ (i, w) :: vs ∧ us.length = index ∧
      b.values[index]? = some w ∧ b.values.eraseIdx index = us.map Prod.snd ++ vs.map Prod.snd := by
  have hl : (b.chain.take index).length = index := List.length_take_of_le h.le
  have hchain : b.chain = b.chain.take index ++
      (b.chain[index].1, b.chain[index].2) :: b.chain.drop (index + 1) := by
    rw [Prod.mk.eta, List.getElem_cons_drop, List.take_append_drop]
  refine ⟨_, _, _, _, hchain, hl, ?_, ?_⟩
  · simp [Bunch.values, h]
  · rw [Bunch.values, List.eraseIdx_map, List.eraseIdx_eq_take_drop_succ, List.map_append]

/-- **Removing the value at a position**; the last value takes the key along. -/
theorem Stores.remove (h : m.Stores t bs) (key : String) (index : Nat) :
    ∃ m' t' bs', m.removeChecked key index = .ok ((under (pairsOf bs) key)[index]?, m') ∧
      m'.Stores t' bs' ∧
      (∀ k, under (pairsOf bs') k =
        if k = key then (under (pairsOf bs) key).eraseIdx index else under (pairsOf bs) k) ∧
      m.SameSize m' := by
  rcases h.search_cases key with
    ⟨σ, c, l, r, xs, b, ys, rfl, rfl, rfl, hfound⟩ |
    ⟨σ, xs, ys, rfl, rfl, -, -, -, hne, hsearch⟩
  · have hb := h.linked b (by simp)
    rw [hfound.under_self]
    rcases Nat.lt_or_ge index b.cell.count with hindex | hindex
    · obtain ⟨us, i, w, vs, hchain, rfl, hvalue, herase⟩ := exists_at b (hb.count.symm ▸ hindex)
      rw [hvalue, herase]
      by_cases hrest : us ++ vs = []
      · obtain ⟨rfl, rfl⟩ := List.append_eq_nil_iff.mp hrest
        obtain ⟨m', t', e, hs', hsame⟩ := hfound.removeLast hchain
        exact ⟨m', t', _, e, hs', hfound.under_without, hsame⟩
      · obtain ⟨m', t', g, e, hkey, hs', hsame⟩ := hfound.removeOne hchain hrest
        refine ⟨m', t', _, e, hs', fun k => ?_, hsame⟩
        rw [hfound.under_replaced hkey, Bunch.values, List.map_append]
    · -- no such position
      have hlen : b.values.length ≤ index := hb.length_values.symm ▸ hindex
      refine ⟨m, _, _, ?_, h, fun k => ?_, rfl, rfl⟩
      · rw [List.getElem?_eq_none hlen]
        simp only [removeChecked, hfound.search, ok_bind, hfound.node, Cell.node, if_pos hindex]
      · rw [List.eraseIdx_of_length_le hlen, under_middle hfound.others]
        split <;> rfl
  · refine ⟨m, _, _, ?_, h, ?_, rfl, rfl⟩
    · simp only [removeChecked, hsearch, ok_bind, under_of_forall_ne hne, List.getElem?_nil]
    · intro k
      by_cases hk : k = key
      · rw [if_pos hk, hk, under_of_forall_ne hne]
        rfl
      · rw [if_neg hk]

end BlockDoc.Multimap
