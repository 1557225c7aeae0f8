/-
# Reading a multimap

What the readers of a map return, in terms of the bunches it stores.  A search decides what lies
under one key.  A cursor in key order is described by the cells it has left: those of the subtree
it enters next, and for every node on its stack the node itself and its right subtree
(`Pending`).  Going down to the left only moves cells from the first part to the second, so a
step of the cursor takes the first cell off the list.
-/
import BlockDoc.Proofs.Multimap.Stores
import BlockDoc.Multimap.Cursor

namespace BlockDoc.Multimap

variable {α : Type} {m : Multimap α} {t : Tree} {bs : List (Bunch α)} {b : Bunch α}

/-! ## 1. One key -/

namespace Bunch

/-- What a bunch shows to a reader. -/
def group (b : Bunch α) : Group α := ⟨b.cell.key, b.cell.count, b.values⟩

end Bunch

/-- The chain of a bunch has no link twice. -/
theorem Stores.nodup_slots (h : m.Stores t bs) (hb : b ∈ bs) : b.slots.Nodup := by
  obtain ⟨xs, ys, rfl⟩ := List.append_of_mem hb
  have hnd := h.splits.nodup
  rw [List.flatMap_append, List.flatMap_cons] at hnd
  exact (List.nodup_append.mp (List.nodup_append.mp hnd).2.1).1

/-- A node shows its bunch. -/
theorem Stores.group_eq (h : m.Stores t bs) (hb : b ∈ bs) (c : Colour) (p l r : Option Nat) :
    m.group (b.cell.node c p l r) = b.group := by
  have hv := (h.linked b hb).valuesFrom_eq (h.nodup_slots hb)
  simp only [Multimap.group, Cell.node, hv, Bunch.group]

/-- **The node with a key** is the one of its bunch; without one there is none. -/
theorem Stores.node_cases (h : m.Stores t bs) (key : String) :
    (∃ b ∈ bs, b.cell.key = key ∧ under (pairsOf bs) key = b.values ∧
      m.findNode? key = some b.cell.slot ∧
      ∃ c p l r, m.node? key = some (b.cell.node c p l r)) ∨
    (under (pairsOf bs) key = [] ∧ m.findNode? key = none ∧ m.node? key = none) := by
  rcases h.search_cases key with
    ⟨σ, c, l, r, xs, b, ys, rfl, rfl, rfl, hfound⟩ |
    ⟨σ, xs, ys, rfl, rfl, -, -, -, hne, hsearch⟩
  · have hnode := Forest.Shows.mem_join (s := .left) h.sound.shows
    have hfind : m.findNode? b.cell.key = some b.cell.slot := by
      simp only [findNode?, hfound.search]
    refine .inl ⟨b, by simp, rfl, hfound.under_self, hfind, c, above σ, l.root?, r.root?, ?_⟩
    · rw [node?, hfind, Option.bind_some]
      exact hnode
  · have hfind : m.findNode? key = none := by
      simp only [findNode?, hsearch]
    exact .inr ⟨under_of_forall_ne hne, hfind, by rw [node?, hfind, Option.bind_none]⟩

/-- No bunch is empty. -/
theorem Stores.values_ne_nil (h : m.Stores t bs) (hb : b ∈ bs) : b.values ≠ [] := by
  intro e
  have hl := (h.linked b hb).length_values
  have hpos := (h.linked b hb).count_pos
  rw [e, List.length_nil] at hl
  omega

/-- The group under a key has all values under it, and there is none without a value. -/
theorem Stores.find?_eq (h : m.Stores t bs) (key : String) :
    m.find? key =
      if under (pairsOf bs) key = [] then none
      else some ⟨key, (under (pairsOf bs) key).length, under (pairsOf bs) key⟩ := by
  rcases h.node_cases key with ⟨b, hb, rfl, hu, -, c, p, l, r, hn⟩ | ⟨hu, -, hn⟩
  · rw [find?, hn, Option.map_some, h.group_eq hb, hu, if_neg (h.values_ne_nil hb), Bunch.group,
      (h.linked b hb).length_values]
  · rw [find?, hn, hu]
    rfl

theorem Stores.get_eq (h : m.Stores t bs) (key : String) :
    m.get key = under (pairsOf bs) key := by
  rw [get, h.find?_eq]
  split
  · simp_all
  · rfl

theorem Stores.first?_eq (h : m.Stores t bs) (key : String) :
    m.first? key = (under (pairsOf bs) key).head? := by
  rw [first?, h.get_eq]

theorem Stores.count_eq (h : m.Stores t bs) (key : String) :
    m.count key = (under (pairsOf bs) key).length := by
  rcases h.node_cases key with ⟨b, hb, rfl, hu, -, c, p, l, r, hn⟩ | ⟨hu, -, hn⟩
  · rw [count, hn, hu, (h.linked b hb).length_values]
    rfl
  · rw [count, hn, hu]
    rfl

theorem Stores.contains_iff (h : m.Stores t bs) (key : String) :
    m.contains key = true ↔ under (pairsOf bs) key ≠ [] := by
  rcases h.node_cases key with ⟨b, hb, rfl, hu, hf, -⟩ | ⟨hu, hf, -⟩
  · simp [contains, hf, hu, h.values_ne_nil hb]
  · simp [contains, hf, hu]

/-- Every node is a key. -/
theorem Stores.keyCount_eq (h : m.Stores t bs) : m.keyCount = bs.length := by
  rw [keyCount, h.sound.splits.inUse_eq, Tree.slots, ← h.cells, List.length_map, List.length_map]

/-- The key of the last node on one side. -/
theorem Stores.outermostKey?_eq (h : m.Stores t bs) (s : Side) :
    m.outermostKey? s = match s with
      | .left => (bs.map fun b => b.cell.key).head?
      | .right => (bs.map fun b => b.cell.key).getLast? := by
  have hkeys : (bs.map fun b => b.cell.key) = t.cells.map Cell.key := by
    rw [← h.cells, List.map_map]
    rfl
  rw [hkeys]
  cases hr : t.root? with
  | none =>
    obtain rfl := Tree.root?_eq_none_iff.mp hr
    rw [outermostKey?, h.sound.shows.root, hr]
    cases s <;> rfl
  | some i =>
    have hroot := h.sound.shows.root.trans hr
    obtain ⟨g, hg, hlast⟩ := Forest.outermost_spec (s := s) h.sound.shows hroot
    have hmem : g ∈ t.cells := by
      cases s
      · exact List.mem_of_head? hlast
      · exact List.mem_of_getLast? hlast
    obtain ⟨c, p, l, r, hn⟩ := h.sound.shows.holds.exists_node hmem
    have hcell : m.forest.nodes.cells[g.slot]? = some (g.node c p l r) := hn
    rw [outermostKey?, hroot, Option.bind_some, hg]
    simp only [hcell, Option.map_some, Cell.node]
    cases s
    · simp only [List.head?_map] at hlast ⊢
      rw [hlast]
      rfl
    · simp only [List.getLast?_map] at hlast ⊢
      rw [hlast]
      rfl

/-! ## 2. Groups in key order -/

/-- The cells that wait on the stack of a cursor: every node there, and what lies to the right
below it. -/
inductive Pending (f : Forest) : List Nat → List Cell → Prop
  | nil : Pending f [] []
  | cons {g : Cell} {c : Colour} {p l : Option Nat} {r : Tree} {stack : List Nat}
      {rest : List Cell} :
      f.mem g.slot = some (g.node c p l r.root?) → Holds f.mem (some g.slot) r →
        r.height < f.stepLimit → Pending f stack rest →
          Pending f (g.slot :: stack) (g :: (r.cells ++ rest))

/-- Going down to the left puts the whole subtree on the stack. -/
theorem descend_spec {f : Forest} {limit : Nat} {p : Option Nat} {stack : List Nat}
    {rest : List Cell} (h : Holds f.mem p t) (ht : t.height ≤ limit) (hl : limit ≤ f.stepLimit)
    (hp : Pending f stack rest) :
    ∃ stack', descend f limit t.root? stack = .ok stack' ∧ Pending f stack' (t.cells ++ rest) := by
  induction t generalizing limit p stack rest with
  | leaf => exact ⟨stack, by cases limit <;> rfl, hp⟩
  | node c l g r ihl _ =>
    obtain ⟨limit, rfl⟩ : ∃ k, limit = k + 1 := ⟨limit - 1, by simp [Tree.height] at ht; omega⟩
    simp only [Tree.height] at ht
    obtain ⟨hg, hleft, hright⟩ := h
    have hle : l.height ≤ limit := by omega
    have hlt : r.height < f.stepLimit := by omega
    obtain ⟨stack', e, hp'⟩ := ihl hleft hle (by omega) (Pending.cons hg hright hlt hp)
    refine ⟨stack', ?_, ?_⟩
    · simp only [Tree.root?_node, descend, Forest.node_eq hg, ok_bind, Cell.node, e]
    · rw [Tree.cells_node, List.append_assoc, List.cons_append]
      exact hp'

/-- The group that a node shows. -/
def shown (m : Multimap α) (g : Cell) : Group α :=
  ⟨g.key, g.count, valuesFrom m.links (m.links.cells.size + 1) (some g.head)⟩

namespace GroupCursor

/-- A cursor in key order has the cells `gs` left. -/
structure Ahead (c : GroupCursor α) (gs : List Cell) : Prop where
  /-- The order of the visit. -/
  order : c.order = .inorder
  /-- The subtree that is entered next, and what waits behind it. -/
  left : ∃ p t rest, c.below = t.root? ∧ Holds c.map.forest.mem p t ∧
    t.height ≤ c.map.forest.stepLimit ∧ Pending c.map.forest c.stack rest ∧
      gs = t.cells ++ rest

variable {c : GroupCursor α} {g : Cell} {gs : List Cell}

/-- A cursor at the end stays there. -/
theorem Ahead.advance_nil (h : c.Ahead []) : c.advance = .ok none := by
  obtain ⟨horder, p, t, rest, hbelow, hholds, hheight, hpending, hgs⟩ := h
  obtain ⟨stack, e, hp⟩ := descend_spec hholds hheight (Nat.le_refl _) hpending
  rw [← hgs] at hp
  cases hp
  simp only [advance, horder, advanceIn, hbelow, e, ok_bind]

theorem next?_of_end (h : c.advance = .ok none) : c.next? = none := by
  rw [next?, h]

/-- **A step takes the first cell off.** -/
theorem Ahead.next?_cons (h : c.Ahead (g :: gs)) :
    ∃ c', c.next? = some (c.map.shown g, c') ∧ c'.map = c.map ∧ c'.Ahead gs := by
  obtain ⟨horder, p, t, rest, hbelow, hholds, hheight, hpending, hgs⟩ := h
  obtain ⟨stack, e, hp⟩ := descend_spec hholds hheight (Nat.le_refl _) hpending
  rw [← hgs] at hp
  obtain ⟨⟩ | ⟨hg, hr, hrh, hp⟩ := hp
  rename_i c₀ p₀ l r stack rest
  refine ⟨{ c with stack := stack, below := r.root? }, ?_, rfl, horder, _, r, rest, rfl, hr,
    hrh.le, hp, rfl⟩
  have hcell : c.map.forest.nodes.cells[g.slot]? = some (g.node c₀ p₀ l r.root?) := hg
  simp only [next?, advance, horder, advanceIn, hbelow, e, ok_bind, Forest.node_eq hg, Cell.node,
    hcell, Option.map_some, Multimap.group, shown]

/-- Several steps. -/
theorem Ahead.take_eq (h : c.Ahead gs) (limit : Nat) :
    take limit c = (gs.take limit).map c.map.shown := by
  induction limit generalizing c gs with
  | zero => rfl
  | succ limit ih =>
    cases gs with
    | nil =>
      rw [take, next?_of_end h.advance_nil]
      rfl
    | cons g gs =>
      obtain ⟨c', e, hmap, h'⟩ := h.next?_cons
      rw [take, e, List.take_succ_cons, List.map_cons, ← hmap, ← ih h']

/-- A fresh cursor has the whole tree ahead. -/
theorem ahead_start (h : m.forest.Sound t) : (start .inorder m).Ahead t.cells :=
  ⟨rfl, none, t, [], h.shows.root, h.shows.holds, h.shows.height_lt_stepLimit.le, .nil,
    (List.append_nil _).symm⟩

end GroupCursor

/-- A node shows its bunch. -/
theorem Stores.shown_eq (h : m.Stores t bs) (hb : b ∈ bs) : m.shown b.cell = b.group :=
  h.group_eq hb .red none none none

/-- **The groups** are the bunches in the order of their keys. -/
theorem Stores.groups_eq (h : m.Stores t bs) : m.groups = bs.map Bunch.group := by
  have hl : t.cells.length ≤ m.forest.nodes.cells.size := by
    simpa [Tree.slots] using h.sound.shows.length_slots_le
  have htake := (GroupCursor.ahead_start h.sound).take_eq m.forest.nodes.cells.size
  rw [List.take_of_length_le hl, ← h.cells, List.map_map] at htake
  exact htake.trans (List.map_congr_left fun b hb => h.shown_eq hb)

/-! ## 3. Pairs in key order -/

/-- The pairs of the groups that some nodes show. -/
def shownPairs (m : Multimap α) (gs : List Cell) : List (String × α) :=
  gs.flatMap fun g => (m.shown g).values.map fun v => (g.key, v)

namespace PairCursor

/-- A cursor has the pairs `ps` left. -/
structure Ahead (c : PairCursor α) (ps : List (String × α)) : Prop where
  /-- What is left of the current group, and the groups behind it, none of which is empty. -/
  left : ∃ gs, c.groups.Ahead gs ∧ (∀ g ∈ gs, (c.groups.map.shown g).values ≠ []) ∧
    ps = (c.values.map fun v => (c.key, v)) ++ c.groups.map.shownPairs gs

variable {c : PairCursor α} {p : String × α} {ps : List (String × α)}

/-- A cursor at the end has no value and no group left. -/
theorem Ahead.ends (h : c.Ahead []) : c.values = [] ∧ c.groups.advance = .ok none := by
  obtain ⟨gs, hg, hne, hps⟩ := h
  obtain ⟨hv, hgs⟩ := List.append_eq_nil_iff.mp hps.symm
  rw [List.map_eq_nil_iff] at hv
  cases gs with
  | nil => exact ⟨hv, hg.advance_nil⟩
  | cons g gs =>
    rw [shownPairs, List.flatMap_cons, List.append_eq_nil_iff, List.map_eq_nil_iff] at hgs
    exact absurd hgs.1 (hne g List.mem_cons_self)

/-- It stays there. -/
theorem next?_of_end (hvalues : c.values = []) (hgroups : c.groups.advance = .ok none) :
    c.next? = none := by
  simp only [next?, hvalues, Forest.stepLimit, enter, GroupCursor.next?_of_end hgroups]

/-- **A step takes the first pair off.** -/
theorem Ahead.next?_cons (h : c.Ahead (p :: ps)) :
    ∃ c', c.next? = some (p, c') ∧ c'.groups.map = c.groups.map ∧ c'.Ahead ps := by
  obtain ⟨gs, hg, hne, hps⟩ := h
  cases hv : c.values with
  | cons v vs =>
    rw [hv, List.map_cons, List.cons_append, List.cons.injEq] at hps
    obtain ⟨rfl, rfl⟩ := hps
    refine ⟨{ c with values := vs }, ?_, rfl, gs, hg, hne, rfl⟩
    simp only [next?, hv]
  | nil =>
    cases gs with
    | nil =>
      rw [hv] at hps
      exact absurd hps (List.cons_ne_nil _ _)
    | cons g gs =>
      obtain ⟨c', e, hmap, hg'⟩ := hg.next?_cons
      rw [hv, List.map_nil, List.nil_append, shownPairs, List.flatMap_cons] at hps
      cases hgv : (c.groups.map.shown g).values with
      | nil => exact absurd hgv (hne g List.mem_cons_self)
      | cons v vs =>
        rw [hgv, List.map_cons, List.cons_append, List.cons.injEq] at hps
        obtain ⟨rfl, rfl⟩ := hps
        refine ⟨⟨g.key, vs, c'⟩, ?_, hmap, gs, hg', ?_, ?_⟩
        · simp only [next?, hv, Forest.stepLimit, enter, e, hgv]
          rfl
        · rw [hmap]
          exact fun g' hg' => hne g' (List.mem_cons_of_mem _ hg')
        · rw [hmap]
          rfl

/-- Several steps. -/
theorem Ahead.take_eq (h : c.Ahead ps) (limit : Nat) : take limit c = ps.take limit := by
  induction limit generalizing c ps with
  | zero => rfl
  | succ limit ih =>
    cases ps with
    | nil =>
      rw [take, next?_of_end h.ends.1 h.ends.2]
      rfl
    | cons p ps =>
      obtain ⟨c', e, -, h'⟩ := h.next?_cons
      rw [take, e, List.take_succ_cons, ← ih h']

end PairCursor

/-- A link is a value. -/
theorem Stores.length_pairs_le (h : m.Stores t bs) :
    (pairsOf bs).length ≤ m.links.cells.size := by
  have hl := h.splits.length_eq
  rw [List.length_append, List.length_range] at hl
  rw [length_pairsOf]
  omega

/-- A fresh cursor has all pairs ahead. -/
theorem Stores.ahead_start (h : m.Stores t bs) : (PairCursor.start m).Ahead (pairsOf bs) := by
  have hpairs : m.shownPairs t.cells = pairsOf bs := by
    rw [shownPairs, ← h.cells, List.flatMap_map, pairsOf]
    exact List.flatMap_congr fun b hb => by rw [h.shown_eq hb]; rfl
  refine ⟨t.cells, GroupCursor.ahead_start h.sound, ?_, hpairs.symm⟩
  intro g hg
  rw [← h.cells] at hg
  obtain ⟨b, hb, rfl⟩ := List.mem_map.mp hg
  have hshown : (PairCursor.start m).groups.map.shown b.cell = b.group := h.shown_eq hb
  rw [hshown]
  exact h.values_ne_nil hb

/-- **All pairs**, in the order of their keys. -/
theorem Stores.toList_eq (h : m.Stores t bs) : m.toList = pairsOf bs := by
  rw [toList, PairCursor.rest, h.ahead_start.take_eq]
  exact List.take_of_length_le h.length_pairs_le

end BlockDoc.Multimap
