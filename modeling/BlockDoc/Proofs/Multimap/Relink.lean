/-
# What the changes of links do to the tree

Each operation that changes more than one link gets one lemma, read at a place of the tree: a
rotation turns a node down to one side, and taking a node out leaves a path with the gap at its
end.  The proofs follow the assignments one by one; between two of them all parts of the tree
that are not touched keep their shape, because no node belongs to two parts.
-/
import BlockDoc.Proofs.Multimap.Layout
import Mathlib.Data.List.Perm.Subperm

namespace BlockDoc.Multimap.Forest

variable {f : Forest} {π σ : List Step} {s : Side} {c d : Colour} {a b e t : Tree} {x y : Cell}

/-- The node at a place, with all its links. -/
theorem Shows.mem_join (h : f.Shows (plug π (.join s c a x b))) :
    f.mem x.slot = some (x.nodeAt s c (above π) a.root? b.root?) := by
  obtain ⟨⟨hH, -, -⟩, -⟩ := shows_plug.mp h
  exact (holds_join.mp hH).1

/-- The node above a place, with all its links. -/
theorem Shows.mem_above (h : f.Shows (plug (⟨s, c, x, b⟩ :: π) t)) :
    f.mem x.slot = some (x.nodeAt s c (above π) t.root? b.root?) := Shows.mem_join (π := π) h

/-- The two children of a node are different. -/
theorem Shows.root?_ne (h : f.Shows (plug π (.join s c a x b))) (hb : b.root? ≠ none) :
    b.root? ≠ a.root? := by
  intro e
  obtain ⟨-, hnd, -, -⟩ := shows_plug.mp h
  obtain ⟨-, -, -, -, hab⟩ := nodup_slots_join.mp hnd
  obtain ⟨i, hi⟩ := Option.ne_none_iff_exists'.mp hb
  exact hab i (Tree.mem_slots_of_root? (e ▸ hi)) (Tree.mem_slots_of_root? hi)

/-- What stands below the root is not the root. -/
theorem Shows.root?_ne_root {st : Step} (h : f.Shows (plug (st :: π) t)) : t.root? ≠ f.root := by
  obtain ⟨⟨-, -, hr⟩, -, -, hdis⟩ := shows_plug.mp h
  obtain ⟨i, hi, e⟩ := exists_topOf st π t.root?
  intro he
  rw [hr, e] at he
  exact hdis i (Tree.mem_slots_of_root? he) hi

/-- The colour of what stands at a place. -/
theorem Shows.colour_eq (h : f.Shows (plug π t)) : f.colour t.root? = .ok t.colour :=
  Forest.colour_eq (shows_plug.mp h).1.1

/-- Every node of the tree is in the arena. -/
theorem Shows.mem_isSome (h : f.Shows t) {i : Nat} (hi : i ∈ t.slots) :
    ∃ n, f.mem i = some n := by
  obtain ⟨g, hg, rfl⟩ := List.mem_map.mp hi
  obtain ⟨c, p, l, r, e⟩ := h.holds.exists_node hg
  exact ⟨_, e⟩

/-- A tree has no more nodes than the arena has cells. -/
theorem Shows.length_slots_le (h : f.Shows t) : t.slots.length ≤ f.nodes.cells.size := by
  have hsub : t.slots ⊆ List.range f.nodes.cells.size := by
    intro i hi
    obtain ⟨n, hn⟩ := h.mem_isSome hi
    exact List.mem_range.mpr (mem_lt hn)
  simpa using (List.subperm_of_subset h.nodup hsub).length_le

/-- A way down takes fewer steps than a walk may take. -/
theorem Shows.height_lt_stepLimit (h : f.Shows t) : t.height < f.stepLimit :=
  Nat.lt_succ_of_le (Nat.le_trans t.height_le_length h.length_slots_le)

/-- A way to the root takes fewer steps than a walk may take. -/
theorem Shows.length_lt_stepLimit (h : f.Shows (plug π t)) : π.length < f.stepLimit := by
  have hle := length_add_height_le π t
  have hlt := h.height_lt_stepLimit
  omega

/-- Editing a node apart from its links. -/
theorem Shows.edit_node (h : f.Shows (plug π (.join s c a x b))) (hxy : y.slot = x.slot)
    {k : Node → Node} (hk : ∀ p l r, k (x.nodeAt s c p l r) = y.nodeAt s d p l r) :
    ∃ f', f.edit x.slot k = .ok f' ∧ f'.Shows (plug π (.join s d a y b)) ∧ f.SameCells f' := by
  obtain ⟨⟨hH, hA, hr⟩, hnd, hπ, hdis⟩ := shows_plug.mp h
  obtain ⟨hx, ha, hb⟩ := holds_join.mp hH
  obtain ⟨f', e, m, hr', hc⟩ := edit_spec hx k
  obtain ⟨hxa, hxb, hda, hdb, hab⟩ := nodup_slots_join.mp hnd
  have hslots : ∀ i, i ∈ (Tree.join s d a y b).slots ↔ i ∈ (Tree.join s c a x b).slots := by
    intro i
    rw [Tree.mem_slots_join, Tree.mem_slots_join, hxy]
  refine ⟨f', e, shows_plug.mpr ⟨⟨holds_join.mpr ⟨?_, ?_, ?_⟩, ?_, ?_⟩, ?_, hπ, ?_⟩,
    hc.toSameCells⟩
  · rw [hxy, m, hk]
  · rw [hxy]
    exact ha.congr fun i hi => hc.mem i (List.mem_singleton.not.mpr fun e => hxa (e ▸ hi))
  · rw [hxy]
    exact hb.congr fun i hi => hc.mem i (List.mem_singleton.not.mpr fun e => hxb (e ▸ hi))
  · rw [Tree.root?_join] at hA ⊢
    rw [hxy]
    refine hA.congr fun i hi => hc.mem i ?_
    rw [List.mem_singleton]
    exact fun e => hdis x.slot (Tree.mem_slots_join.mpr (.inl rfl)) (e ▸ hi)
  · rw [hr', hr, Tree.root?_join, Tree.root?_join, hxy]
  · exact nodup_slots_join.mpr ⟨hxy ▸ hxa, hxy ▸ hxb, hda, hdb, hab⟩
  · exact fun i hi => hdis i ((hslots i).mp hi)

/-- Giving a node another colour. -/
theorem Shows.edit_colour (h : f.Shows (plug π (.join s c a x b))) (d : Colour) :
    ∃ f', f.edit x.slot (.setColour d) = .ok f' ∧ f'.Shows (plug π (.join s d a x b)) ∧
      f.SameCells f' :=
  h.edit_node rfl fun _ _ _ => Cell.setColour_nodeAt ..

/-- Giving the root of a subtree another colour, if it has a root. -/
theorem Shows.editIfAny_colour (h : f.Shows (plug π t)) (d : Colour) :
    ∃ f', f.editIfAny t.root? (.setColour d) = .ok f' ∧ f'.Shows (plug π (t.paint d)) ∧
      f.SameCells f' := by
  cases t with
  | leaf => exact ⟨f, rfl, h, .refl f⟩
  | node c l g r => exact Shows.edit_colour (s := .left) h d

/-- Giving the node above a place another colour. -/
theorem Shows.edit_colour_above (h : f.Shows (plug (⟨s, c, x, b⟩ :: π) t)) (d : Colour) :
    ∃ f', f.edit x.slot (.setColour d) = .ok f' ∧ f'.Shows (plug (⟨s, d, x, b⟩ :: π) t) ∧
      f.SameCells f' := Shows.edit_colour (π := π) h d

/-- **A rotation turns a node down to one side**, and the child on the other side takes its
place. -/
theorem Shows.rotate (h : f.Shows (plug π (.join s c a x (.join s d b y e)))) :
    ∃ f', f.rotate s x.slot = .ok f' ∧
      f'.Shows (plug π (.join s d (.join s c a x b) y e)) ∧ f.SameCells f' := by
  obtain ⟨⟨hH, hA, hr⟩, hnd, hπ, hdis⟩ := shows_plug.mp h
  obtain ⟨hx, ha, hH⟩ := holds_join.mp hH
  obtain ⟨hy, hb, he⟩ := holds_join.mp hH
  rw [Tree.root?_join] at hx hA hr
  simp only [nodup_slots_join, Tree.mem_slots_join] at hnd hdis
  obtain ⟨hxa, hxr, hda, ⟨hyb, hye, hdb, hde, hbe⟩, har⟩ := hnd
  -- the new child of `x`
  obtain ⟨f1, e1, m1, r1, c1⟩ := edit_spec hx (.setChild s.other b.root?)
  rw [Cell.setChild_other_nodeAt] at m1
  have hb1 : Holds f1.mem (some y.slot) b := hb.congr fun i hi => c1.mem i (by grind)
  obtain ⟨f2, e2, hb2, r2, c2⟩ := reparent_spec hb1 hdb (some x.slot)
  have hx2 : f2.mem x.slot = some (x.nodeAt s c (above π) a.root? b.root?) := by
    rw [c2.mem _ (by grind), m1]
  -- `y` takes the place of `x`
  have hy2 : f2.mem y.slot = some (y.nodeAt s d (some x.slot) b.root? e.root?) := by
    rw [c2.mem _ (by grind), c1.mem _ (by grind), hy]
  obtain ⟨f3, e3, m3, r3, c3⟩ := edit_spec hy2 (.setParent (above π))
  rw [Cell.setParent_nodeAt] at m3
  have c13 := (c1.trans c2).trans c3
  have hA3 : HoldsAround f3.mem (some x.slot) π :=
    hA.congr fun i hi => c13.mem i (by grind)
  have r13 : f3.root = topOf (some x.slot) π := by rw [r3, r2, r1, hr]
  obtain ⟨f4, e4, hA4, r4, c4⟩ := hang_spec hA3 r13 hπ (by grind) s (some y.slot)
  -- `x` becomes its child
  have hy4 : f4.mem y.slot = some (y.nodeAt s d (above π) b.root? e.root?) := by
    rw [c4.mem _ (by grind), m3]
  obtain ⟨f5, e5, m5, r5, c5⟩ := edit_spec hy4 (.setChild s (some x.slot))
  rw [Cell.setChild_nodeAt] at m5
  have hx5 : f5.mem x.slot = some (x.nodeAt s c (above π) a.root? b.root?) := by
    rw [c5.mem _ (by grind), c4.mem _ (by grind), c3.mem _ (by grind), hx2]
  obtain ⟨f6, e6, m6, r6, c6⟩ := edit_spec hx5 (.setParent (some y.slot))
  rw [Cell.setParent_nodeAt] at m6
  have c36 := ((c3.trans c4).trans c5).trans c6
  have c16 := (c1.trans c2).trans c36
  refine ⟨f6, ?_, shows_plug.mpr ⟨⟨holds_join.mpr ⟨?_, holds_join.mpr ⟨?_, ?_, ?_⟩, ?_⟩, ?_, ?_⟩,
    ?_, hπ, ?_⟩, c16.toSameCells⟩
  · simp only [Forest.rotate, node_eq hx, node_eq hy, node_eq hx2, Cell.child_other_nodeAt,
      Cell.child_nodeAt, Cell.parent_nodeAt, ok_bind, e1, e2, e3, e4, e5, e6]
  · rw [c6.mem _ (by grind), m5, Tree.root?_join]
  · exact m6
  · exact ha.congr fun i hi => c16.mem i (by grind)
  · exact hb2.congr fun i hi => c36.mem i (by grind)
  · exact he.congr fun i hi => c16.mem i (by grind)
  · rw [Tree.root?_join]
    exact hA4.congr fun i hi => (c5.trans c6).mem i (by grind)
  · rw [r6, r5, r4, Tree.root?_join]
  · simp only [nodup_slots_join, Tree.mem_slots_join]
    grind
  · simp only [Tree.mem_slots_join]
    grind

/-- A node with one child, or none, gives way to it. -/
theorem Shows.transplant (h : f.Shows (plug π (.join s c .leaf x t))) :
    ∃ f', f.transplant x.slot t.root? = .ok f' ∧ f'.Shows (plug π t) ∧
      f'.mem x.slot = f.mem x.slot ∧ f.SameCells f' := by
  obtain ⟨⟨hH, hA, hr⟩, hnd, hπ, hdis⟩ := shows_plug.mp h
  obtain ⟨hx, -, ht⟩ := holds_join.mp hH
  rw [Tree.root?_join] at hA hr
  simp only [nodup_slots_join, Tree.mem_slots_join] at hnd hdis
  obtain ⟨-, hxt, -, htd, -⟩ := hnd
  obtain ⟨f1, e1, hA1, r1, c1⟩ := hang_spec hA hr hπ (by grind) .left t.root?
  have ht1 : Holds f1.mem (some x.slot) t := ht.congr fun i hi => c1.mem i (by grind)
  obtain ⟨f2, e2, ht2, r2, c2⟩ := reparent_spec ht1 htd (above π)
  refine ⟨f2, ?_, shows_plug.mpr ⟨⟨ht2, ?_, ?_⟩, htd, hπ, ?_⟩, ?_,
    c1.toSameCells.trans c2.toSameCells⟩
  · simp only [Forest.transplant, node_eq hx, Cell.parent_nodeAt, ok_bind, e1, e2]
  · exact hA1.congr fun i hi => c2.mem i (by grind)
  · rw [r2, r1]
  · grind
  · rw [(c1.trans c2).mem _ (by grind)]

/-- A node `y` outside takes the place of a node `z` with its left subtree. -/
theorem takeOver_spec {n : Node} {q p : Option Nat} {z : Cell} {l r : Tree}
    (hz : f.mem z.slot = some n) (hn : n.parent = above π)
    (hy : f.mem y.slot = some (y.nodeAt .left d q p r.root?))
    (hl : Holds f.mem (some z.slot) l) {i : Nat} (hi : l.root? = some i)
    (hr : Holds f.mem (some y.slot) r) (hA : HoldsAround f.mem (some z.slot) π)
    (hroot : f.root = topOf (some z.slot) π) (hnd : (plug π (.node c l y r)).slots.Nodup)
    (hzy : z.slot ∉ (plug π (.node c l y r)).slots) :
    ∃ f', f.takeOver z.slot y.slot i c = .ok f' ∧ f'.Shows (plug π (.node c l y r)) ∧
      f.SameCells f' := by
  rw [(slots_plug_perm π _).mem_iff] at hzy
  have hj : Tree.node c l y r = .join .left c l y r := rfl
  rw [hj] at hzy hnd
  obtain ⟨hnd, hπ, hdis⟩ := nodup_slots_plug.mp hnd
  simp only [nodup_slots_join, Tree.mem_slots_join, List.mem_append] at hnd hdis hzy
  obtain ⟨hyl, hyr, hld, hrd, hlr⟩ := hnd
  -- the place
  obtain ⟨f1, e1, hA1, r1, c1⟩ := hang_spec hA hroot hπ (by grind) .left (some y.slot)
  have hy1 : f1.mem y.slot = some (y.nodeAt .left d q p r.root?) := by
    rw [c1.mem _ (by grind), hy]
  obtain ⟨f2, e2, m2, r2, c2⟩ := edit_spec hy1 (.setParent (above π))
  rw [Cell.setParent_nodeAt] at m2
  -- the left subtree
  obtain ⟨f3, e3, m3, r3, c3⟩ := edit_spec m2 (.setChild .left (some i))
  rw [Cell.setChild_nodeAt] at m3
  have c13 := (c1.trans c2).trans c3
  have hl3 : Holds f3.mem (some z.slot) l := hl.congr fun j hj => c13.mem j (by grind)
  obtain ⟨f4, e4, hl4, r4, c4⟩ := reparent_spec hl3 hld (some y.slot)
  rw [hi] at e4
  -- the colour
  have hy4 : f4.mem y.slot = some (y.nodeAt .left d (above π) (some i) r.root?) := by
    rw [c4.mem _ (by grind), m3]
  obtain ⟨f5, e5, m5, r5, c5⟩ := edit_spec hy4 (.setColour c)
  rw [Cell.setColour_nodeAt] at m5
  have c15 := (c13.trans c4).trans c5
  refine ⟨f5, ?_, shows_plug.mpr ⟨⟨holds_join (s := .left).mpr ⟨?_, ?_, ?_⟩, ?_, ?_⟩, ?_, hπ, ?_⟩,
    c15.toSameCells⟩
  · simp only [editIfAny] at e4
    simp only [takeOver, Forest.transplant, node_eq hz, hn, ok_bind, editIfAny, e1, e2, e3, e4, e5]
  · rw [m5, hi]
  · exact hl4.congr fun j hj => c5.mem j (by grind)
  · exact hr.congr fun j hj => c15.mem j (by grind)
  · exact hA1.congr fun j hj => (((c2.trans c3).trans c4).trans c5).mem j (by grind)
  · rw [r5, r4, r3, r2, r1]; rfl
  · exact (nodup_slots_join (s := .left) (c := c)).mpr ⟨hyl, hyr, hld, hrd, hlr⟩
  · simp only [hj, Tree.mem_slots_join]
    grind

/-- Following the children on one side ends at a node without a child there. -/
theorem outermostFrom_spec {limit i : Nat} {p : Option Nat} (h : Holds f.mem p t)
    (hi : t.root? = some i) (hh : t.height ≤ limit) :
    ∃ σ d y u, t = plug σ (.join s d .leaf y u) ∧ (∀ st ∈ σ, st.side = s) ∧
      f.outermostFrom s limit i = .ok y.slot := by
  induction limit generalizing t i p with
  | zero => cases t <;> simp [Tree.height] at hi hh
  | succ limit ih =>
    cases t with
    | leaf => simp at hi
    | node c l g r =>
      obtain ⟨near, far, e⟩ := Tree.exists_join s c l g r
      rw [e] at h hi hh ⊢
      obtain ⟨hg, hnear, -⟩ := holds_join.mp h
      rw [Tree.height_join] at hh
      obtain rfl : g.slot = i := by simpa using hi
      cases hn : near.root? with
      | none =>
        obtain rfl := Tree.root?_eq_none_iff.mp hn
        refine ⟨[], c, g, far, rfl, by simp, ?_⟩
        simp only [outermostFrom, node_eq hg, ok_bind, Cell.child_nodeAt, hn]
      | some j =>
        obtain ⟨σ, d, y, u, rfl, hσ, hy⟩ := ih hnear hn (by omega)
        refine ⟨σ ++ [⟨s, c, g, far⟩], d, y, u, by simp [plug_append, plug_cons], ?_, ?_⟩
        · intro st hst
          rcases List.mem_append.mp hst with hst | hst
          · exact hσ st hst
          · rw [List.mem_singleton.mp hst]
        · simp only [outermostFrom, node_eq hg, ok_bind, Cell.child_nodeAt, hn, hy]

/-- A place that is reached by steps to the left only has nothing in front of it. -/
theorem cellsBefore_of_left (hσ : ∀ st ∈ σ, st.side = .left) : cellsBefore σ = [] := by
  induction σ with
  | nil => rfl
  | cons st σ ih =>
    obtain ⟨s, c, g, o⟩ := st
    obtain rfl : s = .left := hσ ⟨s, c, g, o⟩ List.mem_cons_self
    exact ih fun st hst => hσ st (List.mem_cons_of_mem _ hst)

end BlockDoc.Multimap.Forest
