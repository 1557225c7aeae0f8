/-
# Repairing the colours after an insertion

The loop carries one defect upwards: a red node whose parent may be red as well, in a tree that
obeys the colour rules everywhere else.  The node stands at a place where a black one would fit
(`Fits .black`).  Either its parent is black and the defect is none, or the two black children of
the grandparent allow recolouring and the defect moves two steps up, or rotations remove it.

Main statement: `attach_spec`.  A node attached at the end of any path of a balanced tree ends
up in a balanced tree with the same cells in the same order.
-/
import BlockDoc.Proofs.Multimap.Search

namespace BlockDoc.Multimap.Forest

variable {f : Forest} {π : List Step} {s : Side} {a b o u : Tree} {p q z : Cell} {h : Nat}

/-- A red node on the outer side: one rotation. -/
theorem turnOver_outer (hs : f.Shows (plug (⟨s, .red, p, o⟩ :: ⟨s, .black, q, u⟩ :: π)
    (.join s .red a z b))) :
    ∃ f', f.turnOver s z.slot p.slot q.slot = .ok (z.slot, f') ∧
      f'.Shows (plug (⟨s, .black, p, .join s.other .red u q o⟩ :: π) (.join s .red a z b)) ∧
      f.SameCells f' := by
  have hp := hs.mem_above
  have hz := hs.mem_join
  have hne : o.root? ≠ some z.slot := by
    intro e
    have := Shows.root?_ne (π := ⟨s, .black, q, u⟩ :: π) hs (by simp [e])
    simp [e] at this
  obtain ⟨f1, e1, h1, c1⟩ := hs.edit_colour_above .black
  obtain ⟨f2, e2, h2, c2⟩ := Shows.edit_colour (π := π) h1 .red
  rw [← Tree.join_other, ← Tree.join_other s .black] at h2
  obtain ⟨f3, e3, h3, c3⟩ := h2.rotate
  rw [Tree.join_other s .black] at h3
  refine ⟨f3, ?_, h3, (c1.trans c2).trans c3⟩
  simp only [turnOver, node_eq hp, node_eq hz, Cell.child_other_nodeAt, Cell.parent_nodeAt, hne,
    if_false, ok_bind, above_cons, editIfAny, e1, e2, e3]

/-- A red node on the inner side: two rotations. -/
theorem turnOver_inner (hs : f.Shows (plug (⟨s.other, .red, p, o⟩ :: ⟨s, .black, q, u⟩ :: π)
    (.join s .red a z b))) :
    ∃ f', f.turnOver s z.slot p.slot q.slot = .ok (p.slot, f') ∧
      f'.Shows (plug (⟨s, .black, z, .join s.other .red u q b⟩ :: π) (.join s .red o p a)) ∧
      f.SameCells f' := by
  rw [← plug_far] at hs
  have hp := hs.mem_join
  obtain ⟨f1, e1, h1, c1⟩ := hs.rotate
  have hp1 := Shows.mem_above (π := ⟨s, .red, z, b⟩ :: ⟨s, .black, q, u⟩ :: π) h1
  obtain ⟨f2, e2, h2, c2⟩ := Shows.edit_colour (π := ⟨s, .black, q, u⟩ :: π) h1 .black
  obtain ⟨f3, e3, h3, c3⟩ := Shows.edit_colour (π := π) h2 .red
  rw [← Tree.join_other, ← Tree.join_other s .black] at h3
  obtain ⟨f4, e4, h4, c4⟩ := h3.rotate
  rw [Tree.join_other s .black] at h4
  refine ⟨f4, ?_, h4, ((c1.trans c2).trans c3).trans c4⟩
  simp only [turnOver, node_eq hp, node_eq hp1, Cell.child_other_nodeAt, Cell.parent_nodeAt,
    Tree.root?_join, if_true, ok_bind, above_cons, editIfAny, e1, e2, e3, e4]

/-- **A red pair is resolved by rotations.**  A black node on top of two red ones takes the place
of the grandparent. -/
theorem turnOver_spec {t : Side} (hs : f.Shows (plug (⟨t, .red, p, o⟩ :: ⟨s, .black, q, u⟩ :: π)
    (.join s .red a z b))) (hb : Balanced (.join s .red a z b) h) (ho : Balanced o h)
    (hoc : o.colour = .black) (hu : Balanced u h) (huc : u.colour = .black) :
    ∃ f' top low v w x, f.turnOver s z.slot p.slot q.slot = .ok (Cell.slot low, f') ∧
      f'.Shows (plug (⟨s, .black, top, x⟩ :: π) (.join s .red v low w)) ∧
      Balanced x h ∧ Balanced (.join s .red v low w) h ∧
      (plug (⟨s, .black, top, x⟩ :: π) (.join s .red v low w)).cells =
        (plug (⟨t, .red, p, o⟩ :: ⟨s, .black, q, u⟩ :: π) (.join s .red a z b)).cells ∧
      f.SameCells f' := by
  obtain ⟨ha, hb', hac, hbc⟩ := balanced_join_red.mp hb
  by_cases ht : t = s
  · subst ht
    obtain ⟨f', e, h', c⟩ := turnOver_outer hs
    refine ⟨f', p, z, a, b, _, e, h', balanced_join_red.mpr ⟨hu, ho, huc, hoc⟩, hb, ?_, c⟩
    simp only [plug_cons]
    refine cells_plug_congr ?_
    cases t <;> simp [Tree.join, Side.other]
  · obtain rfl := Side.eq_other_of_ne (Ne.symm ht)
    obtain ⟨f', e, h', c⟩ := turnOver_inner hs
    refine ⟨f', z, p, o, a, _, e, h', balanced_join_red.mpr ⟨hu, hb', huc, hbc⟩,
      balanced_join_red.mpr ⟨ho, ha, hoc, hac⟩, ?_, c⟩
    simp only [plug_cons]
    refine cells_plug_congr ?_
    cases s <;> simp [Tree.join, Side.other]

/-- A red node below a black one is at rest. -/
theorem settleRed_below_black {limit : Nat} {t : Side}
    (hs : f.Shows (plug (⟨t, .black, p, o⟩ :: π) (.join s .red a z b))) :
    settleRed (limit + 1) z.slot f = .ok f := by
  have hz := hs.mem_join
  have hp := hs.mem_above
  simp only [settleRed, node_eq hz, node_eq hp, ok_bind, Cell.parent_nodeAt, above_cons,
    Cell.colour_nodeAt, if_true]

section RedPair

variable {t r : Side} (hs : f.Shows (plug (⟨t, .red, p, o⟩ :: ⟨s, .black, q, u⟩ :: π)
  (.join r .red a z b)))

include hs

/-- One step of the climb, below a red parent. -/
theorem settleRed_step (limit : Nat) :
    settleRed (limit + 1) z.slot f =
      if u.colour = .red then (do
        let f ← f.edit p.slot (.setColour .black)
        let f ← f.editIfAny u.root? (.setColour .black)
        let f ← f.edit q.slot (.setColour .red)
        settleRed limit q.slot f)
      else (do
        let (z, f) ← f.turnOver s z.slot p.slot q.slot
        settleRed limit z f) := by
  have hz := hs.mem_join
  have hp := hs.mem_above
  have hq := Shows.mem_above (π := π) hs
  have hside : (if (q.nodeAt s .black (above π) (some p.slot) u.root?).left = some p.slot
      then Side.left else .right) = s := by
    refine Cell.side_eq _ _ _ _ _ _ fun e => ?_
    have := Shows.root?_ne (π := π) hs (by simp [e])
    rw [Tree.root?_join] at this
    exact this e
  have hcol : f.colour u.root? = .ok u.colour := by
    rw [plug_cons, plug_cons, plug_far] at hs
    exact hs.colour_eq
  rw [Tree.root?_join] at hp hq
  rw [settleRed]
  simp only [node_eq hz, node_eq hp, node_eq hq, ok_bind, Cell.parent_nodeAt,
    Cell.colour_nodeAt, above_cons, hside, Cell.child_other_nodeAt, hcol, reduceCtorEq, if_false]

/-- **The children of the grandparent turn black**, and it turns red in their place. -/
theorem recolourPair_spec (hb : Balanced (.join r .red a z b) h) (ho : Balanced o h)
    (hu : Balanced u h) (huc : u.colour = .red) :
    ∃ f1 f2 f3 u', f.edit p.slot (.setColour .black) = .ok f1 ∧
      f1.editIfAny u.root? (.setColour .black) = .ok f2 ∧
      f2.edit q.slot (.setColour .red) = .ok f3 ∧
      f3.Shows (plug π (.join s .red (.join t .black (.join r .red a z b) p o) q u')) ∧
      Balanced (.join s .red (.join t .black (.join r .red a z b) p o) q u') (h + 1) ∧
      (plug π (.join s .red (.join t .black (.join r .red a z b) p o) q u')).cells =
        (plug (⟨t, .red, p, o⟩ :: ⟨s, .black, q, u⟩ :: π) (.join r .red a z b)).cells ∧
      f.SameCells f3 := by
  obtain ⟨f1, e1, h1, c1⟩ := hs.edit_colour_above .black
  rw [plug_cons, plug_cons, plug_far] at h1
  obtain ⟨f2, e2, h2, c2⟩ := h1.editIfAny_colour .black
  rw [← plug_far] at h2
  obtain ⟨f3, e3, h3, c3⟩ := h2.edit_colour .red
  obtain ⟨h', hu', hh⟩ := hu.paint_black
  obtain rfl := hh huc
  refine ⟨f1, f2, f3, _, e1, e2, e3, h3, ?_, ?_, (c1.trans c2).trans c3⟩
  · exact balanced_join_red.mpr ⟨balanced_join_black.mpr ⟨hb, ho⟩, hu',
      Tree.colour_join _ _ _ _ _, u.colour_paint_black⟩
  · simp only [plug_cons]
    refine cells_plug_congr (Tree.cells_join_congr _ _ _ _ ?_ (Tree.cells_paint _ _))
    exact Tree.cells_join_congr _ _ _ _ rfl rfl

end RedPair

/-- **The climb ends in a tree whose only possible defect is a red root.** -/
theorem settleRed_spec {limit : Nat} (hs : f.Shows (plug π (.join s .red a z b)))
    (hb : Balanced (.join s .red a z b) h) (hf : Fits .black π h) (hl : π.length < limit) :
    ∃ f' t H, settleRed limit z.slot f = .ok f' ∧ f'.Shows t ∧ Balanced (t.paint .black) H ∧
      t.cells = (plug π (.join s .red a z b)).cells ∧ f.SameCells f' := by
  induction limit generalizing f π s a b z h with
  | zero => omega
  | succ limit ih =>
    cases hf with
    | nil =>
      obtain ⟨h', hb', -⟩ := hb.paint_black
      have hz := hs.mem_join
      refine ⟨f, _, h', ?_, hs, hb', rfl, .refl f⟩
      simp only [settleRed, node_eq hz, ok_bind, Cell.parent_nodeAt, above_nil]
    | @black _ p o π _ _ ho hf =>
      obtain ⟨h', hb', hc⟩ := balanced_plug (.black .red ho hf) hb (Tree.colour_join _ _ _ _ _)
      refine ⟨f, _, h', settleRed_below_black hs, hs, ?_, rfl, .refl f⟩
      rwa [Tree.paint_of_colour hc]
    | @red t p o _ _ ho hoc hf =>
      cases hf with
      | @black s' q u π _ _ hu hf =>
        -- the parent `p` is red, so it is not the root: `q` is above it
        have hstep := settleRed_step hs limit
        simp only [List.length_cons] at hl
        cases huc : u.colour with
        | red =>
          -- `q` may clash further up
          obtain ⟨f1, f2, f3, u', e1, e2, e3, h3, hb3, hcells3, c3⟩ :=
            recolourPair_spec hs hb ho hu huc
          obtain ⟨f', T, H, e, hT, hbT, hcells, c⟩ := ih h3 hb3 hf (by omega)
          refine ⟨f', T, H, ?_, hT, hbT, hcells.trans hcells3, c3.trans c⟩
          rw [hstep, if_pos huc]
          simp only [e1, e2, e3, ok_bind, e]
        | black =>
          obtain ⟨a', b', ez⟩ := Tree.exists_join_eq s s' .red a z b
          rw [ez] at hs hb ⊢
          obtain ⟨f', top, low, v, w, x, e, h', hx, hb', hcells, c⟩ :=
            turnOver_spec hs hb ho hoc hu huc
          obtain ⟨H, hH, hc⟩ := balanced_plug (.black .red hx hf) hb'
            (Tree.colour_join _ _ _ _ _)
          refine ⟨f', _, H, ?_, h', ?_, hcells, c⟩
          · obtain ⟨limit, rfl⟩ : ∃ k, limit = k + 1 := ⟨limit - 1, by omega⟩
            rw [hstep, huc]
            simp only [reduceCtorEq, if_false, e, ok_bind]
            exact settleRed_below_black h'
          · rwa [Tree.paint_of_colour hc]

/-- **A climb that ends is the same if it may take more rounds**, in any forest. -/
theorem settleRed_mono {limit more i : Nat} {f f' : Forest} (hle : limit ≤ more) :
    settleRed limit i f = .ok f' → settleRed more i f = .ok f' := by
  induction limit generalizing more i f with
  | zero =>
    intro h
    cases h
  | succ limit ih =>
    obtain ⟨more, rfl⟩ : ∃ k, more = k + 1 := ⟨more - 1, by omega⟩
    have next {i f} := @ih more i f (by omega)
    rw [settleRed, settleRed]
    refine bind_eq_ok_imp fun n => ?_
    cases n.parent with
    | none => exact id
    | some parent =>
      refine bind_eq_ok_imp fun p => ?_
      split
      · exact id
      cases p.parent with
      | none => exact id
      | some grandparent =>
        refine bind_eq_ok_imp fun g => bind_eq_ok_imp fun uncle => ?_
        split
        · exact bind_eq_ok_imp fun _ => bind_eq_ok_imp fun _ => bind_eq_ok_imp fun _ => next
        · exact bind_eq_ok_imp fun _ => next

/-- The climb ends by itself, in no more rounds than there are steps to the root, and one. -/
theorem settleRed_ends (hs : f.Shows (plug π (.join s .red a z b)))
    (hb : Balanced (.join s .red a z b) h) (hf : Fits .black π h) :
    ∃ f', ∀ limit, π.length < limit → settleRed limit z.slot f = .ok f' := by
  obtain ⟨f', -, -, e, -⟩ := settleRed_spec hs hb hf π.length.lt_succ_self
  exact ⟨f', fun limit hl => settleRed_mono hl e⟩

/-- The colours are repaired, and the root is black. -/
theorem mendInsertion_spec (hs : f.Shows (plug π (.join s .red a z b)))
    (hb : Balanced (.join s .red a z b) h) (hf : Fits .black π h) :
    ∃ f' t H, f.mendInsertion z.slot = .ok f' ∧ f'.Shows t ∧ Balanced t H ∧
      t.colour = .black ∧ t.cells = (plug π (.join s .red a z b)).cells ∧ f.SameCells f' := by
  obtain ⟨f1, t, H, e1, h1, hb1, hcells, c1⟩ := settleRed_spec hs hb hf hs.length_lt_stepLimit
  obtain ⟨f2, e2, h2, c2⟩ := Shows.editIfAny_colour (π := []) h1 .black
  refine ⟨f2, _, H, ?_, h2, hb1, t.colour_paint_black, ?_, c1.trans c2⟩
  · simp only [mendInsertion, e1, ok_bind, h1.root, e2]
  · rw [plug_nil, Tree.cells_paint, hcells]

/-- A new node hangs at the end of a path. -/
theorem link_spec {g : Cell} (hs : f.Shows (plug π .leaf))
    (hg : f.mem g.slot = some (g.node .red (above π) none none)) (hnew : g.slot ∉ slotsAround π) :
    ∃ f', f.link (spotAt π) g.slot = .ok f' ∧
      f'.Shows (plug π (.join .left .red .leaf g .leaf)) ∧ f.SameCells f' := by
  obtain ⟨⟨-, hA, hr⟩, -, hπ, -⟩ := shows_plug.mp hs
  have hnd : (Tree.join .left .red .leaf g .leaf).slots.Nodup := by simp [Tree.join]
  have hdis : ∀ i ∈ (Tree.join .left .red .leaf g .leaf).slots, i ∉ slotsAround π := by
    intro i hi
    simp only [Tree.join, Tree.slots_node, Tree.slots_leaf, List.nil_append,
      List.mem_singleton] at hi
    exact hi ▸ hnew
  cases π with
  | nil =>
    refine ⟨{ f with root := some g.slot }, rfl, shows_plug.mpr ⟨⟨⟨hg, trivial, trivial⟩, ?_, rfl⟩,
      hnd, hπ, hdis⟩, ⟨rfl, rfl⟩⟩
    exact trivial
  | cons st π =>
    obtain ⟨s, c, x, o⟩ := st
    obtain ⟨h1, h2, h3⟩ := hA
    simp only [slotsAround, List.mem_cons, List.mem_append, not_or] at hnew
    obtain ⟨hx, -⟩ := List.nodup_cons.mp hπ
    rw [List.mem_append, not_or] at hx
    obtain ⟨f', e, m, r, c'⟩ := edit_spec h1 (.setChild s (some g.slot))
    rw [Cell.setChild_nodeAt] at m
    refine ⟨f', e, shows_plug.mpr ⟨⟨⟨?_, trivial, trivial⟩, ⟨m, h2.congr ?_, h3.congr ?_⟩, ?_⟩,
      hnd, hπ, hdis⟩, c'.toSameCells⟩
    · rw [c'.mem _ (by simpa using hnew.1), hg]
      rfl
    · intro i hi
      exact c'.mem i (by simp; exact fun e => hx.1 (e ▸ hi))
    · intro i hi
      exact c'.mem i (by simp; exact fun e => hx.2 (e ▸ hi))
    · rw [r, hr]
      rfl

/-- A new node hangs where a black one would fit. -/
theorem link_fits {g : Cell} {H : Nat} (hs : f.Shows (plug π .leaf))
    (hb : Balanced (plug π .leaf) H) (hc : (plug π .leaf).colour = .black)
    (hg : f.mem g.slot = some (g.node .red (above π) none none)) (hnew : g.slot ∉ slotsAround π) :
    ∃ f' k, f.link (spotAt π) g.slot = .ok f' ∧
      f'.Shows (plug π (.join .left .red .leaf g .leaf)) ∧
      Balanced (.join .left .red .leaf g .leaf) k ∧ Fits .black π k ∧ f.SameCells f' := by
  obtain ⟨f', e, h', c⟩ := link_spec hs hg hnew
  obtain ⟨k, hk, hf⟩ := exists_fits hb hc
  exact ⟨f', k, e, h', balanced_join_red.mpr ⟨hk, hk, rfl, rfl⟩, hf, c⟩

/-- **A node attached at a vacant place** of a balanced tree ends up in a balanced tree, between
the cells before and behind the place. -/
theorem attach_spec {g : Cell} {H : Nat} (hs : f.Shows (plug π .leaf))
    (hb : Balanced (plug π .leaf) H) (hc : (plug π .leaf).colour = .black)
    (hg : f.mem g.slot = some (g.node .red (above π) none none)) (hnew : g.slot ∉ slotsAround π) :
    ∃ f' t H', f.attach (spotAt π) g.slot = .ok f' ∧ f'.Shows t ∧ Balanced t H' ∧
      t.colour = .black ∧ t.cells = cellsBefore π ++ g :: cellsAfter π ∧ f.SameCells f' := by
  obtain ⟨f1, k, e1, h1, hz, hf, c1⟩ := link_fits hs hb hc hg hnew
  obtain ⟨f2, t, H', e2, h2, hb2, hc2, hcells, c2⟩ := mendInsertion_spec h1 hz hf
  refine ⟨f2, t, H', ?_, h2, hb2, hc2, ?_, c1.trans c2⟩
  · rw [attach, e1, ok_bind, e2]
  · rw [hcells, cells_plug]
    rfl

end BlockDoc.Multimap.Forest
