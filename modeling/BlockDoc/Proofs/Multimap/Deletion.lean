/-
# Repairing the colours after a deletion

The loop carries one defect upwards: a subtree of `h` black levels, possibly without a root,
stands where `h + 1` are asked for (`Balanced t h` and `Fits .black π (h + 1)`).  A red root of
the subtree, or the root of the whole tree, makes up for it.  Otherwise the sibling has a black
level, so it is there; it is made black first, and then it either turns red, which moves the
defect one step up, or lends a black node.

Main statement: `delete_spec`.  Deleting any node of a balanced tree leaves a balanced tree with
the other cells in the same order, and gives back the cell of this very node.
-/
import BlockDoc.Proofs.Multimap.Relink

namespace BlockDoc.Multimap.Forest

variable {f : Forest} {π ρ σ : List Step} {s : Side} {c d : Colour} {l r e n o t u : Tree}
  {p w y z : Cell} {h H : Nat}

/-! ## 1. The sibling -/

section Sibling

variable {k : Colour} (hs : f.Shows (plug (⟨s, c, p, .join s k n w e⟩ :: π) t))

include hs

/-- The node of the sibling, with all its links. -/
theorem Shows.mem_sibling : f.mem w.slot = some (w.nodeAt s k (some p.slot) n.root? e.root?) := by
  rw [plug_cons, plug_far] at hs
  exact hs.mem_join

/-- The near child of the sibling has its colour. -/
theorem Shows.colour_near : f.colour n.root? = .ok n.colour := by
  rw [plug_cons, plug_far, ← plug_cons] at hs
  exact hs.colour_eq

/-- The far child of the sibling has its colour. -/
theorem Shows.colour_far : f.colour e.root? = .ok e.colour := by
  rw [plug_cons, plug_far, plug_far] at hs
  exact hs.colour_eq

end Sibling

/-- Giving the sibling of a place another colour. -/
theorem Shows.edit_colour_sibling {c' : Colour}
    (hs : f.Shows (plug (⟨s, c, p, .join s c' n w e⟩ :: π) t)) (d : Colour) :
    ∃ f', f.edit w.slot (.setColour d) = .ok f' ∧
      f'.Shows (plug (⟨s, c, p, .join s d n w e⟩ :: π) t) ∧ f.SameCells f' := by
  rw [plug_cons, plug_far] at hs
  obtain ⟨f', e', h', c'⟩ := hs.edit_colour d
  rw [← plug_far] at h'
  exact ⟨f', e', h', c'⟩

/-- **The sibling of a short place is made black.**  A red one is rotated over the parent, which
is red then. -/
theorem lowerSibling_spec {i : Nat} (hs : f.Shows (plug (⟨s, c, p, o⟩ :: π) t))
    (hi : o.root? = some i) (ho : Balanced o (h + 1))
    (hf : Fits .black (⟨s, c, p, o⟩ :: π) (h + 1)) :
    ∃ f' d n w e ρ, f.lowerSibling s p.slot i = .ok (Cell.slot w, f') ∧
      f'.Shows (plug (⟨s, d, p, .join s .black n w e⟩ :: ρ) t) ∧
      Balanced n h ∧ Balanced e h ∧ Fits .black (⟨s, d, p, .join s .black n w e⟩ :: ρ) (h + 1) ∧
      (d = .black → ρ = π) ∧
      (plug (⟨s, d, p, .join s .black n w e⟩ :: ρ) t).cells =
        (plug (⟨s, c, p, o⟩ :: π) t).cells ∧ f.SameCells f' := by
  obtain ⟨co, n, w, e, rfl⟩ := ho.exists_join s
  obtain rfl : w.slot = i := by simpa using hi
  have hw := hs.mem_sibling
  cases co with
  | black =>
    obtain ⟨hn, he⟩ := balanced_join_black.mp ho
    refine ⟨f, c, n, w, e, π, ?_, hs, hn, he, hf, fun _ => rfl, rfl, .refl f⟩
    simp [lowerSibling, node_eq hw]
  | red =>
    obtain ⟨hn, he, hnc, hec⟩ := balanced_join_red.mp ho
    -- a red sibling stands below a black parent
    cases hf with
    | red _ hc => simp at hc
    | black _ _ hf =>
      obtain ⟨f1, e1, h1, c1⟩ := hs.edit_colour_sibling .black
      obtain ⟨f2, e2, h2, c2⟩ := h1.edit_colour_above .red
      obtain ⟨f3, e3, h3, c3⟩ := Shows.rotate (π := π) h2
      rw [← plug_cons, ← plug_cons] at h3
      have hp3 := h3.mem_above
      obtain ⟨cn, n1, k, n2, rfl⟩ := hn.exists_join s
      obtain rfl : cn = .black := by simpa using hnc
      obtain ⟨hn1, hn2⟩ := balanced_join_black.mp hn
      refine ⟨f3, .red, n1, k, n2, ⟨s, .black, w, e⟩ :: π, ?_, h3, hn1, hn2,
        .red hn hnc (.black .red he hf), by simp, ?_, (c1.trans c2).trans c3⟩
      · simp only [lowerSibling, node_eq hw, node_eq hp3, ok_bind, Cell.colour_nodeAt, if_true,
          Cell.child_other_nodeAt, Tree.root?_join, e1, e2, e3]
      · simp only [plug_cons]
        exact cells_plug_congr (Tree.cells_rotate _ _ _ _ _ _ _ _ _ _)

/-! ## 2. Borrowing a black node -/

/-- A red near nephew is turned outwards. -/
theorem turnOutward_spec (hs : f.Shows (plug (⟨s, c, p, .join s .black n w e⟩ :: π) t))
    (hn : Balanced n h) (he : Balanced e h)
    (hred : n.colour = .red ∨ e.colour = .red) :
    ∃ f' n' w' e', f.turnOutward s p.slot w.slot = .ok (Cell.slot w', f') ∧
      f'.Shows (plug (⟨s, c, p, .join s .black n' w' e'⟩ :: π) t) ∧
      Balanced n' h ∧ Balanced e' h ∧ e'.colour = .red ∧
      (plug (⟨s, c, p, .join s .black n' w' e'⟩ :: π) t).cells =
        (plug (⟨s, c, p, .join s .black n w e⟩ :: π) t).cells ∧ f.SameCells f' := by
  have hw := hs.mem_sibling
  have hcol := hs.colour_far
  cases hec : e.colour with
  | red =>
    refine ⟨f, n, w, e, ?_, hs, hn, he, hec, rfl, .refl f⟩
    simp only [turnOutward, node_eq hw, ok_bind, Cell.child_other_nodeAt, hcol, hec, reduceCtorEq,
      if_false]
  | black =>
    have hs' := hs
    rw [plug_cons, plug_far, ← plug_cons] at hs'
    obtain ⟨f1, e1, h1, c1⟩ := hs'.editIfAny_colour .black
    obtain ⟨f2, e2, h2, c2⟩ := h1.edit_colour_above .red
    obtain ⟨n1, k, n2, rfl⟩ : ∃ n1 k n2, n = .join s .red n1 k n2 := by
      cases n with
      | leaf => simp [hec] at hred
      | node cn l g r =>
        obtain rfl : cn = .red := by simpa [hec] using hred
        obtain ⟨n1, n2, e'⟩ := Tree.exists_join s .red l g r
        exact ⟨n1, g, n2, e'⟩
    rw [Tree.root?_join] at e1
    rw [Tree.paint_join, plug_cons, ← Tree.join_other, ← Tree.join_other s .black] at h2
    obtain ⟨f3, e3, h3, c3⟩ := h2.rotate
    rw [Tree.join_other s .black, Tree.join_other s .red, ← plug_far] at h3
    have hp3 := h3.mem_join
    rw [← plug_cons] at h3
    obtain ⟨hn1, hn2, hc1, hc2⟩ := balanced_join_red.mp hn
    refine ⟨f3, n1, k, .join s .red n2 w e, ?_, h3, hn1,
      balanced_join_red.mpr ⟨hn2, he, hc2, hec⟩, Tree.colour_join _ _ _ _ _, ?_,
      (c1.trans c2).trans c3⟩
    · simp only [turnOutward, node_eq hw, node_eq hp3, ok_bind, Cell.child_other_nodeAt,
        Cell.child_nodeAt, hcol, hec, if_true, Tree.root?_join, e1, e2, e3]
    · simp only [plug_cons]
      refine cells_plug_congr (Tree.cells_join_congr _ _ _ _ rfl ?_)
      exact (Tree.cells_rotate _ _ _ _ _ _ _ _ _ _).symm

/-- **A black node is brought over from the sibling**, and nothing is short any more. -/
theorem borrow_spec (hs : f.Shows (plug (⟨s, c, p, .join s .black n w e⟩ :: π) t))
    (ht : Balanced t h) (hn : Balanced n h) (he : Balanced e h)
    (hred : n.colour = .red ∨ e.colour = .red)
    (hf : Fits .black (⟨s, c, p, .join s .black n w e⟩ :: π) (h + 1)) :
    ∃ f' u H, f.borrow s p.slot w.slot = .ok f' ∧ f'.Shows u ∧ Balanced u H ∧
      u.colour = .black ∧
      u.cells = (plug (⟨s, c, p, .join s .black n w e⟩ :: π) t).cells ∧ f.SameCells f' := by
  obtain ⟨f0, n', w', e', e0, h0, hn', he', hec, hcells, c0⟩ := turnOutward_spec hs hn he hred
  have hp := h0.mem_above
  have h0' := h0
  rw [plug_cons, plug_far] at h0'
  obtain ⟨f1, e1, h1, c1⟩ := h0'.edit_colour c
  rw [← plug_far, ← plug_cons] at h1
  obtain ⟨f2, e2, h2, c2⟩ := h1.edit_colour_above .black
  have h2' := h2
  rw [plug_cons, plug_far] at h2'
  have hw := h2'.mem_join
  rw [plug_far] at h2'
  obtain ⟨f3, e3, h3, c3⟩ := h2'.editIfAny_colour .black
  rw [← plug_far, ← plug_far] at h3
  obtain ⟨f4, e4, h4, c4⟩ := h3.rotate
  obtain ⟨h', hpb, hh⟩ := he'.paint_black
  obtain rfl := hh hec
  have hnew : Balanced (.join s .black t p n') (h + 1) := balanced_join_black.mpr ⟨ht, hn'⟩
  obtain ⟨H, hH, hHc⟩ : ∃ H, Balanced (plug π (.join s c (.join s .black t p n') w'
      (e'.paint .black))) H ∧ (plug π (.join s c (.join s .black t p n') w'
      (e'.paint .black))).colour = .black := by
    cases hf with
    | red _ _ hf =>
      exact balanced_plug hf (balanced_join_red.mpr
        ⟨hnew, hpb, Tree.colour_join _ _ _ _ _, e'.colour_paint_black⟩) (Tree.colour_join _ _ _ _ _)
    | black _ _ hf =>
      exact balanced_plug hf (balanced_join_black.mpr ⟨hnew, hpb⟩) (Tree.colour_join _ _ _ _ _)
  refine ⟨f4, _, H, ?_, h4, hH, hHc, ?_, (((c0.trans c1).trans c2).trans c3).trans c4⟩
  · simp only [borrow, e0, node_eq hp, node_eq hw, ok_bind, Cell.colour_nodeAt,
      Cell.child_other_nodeAt, e1, e2, e3, e4]
  · rw [← hcells]
    simp only [plug_cons]
    refine cells_plug_congr ((Tree.cells_rotate s .black c c c _ _ _ _ _).trans ?_)
    exact Tree.cells_join_congr _ _ _ _ rfl
      (Tree.cells_join_congr _ _ _ _ rfl (Tree.cells_paint _ _))

/-! ## 3. The climb -/

/-- What makes up for a shortage is returned at once. -/
theorem settleShort_of_red (hs : f.Shows (plug π t)) (ht : t.colour = .red) (q : Option Nat)
    (limit : Nat) : settleShort (limit + 1) t.root? q f = .ok (t.root?, f) := by
  simp [settleShort, hs.colour_eq, ht]

/-- One step of the climb, once the sibling is known to be black. -/
theorem settleShort_step (limit : Nat) {i : Nat} {f1 : Forest}
    (hs : f.Shows (plug (⟨s, c, p, o⟩ :: π) t))
    (ht : t.colour = .black) (hi : o.root? = some i)
    (e1 : f.lowerSibling s p.slot i = .ok (w.slot, f1))
    (h1 : f1.Shows (plug (⟨s, d, p, .join s .black n w e⟩ :: ρ) t)) :
    settleShort (limit + 1) t.root? (above (⟨s, c, p, o⟩ :: π)) f =
      if n.colour = .black ∧ e.colour = .black then (do
        let f ← f1.edit w.slot (.setColour .red)
        settleShort limit (some p.slot) (← f.node p.slot).parent f)
      else (do
        let f ← f1.borrow s p.slot w.slot
        .ok (f.root, f)) := by
  have hp := hs.mem_above
  have hne : o.root? ≠ t.root? := by
    have hs' := hs
    rw [plug_cons] at hs'
    exact hs'.root?_ne (by simp [hi])
  rw [hi] at hp hne
  have hside := Cell.side_eq p s c (above π) _ _ hne
  simp [settleShort, hs.root?_ne_root, hs.colour_eq, ht, node_eq hp, hside, e1,
    node_eq h1.mem_sibling, h1.colour_near, h1.colour_far]

/-- **The sibling turns red**, and the parent is short in its place. -/
theorem recolour_spec (h1 : f.Shows (plug (⟨s, d, p, .join s .black n w e⟩ :: ρ) t))
    (ht : Balanced t h) (hn : Balanced n h) (he : Balanced e h) (hnc : n.colour = .black)
    (hec : e.colour = .black) :
    ∃ f', f.edit w.slot (.setColour .red) = .ok f' ∧
      (∃ q, f'.node p.slot = .ok q ∧ q.parent = above ρ) ∧
      f'.Shows (plug ρ (.join s d t p (.join s .red n w e))) ∧
      Balanced (.join s .black t p (.join s .red n w e)) (h + 1) ∧
      (plug ρ (.join s d t p (.join s .red n w e))).cells =
        (plug (⟨s, d, p, .join s .black n w e⟩ :: ρ) t).cells ∧ f.SameCells f' := by
  obtain ⟨f', e', h', c'⟩ := h1.edit_colour_sibling .red
  have hred : Balanced (.join s .red n w e) h := balanced_join_red.mpr ⟨hn, he, hnc, hec⟩
  refine ⟨f', e', ⟨_, node_eq h'.mem_above, Cell.parent_nodeAt ..⟩, ?_,
    balanced_join_black.mpr ⟨ht, hred⟩, ?_, c'⟩
  · rwa [plug_cons] at h'
  · rw [plug_cons s d]
    exact cells_plug_congr (Tree.cells_join_congr _ _ _ _ rfl
      (Tree.cells_join_congr _ _ _ _ rfl rfl))

/-- The climb from a short subtree ends at a place where one more black level makes up for the
shortage. -/
def Settles (limit : Nat) (f : Forest) (π : List Step) (t : Tree) : Prop :=
  ∃ f' ρ u H, settleShort limit t.root? (above π) f = .ok (u.root?, f') ∧
    f'.Shows (plug ρ u) ∧ Balanced (plug ρ (u.paint .black)) H ∧
    (plug ρ (u.paint .black)).colour = .black ∧ (plug ρ u).cells = (plug π t).cells ∧
    f.SameCells f'

/-- A red root only has to turn black. -/
theorem settles_of_red {limit : Nat} (hs : f.Shows (plug π t)) (hc : t.colour = .red)
    (hb : Balanced (t.paint .black) h) (hf : Fits .black π h) : Settles (limit + 1) f π t := by
  obtain ⟨H, hH, hcH⟩ := balanced_plug hf hb t.colour_paint_black
  exact ⟨f, π, t, H, settleShort_of_red hs hc _ _, hs, hH, hcH, rfl, .refl f⟩

/-- A shortage at the root of the whole tree shortens every way alike. -/
theorem settles_top {limit : Nat} (hs : f.Shows (plug [] t)) (ht : Balanced t h)
    (hc : t.colour = .black) : Settles (limit + 1) f [] t := by
  refine ⟨f, [], t, h, ?_, hs, ?_, t.colour_paint_black, rfl, .refl f⟩
  · have hroot := hs.root
    rw [plug_nil] at hroot
    simp [settleShort, hs.colour_eq, hroot]
  · rwa [plug_nil, Tree.paint_of_colour hc]

/-- **The climb ends at a place where one more black level makes up for the shortage.** -/
theorem settleShort_spec {limit : Nat} (hs : f.Shows (plug π t)) (ht : Balanced t h)
    (hf : Fits .black π (h + 1)) (hl : π.length < limit) : Settles limit f π t := by
  induction limit generalizing f π t h with
  | zero => omega
  | succ limit ih =>
    cases htc : t.colour with
    | red =>
      obtain ⟨h', hp, hh⟩ := ht.paint_black
      obtain rfl := hh htc
      exact settles_of_red hs htc hp hf
    | black =>
      cases π with
      | nil => exact settles_top hs ht htc
      | cons st π =>
        obtain ⟨s, c, p, o⟩ := st
        have ho : Balanced o (h + 1) := by
          cases hf with
          | red ho => exact ho
          | black _ ho => exact ho
        obtain ⟨co, oa, v, ob, eo⟩ := ho.exists_join s
        have hi : o.root? = some v.slot := by rw [eo, Tree.root?_join]
        obtain ⟨f1, d, n, w, e, ρ, e1, h1, hn, he, hf1, hρ, hcells, c1⟩ :=
          lowerSibling_spec hs hi ho hf
        have hstep := settleShort_step limit hs htc hi e1 h1
        by_cases hblack : n.colour = .black ∧ e.colour = .black
        · obtain ⟨f2, e2, ⟨q, eq, hq⟩, h2, hb2, hcells2, c2⟩ :=
            recolour_spec h1 ht hn he hblack.1 hblack.2
          rw [if_pos hblack] at hstep
          simp only [e2, eq, hq, ok_bind] at hstep
          -- the whole parent is short now, unless it is red
          have hparent : Settles limit f2 ρ (.join s d t p (.join s .red n w e)) := by
            rw [List.length_cons] at hl
            cases hf1 with
            | black _ _ hf1 =>
              obtain rfl := hρ rfl
              exact ih h2 hb2 hf1 (by omega)
            | red _ _ hf1 =>
              obtain ⟨limit, rfl⟩ : ∃ k, limit = k + 1 := ⟨limit - 1, by omega⟩
              rw [← Tree.paint_join s .red] at hb2
              exact settles_of_red h2 (Tree.colour_join ..) hb2 hf1.of_red
          obtain ⟨f3, ρ', u, H, e3, h3, hH, hc, hcells3, c3⟩ := hparent
          rw [Tree.root?_join] at e3
          exact ⟨f3, ρ', u, H, hstep.trans e3, h3, hH, hc, (hcells3.trans hcells2).trans hcells,
            (c1.trans c2).trans c3⟩
        · have hred : n.colour = .red ∨ e.colour = .red := by
            cases hnc : n.colour <;> cases hec : e.colour <;> simp_all
          obtain ⟨f2, u, H, e2, h2, hH, hc, hcells2, c2⟩ := borrow_spec h1 ht hn he hred hf1
          rw [if_neg hblack] at hstep
          simp only [e2, ok_bind, h2.root] at hstep
          refine ⟨f2, [], u, H, hstep, h2, ?_, u.colour_paint_black, hcells2.trans hcells,
            c1.trans c2⟩
          rwa [plug_nil, Tree.paint_of_colour hc]

/-- **A climb that ends is the same if it may take more rounds**, in any forest. -/
theorem settleShort_mono {limit more : Nat} {x parent : Option Nat} {g : Option Nat × Forest}
    (hle : limit ≤ more) :
    settleShort limit x parent f = .ok g → settleShort more x parent f = .ok g := by
  induction limit generalizing more x parent f with
  | zero =>
    intro h
    cases h
  | succ limit ih =>
    obtain ⟨more, rfl⟩ : ∃ k, more = k + 1 := ⟨more - 1, by omega⟩
    have next {x parent f} := @ih f more x parent (by omega)
    cases parent with
    | none => exact id
    | some p =>
      rw [settleShort, settleShort]
      refine bind_eq_ok_imp fun colour => ?_
      split
      · exact id
      refine bind_eq_ok_imp fun n => ?_
      -- the side of the short subtree does not depend on the limit
      dsimp only
      generalize (if n.left = x then Side.left else Side.right) = s
      cases n.child s.other with
      | none => exact id
      | some w =>
        refine bind_eq_ok_imp fun _ => bind_eq_ok_imp fun _ => bind_eq_ok_imp fun near =>
          bind_eq_ok_imp fun far => ?_
        split
        · exact bind_eq_ok_imp fun _ => bind_eq_ok_imp fun _ => next
        · exact id

/-- The climb ends by itself, in no more rounds than there are steps to the root, and one. -/
theorem settleShort_ends (hs : f.Shows (plug π t)) (ht : Balanced t h)
    (hf : Fits .black π (h + 1)) :
    ∃ g, ∀ limit, π.length < limit → settleShort limit t.root? (above π) f = .ok g := by
  obtain ⟨f', -, u, -, e, -⟩ := settleShort_spec hs ht hf π.length.lt_succ_self
  exact ⟨(u.root?, f'), fun limit hl => settleShort_mono hl e⟩

/-- The colours are repaired. -/
theorem mendDeletion_spec (hs : f.Shows (plug π t)) (ht : Balanced t h)
    (hf : Fits .black π (h + 1)) :
    ∃ f' u H, f.mendDeletion t.root? (above π) = .ok f' ∧ f'.Shows u ∧ Balanced u H ∧
      u.colour = .black ∧ u.cells = (plug π t).cells ∧ f.SameCells f' := by
  obtain ⟨f1, ρ, u, H, e1, h1, hH, hc, hcells, c1⟩ :=
    settleShort_spec hs ht hf hs.length_lt_stepLimit
  obtain ⟨f2, e2, h2, c2⟩ := h1.editIfAny_colour .black
  refine ⟨f2, _, H, ?_, h2, hH, hc, ?_, c1.trans c2⟩
  · simp only [mendDeletion, e1, ok_bind, e2]
  · rw [← hcells]
    exact cells_plug_congr (Tree.cells_paint _ _)

/-! ## 4. Taking a node out -/

/-- A node that is replaced by its only child, or by none, leaves a shortage iff it was black. -/
theorem exists_fits_gap (hb : Balanced (plug ρ (.join s d .leaf y u)) H)
    (hc : (plug ρ (.join s d .leaf y u)).colour = .black) :
    ∃ h, Balanced u h ∧ (d = .black → Fits .black ρ (h + 1)) ∧
      (d = .red → u.colour = .black ∧ Fits .black ρ h) := by
  obtain ⟨h, hj, hf⟩ := exists_fits hb hc
  rw [Tree.colour_join] at hf
  cases d with
  | red =>
    obtain ⟨-, hu, -, huc⟩ := balanced_join_red.mp hj
    exact ⟨h, hu, by simp, fun _ => ⟨huc, hf.of_red⟩⟩
  | black =>
    obtain ⟨k, rfl⟩ := pos_of_balanced_join_black hj
    obtain ⟨-, hu⟩ := balanced_join_black.mp hj
    exact ⟨k, hu, fun _ => hf, by simp⟩

theorem slots_plug_join_perm :
    (plug σ (.join s d .leaf y u)).slots.Perm (y.slot :: (plug σ u).slots) := by
  refine (slots_plug_perm σ _).trans ?_
  refine ((Tree.slots_join_perm _ _ _ _ _).append_right _).trans ?_
  exact ((slots_plug_perm σ u).symm).cons _

/-- What `cut` leaves of the tree around a node `z`: the place of the gap, with the tree that
fills it, the gap it reports, and the cells. -/
structure Cut (f f' : Forest) (π : List Step) (l r : Tree) (gap : Gap) (ρ : List Step) (u : Tree) :
    Prop where
  /-- The tree afterwards. -/
  shows : f'.Shows (plug ρ u)
  /-- The gap names the subtree that fills it. -/
  child : gap.child = u.root?
  /-- The gap names the node above it. -/
  above : gap.above = Multimap.above ρ
  /-- The other cells keep their order. -/
  cells : (plug ρ u).cells = cellsBefore π ++ (l.cells ++ (r.cells ++ cellsAfter π))
  /-- No cell was made, taken or given back. -/
  same : f.SameCells f'

/-- The node `y`, which has no left child, leaves its place below the right child of `z`, and
what is left of the right subtree hangs at `y`. -/
theorem pullUp_spec {j : Nat}
    (hs : f.Shows (plug (σ ++ ⟨.right, c, z, l⟩ :: π) (.join .left d .leaf y u)))
    (hj : (plug σ u).root? = some j) :
    ∃ f', f.pullUp y.slot j u.root? = .ok f' ∧
      f'.mem y.slot = some (y.nodeAt .left d (above (σ ++ ⟨.right, c, z, l⟩ :: π)) none (some j)) ∧
      Holds f'.mem (some y.slot) (plug σ u) ∧ Holds f'.mem (some z.slot) l ∧
      (∃ n, f'.mem z.slot = some n ∧ n.parent = above π) ∧
      HoldsAround f'.mem (some z.slot) π ∧ f'.root = topOf (some z.slot) π ∧ f.SameCells f' := by
  have hyrec := hs.mem_join
  have hperm := slots_plug_join_perm (σ := σ ++ ⟨.right, c, z, l⟩ :: π) (s := .left) (d := d)
    (y := y) (u := u)
  have hy := (List.nodup_cons.mp (hperm.nodup_iff.mp hs.nodup)).1
  obtain ⟨f1, e1, h1, m1, c1⟩ := hs.transplant
  rw [plug_append, plug_cons] at h1 hy
  obtain ⟨⟨hH, hA, hroot⟩, hnd, hπ, hdis⟩ := shows_plug.mp h1
  obtain ⟨hz, hR, hl⟩ := holds_join.mp hH
  rw [(slots_plug_perm π _).mem_iff] at hy
  simp only [nodup_slots_join, Tree.mem_slots_join, List.mem_append,
    Tree.root?_join] at hnd hdis hy hA hroot
  obtain ⟨hzR, hzl, hRd, hld, hRl⟩ := hnd
  rw [hyrec] at m1
  obtain ⟨f2, e2, m2, r2, c2⟩ := edit_spec m1 (.setChild .right (some j))
  have hR2 : Holds f2.mem (some z.slot) (plug σ u) := hR.congr fun i hi => c2.mem i (by grind)
  obtain ⟨f3, e3, hR3, r3, c3⟩ := reparent_spec hR2 hRd (some y.slot)
  have c23 := c2.trans c3
  rw [hj, editIfAny] at e3
  refine ⟨f3, ?_, ?_, hR3, ?_, ⟨z.nodeAt .right c (above π) (plug σ u).root? l.root?, ?_,
    Cell.parent_nodeAt ..⟩, ?_, ?_, c1.trans c23.toSameCells⟩
  · simp only [pullUp, e1, ok_bind, e2, e3]
  · rw [c3.mem _ (by grind), m2]
    rfl
  · exact hl.congr fun i hi => c23.mem i (by grind)
  · rw [c23.mem _ (by grind), hz]
  · exact hA.congr fun i hi => c23.mem i (by grind)
  · rw [r3, r2, hroot]

/-- With `y` in the place of `z` every slot still has one place, and that of `z` has none. -/
theorem nodup_replaced
    (h : (plug π (.node c l z (plug σ (.join .left d .leaf y u)))).slots.Nodup) :
    (plug π (.node c l y (plug σ u))).slots.Nodup ∧
      z.slot ∉ (plug π (.node c l y (plug σ u))).slots := by
  obtain ⟨hnd, hπ, hdis⟩ := nodup_slots_plug.mp h
  obtain ⟨hzl, hzr, hld, hrd, hlr⟩ := nodup_slots_join (s := .left).mp hnd
  have hperm := slots_plug_join_perm (σ := σ) (s := .left) (d := d) (y := y) (u := u)
  rw [hperm.nodup_iff, List.nodup_cons] at hrd
  obtain ⟨hyu, hud⟩ := hrd
  simp only [hperm.mem_iff, List.mem_cons, not_or, Tree.slots_node, List.mem_append]
    at hzr hlr hdis
  constructor
  · refine nodup_slots_plug.mpr ⟨(nodup_slots_join (s := .left) (c := c)).mpr
      ⟨?_, hyu, hld, hud, ?_⟩, hπ, ?_⟩
    · grind
    · grind
    · simp only [Tree.slots_node, List.mem_append, List.mem_cons]
      grind
  · rw [(slots_plug_perm π _).mem_iff]
    simp only [Tree.slots_node, List.mem_append, List.mem_cons]
    grind

/-- Taking `y` out of the right subtree of `z` and `z` out of the tree leaves the other cells of
this subtree in their order. -/
theorem cells_replaced (hσ : ∀ st ∈ σ, st.side = .left) :
    (plug (σ ++ ⟨.right, c, y, l⟩ :: π) u).cells = cellsBefore π ++
      (l.cells ++ ((plug σ (.join .left d .leaf y u)).cells ++ cellsAfter π)) := by
  rw [plug_append, plug_cons, cells_plug, cells_plug, cellsBefore_of_left hσ]
  simp [Tree.join, cells_plug, cellsBefore_of_left hσ]

/-- A node with two children is replaced by the next one in order, which hangs at a gap. -/
theorem cut_inner (hs : f.Shows (plug π (.node c l z r))) (hl : l ≠ .leaf) (hr : r ≠ .leaf) :
    ∃ f' σ d y u, r = plug σ (.join .left d .leaf y u) ∧
      f.cut z.slot = .ok (⟨d, u.root?, above (σ ++ ⟨.right, c, y, l⟩ :: π)⟩, f') ∧
      Cut f f' π l r ⟨d, u.root?, above (σ ++ ⟨.right, c, y, l⟩ :: π)⟩
        (σ ++ ⟨.right, c, y, l⟩ :: π) u := by
  obtain ⟨i, hi⟩ := Option.ne_none_iff_exists'.mp (mt Tree.root?_eq_none_iff.mp hl)
  obtain ⟨j, hj⟩ := Option.ne_none_iff_exists'.mp (mt Tree.root?_eq_none_iff.mp hr)
  obtain ⟨⟨hH, hA, hroot⟩, -⟩ := shows_plug.mp hs
  obtain ⟨hz, hHl, hHr⟩ := holds_join (s := .left).mp hH
  have hheight : r.height ≤ f.stepLimit := by
    have hle := length_add_height_le π (.node c l z r)
    have hlt := hs.height_lt_stepLimit
    rw [Tree.height] at hle
    omega
  obtain ⟨σ, d, y, u, rfl, hσ, hy⟩ := outermostFrom_spec (s := .left) hHr hj hheight
  obtain ⟨hnd, hzy⟩ := nodup_replaced hs.nodup
  have hs' : f.Shows (plug (σ ++ ⟨.right, c, z, l⟩ :: π) (.join .left d .leaf y u)) := by
    rw [plug_append, plug_cons]
    exact hs
  have hyrec := hs'.mem_join
  cases σ with
  | nil =>
    -- `y` is the right child of `z` and keeps its own right subtree
    obtain ⟨-, -, hHu⟩ := holds_join.mp hHr
    obtain ⟨f', e, h', c'⟩ := takeOver_spec (c := c) hz (Cell.parent_nodeAt ..) hyrec hHl hi hHu
      hA hroot hnd hzy
    refine ⟨f', [], d, y, u, rfl, ?_, h', rfl, rfl, cells_replaced hσ, c'⟩
    simp only [cut, node_eq hz, ok_bind, Cell.nodeAt, Cell.node, hi, hj, outermost, hy]
    rw [node_eq hyrec]
    simp [Cell.nodeAt, Cell.node, e]
  | cons st σ =>
    have hj' : (plug (st :: σ) u).root? = some j := by
      rw [root?_plug, topOf] at hj ⊢
      exact hj
    have hne : st.cell.slot ≠ z.slot := by
      intro e'
      refine hzy (((slots_plug_perm π _).mem_iff).mpr (List.mem_append_left _ ?_))
      rw [← e', Tree.slots_node]
      refine List.mem_append_right _ (List.mem_cons_of_mem _ ?_)
      refine ((slots_plug_perm (st :: σ) u).mem_iff).mpr (List.mem_append_right _ ?_)
      rw [slotsAround]
      exact List.mem_cons_self
    obtain ⟨f1, e1, hy1, hR1, hl1, ⟨n, hz1, hn⟩, hA1, r1, c1⟩ := pullUp_spec hs' hj'
    rw [← hj'] at hy1
    obtain ⟨f2, e2, h2, c2⟩ := takeOver_spec (c := c) hz1 hn hy1 hl1 hi hR1 hA1 r1 hnd hzy
    refine ⟨f2, st :: σ, d, y, u, rfl, ?_, ?_, rfl, rfl, cells_replaced hσ, c1.trans c2⟩
    · simp only [cut, node_eq hz, ok_bind, Cell.nodeAt, Cell.node, hi, hj, outermost, hy]
      rw [node_eq hyrec]
      simp [Cell.nodeAt, Cell.node, hne, e1, e2]
    · rw [plug_append, plug_cons]
      exact h2

/-- **Taking a node out of a balanced tree leaves at most one place short**, and the gap says
where.  The place is above the bottom of the tree. -/
theorem cut_spec (hs : f.Shows (plug π (.node c l z r))) (hb : Balanced (plug π (.node c l z r)) H)
    (hc : (plug π (.node c l z r)).colour = .black) :
    ∃ f' gap ρ u h, f.cut z.slot = .ok (gap, f') ∧ Cut f f' π l r gap ρ u ∧
      ρ.length < (plug π (.node c l z r)).height ∧ Balanced u h ∧
      (gap.colour = .black → Fits .black ρ (h + 1)) ∧
      (gap.colour = .red → u.colour = .black ∧ Fits .black ρ h) := by
  have hz : f.mem z.slot = some (z.nodeAt .left c (Multimap.above π) l.root? r.root?) :=
    hs.mem_join
  by_cases hl : l = .leaf
  · subst hl
    obtain ⟨h, hu, h1, h2⟩ := exists_fits_gap (s := .left) hb hc
    obtain ⟨f', e, h', -, c'⟩ := Shows.transplant (s := .left) hs
    refine ⟨f', ⟨c, r.root?, Multimap.above π⟩, π, r, h, ?_, ⟨h', rfl, rfl, ?_, c'⟩,
      length_lt_height π c .leaf z r, hu, h1, h2⟩
    · simp only [cut, node_eq hz, ok_bind, Cell.nodeAt, Cell.node, Tree.root?_leaf, e]
    · rw [cells_plug]
      simp
  by_cases hr : r = .leaf
  · subst hr
    obtain ⟨h, hu, h1, h2⟩ := exists_fits_gap (s := .right) hb hc
    obtain ⟨f', e, h', -, c'⟩ := Shows.transplant (s := .right) hs
    obtain ⟨i, hi⟩ := Option.ne_none_iff_exists'.mp (mt Tree.root?_eq_none_iff.mp hl)
    rw [hi] at e
    refine ⟨f', ⟨c, l.root?, Multimap.above π⟩, π, l, h, ?_, ⟨h', rfl, rfl, ?_, c'⟩,
      length_lt_height π c l z .leaf, hu, h1, h2⟩
    · simp only [cut, node_eq hz, ok_bind, Cell.nodeAt, Cell.node, Tree.root?_leaf, hi, e]
    · rw [cells_plug]
      simp
  · obtain ⟨f', σ, d, y, u, rfl, e, hcut⟩ := cut_inner hs hl hr
    have hsplit : plug π (.node c l z (plug σ (.join .left d .leaf y u))) =
        plug (σ ++ ⟨.right, c, z, l⟩ :: π) (.join .left d .leaf y u) := by
      rw [plug_append, plug_cons]
      rfl
    have hlen := length_lt_height (σ ++ ⟨.right, c, z, l⟩ :: π) d .leaf y u
    rw [List.length_append, List.length_cons] at hlen
    rw [hsplit] at hb hc ⊢
    obtain ⟨h, hu, h1, h2⟩ := exists_fits_gap hb hc
    refine ⟨f', _, _, u, h, e, hcut, ?_, hu, fun hd => (h1 hd).replace_cell,
      fun hd => ⟨(h2 hd).1, (h2 hd).2.replace_cell⟩⟩
    rw [List.length_append, List.length_cons]
    exact hlen

/-- **Deleting a node of a balanced tree** leaves a balanced tree with the other cells, and gives
the cell of this node back. -/
theorem delete_spec (hs : f.Shows (plug π (.node c l z r)))
    (hb : Balanced (plug π (.node c l z r)) H) (hc : (plug π (.node c l z r)).colour = .black) :
    ∃ f' t H', f.delete z.slot = .ok f' ∧ f'.Shows t ∧ Balanced t H' ∧ t.colour = .black ∧
      t.cells = cellsBefore π ++ (l.cells ++ (r.cells ++ cellsAfter π)) ∧
      f'.nodes.free = z.slot :: f.nodes.free ∧ f'.nodes.cells.size = f.nodes.cells.size := by
  obtain ⟨f1, gap, ρ, u, h, e1, hcut, -, hu, hblack, hred⟩ := cut_spec hs hb hc
  -- the tree after the repair
  obtain ⟨f2, t, H', e2, h2, ht, htc, hcells, c2⟩ : ∃ f2 t H',
      (if gap.colour = .black then f1.mendDeletion gap.child gap.above else .ok f1) = .ok f2 ∧
        f2.Shows t ∧ Balanced t H' ∧ t.colour = .black ∧ t.cells = (plug ρ u).cells ∧
        f1.SameCells f2 := by
    cases hg : gap.colour with
    | black =>
      obtain ⟨f2, t, H', e2, h⟩ := mendDeletion_spec hcut.shows hu (hblack hg)
      rw [← hcut.child, ← hcut.above] at e2
      exact ⟨f2, t, H', by rw [if_pos rfl, e2], h⟩
    | red =>
      obtain ⟨huc, hf⟩ := hred hg
      obtain ⟨H', hH, hHc⟩ := balanced_plug hf hu huc
      exact ⟨f1, _, H', by simp, hcut.shows, hH, hHc, rfl, .refl f1⟩
  have c12 := hcut.same.trans c2
  -- the cell of `z` is outside the tree
  have hzt : z.slot ∉ t.slots := by
    have hnd := hs.nodup
    rw [Tree.slots, cells_plug] at hnd
    rw [Tree.slots, hcells, hcut.cells]
    simp only [Tree.cells_node, List.append_assoc, List.cons_append] at hnd
    rw [← List.append_assoc, List.map_append, List.map_cons] at hnd
    have := (List.nodup_cons.mp (List.perm_middle.nodup_iff.mp hnd)).1
    simpa [or_assoc] using this
  have hzlt : z.slot < f2.nodes.cells.size := by
    obtain ⟨n, hn⟩ := hs.mem_isSome (i := z.slot) (by
      rw [(slots_plug_perm π _).mem_iff]
      simp)
    rw [c12.size]
    exact mem_lt hn
  obtain ⟨n, hn⟩ : ∃ n, f2.mem z.slot = some n := ⟨_, Array.getElem?_eq_getElem hzlt⟩
  obtain ⟨f3, e3, -, r3, c3⟩ := edit_spec hn .clear
  refine ⟨{ f3 with nodes := f3.nodes.release z.slot }, t, H', ?_, ⟨?_, ?_, h2.nodup⟩, ht, htc,
    hcells.trans hcut.cells, ?_, ?_⟩
  · simp only [delete, e1, ok_bind]
    by_cases hg : gap.colour = .black
    · rw [if_pos hg] at e2 ⊢
      simp only [e2, ok_bind, e3]
    · rw [if_neg hg] at e2 ⊢
      obtain rfl := Except.ok.inj e2
      simp only [ok_bind, e3]
  · rw [← h2.root, ← r3]
  · exact h2.holds.congr fun i hi => c3.mem i (by simp; exact fun e => hzt (e ▸ hi))
  · show z.slot :: f3.nodes.free = _
    rw [c3.free, c12.free]
  · show f3.nodes.cells.size = _
    rw [c3.size, c12.size]

end BlockDoc.Multimap.Forest
