/-
# Cursors visit a tree as recursion does

A cursor has a stack in place of recursion.  For each of the three orders there is one statement on
what is still to come, in terms of the stack alone, and every step takes the first cell off.

* In key order every node on the stack waits with its right subtree behind it (`Pending`).
* In preorder every number on the stack is the root of a subtree that is still to come whole
  (`Queued`).
* In postorder a node on the stack waits for one of its subtrees.  Whether this is the left or the
  right one is not written down.  The node visited last tells: it is the root of the subtree that is
  done.  So the statement is about the stack and that node (`Waiting`), and it holds because no node
  of the tree occurs twice.

In postorder one visit may go down several times, each time into a right subtree, which is less high
than the one before (`advancePost_fresh`).

What a cursor yields is then the recursive visit of the tree, from any point on (`Yields.skip`).
-/
import BlockDoc.Proofs.Multimap.Refinement

namespace BlockDoc.Multimap

variable {α : Type} {m : Multimap α} {t l r : Tree} {bs : List (Bunch α)} {f : Forest} {g : Cell}
  {gs rest : List Cell} {stack : List Nat} {p x : Option Nat} {ps : List (String × α)}

/-! ## 1. Visits by recursion -/

/-- The cells of a tree as its nodes are visited. -/
def Tree.visit (o : Traversal) : Tree → List Cell
  | leaf => []
  | node _ l g r => match o with
    | .preorder => g :: (l.visit o ++ r.visit o)
    | .inorder => l.visit o ++ g :: r.visit o
    | .postorder => l.visit o ++ (r.visit o ++ [g])

@[simp] theorem Tree.visit_leaf (o : Traversal) : leaf.visit o = [] := rfl
@[simp] theorem Tree.visit_preorder_node (c : Colour) (l : Tree) (g : Cell) (r : Tree) :
    (node c l g r).visit .preorder = g :: (l.visit .preorder ++ r.visit .preorder) := rfl
@[simp] theorem Tree.visit_inorder_node (c : Colour) (l : Tree) (g : Cell) (r : Tree) :
    (node c l g r).visit .inorder = l.visit .inorder ++ g :: r.visit .inorder := rfl
@[simp] theorem Tree.visit_postorder_node (c : Colour) (l : Tree) (g : Cell) (r : Tree) :
    (node c l g r).visit .postorder = l.visit .postorder ++ (r.visit .postorder ++ [g]) := rfl

theorem Tree.visit_inorder (t : Tree) : t.visit .inorder = t.cells := by
  induction t with
  | leaf => rfl
  | node c l g r ihl ihr => rw [visit_inorder_node, ihl, ihr, cells_node]

/-- **Every order visits the same nodes**, each of them once. -/
theorem Tree.visit_perm (o : Traversal) (t : Tree) : (t.visit o).Perm t.cells := by
  induction t with
  | leaf => exact .refl _
  | node c l g r ihl ihr =>
    rw [cells_node]
    cases o with
    | preorder =>
      rw [visit_preorder_node]
      exact ((ihl.append ihr).cons g).trans List.perm_middle.symm
    | inorder =>
      rw [visit_inorder_node]
      exact ihl.append (ihr.cons g)
    | postorder =>
      rw [visit_postorder_node]
      exact ihl.append ((List.perm_append_singleton g _).trans (ihr.cons g))

/-! ## 2. What a cursor yields -/

namespace GroupCursor

variable {c c' : GroupCursor α}

/-- A cursor yields some groups one after the other, and is at its end then. -/
def Yields : GroupCursor α → List (Group α) → Prop
  | c, [] => c.advance = .ok none
  | c, g :: gs => ∃ c', c.next? = some (g, c') ∧ c'.Yields gs

/-- **After some steps the others remain.** -/
theorem Yields.skip {gs : List (Group α)} (h : c.Yields gs) (n : Nat) :
    (c.skip n).Yields (gs.drop n) := by
  induction n generalizing c gs with
  | zero => exact h
  | succ n ih =>
    cases gs with
    | nil =>
      rw [Yields] at h
      rw [GroupCursor.skip, next?_of_end h]
      exact h
    | cons g gs =>
      obtain ⟨c', hnext, h⟩ := h
      rw [GroupCursor.skip, hnext]
      exact ih h

/-- A node that is visited is shown. -/
theorem next?_of_advance {k : Colour} {l r : Option Nat}
    (hg : c.map.forest.mem g.slot = some (g.node k p l r))
    (h : c.advance = .ok (some (g.slot, c'))) : c.next? = some (c.map.shown g, c') := by
  have hcell : c.map.forest.nodes.cells[g.slot]? = some (g.node k p l r) := hg
  simp only [next?, h, hcell, Option.map_some]
  rfl

/-- **Step by step**: what is said of a cursor and the cells it has left is what it yields, if a
step takes the first of them off. -/
theorem yields_of_step {P : GroupCursor α → List Cell → Prop}
    (hnil : ∀ c, P c [] → c.advance = .ok none)
    (hcons : ∀ c g gs, P c (g :: gs) →
      ∃ c', c.next? = some (c.map.shown g, c') ∧ c'.map = c.map ∧ P c' gs)
    (h : P c gs) : c.Yields (gs.map c.map.shown) := by
  induction gs generalizing c with
  | nil => exact hnil c h
  | cons g gs ih =>
    obtain ⟨c', hnext, hmap, h⟩ := hcons c g gs h
    rw [List.map_cons, ← hmap]
    exact ⟨c', hmap ▸ hnext, ih h⟩

end GroupCursor

/-! ## 3. Preorder -/

/-- The subtrees that wait on the stack, one behind the other, and their cells. -/
inductive Queued (f : Forest) : List Nat → List Cell → Prop
  | nil : Queued f [] []
  | cons {p : Option Nat} {c : Colour} {l r : Tree} {g : Cell} {stack : List Nat}
      {rest : List Cell} :
      Holds f.mem p (.node c l g r) → Queued f stack rest →
        Queued f (g.slot :: stack) (g :: (l.visit .preorder ++ (r.visit .preorder ++ rest)))

/-- A subtree is put in front of the others. -/
theorem Queued.push (h : Queued f stack rest) (ht : Holds f.mem p t) :
    Queued f (t.root?.toList ++ stack) (t.visit .preorder ++ rest) := by
  cases t with
  | leaf => exact h
  | node c l g r =>
    rw [Tree.visit_preorder_node, List.cons_append, List.append_assoc]
    exact .cons ht h

namespace GroupCursor

variable {c c' : GroupCursor α}

/-- A cursor in preorder has the cells `gs` left. -/
structure AheadPre (c : GroupCursor α) (gs : List Cell) : Prop where
  /-- The order of the visit. -/
  order : c.order = .preorder
  /-- The subtrees that wait. -/
  queued : Queued c.map.forest c.stack gs

theorem AheadPre.advance_nil (h : c.AheadPre []) : c.advance = .ok none := by
  obtain ⟨horder, hqueued⟩ := h
  generalize hstack : c.stack = stack at hqueued
  cases hqueued
  simp only [advance, horder, advancePre, hstack]

/-- **A node is followed by its two subtrees.** -/
theorem AheadPre.next?_cons (h : c.AheadPre (g :: gs)) :
    ∃ c', c.next? = some (c.map.shown g, c') ∧ c'.map = c.map ∧ c'.AheadPre gs := by
  obtain ⟨horder, hqueued⟩ := h
  generalize hstack : c.stack = stack at hqueued
  cases hqueued with
  | @cons p k l r g stack rest ht hqueued =>
    obtain ⟨hg, hl, hr⟩ := ht
    refine ⟨{ c with stack := l.root?.toList ++ (r.root?.toList ++ stack) },
      next?_of_advance hg ?_, rfl, horder, (hqueued.push hr).push hl⟩
    simp only [advance, horder, advancePre, hstack, Forest.node_eq hg, ok_bind, Cell.node]

theorem aheadPre_start (h : m.forest.Sound t) :
    (start .preorder m).AheadPre (t.visit .preorder) where
  order := rfl
  queued := by
    have hqueued := Queued.nil.push h.shows.holds
    rw [List.append_nil, List.append_nil, ← h.shows.root] at hqueued
    exact hqueued

end GroupCursor

/-! ## 4. Postorder -/

/-- A node has its right subtree still ahead. -/
structure Fresh (f : Forest) (g : Cell) (r : Tree) : Prop where
  /-- The node is there. -/
  node : ∃ c p l, f.mem g.slot = some (g.node c p l r.root?)
  /-- The subtree is there. -/
  holds : Holds f.mem (some g.slot) r
  /-- No node occurs twice in it. -/
  nodup : r.slots.Nodup
  /-- It is not too high to be walked down. -/
  height : r.height < f.stepLimit

/-- The cells that wait on the stack, if `x` was visited last. -/
inductive Waiting (f : Forest) : List Nat → Option Nat → List Cell → Prop
  | nil {x : Option Nat} : Waiting f [] x []
  /-- The left subtree is done, and nothing of the right one is. -/
  | fresh {g : Cell} {r : Tree} {stack : List Nat} {x : Option Nat} {rest : List Cell} :
      Fresh f g r → (∀ i ∈ r.slots, x ≠ some i) → Waiting f stack (some g.slot) rest →
        Waiting f (g.slot :: stack) x (r.visit .postorder ++ g :: rest)
  /-- The right subtree is done, and its root was visited last. -/
  | entered {g : Cell} {c : Colour} {p l x : Option Nat} {stack : List Nat} {rest : List Cell} :
      f.mem g.slot = some (g.node c p l x) → Waiting f stack (some g.slot) rest →
        Waiting f (g.slot :: stack) x (g :: rest)

theorem descend_none (f : Forest) (limit : Nat) (stack : List Nat) :
    descend f limit none stack = .ok stack := by
  cases limit <;> rfl

/-- **Going down to the left ends at a node whose right subtree is ahead**, and this subtree is less
high than the whole. -/
theorem descend_post {limit : Nat} {k : Colour} (h : Holds f.mem p (.node k l g r))
    (hnodup : (Tree.node k l g r).slots.Nodup) (hheight : (Tree.node k l g r).height ≤ limit)
    (hlimit : limit ≤ f.stepLimit) (hwaiting : Waiting f stack (some g.slot) rest) :
    ∃ g' r' stack' rest', descend f limit (some g.slot) stack = .ok (g'.slot :: stack') ∧
      Fresh f g' r' ∧ r'.height < (Tree.node k l g r).height ∧
      (∀ i ∈ r'.slots, i ∈ (Tree.node k l g r).slots) ∧ Waiting f stack' (some g'.slot) rest' ∧
      (Tree.node k l g r).visit .postorder ++ rest = r'.visit .postorder ++ g' :: rest' := by
  induction l generalizing limit p k g r stack rest with
  | leaf =>
    obtain ⟨limit, rfl⟩ : ∃ n, limit = n + 1 :=
      ⟨limit - 1, by simp only [Tree.height] at hheight; omega⟩
    obtain ⟨hg, -, hr⟩ := h
    have hdown : descend f (limit + 1) (some g.slot) stack = .ok (g.slot :: stack) := by
      rw [descend, Forest.node_eq hg, ok_bind]
      exact descend_none f limit _
    rw [Tree.slots_node, Tree.slots_leaf, List.nil_append, List.nodup_cons] at hnodup
    simp only [Tree.height] at hheight ⊢
    refine ⟨g, r, stack, rest, hdown, ⟨⟨_, _, _, hg⟩, hr, hnodup.2, by omega⟩, by omega, ?_,
      hwaiting, ?_⟩
    · intro i hi
      rw [Tree.slots_node]
      exact List.mem_append_right _ (List.mem_cons_of_mem _ hi)
    · simp
  | node k₁ l₁ g₁ r₁ ihl _ =>
    obtain ⟨limit, rfl⟩ : ∃ n, limit = n + 1 :=
      ⟨limit - 1, by simp only [Tree.height] at hheight; omega⟩
    obtain ⟨hg, hl, hr⟩ := h
    rw [Tree.slots_node, List.nodup_append] at hnodup
    obtain ⟨hnodup₁, hnodup, hdisjoint⟩ := hnodup
    have hfresh : Fresh f g r := by
      refine ⟨⟨_, _, _, hg⟩, hr, (List.nodup_cons.mp hnodup).2, ?_⟩
      simp only [Tree.height] at hheight
      omega
    -- the left subtree is done when its root was visited
    have hroot : ∀ i ∈ r.slots, some g₁.slot ≠ some i := by
      intro i hi heq
      exact hdisjoint g₁.slot (by simp) i (List.mem_cons_of_mem _ hi) (Option.some.inj heq)
    have hlower : (Tree.node k₁ l₁ g₁ r₁).height < (Tree.node k (.node k₁ l₁ g₁ r₁) g r).height :=
      Nat.lt_succ_of_le (Nat.le_max_left _ _)
    have hlimit₁ : (Tree.node k₁ l₁ g₁ r₁).height ≤ limit := by omega
    obtain ⟨g', r', stack', rest', hdown, hfresh', hheight', hsub, hwaiting', hvisit⟩ :=
      ihl hl hnodup₁ hlimit₁ (by omega) (.fresh hfresh hroot hwaiting)
    refine ⟨g', r', stack', rest', ?_, hfresh', by omega, ?_, hwaiting', ?_⟩
    · rw [descend, Forest.node_eq hg, ok_bind]
      exact hdown
    · intro i hi
      rw [Tree.slots_node]
      exact List.mem_append_left _ (hsub i hi)
    · rw [← hvisit, Tree.visit_postorder_node k, List.append_assoc, List.append_assoc,
        List.singleton_append]

namespace GroupCursor

variable {c c' : GroupCursor α} {limit : Nat}

/-- A cursor in postorder has the cells `gs` left, once it has gone down. -/
structure AheadPost (c : GroupCursor α) (gs : List Cell) : Prop where
  /-- The order of the visit. -/
  order : c.order = .postorder
  /-- The nodes that wait. -/
  waiting : ∃ stack, descend c.map.forest c.map.forest.stepLimit c.below c.stack = .ok stack ∧
    Waiting c.map.forest stack c.last gs

/-- A cursor that has gone down is where it was. -/
theorem advancePost_below
    (h : descend c.map.forest c.map.forest.stepLimit c.below c.stack = .ok stack) :
    advancePost limit c = advancePost limit { c with stack, below := none } := by
  cases limit with
  | zero => rfl
  | succ limit => rw [advancePost, advancePost, h, descend_none]

/-- A node without a right subtree, or with one that is done, is visited. -/
theorem advancePost_visit (limit : Nat) {k : Colour} {l r : Option Nat}
    (hg : c.map.forest.mem g.slot = some (g.node k p l r)) (hstack : c.stack = g.slot :: stack)
    (hbelow : c.below = none) (hr : r = none ∨ c.last = r) :
    advancePost (limit + 1) c =
      .ok (some (g.slot, { c with stack, below := none, last := some g.slot })) := by
  have hcond : (r.isSome && c.last != r) = false := by
    rcases hr with rfl | rfl <;> simp
  rw [advancePost, hbelow, descend_none, hstack, ok_bind]
  simp only [Forest.node_eq hg, ok_bind, Cell.node, hcond, Bool.false_eq_true, if_false]

/-- **What lies to the right below a node is visited before the node**, however often the cursor has
to go down for that. -/
theorem advancePost_fresh (horder : c.order = .postorder) (hbelow : c.below = none)
    (hstack : c.stack = g.slot :: stack) (hfresh : Fresh c.map.forest g r)
    (hlast : ∀ i ∈ r.slots, c.last ≠ some i) (hlimit : r.height < limit)
    (hwaiting : Waiting c.map.forest stack (some g.slot) rest) :
    ∃ g' gs c', r.visit .postorder ++ g :: rest = g' :: gs ∧
      (∃ k p l r, c.map.forest.mem g'.slot = some (g'.node k p l r)) ∧
      advancePost limit c = .ok (some (g'.slot, c')) ∧ c'.map = c.map ∧ c'.AheadPost gs := by
  induction limit generalizing c g r stack rest with
  | zero => exact absurd hlimit (Nat.not_lt_zero _)
  | succ limit ih =>
    obtain ⟨k, p, l, hg⟩ := hfresh.node
    cases r with
    | leaf =>
      have hvisit := advancePost_visit limit hg hstack hbelow (.inl rfl)
      exact ⟨g, rest, _, rfl, ⟨_, _, _, _, hg⟩, hvisit, rfl, horder, stack, descend_none _ _ _,
        hwaiting⟩
    | node k₁ l₁ g₁ r₁ =>
      -- the cursor goes down into the subtree, whose root is visited last
      obtain ⟨g', r', stack', rest', hdown, hfresh', hheight, hsub, hwaiting', hvisit⟩ :=
        descend_post hfresh.holds hfresh.nodup hfresh.height.le (Nat.le_refl _)
          (.entered hg hwaiting)
      have hcond : c.last ≠ some g₁.slot := hlast g₁.slot (by simp)
      have hstep : advancePost (limit + 1) c =
          advancePost limit { c with stack := g'.slot :: stack', below := none } := by
        rw [advancePost, hbelow, descend_none, hstack, ok_bind]
        simp only [Forest.node_eq hg, ok_bind, Cell.node, Tree.root?_node, Option.isSome_some,
          Bool.true_and, bne_iff_ne, ne_eq, hcond, not_false_eq_true, if_true]
        exact advancePost_below (c := { c with stack := g.slot :: stack, below := some g₁.slot })
          hdown
      rw [hstep, hvisit]
      exact ih (c := { c with stack := g'.slot :: stack', below := none }) horder rfl rfl hfresh'
        (fun i hi => hlast i (hsub i hi)) (by omega) hwaiting'

/-- **One step of a cursor in postorder.** -/
theorem AheadPost.advance_cases (h : c.AheadPost gs) : (gs = [] ∧ c.advance = .ok none) ∨
    ∃ g gs' c', gs = g :: gs' ∧ c.next? = some (c.map.shown g, c') ∧ c'.map = c.map ∧
      c'.AheadPost gs' := by
  obtain ⟨horder, stack, hdown, hwaiting⟩ := h
  have hadvance : c.advance =
      advancePost c.map.forest.stepLimit { c with stack, below := none } := by
    rw [← advancePost_below hdown, advance, horder]
  cases hwaiting with
  | nil => exact .inl ⟨rfl, by rw [hadvance, Forest.stepLimit, advancePost, descend_none]; rfl⟩
  | @fresh g r stack _ rest hfresh hlast hwaiting =>
    obtain ⟨g', gs, c', hvisit, ⟨_, _, _, _, hg⟩, hstep, hmap, hahead⟩ :=
      advancePost_fresh (c := { c with stack := g.slot :: stack, below := none }) horder rfl rfl
        hfresh hlast hfresh.height hwaiting
    exact .inr ⟨g', gs, c', hvisit, next?_of_advance hg (hadvance.trans hstep), hmap, hahead⟩
  | @entered g k p l _ stack rest hg hwaiting =>
    have hstep := advancePost_visit (c := { c with stack := g.slot :: stack, below := none })
      c.map.forest.nodes.cells.size hg rfl rfl (.inr rfl)
    exact .inr ⟨g, rest, _, rfl, next?_of_advance hg (hadvance.trans hstep), rfl, horder, stack,
      descend_none _ _ _, hwaiting⟩

theorem aheadPost_start (h : m.forest.Sound t) :
    (start .postorder m).AheadPost (t.visit .postorder) := by
  -- nothing is on the stack yet: the way down from the root is still below
  have hstart : start .postorder m = ⟨m, .postorder, [], t.root?, none⟩ := by
    rw [← h.shows.root]
    rfl
  rw [hstart]
  refine ⟨rfl, ?_⟩
  cases t with
  | leaf => exact ⟨[], descend_none _ _ _, .nil⟩
  | node k l g r =>
    obtain ⟨g', r', stack, rest, hdown, hfresh, -, -, hwaiting, hvisit⟩ :=
      descend_post h.shows.holds h.shows.nodup h.shows.height_lt_stepLimit.le (Nat.le_refl _) .nil
    rw [List.append_nil] at hvisit
    refine ⟨g'.slot :: stack, hdown, ?_⟩
    rw [hvisit]
    exact .fresh hfresh (fun i _ => (Option.some_ne_none i).symm) hwaiting

/-! ## 5. Every order -/

/-- **A fresh cursor yields what the recursive visit meets.** -/
theorem yields_start (h : m.forest.Sound t) (o : Traversal) :
    (start o m).Yields ((t.visit o).map m.shown) := by
  cases o with
  | preorder =>
    exact yields_of_step (P := AheadPre) (fun _ hc => hc.advance_nil)
      (fun _ _ _ hc => hc.next?_cons) (aheadPre_start h)
  | inorder =>
    rw [Tree.visit_inorder]
    exact yields_of_step (P := Ahead) (fun _ hc => hc.advance_nil) (fun _ _ _ hc => hc.next?_cons)
      (ahead_start h)
  | postorder =>
    refine yields_of_step (P := AheadPost) (fun c hc => ?_) (fun c g gs hc => ?_)
      (aheadPost_start h)
    · rcases hc.advance_cases with ⟨-, hend⟩ | ⟨g, gs, c', hgs, -⟩
      · exact hend
      · cases hgs
    · rcases hc.advance_cases with ⟨hgs, -⟩ | ⟨g', gs', c', hgs, hnext, hmap, hahead⟩
      · cases hgs
      · cases hgs
        exact ⟨c', hnext, hmap, hahead⟩

end GroupCursor

namespace PairCursor

variable {c : PairCursor α}

/-- A cursor yields some pairs one after the other, and is at its end then. -/
def Yields : PairCursor α → List (String × α) → Prop
  | c, [] => c.values = [] ∧ c.groups.advance = .ok none
  | c, p :: ps => ∃ c', c.next? = some (p, c') ∧ c'.Yields ps

theorem Ahead.yields (h : c.Ahead ps) : c.Yields ps := by
  induction ps generalizing c with
  | nil => exact h.ends
  | cons p ps ih =>
    obtain ⟨c', hnext, -, h'⟩ := h.next?_cons
    exact ⟨c', hnext, ih h'⟩

/-- **After some steps the others remain.** -/
theorem Yields.skip (h : c.Yields ps) (n : Nat) : (c.skip n).Yields (ps.drop n) := by
  induction n generalizing c ps with
  | zero => exact h
  | succ n ih =>
    cases ps with
    | nil =>
      rw [PairCursor.skip, next?_of_end h.1 h.2]
      exact h
    | cons p ps =>
      obtain ⟨c', hnext, h⟩ := h
      rw [PairCursor.skip, hnext]
      exact ih h

end PairCursor

/-! ## 6. Every run -/

theorem nodup_keysOf (ps : List (String × α)) : (keysOf ps).Nodup :=
  (List.mergeSort_perm _ _).nodup_iff.mpr (List.nodup_dedup _)

/-- The cursors over a map do what recursion over its tree does, and meet all that the list of pairs
has under each key. -/
structure Traversed (m : Multimap α) (t : Tree) (ps : List (String × α)) : Prop where
  /-- The tree is the one of the map. -/
  shows : m.forest.Shows t
  /-- No key counts twice. -/
  nodup : (keysOf ps).Nodup
  /-- A visit shows the group of every key once, with its count and all its values. -/
  visit : ∀ o, ((t.visit o).map m.shown).Perm
    ((keysOf ps).map fun key => ⟨key, (under ps key).length, under ps key⟩)
  /-- After any steps, a cursor over the groups yields the rest of the visit. -/
  groups : ∀ o n, ((GroupCursor.start o m).skip n).Yields (((t.visit o).map m.shown).drop n)
  /-- After any steps, a cursor over the pairs yields the rest of the pairs, sorted by key. -/
  pairs : ∀ n, ((PairCursor.start m).skip n).Yields ((sortByKey ps).drop n)

theorem Refines.traversed (h : m.Refines ps) : ∃ t, m.Traversed t ps := by
  have hobserves := h.observes
  obtain ⟨t, bs, hs, hu⟩ := h
  have hgroups : t.cells.map m.shown = m.groups := by
    rw [hs.groups_eq, ← hs.cells, List.map_map]
    exact List.map_congr_left fun b hb => hs.shown_eq hb
  have hpairs : pairsOf bs = sortByKey ps := hs.toList_eq.symm.trans hobserves.toList
  refine ⟨t, hs.sound.shows, nodup_keysOf ps, fun o => ?_, fun o n => ?_, fun n => ?_⟩
  · rw [← hobserves.groups, ← hgroups]
    exact (t.visit_perm o).map _
  · exact (GroupCursor.yields_start hs.sound o).skip n
  · rw [← hpairs]
    exact hs.ahead_start.yields.skip n

/-- **Cursors agree with recursion after any changes.**  In each of the three orders a cursor yields
the groups in the order of the recursive visit of the tree, every key once and with all its values;
and after any number of steps of a cursor, over groups or over pairs, exactly the others remain. -/
theorem run_traversed (ops : List (Op α)) :
    ∃ t, (run Op.onMap ops empty).2.Traversed t (run Op.onPairs ops []).2 :=
  (refines_empty.run ops).2.traversed

end BlockDoc.Multimap
