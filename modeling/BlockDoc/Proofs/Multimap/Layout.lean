/-
# How a tree lies in an arena

`Holds` says that the links below a number are those of a given tree, parents included, and
`HoldsAround` says the same of the nodes around a place.  `Shows` is the whole: the root is the
root of the tree, and no node occurs twice.

Every change of the arena touches a few nodes.  `Changes` names them, and what lies elsewhere
stays as it was (`Holds.congr`, `HoldsAround.congr`).  With this the three primitive changes of
links get one lemma each: editing a node, giving a subtree another parent, and hanging another
subtree below the node above a place.
-/
import BlockDoc.Outcome
import BlockDoc.Proofs.Multimap.Tree

namespace BlockDoc.Multimap

/-! ## 1. Nodes -/

namespace Cell

/-- The node with the children `l` and `r`. -/
def node (g : Cell) (c : Colour) (p l r : Option Nat) : Node :=
  ⟨g.key, c, p, l, r, g.head, g.tail, g.count⟩

/-- The node with `near` on side `s` and `far` on the other. -/
def nodeAt (g : Cell) (s : Side) (c : Colour) (p near far : Option Nat) : Node :=
  match s with
  | .left => g.node c p near far
  | .right => g.node c p far near

variable (g : Cell) (s : Side) (c : Colour) (p a b : Option Nat)

@[simp] theorem child_nodeAt : (g.nodeAt s c p a b).child s = a := by cases s <;> rfl
@[simp] theorem child_other_nodeAt : (g.nodeAt s c p a b).child s.other = b := by
  cases s <;> rfl
@[simp] theorem parent_nodeAt : (g.nodeAt s c p a b).parent = p := by cases s <;> rfl
@[simp] theorem colour_nodeAt : (g.nodeAt s c p a b).colour = c := by cases s <;> rfl
@[simp] theorem key_nodeAt : (g.nodeAt s c p a b).key = g.key := by cases s <;> rfl
@[simp] theorem setChild_nodeAt (v : Option Nat) :
    (g.nodeAt s c p a b).setChild s v = g.nodeAt s c p v b := by cases s <;> rfl
@[simp] theorem setChild_other_nodeAt (v : Option Nat) :
    (g.nodeAt s c p a b).setChild s.other v = g.nodeAt s c p a v := by cases s <;> rfl
@[simp] theorem setParent_nodeAt (q : Option Nat) :
    (g.nodeAt s c p a b).setParent q = g.nodeAt s c q a b := by cases s <;> rfl
@[simp] theorem setColour_nodeAt (d : Colour) :
    (g.nodeAt s c p a b).setColour d = g.nodeAt s d p a b := by cases s <;> rfl

/-- The side of a child can be told from the node if the children differ. -/
theorem side_eq (h : b ≠ a) :
    (if (g.nodeAt s c p a b).left = a then Side.left else .right) = s := by
  cases s <;> simp [nodeAt, node, h]

end Cell

/-! ## 2. Memory and trees -/

/-- The node with a number, if there is one. -/
def Forest.mem (f : Forest) (i : Nat) : Option Node := f.nodes.cells[i]?

/-- The memory `M` holds the nodes of a tree below the node `p`, all links as in the tree. -/
def Holds (M : Nat → Option Node) : Option Nat → Tree → Prop
  | _, .leaf => True
  | p, .node c l g r =>
    M g.slot = some (g.node c p l.root? r.root?) ∧ Holds M (some g.slot) l ∧
      Holds M (some g.slot) r

/-- The memory `M` holds the nodes around a place at which `hole` stands. -/
def HoldsAround (M : Nat → Option Node) : Option Nat → List Step → Prop
  | _, [] => True
  | hole, ⟨s, c, g, t⟩ :: π =>
    M g.slot = some (g.nodeAt s c (above π) hole t.root?) ∧ Holds M (some g.slot) t ∧
      HoldsAround M (some g.slot) π

/-- The links of a forest form the tree `t`. -/
structure Forest.Shows (f : Forest) (t : Tree) : Prop where
  /-- The root is the root of the tree. -/
  root : f.root = t.root?
  /-- Every node has the key, the colour, the children and the parent it has in the tree. -/
  holds : Holds f.mem none t
  /-- No node occurs twice. -/
  nodup : t.slots.Nodup

variable {M M' : Nat → Option Node} {p q hole hole' : Option Nat} {t : Tree} {π : List Step}

theorem holds_join {s : Side} {c : Colour} {a b : Tree} {g : Cell} :
    Holds M p (.join s c a g b) ↔
      M g.slot = some (g.nodeAt s c p a.root? b.root?) ∧ Holds M (some g.slot) a ∧
        Holds M (some g.slot) b := by
  cases s with
  | left => rfl
  | right =>
    simp only [Tree.join, Holds, Cell.nodeAt]
    exact and_congr_right fun _ => and_comm

theorem holds_plug {r : Option Nat} :
    Holds M none (plug π t) ∧ r = (plug π t).root? ↔
      Holds M (above π) t ∧ HoldsAround M t.root? π ∧ r = topOf t.root? π := by
  induction π generalizing t with
  | nil => simp [HoldsAround, topOf]
  | cons st π ih =>
    obtain ⟨s, c, g, o⟩ := st
    rw [plug_cons, ih, holds_join, Tree.root?_join]
    simp only [HoldsAround, above_cons, topOf]
    tauto

/-- What a forest shows, read at a place. -/
theorem Forest.shows_plug {f : Forest} :
    f.Shows (plug π t) ↔
      (Holds f.mem (above π) t ∧ HoldsAround f.mem t.root? π ∧ f.root = topOf t.root? π) ∧
        t.slots.Nodup ∧ (slotsAround π).Nodup ∧ ∀ i ∈ t.slots, i ∉ slotsAround π := by
  rw [← holds_plug, ← nodup_slots_plug]
  exact ⟨fun h => ⟨⟨h.holds, h.root⟩, h.nodup⟩, fun h => ⟨h.1.2, h.1.1, h.2⟩⟩

/-- What a tree looks like depends on its own nodes only. -/
theorem Holds.congr (h : Holds M p t) (hM : ∀ i ∈ t.slots, M' i = M i) : Holds M' p t := by
  induction t generalizing p with
  | leaf => trivial
  | node c l g r ihl ihr =>
    simp only [Tree.slots_node, List.mem_append, List.mem_cons] at hM
    obtain ⟨h1, h2, h3⟩ := h
    exact ⟨by rw [hM _ (by simp), h1], ihl h2 fun i hi => hM i (.inl hi),
      ihr h3 fun i hi => hM i (.inr (.inr hi))⟩

theorem HoldsAround.congr (h : HoldsAround M hole π) (hM : ∀ i ∈ slotsAround π, M' i = M i) :
    HoldsAround M' hole π := by
  induction π generalizing hole with
  | nil => trivial
  | cons st π ih =>
    simp only [slotsAround, List.mem_append, List.mem_cons] at hM
    obtain ⟨h1, h2, h3⟩ := h
    exact ⟨by rw [hM _ (by simp), h1], h2.congr fun i hi => hM i (.inr (.inl hi)),
      ih h3 fun i hi => hM i (.inr (.inr hi))⟩

/-- A tree below another parent: only its root differs. -/
theorem Holds.reparent (h : Holds M p t) (hd : t.slots.Nodup)
    (hroot : ∀ i, t.root? = some i → M' i = (M i).map (.setParent q))
    (hrest : ∀ i ∈ t.slots, t.root? ≠ some i → M' i = M i) : Holds M' q t := by
  cases t with
  | leaf => trivial
  | node c l g r =>
    obtain ⟨h1, h2, h3⟩ := h
    obtain ⟨hl, hr, -, -, -⟩ := nodup_slots_join (s := .left).mp hd
    refine ⟨by rw [hroot g.slot rfl, h1]; rfl, h2.congr ?_, h3.congr ?_⟩
    · intro i hi
      exact hrest i (by simp [hi]) fun e => hl (by simp at e; exact e ▸ hi)
    · intro i hi
      exact hrest i (by simp [hi]) fun e => hr (by simp at e; exact e ▸ hi)

/-- A memory holds every node of its tree. -/
theorem Holds.exists_node (h : Holds M p t) {g : Cell} (hg : g ∈ t.cells) :
    ∃ c q l r, M g.slot = some (g.node c q l r) := by
  induction t generalizing p with
  | leaf => simp at hg
  | node c l g' r ihl ihr =>
    obtain ⟨h1, h2, h3⟩ := h
    rcases List.mem_append.mp hg with hg | hg
    · exact ihl h2 hg
    rcases List.mem_cons.mp hg with rfl | hg
    · exact ⟨_, _, _, _, h1⟩
    · exact ihr h3 hg

/-! ## 3. Changes -/

namespace Forest

/-- No cell was made, taken or given back. -/
structure SameCells (f f' : Forest) : Prop where
  /-- The number of cells. -/
  size : f'.nodes.cells.size = f.nodes.cells.size
  /-- The idle cells. -/
  free : f'.nodes.free = f.nodes.free

/-- The forest `f'` differs from `f` in its root and in the nodes `S` at most. -/
structure Changes (f f' : Forest) (S : List Nat) : Prop extends SameCells f f' where
  /-- Other nodes are as they were. -/
  mem : ∀ i, i ∉ S → f'.mem i = f.mem i

variable {f f' f'' : Forest} {S S' : List Nat}

theorem SameCells.refl (f : Forest) : f.SameCells f := ⟨rfl, rfl⟩

theorem SameCells.trans (h : f.SameCells f') (h' : f'.SameCells f'') : f.SameCells f'' :=
  ⟨h'.size.trans h.size, h'.free.trans h.free⟩

theorem Changes.refl (f : Forest) : f.Changes f [] := ⟨.refl f, fun _ _ => rfl⟩

theorem Changes.trans (h : f.Changes f' S) (h' : f'.Changes f'' S') :
    f.Changes f'' (S ++ S') := by
  refine ⟨h.toSameCells.trans h'.toSameCells, fun i hi => ?_⟩
  rw [List.mem_append, not_or] at hi
  rw [h'.mem i hi.2, h.mem i hi.1]

theorem Changes.mono (h : f.Changes f' S) (hS : ∀ i ∈ S, i ∈ S') : f.Changes f' S' :=
  ⟨h.toSameCells, fun i hi => h.mem i fun h' => hi (hS i h')⟩

theorem mem_lt {i : Nat} {n : Node} (h : f.mem i = some n) : i < f.nodes.cells.size := by
  obtain ⟨hi, -⟩ := Array.getElem?_eq_some_iff.mp h
  exact hi

theorem node_eq {i : Nat} {n : Node} (h : f.mem i = some n) : f.node i = .ok n := by
  rw [mem] at h
  rw [node, Arena.read, h]

/-- Editing a node changes this node and nothing else. -/
theorem edit_spec {i : Nat} {n : Node} (h : f.mem i = some n) (k : Node → Node) :
    ∃ f', f.edit i k = .ok f' ∧ f'.mem i = some (k n) ∧ f'.root = f.root ∧
      f.Changes f' [i] := by
  have hi : i < f.nodes.cells.size := mem_lt h
  refine ⟨⟨⟨f.nodes.cells.modify i k, f.nodes.free⟩, f.root⟩, ?_, ?_, rfl, ⟨?_, rfl⟩, ?_⟩
  · simp [edit, Arena.modify, hi]
  · rw [mem] at h ⊢
    simp [Array.getElem?_modify, h]
  · simp
  · intro j hj
    have hne : i ≠ j := fun e => hj (by simp [e])
    simp [mem, Array.getElem?_modify, hne]

/-- The colour of the root of a tree. -/
theorem colour_eq (h : Holds f.mem p t) : f.colour t.root? = .ok t.colour := by
  cases t with
  | leaf => rfl
  | node c l g r =>
    obtain ⟨h1, -, -⟩ := h
    simp [colour, node_eq h1, Cell.node]

/-- Editing the root of a tree, if it has one. -/
theorem editIfAny_spec (h : Holds f.mem p t) (k : Node → Node) :
    ∃ f', f.editIfAny t.root? k = .ok f' ∧
      (∀ i, t.root? = some i → f'.mem i = (f.mem i).map k) ∧ f'.root = f.root ∧
        f.Changes f' t.root?.toList := by
  cases t with
  | leaf => exact ⟨f, rfl, by simp, rfl, .refl f⟩
  | node c l g r =>
    obtain ⟨f', e, hm, hr, hc⟩ := edit_spec h.1 k
    refine ⟨f', e, ?_, hr, hc⟩
    intro i hi
    obtain rfl : g.slot = i := by simpa using hi
    rw [hm, h.1, Option.map_some]

/-- Giving a tree another parent changes its root. -/
theorem reparent_spec (h : Holds f.mem p t) (hd : t.slots.Nodup) (q : Option Nat) :
    ∃ f', f.editIfAny t.root? (.setParent q) = .ok f' ∧ Holds f'.mem q t ∧
      f'.root = f.root ∧ f.Changes f' t.slots := by
  obtain ⟨f', e, hm, hr, hc⟩ := editIfAny_spec h (.setParent q)
  refine ⟨f', e, h.reparent hd hm ?_, hr, hc.mono ?_⟩
  · intro i _ hne
    exact hc.mem i (by simpa using hne)
  · intro i hi
    exact Tree.mem_slots_of_root? (by simpa using hi)

/-- Hanging another subtree at a place changes the node above it. -/
theorem hang_spec {u : Nat} (h : HoldsAround f.mem (some u) π) (hr : f.root = topOf (some u) π)
    (hd : (slotsAround π).Nodup) (hu : u ∉ slotsAround π) (s : Side) (v : Option Nat) :
    ∃ f', f.hang s (above π) u v = .ok f' ∧ HoldsAround f'.mem v π ∧ f'.root = topOf v π ∧
      f.Changes f' (slotsAround π) := by
  cases π with
  | nil => exact ⟨{ f with root := v }, rfl, trivial, rfl, ⟨rfl, rfl⟩, fun _ _ => rfl⟩
  | cons st π =>
    obtain ⟨s', c, g, o⟩ := st
    obtain ⟨h1, h2, h3⟩ := h
    simp only [slotsAround, List.mem_cons, List.mem_append, not_or] at hu
    obtain ⟨hg, hd⟩ := List.nodup_cons.mp hd
    rw [List.mem_append, not_or] at hg
    -- the place lies on the side whose child is `u`: the sibling cannot be `u`
    have hside : (if (g.nodeAt s' c (above π) (some u) o.root?).child s = some u then s
        else s.other) = s' := by
      have ho : o.root? ≠ some u := fun e => hu.2.1 (Tree.mem_slots_of_root? e)
      cases s <;> cases s' <;> simp [Cell.nodeAt, Cell.node, Node.child, Side.other, ho]
    obtain ⟨f', e, hm, hr', hc⟩ := edit_spec h1 (.setChild s' v)
    refine ⟨f', ?_, ⟨?_, h2.congr ?_, h3.congr ?_⟩, by rw [hr', hr]; rfl,
      hc.mono (by simp [slotsAround])⟩
    · simp only [hang, above_cons, node_eq h1, ok_bind, hside, e]
    · rw [hm, Cell.setChild_nodeAt]
    · intro i hi
      exact hc.mem i (by simp; exact fun e => hg.1 (e ▸ hi))
    · intro i hi
      exact hc.mem i (by simp; exact fun e => hg.2 (e ▸ hi))

end Forest

end BlockDoc.Multimap
