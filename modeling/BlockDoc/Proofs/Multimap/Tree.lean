/-
# The tree that an arena holds

The links of a `Forest` are meant to form a tree.  `Tree` is that tree as a value: what each node
holds (a `Cell`), its colour and its two subtrees.  A place in a tree is a list of `Step`s from
the place to the root, and `plug` puts a tree there, so a loop that climbs through parents is
described by a path that gets shorter.

The colour rules are `Balanced`, with the number of black nodes on every way down, and `Fits`
says which trees may stand at the end of a path.  The two meet in `balanced_plug` and
`exists_fits`: a tree is balanced iff what stands at a place is and fits there.
-/
import BlockDoc.Multimap.Forest
import Mathlib.Data.List.Perm.Basic

namespace BlockDoc.Multimap

/-! ## 1. Trees -/

/-- What a node holds apart from its place in the tree: its own number, the key, and the ends
and the length of the chain. -/
structure Cell where
  /-- The number of the node. -/
  slot : Nat
  /-- The key. -/
  key : String
  /-- The first link of the chain. -/
  head : Nat
  /-- The last link of the chain. -/
  tail : Nat
  /-- The length of the chain. -/
  count : Nat
  deriving DecidableEq

/-- A binary tree with a colour and a cell at every node. -/
inductive Tree where
  | leaf
  | node (colour : Colour) (left : Tree) (cell : Cell) (right : Tree)

namespace Tree

/-- The number of the root. -/
def root? : Tree → Option Nat
  | leaf => none
  | node _ _ g _ => some g.slot

/-- The colour of the root; a missing one counts as black. -/
def colour : Tree → Colour
  | leaf => .black
  | node c _ _ _ => c

/-- The tree with its root in another colour. -/
def paint (c : Colour) : Tree → Tree
  | leaf => leaf
  | node _ l g r => node c l g r

/-- The cells in left-node-right order. -/
def cells : Tree → List Cell
  | leaf => []
  | node _ l g r => l.cells ++ g :: r.cells

/-- The numbers of the nodes, in the same order. -/
def slots (t : Tree) : List Nat := t.cells.map Cell.slot

/-- The number of nodes on the longest way down. -/
def height : Tree → Nat
  | leaf => 0
  | node _ l _ r => max l.height r.height + 1

/-- The node with `near` on side `s` and `far` on the other. -/
def join (s : Side) (c : Colour) (near : Tree) (g : Cell) (far : Tree) : Tree :=
  match s with
  | .left => node c near g far
  | .right => node c far g near

@[simp] theorem root?_leaf : leaf.root? = none := rfl
@[simp] theorem root?_node (c : Colour) (l : Tree) (g : Cell) (r : Tree) :
    (node c l g r).root? = some g.slot := rfl
@[simp] theorem colour_leaf : leaf.colour = .black := rfl
@[simp] theorem colour_node (c : Colour) (l : Tree) (g : Cell) (r : Tree) :
    (node c l g r).colour = c := rfl
@[simp] theorem cells_leaf : leaf.cells = [] := rfl
@[simp] theorem cells_node (c : Colour) (l : Tree) (g : Cell) (r : Tree) :
    (node c l g r).cells = l.cells ++ g :: r.cells := rfl
@[simp] theorem slots_leaf : leaf.slots = [] := rfl
@[simp] theorem slots_node (c : Colour) (l : Tree) (g : Cell) (r : Tree) :
    (node c l g r).slots = l.slots ++ g.slot :: r.slots := by simp [slots]

@[simp] theorem root?_join (s : Side) (c : Colour) (a : Tree) (g : Cell) (b : Tree) :
    (join s c a g b).root? = some g.slot := by cases s <;> rfl

@[simp] theorem colour_join (s : Side) (c : Colour) (a : Tree) (g : Cell) (b : Tree) :
    (join s c a g b).colour = c := by cases s <;> rfl

@[simp] theorem paint_join (s : Side) (c d : Colour) (a : Tree) (g : Cell) (b : Tree) :
    (join s c a g b).paint d = join s d a g b := by cases s <;> rfl

@[simp] theorem root?_paint (c : Colour) (t : Tree) : (t.paint c).root? = t.root? := by
  cases t <;> rfl

@[simp] theorem cells_paint (c : Colour) (t : Tree) : (t.paint c).cells = t.cells := by
  cases t <;> rfl

@[simp] theorem slots_paint (c : Colour) (t : Tree) : (t.paint c).slots = t.slots := by
  simp [slots]

theorem paint_of_colour {t : Tree} {c : Colour} (h : t.colour = c) : t.paint c = t := by
  subst h
  cases t <;> rfl

/-- A node seen from the other side. -/
theorem join_other (s : Side) (c : Colour) (a : Tree) (g : Cell) (b : Tree) :
    join s.other c a g b = join s c b g a := by cases s <;> rfl

/-- Every node is a join, seen from either side. -/
theorem exists_join (s : Side) (c : Colour) (l : Tree) (g : Cell) (r : Tree) :
    ∃ near far, node c l g r = join s c near g far := by
  cases s with
  | left => exact ⟨l, r, rfl⟩
  | right => exact ⟨r, l, rfl⟩

theorem exists_join_eq (s s' : Side) (c : Colour) (a : Tree) (g : Cell) (b : Tree) :
    ∃ near far, join s c a g b = join s' c near g far := by
  cases s <;> exact exists_join s' c _ g _

theorem slots_join_perm (s : Side) (c : Colour) (a : Tree) (g : Cell) (b : Tree) :
    (join s c a g b).slots.Perm (g.slot :: (a.slots ++ b.slots)) := by
  cases s with
  | left => simp [join]
  | right =>
    simpa [join] using List.perm_middle.trans (List.perm_append_comm.cons _)

theorem mem_slots_join {s : Side} {c : Colour} {a b : Tree} {g : Cell} {i : Nat} :
    i ∈ (join s c a g b).slots ↔ i = g.slot ∨ i ∈ a.slots ∨ i ∈ b.slots := by
  rw [(slots_join_perm s c a g b).mem_iff, List.mem_cons, List.mem_append]

/-- Colours do not change the order of the cells. -/
theorem cells_join_congr (s : Side) (c d : Colour) {a a' b b' : Tree} (g : Cell)
    (ha : a.cells = a'.cells) (hb : b.cells = b'.cells) :
    (join s c a g b).cells = (join s d a' g b').cells := by
  cases s <;> simp [join, ha, hb]

/-- Turning the root down to one side keeps the order of the cells. -/
theorem cells_rotate (s : Side) (c d e e' : Colour) (a : Tree) (x : Cell) (b : Tree) (y : Cell)
    (r : Tree) :
    (join s d (join s c a x b) y r).cells = (join s e a x (join s e' b y r)).cells := by
  cases s <;> simp [join]

theorem height_join (s : Side) (c : Colour) (a : Tree) (g : Cell) (b : Tree) :
    (join s c a g b).height = max a.height b.height + 1 := by
  cases s with
  | left => rfl
  | right => simp only [join, height, Nat.max_comm]

theorem height_le_length (t : Tree) : t.height ≤ t.slots.length := by
  induction t with
  | leaf => simp [height]
  | node c l g r ihl ihr =>
    simp only [height, slots_node, List.length_append, List.length_cons]
    omega

theorem root?_eq_none_iff {t : Tree} : t.root? = none ↔ t = leaf := by
  cases t <;> simp

theorem mem_slots_of_root? {t : Tree} {i : Nat} (h : t.root? = some i) : i ∈ t.slots := by
  cases t with
  | leaf => simp at h
  | node c l g r => simp at h; simp [h]

end Tree

@[simp] theorem Side.other_other (s : Side) : s.other.other = s := by cases s <;> rfl

theorem Side.eq_other_of_ne {s s' : Side} (h : s ≠ s') : s' = s.other := by
  cases s <;> cases s' <;> simp_all [Side.other]

/-! ## 2. Places in a tree -/

/-- One step from a place towards the root: the node above, the side on which the place lies,
and the subtree on the other side. -/
structure Step where
  /-- The side of the place. -/
  side : Side
  /-- The colour of the node above. -/
  colour : Colour
  /-- The cell of the node above. -/
  cell : Cell
  /-- The subtree on the other side of it. -/
  sibling : Tree

/-- Put a tree at a place. -/
def plug : List Step → Tree → Tree
  | [], t => t
  | st :: rest, t => plug rest (.join st.side st.colour t st.cell st.sibling)

/-- The node above a place. -/
def above (π : List Step) : Option Nat := π.head?.map fun st => st.cell.slot

/-- The root of the tree around a place, if `hole` is the root of what stands there. -/
def topOf (hole : Option Nat) : List Step → Option Nat
  | [] => hole
  | st :: rest => topOf (some st.cell.slot) rest

/-- The cells in front of a place. -/
def cellsBefore : List Step → List Cell
  | [] => []
  | ⟨.left, _, _, _⟩ :: rest => cellsBefore rest
  | ⟨.right, _, g, t⟩ :: rest => cellsBefore rest ++ (t.cells ++ [g])

/-- The cells behind a place. -/
def cellsAfter : List Step → List Cell
  | [] => []
  | ⟨.left, _, g, t⟩ :: rest => g :: (t.cells ++ cellsAfter rest)
  | ⟨.right, _, _, _⟩ :: rest => cellsAfter rest

/-- The numbers of the nodes around a place. -/
def slotsAround : List Step → List Nat
  | [] => []
  | st :: rest => st.cell.slot :: (st.sibling.slots ++ slotsAround rest)

@[simp] theorem plug_nil (t : Tree) : plug [] t = t := rfl
@[simp] theorem above_nil : above [] = none := rfl
@[simp] theorem above_cons (st : Step) (π : List Step) :
    above (st :: π) = some st.cell.slot := rfl

theorem plug_cons (s : Side) (c : Colour) (g : Cell) (o : Tree) (π : List Step) (t : Tree) :
    plug (⟨s, c, g, o⟩ :: π) t = plug π (.join s c t g o) := rfl

theorem plug_append (σ π : List Step) (t : Tree) : plug (σ ++ π) t = plug π (plug σ t) := by
  induction σ generalizing t with
  | nil => rfl
  | cons st σ ih => exact ih _

theorem root?_plug (π : List Step) (t : Tree) : (plug π t).root? = topOf t.root? π := by
  induction π generalizing t with
  | nil => rfl
  | cons st π ih => rw [plug, ih, topOf, Tree.root?_join]

theorem cells_plug (π : List Step) (t : Tree) :
    (plug π t).cells = cellsBefore π ++ (t.cells ++ cellsAfter π) := by
  induction π generalizing t with
  | nil => simp [cellsBefore, cellsAfter]
  | cons st π ih =>
    obtain ⟨s, c, g, o⟩ := st
    rw [plug_cons, ih]
    cases s <;> simp [Tree.join, cellsBefore, cellsAfter]

/-- Going down to the other side. -/
theorem plug_far (π : List Step) (s : Side) (c : Colour) (a : Tree) (g : Cell) (b : Tree) :
    plug π (.join s c a g b) = plug (⟨s.other, c, g, a⟩ :: π) b := by
  rw [plug_cons, Tree.join_other]

/-- The cells of a tree depend on the cells at a place only. -/
theorem cells_plug_congr {π : List Step} {t u : Tree} (h : t.cells = u.cells) :
    (plug π t).cells = (plug π u).cells := by
  rw [cells_plug, cells_plug, h]

theorem slots_plug_perm (π : List Step) (t : Tree) :
    (plug π t).slots.Perm (t.slots ++ slotsAround π) := by
  induction π generalizing t with
  | nil => simp [slotsAround]
  | cons st π ih =>
    refine (ih _).trans ?_
    refine ((Tree.slots_join_perm _ _ _ _ _).append_right _).trans ?_
    simpa [slotsAround, List.append_assoc] using List.perm_middle.symm

theorem nodup_slots_plug {π : List Step} {t : Tree} :
    (plug π t).slots.Nodup ↔
      t.slots.Nodup ∧ (slotsAround π).Nodup ∧ ∀ i ∈ t.slots, i ∉ slotsAround π := by
  rw [(slots_plug_perm π t).nodup_iff, List.nodup_append]
  refine and_congr_right fun _ => and_congr_right fun _ => ?_
  exact ⟨fun h i hi hi' => h i hi i hi' rfl, fun h i hi j hj e => h i hi (e ▸ hj)⟩

theorem nodup_slots_join {s : Side} {c : Colour} {a b : Tree} {g : Cell} :
    (Tree.join s c a g b).slots.Nodup ↔
      g.slot ∉ a.slots ∧ g.slot ∉ b.slots ∧ a.slots.Nodup ∧ b.slots.Nodup ∧
        ∀ i ∈ a.slots, i ∉ b.slots := by
  rw [(Tree.slots_join_perm s c a g b).nodup_iff, List.nodup_cons, List.nodup_append,
    List.mem_append, not_or]
  constructor
  · rintro ⟨⟨h1, h2⟩, h3, h4, h5⟩
    exact ⟨h1, h2, h3, h4, fun i hi hi' => h5 i hi i hi' rfl⟩
  · rintro ⟨h1, h2, h3, h4, h5⟩
    exact ⟨⟨h1, h2⟩, h3, h4, fun i hi j hj e => h5 i hi (e ▸ hj)⟩

/-- The way to a place and what stands there are part of a way down. -/
theorem length_add_height_le (π : List Step) (t : Tree) :
    π.length + t.height ≤ (plug π t).height := by
  induction π generalizing t with
  | nil => simp
  | cons st π ih =>
    have h := ih (.join st.side st.colour t st.cell st.sibling)
    rw [Tree.height_join] at h
    rw [plug, List.length_cons]
    omega

/-- The way to a node is shorter than the longest way down. -/
theorem length_lt_height (π : List Step) (c : Colour) (l : Tree) (g : Cell) (r : Tree) :
    π.length < (plug π (.node c l g r)).height := by
  have h := length_add_height_le π (.node c l g r)
  rw [Tree.height] at h
  omega

/-- The root of a tree lies on the way from every place below it. -/
theorem exists_topOf (st : Step) (π : List Step) (hole : Option Nat) :
    ∃ i ∈ slotsAround (st :: π), topOf hole (st :: π) = some i := by
  induction π generalizing st hole with
  | nil => exact ⟨st.cell.slot, List.mem_cons_self, rfl⟩
  | cons st' π ih =>
    obtain ⟨i, hi, e⟩ := ih st' (some st.cell.slot)
    exact ⟨i, List.mem_cons_of_mem _ (List.mem_append_right _ hi), e⟩

/-! ## 3. The colour rules -/

/-- No red node has a red child, and every way down passes `h` black nodes. -/
inductive Balanced : Tree → Nat → Prop
  | leaf : Balanced .leaf 0
  | red {l r : Tree} {g : Cell} {h : Nat} :
      Balanced l h → Balanced r h → l.colour = .black → r.colour = .black →
        Balanced (.node .red l g r) h
  | black {l r : Tree} {g : Cell} {h : Nat} :
      Balanced l h → Balanced r h → Balanced (.node .black l g r) (h + 1)

/-- A balanced tree of `h` black levels with a root of colour `c` may stand at the place. -/
inductive Fits : Colour → List Step → Nat → Prop
  | nil {h : Nat} : Fits .black [] h
  | red {s : Side} {g : Cell} {t : Tree} {π : List Step} {h : Nat} :
      Balanced t h → t.colour = .black → Fits .red π h → Fits .black (⟨s, .red, g, t⟩ :: π) h
  | black {s : Side} {g : Cell} {t : Tree} {π : List Step} {h : Nat} (c : Colour) :
      Balanced t h → Fits .black π (h + 1) → Fits c (⟨s, .black, g, t⟩ :: π) h

theorem balanced_join_red {s : Side} {a b : Tree} {g : Cell} {h : Nat} :
    Balanced (.join s .red a g b) h ↔
      Balanced a h ∧ Balanced b h ∧ a.colour = .black ∧ b.colour = .black := by
  cases s <;> constructor
  · rintro (_ | ⟨h1, h2, h3, h4⟩ | _); exact ⟨h1, h2, h3, h4⟩
  · rintro ⟨h1, h2, h3, h4⟩; exact .red h1 h2 h3 h4
  · rintro (_ | ⟨h1, h2, h3, h4⟩ | _); exact ⟨h2, h1, h4, h3⟩
  · rintro ⟨h1, h2, h3, h4⟩; exact .red h2 h1 h4 h3

theorem balanced_join_black {s : Side} {a b : Tree} {g : Cell} {h : Nat} :
    Balanced (.join s .black a g b) (h + 1) ↔ Balanced a h ∧ Balanced b h := by
  cases s <;> constructor
  · rintro (_ | _ | ⟨h1, h2⟩); exact ⟨h1, h2⟩
  · rintro ⟨h1, h2⟩; exact .black h1 h2
  · rintro (_ | _ | ⟨h1, h2⟩); exact ⟨h2, h1⟩
  · rintro ⟨h1, h2⟩; exact .black h2 h1

theorem pos_of_balanced_join_black {s : Side} {a b : Tree} {g : Cell} {h : Nat}
    (hb : Balanced (.join s .black a g b) h) : ∃ k, h = k + 1 := by
  cases s <;> cases hb <;> exact ⟨_, rfl⟩

/-- A tree with a black level has a root. -/
theorem Balanced.exists_join {t : Tree} {h : Nat} (hb : Balanced t (h + 1)) (s : Side) :
    ∃ c a g b, t = .join s c a g b := by
  cases t with
  | leaf => cases hb
  | node c l g r =>
    obtain ⟨a, b, e⟩ := Tree.exists_join s c l g r
    exact ⟨c, a, g, b, e⟩

/-- A red root turns black and adds a level; a black one stays. -/
theorem Balanced.paint_black {t : Tree} {h : Nat} (hb : Balanced t h) :
    ∃ h', Balanced (t.paint .black) h' ∧ (t.colour = .red → h' = h + 1) := by
  cases hb with
  | leaf => exact ⟨0, .leaf, by simp⟩
  | red hl hr _ _ => exact ⟨_, .black hl hr, by simp⟩
  | black hl hr => exact ⟨_, .black hl hr, by simp⟩

theorem Tree.colour_paint_black (t : Tree) : (t.paint .black).colour = .black := by
  cases t <;> rfl

/-- Where a red root may stand, a black one may too. -/
theorem Fits.of_red {π : List Step} {h : Nat} (hf : Fits .red π h) : Fits .black π h := by
  cases hf with
  | black _ hb hf => exact .black _ hb hf

/-- A tree that fits makes the whole balanced, with a black root. -/
theorem balanced_plug {π : List Step} {t : Tree} {c : Colour} {h : Nat} (hf : Fits c π h)
    (hb : Balanced t h) (hc : t.colour = c) :
    ∃ h', Balanced (plug π t) h' ∧ (plug π t).colour = .black := by
  induction hf generalizing t with
  | nil => exact ⟨_, hb, hc⟩
  | red ht htc _ ih =>
    exact ih (balanced_join_red.mpr ⟨hb, ht, hc, htc⟩) (Tree.colour_join _ _ _ _ _)
  | black _ ht _ ih =>
    exact ih (balanced_join_black.mpr ⟨hb, ht⟩) (Tree.colour_join _ _ _ _ _)

/-- What stands at a place of a balanced tree is balanced and fits there. -/
theorem exists_fits {π : List Step} {t : Tree} {H : Nat} (hb : Balanced (plug π t) H)
    (hc : (plug π t).colour = .black) : ∃ h, Balanced t h ∧ Fits t.colour π h := by
  induction π generalizing t with
  | nil =>
    rw [plug_nil] at hb hc
    exact ⟨H, hb, hc ▸ .nil⟩
  | cons st π ih =>
    obtain ⟨s, c, g, o⟩ := st
    obtain ⟨h, hj, hf⟩ := ih hb hc
    rw [Tree.colour_join] at hf
    cases c with
    | red =>
      obtain ⟨h1, h2, h3, h4⟩ := balanced_join_red.mp hj
      exact ⟨h, h1, h3 ▸ .red h2 h4 hf⟩
    | black =>
      obtain ⟨k, rfl⟩ := pos_of_balanced_join_black hj
      obtain ⟨h1, h2⟩ := balanced_join_black.mp hj
      exact ⟨k, h1, .black _ h2 hf⟩

/-- What fits does not depend on the cells. -/
theorem Fits.replace_cell {σ π : List Step} {s : Side} {c d : Colour} {g g' : Cell} {t : Tree}
    {h : Nat} (hf : Fits d (σ ++ ⟨s, c, g, t⟩ :: π) h) : Fits d (σ ++ ⟨s, c, g', t⟩ :: π) h := by
  induction σ generalizing d h with
  | nil =>
    cases hf with
    | red ht hc hf => exact .red ht hc hf
    | black _ ht hf => exact .black _ ht hf
  | cons st σ ih =>
    cases hf with
    | red ht hc hf => exact .red ht hc (ih hf)
    | black _ ht hf => exact .black _ ht (ih hf)

end BlockDoc.Multimap
