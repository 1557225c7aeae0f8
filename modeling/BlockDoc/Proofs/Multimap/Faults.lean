/-
# No change of a multimap meets a fault

A change checks what it relies on: that a number belongs to a cell, that a red parent has a parent,
that a subtree which is short has a parent and a sibling, that a rotation has a child to lift, that a
chain is as long as its count.  A check that fails is a `Fault` and ends the change.

In a map that obeys its rules (`Stores`) no check fails.  The specifications of the three changes say
so, since they say that the changes succeed, and the reasons are in the invariants of the two climbs.
A red node stands where a black one would fit, so its red parent is not the root.  A subtree that is
short stands where one more black level is asked for, so its sibling has a black level and is there,
also after a rotation.

That leaves the limit on the rounds of a climb, which the climb must not depend on.  One that ends is
the same with a larger limit (`settleRed_mono`, `settleShort_mono`), and each of them ends within the
height of the tree, which is logarithmic in the number of keys.  So it ends by itself (`Ends`).
-/
import BlockDoc.Proofs.Multimap.Recycling

namespace BlockDoc.Multimap

variable {α : Type} {m : Multimap α} {t : Tree} {bs : List (Bunch α)}

/-! ## 1. The climbs end -/

namespace Forest

variable {f f1 : Forest} {σ : List Step} {c : Colour} {l r : Tree} {g : Cell} {key : String}
  {i link : Nat} {nodes : Arena Node} {gap : Gap}

/-- The climb from a new node ends within the height of the tree. -/
theorem Sound.settleRed_ends (h : f.Sound (plug σ .leaf))
    (hacquire : f.nodes.acquire
      ⟨key, .red, (spotAt σ).map Prod.fst, none, none, link, link, 1⟩ = .ok (i, nodes))
    (hlink : Forest.link (spotAt σ) i { f with nodes } = .ok f1) :
    ∃ f', ∀ limit, (plug σ .leaf).height < limit → settleRed limit i f1 = .ok f' := by
  obtain ⟨i, nodes, e, hshow, hcell, hσ, -, -⟩ := h.acquire key link
  obtain ⟨rfl, rfl⟩ := Prod.mk.inj (Except.ok.inj (e.symm.trans hacquire))
  obtain ⟨H, hH⟩ := h.balanced
  obtain ⟨f2, k, e2, h2, hz, hf, -⟩ :=
    link_fits (g := ⟨i, key, link, link, 1⟩) hshow hH h.black hcell hσ
  obtain rfl := Except.ok.inj (e2.symm.trans hlink)
  obtain ⟨f', e'⟩ := Forest.settleRed_ends h2 hz hf
  have hlen := length_add_height_le σ .leaf
  exact ⟨f', fun limit hl => e' limit (by omega)⟩

/-- The climb from the gap that a deleted node leaves ends within the height of the tree. -/
theorem Sound.settleShort_ends (h : f.Sound (plug σ (.node c l g r)))
    (hcut : f.cut g.slot = .ok (gap, f1)) (hgap : gap.colour = .black) :
    ∃ r', ∀ limit, (plug σ (.node c l g r)).height < limit →
      settleShort limit gap.child gap.above f1 = .ok r' := by
  obtain ⟨H, hH⟩ := h.balanced
  obtain ⟨f2, gap', ρ, u, k, e, hc, hlen, hu, hblack, -⟩ := cut_spec h.shows hH h.black
  obtain ⟨rfl, rfl⟩ := Prod.mk.inj (Except.ok.inj (e.symm.trans hcut))
  obtain ⟨r', e'⟩ := Forest.settleShort_ends hc.shows hu (hblack hgap)
  rw [hc.child, hc.above]
  exact ⟨r', fun limit hl => e' limit (hlen.trans hl)⟩

end Forest

/-! ## 2. What a change can run into -/

/-- A loop ends by itself: from about twice the logarithm of the number of keys on, it makes no
difference how many rounds it may take. -/
def Ends {β : Type} (m : Multimap α) (loop : Nat → Except Fault β) : Prop :=
  ∃ b, ∀ limit, (m.keyCount + 1) ^ 2 < 2 ^ limit → loop limit = .ok b

/-- The map gets a new key: in `f` its node `i` has been hung up, and the colours are not repaired
yet. -/
def Hangs (m : Multimap α) (i : Nat) (f : Forest) : Prop :=
  ∃ key above link nodes, m.forest.search key = .ok (.vacant above) ∧
    m.forest.nodes.acquire ⟨key, .red, above.map Prod.fst, none, none, link, link, 1⟩ =
      .ok (i, nodes) ∧
    Forest.link above i { m.forest with nodes } = .ok f

/-- The map loses a key: in `f` its node has been taken out, and the gap is one black level short. -/
def Gapes (m : Multimap α) (gap : Forest.Gap) (f : Forest) : Prop :=
  ∃ key i, m.forest.search key = .ok (.found i) ∧ m.forest.cut i = .ok (gap, f) ∧
    gap.colour = .black

/-- No change of the map meets a fault: the checked form of each change succeeds, with what the
plain form returns, and both climbs end by themselves. -/
structure Faultless (m : Multimap α) : Prop where
  /-- Adding a value meets no fault. -/
  insert : ∀ key value, m.insertChecked key value = .ok (m.insert key value)
  /-- Removing the value at a position meets no fault. -/
  remove : ∀ key index, m.removeChecked key index = .ok (m.remove key index)
  /-- Removing a whole group meets no fault. -/
  removeAll : ∀ key, m.removeAllChecked key = .ok (m.removeAll key)
  /-- The climb from a new node ends. -/
  settleRed : ∀ i f, m.Hangs i f → m.Ends fun limit => Forest.settleRed limit i f
  /-- The climb from the gap that a deleted node leaves ends. -/
  settleShort : ∀ gap f, m.Gapes gap f →
    m.Ends fun limit => Forest.settleShort limit gap.child gap.above f

/-- The height of the tree is logarithmic in the number of keys. -/
theorem Stores.height_lt (h : m.Stores t bs) {limit : Nat}
    (hl : (m.keyCount + 1) ^ 2 < 2 ^ limit) : t.height < limit :=
  (Nat.pow_lt_pow_iff_right (by decide)).mp (h.sound.two_pow_height_le.trans_lt hl)

theorem Stores.settleRed_ends (h : m.Stores t bs) {i : Nat} {f : Forest} (hf : m.Hangs i f) :
    m.Ends fun limit => Forest.settleRed limit i f := by
  obtain ⟨key, above, link, nodes, hsearch, hacquire, hlink⟩ := hf
  rcases h.search_cases key with
    ⟨σ, c, l, r, xs, b, ys, rfl, rfl, rfl, hfound⟩ | ⟨σ, xs, ys, rfl, rfl, -, -, -, -, hvacant⟩
  · cases hfound.search.symm.trans hsearch
  · cases hvacant.symm.trans hsearch
    obtain ⟨f', e⟩ := h.sound.settleRed_ends hacquire hlink
    exact ⟨f', fun limit hl => e limit (h.height_lt hl)⟩

theorem Stores.settleShort_ends (h : m.Stores t bs) {gap : Forest.Gap} {f : Forest}
    (hf : m.Gapes gap f) :
    m.Ends fun limit => Forest.settleShort limit gap.child gap.above f := by
  obtain ⟨key, i, hsearch, hcut, hgap⟩ := hf
  rcases h.search_cases key with
    ⟨σ, c, l, r, xs, b, ys, rfl, rfl, rfl, hfound⟩ | ⟨σ, xs, ys, rfl, rfl, -, -, -, -, hvacant⟩
  · cases hfound.search.symm.trans hsearch
    obtain ⟨r', e⟩ := h.sound.settleShort_ends hcut hgap
    exact ⟨r', fun limit hl => e limit (h.height_lt hl)⟩
  · cases hvacant.symm.trans hsearch

/-- **A map that obeys its rules meets no fault.** -/
theorem Stores.faultless (h : m.Stores t bs) : m.Faultless where
  insert key value := by
    obtain ⟨m', -, -, e, -⟩ := h.insert key value
    rw [Multimap.insert, e]
  remove key index := by
    obtain ⟨m', -, -, e, -⟩ := h.remove key index
    rw [Multimap.remove, e]
  removeAll key := by
    obtain ⟨m', -, -, e, -⟩ := h.removeAll key
    rw [Multimap.removeAll, e]
  settleRed _ _ hf := h.settleRed_ends hf
  settleShort _ _ hf := h.settleShort_ends hf

/-- The colour rules are needed: a black node below a black one cannot be deleted if it has no
sibling. -/
example : Multimap.removeAllChecked ⟨⟨⟨#[⟨"b", .black, none, some 1, none, 0, 0, 1⟩,
    ⟨"a", .black, some 0, none, none, 1, 1, 1⟩], []⟩, some 0⟩,
    ⟨#[⟨some 'b', none⟩, ⟨some 'a', none⟩], []⟩, 2⟩ "a" = .error .noSibling := by rfl

/-! ## 3. Every run -/

/-- **Whatever was changed before, no change meets a fault**: no number is out of bounds, no red
pair lies at the root, nothing that is short lacks a parent or a sibling, no rotation lacks the child
it lifts, no chain is broken, and both climbs end. -/
theorem run_faultless (ops : List (Op α)) : (after ops).Faultless := by
  obtain ⟨t, bs, hs⟩ := stores_after ops
  exact hs.faultless

end BlockDoc.Multimap
