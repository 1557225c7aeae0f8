/-
# A group as it lies in the arenas

The values under one key are a node of the tree and a chain of links.  `Bunch` holds both, and
`Linked` says that the node knows the two ends and the length of its chain.  A value is put at
the end of a chain, or taken out of it at any position, by changing one link and one end at
most; `Linked.extend` and `unchain_spec` follow these changes.
-/
import BlockDoc.Proofs.Multimap.Sound

namespace BlockDoc.Multimap

/-- The cell of a node and the chain of its values, with the number of the cell of each. -/
structure Bunch (α : Type) where
  /-- The cell of the node. -/
  cell : Cell
  /-- The chain of values. -/
  chain : List (Nat × α)

variable {α : Type}

namespace Bunch

/-- The numbers of the links. -/
def slots (b : Bunch α) : List Nat := b.chain.map Prod.fst

/-- The values in the order of the chain. -/
def values (b : Bunch α) : List α := b.chain.map Prod.snd

/-- The bunch with one link more. -/
def extended (b : Bunch α) (link : Nat) (v : α) : Bunch α :=
  ⟨{ b.cell with tail := link, count := b.cell.count + 1 }, b.chain ++ [(link, v)]⟩

theorem values_extended (b : Bunch α) (link : Nat) (v : α) :
    (b.extended link v).values = b.values ++ [v] := List.map_append

/-- The node knows its chain. -/
structure Linked (links : Arena (Link α)) (b : Bunch α) : Prop where
  /-- The links form the chain, and the last one points nowhere. -/
  chain : Chain links b.chain none
  /-- The chain begins at the head. -/
  head : front b.chain none = some b.cell.head
  /-- The chain ends at the tail. -/
  tail : b.chain.getLast?.map Prod.fst = some b.cell.tail
  /-- The length is the count. -/
  count : b.chain.length = b.cell.count

variable {links links' : Arena (Link α)} {b : Bunch α}

/-- A bunch depends on its own links only. -/
theorem Linked.congr (h : b.Linked links)
    (hl : ∀ i ∈ b.slots, links'.cells[i]? = links.cells[i]?) : b.Linked links' :=
  ⟨h.chain.congr hl, h.head, h.tail, h.count⟩

theorem Linked.length_values (h : b.Linked links) : b.values.length = b.cell.count := by
  rw [values, List.length_map, h.count]

/-- No chain is empty. -/
theorem Linked.count_pos (h : b.Linked links) : 0 < b.cell.count := by
  rw [← h.count]
  cases hc : b.chain with
  | nil => simpa [hc] using h.head
  | cons x xs => exact Nat.succ_pos _

/-- The chain is long enough for a reader, and no longer than it expects. -/
theorem Linked.valuesFrom_eq (h : b.Linked links) (hd : b.slots.Nodup) :
    valuesFrom links (links.cells.size + 1) (some b.cell.head) = b.values := by
  rw [← h.head]
  exact h.chain.valuesFrom_eq (Nat.lt_succ_of_le (h.chain.length_le hd))

/-- **A value more at the end of a chain.** -/
theorem Linked.extend {link : Nat} {v : α} (h : b.Linked links) (hd : b.slots.Nodup)
    (hlink : link ∉ b.slots) (hv : links.cells[link]? = some ⟨some v, none⟩) :
    ∃ links', links.modify b.cell.tail (fun l => { l with next := some link }) = .ok links' ∧
      (b.extended link v).Linked links' ∧
      (∀ j, j ∉ b.slots → links'.cells[j]? = links.cells[j]?) ∧
      links'.cells.size = links.cells.size ∧ links'.free = links.free := by
  obtain ⟨⟨i, w⟩, hlast, hi⟩ := Option.map_eq_some_iff.mp h.tail
  obtain ⟨xs, hxs⟩ := List.getLast?_eq_some_iff.mp hlast
  obtain rfl : i = b.cell.tail := hi
  have hslots : b.slots = xs.map Prod.fst ++ [b.cell.tail] := by
    rw [slots, hxs, List.map_append]
    rfl
  have hchain := h.chain
  rw [hxs, Chain.append] at hchain
  rw [hslots] at hd hlink
  obtain ⟨hinit, hend, -⟩ := hchain
  obtain ⟨links', e, hm, ho, hsize, hfree⟩ :=
    Arena.modify_spec hend fun l => { l with next := some link }
  have hne : link ≠ b.cell.tail := fun e => hlink (by simp [e])
  refine ⟨links', e, ⟨?_, ?_, ?_, ?_⟩, ?_, hsize, hfree⟩
  · rw [extended, hxs, Chain.append, Chain.append]
    refine ⟨⟨hinit.congr fun j hj => ho j ?_, hm, trivial⟩, ?_, trivial⟩
    · exact fun e => (List.nodup_append.mp hd).2.2 j hj j (by simp [e]) rfl
    · rw [ho link hne, hv]
      rfl
  · rw [extended, front_append]
    have hhead := h.head
    rw [hxs] at hhead ⊢
    cases xs <;> exact hhead
  · simp [extended]
  · simp [extended, h.count]
  · intro j hj
    exact ho j fun e => hj (by rw [hslots, e]; simp)

end Bunch

/-! ## Taking a link out of a chain -/

/-- The link in front of another one skips it. -/
theorem Chain.skip {links : Arena (Link α)} {us vs : List (Nat × α)} {k i : Nat} {u w : α}
    (hc : Chain links (us ++ [(k, u)] ++ (i, w) :: vs) none)
    (hd : ((us ++ [(k, u)]).map Prod.fst ++ i :: vs.map Prod.fst).Nodup) :
    ∃ links', links.modify k (fun l => { l with next := front vs none }) = .ok links' ∧
      Chain links' (us ++ [(k, u)] ++ vs) none ∧
      (∀ j, j ∉ us.map Prod.fst ++ [k] → links'.cells[j]? = links.cells[j]?) ∧
      links'.cells.size = links.cells.size ∧ links'.free = links.free := by
  obtain ⟨hus, -, hvs⟩ := Chain.append.mp hc
  obtain ⟨hus, hk, -⟩ := Chain.append.mp hus
  obtain ⟨links', e, hm, ho, hsize, hfree⟩ :=
    Arena.modify_spec hk fun l => { l with next := front vs none }
  rw [List.map_append, List.map_cons, List.map_nil] at hd
  -- no other link is the one in front
  have hkus : ∀ j ∈ us.map Prod.fst, j ≠ k := by
    intro j hj e
    have hd' := (List.nodup_append.mp (List.nodup_append.mp hd).1).2.2
    exact hd' j hj k List.mem_cons_self e
  have hkvs : ∀ j ∈ vs.map Prod.fst, j ≠ k := by
    intro j hj e
    have hd' := (List.nodup_append.mp hd).2.2
    exact hd' k (by simp) j (List.mem_cons_of_mem _ hj) e.symm
  refine ⟨links', e, Chain.append.mpr ⟨Chain.append.mpr ⟨?_, ?_, trivial⟩, ?_⟩, ?_, hsize, hfree⟩
  · exact hus.congr fun j hj => ho j (hkus j hj)
  · exact hm
  · exact hvs.congr fun j hj => ho j (hkvs j hj)
  · exact fun j hj => ho j fun e => hj (by simp [e])

/-- **A value less in a chain**: the link in front of it, or the head, skips it, and the tail
follows if it was the last one. -/
theorem unchain_spec {m : Multimap α} {σ : List Step} {c : Colour} {l r : Tree} {b : Bunch α}
    {us vs : List (Nat × α)} {i : Nat} {w : α}
    (hf : m.forest.Sound (plug σ (.node c l b.cell r))) (hb : b.Linked m.links)
    (hd : b.slots.Nodup) (hchain : b.chain = us ++ (i, w) :: vs) (hrest : us ++ vs ≠ []) :
    ∃ f' links' g, m.unchain b.cell.slot (us.getLast?.map Prod.fst) i =
        .ok { m with forest := f', links := links' } ∧
      f'.Sound (plug σ (.node c l g r)) ∧
      (g.slot = b.cell.slot ∧ g.key = b.cell.key ∧ g.count = b.cell.count) ∧
      front (us ++ vs) none = some g.head ∧ (us ++ vs).getLast?.map Prod.fst = some g.tail ∧
      Chain links' (us ++ vs) none ∧
      (∀ j, j ∉ us.map Prod.fst → links'.cells[j]? = m.links.cells[j]?) ∧
      f'.nodes.cells.size = m.forest.nodes.cells.size ∧
      links'.cells.size = m.links.cells.size ∧ links'.free = m.links.free := by
  have hc := hb.chain
  have htail := hb.tail
  have hhead := hb.head
  rw [Bunch.slots, hchain, List.map_append, List.map_cons] at hd
  rw [hchain] at hc htail hhead
  obtain ⟨hus, hi, hvs⟩ := Chain.append.mp hc
  rcases List.eq_nil_or_concat' us with rfl | ⟨us, ⟨k, u⟩, rfl⟩
  · -- the first value: the head moves on
    cases vs with
    | nil => exact absurd rfl hrest
    | cons y vs =>
      obtain ⟨f', e, hf', hnodes⟩ := hf.edit { b.cell with head := y.1 }
        (k := fun n => { n with head := y.1 }) rfl rfl fun _ _ _ => rfl
      refine ⟨f', m.links, _, ?_, hf', ⟨rfl, rfl, rfl⟩, rfl, ?_, hvs, fun _ _ => rfl, hnodes, rfl,
        rfl⟩
      · simp only [unchain, Arena.read_eq hi, ok_bind, front_cons, List.getLast?_nil,
          Option.map_none, e]
      · simpa [List.getLast?_cons] using htail
  · obtain ⟨links', e, hchain', hother, hsize, hfree⟩ := hc.skip hd
    rw [List.map_append, List.map_cons, List.map_nil]
    have hhead' : front (us ++ [(k, u)] ++ vs) none = some b.cell.head := by
      rw [← hhead]
      cases us <;> rfl
    have hbefore : (us ++ [(k, u)]).getLast?.map Prod.fst = some k := by simp
    cases vs with
    | nil =>
      obtain ⟨f', e', hf', hnodes⟩ := hf.edit { b.cell with tail := k }
        (k := fun n => { n with tail := k }) rfl rfl fun _ _ _ => rfl
      refine ⟨f', links', _, ?_, hf', ⟨rfl, rfl, rfl⟩, hhead', ?_, hchain', hother, hnodes, hsize,
        hfree⟩
      · simp only [front_nil] at e hi
        simp only [hbefore, unchain, Arena.read_eq hi, ok_bind, e,
          Option.isNone_none, if_true, e']
      · simp
    | cons y vs =>
      refine ⟨m.forest, links', b.cell, ?_, hf, ⟨rfl, rfl, rfl⟩, hhead', ?_, hchain', hother, rfl,
        hsize, hfree⟩
      · simp only [front_cons] at e hi
        simp only [hbefore, unchain, Arena.read_eq hi, ok_bind, e,
          Option.isNone_some, Bool.false_eq_true, if_false]
      · rw [← htail]
        simp [List.getLast?_cons]

end BlockDoc.Multimap
