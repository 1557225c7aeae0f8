/-
# A multimap is a list of pairs

The specification of a multimap is the plain list of its pairs in the order of their insertion.
`Refines` relates a map to such a list by what lies under each key.  Every operation keeps the
relation and gives the same reply on both sides, so the two run in lockstep (`run_refines`), and
a reader of the map sees the list sorted stably by key (`Refines.observes`).

Along the way every reachable map has a sound tree, which is the statement about its shape
(`run_redBlack`).
-/
import BlockDoc.Proofs.Multimap.Reading
import BlockDoc.Proofs.Multimap.StableSort

namespace BlockDoc.Multimap

variable {α : Type}

/-! ## 1. Operations -/

/-- A change of a multimap. -/
inductive Op (α : Type) where
  | insert (key : String) (value : α)
  | remove (key : String) (index : Nat)
  | removeAll (key : String)
  | clear

/-- What a change returns. -/
inductive Reply (α : Type) where
  | none
  | removed (value : Option α)
  | removedAll (values : List α)
  deriving DecidableEq

/-- The effect of a change on a multimap. -/
def Op.onMap : Op α → Multimap α → Reply α × Multimap α
  | .insert key value, m => (.none, m.insert key value)
  | .remove key index, m => let (v, m) := m.remove key index; (.removed v, m)
  | .removeAll key, m => let (vs, m) := m.removeAll key; (.removedAll vs, m)
  | .clear, _ => (.none, .empty)

/-- The list without its pair at position `index` among those with the key. -/
def eraseUnder (key : String) : Nat → List (String × α) → List (String × α)
  | _, [] => []
  | 0, p :: ps => if p.1 = key then ps else p :: eraseUnder key 0 ps
  | index + 1, p :: ps =>
    p :: if p.1 = key then eraseUnder key index ps else eraseUnder key (index + 1) ps

/-- The effect of a change on the list of pairs in insertion order. -/
def Op.onPairs : Op α → List (String × α) → Reply α × List (String × α)
  | .insert key value, ps => (.none, ps ++ [(key, value)])
  | .remove key index, ps => (.removed (under ps key)[index]?, eraseUnder key index ps)
  | .removeAll key, ps => (.removedAll (under ps key), ps.filter fun p => p.1 ≠ key)
  | .clear, _ => (.none, [])

/-- Several changes one after the other, with all replies. -/
def run {σ : Type} (step : Op α → σ → Reply α × σ) : List (Op α) → σ → List (Reply α) × σ
  | [], s => ([], s)
  | op :: ops, s =>
    let (r, s) := step op s
    let (rs, s) := run step ops s
    (r :: rs, s)

/-! ## 2. The list of pairs -/

theorem under_eraseUnder (ps : List (String × α)) (key : String) (index : Nat) (k : String) :
    under (eraseUnder key index ps) k =
      if k = key then (under ps key).eraseIdx index else under ps k := by
  induction ps generalizing index with
  | nil => simp [eraseUnder, under]
  | cons p ps ih =>
    by_cases hp : p.1 = key
    · cases index with
      | zero =>
        rw [eraseUnder, if_pos hp, under_cons, under_cons, if_pos hp]
        by_cases hk : k = key
        · rw [if_pos hk, hk, List.eraseIdx_cons_zero]
        · rw [if_neg hk, if_neg fun e => hk (e.symm.trans hp)]
      | succ index =>
        rw [eraseUnder, if_pos hp, under_cons, under_cons, under_cons, if_pos hp, ih]
        by_cases hk : k = key
        · rw [if_pos hk, if_pos hk, if_pos (hp.trans hk.symm), List.eraseIdx_cons_succ]
        · rw [if_neg hk, if_neg hk]
    · have hstep : eraseUnder key index (p :: ps) = p :: eraseUnder key index ps := by
        cases index <;> rw [eraseUnder, if_neg hp]
      rw [hstep, under_cons, ih, under_cons, under_cons, if_neg hp]
      by_cases hk : k = key
      · rw [if_pos hk, if_pos hk, if_neg (hk ▸ hp)]
      · rw [if_neg hk, if_neg hk]

theorem under_filter_ne (ps : List (String × α)) (key k : String) :
    under (ps.filter fun p => p.1 ≠ key) k = if k = key then [] else under ps k := by
  induction ps with
  | nil => simp [under]
  | cons p ps ih =>
    by_cases hp : p.1 = key
    · rw [List.filter_cons_of_neg (by simpa using hp), ih, under_cons]
      by_cases hk : k = key
      · rw [if_pos hk, if_pos hk]
      · rw [if_neg hk, if_neg hk, if_neg fun e => hk (e.symm.trans hp)]
    · rw [List.filter_cons_of_pos (by simpa using hp), under_cons, ih, under_cons]
      by_cases hk : k = key
      · rw [if_pos hk, if_pos hk, if_neg (hk ▸ hp)]
      · rw [if_neg hk, if_neg hk]

/-! ## 3. One step and many -/

/-- The map stores what the list holds under each key. -/
def Refines (m : Multimap α) (ps : List (String × α)) : Prop :=
  ∃ t bs, m.Stores t bs ∧ ∀ key, under (pairsOf bs) key = under ps key

theorem refines_empty : Refines (empty : Multimap α) [] := ⟨.leaf, [], stores_empty, fun _ => rfl⟩

/-- **An inserted pair goes to the end of the list.** -/
theorem Refines.insert {m : Multimap α} {ps : List (String × α)} (h : m.Refines ps)
    (key : String) (value : α) : (m.insert key value).Refines (ps ++ [(key, value)]) := by
  obtain ⟨t, bs, hs, hu⟩ := h
  obtain ⟨m', t', bs', e, hs', hu', -⟩ := hs.insert key value
  refine ⟨t', bs', ?_, fun k => ?_⟩
  · simp only [Multimap.insert, e]
    exact hs'
  · rw [hu', hu, hu, under_append, under_cons]
    by_cases hk : k = key
    · simp [hk, under]
    · simp [hk, under, Ne.symm hk]

/-- **A step keeps the relation and gives the same reply.** -/
theorem Refines.step {m : Multimap α} {ps : List (String × α)} (h : m.Refines ps) (op : Op α) :
    (op.onMap m).1 = (op.onPairs ps).1 ∧ (op.onMap m).2.Refines (op.onPairs ps).2 := by
  cases op with
  | insert key value => exact ⟨rfl, h.insert key value⟩
  | remove key index =>
    obtain ⟨t, bs, hs, hu⟩ := h
    obtain ⟨m', t', bs', e, hs', hu', -⟩ := hs.remove key index
    simp only [Op.onMap, Op.onPairs, Multimap.remove, e]
    refine ⟨by rw [hu], t', bs', hs', fun k => ?_⟩
    rw [hu', hu, hu, under_eraseUnder]
  | removeAll key =>
    obtain ⟨t, bs, hs, hu⟩ := h
    obtain ⟨m', t', bs', e, hs', hu', -⟩ := hs.removeAll key
    simp only [Op.onMap, Op.onPairs, Multimap.removeAll, e]
    refine ⟨by rw [hu], t', bs', hs', fun k => ?_⟩
    rw [hu', hu, under_filter_ne]
  | clear => exact ⟨rfl, refines_empty⟩

/-- **The map and the list run in lockstep.** -/
theorem Refines.run {m : Multimap α} {ps : List (String × α)} (h : m.Refines ps)
    (ops : List (Op α)) :
    (run Op.onMap ops m).1 = (run Op.onPairs ops ps).1 ∧
      (run Op.onMap ops m).2.Refines (run Op.onPairs ops ps).2 := by
  induction ops generalizing m ps with
  | nil => exact ⟨rfl, h⟩
  | cons op ops ih =>
    obtain ⟨hr, h1⟩ := h.step op
    obtain ⟨hrs, h2⟩ := ih h1
    exact ⟨List.cons_eq_cons.mpr ⟨hr, hrs⟩, h2⟩

/-! ## 4. What a reader sees -/

/-- Every reader of the map returns what the list has to say. -/
structure Observes (m : Multimap α) (ps : List (String × α)) : Prop where
  /-- All pairs, sorted stably by key. -/
  toList : m.toList = sortByKey ps
  /-- The group under a key, if there is a value. -/
  find? : ∀ key, m.find? key =
    if under ps key = [] then none else some ⟨key, (under ps key).length, under ps key⟩
  /-- The values under a key. -/
  get : ∀ key, m.get key = under ps key
  /-- The oldest value under a key. -/
  first? : ∀ key, m.first? key = (under ps key).head?
  /-- The number of values under a key. -/
  count : ∀ key, m.count key = (under ps key).length
  /-- Whether there is a value under a key. -/
  contains : ∀ key, m.contains key = true ↔ key ∈ ps.map Prod.fst
  /-- The smallest key. -/
  firstKey? : m.firstKey? = (keysOf ps).head?
  /-- The largest key. -/
  lastKey? : m.lastKey? = (keysOf ps).getLast?
  /-- The groups, one for each key, in the order of the keys. -/
  groups : m.groups = (keysOf ps).map fun key => ⟨key, (under ps key).length, under ps key⟩
  /-- The number of pairs. -/
  size : m.size = ps.length
  /-- Whether there is no pair. -/
  isEmpty : m.isEmpty = ps.isEmpty
  /-- The number of distinct keys. -/
  keyCount : m.keyCount = (keysOf ps).length

variable {m : Multimap α} {t : Tree} {bs : List (Bunch α)} {ps : List (String × α)}

/-- The keys of the bunches ascend. -/
theorem Stores.pairwise_keys (h : m.Stores t bs) :
    (bs.map fun b => b.cell.key).Pairwise (· < ·) := by
  have ha := h.sound.ascending
  rw [Ascending, ← h.cells, List.pairwise_map] at ha
  exact List.pairwise_map.mpr ha

/-- The keys of the pairs ascend. -/
theorem Stores.pairwise_pairs (h : m.Stores t bs) :
    (pairsOf bs).Pairwise fun p q => p.1 ≤ q.1 := by
  have hk := List.pairwise_map.mp h.pairwise_keys
  rw [pairsOf, List.pairwise_flatMap]
  refine ⟨fun b _ => ?_, hk.imp fun {b b'} hb p hp q hq => ?_⟩
  · exact List.pairwise_map.mpr (List.pairwise_of_forall fun _ _ => le_refl _)
  · obtain ⟨v, -, rfl⟩ := List.mem_map.mp hp
    obtain ⟨w, -, rfl⟩ := List.mem_map.mp hq
    exact le_of_lt hb

/-- What lies under the key of a bunch. -/
theorem Stores.under_eq (h : m.Stores t bs) {b : Bunch α} (hb : b ∈ bs) :
    under (pairsOf bs) b.cell.key = b.values := by
  obtain ⟨xs, ys, rfl⟩ := List.append_of_mem hb
  have hk := List.pairwise_map.mp h.pairwise_keys
  rw [List.pairwise_append, List.pairwise_cons] at hk
  rw [under_middle ?_, if_pos rfl]
  intro b' hb'
  rcases List.mem_append.mp hb' with hb' | hb'
  · exact ne_of_lt (hk.2.2 b' hb' b List.mem_cons_self)
  · exact ne_of_gt (hk.2.1.1 b' hb')

/-- The bunches have the keys under which something lies. -/
theorem Stores.mem_keys_iff (h : m.Stores t bs)
    (hu : ∀ key, under (pairsOf bs) key = under ps key) {key : String} :
    (key ∈ bs.map fun b => b.cell.key) ↔ under ps key ≠ [] := by
  rw [← hu]
  constructor
  · intro hkey
    obtain ⟨b, hb, rfl⟩ := List.mem_map.mp hkey
    rw [h.under_eq hb]
    exact h.values_ne_nil hb
  · intro hne
    rcases h.node_cases key with ⟨b, hb, rfl, -⟩ | ⟨e, -, -⟩
    · exact List.mem_map_of_mem (f := fun b : Bunch α => b.cell.key) hb
    · exact absurd e hne

/-- The keys of the bunches are those of the list. -/
theorem Stores.keys_eq (h : m.Stores t bs) (hu : ∀ key, under (pairsOf bs) key = under ps key) :
    (bs.map fun b => b.cell.key) = keysOf ps :=
  eq_keysOf h.pairwise_keys fun _ => (h.mem_keys_iff hu).trans under_ne_nil_iff

/-- **A reader sees the list**, sorted by key where it asks for an order. -/
theorem Refines.observes (h : m.Refines ps) : m.Observes ps := by
  obtain ⟨t, bs, hs, hu⟩ := h
  have hkeys := hs.keys_eq hu
  have hlist : pairsOf bs = sortByKey ps := eq_sortByKey hs.pairwise_pairs hu
  have hlen : (pairsOf bs).length = ps.length := by
    rw [hlist]
    exact (List.mergeSort_perm ps keyLe).length_eq
  have hsize : m.size = ps.length := hs.size.trans hlen
  refine ⟨by rw [hs.toList_eq, hlist], fun key => ?_, fun key => ?_, fun key => ?_, fun key => ?_,
    fun key => ?_, ?_, ?_, ?_, hsize, ?_, ?_⟩
  · rw [hs.find?_eq, hu]
  · rw [hs.get_eq, hu]
  · rw [hs.first?_eq, hu]
  · rw [hs.count_eq, hu]
  · rw [hs.contains_iff, hu, under_ne_nil_iff]
  · rw [firstKey?, hs.outermostKey?_eq, hkeys]
  · rw [lastKey?, hs.outermostKey?_eq, hkeys]
  · rw [hs.groups_eq, ← hkeys, List.map_map]
    refine List.map_congr_left fun b hb => ?_
    simp only [Function.comp_apply, ← hu, hs.under_eq hb, (hs.linked b hb).length_values]
    rfl
  · rw [isEmpty, hsize]
    cases ps <;> rfl
  · rw [hs.keyCount_eq, ← hkeys, List.length_map]

/-- **The pairs in key order are the groups one after the other**, and the keys ascend. -/
theorem Refines.exists_runs (h : m.Refines ps) : ∃ keys : List String, keys.Pairwise (· < ·) ∧
    (∀ key, key ∈ keys ↔ under ps key ≠ []) ∧
    m.toList = keys.flatMap (fun key => (under ps key).map fun v => (key, v)) ∧
    m.groups = keys.map fun key => ⟨key, (under ps key).length, under ps key⟩ := by
  obtain ⟨t, bs, hs, hu⟩ := h
  have hvalues : ∀ b ∈ bs, under ps b.cell.key = b.values := fun b hb => by
    rw [← hu, hs.under_eq hb]
  refine ⟨_, hs.pairwise_keys, fun _ => hs.mem_keys_iff hu, ?_, ?_⟩
  · rw [hs.toList_eq, pairsOf, List.flatMap_map]
    exact List.flatMap_congr fun b hb => by rw [hvalues b hb]
  · rw [hs.groups_eq, List.map_map]
    refine List.map_congr_left fun b hb => ?_
    rw [Function.comp_apply, hvalues b hb, (hs.linked b hb).length_values]
    rfl

/-! ## 5. Every run -/

/-- **A multimap behaves like the list of its pairs.**  After any changes, every reply so far
was that of the list, and every reader returns what the list says. -/
theorem run_refines (ops : List (Op α)) :
    (run Op.onMap ops empty).1 = (run Op.onPairs ops []).1 ∧
      (run Op.onMap ops empty).2.Observes (run Op.onPairs ops []).2 := by
  obtain ⟨hr, h⟩ := refines_empty.run ops
  exact ⟨hr, h.observes⟩

/-- **The tree of a multimap is a red-black tree after any changes**: its links form a tree,
parents included, with a black root; no red node has a red child and all ways down pass the same
number of black nodes; the keys are in order; and the height is logarithmic in the number of
keys. -/
theorem run_redBlack (ops : List (Op α)) :
    ∃ t, (run Op.onMap ops empty).2.forest.Shows t ∧ t.colour = .black ∧
      (∃ h, Balanced t h) ∧ Ordered t ∧
      2 ^ t.height ≤ ((run Op.onMap ops empty).2.keyCount + 1) ^ 2 := by
  obtain ⟨-, t, bs, hs, -⟩ := refines_empty.run ops
  exact ⟨t, hs.sound.shows, hs.sound.black, hs.sound.balanced,
    ordered_of_ascending hs.sound.ascending, hs.sound.two_pow_height_le⟩

end BlockDoc.Multimap
