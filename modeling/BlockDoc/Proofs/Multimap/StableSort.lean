/-
# Stable sorting by key

A list of pairs whose keys ascend is determined by the values under each key.  Sorting a list
stably by key keeps the values under each key, so it is the only ascending list with the same
values under each key.
-/
import BlockDoc.Proofs.Multimap.Stores
import Mathlib.Data.List.Dedup

namespace BlockDoc.Multimap

variable {α : Type} {ps qs : List (String × α)} {key : String}

/-- The order of pairs by their keys alone. -/
def keyLe (p q : String × α) : Bool := p.1 ≤ q.1

/-- The pairs sorted by key, equal keys in the order in which they come. -/
def sortByKey (ps : List (String × α)) : List (String × α) := ps.mergeSort keyLe

/-- The distinct keys in ascending order. -/
def keysOf (ps : List (String × α)) : List String :=
  (ps.map Prod.fst).dedup.mergeSort fun k k' => k ≤ k'

theorem keyLe_trans (p q r : String × α) (h : keyLe p q = true) (h' : keyLe q r = true) :
    keyLe p r = true := by
  simp only [keyLe, decide_eq_true_eq] at h h' ⊢
  exact le_trans h h'

theorem keyLe_total (p q : String × α) : (keyLe p q || keyLe q p) = true := by
  simpa [keyLe] using le_total p.1 q.1

/-- A key has values if it is the key of a pair. -/
theorem under_ne_nil_iff : under ps key ≠ [] ↔ key ∈ ps.map Prod.fst := by
  rw [under, Ne, List.map_eq_nil_iff, List.filter_eq_nil_iff]
  simp

theorem under_cons (p : String × α) :
    under (p :: ps) key = if p.1 = key then p.2 :: under ps key else under ps key := by
  by_cases h : p.1 = key <;> simp [under, h]

/-- **An ascending list is determined by the values under each key.** -/
theorem eq_of_under (hp : ps.Pairwise fun p q => p.1 ≤ q.1) (hq : qs.Pairwise fun p q => p.1 ≤ q.1)
    (h : ∀ key, under ps key = under qs key) : ps = qs := by
  induction ps generalizing qs with
  | nil =>
    cases qs with
    | nil => rfl
    | cons q qs =>
      have hq := h q.1
      rw [under_cons, if_pos rfl] at hq
      exact absurd hq (List.cons_ne_nil _ _).symm
  | cons p ps ih =>
    cases qs with
    | nil =>
      have hp := h p.1
      rw [under_cons, if_pos rfl] at hp
      exact absurd hp (List.cons_ne_nil _ _)
    | cons q qs =>
      obtain ⟨hp1, hp2⟩ := List.pairwise_cons.mp hp
      obtain ⟨hq1, hq2⟩ := List.pairwise_cons.mp hq
      -- both lists begin with the smallest key
      have hle : ∀ {x : String × α} {xs ys : List (String × α)} {y : String × α},
          (∀ z ∈ xs, x.1 ≤ z.1) → under (x :: xs) y.1 = under (y :: ys) y.1 → x.1 ≤ y.1 := by
        intro x xs ys y hx hxy
        have hy : under (x :: xs) y.1 ≠ [] := by
          rw [hxy, under_cons, if_pos rfl]
          exact List.cons_ne_nil _ _
        rcases List.mem_cons.mp (under_ne_nil_iff.mp hy) with e | hm
        · exact e.ge
        · obtain ⟨z, hz, e⟩ := List.mem_map.mp hm
          exact e ▸ hx z hz
      have hkey : p.1 = q.1 := le_antisymm (hle hp1 (h q.1)) (hle hq1 (h p.1).symm)
      have hhead := h p.1
      rw [under_cons, under_cons, if_pos rfl, if_pos hkey.symm, List.cons.injEq] at hhead
      obtain rfl : p = q := Prod.ext hkey hhead.1
      refine congrArg _ (ih hp2 hq2 fun key => ?_)
      by_cases hk : p.1 = key
      · exact hk ▸ hhead.2
      · have hrest := h key
        rwa [under_cons, under_cons, if_neg hk, if_neg hk] at hrest

/-- Sorting puts the keys into ascending order. -/
theorem pairwise_sortByKey (ps : List (String × α)) :
    (sortByKey ps).Pairwise fun p q => p.1 ≤ q.1 := by
  have h := List.pairwise_mergeSort keyLe_trans keyLe_total ps
  exact h.imp fun hpq => of_decide_eq_true hpq

/-- **Sorting is stable**: the values under each key stay in their order. -/
theorem under_sortByKey (ps : List (String × α)) (key : String) :
    under (sortByKey ps) key = under ps key := by
  have hsub : (ps.filter fun p => p.1 = key).Sublist (sortByKey ps) := by
    refine List.sublist_mergeSort keyLe_trans keyLe_total ?_ List.filter_sublist
    refine List.pairwise_of_forall_mem_list fun p hp q hq => ?_
    have hp := (List.mem_filter.mp hp).2
    have hq := (List.mem_filter.mp hq).2
    rw [decide_eq_true_eq] at hp hq
    simp [keyLe, hp, hq]
  have hfilter := hsub.filter fun p => p.1 = key
  rw [List.filter_filter] at hfilter
  simp only [Bool.and_self] at hfilter
  have hlen : (ps.filter fun p => p.1 = key).length =
      ((sortByKey ps).filter fun p => p.1 = key).length :=
    (((List.mergeSort_perm ps keyLe).filter _).length_eq).symm
  rw [under, under, hfilter.eq_of_length hlen]

/-- The sorted list is the only ascending one with the same values under each key. -/
theorem eq_sortByKey (hp : ps.Pairwise fun p q => p.1 ≤ q.1)
    (h : ∀ key, under ps key = under qs key) : ps = sortByKey qs :=
  eq_of_under hp (pairwise_sortByKey qs) fun key => by rw [h, under_sortByKey]

/-- The keys of a list, sorted, are the only strictly ascending list of all its keys. -/
theorem eq_keysOf {ks : List String} (hs : ks.Pairwise (· < ·))
    (hm : ∀ key, key ∈ ks ↔ key ∈ ps.map Prod.fst) : ks = keysOf ps := by
  have hperm : ks.Perm (keysOf ps) := by
    refine List.Perm.trans ?_ (List.mergeSort_perm _ _).symm
    rw [List.perm_ext_iff_of_nodup (hs.imp fun h => ne_of_lt h) (List.nodup_dedup _)]
    intro key
    rw [hm, List.mem_dedup]
  have hsorted : (keysOf ps).Pairwise fun k k' => k ≤ k' := by
    have h := @List.pairwise_mergeSort String (fun k k' => decide (k ≤ k'))
      (fun a b c h h' => decide_eq_true
        (le_trans (of_decide_eq_true h) (of_decide_eq_true h')))
      (fun a b => by simpa using le_total a b) (ps.map Prod.fst).dedup
    exact h.imp fun hk => of_decide_eq_true hk
  exact hperm.eq_of_pairwise (fun a b _ _ h h' => le_antisymm h h') (hs.imp fun h => le_of_lt h)
    hsorted

end BlockDoc.Multimap
