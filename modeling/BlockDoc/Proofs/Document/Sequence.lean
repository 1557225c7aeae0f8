/-
# What a sequence holds

The links of a sequence lead through its nodes in the order of their numbers.  `Holds` says this
of a sequence and the list of its values; one more value at the end keeps it, because only the
last node is linked anew (`Holds.push`).  A cursor in front of a node then has the values from
there on ahead of it, and the number of nodes is enough steps for all of them (`Holds.toList_eq`).
-/
import BlockDoc.Sequence
import Mathlib.Data.List.Basic

namespace BlockDoc.Sequence

variable {α : Type} {s : Sequence α} {as : List α} {a : α} {n : Nat}

/-- A link to node `n` of `count` nodes, which leads nowhere if there is no such node. -/
def linkTo (count n : Nat) : Option Nat := if n < count then some n else none

theorem linkTo_of_lt {count : Nat} (h : n < count) : linkTo count n = some n := if_pos h

theorem linkTo_of_le {count : Nat} (h : count ≤ n) : linkTo count n = none :=
  if_neg (Nat.not_lt_of_le h)

/-- The nodes are those of the values, each linked to the one behind it. -/
structure Holds (s : Sequence α) (as : List α) : Prop where
  /-- There is a node for every value. -/
  size : s.nodes.size = as.length
  /-- Every node has its value, and is linked to the next one. -/
  node : ∀ n a, as[n]? = some a → s.nodes[n]? = some (Node.mk a (linkTo as.length (n + 1)))
  /-- The chain begins with the oldest node. -/
  head : s.head = linkTo as.length 0
  /-- The chain ends with the newest node. -/
  tail : s.tail = linkTo as.length (as.length - 1)

theorem holds_empty : Holds (empty : Sequence α) [] where
  size := rfl
  node _ _ h := by simp at h
  head := rfl
  tail := rfl

/-- The nodes after one more value: the last one leads to the new one, which leads nowhere. -/
theorem Holds.node_push (h : s.Holds as) (hne : as ≠ []) {b : α}
    (hb : (as ++ [a])[n]? = some b) :
    ((s.nodes.push ⟨a, none⟩).modify (as.length - 1) fun node =>
        { node with next := some as.length })[n]? =
      some (Node.mk b (linkTo (as ++ [a]).length (n + 1))) := by
  have hpos : 0 < as.length := List.length_pos_of_ne_nil hne
  rw [Array.getElem?_modify, Array.getElem?_push, h.size, List.length_append, List.length_singleton]
  rcases Nat.lt_trichotomy n as.length with hlt | rfl | hgt
  · rw [List.getElem?_append_left hlt] at hb
    rw [if_neg (Nat.ne_of_lt hlt), h.node n b hb, linkTo_of_lt (Nat.succ_lt_succ hlt)]
    by_cases hlast : as.length - 1 = n
    · rw [if_pos hlast, Option.map_some, show as.length = n + 1 by omega]
    · rw [if_neg hlast, linkTo_of_lt (by omega)]
  · rw [List.getElem?_concat_length, Option.some.injEq] at hb
    rw [if_neg (by omega), if_pos rfl, hb, linkTo_of_le (Nat.le_refl _)]
  · rw [List.getElem?_eq_none (by simpa using Nat.succ_le_of_lt hgt)] at hb
    cases hb

/-- **A value more at the end.** -/
theorem Holds.push (h : s.Holds as) (a : α) : (s.push a).Holds (as ++ [a]) := by
  by_cases hne : as = []
  · subst hne
    obtain ⟨hsize, -, -, htail⟩ := h
    have htail : s.tail = none := htail
    have hnodes : s.nodes = #[] := Array.eq_empty_of_size_eq_zero hsize
    rw [Sequence.push, htail, hnodes]
    refine ⟨rfl, fun n b hb => ?_, rfl, rfl⟩
    match n, hb with
    | 0, hb => cases hb; rfl
    | n + 1, hb => cases hb
  · have hpos : 0 < as.length := List.length_pos_of_ne_nil hne
    have htail : s.tail = some (as.length - 1) := by
      rw [h.tail, linkTo_of_lt (by omega)]
    rw [Sequence.push, htail, h.size]
    refine ⟨?_, fun n b hb => h.node_push hne hb, ?_, ?_⟩
    · simp [h.size]
    · rw [List.length_append, linkTo_of_lt (Nat.add_pos_left hpos _), ← linkTo_of_lt hpos]
      exact h.head
    · rw [List.length_append, List.length_singleton, Nat.add_sub_cancel,
        linkTo_of_lt (Nat.lt_succ_self _)]

/-- **A cursor in front of a node** has the values from there on ahead of it. -/
theorem Holds.take_eq (h : s.Holds as) (limit n : Nat) :
    Cursor.take limit ⟨s, linkTo as.length n⟩ = (as.drop n).take limit := by
  induction limit generalizing n with
  | zero => rfl
  | succ limit ih =>
    by_cases hn : n < as.length
    · have hnode := h.node n as[n] (List.getElem?_eq_getElem hn)
      have hnext : Cursor.next? ⟨s, linkTo as.length n⟩ =
          some (as[n], ⟨s, linkTo as.length (n + 1)⟩) := by
        simp only [Cursor.next?, linkTo_of_lt hn, Option.bind_some, hnode, Option.map_some]
      rw [Cursor.take, hnext, List.drop_eq_getElem_cons hn, List.take_succ_cons]
      exact congrArg _ (ih (n + 1))
    · have hnext : Cursor.next? ⟨s, linkTo as.length n⟩ = none := by
        simp only [Cursor.next?, linkTo_of_le (Nat.le_of_not_lt hn), Option.bind_none]
      rw [Cursor.take, hnext, List.drop_eq_nil_of_le (Nat.le_of_not_lt hn), List.take_nil]

/-- **A walk along the links** yields the values in the order in which they were added. -/
theorem Holds.toList_eq (h : s.Holds as) : s.toList = as := by
  rw [toList, Cursor.rest, start, h.head, h.take_eq, List.drop_zero]
  exact List.take_of_length_le (Nat.le_of_eq h.size.symm)

end BlockDoc.Sequence
