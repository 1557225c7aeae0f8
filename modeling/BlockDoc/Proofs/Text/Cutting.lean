/-
# Cutting texts, and putting them together again

What each way of cutting a text does to a text that was put together from parts, and what is
known of the parts that it gives.  Both are needed to tell when a text is read back: the first
for what was written, the second for what any text can be read as.
-/
import BlockDoc.Text.Blank
import BlockDoc.Text.Split
import Mathlib.Data.List.DropRight
import Mathlib.Data.List.Infix

namespace BlockDoc.Text

variable {p : Char → Bool} {cs : List Char}

/-! ## 1. The ends of a text -/

theorem dropWhile_eq_self (h : ∀ c ∈ cs.head?, p c = false) : cs.dropWhile p = cs := by
  cases cs with
  | nil => rfl
  | cons c cs =>
    have hc := h c rfl
    rw [List.dropWhile_cons_of_neg (by rw [hc]; decide)]

theorem head?_dropWhile : ∀ c ∈ (cs.dropWhile p).head?, p c = false := by
  intro c hc
  have h := List.head?_dropWhile_not p cs
  rw [Option.mem_def.mp hc] at h
  exact h

theorem trimEnd_append {back : List Char} (h : ∀ c ∈ back, p c = true) :
    trimEnd p (cs ++ back) = trimEnd p cs := by
  have hback : ∀ c ∈ back.reverse, p c = true := fun c hc => h c (List.mem_reverse.mp hc)
  rw [trimEnd, List.reverse_append, List.dropWhile_append_of_pos hback, ← trimEnd]

theorem trimEnd_eq_self (h : ∀ c ∈ cs.getLast?, p c = false) : trimEnd p cs = cs := by
  rw [trimEnd, dropWhile_eq_self, List.reverse_reverse]
  rwa [List.head?_reverse]

theorem trimEnd_isPrefix : trimEnd p cs <+: cs := List.rdropWhile_prefix p cs

/-- What is trimmed off the end. -/
theorem exists_eq_trimEnd_append (p : Char → Bool) (cs : List Char) :
    ∃ back, (∀ c ∈ back, p c = true) ∧ cs = trimEnd p cs ++ back := by
  refine ⟨(cs.reverse.takeWhile p).reverse, fun c hc => ?_, ?_⟩
  · exact List.mem_takeWhile_imp (List.mem_reverse.mp hc)
  · rw [trimEnd, ← List.reverse_append, List.takeWhile_append_dropWhile, List.reverse_reverse]

/-- Two ways of trimming that do not tell the characters of a text apart. -/
theorem trimEnd_congr {q : Char → Bool} (h : ∀ c ∈ cs, p c = q c) : trimEnd p cs = trimEnd q cs := by
  rw [trimEnd, trimEnd]
  congr 1
  induction hr : cs.reverse generalizing cs with
  | nil => rfl
  | cons c r ih =>
    have hc : p c = q c := h c (List.mem_reverse.mp (hr ▸ List.mem_cons_self))
    have hr' : r.reverse.reverse = r := List.reverse_reverse r
    rw [List.dropWhile_cons, List.dropWhile_cons, hc, ih ?_ hr']
    intro d hd
    exact h d (List.mem_reverse.mp (hr ▸ List.mem_cons_of_mem _ (List.mem_reverse.mp hd)))

theorem getLast?_trimEnd : ∀ c ∈ (trimEnd p cs).getLast?, p c = false := by
  rw [trimEnd, List.getLast?_reverse]
  exact head?_dropWhile

/-- **Characters to be trimmed** are trimmed whatever they stand around. -/
theorem trim_append {front back : List Char} (hf : ∀ c ∈ front, p c = true)
    (hb : ∀ c ∈ back, p c = true) : trim p (front ++ (cs ++ back)) = trim p cs := by
  rw [trim, trim, List.dropWhile_append_of_pos hf, List.dropWhile_append]
  split
  next h =>
    have hback : back.dropWhile p = [] := List.dropWhile_eq_nil_iff.mpr hb
    rw [List.isEmpty_iff.mp h, hback]
  next => exact trimEnd_append hb

theorem trim_eq_self (hh : ∀ c ∈ cs.head?, p c = false) (hl : ∀ c ∈ cs.getLast?, p c = false) :
    trim p cs = cs := by
  rw [trim, dropWhile_eq_self hh, trimEnd_eq_self hl]

theorem trim_infix : trim p cs <:+: cs :=
  trimEnd_isPrefix.isInfix.trans (List.dropWhile_suffix p).isInfix

/-- A prefix starts like the text, unless it is empty. -/
theorem head?_of_isPrefix {front : List Char} (h : front <+: cs) :
    ∀ c ∈ front.head?, c ∈ cs.head? := by
  obtain ⟨back, rfl⟩ := h
  intro c hc
  rw [List.head?_append, Option.mem_def.mp hc]
  rfl

/-- A suffix ends like the text, unless it is empty. -/
theorem getLast?_of_isSuffix {back : List Char} (h : back <:+ cs) :
    ∀ c ∈ back.getLast?, c ∈ cs.getLast? := by
  obtain ⟨front, rfl⟩ := h
  intro c hc
  rw [List.getLast?_append, Option.mem_def.mp hc]
  rfl

theorem head?_trim : ∀ c ∈ (trim p cs).head?, p c = false := fun c hc =>
  head?_dropWhile c (head?_of_isPrefix trimEnd_isPrefix c hc)

theorem getLast?_trim : ∀ c ∈ (trim p cs).getLast?, p c = false := getLast?_trimEnd

/-- Trimming takes nothing off if the length stays. -/
theorem trim_eq_self_of_length (h : (trim p cs).length = cs.length) : trim p cs = cs :=
  trim_infix.sublist.eq_of_length h

/-! ## 2. Lines -/

/-- **A line feed cuts a text**, whatever stands before and after it. -/
theorem lines_append (a b : List Char) :
    lines (a ++ '\n' :: b) = lines (a ++ ['\n']) ++ lines b := by
  induction a with
  | nil => simp [lines, cutAfter_cons]
  | cons c a ih =>
    rw [lines, lines, List.cons_append, List.cons_append, cutAfter_cons, cutAfter_cons,
      ← lines, ← lines, ih]
    split
    next => rfl
    next =>
      have hne : lines (a ++ ['\n']) ≠ [] := by
        intro h
        have hflat := flatten_lines (a ++ ['\n'])
        rw [h] at hflat
        exact absurd hflat.symm (List.append_ne_nil_of_right_ne_nil _ (by decide))
      obtain ⟨piece, rest, h⟩ := List.exists_cons_of_ne_nil hne
      rw [h]
      rfl

/-- A text without a line feed is one line. -/
theorem lines_of_notMem (h : '\n' ∉ cs) (hne : cs ≠ []) : lines cs = [cs] := by
  induction cs with
  | nil => exact absurd rfl hne
  | cons c cs ih =>
    have hc : ¬ (c == '\n') = true := fun e => h (eq_of_beq e ▸ List.mem_cons_self)
    rw [lines, cutAfter_cons, if_neg hc]
    rcases eq_or_ne cs [] with rfl | hcs
    · rfl
    · rw [← lines, ih (fun hm => h (List.mem_cons_of_mem _ hm)) hcs]

theorem lines_newline (h : '\n' ∉ cs) : lines (cs ++ ['\n']) = [cs ++ ['\n']] := by
  induction cs with
  | nil => rfl
  | cons c cs ih =>
    have hc : ¬ (c == '\n') = true := fun e => h (eq_of_beq e ▸ List.mem_cons_self)
    rw [List.cons_append, lines, cutAfter_cons, if_neg hc, ← lines,
      ih fun hm => h (List.mem_cons_of_mem _ hm)]

/-- The first line of a text. -/
theorem lines_cons (h : '\n' ∉ cs) (rest : List Char) :
    lines (cs ++ '\n' :: rest) = (cs ++ ['\n']) :: lines rest := by
  rw [lines_append, lines_newline h]
  rfl

/-- Induction over the lines of a text. -/
theorem lines_induct {P : List Char → Prop} (nil : P [])
    (last : ∀ cs, '\n' ∉ cs → cs ≠ [] → P cs)
    (line : ∀ cs rest, '\n' ∉ cs → P rest → P (cs ++ '\n' :: rest)) (cs : List Char) : P cs := by
  induction hn : cs.length using Nat.strong_induction_on generalizing cs with
  | _ n ih =>
    by_cases hmem : '\n' ∈ cs
    · obtain ⟨front, rest, rfl, hfront⟩ := List.eq_append_cons_of_mem hmem
      refine line front rest hfront (ih rest.length ?_ rest rfl)
      rw [← hn, List.length_append, List.length_cons]
      omega
    · rcases eq_or_ne cs [] with rfl | hne
      · exact nil
      · exact last cs hmem hne

/-- **A text that ends in a line feed** has its lines whatever stands behind it. -/
theorem lines_append_lines (h : ∀ c ∈ cs.getLast?, c = '\n') (rest : List Char) :
    lines (cs ++ rest) = lines cs ++ lines rest := by
  rcases List.eq_nil_or_concat cs with rfl | ⟨front, c, rfl⟩
  · rfl
  · obtain rfl : c = '\n' := h c (by simp)
    rw [List.concat_eq_append, List.append_assoc, List.singleton_append, lines_append]

/-- The first lines of a text are the lines of their text. -/
theorem lines_flatten {before after : List (List Char)} (h : lines cs = before ++ after) :
    lines before.flatten = before := by
  induction cs using lines_induct generalizing before with
  | nil =>
    obtain ⟨rfl, -⟩ := List.append_eq_nil_iff.mp h.symm
    rfl
  | last cs hcs hne =>
    rw [lines_of_notMem hcs hne] at h
    cases before with
    | nil => rfl
    | cons line before =>
      rw [List.cons_append, List.cons.injEq] at h
      obtain ⟨rfl, hrest⟩ := h
      obtain ⟨rfl, -⟩ := List.append_eq_nil_iff.mp hrest.symm
      rw [List.flatten_singleton, lines_of_notMem hcs hne]
  | line cs rest hcs ih =>
    rw [lines_cons hcs] at h
    cases before with
    | nil => rfl
    | cons line before =>
      rw [List.cons_append, List.cons.injEq] at h
      obtain ⟨rfl, hrest⟩ := h
      rw [List.flatten_cons, List.append_assoc, List.singleton_append, lines_cons hcs, ih hrest]

/-- The pieces of a text between its separators have none. -/
theorem notMem_splitOn {sep : Char} {piece : List Char} (h : piece ∈ cs.splitOn sep) :
    sep ∉ piece := by
  induction cs generalizing piece with
  | nil =>
    obtain rfl : piece = [] := by simpa using h
    exact List.not_mem_nil
  | cons c cs ih =>
    rw [List.splitOn_cons_eq_if_modifyHead] at h
    split at h
    next =>
      rcases List.mem_cons.mp h with rfl | h
      · exact List.not_mem_nil
      · exact ih h
    next hc =>
      have hne : sep ≠ c := Ne.symm (by simpa using hc)
      obtain ⟨first, more, hsplit⟩ := List.exists_cons_of_ne_nil (List.splitOn_ne_nil sep cs)
      rw [hsplit] at h ih
      rcases List.mem_cons.mp h with rfl | h
      · exact List.not_mem_cons_of_ne_of_not_mem hne (ih List.mem_cons_self)
      · exact ih (List.mem_cons_of_mem _ h)

/-- A line has no line feed but the one that may end it. -/
def IsLine (line : List Char) : Prop :=
  ∃ content, '\n' ∉ content ∧ (line = content ∨ line = content ++ ['\n'])

/-! ## 3. Marks -/

/-- The first mark is found. -/
theorem splitOnce?_append {sep : Char} (h : sep ∉ cs) (rest : List Char) :
    splitOnce? sep (cs ++ sep :: rest) = some (cs, rest) := by
  induction cs with
  | nil => rw [List.nil_append, splitOnce?, if_pos rfl]
  | cons c cs ih =>
    have hc : c ≠ sep := fun e => h (e ▸ List.mem_cons_self)
    rw [List.cons_append, splitOnce?, if_neg hc, ih fun hm => h (List.mem_cons_of_mem _ hm)]
    rfl

/-- What stands before the first mark is a prefix without the mark. -/
theorem splitOnce?_eq_some {sep : Char} {before after : List Char}
    (h : splitOnce? sep cs = some (before, after)) : before <+: cs ∧ sep ∉ before := by
  induction cs generalizing before with
  | nil => simp [splitOnce?] at h
  | cons c cs ih =>
    rw [splitOnce?] at h
    split at h
    next =>
      cases h
      exact ⟨List.nil_prefix, List.not_mem_nil⟩
    next hc =>
      obtain ⟨⟨front, back⟩, hf, hfb⟩ := Option.map_eq_some_iff.mp h
      cases hfb
      obtain ⟨hpre, hmem⟩ := ih hf
      exact ⟨List.cons_prefix_cons.mpr ⟨rfl, hpre⟩,
        List.not_mem_cons_of_ne_of_not_mem (Ne.symm hc) hmem⟩

/-- What stands behind the first mark is a suffix. -/
theorem splitOnce?_suffix {sep : Char} {before after : List Char}
    (h : splitOnce? sep cs = some (before, after)) : after <:+ cs := by
  induction cs generalizing before with
  | nil => simp [splitOnce?] at h
  | cons c cs ih =>
    rw [splitOnce?] at h
    split at h
    next =>
      cases h
      exact List.suffix_cons c _
    next =>
      obtain ⟨⟨front, back⟩, hf, hfb⟩ := Option.map_eq_some_iff.mp h
      cases hfb
      exact (ih hf).trans (List.suffix_cons c cs)

theorem splitOnce?_eq_none_iff {sep : Char} : splitOnce? sep cs = none ↔ sep ∉ cs := by
  induction cs with
  | nil => simp [splitOnce?]
  | cons c cs ih =>
    rw [splitOnce?, List.mem_cons, not_or]
    split
    next hc => simp [hc]
    next hc =>
      rw [Option.map_eq_none_iff, ih]
      exact ⟨fun h => ⟨Ne.symm hc, h⟩, And.right⟩

variable {mark : List Char}

/-- A text is cut at a mark of several characters if and only if it contains the mark. -/
theorem before?_eq_none_iff : before? mark cs = none ↔ ¬ mark <:+: cs := by
  induction cs with
  | nil =>
    rw [before?, List.infix_nil]
    split
    next h => simp [h]
    next h => simp [h]
  | cons c cs ih =>
    rw [before?, List.infix_cons_iff, ← List.isPrefixOf_iff_prefix]
    split
    next h => simp [h]
    next h => simp [h, ih]

/-- What stands before the first mark is a prefix without the mark. -/
theorem before?_eq_some {before : List Char} (hne : mark ≠ [])
    (h : before? mark cs = some before) : before <+: cs ∧ ¬ mark <:+: before := by
  induction cs generalizing before with
  | nil => simp [before?, hne] at h
  | cons c cs ih =>
    rw [before?] at h
    split at h
    next =>
      cases h
      exact ⟨List.nil_prefix, fun hin => hne (List.infix_nil.mp hin)⟩
    next hpre =>
      obtain ⟨front, hf, rfl⟩ := Option.map_eq_some_iff.mp h
      obtain ⟨hfront, hmark⟩ := ih hf
      have hcons : c :: front <+: c :: cs := List.cons_prefix_cons.mpr ⟨rfl, hfront⟩
      refine ⟨hcons, fun hin => ?_⟩
      rcases List.infix_cons_iff.mp hin with hin | hin
      · exact hpre (List.isPrefixOf_iff_prefix.mpr (hin.trans hcons))
      · exact hmark hin

/-- A prefix does not reach over a character that it does not have. -/
theorem prefix_append_cons {sep : Char} (hsep : sep ∉ mark) {rest : List Char}
    (h : mark <+: cs ++ sep :: rest) : mark <+: cs := by
  have hfront : cs ++ [sep] <+: cs ++ sep :: rest := ⟨rest, by simp⟩
  rcases List.prefix_or_prefix_of_prefix h hfront with h | h
  · rcases List.prefix_concat_iff.mp h with rfl | h
    · exact absurd (by simp) hsep
    · exact h
  · exact absurd (h.subset (by simp)) hsep

/-- A mark does not reach over a character that it does not have. -/
theorem infix_append_cons {sep : Char} (hsep : sep ∉ mark) {rest : List Char}
    (h : mark <:+: cs ++ sep :: rest) : mark <:+: cs ∨ mark <:+: rest := by
  induction cs with
  | nil =>
    rcases List.infix_cons_iff.mp h with h | h
    · have hnil : mark <+: [] := prefix_append_cons hsep h
      exact .inl hnil.isInfix
    · exact .inr h
  | cons c cs ih =>
    rcases List.infix_cons_iff.mp h with h | h
    · have hcons : mark <+: c :: cs := prefix_append_cons hsep h
      exact .inl hcons.isInfix
    · rcases ih h with h | h
      · exact .inl (h.trans (List.suffix_cons c cs).isInfix)
      · exact .inr h

/-- A mark does not reach into characters that it does not have. -/
theorem infix_of_append {back : List Char} (hb : ∀ c ∈ back, c ∉ mark) (h : mark <:+: cs ++ back) :
    mark <:+: cs := by
  induction back generalizing cs with
  | nil => rwa [List.append_nil] at h
  | cons c back ih =>
    obtain ⟨hc, hback⟩ := List.forall_mem_cons.mp hb
    rcases infix_append_cons hc h with h | h
    · exact h
    · have hnil : mark <:+: [] := ih hback h
      exact hnil.trans (List.nil_infix)

/-- **What stands behind a mark** does not move the cut. -/
theorem before?_append {before : List Char} (h : before? mark cs = some before)
    (rest : List Char) : before? mark (cs ++ rest) = some before := by
  induction cs generalizing before with
  | nil =>
    rw [before?] at h
    split at h
    next hnil =>
      subst hnil
      cases h
      cases rest <;> rfl
    next => cases h
  | cons c cs ih =>
    rw [before?] at h
    split at h
    next hpre =>
      have hlong : mark <+: c :: (cs ++ rest) :=
        (List.isPrefixOf_iff_prefix.mp hpre).trans (List.prefix_append (c :: cs) rest)
      rw [List.cons_append, before?, if_pos (List.isPrefixOf_iff_prefix.mpr hlong)]
      exact h
    next hpre =>
      obtain ⟨front, hf, rfl⟩ := Option.map_eq_some_iff.mp h
      -- the mark is not longer than the text behind `c`, so no mark begins with `c`
      have hin : mark <:+: cs := by
        by_contra hnot
        rw [before?_eq_none_iff.mpr hnot] at hf
        cases hf
      have hnot : ¬ mark.isPrefixOf (c :: (cs ++ rest)) = true := by
        intro hlong
        refine hpre (List.isPrefixOf_iff_prefix.mpr ?_)
        refine List.prefix_of_prefix_length_le (List.isPrefixOf_iff_prefix.mp hlong)
          (List.prefix_append (c :: cs) rest) ?_
        exact hin.length_le.trans (Nat.le_succ _)
      rw [List.cons_append, before?, if_neg hnot, ih hf]
      rfl

theorem before?_mark (rest : List Char) : before? mark (mark ++ rest) = some [] := by
  cases hm : mark ++ rest with
  | nil =>
    obtain ⟨rfl, -⟩ := List.append_eq_nil_iff.mp hm
    rfl
  | cons c cs =>
    rw [before?, if_pos (List.isPrefixOf_iff_prefix.mpr (hm ▸ List.prefix_append mark rest))]

/-- **A text is cut at a mark** that is put behind it, with something else between. -/
theorem before?_append_mark {sep : Char} (hsep : sep ∉ mark) (h : ¬ mark <:+: cs)
    (rest : List Char) : before? mark (cs ++ sep :: (mark ++ rest)) = some (cs ++ [sep]) := by
  induction cs with
  | nil =>
    have hnot : ¬ mark.isPrefixOf (sep :: (mark ++ rest)) = true := by
      intro hpre
      have hnil : mark <+: [] := prefix_append_cons hsep (List.isPrefixOf_iff_prefix.mp hpre)
      exact h hnil.isInfix
    rw [List.nil_append, before?, if_neg hnot, before?_mark]
    rfl
  | cons c cs ih =>
    have hnot : ¬ mark.isPrefixOf (c :: (cs ++ sep :: (mark ++ rest))) = true := by
      intro hpre
      have hlong : mark <+: (c :: cs) ++ sep :: (mark ++ rest) := List.isPrefixOf_iff_prefix.mp hpre
      have hcons : mark <+: c :: cs := prefix_append_cons hsep hlong
      exact h hcons.isInfix
    rw [List.cons_append, before?, if_neg hnot,
      ih fun hin => h (hin.trans (List.suffix_cons c cs).isInfix)]
    rfl

end BlockDoc.Text
