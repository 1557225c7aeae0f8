/-
# Dumps in writer form

A dump is in writer form if it is the one that is written for its document.  Most dumps are not:
reading forgets comments, blank lines, indentation and where a block came from.  One that is in this
form depends on nothing but itself: it includes no other dump, so it is read in the same way
whatever is in the files (`WriterForm.parseWith_eq`), and every name and value of its document
stands in it letter by letter (`subset_renderItem`), so what does not occur in it does not occur in
the document (`WriterForm.clean`).

Nor does anything else stand in a dump but the signs of the writer (`mem_renderItem`).  So the dump
of a document without U+0000 has none (`nul_notMem_render`).
-/
import BlockDoc.Proofs.Binary.RoundTrip
import BlockDoc.Proofs.Dump.Image

namespace BlockDoc.Dump

variable {t : List Char} {d : Document}

/-! ## 1. Names and values in a text -/

/-- A value stands on the line of its name or on lines of its own. -/
theorem value_subset_renderParam (level : Nat) (name value : List Char) :
    value ⊆ renderParam level name value := by
  intro c hc
  rw [renderParam]
  split
  · -- every line of the value is there, behind an indentation
    rw [← Text.flatten_lines value, List.mem_flatten] at hc
    obtain ⟨line, hline, hc⟩ := hc
    have hlines : c ∈ (Text.lines value).flatMap fun line => indent level ++ line :=
      List.mem_flatMap.mpr ⟨line, hline, List.mem_append_right _ hc⟩
    simp [hlines]
  · simp [hc]

theorem name_subset_renderParam (level : Nat) (name value : List Char) :
    name ⊆ renderParam level name value := by
  intro c hc
  rw [renderParam]
  split <;> simp [hc]

/-- The lines of several items are those of each of them. -/
theorem mem_renderItems {level : Nat} {items : List Item} {c : Char} :
    c ∈ renderItems level items ↔ ∃ it ∈ items, c ∈ renderItem level it := by
  induction items with
  | nil => simp [renderItems]
  | cons it items ih => simp [renderItems, ih]

theorem renderItem_subset {items : List Item} {it : Item} (h : it ∈ items) (level : Nat) :
    renderItem level it ⊆ renderItems level items :=
  fun _ hc => mem_renderItems.mpr ⟨it, h, hc⟩

/-- **Every name and every value of an item without empty entries** stands in its lines. -/
theorem subset_renderItem (it : Item) (hdefined : ∀ x ∈ it.preorder, x.isUndef = false)
    (level : Nat) : ∀ x ∈ it.preorder, ∀ s ∈ x.texts, s.toList ⊆ renderItem level it := by
  induction it generalizing level with
  | undef name comment =>
    exact absurd (hdefined _ (Item.mem_preorder_self _)) (by simp [Item.isUndef])
  | param name text comment =>
    intro x hx s hs
    obtain rfl := List.mem_singleton.mp hx
    rw [renderItem]
    simp only [Item.texts, List.mem_cons, List.not_mem_nil, or_false] at hs
    rcases hs with rfl | rfl
    · exact name_subset_renderParam level _ _
    · exact value_subset_renderParam level _ _
  | block name sorted items comment ih =>
    intro x hx s hs c hc
    rw [renderItem]
    rcases List.mem_cons.mp hx with rfl | hx
    · obtain rfl := List.mem_singleton.mp hs
      simp [hc]
    · obtain ⟨it, hit, hx⟩ := mem_itemsPreorder.mp hx
      have hsub : ∀ y ∈ it.preorder, y.isUndef = false := fun y hy =>
        hdefined y (List.mem_cons_of_mem _ (mem_itemsPreorder.mpr ⟨it, hit, hy⟩))
      have hmem := renderItem_subset hit (level + 1) (ih it hit hsub (level + 1) x hx s hs hc)
      simp [hmem]

/-! ## 2. Nothing else in a text -/

/-- What the writer puts around names and values. -/
def signs : List Char := ['=', '<', '>', '^', '~', '{', '}', ' ', '\r', '\n']

theorem mem_signs_indent {level : Nat} {c : Char} (h : c ∈ indent level) : c ∈ signs := by
  rw [List.eq_of_mem_replicate h]
  decide

theorem mem_signs_lineEnd {c : Char} (h : c ∈ lineEnd) : c ∈ signs :=
  (show lineEnd ⊆ signs by decide) h

/-- What stands in the lines of a parameter is in its name or its value, or a sign. -/
theorem mem_renderParam {level : Nat} {name value : List Char} {c : Char}
    (h : c ∈ renderParam level name value) : c ∈ signs ∨ c ∈ name ∨ c ∈ value := by
  rw [renderParam] at h
  split at h
  · simp only [List.mem_append, List.mem_flatMap] at h
    rcases h with h | h | h | h | ⟨line, hline, h | h⟩ | h | h | h | h
    · exact .inl (mem_signs_indent h)
    · exact .inr (.inl h)
    · exact .inl ((show ['=', '<', '<', '<'] ⊆ signs by decide) h)
    · exact .inl (mem_signs_lineEnd h)
    · exact .inl (mem_signs_indent h)
    · refine .inr (.inr ?_)
      rw [← Text.flatten_lines value]
      exact List.mem_flatten.mpr ⟨line, hline, h⟩
    · exact .inl (mem_signs_lineEnd h)
    · exact .inl (mem_signs_indent h)
    · exact .inl ((show ['>', '>', '>'] ⊆ signs by decide) h)
    · exact .inl (mem_signs_lineEnd h)
  · simp only [List.mem_append, List.mem_cons] at h
    rcases h with h | h | rfl | h | h
    · exact .inl (mem_signs_indent h)
    · exact .inr (.inl h)
    · exact .inl (by decide)
    · exact .inr (.inr h)
    · exact .inl (mem_signs_lineEnd h)

/-- **What stands in the lines of an item** is in a name or a value of it, or a sign. -/
theorem mem_renderItem (it : Item) (level : Nat) : ∀ c ∈ renderItem level it,
    c ∈ signs ∨ ∃ x ∈ it.preorder, ∃ s ∈ x.texts, c ∈ s.toList := by
  induction it generalizing level with
  | undef name comment =>
    intro c hc
    rw [renderItem, List.mem_append] at hc
    exact .inl (hc.elim mem_signs_indent mem_signs_lineEnd)
  | param name text comment =>
    intro c hc
    rw [renderItem] at hc
    have hself := Item.mem_preorder_self (.param name text comment)
    rcases mem_renderParam hc with hc | hc | hc
    · exact .inl hc
    · exact .inr ⟨_, hself, name, by simp [Item.texts], hc⟩
    · exact .inr ⟨_, hself, text, by simp [Item.texts], hc⟩
  | block name sorted items comment ih =>
    intro c hc
    rw [renderItem] at hc
    simp only [List.mem_append, List.mem_cons] at hc
    rcases hc with hc | hc | (hc | hc | hc) | hc | hc | hc | hc | hc
    · exact .inl (mem_signs_indent hc)
    · exact .inr ⟨_, Item.mem_preorder_self _, name, by simp [Item.texts], hc⟩
    · cases sorted <;> exact .inl (hc ▸ by decide)
    · exact .inl (hc ▸ by decide)
    · exact absurd hc List.not_mem_nil
    · exact .inl (mem_signs_lineEnd hc)
    · obtain ⟨it, hit, hc⟩ := mem_renderItems.mp hc
      refine (ih it hit (level + 1) c hc).imp_right ?_
      rintro ⟨x, hx, hs⟩
      exact ⟨x, List.mem_cons_of_mem _ (mem_itemsPreorder.mpr ⟨it, hit, hx⟩), hs⟩
    · exact .inl (mem_signs_indent hc)
    · exact .inl (hc ▸ by decide)
    · exact .inl (mem_signs_lineEnd hc)

/-- **The dump of a document without U+0000** has none. -/
theorem nul_notMem_render (hd : d.Built) (hclean : Binary.Clean d) : Text.nul ∉ render d := by
  have htexts : ∀ x ∈ (d.outline .chosen).preorder, ∀ s ∈ x.texts, Text.nul ∉ s.toList :=
    hclean.chosen hd fun x hx => by rwa [Item.texts_arranged]
  intro hnul
  rw [render_eq, mem_renderItems] at hnul
  obtain ⟨it, hit, hnul⟩ := hnul
  rcases mem_renderItem it 0 _ hnul with hsign | ⟨x, hx, s, hs, hmem⟩
  · exact absurd hsign (by decide)
  · exact htexts x (mem_itemsPreorder.mpr ⟨it, hit, hx⟩) s hs hmem

/-! ## 3. Dumps in writer form -/

/-- A text is the dump that is written for the document that is read from it, with some files to
include. -/
structure WriterForm (t : List Char) (d : Document) : Prop where
  /-- The text is read. -/
  parse_eq : ∃ files, parse files t = .ok d
  /-- The document is written. -/
  format_eq : format d = .ok t

theorem WriterForm.representable (h : WriterForm t d) : Representable d := by
  obtain ⟨files, hparse⟩ := h.parse_eq
  have hvalues := (format_ok_iff.mp h.format_eq).2
  exact fun x hx => ⟨(wasRead_of_parse hparse x hx).defined, (wasRead_of_parse hparse x hx).name,
    hvalues x hx⟩

/-- **A dump in writer form is read in one way**, whatever the files and the character set are. -/
theorem WriterForm.parseWith_eq (h : WriterForm t d) (files : FileReader) {o : Options}
    (hlimit : o.limit = maxDepth) : parseWith files o t = .ok d := by
  have hlegible : ∀ x ∈ (d.outline .chosen).preorder, Legible x := fun x hx =>
    (h.representable x hx).legible
  obtain ⟨files', hparse⟩ := h.parse_eq
  obtain ⟨rfl, -⟩ := format_ok_iff.mp h.format_eq
  -- both readings end in what the text says of itself
  rw [parse, parseWith_render d hlegible] at hparse
  rw [parseWith_render d hlegible, hlimit]
  exact hparse

/-- **What does not occur in a dump in writer form** does not occur in its document. -/
theorem WriterForm.clean (h : WriterForm t d) (hnul : Text.nul ∉ t) : Binary.Clean d := by
  obtain ⟨files, hparse⟩ := h.parse_eq
  have hd : d.Built := kept_built.of_parse hparse
  have hrender : t = renderItems 0 (d.items .chosen) :=
    (format_ok_iff.mp h.format_eq).1.trans (render_eq d)
  intro x hx s hs hmem
  have hchosen : x.arranged ∈ (d.outline .chosen).preorder := by
    rw [hd.outline_chosen]
    exact (Outline.mem_preorder_arranged _).mpr ⟨x, hx, rfl⟩
  obtain ⟨it, hit, hx⟩ := mem_itemsPreorder.mp hchosen
  have hdefined : ∀ y ∈ it.preorder, y.isUndef = false := fun y hy =>
    (h.representable y (mem_itemsPreorder.mpr ⟨it, hit, hy⟩)).defined
  have hline : s.toList ⊆ renderItem 0 it :=
    subset_renderItem it hdefined 0 x.arranged hx s (by rwa [Item.texts_arranged])
  rw [hrender] at hnul
  exact hnul (renderItem_subset hit 0 (hline hmem))

end BlockDoc.Dump
