/-
# What a dump can change

Writing checks the values and nothing else.  Two kinds of entries are therefore written in a way
that is not read back as it stands, although neither the writer nor the reader has to complain:

* an entry without content, which becomes a blank line;
* a name that is taken for something else on its line, such as one with an equals sign in it.

Where all names fit, the first kind is all there is: what is read back is the document without its
entries without content, whatever its values are and however deep its blocks lie.  No bound on the
depth is needed, because a document that is too deep is refused with an error
(`parseWith_render`).  The converse asks nothing of the names: what was read has names that fit and
contents, so a document that comes back as it stands has them too (`named_of_parse`).
-/
import BlockDoc.Proofs.Dump.RoundTrip

namespace BlockDoc.Dump

variable {files : FileReader} {d d' : Document} {t : List Char}

/-! ## 1. What comes back has names and contents -/

/-- **A document that was read back as it stands** has a content and a name that fits in every
entry. -/
theorem named_of_parse (hp : parse files t = .ok d') (he : (d' == d) = true) :
    ∀ x ∈ (d.outline .chosen).preorder, x.isUndef = false ∧ NameFits x := by
  have houtline : d'.outline .chosen = d.outline .chosen := of_decide_eq_true he
  rw [← houtline]
  exact Document.Each.chosen (kept_named.of_parse hp) (kept_built.of_parse hp) named_arranged

/-! ## 2. What is left out -/

/-- The document that the items with a content make, in default order. -/
theorem outline_ofItems_defined (hd : d.Built) (hsorted : d.sorted = true)
    (hcomment : ∀ x ∈ (d.outline .chosen).preorder, x.comment = "") :
    (Document.ofItems true (definedItems (d.items .chosen))).outline .chosen =
      (d.outline .chosen).defined := by
  have hbare : (d.outline .chosen).defined.bare = (d.outline .chosen).defined := by
    rw [Outline.bare_defined, Outline.bare_eq_self _ hcomment]
  have h := Document.outline_ofItems_eq hbare (Outline.arranged_defined hd.arranged_chosen)
  have hroot : (d.outline .chosen).defined.sorted = true := hsorted
  rwa [hroot] at h

/-- **What is read back from a dump is the document without its entries without content**, if
the names of all others fit on their lines.  So a document is read back as it stands if and only
if all its entries have a content. -/
theorem format_parse_defined (hd : d.Built) (hsorted : d.sorted = true)
    (hcomment : ∀ x ∈ (d.outline .chosen).preorder, x.comment = "")
    (hname : ∀ x ∈ (d.outline .chosen).preorder, x.isUndef = false → NameFits x)
    (ht : format d = .ok t) (hp : parse files t = .ok d') :
    d'.outline .chosen = (d.outline .chosen).defined ∧
      ((d' == d) = true ↔ ∀ x ∈ (d.outline .chosen).preorder, x.isUndef = false) := by
  obtain ⟨rfl, hvalue⟩ := format_ok_iff.mp ht
  -- a document that is too deep would not have been read
  have hread : d' = .ofItems true (definedItems (d.items .chosen)) := by
    rw [parse, parseWith_render d fun x hx => ⟨hname x hx, hvalue x hx⟩] at hp
    split at hp
    · exact (Except.ok.inj hp).symm
    · cases hp
  have houtline : d'.outline .chosen = (d.outline .chosen).defined :=
    hread ▸ outline_ofItems_defined hd hsorted hcomment
  refine ⟨houtline, fun he x hx => (named_of_parse hp he x hx).1, fun hdefined => ?_⟩
  exact decide_eq_true (houtline.trans (Outline.defined_eq_self hdefined))

/-- An entry without content. -/
def vacant (name : String) : Item := .undef name ""

/-- A document with entries without content beside others, in a block and outside. -/
def gappy : Document :=
  .ofItems true [.param "b" "one\ntwo" "", vacant "//",
    .block "a" false [.param "y" "" "", vacant "x=y"] ""]

/-- A small document is read back without its entries without content. -/
theorem format_parse_gappy : gappy.Built ∧ gappy.sorted = true ∧
    (∀ x ∈ (gappy.outline .chosen).preorder, x.comment = "") ∧
    (∀ x ∈ (gappy.outline .chosen).preorder, x.isUndef = false → NameFits x) ∧
    ∃ t d', format gappy = .ok t ∧ parse (fun _ => .error .notFound) t = .ok d' ∧
      d'.outline .chosen = (gappy.outline .chosen).defined ∧ (d' == gappy) = false := by
  have hd : gappy.Built := Document.built_ofItems _ _
  have hsorted : gappy.sorted = true := Document.sorted_addItems
  have hcomment : ∀ x ∈ (gappy.outline .chosen).preorder, x.comment = "" :=
    Document.forall_ofItems (fun x hx => by simpa using hx) (by decide)
  have hname : ∀ x ∈ (gappy.outline .chosen).preorder, x.isUndef = false → NameFits x :=
    Document.forall_ofItems (fun x hx => by simpa using hx) (by decide)
  have hvalue : ∀ x ∈ (gappy.outline .chosen).preorder, ¬ Unwritable x :=
    Document.forall_ofItems (fun x hx => by simpa using hx) (by decide)
  have hdepth : (gappy.outline .chosen).depth < maxDepth := by
    rw [hd.outline_chosen, Outline.depth_arranged, gappy, Document.outline_ofItems]
    decide
  have hundef : vacant "//" ∈ (gappy.outline .chosen).preorder := by
    rw [hd.outline_chosen, Outline.mem_preorder_arranged, gappy, Document.outline_ofItems]
    exact ⟨vacant "//", by decide, rfl⟩
  have ht : format gappy = .ok (render gappy) := format_ok_iff.mpr ⟨rfl, hvalue⟩
  have hp := parseWith_render gappy (fun x hx => ⟨hname x hx, hvalue x hx⟩)
    (fun _ => .error .notFound) {}
  rw [if_pos (.inr hdepth)] at hp
  obtain ⟨houtline, hequal⟩ := format_parse_defined hd hsorted hcomment hname ht hp
  refine ⟨hd, hsorted, hcomment, hname, _, _, ht, hp, houtline, ?_⟩
  exact Bool.eq_false_iff.mpr fun he => absurd (hequal.mp he _ hundef) (by decide)

/-! ## 3. What does not come back -/

/-- What a document with a single entry shows. -/
theorem outline_ofItems_single {it : Item} (hbare : it.bare = it) (harranged : it.arranged = it) :
    (Document.ofItems true [it]).outline .chosen = ⟨true, [it]⟩ := by
  refine Document.outline_ofItems_eq (o := ⟨true, [it]⟩) ?_ ?_
  · rw [Outline.bare, bareItems_eq, List.map_singleton, hbare]
  · rw [Outline.arranged, arrangedItems_eq, List.map_singleton, harranged]
    exact congrArg _ (List.mergeSort_singleton it)

/-- A document with a single entry that has no content, or whose name does not fit, is written as
the lines of the entry and comes back changed if it comes back. -/
theorem single_differs (it : Item) (hbare : it.bare = it) (harranged : it.arranged = it)
    (hvalue : Item.unwritable? it = none) (hp : parse files (renderItem 0 it) = .ok d')
    (hx : ∃ x ∈ it.preorder, ¬ (x.isUndef = false ∧ NameFits x)) :
    format (.ofItems true [it]) = .ok (renderItem 0 it) ∧
      (d' == .ofItems true [it]) = false := by
  have houtline := outline_ofItems_single hbare harranged
  have hitems : (Document.ofItems true [it]).items .chosen = [it] :=
    congrArg Outline.items houtline
  refine ⟨?_, Bool.eq_false_iff.mpr fun he => ?_⟩
  · rw [format, render_eq, hitems, unwritableIn?, unwritableIn?, hvalue, renderItems, renderItems,
      List.append_nil]
    rfl
  · obtain ⟨x, hmem, hbad⟩ := hx
    refine hbad (named_of_parse hp he x ?_)
    rw [houtline]
    exact mem_itemsPreorder.mpr ⟨it, List.mem_singleton_self it, hmem⟩

/-- A document with one entry, which has no content. -/
def hollow : Document := .ofItems true [vacant "a"]

/-- A document with one entry, whose name ends too early on its line. -/
def ambiguous : Document := .ofItems true [.param "a=b" "c" ""]

/-- **A document can be written and read without an error and still come back changed**: one whose
entry has no content, and one with a name that does not fit. -/
theorem format_parse_differs :
    (hollow.Built ∧ hollow.sorted = true ∧
      (∀ x ∈ (hollow.outline .chosen).preorder, x.comment = "") ∧
      format hollow = .ok ['\r', '\n'] ∧
      parse (fun _ => .error .notFound) ['\r', '\n'] = .ok (.empty true) ∧
      (Document.empty true == hollow) = false) ∧
    (ambiguous.Built ∧ ambiguous.sorted = true ∧
      (∀ x ∈ (ambiguous.outline .chosen).preorder, x.comment = "") ∧
      format ambiguous = .ok ['a', '=', 'b', '=', 'c', '\r', '\n'] ∧
      parse (fun _ => .error .notFound) ['a', '=', 'b', '=', 'c', '\r', '\n'] =
        .ok (.ofItems true [.param "a" "b=c" ""]) ∧
      (Document.ofItems true [.param "a" "b=c" ""] == ambiguous) = false) := by
  have hhollow : parse (fun _ => .error .notFound) ['\r', '\n'] = .ok (.empty true) := by
    have hlines : rawLines ['\r', '\n'] = [some ['\r', '\n']] := by decide
    rw [parse, parseWith, hlines, readLines_noise (by decide), readLines.eq_def]
    rfl
  have hambiguous : parse (fun _ => .error .notFound) ['a', '=', 'b', '=', 'c', '\r', '\n'] =
      .ok (.ofItems true [.param "a" "b=c" ""]) := by
    have hlines : rawLines ['a', '=', 'b', '=', 'c', '\r', '\n'] =
        [some ['a', '=', 'b', '=', 'c', '\r', '\n']] := by decide
    have hline : Line.ofChars ['a', '=', 'b', '=', 'c', '\r', '\n'] =
        .param ['a'] ['b', '=', 'c'] := by decide
    rw [parse, parseWith, hlines, readLines_param hline, readLines.eq_def]
    rfl
  obtain ⟨hwritten, hdiffers⟩ := single_differs (vacant "a") rfl rfl rfl hhollow
    ⟨_, Item.mem_preorder_self _, by decide⟩
  obtain ⟨hwritten', hdiffers'⟩ := single_differs (.param "a=b" "c" "") rfl rfl (by decide)
    hambiguous ⟨_, Item.mem_preorder_self _, by decide⟩
  refine ⟨⟨Document.built_ofItems _ _, Document.sorted_addItems, ?_, hwritten, hhollow, hdiffers⟩,
    Document.built_ofItems _ _, Document.sorted_addItems, ?_, hwritten', hambiguous, hdiffers'⟩
  · rw [hollow, outline_ofItems_single rfl rfl]
    decide
  · rw [ambiguous, outline_ofItems_single rfl rfl]
    decide

end BlockDoc.Dump
