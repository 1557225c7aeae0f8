/-
# Encoding and decoding a document

Both directions walk the tree with a stack, and neither looks at more than the top of it.  So
each step law below is about one item in front of whatever else is left: writing it appends its
encoding (`writeLevels_item`), and reading what fills its slots adds it to the open document
(`readFrames_item`).  An item brings its own law, by induction on the item; the laws for a list
of items follow by going through the list.

Main statement: `build_parse`.  The one thing that an encoding cannot carry is the character
U+0000, because no text that was read contains it (`parse_clean`).
-/
import BlockDoc.Proofs.Binary.Parts
import BlockDoc.Proofs.Document.Built

namespace BlockDoc.Binary

variable {layout : Layout} {limit : Nat}

/-! ## 1. Writing -/

/-- The writer can write an item in a document with `depth` others around it. -/
def Writable (limit depth : Nat) (it : Item) : Prop :=
  (∀ x ∈ it.preorder, x.isUndef = false) ∧ it.depth + depth < limit

theorem Writable.of_mem {depth : Nat} {name : String} {sorted : Bool} {items : List Item}
    {comment : String} (h : Writable limit depth (.block name sorted items comment)) {it : Item}
    (hit : it ∈ items) : Writable limit (depth + 1) it := by
  obtain ⟨hundef, hdepth⟩ := h
  refine ⟨fun x hx => hundef x ?_, ?_⟩
  · rw [Item.preorder]
    exact List.mem_cons_of_mem _ (mem_itemsPreorder.mpr ⟨it, hit, hx⟩)
  · have hle := itemsDepth_le_iff.mp (Nat.le_refl (itemsDepth items)) it hit
    rw [Item.depth] at hdepth
    omega

theorem append_lists (out : Array UInt8) (bs bs' : Bytes) :
    out ++ bs ++ bs' = out ++ (bs ++ bs') := Array.ext' (by simp)

/-- The bytes of an item in front of the rest of a level. -/
def WritesItem (layout : Layout) (limit : Nat) (it : Item) : Prop :=
  ∀ (sorted : Bool) (place : Place) (rest : List (Item × Place)) (depth : Nat)
    (outer : List Level) (out : Array UInt8), Writable limit depth it →
      writeLevels layout limit (⟨sorted, (it, place) :: rest, depth⟩ :: outer) out =
        writeLevels layout limit (⟨sorted, rest, depth⟩ :: outer)
          (out ++ (placeBytes layout sorted place ++ itemEncoding layout it))

/-- All items of a level are written before the level around it goes on. -/
theorem writeLevels_items {items : List Item} (h : ∀ it ∈ items, WritesItem layout limit it)
    (sorted : Bool) {depth : Nat} (hw : ∀ it ∈ items, Writable limit depth it)
    (last : Option (String × Place)) (outer : List Level) (out : Array UInt8) :
    writeLevels layout limit (⟨sorted, placeItemsAfter last items, depth⟩ :: outer) out =
      writeLevels layout limit outer (out ++ itemsEncoding layout sorted last items) := by
  induction items generalizing last out with
  | nil =>
    rw [placeItemsAfter, writeLevels, itemsEncoding, Array.appendList_nil]
  | cons it items ih =>
    have hrest := ih (fun x hx => h x (List.mem_cons_of_mem _ hx))
      (fun x hx => hw x (List.mem_cons_of_mem _ hx))
    rw [placeItemsAfter, h it List.mem_cons_self _ _ _ _ _ _ (hw it List.mem_cons_self), hrest,
      itemsEncoding, append_lists, List.append_assoc]

/-- **An item is written with its encoding.** -/
theorem writeLevels_item (it : Item) : WritesItem layout limit it := by
  induction it with
  | undef name comment =>
    intro sorted place rest depth outer out hw
    exact absurd (hw.1 _ (Item.mem_preorder_self _)) (by simp [Item.isUndef])
  | param name text comment =>
    intro sorted place rest depth outer out _
    rw [writeLevels]
    simp only [entryBytes, levelsBelow, List.nil_append, Array.appendList_eq_append, append_lists,
      itemEncoding]
  | block name sorted items comment ih =>
    intro sorted' place rest depth outer out hw
    have hlevel : ¬ depth + 1 ≥ limit := by
      have hdepth := hw.2
      rw [Item.depth] at hdepth
      omega
    rw [writeLevels]
    simp only [entryBytes, if_neg hlevel, levelsBelow, List.cons_append, List.nil_append,
      placeItems, writeLevels_items ih _ (fun x hx => hw.of_mem hx),
      Array.appendList_eq_append, append_lists,
      itemEncoding, List.append_assoc]

/-- **A writable outline is written with its encoding.** -/
theorem writeOutline_eq {o : Outline} (hw : ∀ it ∈ o.items, Writable limit 0 it) :
    writeOutline layout limit o = (encoding layout o, .ok ()) := by
  have hitems : ∀ it ∈ o.items, WritesItem layout limit it := fun it _ => writeLevels_item it
  have h := writeLevels_items hitems o.sorted hw none []
    (headerBytes o.sorted o.items.length).toArray
  rw [writeLevels] at h
  rw [writeOutline, placeItems, h]
  simp [encoding]

/-! ## 2. Reading -/

/-- The reader can read an item back in a document with `depth` others around it. -/
structure Readable (limit depth : Nat) (it : Item) : Prop where
  /-- The item has an encoding, and does not lie too deep. -/
  writable : Writable limit depth it
  /-- No text has the character that ends it. -/
  clean : ∀ x ∈ it.preorder, ∀ s ∈ x.texts, Text.nul ∉ s.toList
  /-- The number of entries of every block fits into its word. -/
  counted : ∀ x ∈ it.preorder, x.children.length < 2 ^ 32

theorem Readable.of_mem {depth : Nat} {name : String} {sorted : Bool} {items : List Item}
    {comment : String} (h : Readable limit depth (.block name sorted items comment)) {it : Item}
    (hit : it ∈ items) : Readable limit (depth + 1) it := by
  have hsub : ∀ x ∈ it.preorder, x ∈ (Item.block name sorted items comment).preorder := by
    intro x hx
    rw [Item.preorder]
    exact List.mem_cons_of_mem _ (mem_itemsPreorder.mpr ⟨it, hit, hx⟩)
  exact ⟨h.writable.of_mem hit, fun x hx => h.clean x (hsub x hx),
    fun x hx => h.counted x (hsub x hx)⟩

/-- What fills the slots of an item is read in front of more bytes, in an open document. -/
def ReadsItem (layout : Layout) (limit : Nat) (it : Item) : Prop :=
  ∀ (d : Document) (left : Nat) (name : String) (depth : Nat) (stack : List Frame) (bs : Bytes)
    (inp rest : Input), Readable limit depth it →
      Fills (placeSlots layout d.sorted ++ itemSlots layout it) bs → inp.Takes bs rest →
      readFrames layout limit ⟨d, left + 1, name, depth⟩ stack inp =
        readFrames layout limit ⟨d.set it.name it.value, left, name, depth⟩ stack rest

/-- All items of a document are read before it is closed. -/
theorem readFrames_items {items : List Item} (h : ∀ it ∈ items, ReadsItem layout limit it)
    {depth : Nat} (hr : ∀ it ∈ items, Readable limit depth it) (d : Document) (left : Nat)
    (name : String) (stack : List Frame) {bs : Bytes} {inp rest : Input}
    (hbs : Fills (itemsSlots layout d.sorted items) bs) (htakes : inp.Takes bs rest) :
    readFrames layout limit ⟨d, items.length + left, name, depth⟩ stack inp =
      readFrames layout limit ⟨d.addItems items, left, name, depth⟩ stack rest := by
  induction items generalizing d bs inp with
  | nil =>
    rw [itemsSlots, fills_nil] at hbs
    rw [hbs, Input.takes_nil] at htakes
    rw [htakes, List.length_nil, Nat.zero_add]
    rfl
  | cons it items ih =>
    rw [itemsSlots, ← List.append_assoc, fills_append] at hbs
    obtain ⟨as, cs, rfl, has, hcs⟩ := hbs
    obtain ⟨mid, hfirst, hmore⟩ := Input.takes_append.mp htakes
    rw [List.length_cons, Nat.add_right_comm,
      h it List.mem_cons_self d _ name depth stack as inp mid (hr it List.mem_cons_self) has hfirst,
      ih (fun x hx => h x (List.mem_cons_of_mem _ hx)) (fun x hx => hr x (List.mem_cons_of_mem _ hx))
        (d.set it.name it.value) hcs hmore, Document.addItems]

/-- Reading a parameter adds it to the open document. -/
theorem readFrames_param {d : Document} {left depth : Nat} {name name' text : String}
    {stack : List Frame} {inp rest : Input}
    (h : inp.piece layout limit (depth + 1) d.sorted = .ok (.param name text, rest)) :
    readFrames layout limit ⟨d, left + 1, name', depth⟩ stack inp =
      readFrames layout limit ⟨d.set name (.param text), left, name', depth⟩ stack rest := by
  conv_lhs => rw [readFrames.eq_def]
  dsimp only
  split
  · next e he => cases h.symm.trans he
  · next he =>
    cases h.symm.trans he
    rfl
  · next he => cases h.symm.trans he

/-- Reading the start of a block opens its document. -/
theorem readFrames_block {d : Document} {left depth count : Nat} {name name' : String}
    {sorted : Bool} {stack : List Frame} {inp rest : Input}
    (h : inp.piece layout limit (depth + 1) d.sorted = .ok (.block name sorted count, rest)) :
    readFrames layout limit ⟨d, left + 1, name', depth⟩ stack inp =
      readFrames layout limit ⟨.empty sorted, count, name, depth + 1⟩
        (⟨d, left + 1, name', depth⟩ :: stack) rest := by
  conv_lhs => rw [readFrames.eq_def]
  dsimp only
  split
  · next e he => cases h.symm.trans he
  · next he => cases h.symm.trans he
  · next he =>
    cases h.symm.trans he
    rfl

/-- **What fills the slots of an item is read as this item.** -/
theorem readFrames_item (it : Item) : ReadsItem layout limit it := by
  induction it with
  | undef name comment =>
    intro d left name' depth stack bs inp rest hr _ _
    exact absurd (hr.writable.1 _ (Item.mem_preorder_self _)) (by simp [Item.isUndef])
  | param name text comment =>
    intro d left name' depth stack bs inp rest hr hbs htakes
    have hclean := hr.clean _ (Item.mem_preorder_self _)
    refine readFrames_param (Input.piece_eq_ok.mpr ⟨⟨?_, ?_⟩, bs, hbs, htakes⟩)
    · exact hclean name (by simp [Item.texts])
    · exact hclean text (by simp [Item.texts])
  | block name sorted items comment ih =>
    intro d left name' depth stack bs inp rest hr hbs htakes
    have hname := hr.clean _ (Item.mem_preorder_self _) name (by simp [Item.texts])
    have hcount : items.length < 2 ^ 32 := hr.counted _ (Item.mem_preorder_self _)
    have hlevel : depth + 1 < limit := by
      have hdepth := hr.writable.2
      rw [Item.depth] at hdepth
      omega
    rw [itemSlots, ← List.append_assoc, fills_append] at hbs
    obtain ⟨as, cs, rfl, has, hcs⟩ := hbs
    obtain ⟨mid, hfirst, hmore⟩ := Input.takes_append.mp htakes
    have hfits : (Piece.block name sorted items.length).Fits limit (depth + 1) :=
      ⟨hname, hlevel, hcount⟩
    have hpiece := Input.piece_eq_ok.mpr ⟨hfits, as, has, hfirst⟩
    have hitems := readFrames_items ih (fun x hx => hr.of_mem hx) (.empty sorted) 0 name
      (⟨d, left + 1, name', depth⟩ :: stack) hcs hmore
    rw [Nat.add_zero] at hitems
    rw [readFrames_block hpiece, hitems, readFrames.eq_def]
    rfl

variable {o : Outline}

/-- **What fills the slots of an outline is read as the document with its items.** -/
theorem readDocument_slots (hr : ∀ it ∈ o.items, Readable limit 0 it)
    (hcount : o.items.length < 2 ^ 32) {bs : Bytes} {inp rest : Input}
    (hbs : Fills (slots layout o) bs) (htakes : inp.Takes bs rest) :
    readDocument layout limit inp = .ok (.ofItems o.sorted o.items, rest) := by
  obtain ⟨as, cs, rfl, has, hcs⟩ := fills_append.mp hbs
  obtain ⟨mid, hfirst, hmore⟩ := Input.takes_append.mp htakes
  have hitems := readFrames_items (fun it _ => readFrames_item it) hr (.empty o.sorted) 0 "" []
    hcs hmore
  rw [Nat.add_zero] at hitems
  rw [readDocument, Input.header_eq_ok.mpr ⟨hcount, as, has, hfirst⟩, ok_bind]
  simp only [hitems]
  rw [readFrames.eq_def]
  rfl

/-- **The encoding of an outline is read back**, whatever follows it. -/
theorem readDocument_encoding (hr : ∀ it ∈ o.items, Readable limit 0 it)
    (hcount : o.items.length < 2 ^ 32) (r : Bytes) (off : Nat) :
    readDocument layout limit ⟨encoding layout o ++ r, off⟩ =
      .ok (.ofItems o.sorted o.items, ⟨r, off + (encoding layout o).length⟩) :=
  readDocument_slots hr hcount (fills_encoding layout o) ⟨rfl, rfl⟩

/-! ## 3. What was read has no U+0000 -/

/-- No name and no text of a document has the character U+0000. -/
def Clean (d : Document) : Prop := d.Each fun x => ∀ s ∈ x.texts, Text.nul ∉ s.toList

theorem Clean.set_param {d : Document} (h : Clean d) (hd : d.Indexed) {name text : String}
    (hname : Text.nul ∉ name.toList) (htext : Text.nul ∉ text.toList) :
    Clean (d.set name (.param text)) := by
  refine Document.Each.set_param h hd fun s hs => ?_
  simp only [Item.texts, List.mem_cons, List.not_mem_nil, or_false] at hs
  rcases hs with rfl | rfl
  · exact hname
  · exact htext

theorem Clean.set_block {d inner : Document} (h : Clean d) (hd : d.Indexed) {name : String}
    (hname : Text.nul ∉ name.toList) (hinner : Clean inner) :
    Clean (d.set name (.block inner)) := by
  refine Document.Each.set_block h hd (fun s hs => ?_) hinner
  obtain rfl := List.mem_singleton.mp hs
  exact hname

/-- What a piece brings has no U+0000. -/
theorem piece_clean {level : Nat} {sorted : Bool} {inp rest : Input} {p : Piece}
    (h : inp.piece layout limit level sorted = .ok (p, rest)) :
    match p with
    | .param name text => Text.nul ∉ name.toList ∧ Text.nul ∉ text.toList
    | .block name _ _ => Text.nul ∉ name.toList := by
  obtain ⟨hfits, -⟩ := Input.piece_eq_ok.mp h
  cases p with
  | param name text => exact hfits
  | block name sorted count => exact hfits.1

/-- **Every document that was read was built**, one entry after the other, from texts without
U+0000: what building keeps holds of it. -/
theorem readFrames_induct {P : Document → Prop} (hempty : ∀ sorted, P (.empty sorted))
    (hparam : ∀ d name text, P d → Text.nul ∉ name.toList → Text.nul ∉ text.toList →
      P (d.set name (.param text)))
    (hblock : ∀ d name inner, P d → Text.nul ∉ name.toList → P inner →
      P (d.set name (.block inner)))
    {top : Frame} {stack : List Frame} {inp rest : Input} {d : Document}
    (h : readFrames layout limit top stack inp = .ok (d, rest))
    (hf : ∀ f ∈ top :: stack, P f.document ∧ Text.nul ∉ f.name.toList) : P d := by
  fun_induction readFrames layout limit top stack inp with
  | case1 top inp hm =>
    cases h
    exact (hf top List.mem_cons_self).1
  | case2 top inp hm parent outer closed ih =>
    refine ih h fun f hmem => ?_
    obtain ⟨htop, hname⟩ := hf top List.mem_cons_self
    obtain ⟨hparent, hpname⟩ := hf parent (List.mem_cons_of_mem _ List.mem_cons_self)
    rcases List.mem_cons.mp hmem with rfl | hmem
    · exact ⟨hblock _ _ _ hparent hname htop, hpname⟩
    · exact hf f (List.mem_cons_of_mem _ (List.mem_cons_of_mem _ hmem))
  | case3 => cases h
  | case4 top stack inp left hm name text rest' hp ih =>
    obtain ⟨hname, htext⟩ := piece_clean hp
    refine ih h fun f hmem => ?_
    rcases List.mem_cons.mp hmem with rfl | hmem
    · obtain ⟨htop, htname⟩ := hf top List.mem_cons_self
      exact ⟨hparam _ _ _ htop hname htext, htname⟩
    · exact hf f (List.mem_cons_of_mem _ hmem)
  | case5 top stack inp left hm name sorted count rest' hp ih =>
    refine ih h fun f hmem => ?_
    rcases List.mem_cons.mp hmem with rfl | hmem
    · exact ⟨hempty sorted, piece_clean hp⟩
    · exact hf f hmem

variable {bytes : Bytes} {d : Document}

theorem parse_induct {P : Document → Prop} (hempty : ∀ sorted, P (.empty sorted))
    (hparam : ∀ d name text, P d → Text.nul ∉ name.toList → Text.nul ∉ text.toList →
      P (d.set name (.param text)))
    (hblock : ∀ d name inner, P d → Text.nul ∉ name.toList → P inner →
      P (d.set name (.block inner)))
    (h : parse layout bytes = .ok d) : P d := by
  obtain ⟨⟨d', rest⟩, hd, h⟩ := bind_eq_ok.1 h
  cases h
  obtain ⟨⟨⟨sorted, count⟩, inp⟩, -, h⟩ := bind_eq_ok.1 hd
  refine readFrames_induct hempty hparam hblock h fun f hf => ?_
  obtain rfl := List.mem_singleton.mp hf
  exact ⟨hempty sorted, by simp⟩

/-- **Every document that was read was built from texts without U+0000.** -/
theorem parse_built_clean (h : parse layout bytes = .ok d) : d.Built ∧ Clean d :=
  parse_induct (P := fun d => d.Built ∧ Clean d)
    (fun sorted => ⟨.empty sorted, Document.each_empty sorted⟩)
    (fun _ _ _ ⟨hd, hc⟩ hname htext =>
      ⟨hd.set _ (fun _ e => by cases e), hc.set_param hd.indexed hname htext⟩)
    (fun _ _ _ ⟨hd, hc⟩ hname ⟨hinner, hcinner⟩ =>
      ⟨hd.set _ (fun _ e => by cases e; exact hinner), hc.set_block hd.indexed hname hcinner⟩) h

theorem parse_built (h : parse layout bytes = .ok d) : d.Built := (parse_built_clean h).1

/-- **No document that was read has U+0000.** -/
theorem parse_clean (h : parse layout bytes = .ok d) : Clean d := (parse_built_clean h).2

/-! ## 4. There and back -/

/-- What the encoder asks of a document: every entry has a content, blocks are not nested too
deeply, and the number of entries of each block fits into its word. -/
structure Encodable (d : Document) : Prop where
  /-- Every entry has a content. -/
  defined : ∀ x ∈ (d.outline .insertion).preorder, x.isUndef = false
  /-- There are fewer levels than the limit. -/
  depth : (d.outline .insertion).depth < maxDepth
  /-- The entries of the document are counted. -/
  size : (d.outline .insertion).items.length < 2 ^ 32
  /-- The entries of every block are counted. -/
  counted : ∀ x ∈ (d.outline .insertion).preorder, x.children.length < 2 ^ 32

/-- What arranging keeps holds in the order of a layout. -/
theorem forall_preorder {P : Item → Prop} (hd : d.Built) (hP : ∀ x, P x → P x.arranged)
    (h : d.Each P) (layout : Layout) : ∀ x ∈ (d.outline layout.order).preorder, P x := by
  cases layout with
  | plain => exact h
  | grouped => exact h.chosen hd hP

theorem depth_order (hd : d.Built) (layout : Layout) :
    (d.outline layout.order).depth = (d.outline .insertion).depth := by
  cases layout with
  | plain => rfl
  | grouped => rw [Layout.order, hd.outline_chosen, Outline.depth_arranged]

theorem length_order (hd : d.Built) (layout : Layout) :
    (d.outline layout.order).items.length = (d.outline .insertion).items.length := by
  cases layout with
  | plain => rfl
  | grouped =>
    rw [Layout.order, hd.outline_chosen, Outline.arranged, (orderItems_perm _ _).length_eq,
      arrangedItems_eq, List.length_map]

/-- The default order of what is read back: that of the document, whatever the layout. -/
theorem arranged_order (hd : d.Built) (layout : Layout) :
    (d.outline layout.order).bare.arranged = (d.outline .chosen).bare := by
  rw [← Outline.bare_arranged, hd.outline_chosen]
  cases layout with
  | plain => rfl
  | grouped => rw [Layout.order, hd.outline_chosen, Outline.arranged_arranged]

/-- Entries with a content that do not lie too deep can be written. -/
theorem writable_order (hd : d.Built) (hdefined : d.Each fun x => x.isUndef = false)
    (hdepth : (d.outline .insertion).depth < limit) (layout : Layout) :
    ∀ it ∈ (d.outline layout.order).items, Writable limit 0 it := by
  intro it hit
  have hsub : ∀ x ∈ it.preorder, x ∈ (d.outline layout.order).preorder := fun x hx =>
    mem_itemsPreorder.mpr ⟨it, hit, hx⟩
  refine ⟨fun x hx => ?_, ?_⟩
  · exact forall_preorder hd (fun y hy => by rwa [Item.isUndef_arranged]) hdefined layout x
      (hsub x hx)
  · have hle := itemsDepth_le_iff.mp (Nat.le_refl _) it hit
    rw [← depth_order hd layout, Outline.depth] at hdepth
    omega

theorem Encodable.writable (he : Encodable d) (hd : d.Built) (layout : Layout) :
    ∀ it ∈ (d.outline layout.order).items, Writable maxDepth 0 it :=
  writable_order hd he.defined he.depth layout

/-- The size of an encoding does not depend on the order of the entries. -/
theorem length_encoding_order (hd : d.Built) (layout : Layout) :
    (encoding layout (d.outline layout.order)).length =
      (encoding layout (d.outline .insertion)).length := by
  cases layout with
  | plain => rfl
  | grouped => rw [Layout.order, hd.outline_chosen, length_encoding_arranged]

/-- **A document whose entries can be written is encoded**, and if the encoding is short enough,
the numbers of entries fit into their words. -/
theorem Encodable.of_size (hd : d.Built) (hdefined : d.Each fun x => x.isUndef = false)
    (hdepth : (d.outline .insertion).depth < maxDepth) (layout : Layout)
    (hsize : ∀ payload, build layout d = .ok payload → payload.length < 2 ^ 32) : Encodable d := by
  have hbuild : build layout d = .ok (encoding layout (d.outline layout.order)) := by
    rw [build, writeDocument, writeOutline_eq (writable_order hd hdefined hdepth layout)]
  have hlength := hsize _ hbuild
  rw [length_encoding_order hd] at hlength
  obtain ⟨hitems, hchildren⟩ := counted_of_encoding hdefined
  exact ⟨hdefined, hdepth, hitems.trans_lt hlength, fun x hx => (hchildren x hx).trans_lt hlength⟩

/-- Entries that can be written can be read back if no text has U+0000 and the numbers of entries
fit into their words. -/
theorem readable_order (hd : d.Built) (hc : Clean d)
    (hcounted : d.Each fun x => x.children.length < 2 ^ 32) {layout : Layout}
    (hw : ∀ it ∈ (d.outline layout.order).items, Writable limit 0 it) :
    ∀ it ∈ (d.outline layout.order).items, Readable limit 0 it := by
  intro it hit
  have hsub : ∀ x ∈ it.preorder, x ∈ (d.outline layout.order).preorder := fun x hx =>
    mem_itemsPreorder.mpr ⟨it, hit, hx⟩
  refine ⟨hw it hit, fun x hx => ?_, fun x hx => ?_⟩
  · exact forall_preorder (P := fun x => ∀ s ∈ x.texts, Text.nul ∉ s.toList) hd
      (fun y hy => by rwa [Item.texts_arranged]) hc layout x (hsub x hx)
  · exact forall_preorder (P := fun x => x.children.length < 2 ^ 32) hd
      (fun y hy => by rwa [Item.length_children_arranged]) hcounted layout x (hsub x hx)

/-- Two documents with the same entries, comments aside, have the same texts. -/
theorem Clean.of_bare {d' : Document} (hd : d.Built) (hd' : d'.Built) (hc : Clean d')
    (h : (d'.outline .chosen).bare = (d.outline .chosen).bare) : Clean d := by
  intro x hx
  have hx' : x.arranged.bare ∈ (d'.outline .chosen).bare.preorder := by
    rw [h, hd.outline_chosen]
    exact (Outline.mem_preorder_bare _).mpr
      ⟨_, (Outline.mem_preorder_arranged _).mpr ⟨x, hx, rfl⟩, rfl⟩
  rw [hd'.outline_chosen] at hx'
  obtain ⟨y, hy, hxy⟩ := (Outline.mem_preorder_bare _).mp hx'
  obtain ⟨z, hz, rfl⟩ := (Outline.mem_preorder_arranged _).mp hy
  have htexts := congrArg Item.texts hxy
  simp only [Item.texts_bare, Item.texts_arranged] at htexts
  rw [htexts]
  exact hc z hz

/-- **What can be encoded is encoded**, in the order of the layout. -/
theorem build_eq (he : Encodable d) (hd : d.Built) (layout : Layout) :
    build layout d = .ok (encoding layout (d.outline layout.order)) := by
  rw [build, writeDocument, writeOutline_eq (he.writable hd layout)]

/-- **The encoding of a document without U+0000 is read back**, comments aside, whatever follows
it. -/
theorem readDocument_encoding_order (hd : d.Built) (hdefined : d.Each fun x => x.isUndef = false)
    (hdepth : (d.outline .insertion).depth < limit) (hc : Clean d)
    (hsize : (d.outline .insertion).items.length < 2 ^ 32)
    (hcounted : d.Each fun x => x.children.length < 2 ^ 32) (layout : Layout) :
    ∃ d', (∀ r off,
        readDocument layout limit ⟨encoding layout (d.outline layout.order) ++ r, off⟩ =
          .ok (d', ⟨r, off + (encoding layout (d.outline layout.order)).length⟩)) ∧
      d'.outline .chosen = (d.outline .chosen).bare ∧
      d'.outline .insertion = (d.outline layout.order).bare := by
  have hwritable := writable_order hd hdefined hdepth layout
  have hsize' : (d.outline layout.order).items.length < 2 ^ 32 := by rwa [length_order hd layout]
  refine ⟨.ofItems _ _, readDocument_encoding (readable_order hd hc hcounted hwritable) hsize', ?_,
    Document.outline_ofItems _ _⟩
  rw [(Document.built_ofItems _ _).outline_chosen, Document.outline_ofItems]
  exact arranged_order hd layout

/-- What can be encoded is read back from its encoding. -/
theorem Encodable.readDocument_eq (he : Encodable d) (hc : Clean d) (hd : d.Built)
    (layout : Layout) :
    ∃ d', (∀ r off,
        readDocument layout maxDepth ⟨encoding layout (d.outline layout.order) ++ r, off⟩ =
          .ok (d', ⟨r, off + (encoding layout (d.outline layout.order)).length⟩)) ∧
      d'.outline .chosen = (d.outline .chosen).bare ∧
      d'.outline .insertion = (d.outline layout.order).bare :=
  readDocument_encoding_order hd he.defined he.depth hc he.size he.counted layout

/-- The encoding alone is parsed. -/
theorem parse_encoding (he : Encodable d) (hc : Clean d) (hd : d.Built) (layout : Layout) :
    ∃ d', parse layout (encoding layout (d.outline layout.order)) = .ok d' ∧
      d'.outline .chosen = (d.outline .chosen).bare := by
  obtain ⟨d', hread, hchosen, -⟩ := he.readDocument_eq hc hd layout
  have hall := hread [] 0
  rw [List.append_nil] at hall
  exact ⟨d', by rw [parse, hall, ok_bind], hchosen⟩

/-- **A document without comments is read back from its encoding** if and only if no name and no
text has the character U+0000. -/
theorem parse_encoding_iff (he : Encodable d) (hd : d.Built)
    (hcomment : d.Each fun x => x.comment = "") (layout : Layout) :
    (∃ d', parse layout (encoding layout (d.outline layout.order)) = .ok d' ∧ (d' == d) = true) ↔
      Clean d := by
  have hbare : (d.outline .chosen).bare = d.outline .chosen :=
    Outline.bare_eq_self _ (hcomment.chosen hd fun x hx => by rwa [Item.comment_arranged])
  constructor
  · rintro ⟨d', hp, heq⟩
    have houtline : d'.outline .chosen = d.outline .chosen := of_decide_eq_true heq
    exact Clean.of_bare hd (parse_built hp) (parse_clean hp) (by rw [houtline])
  · intro hc
    obtain ⟨d', hp, houtline⟩ := parse_encoding he hc hd layout
    exact ⟨d', hp, decide_eq_true (houtline.trans hbare)⟩

/-- Several documents, read by one call after the other. -/
def readDocuments (layout : Layout) (limit : Nat) :
    Nat → Input → Except Error (List Document × Input)
  | 0, inp => .ok ([], inp)
  | count + 1, inp => do
    let (d, inp) ← readDocument layout limit inp
    let (ds, inp) ← readDocuments layout limit count inp
    .ok (d :: ds, inp)

/-- **Encodings one behind the other** are read back by as many calls. -/
theorem readDocuments_build (layout : Layout) {ds : List Document}
    (h : ∀ e ∈ ds, e.Built ∧ Encodable e ∧ Clean e) :
    ∃ bs es, ds.mapM (build layout) = .ok bs ∧
      (∀ r off, readDocuments layout maxDepth ds.length ⟨bs.flatten ++ r, off⟩ =
        .ok (es, ⟨r, off + bs.flatten.length⟩)) ∧
      es.map (·.outline .chosen) = ds.map (fun e => (e.outline .chosen).bare) ∧
      es.map (·.outline .insertion) = ds.map fun e => (e.outline layout.order).bare := by
  induction ds with
  | nil => exact ⟨[], [], rfl, fun _ _ => rfl, rfl, rfl⟩
  | cons d ds ih =>
    obtain ⟨hd, he, hc⟩ := h d List.mem_cons_self
    obtain ⟨d', hread, hchosen, hinsertion⟩ := he.readDocument_eq hc hd layout
    obtain ⟨bs, es, hbuild, hreads, hchosens, hinsertions⟩ :=
      ih fun e he => h e (List.mem_cons_of_mem _ he)
    refine ⟨encoding layout (d.outline layout.order) :: bs, d' :: es, ?_, fun r off => ?_, ?_, ?_⟩
    · rw [List.mapM_cons, build_eq he hd, ok_bind, hbuild]
      rfl
    · rw [List.flatten_cons, List.append_assoc, List.length_cons, readDocuments, hread, ok_bind]
      dsimp only
      rw [hreads, ok_bind, List.length_append, Nat.add_assoc]
    · rw [List.map_cons, List.map_cons, hchosen, hchosens]
    · rw [List.map_cons, List.map_cons, hinsertion, hinsertions]

/-- **A document is read back from its encoding**, comments aside, if and only if no name and
no text has the character U+0000.

It is then read back from the front of any longer data, and exactly its encoding is taken away.
Encodings that stand one behind the other are therefore read by one call after the other.
The order in which entries were added is that of the layout: the plain one keeps it, and with
the grouped one a sorted block is read back as if its entries had been added by name. -/
theorem build_parse (hd : d.Built) (he : Encodable d) (layout : Layout) :
    ∃ b, build layout d = .ok b ∧
      ((∃ d', parse layout b = .ok d' ∧
        (d'.outline .chosen).bare = (d.outline .chosen).bare) ↔ Clean d) ∧
      (Clean d → ∃ d', (∀ r off, readDocument layout maxDepth ⟨b ++ r, off⟩ =
          .ok (d', ⟨r, off + b.length⟩)) ∧
        d'.outline .chosen = (d.outline .chosen).bare ∧
        d'.outline .insertion = (d.outline layout.order).bare) ∧
      ∀ ds : List Document, (∀ e ∈ ds, e.Built ∧ Encodable e ∧ Clean e) →
        ∃ bs es, ds.mapM (build layout) = .ok bs ∧
          (∀ r off, readDocuments layout maxDepth ds.length ⟨bs.flatten ++ r, off⟩ =
            .ok (es, ⟨r, off + bs.flatten.length⟩)) ∧
          es.map (·.outline .chosen) = ds.map (fun e => (e.outline .chosen).bare) ∧
          es.map (·.outline .insertion) = ds.map fun e => (e.outline layout.order).bare := by
  refine ⟨encoding layout (d.outline layout.order), build_eq he hd layout, ⟨?_, fun hc => ?_⟩,
    fun hc => he.readDocument_eq hc hd layout, fun _ => readDocuments_build layout⟩
  · rintro ⟨d', hp, h⟩
    exact Clean.of_bare hd (parse_built hp) (parse_clean hp) h
  · obtain ⟨d', hp, hchosen⟩ := parse_encoding he hc hd layout
    exact ⟨d', hp, by rw [hchosen, Outline.bare_bare]⟩

/-- A sorted document with a run of two equal names and an unsorted block. -/
def sample : Document :=
  .ofItems true [.param "b" "1" "", .block "a" false [.param "y" "" "", .param "x" "2" ""] "",
    .param "b" "3" ""]

/-- The grouped encoding of a small document is read back. -/
theorem build_parse_sample : sample.Built ∧ Encodable sample ∧ Clean sample ∧
    ∃ b d', build .grouped sample = .ok b ∧ parse .grouped b = .ok d' ∧
      (d'.outline .chosen).bare = (sample.outline .chosen).bare := by
  have hd : sample.Built := Document.built_ofItems _ _
  have he : Encodable sample := by
    constructor <;> rw [sample, Document.outline_ofItems] <;> decide
  have hc : Clean sample := by
    rw [Clean, Document.Each, sample, Document.outline_ofItems]
    decide
  obtain ⟨b, hb, hiff, -⟩ := build_parse hd he .grouped
  obtain ⟨d', hp, h⟩ := hiff.mpr hc
  exact ⟨hd, he, hc, b, d', hb, hp, h⟩

end BlockDoc.Binary
