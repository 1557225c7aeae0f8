/-
# What the reader accepts

Whatever the reader makes a document of begins with bytes that fill the slots of that document
(`readDocument_ok`).  The reader walks with a stack, so the law that is proved is about the open
document: entries that were missing have been read, their slots stood in front, and reading went on
behind them (`readFrames_ok`).  A block is such a run inside a run, which is why the induction is on
the length of the input and not on the number of entries.

So encoding undoes decoding, up to what the reader passes over: the writer settles the flags
(`settle_slots`) and writes the places anew (`readDocument_build`).
-/
import BlockDoc.Proofs.Binary.RoundTrip

namespace BlockDoc.Binary

variable {layout : Layout} {limit : Nat}

/-! ## 1. The step -/

/-- A missing entry is read with a piece. -/
theorem readFrames_missing {d : Document} {left depth : Nat} {name : String} {stack : List Frame}
    {inp : Input} {r : Document × Input}
    (h : readFrames layout limit ⟨d, left + 1, name, depth⟩ stack inp = .ok r) :
    ∃ p mid, inp.piece layout limit (depth + 1) d.sorted = .ok (p, mid) ∧
      match p with
      | .param key text =>
        readFrames layout limit ⟨d.set key (.param text), left, name, depth⟩ stack mid = .ok r
      | .block key sorted count =>
        readFrames layout limit ⟨.empty sorted, count, key, depth + 1⟩
          (⟨d, left + 1, name, depth⟩ :: stack) mid = .ok r := by
  cases hp : inp.piece layout limit (depth + 1) d.sorted with
  | error e =>
    rw [readFrames.eq_def] at h
    dsimp only at h
    split at h
    · cases h
    · next he => cases hp.symm.trans he
    · next he => cases hp.symm.trans he
  | ok r' =>
    obtain ⟨p, mid⟩ := r'
    refine ⟨p, mid, rfl, ?_⟩
    cases p with
    | param key text => rwa [readFrames_param hp] at h
    | block key sorted count => rwa [readFrames_block hp] at h

/-- A document without missing entries is closed. -/
theorem readFrames_close {d outer : Document} {left depth depth' : Nat} {name key : String}
    {stack : List Frame} {inp : Input} :
    readFrames layout limit ⟨d, 0, key, depth'⟩ (⟨outer, left + 1, name, depth⟩ :: stack) inp =
      readFrames layout limit ⟨outer.set key (.block d), left, name, depth⟩ stack inp := by
  conv_lhs => rw [readFrames.eq_def]
  rfl

/-! ## 2. The run -/

/-- Some items without comments were read, and their slots stood in front of the rest. -/
structure WasRead (layout : Layout) (limit depth : Nat) (sorted : Bool) (items : List Item)
    (inp rest : Input) : Prop where
  /-- The slots were filled. -/
  filled : ∃ bs, Fills (itemsSlots layout sorted items) bs ∧ inp.Takes bs rest
  /-- The items can be read again. -/
  readable : ∀ it ∈ items, Readable limit depth it
  /-- There are no comments. -/
  bare : ∀ it ∈ items, it.bare = it

theorem WasRead.length_le {depth : Nat} {sorted : Bool} {items : List Item} {inp rest : Input}
    (h : WasRead layout limit depth sorted items inp rest) :
    rest.bytes.length ≤ inp.bytes.length := by
  obtain ⟨bs, -, htakes⟩ := h.filled
  rw [htakes.bytes, List.length_append]
  omega

theorem WasRead.nil {depth : Nat} {sorted : Bool} (inp : Input) :
    WasRead layout limit depth sorted [] inp inp :=
  ⟨⟨[], .nil, Input.takes_nil.mpr rfl⟩, fun _ h => absurd h List.not_mem_nil,
    fun _ h => absurd h List.not_mem_nil⟩

/-- One item more was read in front. -/
theorem WasRead.cons {depth : Nat} {sorted : Bool} {it : Item} {items : List Item}
    {inp mid rest : Input} (h : WasRead layout limit depth sorted items mid rest)
    (hit : ∃ bs, Fills (placeSlots layout sorted ++ itemSlots layout it) bs ∧ inp.Takes bs mid)
    (hr : Readable limit depth it) (hbare : it.bare = it) :
    WasRead layout limit depth sorted (it :: items) inp rest := by
  obtain ⟨as, has, htakes⟩ := hit
  obtain ⟨bs, hbs, htakes'⟩ := h.filled
  refine ⟨⟨as ++ bs, ?_, htakes.trans htakes'⟩, List.forall_mem_cons.mpr ⟨hr, h.readable⟩,
    List.forall_mem_cons.mpr ⟨hbare, h.bare⟩⟩
  rw [itemsSlots, ← List.append_assoc]
  exact List.rel_append has hbs

theorem readable_param {depth : Nat} {key text : String}
    (h : (Piece.param key text).Fits limit (depth + 1)) (hdepth : depth < limit) :
    Readable limit depth (.param key text "") := by
  refine ⟨⟨?_, by rwa [Item.depth, Nat.zero_add]⟩, ?_, ?_⟩ <;>
    simp only [Item.preorder, List.mem_singleton, forall_eq]
  · rfl
  · simpa [Item.texts, Piece.Fits] using h
  · exact Nat.two_pow_pos 32

/-- A block can be read again if what is in it can. -/
theorem readable_block {depth : Nat} {key : String} {sorted : Bool} {items : List Item}
    (h : (Piece.block key sorted items.length).Fits limit (depth + 1))
    (hitems : ∀ it ∈ items, Readable limit (depth + 1) it) :
    Readable limit depth (.block key sorted items "") := by
  obtain ⟨hname, hlevel, hcount⟩ := h
  have hdepth : itemsDepth items ≤ limit - (depth + 1) - 1 := by
    refine itemsDepth_le_iff.mpr fun it hit => ?_
    have hit := (hitems it hit).writable.2
    omega
  refine ⟨⟨?_, by rw [Item.depth]; omega⟩, ?_, ?_⟩ <;>
    simp only [Item.preorder, List.forall_mem_cons, mem_itemsPreorder, forall_exists_index, and_imp]
  · exact ⟨rfl, fun x it hit hx => (hitems it hit).writable.1 x hx⟩
  · refine ⟨?_, fun x it hit hx => (hitems it hit).clean x hx⟩
    simpa [Item.texts] using hname
  · exact ⟨hcount, fun x it hit hx => (hitems it hit).counted x hx⟩

/-- **The entries that were missing have been read**, if reading went well: there are items with
slots at the front, and reading went on behind them in the document to which they were added. -/
theorem readFrames_ok {k left depth : Nat} {d : Document} {name : String} {stack : List Frame}
    {inp : Input} {r : Document × Input} (hdepth : depth < limit)
    (h : readFrames layout limit ⟨d, k + left, name, depth⟩ stack inp = .ok r) :
    ∃ items mid, items.length = k ∧ WasRead layout limit depth d.sorted items inp mid ∧
      readFrames layout limit ⟨d.addItems items, left, name, depth⟩ stack mid = .ok r := by
  induction hn : inp.bytes.length using Nat.strong_induction_on
    generalizing k left depth d name stack inp with
  | _ n ih =>
    subst hn
    cases k with
    | zero =>
      rw [Nat.zero_add] at h
      exact ⟨[], inp, rfl, .nil inp, h⟩
    | succ k =>
      rw [Nat.add_right_comm] at h
      obtain ⟨p, mid, hp, h⟩ := readFrames_missing h
      have hshort := Input.length_of_piece hp
      obtain ⟨hfits, hfill⟩ := Input.piece_eq_ok.mp hp
      cases p with
      | param key text =>
        obtain ⟨items, mid', hlen, hread, hrest⟩ := ih _ hshort hdepth h rfl
        exact ⟨.param key text "" :: items, mid', by rw [List.length_cons, hlen],
          hread.cons hfill (readable_param hfits hdepth) rfl, hrest⟩
      | block key sorted count =>
        -- the entries of the block are missing first, then the others behind it
        rw [← Nat.add_zero count] at h
        obtain ⟨inner, mid₁, rfl, hinner, h⟩ := ih _ hshort hfits.2.1 h rfl
        rw [readFrames_close] at h
        obtain ⟨items, mid₂, hlen, hread, hrest⟩ :=
          ih _ (Nat.lt_of_le_of_lt hinner.length_le hshort) hdepth h rfl
        obtain ⟨as, has, htakes⟩ := hfill
        obtain ⟨bs, hbs, htakes'⟩ := hinner.filled
        refine ⟨.block key sorted inner "" :: items, mid₂, by rw [List.length_cons, hlen],
          hread.cons ⟨as ++ bs, ?_, htakes.trans htakes'⟩ (readable_block hfits hinner.readable) ?_,
          hrest⟩
        · rw [itemSlots, ← List.append_assoc]
          exact List.rel_append has hbs
        · rw [Item.bare, bareItems_eq, List.map_congr_left hinner.bare, List.map_id']

/-- **The reader accepts exactly what fills the slots** of a document that can be read. -/
theorem readDocument_ok {inp rest : Input} {d : Document} (hlimit : 0 < limit)
    (h : readDocument layout limit inp = .ok (d, rest)) :
    ∃ o bs, d = .ofItems o.sorted o.items ∧ o.bare = o ∧ o.items.length < 2 ^ 32 ∧
      (∀ it ∈ o.items, Readable limit 0 it) ∧ Fills (slots layout o) bs ∧ inp.Takes bs rest := by
  obtain ⟨⟨⟨sorted, count⟩, mid⟩, hheader, h⟩ := bind_eq_ok.1 h
  obtain ⟨hcount, as, has, htakes⟩ := Input.header_eq_ok.mp hheader
  rw [← Nat.add_zero count] at h
  obtain ⟨items, mid', rfl, hread, h⟩ := readFrames_ok hlimit h
  obtain ⟨bs, hbs, htakes'⟩ := hread.filled
  rw [readFrames.eq_def] at h
  cases h
  refine ⟨⟨sorted, items⟩, as ++ bs, rfl, ?_, hcount, hread.readable,
    List.rel_append has hbs, htakes.trans htakes'⟩
  rw [Outline.bare, bareItems_eq, List.map_congr_left hread.bare, List.map_id']

/-! ## 3. What the writer makes of the bytes -/

/-- What the writer makes of a byte in a slot: a flag that is not set is zero. -/
def Slot.settle : Slot → UInt8 → UInt8
  | .flag _, c => if c = 1 then 1 else 0
  | _, c => c

/-- What the writer makes of some bytes, one in each slot. -/
def settle (slots : List Slot) (bs : Bytes) : Bytes := List.zipWith Slot.settle slots bs

theorem settle_append {s t : List Slot} {as cs : Bytes} (h : Fills s as) :
    settle (s ++ t) (as ++ cs) = settle s as ++ settle t cs := List.zipWith_append h.length_eq

@[simp] theorem settle_content (bs : Bytes) : settle (bs.map .content) bs = bs := by
  induction bs with
  | nil => rfl
  | cons b bs ih => exact congrArg (b :: ·) ih

theorem settle_header {sorted : Bool} {count : Nat} {bs : Bytes}
    (h : Fills (headerSlots sorted count) bs) :
    settle (headerSlots sorted count) bs = headerBytes sorted count := by
  obtain ⟨b, rfl, rfl⟩ := fills_headerSlots.mp h
  refine congrArg₂ List.cons ?_ (settle_content _)
  by_cases hb : b = 1 <;> simp [Slot.settle, hb]

/-- Without places, the items of a document are encoded by settling. -/
theorem settle_itemsSlots {items : List Item}
    (h : ∀ it ∈ items, ∀ bs, Fills (itemSlots .plain it) bs →
      settle (itemSlots .plain it) bs = itemEncoding .plain it) (sorted : Bool)
    (last : Option (String × Place)) {bs : Bytes} (hbs : Fills (itemsSlots .plain sorted items) bs) :
    settle (itemsSlots .plain sorted items) bs = itemsEncoding .plain sorted last items := by
  induction items generalizing last bs with
  | nil => rfl
  | cons it items ih =>
    have hplace : placeSlots .plain sorted = [] := rfl
    have hbytes : ∀ p, placeBytes .plain sorted p = [] := fun _ => rfl
    rw [itemsSlots, hplace, List.nil_append] at hbs ⊢
    obtain ⟨as, cs, rfl, has, hcs⟩ := fills_append.mp hbs
    rw [settle_append has, h it List.mem_cons_self as has,
      ih (fun x hx => h x (List.mem_cons_of_mem _ hx)) _ hcs, itemsEncoding, hbytes,
      List.nil_append]

theorem settle_itemSlots (it : Item) : ∀ bs, Fills (itemSlots .plain it) bs →
    settle (itemSlots .plain it) bs = itemEncoding .plain it := by
  induction it with
  | undef name comment => exact fun _ _ => rfl
  | param name text comment =>
    intro bs hbs
    rw [itemSlots, Piece.slots, ← List.map_append] at hbs ⊢
    rw [fills_content.mp hbs, settle_content]
    rfl
  | block name sorted items comment ih =>
    intro bs hbs
    rw [itemSlots, Piece.slots, List.append_assoc] at hbs ⊢
    obtain ⟨as, cs, rfl, has, hcs⟩ := fills_append.mp hbs
    obtain ⟨hs, is, rfl, hhs, his⟩ := fills_append.mp hcs
    rw [settle_append has, settle_append hhs, fills_content.mp has, settle_content,
      settle_header hhs, settle_itemsSlots ih sorted none his]
    rfl

/-- **Without places, an outline is encoded by settling** what fills its slots. -/
theorem settle_slots {o : Outline} {bs : Bytes} (h : Fills (slots .plain o) bs) :
    settle (slots .plain o) bs = encoding .plain o := by
  obtain ⟨as, cs, rfl, has, hcs⟩ := fills_append.mp h
  rw [slots, settle_append has, settle_header has,
    settle_itemsSlots (fun it _ => settle_itemSlots it) _ none hcs, encoding]

/-- What is in the slots of places does not matter. -/
theorem Fills.of_places {s : List Slot} {bs cs : Bytes} (h : Fills s bs)
    (hlen : cs.length = bs.length) (hsame : ∀ i : Nat, s[i]? ≠ some .place → cs[i]? = bs[i]?) :
    Fills s cs := by
  induction h generalizing cs with
  | nil => exact fills_nil.mpr (List.length_eq_zero_iff.mp hlen)
  | @cons slot b s bs hb _ ih =>
    cases cs with
    | nil => cases hlen
    | cons c cs =>
      refine .cons ?_ (ih (by simpa using hlen) fun i hi => hsame (i + 1) hi)
      by_cases hplace : slot = .place
      · rw [hplace]
        trivial
      · have hfirst := hsame 0 (by simpa using hplace)
        obtain rfl : c = b := by simpa using hfirst
        exact hb

/-! ## 4. There and back again -/

variable {d : Document}

/-- What was read can be encoded again. -/
theorem encodable_of_readable {o : Outline} (hd : d.outline .insertion = o)
    (hcount : o.items.length < 2 ^ 32) (hr : ∀ it ∈ o.items, Readable maxDepth 0 it) :
    Encodable d ∧ Clean d := by
  have hmem : ∀ x ∈ o.preorder, ∃ it ∈ o.items, x ∈ it.preorder := fun x hx =>
    mem_itemsPreorder.mp hx
  refine ⟨⟨?_, ?_, ?_, ?_⟩, ?_⟩
  · rw [hd]
    intro x hx
    obtain ⟨it, hit, hx⟩ := hmem x hx
    exact (hr it hit).writable.1 x hx
  · rw [hd, Outline.depth]
    refine Nat.lt_of_le_pred (by decide) (itemsDepth_le_iff.mpr fun it hit => ?_)
    exact Nat.le_pred_of_lt (hr it hit).writable.2
  · rwa [hd]
  · rw [hd]
    intro x hx
    obtain ⟨it, hit, hx⟩ := hmem x hx
    exact (hr it hit).counted x hx
  · rw [Clean, Document.Each, hd]
    intro x hx
    obtain ⟨it, hit, hx⟩ := hmem x hx
    exact (hr it hit).clean x hx

/-- The encoder sees no more of a document than its order in the layout. -/
theorem build_congr {d' : Document} (h : d'.outline layout.order = d.outline layout.order) :
    build layout d' = build layout d := by
  rw [build, writeDocument, h]
  rfl

/-- **Whatever stands in the places of entries**, the same document is read. -/
theorem readDocument_of_places {o : Outline} {bs bytes : Bytes} {inp rest : Input}
    (hcount : o.items.length < 2 ^ 32) (hr : ∀ it ∈ o.items, Readable limit 0 it)
    (hbs : Fills (slots layout o) bs) (htakes : inp.Takes bs rest)
    (hlen : bytes.length = inp.bytes.length)
    (hsame : ∀ i : Nat, (slots layout o)[i]? ≠ some .place → bytes[i]? = inp.bytes[i]?) :
    readDocument layout limit ⟨bytes, inp.offset⟩ =
      .ok (.ofItems o.sorted o.items, ⟨bytes.drop bs.length, inp.offset + bs.length⟩) := by
  have hle : bs.length ≤ bytes.length := by
    rw [hlen, htakes.bytes, List.length_append]
    omega
  have htake : (bytes.take bs.length).length = bs.length := List.length_take_of_le hle
  have hfill : Fills (slots layout o) (bytes.take bs.length) := by
    refine hbs.of_places htake fun i hi => ?_
    rw [List.getElem?_take]
    split
    next hlt => rw [hsame i hi, htakes.bytes, List.getElem?_append_left hlt]
    next hge => rw [List.getElem?_eq_none (Nat.le_of_not_lt hge)]
  exact readDocument_slots hr hcount hfill (Input.takes_drop hle)

/-- **Encoding undoes decoding** on everything that the reader accepts, with as many bytes as were
read.

In the plain layout these are the bytes that were read, with every flag settled.  In the grouped
layout they are read as an equal document, which has the same encoding; and whatever else stands in
the places of entries, the same document is read from as many bytes. -/
theorem readDocument_build {inp rest : Input}
    (h : readDocument layout maxDepth inp = .ok (d, rest)) :
    ∃ e, build layout d = .ok e ∧ e.length ≤ inp.bytes.length ∧ rest = inp.drop e.length ∧
      Fills (slots layout (d.outline .insertion)) (inp.bytes.take e.length) ∧
      (layout = .plain →
        e = settle (slots .plain (d.outline .insertion)) (inp.bytes.take e.length)) ∧
      (layout = .grouped →
        (∃ d', parse .grouped e = .ok d' ∧ (d' == d) = true ∧ build .grouped d' = .ok e) ∧
        ∀ bytes : Bytes, bytes.length = inp.bytes.length →
          (∀ i : Nat, (slots .grouped (d.outline .insertion))[i]? ≠ some .place →
            bytes[i]? = inp.bytes[i]?) →
          readDocument .grouped maxDepth ⟨bytes, inp.offset⟩ =
            .ok (d, ⟨bytes.drop e.length, inp.offset + e.length⟩)) := by
  obtain ⟨o, bs, rfl, hbare, hcount, hr, hbs, htakes⟩ := readDocument_ok (by decide) h
  have hd := Document.built_ofItems o.sorted o.items
  have houtline : (Document.ofItems o.sorted o.items).outline .insertion = o := by
    rw [Document.outline_ofItems]
    exact hbare
  obtain ⟨he, hc⟩ := encodable_of_readable houtline hcount hr
  have hlen : (encoding layout ((Document.ofItems o.sorted o.items).outline layout.order)).length =
      bs.length := by
    rw [length_encoding_order hd, houtline, ← (fills_encoding layout o).length_eq, hbs.length_eq]
  refine ⟨_, build_eq he hd layout, ?_, ?_, ?_, ?_, ?_⟩
  · rw [hlen, htakes.bytes, List.length_append]
    omega
  · rw [hlen, htakes.eq_drop]
  · rw [hlen, htakes.eq_take, houtline]
    exact hbs
  · rintro rfl
    rw [hlen, htakes.eq_take, Layout.order, houtline, settle_slots hbs]
  · rintro rfl
    obtain ⟨d', hparse, hchosen⟩ := parse_encoding he hc hd .grouped
    have hsame : d'.outline .chosen = (Document.ofItems o.sorted o.items).outline .chosen := by
      rw [hchosen, hd.outline_chosen, Outline.bare_arranged, houtline, hbare]
    have hbuild : build .grouped d' = build .grouped (.ofItems o.sorted o.items) :=
      build_congr hsame
    refine ⟨⟨d', hparse, decide_eq_true hsame, ?_⟩, fun bytes hbytes hplaces => ?_⟩
    · rw [hbuild, build_eq he hd .grouped]
    · rw [houtline] at hplaces
      rw [hlen]
      exact readDocument_of_places hcount hr hbs htakes hbytes hplaces

/-- A sorted document with a parameter and a block, with no sense in the places, and a byte behind
it.  The flag of the block is neither zero nor one. -/
def sampleBytes : Bytes :=
  [1, 2, 0, 0, 0,
    0xAA, 0xAA, 0xAA, 0xAA, 0xBB, 0xBB, 0xBB, 0xBB, 1, 0x62, 0, 0, 0, 0x78, 0, 0, 0,
    0xCC, 0xCC, 0xCC, 0xCC, 0xDD, 0xDD, 0xDD, 0xDD, 2, 0x61, 0, 0, 0, 7, 0, 0, 0, 0, 0xFF]

/-- A document is read from bytes that no writer makes, and encoded again. -/
theorem readDocument_build_sample :
    ∃ d, readDocument .grouped maxDepth ⟨sampleBytes, 0⟩ = .ok (d, ⟨[0xFF], 40⟩) ∧
      ∃ e d', build .grouped d = .ok e ∧ e.length = 40 ∧ parse .grouped e = .ok d' ∧
        (d' == d) = true ∧ build .grouped d' = .ok e := by
  let o : Outline := ⟨true, [.param "b" "x" "", .block "a" false [] ""]⟩
  have hr : ∀ it ∈ o.items, Readable maxDepth 0 it :=
    List.forall_mem_cons.mpr ⟨readable_param ⟨by decide, by decide⟩ (by decide),
      List.forall_mem_singleton.mpr
        (readable_block ⟨by decide, by decide, by decide⟩ fun _ h => absurd h List.not_mem_nil)⟩
  have hfill : Fills (slots .grouped o) (sampleBytes.take 40) := by decide +kernel
  have htakes : (⟨sampleBytes, 0⟩ : Input).Takes (sampleBytes.take 40) ⟨[0xFF], 40⟩ := ⟨rfl, rfl⟩
  have hread := readDocument_slots hr (by decide) hfill htakes
  obtain ⟨e, hbuild, hle, hrest, -, -, hgrouped⟩ := readDocument_build hread
  obtain ⟨⟨d', hparse, hsame, hagain⟩, -⟩ := hgrouped rfl
  have hlen : e.length = 40 := ((Nat.zero_add _).symm.trans (congrArg Input.offset hrest).symm)
  exact ⟨_, hread, e, d', hbuild, hlen, hparse, hsame, hagain⟩

end BlockDoc.Binary
