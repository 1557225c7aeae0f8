/-
# Data that end too early

An encoding has no length in front of it, but every byte of it says whether more bytes belong to
the document: a count says how many entries follow, and a text goes on up to a zero unit.  So the
reader notices wherever the data end inside a document, and it never looks behind the last byte.

Both are said at once of a step of reading and of the bytes that it takes (`ReadsAs`): all of them
give a result, whatever follows, and a part of them gives the error that data are missing.  This
holds of words and of texts, and it passes on to a step that is followed by another one
(`ReadsAs.bind`), because a cut falls either into the bytes of the first step, or behind them, and
then the first step does what it does without the cut.  No check comes too early: a kind or a level
that is refused would have been refused in the data that were read to the end.

Main statement: `readDocument_cut`.
-/
import BlockDoc.Proofs.Binary.Descent

namespace BlockDoc.Binary

variable {α β : Type} {layout : Layout} {limit : Nat}

/-! ## 1. Steps that notice a cut -/

/-- Some bytes are read as `a`: all of them give `a`, whatever follows them, and a part of them is
data that end too early. -/
structure ReadsAs (read : Input → Except Error (α × Input)) (bs : Bytes) (a : α) : Prop where
  /-- The bytes are taken, and no more. -/
  whole : ∀ {inp rest : Input}, inp.Takes bs rest → read inp = .ok (a, rest)
  /-- Without the last of them the data end. -/
  cut : ∀ {k : Nat}, k < bs.length → ∀ offset,
    ∃ region, read ⟨bs.take k, offset⟩ = .error (.unexpectedEof region)

/-- Whatever a step takes is read as what the step gives. -/
def SelfDelimiting (read : Input → Except Error (α × Input)) : Prop :=
  ∀ (inp rest : Input) (a : α), read inp = .ok (a, rest) →
    ∃ bs, inp.Takes bs rest ∧ ReadsAs read bs a

variable {f : Input → Except Error (α × Input)} {g : α → Input → Except Error (β × Input)}

theorem ReadsAs.nothing (a : α) : ReadsAs (fun inp => .ok (a, inp)) [] a where
  whole h := by rw [Input.takes_nil.mp h]
  cut h := absurd h (Nat.not_lt_zero _)

/-- **One step after the other.**  A cut falls into the bytes of the first, or behind them. -/
theorem ReadsAs.bind {as bs : Bytes} {a : α} {b : β} (hf : ReadsAs f as a)
    (hg : ReadsAs (g a) bs b) : ReadsAs (fun inp => f inp >>= fun r => g r.1 r.2) (as ++ bs) b where
  whole h := by
    obtain ⟨mid, has, hbs⟩ := Input.takes_append.mp h
    rw [hf.whole has, ok_bind]
    exact hg.whole hbs
  cut {k} hk offset := by
    rcases Nat.lt_or_ge k as.length with hlt | hge
    · obtain ⟨region, hcut⟩ := hf.cut hlt offset
      refine ⟨region, ?_⟩
      rw [List.take_append_of_le_length hlt.le, hcut]
      rfl
    · obtain ⟨n, rfl⟩ := Nat.exists_eq_add_of_le hge
      rw [List.length_append] at hk
      obtain ⟨region, hcut⟩ := hg.cut (Nat.lt_of_add_lt_add_left hk) (offset + as.length)
      refine ⟨region, ?_⟩
      have hmid : Input.Takes ⟨as ++ bs.take n, offset⟩ as ⟨bs.take n, offset + as.length⟩ :=
        ⟨rfl, rfl⟩
      rw [List.take_length_add_append, hf.whole hmid, ok_bind]
      exact hcut

theorem SelfDelimiting.nothing (a : α) : SelfDelimiting (fun inp => .ok (a, inp)) := by
  intro inp rest b h
  cases h
  exact ⟨[], Input.takes_nil.mpr rfl, .nothing a⟩

theorem SelfDelimiting.refusal (e : Error) :
    SelfDelimiting (fun _ => .error e : Input → Except Error (α × Input)) := by
  intro inp rest a h
  cases h

/-- **Steps that notice a cut** make a longer step that does. -/
theorem SelfDelimiting.bind (hf : SelfDelimiting f) (hg : ∀ a, SelfDelimiting (g a)) :
    SelfDelimiting (fun inp => f inp >>= fun r => g r.1 r.2) := by
  intro inp rest b h
  obtain ⟨⟨a, mid⟩, hfirst, hsecond⟩ := bind_eq_ok.1 h
  obtain ⟨as, has, hreads⟩ := hf _ _ _ hfirst
  obtain ⟨bs, hbs, hreads'⟩ := hg a _ _ _ hsecond
  exact ⟨as ++ bs, has.trans hbs, hreads.bind hreads'⟩

/-! ## 2. The parts of an encoding -/

namespace Input

theorem selfDelimiting_word (width : Nat) (region : Region) :
    SelfDelimiting fun inp => inp.word width region := by
  intro inp rest n h
  obtain ⟨bs, rfl, rfl, htakes⟩ := word_eq_ok.mp h
  refine ⟨bs, htakes, fun htakes' => word_eq_ok.mpr ⟨bs, rfl, rfl, htakes'⟩, fun hk offset => ?_⟩
  refine ⟨region, if_neg ?_⟩
  rw [List.take_take, List.length_take]
  omega

/-- A part of the units up to a zero unit has no zero unit. -/
theorem unitsBeforeZero?_take {bs : Bytes} {us : List Nat} (h : unitsBeforeZero? bs = some us)
    {k : Nat} (hk : k < 2 * (us.length + 1)) : unitsBeforeZero? (bs.take k) = none := by
  fun_induction unitsBeforeZero? bs generalizing us k with
  | case1 lo hi rest _ =>
    cases h
    rcases k with _ | _ | k
    · rfl
    · rfl
    · rw [List.length_nil] at hk
      omega
  | case2 lo hi rest hne ih =>
    obtain ⟨vs, hvs, rfl⟩ := Option.map_eq_some_iff.mp h
    rw [List.length_cons] at hk
    rcases k with _ | _ | k
    · rfl
    · rfl
    · rw [List.take_succ_cons, List.take_succ_cons, unitsBeforeZero?, if_neg hne,
        ih hvs (by omega), Option.map_none]
  | case3 => cases h

theorem selfDelimiting_wideString : SelfDelimiting wideString := by
  intro inp rest s h
  obtain ⟨hnul, htakes⟩ := wideString_eq_ok.mp h
  refine ⟨wideBytes s, htakes, fun htakes' => wideString_eq_ok.mpr ⟨hnul, htakes'⟩,
    fun hk offset => ⟨.wideString, ?_⟩⟩
  have hunits : unitsBeforeZero? (wideBytes s) = some (Text.units s.toList) := by
    have happend := unitsBeforeZero?_append (r := []) fun u (hu : u ∈ Text.units s.toList) =>
      ⟨fun e => hnul (Text.zero_mem_units_iff.mp (e ▸ hu)), Text.lt_of_mem_units hu⟩
    rwa [List.append_nil] at happend
  rw [length_wideBytes] at hk
  rw [wideString, unitsBeforeZero?_take hunits hk]

theorem selfDelimiting_header (region : Region) :
    SelfDelimiting fun inp => inp.header region :=
  have hflag : SelfDelimiting fun inp => inp.flag region :=
    (selfDelimiting_word 1 region).bind fun b => .nothing (b == 1)
  hflag.bind fun sorted => (selfDelimiting_word 4 region).bind fun count => .nothing (sorted, count)

/-- The group words of an entry, as a step that gives nothing. -/
def places (layout : Layout) (sorted : Bool) (inp : Input) : Except Error (Unit × Input) :=
  (inp.place layout sorted).map fun rest => ((), rest)

theorem selfDelimiting_places (layout : Layout) (sorted : Bool) :
    SelfDelimiting (places layout sorted) := by
  by_cases hplaces : layout.hasPlaces sorted = true
  · have hwords : places layout sorted = fun inp => inp.word 4 .groupHeader >>= fun r =>
        r.2.word 4 .groupHeader >>= fun r => .ok ((), r.2) := by
      funext inp
      rw [places, place, if_pos hplaces]
      cases inp.word 4 .groupHeader with
      | error e => rfl
      | ok r =>
        obtain ⟨index, mid⟩ := r
        rw [ok_bind, ok_bind]
        dsimp only
        cases mid.word 4 .groupHeader <;> rfl
    rw [hwords]
    exact (selfDelimiting_word 4 _).bind fun _ => (selfDelimiting_word 4 _).bind fun _ => .nothing ()
  · have hnone : places layout sorted = fun inp => .ok ((), inp) := by
      funext inp
      rw [places, place, if_neg hplaces]
      rfl
    rw [hnone]
    exact .nothing ()

/-- What follows the name of an entry. -/
def content (limit level kind : Nat) (name : String) (inp : Input) :
    Except Error (Piece × Input) :=
  match Kind.ofByte? (UInt8.ofNat kind) with
  | some .param => inp.wideString >>= fun r => .ok (.param name r.1, r.2)
  | some .block =>
    if level ≥ limit then .error (.nestingTooDeep limit)
    else inp.header .blockHeader >>= fun r => .ok (.block name r.1.1 r.1.2, r.2)
  | _ => .error (.invalidKind (UInt8.ofNat kind))

theorem selfDelimiting_content (limit level kind : Nat) (name : String) :
    SelfDelimiting (content limit level kind name) := by
  unfold content
  split
  · exact selfDelimiting_wideString.bind fun text => .nothing (Piece.param name text)
  · split
    · exact .refusal _
    · exact (selfDelimiting_header _).bind fun r => .nothing (Piece.block name r.1 r.2)
  · exact .refusal _

theorem piece_eq_bind (layout : Layout) (limit level : Nat) (sorted : Bool) (inp : Input) :
    inp.piece layout limit level sorted = (inp.places layout sorted >>= fun r =>
      r.2.word 1 .entryKind >>= fun kind => kind.2.wideString >>= fun name =>
        content limit level kind.1 name.1 name.2) := by
  rw [piece, places]
  cases inp.place layout sorted with
  | error e => rfl
  | ok rest => rfl

theorem selfDelimiting_piece (layout : Layout) (limit level : Nat) (sorted : Bool) :
    SelfDelimiting fun inp => inp.piece layout limit level sorted := by
  simp only [piece_eq_bind]
  exact (selfDelimiting_places layout sorted).bind fun _ =>
    (selfDelimiting_word 1 _).bind fun kind => selfDelimiting_wideString.bind fun name =>
      selfDelimiting_content limit level kind name

end Input

/-! ## 3. The run -/

/-- Reading goes on behind a piece. -/
def readBehind (layout : Layout) (limit : Nat) (d : Document) (left : Nat) (name : String)
    (depth : Nat) (stack : List Frame) : Piece → Input → Except Error (Document × Input)
  | .param key text, rest =>
    readFrames layout limit ⟨d.set key (.param text), left, name, depth⟩ stack rest
  | .block key sorted count, rest =>
    readFrames layout limit ⟨.empty sorted, count, key, depth + 1⟩
      (⟨d, left + 1, name, depth⟩ :: stack) rest

theorem readFrames_eq_bind (d : Document) (left : Nat) (name : String) (depth : Nat)
    (stack : List Frame) (inp : Input) :
    readFrames layout limit ⟨d, left + 1, name, depth⟩ stack inp =
      (inp.piece layout limit (depth + 1) d.sorted >>= fun r =>
        readBehind layout limit d left name depth stack r.1 r.2) := by
  cases hp : inp.piece layout limit (depth + 1) d.sorted with
  | error e => exact readFrames_error hp
  | ok r =>
    obtain ⟨p, rest⟩ := r
    cases p with
    | param key text => exact readFrames_param hp
    | block key sorted count => exact readFrames_block hp

/-- A piece was read, and then the rest. -/
theorem readsAs_behind {d d' : Document} {left depth : Nat} {name : String} {stack : List Frame}
    {p : Piece} {inp mid rest : Input}
    (hp : inp.piece layout limit (depth + 1) d.sorted = .ok (p, mid))
    (h : ∃ bs, mid.Takes bs rest ∧
      ReadsAs (readBehind layout limit d left name depth stack p) bs d') :
    ∃ bs, inp.Takes bs rest ∧
      ReadsAs (readFrames layout limit ⟨d, left + 1, name, depth⟩ stack) bs d' := by
  obtain ⟨as, has, hpiece⟩ := Input.selfDelimiting_piece _ _ _ _ _ _ _ hp
  obtain ⟨bs, hbs, hrest⟩ := h
  refine ⟨as ++ bs, has.trans hbs, ?_⟩
  rw [funext (readFrames_eq_bind d left name depth stack)]
  exact hpiece.bind hrest

/-- **Reading notices a cut** wherever it stands, by induction along the run. -/
theorem selfDelimiting_readFrames (top : Frame) (stack : List Frame) :
    SelfDelimiting (readFrames layout limit top stack) := by
  intro inp rest d h
  fun_induction readFrames layout limit top stack inp with
  | case1 top inp hm =>
    have hdone : readFrames layout limit top [] = fun inp => .ok (top.document, inp) := by
      funext inp
      rw [readFrames.eq_def]
      simp only [hm]
    rw [hdone]
    exact SelfDelimiting.nothing _ _ _ _ h
  | case2 top inp hm parent outer closed ih =>
    -- a document is closed, which takes no bytes
    have hclose : readFrames layout limit top (parent :: outer) = readFrames layout limit
        { parent with document := closed, missing := parent.missing - 1 } outer := by
      funext inp
      conv_lhs => rw [readFrames.eq_def]
      simp only [hm, closed]
    rw [hclose]
    exact ih h
  | case3 => cases h
  | case4 top stack inp left hm name text mid hp ih =>
    obtain ⟨d', missing, name', depth⟩ := top
    obtain rfl : missing = left + 1 := hm
    exact readsAs_behind hp (ih h)
  | case5 top stack inp left hm name sorted count mid hp ih =>
    obtain ⟨d', missing, name', depth⟩ := top
    obtain rfl : missing = left + 1 := hm
    exact readsAs_behind hp (ih h)

theorem selfDelimiting_readDocument : SelfDelimiting (readDocument layout limit) :=
  (Input.selfDelimiting_header _).bind fun r =>
    selfDelimiting_readFrames ⟨.empty r.1, r.2, "", 0⟩ []

/-- **A document that is cut is never read as another one**: if it takes `n` bytes, any smaller
number of them is refused because data are missing, and for no other reason.  What stands behind
the `n` bytes does not matter.  Both hold wherever the reader stands in its data. -/
theorem readDocument_cut {bytes : Bytes} {rest : Input} {d : Document}
    (h : readDocument layout limit ⟨bytes, 0⟩ = .ok (d, rest)) :
    (∀ k < rest.offset, ∀ offset, ∃ region,
      readDocument layout limit ⟨bytes.take k, offset⟩ = .error (.unexpectedEof region)) ∧
    (∀ tail offset, readDocument layout limit ⟨bytes.take rest.offset ++ tail, offset⟩ =
      .ok (d, ⟨tail, offset + rest.offset⟩)) ∧
    (limit = maxDepth →
      (∀ k < rest.offset, ∃ region, parse layout (bytes.take k) = .error (.unexpectedEof region)) ∧
      ∀ tail, parse layout (bytes.take rest.offset ++ tail) = .ok d) := by
  obtain ⟨bs, htakes, hreads⟩ := selfDelimiting_readDocument _ _ _ h
  have hlen : rest.offset = bs.length := htakes.offset.trans (Nat.zero_add _)
  have hcut : ∀ k < bs.length, bytes.take k = bs.take k := by
    intro k hk
    rw [← htakes.eq_take, List.take_take, Nat.min_eq_left hk.le]
  have hshort : ∀ k < rest.offset, ∀ offset, ∃ region,
      readDocument layout limit ⟨bytes.take k, offset⟩ = .error (.unexpectedEof region) := by
    intro k hk offset
    rw [hlen] at hk
    rw [hcut k hk]
    exact hreads.cut hk offset
  have hmore : ∀ tail offset, readDocument layout limit ⟨bytes.take rest.offset ++ tail, offset⟩ =
      .ok (d, ⟨tail, offset + rest.offset⟩) := by
    intro tail offset
    rw [hlen, htakes.eq_take]
    exact hreads.whole ⟨rfl, rfl⟩
  refine ⟨hshort, hmore, ?_⟩
  rintro rfl
  refine ⟨fun k hk => ?_, fun tail => ?_⟩
  · obtain ⟨region, hk⟩ := hshort k hk 0
    exact ⟨region, by rw [parse, hk]; rfl⟩
  · rw [parse, hmore, ok_bind]

/-- A document with a block, in which there is a character of two units. -/
def paired : Outline := ⟨false, [.block "b" true [.param "a" "😀" ""] ""]⟩

/-- Its encoding, and a byte behind it. -/
def pairedBytes : Bytes :=
  [0, 1, 0, 0, 0, 2, 0x62, 0, 0, 0, 1, 1, 0, 0, 0,
    1, 0x61, 0, 0, 0, 0x3D, 0xD8, 0x00, 0xDE, 0, 0, 0]

/-- A document is cut between the two units of a character, and followed by another byte. -/
theorem readDocument_cut_paired :
    ∃ d, readDocument .plain maxDepth ⟨pairedBytes, 0⟩ = .ok (d, ⟨[0], 26⟩) ∧
      (∃ region, parse .plain (pairedBytes.take 22) = .error (.unexpectedEof region)) ∧
      parse .plain (pairedBytes.take 26 ++ [0xFF]) = .ok d := by
  have hr : ∀ it ∈ paired.items, Readable maxDepth 0 it :=
    List.forall_mem_singleton.mpr (readable_block ⟨by decide, by decide, by decide⟩
      (List.forall_mem_singleton.mpr (readable_param ⟨by decide, by decide⟩ (by decide))))
  have hread : readDocument .plain maxDepth ⟨encoding .plain paired ++ [0], 0⟩ = _ :=
    readDocument_encoding hr (by decide) [0] 0
  have hbytes : encoding .plain paired ++ [0] = pairedBytes := by decide +kernel
  have hlen : (encoding .plain paired).length = 26 := by decide +kernel
  rw [hbytes, hlen] at hread
  obtain ⟨hcut, hmore⟩ := (readDocument_cut hread).2.2 rfl
  exact ⟨_, hread, hcut 22 (by decide), hmore [0xFF]⟩

end BlockDoc.Binary
