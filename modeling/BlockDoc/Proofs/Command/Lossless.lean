/-
# What a conversion to a binary form keeps

Encoding or packing reads a dump and writes a binary document or an archive.  Nearly all that a dump
can say is carried over.  The document was built, every entry has a content and no comment, its
blocks fit the limit of the writer (`Loaded`); and if the encoding is not too large, the number of
entries of every block fits into its word.  What was written at the output path is read there, so
the document is read back (`encode_readable_iff`, `pack_readable_iff`).

The exception is the character U+0000.  A dump may have it in a value or a name, but in a binary
document it ends a text.  The writer does not look for it, so such a conversion succeeds and what is
read back is another document.
-/
import BlockDoc.Command.Convert
import BlockDoc.Proofs.Archive.RoundTrip
import BlockDoc.Proofs.Dump.Image
import BlockDoc.Proofs.Files.Store

namespace BlockDoc.Command

open Binary (Clean)

variable {z : Compression} {s s' : Store} {c : Config} {d : Document}

/-! ## 1. Documents from dumps -/

/-- What is known of a document that was loaded from a dump. -/
structure Loaded (d : Document) : Prop where
  /-- It was built. -/
  built : d.Built
  /-- Every entry has a content. -/
  defined : d.Each fun x => x.isUndef = false
  /-- There are no comments. -/
  comment : d.Each fun x => x.comment = ""
  /-- The blocks fit the limit. -/
  depth : (d.outline .insertion).depth < maxDepth

theorem loaded_of_loadFile {files : FileReader} {charset : Charset} {path : String}
    (h : Dump.loadFile files { charset } path = .ok d) : Loaded d where
  built := Dump.kept_built.of_loadFile h
  defined x hx := (Dump.kept_wasRead.of_loadFile h x hx).defined
  comment x hx := (Dump.kept_wasRead.of_loadFile h x hx).comment
  depth := by
    have hfits : (Dump.Source.ofFile path).read files { charset } = .ok d := h
    rcases (Dump.Source.read_fits hfits).2 with h0 | hlt
    · exact lt_of_eq_of_lt h0 (by decide)
    · exact hlt

/-- What is written of a document is not larger than a frame may be. -/
def Small (layout : Binary.Layout) (d : Document) : Prop :=
  ∀ payload, Binary.build layout d = .ok payload → payload.length ≤ Frame.maxPayload

theorem Loaded.encodable (h : Loaded d) {layout : Binary.Layout} (hsmall : Small layout d) :
    Binary.Encodable d :=
  .of_size h.built h.defined h.depth layout fun payload hp =>
    lt_of_le_of_lt (hsmall payload hp) (by decide)

/-- **A document from a dump is encoded**: nothing in it could not be written. -/
theorem Loaded.emission_binary (h : Loaded d) (layout : Binary.Layout) :
    Binary.emission layout d =
      ⟨some (Binary.encoding layout (d.outline layout.order)), .ok ()⟩ := by
  have hwrite : Binary.writeOutline layout maxDepth (d.outline layout.order) = _ :=
    Binary.writeOutline_eq (Binary.writable_order h.built h.defined h.depth layout)
  rw [Binary.emission, Binary.writeDocument, hwrite]

/-- **A document from a dump is packed**, and the archive is opened to its encoding. -/
theorem Loaded.emission_archive (h : Loaded d) (hz : z.Inverts) (hsmall : Small .grouped d)
    (seed : Int32) :
    ∃ data, Archive.emission seed d z = ⟨some data, .ok ()⟩ ∧ Archive.parse data z =
      Binary.parse .grouped (Binary.encoding .grouped (d.outline Binary.Layout.grouped.order)) := by
  have hpayload := Binary.build_eq (h.encodable hsmall) h.built .grouped
  obtain ⟨frame, hcompress, hdecompress⟩ := Frame.decompress_compress hz (hsmall _ hpayload)
  have hbuild : Archive.build d seed z = .ok (Archive.lock frame seed) := by
    rw [Archive.build, hpayload, ok_bind, hcompress, ok_bind]
  refine ⟨Archive.lock frame seed, by rw [Archive.emission, hbuild], ?_⟩
  rw [Archive.parse, Archive.unlock_lock, ok_bind, hdecompress, ok_bind]

/-! ## 2. What is left behind -/

/-- Something is written unless writing failed. -/
def Writes (e : Emission) : Prop := e.result = .ok () → ∃ bytes, e = ⟨some bytes, .ok ()⟩

theorem writes_dump (charset : Charset) (d : Document) :
    Writes (Dump.emission charset d) := by
  unfold Dump.emission
  split
  next bytes _ => exact fun _ => ⟨bytes, rfl⟩
  next => exact fun h => by cases h

theorem writes_binary (layout : Binary.Layout) (d : Document) :
    Writes (Binary.emission layout d) :=
  fun h => ⟨_, congrArg (Emission.mk _) h⟩

theorem writes_archive (seed : Int32) (d : Document) (z : Compression) :
    Writes (Archive.emission seed d z) := by
  unfold Archive.emission
  split
  next bytes _ => exact fun _ => ⟨bytes, rfl⟩
  next => exact fun h => by cases h

theorem writes_outputOf (charset : Charset) (d : Document) (conversion : Conversion)
    (z : Compression) : Writes (outputOf charset d conversion z) := by
  cases conversion with
  | unpack => exact writes_dump charset d
  | pack seed => exact writes_archive seed d z
  | decode grouped => exact writes_dump charset d
  | encode grouped => exact writes_binary _ d
  | code => exact writes_dump charset d

/-- **An emission that succeeds** leaves its content in the file. -/
theorem emit_eq_ok {path : String} {e : Emission} (he : Writes e) :
    s.emit path e = (s', .ok ()) ↔
      ∃ bytes, e = ⟨some bytes, .ok ()⟩ ∧ s.write path bytes = .ok s' := by
  constructor
  · intro h
    obtain ⟨content?, result⟩ := e
    unfold Store.emit at h
    cases content? with
    | none =>
      cases h
      obtain ⟨bytes, e⟩ := he rfl
      cases e
    | some bytes =>
      dsimp only at h
      split at h
      next => cases h
      next s'' hwrite =>
        cases h
        exact ⟨bytes, rfl, hwrite⟩
  · rintro ⟨bytes, rfl, hwrite⟩
    simp only [Store.emit, hwrite]

/-- What a request reads and what it writes for that. -/
theorem plan_eq_ok {files : FileReader} {e : Emission} : plan files c z = .ok (d, e) ↔
    ∃ charset, c.charset = .ok charset ∧ readInput files charset c z = .ok d ∧
      e = outputOf charset d c.conversion z := by
  constructor
  · intro h
    obtain ⟨charset, hcharset, h⟩ := bind_eq_ok.1 h
    obtain ⟨d', hread, h⟩ := bind_eq_ok.1 h
    cases h
    exact ⟨charset, mapError_eq_ok.1 hcharset, hread, rfl⟩
  · rintro ⟨charset, hcharset, hread, rfl⟩
    exact bind_eq_ok.2 ⟨charset, mapError_eq_ok.2 hcharset, bind_eq_ok.2 ⟨d, hread, rfl⟩⟩

/-- **A conversion succeeds** if the label is one of a character set, the input can be read, and
what is written for its document can be written to the output path. -/
theorem run_eq_ok : run s c z = (s', .ok d) ↔
    ∃ charset bytes, c.charset = .ok charset ∧ readInput s.read charset c z = .ok d ∧
      outputOf charset d c.conversion z = ⟨some bytes, .ok ()⟩ ∧
      s.write c.output bytes = .ok s' := by
  constructor
  · intro h
    unfold run at h
    split at h
    next => cases h
    next d₀ e hplan =>
      obtain ⟨charset, hcharset, hread, rfl⟩ := plan_eq_ok.1 hplan
      cases hemit : s.emit c.output (outputOf charset d₀ c.conversion z) with
      | mk s₁ result =>
        rw [hemit] at h
        cases result with
        | error e => cases h
        | ok _ =>
          cases h
          obtain ⟨bytes, he, hwrite⟩ := (emit_eq_ok (writes_outputOf _ _ _ _)).1 hemit
          exact ⟨charset, bytes, hcharset, hread, he, hwrite⟩
  · rintro ⟨charset, bytes, hcharset, hread, hout, hwrite⟩
    have hplan : plan s.read c z = .ok (d, ⟨some bytes, .ok ()⟩) :=
      plan_eq_ok.2 ⟨charset, hcharset, hread, hout.symm⟩
    have hemit : s.emit c.output ⟨some bytes, .ok ()⟩ = (s', .ok ()) :=
      (emit_eq_ok fun _ => ⟨bytes, rfl⟩).2 ⟨bytes, rfl, hwrite⟩
    simp only [run, hplan, hemit]
    rfl

/-! ## 3. What is read back -/

/-- **An encoded dump is read back** if and only if it has no U+0000. -/
theorem encode_readable_iff {grouped : Bool} (hc : c.conversion = .encode grouped)
    (hrun : run s c z = (s', .ok d)) (hsmall : Small (layoutOf grouped) d) :
    (∃ d', Binary.loadFile s'.read (layoutOf grouped) c.output = .ok d' ∧ (d' == d) = true) ↔
      Clean d := by
  obtain ⟨charset, bytes, -, hread, hout, hwritten⟩ := run_eq_ok.1 hrun
  rw [readInput, hc] at hread
  rw [hc] at hout
  have hl := loaded_of_loadFile (mapError_eq_ok.1 hread)
  have hcontent := congrArg Emission.content? ((hl.emission_binary (layoutOf grouped)).symm.trans hout)
  obtain rfl := Option.some.inj hcontent
  rw [Binary.loadFile, Store.read_write hwritten]
  exact Binary.parse_encoding_iff (hl.encodable hsmall) hl.built hl.comment (layoutOf grouped)

/-- **A packed dump is read back** if and only if it has no U+0000. -/
theorem pack_readable_iff (hz : z.Inverts) {seed : Int32} (hc : c.conversion = .pack seed)
    (hrun : run s c z = (s', .ok d)) (hsmall : Small .grouped d) :
    (∃ d', Archive.loadFile s'.read c.output z = .ok d' ∧ (d' == d) = true) ↔
      Clean d := by
  obtain ⟨charset, bytes, -, hread, hout, hwritten⟩ := run_eq_ok.1 hrun
  rw [readInput, hc] at hread
  rw [hc] at hout
  have hl := loaded_of_loadFile (mapError_eq_ok.1 hread)
  obtain ⟨data, hemission, hopened⟩ := hl.emission_archive hz hsmall seed
  have hcontent := congrArg Emission.content? (hemission.symm.trans hout)
  obtain rfl := Option.some.inj hcontent
  rw [Archive.loadFile, Store.read_write hwritten]
  simp only [hopened]
  exact Binary.parse_encoding_iff (hl.encodable hsmall) hl.built hl.comment .grouped

/-- **What encoding and packing keep**: if nothing is too large, reading the output back gives the
document that was written if and only if the document has no U+0000 in a name or a text. -/
theorem run_readable_iff (hz : z.Inverts) (hrun : run s c z = (s', .ok d)) :
    (∀ grouped, c.conversion = .encode grouped → Small (layoutOf grouped) d →
      ((∃ d', Binary.loadFile s'.read (layoutOf grouped) c.output = .ok d' ∧ (d' == d) = true) ↔
        Clean d)) ∧
    (∀ seed, c.conversion = .pack seed → Small .grouped d →
      ((∃ d', Archive.loadFile s'.read c.output z = .ok d' ∧ (d' == d) = true) ↔
        Clean d)) :=
  ⟨fun _ hc hsmall => encode_readable_iff hc hrun hsmall,
    fun _ hc hsmall => pack_readable_iff hz hc hrun hsmall⟩

/-! ## 4. One parameter -/

/-- Files with nothing but a dump. -/
def dumped (content : Bytes) : Store := ⟨[(["in.txt"], .file content)], []⟩

/-- The request to encode it, with the usual settings. -/
def encodeDump : Config := ⟨"windows-1251", "info", .encode false, "in.txt", "out.bin"⟩

/-- A document with one parameter. -/
def single (value : String) : Document := .ofItems true [.param "a" value ""]

/-- Its encoding. -/
def singleBytes (value : String) : Bytes := Binary.encoding .plain ⟨true, [.param "a" value ""]⟩

theorem outline_single (value : String) :
    (single value).outline .insertion = ⟨true, [.param "a" value ""]⟩ :=
  Document.outline_ofItems _ _

theorem outline_single_chosen (value : String) :
    (single value).outline .chosen = ⟨true, [.param "a" value ""]⟩ :=
  Dump.outline_ofItems_single rfl rfl

theorem items_single (value : String) :
    (single value).items .chosen = [.param "a" value ""] :=
  congrArg Outline.items (outline_single_chosen value)

theorem writable_single (value : String) :
    ∀ it ∈ [Item.param "a" value ""], Binary.Writable maxDepth 0 it := by
  simp [Binary.Writable, Item.preorder, Item.isUndef, Item.depth, maxDepth]

theorem writeDocument_single (layout : Binary.Layout) (value : String) :
    Binary.writeDocument layout maxDepth (single value) =
      (Binary.encoding layout ⟨true, [.param "a" value ""]⟩, .ok ()) := by
  have hwrite : Binary.writeOutline layout maxDepth ⟨true, [.param "a" value ""]⟩ = _ :=
    Binary.writeOutline_eq (writable_single value)
  have houtline : (single value).outline layout.order = ⟨true, [.param "a" value ""]⟩ := by
    cases layout with
    | plain => exact outline_single value
    | grouped => exact outline_single_chosen value
  rw [Binary.writeDocument, houtline, hwrite]

/-- Its encoding is read back, whatever follows it. -/
theorem parse_single {value : String} (h : Text.nul ∉ value.toList) (rest : Bytes) :
    Binary.parse .plain (singleBytes value ++ rest) = .ok (single value) := by
  have hreadable : ∀ it ∈ [Item.param "a" value ""], Binary.Readable maxDepth 0 it := by
    intro it hit
    have hwritable := writable_single value it hit
    obtain rfl := List.mem_singleton.1 hit
    refine ⟨hwritable, ?_, by simp [Item.preorder, Item.children]⟩
    have hname : ¬ Text.nul = 'a' := by decide
    simp [Item.preorder, Item.texts, h, hname]
  have hback : Binary.readDocument .plain maxDepth ⟨singleBytes value ++ rest, 0⟩ =
      .ok (single value, _) :=
    Binary.readDocument_encoding (o := ⟨true, [.param "a" value ""]⟩) hreadable (by simp) rest 0
  rw [Binary.parse, hback]
  rfl

theorem small_single {layout : Binary.Layout} {value : String}
    (h : (Binary.encoding layout ⟨true, [.param "a" value ""]⟩).length ≤ Frame.maxPayload) :
    Small layout (single value) := by
  intro payload hpayload
  rw [Binary.build, writeDocument_single] at hpayload
  cases hpayload
  exact h

/-- A request with a label of a set is for this set. -/
theorem charset_of_label {set : Charset} (h : c.label ∈ set.labels) : c.charset = .ok set := by
  rw [Config.charset, Charset.ofLabel?_of_mem h]

/-- The usual label. -/
theorem usual_label : "windows-1251" ∈ Charset.windows1251.labels := by decide +kernel

/-- A request to encode the document puts its encoding into a file. -/
theorem run_encode_single {value : String} (hcharset : c.charset = .ok .windows1251)
    (hconversion : c.conversion = .encode false)
    (hread : Dump.loadFile s.read { charset := .windows1251 } c.input = .ok (single value))
    (hwrite : s.write c.output (singleBytes value) = .ok s') :
    run s c z = (s', .ok (single value)) := by
  have hinput : readInput s.read .windows1251 c z = .ok (single value) := by
    rw [readInput, hconversion]
    exact congrArg (inFile c.input) hread
  have hemission : outputOf .windows1251 (single value) c.conversion z =
      ⟨some (singleBytes value), .ok ()⟩ := by
    rw [hconversion, outputOf, Binary.emission, layoutOf, if_neg Bool.false_ne_true,
      writeDocument_single, singleBytes]
  exact run_eq_ok.2 ⟨_, _, hcharset, hinput, hemission, hwrite⟩

/-- The request puts the encoding into a file. -/
theorem run_encodeDump {content : Bytes} {value : String}
    (hread : Dump.loadFile (dumped content).read { charset := .windows1251 } "in.txt" =
      .ok (single value)) :
    ∃ s', run (dumped content) encodeDump z = (s', .ok (single value)) ∧
      s'.read "out.bin" = .ok (singleBytes value) := by
  have hwrite : (dumped content).write encodeDump.output (singleBytes value) = .ok _ := rfl
  have hset : encodeDump.charset = .ok .windows1251 := charset_of_label usual_label
  exact ⟨_, run_encode_single hset rfl hread hwrite, Store.read_write hwrite⟩

/-- A value without U+0000 is encoded and read back. -/
theorem run_readable_iff_single : Compression.zlib.Inverts ∧
    ∃ s', run (dumped [0x61, 0x3D, 0x78, 0x0A]) encodeDump = (s', .ok (single "x")) ∧
      Small .plain (single "x") ∧
      ∃ d', Binary.loadFile s'.read .plain "out.bin" = .ok d' ∧ (d' == single "x") = true := by
  have hread : (Dump.Source.ofFile "in.txt").read (dumped [0x61, 0x3D, 0x78, 0x0A]).read
      { charset := .windows1251 } = .ok (single "x") := Dump.Source.read_of_iterate (n := 2) rfl
  obtain ⟨s', hrun, -⟩ := run_encodeDump hread
  have hsmall : Small .plain (single "x") := small_single (by decide)
  have hclean : Clean (single "x") := by
    rw [Clean, Document.Each, outline_single]
    decide
  exact ⟨Compression.zlib_inverts, s', hrun, hsmall,
    ((run_readable_iff Compression.zlib_inverts hrun).1 false rfl hsmall).2 hclean⟩

/-- **A value with U+0000 is cut off**: encoding it succeeds, and what is read back ends in front of
the character. -/
theorem run_truncates : Compression.zlib.Inverts ∧
    ∃ s', run (dumped [0x61, 0x3D, 0x78, 0x00, 0x79, 0x0A]) encodeDump =
        (s', .ok (single "x\x00y")) ∧
      Small .plain (single "x\x00y") ∧
      Binary.loadFile s'.read .plain "out.bin" = .ok (single "x") ∧
      (single "x" == single "x\x00y") = false := by
  have hread : (Dump.Source.ofFile "in.txt").read
      (dumped [0x61, 0x3D, 0x78, 0x00, 0x79, 0x0A]).read
      { charset := .windows1251 } = .ok (single "x\x00y") :=
    Dump.Source.read_of_iterate (n := 2) rfl
  obtain ⟨s', hrun, hfile⟩ := run_encodeDump hread
  have hsplit : singleBytes "x\x00y" = singleBytes "x" ++ [0x79, 0x00, 0x00, 0x00] := by decide
  refine ⟨Compression.zlib_inverts, s', hrun, small_single (by decide), ?_, ?_⟩
  · rw [Binary.loadFile, hfile, hsplit]
    exact parse_single (by decide) _
  · refine decide_eq_false fun h => ?_
    rw [outline_single_chosen, outline_single_chosen] at h
    revert h
    decide

end BlockDoc.Command
