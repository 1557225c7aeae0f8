/-
# There and back again

A dump is packed and unpacked, or encoded and decoded, and the same bytes come out.  This needs a
dump that the writer could have written itself, because reading forgets what the writer would have
done otherwise.

1. The document is read from the dump in the same way wherever the dump lies
   (`Dump.WriterForm.parseWith_eq`), and like every document from a dump it has a binary form that
   is not too deep (`Loaded`).
2. No text in it has U+0000, because none stands in the dump (`Dump.WriterForm.clean`).  So what is
   read back is the document up to the order in which entries were added (`Cycle.outputOf_eq`).
3. Writing looks at the default order only, so the text is the same; and a character set that was
   read writes the same bytes (`Charset.encode?_of_decode?`).

Main statement: `run_cycle`.
-/
import BlockDoc.Proofs.Charset.RoundTrip
import BlockDoc.Proofs.Command.Failure
import BlockDoc.Proofs.Dump.WriterForm

namespace BlockDoc.Command

open Binary (Clean)
open Dump (WriterForm)

variable {z : Compression} {s : Store} {c c₁ c₂ : Config} {d : Document} {charset : Charset}
  {there back : Conversion} {layout : Binary.Layout} {content : Bytes}

/-! ## 1. Conversions that belong together -/

/-- A conversion from a dump with the one that leads back, and the layout of the document in
between. -/
inductive Cycle : Conversion → Conversion → Binary.Layout → Prop
  | archive (seed : Int32) : Cycle (.pack seed) .unpack .grouped
  | binary (grouped : Bool) : Cycle (.encode grouped) (.decode grouped) (layoutOf grouped)

theorem Cycle.readInput_eq (h : Cycle there back layout) (hc : c.conversion = there)
    (files : FileReader) (charset : Charset) (z : Compression) :
    readInput files charset c z = inFile c.input (Dump.loadFile files { charset } c.input) := by
  cases h <;> rw [readInput, hc]

theorem Cycle.toDump_back (h : Cycle there back layout) : back.toDump = true := by
  cases h <;> rfl

/-- **What is written on the way there is read on the way back**, up to the order in which entries
were added. -/
theorem Cycle.outputOf_eq (h : Cycle there back layout) (hz : z.Inverts) (hl : Loaded d)
    (hsmall : Small layout d) (hclean : Clean d) (charset : Charset) :
    ∃ bytes d', outputOf charset d there z = ⟨some bytes, .ok ()⟩ ∧
      d'.outline .chosen = d.outline .chosen ∧
      ∀ files c, c.conversion = back → files c.input = .ok bytes →
        readInput files charset c z = .ok d' := by
  have hbare : (d.outline .chosen).bare = d.outline .chosen :=
    Outline.bare_eq_self _ (hl.comment.chosen hl.built fun x hx => by rwa [Item.comment_arranged])
  obtain ⟨d', hparse, houtline⟩ :=
    Binary.parse_encoding (hl.encodable hsmall) hclean hl.built layout
  rw [hbare] at houtline
  cases h with
  | archive seed =>
    obtain ⟨data, hemission, hopened⟩ := hl.emission_archive hz hsmall seed
    refine ⟨data, d', hemission, houtline, fun files c hc hfile => ?_⟩
    rw [readInput, hc]
    simp only [Archive.loadFile, hfile, hopened, hparse]
    rfl
  | binary grouped =>
    refine ⟨_, d', hl.emission_binary (layoutOf grouped), houtline, fun files c hc hfile => ?_⟩
    rw [readInput, hc]
    simp only [Binary.loadFile, hfile, hparse]
    rfl

/-! ## 2. Bytes that are written again -/

/-- Some bytes are a dump in writer form, in a character set that is written and without a mark in
front. -/
structure Settled (charset : Charset) (content : Bytes) (d : Document) : Prop where
  /-- The character set is not one of those that are only read. -/
  written : charset ≠ .utf16le ∧ charset ≠ .utf16be
  /-- There is no mark. -/
  unmarked : Charset.mark? content = none
  /-- The text is the one that is written for the document, and has no U+0000. -/
  text : ∃ t, charset.decode? content = some t ∧ Text.nul ∉ t ∧ WriterForm t d

theorem Settled.clean (h : Settled charset content d) : Clean d := by
  obtain ⟨t, -, hnul, hform⟩ := h.text
  exact hform.clean hnul

/-- **A settled dump is loaded** wherever it lies. -/
theorem Settled.loadFile_eq (h : Settled charset content d) {files : FileReader} {path : String}
    (hfile : files path = .ok content) : Dump.loadFile files { charset } path = .ok d := by
  obtain ⟨t, hdecode, -, hform⟩ := h.text
  have hopen : Dump.openFile files charset path = .ok (t, Path.parent? path) := by
    simp only [Dump.openFile, hfile, hdecode]
  rw [Dump.loadFile, hopen, ok_bind]
  exact hform.parseWith_eq files rfl

/-- **It is written again** for every document that shows the same. -/
theorem Settled.encode_eq (h : Settled charset content d) {d' : Document}
    (houtline : d'.outline .chosen = d.outline .chosen) : Dump.encode charset d' = .ok content := by
  obtain ⟨t, hdecode, -, hform⟩ := h.text
  have hformat : Dump.format d' = .ok t := (Dump.format_congr houtline).trans hform.format_eq
  have hbytes : charset.encode? t = some content :=
    Charset.encode?_of_decode? h.written.1 h.written.2 h.unmarked hdecode
  rw [Dump.encode, hformat, ok_bind]
  simp only [hbytes]

/-! ## 3. The whole cycle -/

/-- Two requests, the second of which starts from what the first writes.  The dump is there, and
both outputs can be written. -/
structure Chained (s : Store) (charset : Charset) (content : Bytes) (c₁ c₂ : Config) : Prop where
  /-- The character set of the first. -/
  charset₁ : c₁.charset = .ok charset
  /-- The character set of the second. -/
  charset₂ : c₂.charset = .ok charset
  /-- The dump is there. -/
  input : s.read c₁.input = .ok content
  /-- The second starts from what the first writes. -/
  link : c₂.input = c₁.output
  /-- The output of the first can be written. -/
  output₁ : ∃ names, s.target c₁.output = .ok names
  /-- The output of the second can be written. -/
  output₂ : ∃ names, s.target c₂.output = .ok names

/-- **A dump in writer form survives every cycle**: both conversions succeed, and the bytes are
written again. -/
theorem run_cycle (hcycle : Cycle there back layout) (hz : z.Inverts)
    (hsettled : Settled charset content d) (hsmall : Small layout d)
    (h₁ : c₁.conversion = there) (h₂ : c₂.conversion = back)
    (hchained : Chained s charset content c₁ c₂) :
    ∃ s₁ s₂ d₂, run s c₁ z = (s₁, .ok d) ∧ run s₁ c₂ z = (s₂, .ok d₂) ∧ (d₂ == d) = true ∧
      s₂.read c₂.output = .ok content := by
  obtain ⟨names₁, htarget₁⟩ := hchained.output₁
  obtain ⟨names₂, htarget₂⟩ := hchained.output₂
  have hload := hsettled.loadFile_eq hchained.input
  obtain ⟨bytes, d', hout, houtline, hback⟩ :=
    hcycle.outputOf_eq hz (loaded_of_loadFile hload) hsmall hsettled.clean charset
  -- on the way there
  have hread₁ : readInput s.read charset c₁ z = .ok d := by
    rw [hcycle.readInput_eq h₁, hload]
    rfl
  have hwrite₁ := Store.write_eq_put htarget₁ bytes
  have hrun₁ : run s c₁ z = (s.put names₁ (.file bytes), .ok d) :=
    run_eq_ok.2 ⟨charset, bytes, hchained.charset₁, hread₁, by rw [h₁, hout], hwrite₁⟩
  -- and back
  have hfile : (s.put names₁ (.file bytes)).read c₂.input = .ok bytes := by
    rw [hchained.link]
    exact Store.read_write hwrite₁
  have hemission : outputOf charset d' c₂.conversion z = ⟨some content, .ok ()⟩ := by
    rw [h₂, outputOf_toDump hcycle.toDump_back, Dump.emission, hsettled.encode_eq houtline]
  have htarget : (s.put names₁ (.file bytes)).target c₂.output = .ok names₂ :=
    Store.target_put (Store.node?_target htarget₁) htarget₂
  have hwrite₂ := Store.write_eq_put htarget content
  have hrun₂ : run (s.put names₁ (.file bytes)) c₂ z = (_, .ok d') :=
    run_eq_ok.2 ⟨charset, content, hchained.charset₂, hback _ c₂ h₂ hfile, hemission, hwrite₂⟩
  exact ⟨_, _, d', hrun₁, hrun₂, decide_eq_true houtline, Store.read_write hwrite₂⟩

/-! ## 4. A Cyrillic letter -/

/-- The bytes of a dump with one parameter, a letter beyond ASCII. -/
def cyrillicDump : Bytes := [0x61, 0x3D, 0xE6, 0x0D, 0x0A]

theorem settled_cyrillicDump : Settled .windows1251 cyrillicDump (single "ж") where
  written := by decide
  unmarked := rfl
  text := by
    refine ⟨['a', '=', 'ж', '\r', '\n'], by decide +kernel, by decide,
      ⟨fun _ => .error .notFound, ?_⟩, ?_⟩
    · have hread : (Dump.Source.ofText ['a', '=', 'ж', '\r', '\n']).read
          (fun _ => .error .notFound) {} = .ok (single "ж") :=
        Dump.Source.read_of_iterate (n := 2) rfl
      exact hread
    · rw [Dump.format, Dump.render, items_single]
      rfl

/-- The request for the way there, with the usual settings. -/
def requestThere (conversion : Conversion) : Config :=
  ⟨"windows-1251", "info", conversion, "in.txt", "mid.bin"⟩

/-- The request for the way back. -/
def requestBack (conversion : Conversion) : Config :=
  ⟨"windows-1251", "info", conversion, "mid.bin", "back.txt"⟩

theorem chained_requests (there back : Conversion) :
    Chained (dumped cyrillicDump) .windows1251 cyrillicDump (requestThere there)
      (requestBack back) := by
  have hread : (dumped cyrillicDump).read "in.txt" = .ok cyrillicDump := rfl
  have htarget₁ : (dumped cyrillicDump).target "mid.bin" = .ok ["mid.bin"] := rfl
  have htarget₂ : (dumped cyrillicDump).target "back.txt" = .ok ["back.txt"] := rfl
  exact ⟨charset_of_label usual_label, charset_of_label usual_label, hread, rfl, ⟨_, htarget₁⟩,
    ⟨_, htarget₂⟩⟩

/-- The letter survives an archive, and an encoding with its entries in groups. -/
theorem run_cycle_cyrillic : Compression.zlib.Inverts ∧
    Settled .windows1251 cyrillicDump (single "ж") ∧ Small .grouped (single "ж") ∧
    (∃ s₁ s₂ d₂, run (dumped cyrillicDump) (requestThere (.pack 7)) = (s₁, .ok (single "ж")) ∧
      run s₁ (requestBack .unpack) = (s₂, .ok d₂) ∧ (d₂ == single "ж") = true ∧
      s₂.read "back.txt" = .ok cyrillicDump) ∧
    ∃ s₁ s₂ d₂, run (dumped cyrillicDump) (requestThere (.encode true)) = (s₁, .ok (single "ж")) ∧
      run s₁ (requestBack (.decode true)) = (s₂, .ok d₂) ∧ (d₂ == single "ж") = true ∧
      s₂.read "back.txt" = .ok cyrillicDump := by
  have hz := Compression.zlib_inverts
  have hsmall : Small .grouped (single "ж") := small_single (by decide)
  exact ⟨hz, settled_cyrillicDump, hsmall,
    run_cycle (.archive 7) hz settled_cyrillicDump hsmall rfl rfl (chained_requests _ _),
    run_cycle (.binary true) hz settled_cyrillicDump hsmall rfl rfl (chained_requests _ _)⟩

end BlockDoc.Command
