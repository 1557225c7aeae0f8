/-
# Dumps under the label of a sixteen-bit set

The labels of UTF-16LE and UTF-16BE are accepted like all others.  A conversion to a dump under one
of them succeeds, but what it writes is UTF-8.  A conversion from this dump under the same label
takes two bytes for a unit, and two outcomes are left.

1. If some units stand for no character, the file is refused as not well-formed.
2. Otherwise the file is read, and holds nothing: the document has no U+0000, since it was read
   from a binary form, so no unit is below 100 and no line says anything (`loadFile_wide`).

Either way the entries of the document are lost, so the document is obtained if and only if it is
the empty one (`run_wide`).  Nothing of this depends on what the entries are, except for one thing:
a first name with U+FEFF in front makes the dump known for UTF-8, and costs this character.

The document of a listing may have U+0000.  It is not sorted, while what a dump says is, so it is
never obtained from a dump either (`unsorted_of_code`, `sorted_of_readInput`).
-/
import BlockDoc.Proofs.Charset.Wide
import BlockDoc.Proofs.Command.Failure
import BlockDoc.Proofs.Dump.WriterForm
import BlockDoc.Proofs.Files.Dump
import BlockDoc.Proofs.Listing.Dump

namespace BlockDoc.Dump

variable {files : FileReader} {charset : Charset} {t text : List Char} {path : String}
  {bytes : Bytes}

/-! ## 1. Texts that say nothing -/

/-- Lines that say nothing are read to the end. -/
theorem readLines_silent {lines : List (List Char)} (h : ∀ line ∈ lines, Line.ofChars line = .noise)
    (limit : Nat) (baseDir? : Option String) (number : Nat) (top : Document)
    (stack : List OpenBlock) :
    readLines files charset limit baseDir? number (lines.map some) top stack =
      .ok (closeAll top stack) := by
  induction lines generalizing number with
  | nil => rw [List.map_nil, readLines.eq_def]
  | cons line lines ih =>
    rw [List.map_cons, readLines_noise (h line List.mem_cons_self)]
    exact ih (fun l hl => h l (List.mem_cons_of_mem _ hl)) _

/-- **A text without equals signs and braces says nothing.** -/
theorem parseWith_signless (hequals : '=' ∉ t) (hopening : '{' ∉ t) (hclosing : '}' ∉ t)
    (files : FileReader) (o : Options) : parseWith files o t = .ok (.empty true) := by
  have hnoise : ∀ line ∈ Text.lines t, Line.ofChars line = .noise := by
    intro line hline
    have hsub : line ⊆ t := fun c hc => by
      rw [← Text.flatten_lines t]
      exact List.mem_flatten.mpr ⟨line, hline, hc⟩
    exact ofChars_noise (fun h => hequals (hsub h)) (fun h => hopening (hsub h))
      fun h => hclosing (hsub h)
  exact readLines_silent hnoise _ _ _ _ _

/-! ## 2. What is read from the file -/

/-- A dump is read from the characters of its file, if it has some. -/
theorem loadFile_decoded (hfile : files path = .ok bytes) (charset : Charset) :
    loadFile files { charset } path = match charset.decode? bytes with
      | none => .error (.charset (.malformedFile path charset.name))
      | some text => parseWith files { charset, baseDir? := Path.parent? path } text := by
  cases hdecode : charset.decode? bytes with
  | none =>
    rw [loadFile, openFile, hfile]
    simp only [hdecode]
    rfl
  | some text =>
    have hopen : openFile files charset path = .ok (text, Path.parent? path) := by
      simp only [openFile, hfile, hdecode]
    exact loadFile_eq hopen

/-- A text with U+FEFF in front is taken for what it is, and loses this character. -/
theorem loadFile_wide_marked (hmark : Charset.utf8.BeginsLikeMark t)
    (hfile : files path = .ok (Charset.encodeUtf8 t)) (charset : Charset) :
    loadFile files { charset } path =
      parseWith files { charset, baseDir? := Path.parent? path } t.tail := by
  rw [loadFile_decoded hfile, Charset.decode?_encodeUtf8, if_pos hmark]

/-- **Any other text without U+0000** is refused, or says nothing. -/
theorem loadFile_wide (hwide : charset.IsWide) (hnul : Text.nul ∉ t)
    (hmark : ¬ Charset.utf8.BeginsLikeMark t) (hfile : files path = .ok (Charset.encodeUtf8 t)) :
    loadFile files { charset } path =
      if (charset.decodeBare? (Charset.encodeUtf8 t)).isSome then .ok (.empty true)
      else .error (.charset (.malformedFile path charset.name)) := by
  rw [loadFile_decoded hfile, Charset.decode?_encodeUtf8, if_neg hmark]
  cases hdecode : charset.decodeBare? (Charset.encodeUtf8 t) with
  | none => rfl
  | some text =>
    have hbeyond := Charset.beyond_latin hwide (Charset.zero_notMem_encodeUtf8 hnul) hdecode
    exact parseWith_signless (fun h => absurd (hbeyond _ h) (by decide))
      (fun h => absurd (hbeyond _ h) (by decide)) (fun h => absurd (hbeyond _ h) (by decide)) _ _

end BlockDoc.Dump

namespace BlockDoc.Command

open Binary (Clean)

variable {z : Compression} {s s' : Store} {c : Config} {d d' : Document} {charset : Charset}
  {files : FileReader}

/-! ## 3. What a conversion reads -/

theorem readInput_of_toDump (h : c.conversion.toDump = false) :
    readInput files charset c z = inFile c.input (Dump.loadFile files { charset } c.input) := by
  rw [readInput]
  cases hconversion : c.conversion with
  | pack seed => rfl
  | encode grouped => rfl
  | unpack => rw [hconversion] at h; cases h
  | decode grouped => rw [hconversion] at h; cases h
  | code => rw [hconversion] at h; cases h

/-- What a dump says is sorted. -/
theorem sorted_of_readInput (h : c.conversion.toDump = false)
    (hread : readInput files charset c z = .ok d) : d.sorted = true := by
  rw [readInput_of_toDump h] at hread
  obtain ⟨⟨text, dir?⟩, -, hparse⟩ := bind_eq_ok.1 (mapError_eq_ok.1 hread)
  exact Dump.readLines_sorted hparse

theorem binary_of_loadFile {layout : Binary.Layout} {path : String}
    (h : Binary.loadFile files layout path = .ok d) : d.Built ∧ Clean d := by
  unfold Binary.loadFile at h
  split at h
  next => cases h
  next => cases h
  next bytes _ => exact Binary.parse_built_clean h

theorem archive_of_loadFile {path : String} (h : Archive.loadFile files path z = .ok d) :
    d.Built ∧ Clean d := by
  unfold Archive.loadFile at h
  split at h
  next => cases h
  next bytes _ =>
    obtain ⟨frame, -, h⟩ := bind_eq_ok.1 h
    obtain ⟨payload, -, h⟩ := bind_eq_ok.1 h
    exact Binary.parse_built_clean h

/-- **A binary form holds no U+0000**, and neither does what is written for it. -/
theorem clean_of_readInput (h : c.conversion.toDump = true) (hcode : c.conversion ≠ .code)
    (hread : readInput files charset c z = .ok d) : d.Built ∧ Clean d := by
  rw [readInput] at hread
  cases hconversion : c.conversion with
  | unpack =>
    rw [hconversion] at hread
    exact archive_of_loadFile (mapError_eq_ok.1 hread)
  | decode grouped =>
    rw [hconversion] at hread
    exact binary_of_loadFile (mapError_eq_ok.1 hread)
  | code => exact absurd hconversion hcode
  | pack seed => rw [hconversion] at h; cases h
  | encode grouped => rw [hconversion] at h; cases h

theorem sorted_eq_of_beq (h : (d' == d) = true) : d'.sorted = d.sorted :=
  congrArg Outline.sorted (of_decide_eq_true h)

/-- A listing is not sorted. -/
theorem unsorted_of_code (hcode : c.conversion = .code)
    (hread : readInput files charset c z = .ok d) : d.sorted = false := by
  rw [readInput, hcode] at hread
  unfold readListing at hread
  dsimp only at hread
  split at hread
  next => cases hread
  next bytes _ =>
    split at hread
    next => cases hread
    next text _ => exact (Listing.parse_listed (mapError_eq_ok.1 hread)).sorted

/-! ## 4. What is written, and what is read of it -/

/-- A conversion to a dump under such a label puts the text of its document into the file. -/
theorem run_wide_written (hcharset : c.charset = .ok charset) (hwide : charset.IsWide)
    (hdump : c.conversion.toDump = true) (hrun : run s c z = (s', .ok d)) :
    readInput s.read charset c z = .ok d ∧ Dump.format d = .ok (Dump.render d) ∧
      s'.read c.output = .ok (Charset.encodeUtf8 (Dump.render d)) := by
  obtain ⟨charset', bytes, hcharset', hread, hout, hwrite⟩ := run_eq_ok.1 hrun
  obtain rfl : charset = charset' := Except.ok.inj (hcharset.symm.trans hcharset')
  rw [outputOf_toDump hdump] at hout
  have hemit : s.emit c.output (Dump.emission charset d) = (s', .ok ()) := by
    simp only [Store.emit, hout, hwrite]
  obtain ⟨t, bytes', hformat, hencode, hwrite'⟩ := Dump.emit_emission_eq_ok hemit
  obtain ⟨rfl, -⟩ := Dump.format_ok_iff.mp hformat
  rw [hwide.encode?_eq] at hencode
  cases hencode
  exact ⟨hread, hformat, Store.read_write hwrite'⟩

/-- The empty document has the empty dump, which can be read in every set. -/
theorem isSome_decodeBare?_of_empty (h : (Document.empty true == d) = true)
    (hwide : charset.IsWide) :
    (charset.decodeBare? (Charset.encodeUtf8 (Dump.render d))).isSome = true := by
  have houtline : (Document.empty true).outline .chosen = d.outline .chosen := of_decide_eq_true h
  have hitems : d.items .chosen = [] := congrArg Outline.items houtline.symm
  have hrender : Dump.render d = [] := by rw [Dump.render_eq, hitems, Dump.renderItems]
  rw [hrender]
  rcases hwide with rfl | rfl <;> rfl

/-- **A dump that was written under the label of a sixteen-bit set is lost.**  A later conversion
from it under the same label does not obtain the document, unless this is empty.  What was read from
a binary form comes to a file that is refused or holds nothing; only U+FEFF in front of the first
name saves the rest. -/
theorem run_wide (hcharset : c.charset = .ok charset) (hwide : charset.IsWide)
    (hdump : c.conversion.toDump = true) (hrun : run s c z = (s', .ok d)) :
    ∃ t, Dump.format d = .ok t ∧ s'.read c.output = .ok (Charset.encodeUtf8 t) ∧
      ∀ c', c'.conversion.toDump = false → c'.input = c.output →
        (Dump.NamedLikeMark .utf8 d → readInput s'.read charset c' z =
          inFile c.output (Dump.parseWith s'.read { charset, baseDir? := Path.parent? c.output }
            t.tail)) ∧
        (¬ Dump.NamedLikeMark .utf8 d →
          (c.conversion ≠ .code → readInput s'.read charset c' z =
            if (charset.decodeBare? (Charset.encodeUtf8 t)).isSome then .ok (.empty true)
            else .error (.convert c.output (.charset (.malformedFile c.output charset.name)))) ∧
          ((∃ d', readInput s'.read charset c' z = .ok d' ∧ (d' == d) = true) ↔
            (Document.empty true == d) = true)) := by
  obtain ⟨hread, hformat, hfile⟩ := run_wide_written hcharset hwide hdump hrun
  refine ⟨_, hformat, hfile, fun c' hc' hlink => ?_⟩
  rw [readInput_of_toDump hc', hlink, ← Dump.beginsLikeMark_render]
  refine ⟨fun hmark => congrArg _ (Dump.loadFile_wide_marked hmark hfile charset), fun hmark => ?_⟩
  have hlost : c.conversion ≠ .code →
      inFile c.output (Dump.loadFile s'.read { charset } c.output) =
        if (charset.decodeBare? (Charset.encodeUtf8 (Dump.render d))).isSome then .ok (.empty true)
        else .error (.convert c.output (.charset (.malformedFile c.output charset.name))) := by
    intro hcode
    obtain ⟨hbuilt, hclean⟩ := clean_of_readInput hdump hcode hread
    rw [Dump.loadFile_wide hwide (Dump.nul_notMem_render hbuilt hclean) hmark hfile]
    split <;> rfl
  refine ⟨hlost, ?_⟩
  by_cases hcode : c.conversion = .code
  · -- the flags differ, whatever is read
    have hunsorted : d.sorted ≠ true := by simp [unsorted_of_code hcode hread]
    constructor
    · rintro ⟨d', hload, hequal⟩
      rw [← hlink, ← readInput_of_toDump (z := z) hc'] at hload
      exact absurd ((sorted_eq_of_beq hequal).symm.trans (sorted_of_readInput hc' hload)) hunsorted
    · intro hempty
      exact absurd (sorted_eq_of_beq hempty).symm hunsorted
  · rw [hlost hcode]
    constructor
    · rintro ⟨d', hload, hequal⟩
      split at hload
      · cases hload
        exact hequal
      · cases hload
    · intro hempty
      exact ⟨_, if_pos (isSome_decodeBare?_of_empty hempty hwide), hempty⟩

/-! ## 5. One parameter -/

/-- Files with nothing but a binary document with one parameter. -/
def encoded (value : String) : Store := ⟨[(["in.bin"], .file (singleBytes value))], []⟩

/-- The request to decode it, with the label of UTF-16LE. -/
def decodeWide : Config := ⟨"utf-16le", "info", .decode false, "in.bin", "out.txt"⟩

/-- The request to encode the dump, with the same label. -/
def encodeWide : Config := ⟨"utf-16le", "info", .encode false, "out.txt", "back.bin"⟩

/-- The files with the dump beside it. -/
def decoded (value : String) (t : List Char) : Store :=
  ⟨[(["out.txt"], .file (Charset.encodeUtf8 t)), (["in.bin"], .file (singleBytes value))], []⟩

/-- The text of the document is put into the file, in UTF-8. -/
theorem run_decodeWide (value : String) (hnul : Text.nul ∉ value.toList) {t : List Char}
    (hformat : Dump.format (single value) = .ok t) :
    run (encoded value) decodeWide = (decoded value t, .ok (single value)) := by
  have hfile : (encoded value).read "in.bin" = .ok (singleBytes value) := rfl
  have hparse : Binary.parse .plain (singleBytes value) = .ok (single value) := by
    have h := parse_single hnul []
    rwa [List.append_nil] at h
  have hread : readInput (encoded value).read .utf16le decodeWide = .ok (single value) := by
    simp only [readInput, decodeWide, layoutOf, Binary.loadFile, hfile]
    exact congrArg (inFile "in.bin") hparse
  have hout : outputOf .utf16le (single value) decodeWide.conversion =
      ⟨some (Charset.encodeUtf8 t), .ok ()⟩ := by
    rw [outputOf_toDump rfl, Dump.emission, Dump.encode, hformat, ok_bind]
    rfl
  have hwrite : (encoded value).write decodeWide.output (Charset.encodeUtf8 t) =
      .ok (decoded value t) := rfl
  exact run_eq_ok.2 ⟨_, _, charset_of_label (by decide +kernel), hread, hout, hwrite⟩

/-- The dump of a document with one parameter, if its value stays on the line. -/
def textOf (value : List Char) : List Char := ['a', '='] ++ value ++ ['\r', '\n']

theorem format_single {value : String} {text : List Char} (htext : value.toList = text)
    (hline : Dump.needsHeredoc text = false) :
    Dump.format (single value) = .ok (textOf text) := by
  rw [Dump.format, Dump.render, items_single]
  simp [Dump.unwritableIn?, Dump.Item.unwritable?, Dump.linesBefore, Dump.Item.linesBefore,
    Dump.renderParam, Dump.indent, Dump.indentWidth, Dump.lineEnd, textOf, htext, hline]

/-- Two letters are decoded to six bytes, and nothing is read of them. -/
theorem run_wide_single : decodeWide.charset = .ok .utf16le ∧ Charset.IsWide .utf16le ∧
    decodeWide.conversion.toDump = true ∧
    run (encoded "xy") decodeWide = (decoded "xy" (textOf ['x', 'y']), .ok (single "xy")) ∧
    encodeWide.conversion.toDump = false ∧ encodeWide.input = decodeWide.output ∧
    ¬ Dump.NamedLikeMark .utf8 (single "xy") ∧
    ¬ ∃ d', readInput (decoded "xy" (textOf ['x', 'y'])).read .utf16le encodeWide = .ok d' ∧
      (d' == single "xy") = true := by
  have hset : decodeWide.charset = .ok .utf16le := charset_of_label (by decide +kernel)
  have hrun := run_decodeWide "xy" (by decide) (format_single rfl rfl)
  have hwide : Charset.IsWide .utf16le := .inl rfl
  have hmark : ¬ Dump.NamedLikeMark .utf8 (single "xy") := by
    rw [Dump.NamedLikeMark, items_single]
    decide
  obtain ⟨t, -, -, h⟩ := run_wide hset hwide rfl hrun
  have hobtained := ((h encodeWide rfl rfl).2 hmark).2
  refine ⟨hset, hwide, rfl, hrun, rfl, rfl, hmark, fun hread => ?_⟩
  have hempty : (Document.empty true).outline .chosen = (single "xy").outline .chosen :=
    of_decide_eq_true (hobtained.mp hread)
  rw [outline_single_chosen] at hempty
  exact absurd hempty (by decide)

/-- Six bytes hold a dump without entries. -/
theorem run_encodeWide_xy : ∃ s', run (decoded "xy" (textOf ['x', 'y'])) encodeWide =
    (s', .ok (.empty true)) := by
  have hload : Dump.loadFile (decoded "xy" (textOf ['x', 'y'])).read { charset := .utf16le }
      "out.txt" = .ok (.empty true) := by
    rw [Dump.loadFile_wide (.inl rfl) (by decide) (by decide) rfl, if_pos (by decide)]
  have hread : readInput (decoded "xy" (textOf ['x', 'y'])).read .utf16le encodeWide =
      .ok (.empty true) := congrArg (inFile "out.txt") hload
  have hout : outputOf .utf16le (.empty true) encodeWide.conversion = ⟨some _, .ok ()⟩ :=
    (loaded_of_loadFile hload).emission_binary .plain
  have hwrite : ∀ bytes, (decoded "xy" (textOf ['x', 'y'])).write encodeWide.output bytes =
      .ok _ := fun _ => rfl
  exact ⟨_, run_eq_ok.2 ⟨_, _, charset_of_label (by decide +kernel), hread, hout, hwrite _⟩⟩

/-- Five bytes are not well-formed. -/
theorem run_encodeWide_x : run (decoded "x" (textOf ['x'])) encodeWide =
    (decoded "x" (textOf ['x']),
      .error (.convert "out.txt" (.charset (.malformedFile "out.txt" "UTF-16LE")))) := by
  have hread : readInput (decoded "x" (textOf ['x'])).read .utf16le encodeWide =
      .error (.convert "out.txt" (.charset (.malformedFile "out.txt" "UTF-16LE"))) := by
    rw [readInput_of_toDump rfl,
      Dump.loadFile_wide (.inl rfl) (by decide) (by decide) rfl, if_neg (by decide)]
    rfl
  have hset : encodeWide.charset = .ok .utf16le := charset_of_label (by decide +kernel)
  simp only [run, plan, hset, Except.mapError, ok_bind, hread]
  rfl

/-- **A document is lost on the way through a dump** under the label of UTF-16LE, although it would
be read back from its text.  With two letters as its value both conversions succeed, and the second
starts from a document without entries.  With one letter the number of bytes is odd, and the second
refuses the file. -/
theorem run_wide_loses :
    (Dump.format (single "xy") = .ok (textOf ['x', 'y']) ∧
      Dump.parse (fun _ => .error .notFound) (textOf ['x', 'y']) = .ok (single "xy") ∧
      run (encoded "xy") decodeWide = (decoded "xy" (textOf ['x', 'y']), .ok (single "xy")) ∧
      (∃ s', run (decoded "xy" (textOf ['x', 'y'])) encodeWide = (s', .ok (.empty true))) ∧
      (Document.empty true == single "xy") = false) ∧
    (Dump.format (single "x") = .ok (textOf ['x']) ∧
      Dump.parse (fun _ => .error .notFound) (textOf ['x']) = .ok (single "x") ∧
      run (encoded "x") decodeWide = (decoded "x" (textOf ['x']), .ok (single "x")) ∧
      run (decoded "x" (textOf ['x'])) encodeWide = (decoded "x" (textOf ['x']),
        .error (.convert "out.txt" (.charset (.malformedFile "out.txt" "UTF-16LE"))))) := by
  have hxy : (Dump.Source.ofText (textOf ['x', 'y'])).read (fun _ => .error .notFound) {} =
      .ok (single "xy") := Dump.Source.read_of_iterate (n := 2) rfl
  have hx : (Dump.Source.ofText (textOf ['x'])).read (fun _ => .error .notFound) {} =
      .ok (single "x") := Dump.Source.read_of_iterate (n := 2) rfl
  have hdiffers : (Document.empty true == single "xy") = false :=
    decide_eq_false (by rw [outline_single_chosen]; decide)
  have hformat_xy : Dump.format (single "xy") = .ok (textOf ['x', 'y']) := format_single rfl rfl
  have hformat_x : Dump.format (single "x") = .ok (textOf ['x']) := format_single rfl rfl
  exact ⟨⟨hformat_xy, hxy, run_decodeWide "xy" (by decide) hformat_xy, run_encodeWide_xy, hdiffers⟩,
    hformat_x, hx, run_decodeWide "x" (by decide) hformat_x, run_encodeWide_x⟩

end BlockDoc.Command
