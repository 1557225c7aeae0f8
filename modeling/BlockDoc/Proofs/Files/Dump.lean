/-
# A dump in a file says what its text says, unless its first name begins like a mark

A document is written to a file as the bytes of its text, and a file is read by decoding its bytes
and reading the text.  Nothing on this way knows of documents, so what comes back depends on the
character set alone (`Charset.decode?_of_encode?_iff`): the text is the one that was written if and
only if it does not begin like a byte-order mark.

A dump begins with the name of its first entry in default order, or with a line end if this entry
has no content.  What stands behind a name is ASCII, and the characters that are written as a mark
are not, so the name alone decides (`beginsLikeMark_render`).

The condition cannot be left out: a document whose only name is `яю` is written in windows-1251
with the mark of UTF-16LE in front, and comes back without any entry (`loadFile_misread`).
-/
import BlockDoc.Files.Document
import BlockDoc.Proofs.Charset.Marks
import BlockDoc.Proofs.Dump.Faithful
import BlockDoc.Proofs.Files.Store

namespace BlockDoc.Dump

variable {c : Charset} {d : Document} {s s' : Store} {path : String}

/-! ## 1. How a dump begins -/

/-- The first entry in default order has a content, and its name begins like a mark. -/
def NamedLikeMark (c : Charset) (d : Document) : Prop :=
  ∃ it ∈ (d.items .chosen).head?, it.isUndef = false ∧ c.BeginsLikeMark it.name.toList

/-- **An entry with a content begins with its name**, and an ASCII character follows. -/
theorem renderItem_eq_name {it : Item} (h : it.isUndef = false) :
    ∃ sep rest, sep.toNat < 0x80 ∧ renderItem 0 it = it.name.toList ++ sep :: rest := by
  cases it with
  | undef name comment => cases h
  | param name text comment =>
    rw [renderItem, renderParam]
    split
    · exact ⟨'=', _, by decide, rfl⟩
    · exact ⟨'=', _, by decide, rfl⟩
  | block name sorted items comment =>
    refine ⟨if sorted then '^' else '~', _, ?_, rfl⟩
    cases sorted <;> decide

/-- **A dump begins like a mark if and only if its first name does.** -/
theorem beginsLikeMark_render : c.BeginsLikeMark (render d) ↔ NamedLikeMark c d := by
  rw [render_eq, NamedLikeMark]
  cases d.items .chosen with
  | nil => simp [renderItems]
  | cons it rest =>
    simp only [renderItems, List.head?_cons, Option.mem_some_iff, exists_eq_left']
    cases hundef : it.isUndef with
    | false =>
      obtain ⟨sep, back, hsep, hit⟩ := renderItem_eq_name hundef
      rw [hit, List.append_assoc, List.cons_append, Charset.beginsLikeMark_append_cons hsep]
      simp
    | true =>
      -- a line end stands in front
      cases it with
      | undef name comment =>
        have hline : renderItem 0 (.undef name comment) = [] ++ '\r' :: ['\n'] := rfl
        rw [hline, List.append_assoc, List.cons_append,
          Charset.beginsLikeMark_append_cons (by decide)]
        simp
      | param name text comment => cases hundef
      | block name sorted items comment => cases hundef

/-! ## 2. Through the file -/

/-- A dump is written to a file if the document has a text, the text has bytes, and the file can be
written. -/
theorem emit_emission_eq_ok (h : s.emit path (emission c d) = (s', .ok ())) :
    ∃ t bytes, format d = .ok t ∧ c.encode? t = some bytes ∧ s.write path bytes = .ok s' := by
  rw [emission] at h
  split at h
  next bytes hencode =>
    obtain ⟨t, ht, hbytes⟩ := bind_eq_ok.1 hencode
    split at hbytes
    next => cases hbytes
    next bs hbs =>
      cases hbytes
      unfold Store.emit at h
      dsimp only at h
      split at h
      next => cases h
      next s'' hwrite =>
        cases h
        exact ⟨t, bytes, ht, hbs, hwrite⟩
  next e _ =>
    unfold Store.emit at h
    dsimp only at h
    split at h <;> cases h

/-- A file is read like the text in it. -/
theorem loadFile_eq {files : FileReader} {o : Options} {t : List Char} {dir? : Option String}
    (h : openFile files o.charset path = .ok (t, dir?)) :
    loadFile files o path = parseWith files { o with baseDir? := dir? } t := by
  rw [loadFile, h, ok_bind]

/-- **A dump that was written to a file is read like its text**, and this is so exactly if its
first name does not begin like a mark.  Paths in it start from the directory of the file. -/
theorem loadFile_emitted (hle : c ≠ .utf16le) (hbe : c ≠ .utf16be)
    (h : s.emit path (emission c d) = (s', .ok ())) :
    ∃ t, format d = .ok t ∧
      (openFile s'.read c path = .ok (t, Path.parent? path) ↔ ¬ NamedLikeMark c d) ∧
      (¬ NamedLikeMark c d → ∀ baseDir? limit, loadFile s'.read ⟨c, baseDir?, limit⟩ path =
        parseWith s'.read ⟨c, Path.parent? path, limit⟩ t) := by
  obtain ⟨t, bytes, ht, hencode, hwrite⟩ := emit_emission_eq_ok h
  have hopen : openFile s'.read c path = .ok (t, Path.parent? path) ↔ ¬ NamedLikeMark c d := by
    obtain ⟨rfl, -⟩ := format_ok_iff.mp ht
    rw [← beginsLikeMark_render, ← Charset.decode?_of_encode?_iff hle hbe hencode, openFile,
      Store.read_write hwrite]
    dsimp only
    split
    next hnone => simp [hnone]
    next text hsome => simp [hsome]
  refine ⟨t, ht, hopen, fun hnot baseDir? limit => ?_⟩
  exact loadFile_eq (hopen.mpr hnot)

/-- A document with a single name. -/
def called (name : String) : Document := .ofItems true [.param name "1" ""]

/-- Its dump. -/
def calledText (name : String) : List Char := name.toList ++ ['=', '1', '\r', '\n']

theorem outline_called (name : String) :
    (called name).outline .chosen = ⟨true, [.param name "1" ""]⟩ := outline_ofItems_single rfl rfl

theorem items_called (name : String) : (called name).items .chosen = [.param name "1" ""] :=
  congrArg Outline.items (outline_called name)

theorem format_called (name : String) : format (called name) = .ok (calledText name) := by
  have hrender : render (called name) = calledText name ++ [] := by
    rw [render_eq, items_called]
    rfl
  rw [format, items_called, hrender, List.append_nil]
  rfl

/-- It is read back if its name fits on a line. -/
theorem parseWith_called {name : String} (h : FitsParam name.toList) (files : FileReader)
    (o : Options) : parseWith files o (calledText name) = .ok (called name) := by
  obtain ⟨htext, hvalue⟩ := format_ok_iff.mp (format_called name)
  have hlegible : ∀ x ∈ ((called name).outline .chosen).preorder, Legible x := by
    refine fun x hx => ⟨fun _ => ?_, hvalue x hx⟩
    rw [outline_called] at hx
    obtain rfl := List.mem_singleton.mp hx
    exact h
  have hdepth : ((called name).outline .chosen).depth = 0 := by
    rw [outline_called]
    rfl
  rw [htext, parseWith_render _ hlegible, if_pos (.inl hdepth), items_called]
  rfl

/-- It is written if its name can be. -/
theorem emit_called {name : String} {bytes : Bytes}
    (hbytes : c.encode? (calledText name) = some bytes) (hwrite : s.write path bytes = .ok s') :
    s.emit path (emission c (called name)) = (s', .ok ()) := by
  have hencode : encode c (called name) = .ok bytes := by
    rw [encode, format_called, ok_bind]
    simp only [hbytes]
  simp only [emission, hencode, Store.emit, hwrite]

/-- The files behind it. -/
def holding (bytes : Bytes) : Store := ⟨[(["out.txt"], .file bytes)], []⟩

/-- A name in Cyrillic letters comes back from windows-1251. -/
theorem loadFile_emitted_called : ∃ s',
    Store.empty.emit "out.txt" (emission .windows1251 (called "имя")) = (s', .ok ()) ∧
    ¬ NamedLikeMark .windows1251 (called "имя") ∧
    ∃ t, format (called "имя") = .ok t ∧
      loadFile s'.read ⟨.windows1251, none, maxDepth⟩ "out.txt" =
        parseWith s'.read ⟨.windows1251, Path.parent? "out.txt", maxDepth⟩ t := by
  have hemit : Store.empty.emit "out.txt" (emission .windows1251 (called "имя")) =
      (holding [0xE8, 0xEC, 0xFF, 0x3D, 0x31, 0x0D, 0x0A], .ok ()) :=
    emit_called (by decide +kernel) rfl
  have hnot : ¬ NamedLikeMark .windows1251 (called "имя") := by
    rw [NamedLikeMark, items_called]
    decide +kernel
  obtain ⟨t, ht, -, hload⟩ := loadFile_emitted (by decide) (by decide) hemit
  exact ⟨_, hemit, hnot, t, ht, hload hnot none maxDepth⟩

/-- **A dump in a file can say something else than its text**, though it was written without an
error and is read without one: in windows-1251 the name `яю` is taken for the mark of UTF-16LE, and
in UTF-8 the character U+FEFF at the front of a name is lost. -/
theorem loadFile_misread :
    (∃ s' t, Store.empty.emit "out.txt" (emission .windows1251 (called "яю")) = (s', .ok ()) ∧
      format (called "яю") = .ok t ∧
      parseWith s'.read ⟨.windows1251, Path.parent? "out.txt", maxDepth⟩ t = .ok (called "яю") ∧
      loadFile s'.read ⟨.windows1251, none, maxDepth⟩ "out.txt" = .ok (.empty true) ∧
      (Document.empty true == called "яю") = false) ∧
    (∃ s' t, Store.empty.emit "out.txt" (emission .utf8 (called "\uFEFFa")) = (s', .ok ()) ∧
      format (called "\uFEFFa") = .ok t ∧
      parseWith s'.read ⟨.utf8, Path.parent? "out.txt", maxDepth⟩ t = .ok (called "\uFEFFa") ∧
      loadFile s'.read ⟨.utf8, none, maxDepth⟩ "out.txt" = .ok (called "a") ∧
      (called "a" == called "\uFEFFa") = false) := by
  have hcyrillic : Store.empty.emit "out.txt" (emission .windows1251 (called "яю")) =
      (holding [0xFF, 0xFE, 0x3D, 0x31, 0x0D, 0x0A], .ok ()) :=
    emit_called (by decide +kernel) rfl
  have hunicode : Store.empty.emit "out.txt" (emission .utf8 (called "\uFEFFa")) =
      (holding [0xEF, 0xBB, 0xBF, 0x61, 0x3D, 0x31, 0x0D, 0x0A], .ok ()) :=
    emit_called (by decide) rfl
  have hempty : loadFile (holding [0xFF, 0xFE, 0x3D, 0x31, 0x0D, 0x0A]).read
      ⟨.windows1251, none, maxDepth⟩ "out.txt" = .ok (.empty true) := by
    have hopen : openFile (holding [0xFF, 0xFE, 0x3D, 0x31, 0x0D, 0x0A]).read .windows1251
        "out.txt" = .ok (['\u313D', '\u0A0D'], Path.parent? "out.txt") := rfl
    have hlines : rawLines ['\u313D', '\u0A0D'] = [some ['\u313D', '\u0A0D']] := by decide
    rw [loadFile_eq hopen, parseWith, hlines, readLines_noise (by decide), readLines.eq_def]
    rfl
  have hshort : loadFile (holding [0xEF, 0xBB, 0xBF, 0x61, 0x3D, 0x31, 0x0D, 0x0A]).read
      ⟨.utf8, none, maxDepth⟩ "out.txt" = .ok (called "a") := by
    have hopen : openFile (holding [0xEF, 0xBB, 0xBF, 0x61, 0x3D, 0x31, 0x0D, 0x0A]).read .utf8
        "out.txt" = .ok (calledText "a", Path.parent? "out.txt") := rfl
    rw [loadFile_eq hopen, parseWith_called (by decide)]
  refine ⟨⟨_, _, hcyrillic, format_called _, parseWith_called (by decide) _ _, hempty, ?_⟩,
    _, _, hunicode, format_called _, parseWith_called (by decide) _ _, hshort, ?_⟩
  · exact decide_eq_false (by rw [outline_called]; decide)
  · exact decide_eq_false (by rw [outline_called, outline_called]; decide)

end BlockDoc.Dump
