/-
# What a failed conversion leaves behind

A conversion touches one file at most, the one at its output path (`run_cases`).  It does so when
everything was read, so a failure to read leaves all files alone; and so does a failure to write at
the output path, because the path is looked up before anything is changed.

The paths are any paths, from the root or from the working directory, also through `..`.  The
character set is one of the seven: every other label is refused before anything is read.

What remains are the failures in between, where the document is there and has no form.

* An archive is put together before the file is opened, and leaves it alone.
* A binary document is written while it is put together.  But a document from a dump has nothing
  that could not be written (`Loaded`), so this never fails.
* A dump is put together when the file was already emptied.  A value without a form, or a character
  that the character set does not have, leaves an empty file behind (`Empties`).

Main statement: `run_failed`.  The last case is a real one: `decode_empties`.
-/
import BlockDoc.Proofs.Command.Lossless

namespace BlockDoc.Command

variable {z : Compression} {s s' : Store} {c : Config} {d : Document}

/-! ## 1. What a conversion touches -/

/-- Whether a conversion writes a dump. -/
def Conversion.toDump : Conversion → Bool
  | .unpack => true
  | .pack _ => false
  | .decode _ => true
  | .encode _ => false
  | .code => true

theorem outputOf_toDump {conversion : Conversion} (h : conversion.toDump = true)
    (charset : Charset) (d : Document) (z : Compression) :
    outputOf charset d conversion z = Dump.emission charset d := by
  cases conversion with
  | unpack => rfl
  | pack seed => cases h
  | decode grouped => rfl
  | encode grouped => cases h
  | code => rfl

/-- **An emission changes one file**, or nothing. -/
theorem emit_cases (s : Store) (path : String) (e : Emission) :
    (s.emit path e).1 = s ∨ ∃ bytes l, e.content? = some bytes ∧ s.target path = .ok l ∧
      s.emit path e = (s.put l (.file bytes), e.result) := by
  obtain ⟨content?, result⟩ := e
  cases content? with
  | none => exact .inl rfl
  | some bytes =>
    cases htarget : s.target path with
    | error f =>
      have hwrite : s.write path bytes = .error f := by
        rw [Store.write, htarget]
        rfl
      left
      simp only [Store.emit, hwrite]
    | ok l =>
      refine .inr ⟨bytes, l, rfl, rfl, ?_⟩
      simp only [Store.emit, Store.write_eq_put htarget bytes]

/-- A conversion whose input was read is the emission of its document. -/
theorem run_eq_emit {charset : Charset} (hcharset : c.charset = .ok charset)
    (hread : readInput s.read charset c z = .ok d) :
    run s c z =
      ((s.emit c.output (outputOf charset d c.conversion z)).1,
        (inFile c.output (s.emit c.output (outputOf charset d c.conversion z)).2).map
          fun _ => d) := by
  rw [run, plan_eq_ok.2 ⟨charset, hcharset, hread, rfl⟩]

/-- **A conversion changes one file**, or nothing. -/
theorem run_cases (s : Store) (c : Config) (z : Compression) :
    (run s c z).1 = s ∨ ∃ charset d bytes l, c.charset = .ok charset ∧
      readInput s.read charset c z = .ok d ∧
      (outputOf charset d c.conversion z).content? = some bytes ∧ s.target c.output = .ok l ∧
      run s c z = (s.put l (.file bytes),
        (inFile c.output (outputOf charset d c.conversion z).result).map fun _ => d) := by
  cases hplan : plan s.read c z with
  | error e => exact .inl (by rw [run, hplan])
  | ok planned =>
    obtain ⟨d, e⟩ := planned
    obtain ⟨charset, hcharset, hread, -⟩ := plan_eq_ok.1 hplan
    rw [run_eq_emit hcharset hread]
    rcases emit_cases s c.output (outputOf charset d c.conversion z) with
      hs | ⟨bytes, l, hcontent, htarget, hemit⟩
    · exact .inl hs
    · exact .inr ⟨charset, d, bytes, l, hcharset, hread, hcontent, htarget, by rw [hemit]⟩

/-! ## 2. An output that is lost -/

/-- A conversion empties the file at a location and fails: it is to write a dump there, but the
document that it read has none. -/
structure Empties (s : Store) (c : Config) (z : Compression) (l : Location) (e : Error) :
    Prop where
  /-- A dump is to be written. -/
  toDump : c.conversion.toDump = true
  /-- The location can be written. -/
  target : s.target c.output = .ok l
  /-- The document was read, and cannot be put into the form or the characters of a dump. -/
  document : ∃ charset d, c.charset = .ok charset ∧ readInput s.read charset c z = .ok d ∧
    Dump.encode charset d = .error e

/-- **Where a file is emptied**, the conversion fails with the reason why there is no dump. -/
theorem Empties.run_eq {l : Location} {e : Error} (h : Empties s c z l e) :
    run s c z = (s.put l (.file []), .error (.convert c.output e)) := by
  obtain ⟨charset, d, hcharset, hread, hencode⟩ := h.document
  have hemission : outputOf charset d c.conversion z = ⟨some [], .error e⟩ := by
    rw [outputOf_toDump h.toDump, Dump.emission, hencode]
  rw [run_eq_emit hcharset hread, hemission]
  simp only [Store.emit, Store.write_eq_put h.target []]
  rfl

theorem encode_of_emission {charset : Charset} {e : Error}
    (hresult : (Dump.emission charset d).result = .error e) :
    Dump.encode charset d = .error e := by
  cases hencode : Dump.encode charset d with
  | ok bytes =>
    rw [Dump.emission, hencode] at hresult
    cases hresult
  | error e' =>
    rw [Dump.emission, hencode] at hresult
    cases hresult
    rfl

/-- **The only emission that fails and changes a file** is that of a dump. -/
theorem encode_of_outputOf {charset : Charset} {bytes : Bytes} {e : Error}
    (hread : readInput s.read charset c z = .ok d)
    (hcontent : (outputOf charset d c.conversion z).content? = some bytes)
    (hresult : (outputOf charset d c.conversion z).result = .error e) :
    c.conversion.toDump = true ∧ Dump.encode charset d = .error e := by
  cases hdump : c.conversion.toDump with
  | true =>
    rw [outputOf_toDump hdump] at hresult
    exact ⟨rfl, encode_of_emission hresult⟩
  | false =>
    exfalso
    cases hconversion : c.conversion with
    | unpack => rw [hconversion] at hdump; cases hdump
    | decode grouped => rw [hconversion] at hdump; cases hdump
    | code => rw [hconversion] at hdump; cases hdump
    | pack seed =>
      -- an archive that could not be built is not written
      rw [hconversion, outputOf, Archive.emission] at hcontent hresult
      split at hcontent
      next hbuild => rw [hbuild] at hresult; cases hresult
      next => cases hcontent
    | encode grouped =>
      rw [readInput, hconversion] at hread
      rw [hconversion, outputOf,
        (loaded_of_loadFile (mapError_eq_ok.1 hread)).emission_binary] at hresult
      cases hresult

/-! ## 3. What a failure leaves behind -/

variable {e : ConvertError}

/-- **A failed conversion** changes nothing, or it empties a file. -/
theorem run_failed_cases (hrun : run s c z = (s', .error e)) :
    s' = s ∨ ∃ l cause, Empties s c z l cause := by
  rcases run_cases s c z with hs | ⟨charset, d, bytes, l, hcharset, hread, hcontent, htarget, h⟩
  · rw [hrun] at hs
    exact .inl hs
  · right
    rw [hrun] at h
    cases hresult : (outputOf charset d c.conversion z).result with
    | ok _ =>
      rw [hresult] at h
      cases h
    | error cause =>
      obtain ⟨hdump, hencode⟩ := encode_of_outputOf hread hcontent hresult
      exact ⟨l, cause, hdump, htarget, charset, d, hcharset, hread, hencode⟩

/-- **What an emptied file leaves behind**: an empty file, and the others as they were. -/
theorem Empties.after {l : Location} {cause : Error} (h : Empties s c z l cause)
    (hrun : run s c z = (s', .error e)) :
    e = .convert c.output cause ∧ s'.read c.output = .ok [] ∧
      s'.node? l = some (.file []) ∧ ∀ l', l' ≠ l → s'.node? l' = s.node? l' := by
  have hwrite := Store.write_eq_put h.target []
  rw [h.run_eq] at hrun
  cases hrun
  exact ⟨rfl, Store.read_write hwrite, Store.node?_put_self (Store.target_ne_nil h.target),
    fun _ hl => Store.node?_put_of_ne hl⟩

/-- **What a failed conversion leaves behind**: all files as they were, unless a dump was to be
written for a document that has none and the file at the output path was not empty before.

This file is empty afterwards, and the others are as they were.  It can happen to a dump only. -/
theorem run_failed (hrun : run s c z = (s', .error e)) :
    ((∀ l, s'.node? l = s.node? l) ↔
      ∀ l cause, Empties s c z l cause → s.node? l = some (.file [])) ∧
    ((∀ l cause, ¬ Empties s c z l cause) → s' = s) ∧
    (∀ l cause, Empties s c z l cause →
      e = .convert c.output cause ∧ s'.read c.output = .ok [] ∧
        ∀ l', l' ≠ l → s'.node? l' = s.node? l') ∧
    (c.conversion.toDump = false → s' = s) := by
  have hnone : (∀ l cause, ¬ Empties s c z l cause) → s' = s := by
    intro hnone
    rcases run_failed_cases hrun with hs | ⟨l, cause, he⟩
    · exact hs
    · exact absurd he (hnone l cause)
  refine ⟨⟨?_, ?_⟩, hnone, ?_, ?_⟩
  · intro h l cause he
    obtain ⟨-, -, hself, -⟩ := he.after hrun
    rw [← h, hself]
  · intro h l'
    rcases run_failed_cases hrun with rfl | ⟨l, cause, he⟩
    · rfl
    · obtain ⟨-, -, hself, hother⟩ := he.after hrun
      by_cases hl : l' = l
      · rw [hl, hself, h l cause he]
      · exact hother l' hl
  · intro l cause he
    obtain ⟨hcause, hread, -, hother⟩ := he.after hrun
    exact ⟨hcause, hread, hother⟩
  · intro hdump
    refine hnone fun l cause he => ?_
    rw [he.toDump] at hdump
    cases hdump

/-! ## 4. Decoding over an old dump -/

/-- The bytes of an older dump. -/
def oldDump : Bytes := [0x6F, 0x6C, 0x64, 0x0A]

/-- Files with a binary document beside the older dump. -/
def besideOld (content : Bytes) : Store :=
  ⟨[(["in.bin"], .file content), (["out.txt"], .file oldDump)], []⟩

/-- The request to decode the document into the older dump, with the usual settings. -/
def decodeBinary : Config := ⟨"windows-1251", "info", .decode false, "in.bin", "out.txt"⟩

/-- A document that ends too early is not decoded, and the older dump stays. -/
theorem run_failed_truncated : ∃ s',
    run (besideOld [0x01]) decodeBinary =
      (s', .error (.convert "in.bin" (.unexpectedEof .documentHeader))) ∧
    ∀ l, s'.node? l = (besideOld [0x01]).node? l := by
  have hread : readInput (besideOld [0x01]).read .windows1251 decodeBinary =
      .error (.convert "in.bin" (.unexpectedEof .documentHeader)) := rfl
  have hset : decodeBinary.charset = .ok .windows1251 := charset_of_label usual_label
  have hrun : run (besideOld [0x01]) decodeBinary =
      (besideOld [0x01], .error (.convert "in.bin" (.unexpectedEof .documentHeader))) := by
    rw [run, plan, hset]
    simp only [Except.mapError, ok_bind, hread]
    rfl
  refine ⟨_, hrun, (run_failed hrun).1.2 fun l cause he => ?_⟩
  obtain ⟨charset, d, hcharset, hdocument, -⟩ := he.document
  obtain rfl := Except.ok.inj (hset.symm.trans hcharset)
  rw [hread] at hdocument
  cases hdocument

/-- **A failed conversion can lose the output**: decoding a document whose value has no form over
an older dump fails, and the older dump is gone. -/
theorem decode_empties : ∃ s',
    run (besideOld (singleBytes "\r>>>")) decodeBinary =
      (s', .error (.convert "out.txt" (.unrepresentableValue "a"))) ∧
    (besideOld (singleBytes "\r>>>")).read "out.txt" = .ok oldDump ∧
    s'.read "out.txt" = .ok [] := by
  have hparse : Binary.parse .plain (singleBytes "\r>>>" ++ []) = _ := parse_single (by decide) []
  rw [List.append_nil] at hparse
  have hread : readInput (besideOld (singleBytes "\r>>>")).read .windows1251 decodeBinary =
      .ok (single "\r>>>") := congrArg (inFile "in.bin") hparse
  have hencode :
      Dump.encode .windows1251 (single "\r>>>") = .error (.unrepresentableValue "a") := by
    rw [Dump.encode, Dump.format, items_single]
    rfl
  have hempties : Empties (besideOld (singleBytes "\r>>>")) decodeBinary .zlib ["out.txt"]
      (.unrepresentableValue "a") :=
    ⟨rfl, rfl, _, _, charset_of_label usual_label, hread, hencode⟩
  exact ⟨_, hempties.run_eq, rfl, rfl⟩

end BlockDoc.Command
