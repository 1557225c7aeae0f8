/-
# When a conversion overwrites its input

A request is refused if its two paths are the same but for the parts that carry no meaning.  This
compares texts.  What is overwritten is a file, and two texts can lead to one file (`Aliased`): a
name `.` counts at the front of a path and not elsewhere, `..` is kept as it stands, and a path from
the root is never the same as one from the working directory.

A conversion changes one file at most, and every path leads where it led before.  So the input stays
as it was unless the paths are aliased, and then it becomes what is at the output path
(`run_keeps_input_iff`), which is what was written if the conversion succeeds (`run_aliased`).  Paths
without `..` are aliased if they have the same names from the root (`aliased_iff`), so for those that
begin alike the check is enough (`not_aliased_of_validate`).

Main statement: `run_keeps_input`.  It cannot say more: `encode_overwrites`.
-/
import BlockDoc.Proofs.Command.Failure

namespace BlockDoc.Command

variable {z : Compression} {s : Store} {c : Config} {d : Document}

/-! ## 1. Two paths to one file -/

/-- The input is read from the file that the output is written to. -/
def Aliased (s : Store) (c : Config) : Prop :=
  ∃ l, s.locate c.input = .ok l ∧ s.target c.output = .ok l

/-- What a request must be like to pass the check. -/
theorem validate_eq_ok {present : String → Bool} :
    c.validate present = .ok () ↔ (∃ charset, c.charset = .ok charset) ∧
      isLogLevel c.logLevel = true ∧ present c.input = true ∧
      Path.key c.input ≠ Path.key c.output := by
  have hsame : Path.same c.input c.output = true ↔ Path.key c.input = Path.key c.output :=
    beq_iff_eq
  rw [Config.validate, bind_eq_ok, ← exists_and_right]
  refine exists_congr fun charset => and_congr_right fun _ => ?_
  by_cases hlevel : isLogLevel c.logLevel = true <;>
    by_cases hpresent : present c.input = true <;>
      by_cases hkey : Path.key c.input = Path.key c.output <;>
        simp [hlevel, hpresent, hsame, hkey]

/-- What is at the input of a request that passes the check is at a location. -/
theorem locate_of_validate (hv : c.validate s.isPresent = .ok ()) :
    ∃ l, s.locate c.input = .ok l := by
  have hpresent := (validate_eq_ok.mp hv).2.2.1
  rw [Store.isPresent] at hpresent
  cases hlocate : s.locate c.input with
  | error e => rw [hlocate] at hpresent; cases hpresent
  | ok l => exact ⟨l, rfl⟩

/-- **When paths without `..` lead to one file**: if the output can be written, and both have the
same names from the root. -/
theorem aliased_iff (hv : c.validate s.isPresent = .ok ())
    (hinput : ['.', '.'] ∉ (Path.key c.input).2) (houtput : ['.', '.'] ∉ (Path.key c.output).2) :
    Aliased s c ↔ (∃ l, s.target c.output = .ok l) ∧ s.placeOf c.input = s.placeOf c.output := by
  constructor
  · rintro ⟨l, hlocate, htarget⟩
    have hl := Store.location_of_locate houtput (Store.locate_target htarget)
    exact ⟨⟨l, htarget⟩, (Store.location_of_locate hinput hlocate).symm.trans hl⟩
  · rintro ⟨⟨l, htarget⟩, hplace⟩
    obtain ⟨l', hlocate⟩ := locate_of_validate hv
    have hl' := Store.location_of_locate hinput hlocate
    have hl := Store.location_of_locate houtput (Store.locate_target htarget)
    obtain rfl : l' = l := (hl'.trans hplace).trans hl.symm
    exact ⟨l', hlocate, htarget⟩

/-- **The check is enough** for paths without `..` that begin alike. -/
theorem not_aliased_of_validate (hv : c.validate s.isPresent = .ok ())
    (hinput : ['.', '.'] ∉ (Path.key c.input).2) (houtput : ['.', '.'] ∉ (Path.key c.output).2)
    (hfront : (Path.key c.input).1 = (Path.key c.output).1) : ¬ Aliased s c := by
  intro h
  have hplace := ((aliased_iff hv hinput houtput).mp h).2
  rw [Store.placeOf, Store.placeOf, Store.startOf_congr hfront] at hplace
  have hnames : (Path.key c.input).2 = (Path.key c.output).2 :=
    List.map_injective_iff.mpr (fun _ _ h => String.ofList_injective h)
      (List.append_cancel_left hplace)
  exact (validate_eq_ok.mp hv).2.2.2 (Prod.ext hfront hnames)

/-! ## 2. What becomes of the input -/

/-- **The input stays as it was**, or it becomes what is at the output path. -/
theorem run_keeps_input_iff (hv : c.validate s.isPresent = .ok ()) (z : Compression) :
    (run s c z).1.read c.input = s.read c.input ↔
      (Aliased s c → (run s c z).1.read c.output = s.read c.output) := by
  obtain ⟨l, hlocate⟩ := locate_of_validate hv
  rcases run_cases s c z with hs | ⟨charset, d, bytes, l', -, -, -, htarget, hrun⟩
  · rw [hs]
    exact ⟨fun _ _ => rfl, fun _ => rfl⟩
  · have hnode := Store.node?_target htarget
    have hrun : (run s c z).1 = s.put l' (.file bytes) := congrArg Prod.fst hrun
    rw [hrun]
    have hlocate' : (s.put l' (.file bytes)).locate c.input = .ok l :=
      Store.locate_put hnode hlocate
    by_cases hl : l = l'
    · -- both paths lead to the file that was written
      subst hl
      have hold : s.read c.output = s.read c.input :=
        Store.read_congr hlocate (Store.locate_target htarget) rfl
      have hnew : (s.put l (.file bytes)).read c.output = (s.put l (.file bytes)).read c.input :=
        Store.read_congr hlocate' (Store.locate_put hnode (Store.locate_target htarget)) rfl
      rw [hold, hnew]
      exact ⟨fun h _ => h, fun h => h ⟨l, hlocate, htarget⟩⟩
    · refine ⟨fun _ ⟨l'', hlocate'', htarget'⟩ => ?_, fun _ => ?_⟩
      · cases htarget.symm.trans htarget'
        exact absurd (Except.ok.inj (hlocate.symm.trans hlocate'')) hl
      · exact Store.read_congr hlocate hlocate' (Store.node?_put_of_ne hl)

/-- **A conversion between aliased paths that succeeds** leaves what it wrote in its input. -/
theorem run_aliased (h : Aliased s c) (hrun : (run s c z).2 = .ok d) :
    ∃ charset bytes, c.charset = .ok charset ∧
      outputOf charset d c.conversion z = ⟨some bytes, .ok ()⟩ ∧
      (run s c z).1.read c.input = .ok bytes := by
  obtain ⟨l, hlocate, htarget⟩ := h
  have hrun : run s c z = ((run s c z).1, .ok d) := Prod.ext rfl hrun
  obtain ⟨charset, bytes, hcharset, -, hout, hwrite⟩ := run_eq_ok.1 hrun
  refine ⟨charset, bytes, hcharset, hout, ?_⟩
  have hput : (run s c z).1 = s.put l (.file bytes) :=
    Except.ok.inj (hwrite.symm.trans (Store.write_eq_put htarget bytes))
  have hnode := Store.node?_target htarget
  rw [← Store.read_write hwrite, hput]
  exact Store.read_congr (Store.locate_put hnode (Store.locate_target htarget))
    (Store.locate_put hnode hlocate) rfl

/-- **When a checked request keeps its input**: if and only if its paths are not aliased, or what is
at the output path stays as it was; a conversion between aliased paths that succeeds leaves what it
wrote.  Paths without `..` are not aliased if they begin alike, or have different names from the
root. -/
theorem run_keeps_input (hv : c.validate s.isPresent = .ok ()) (z : Compression) :
    ((run s c z).1.read c.input = s.read c.input ↔
      (Aliased s c → (run s c z).1.read c.output = s.read c.output)) ∧
    (∀ d, Aliased s c → (run s c z).2 = .ok d → ∃ charset bytes, c.charset = .ok charset ∧
      outputOf charset d c.conversion z = ⟨some bytes, .ok ()⟩ ∧
      (run s c z).1.read c.input = .ok bytes) ∧
    (['.', '.'] ∉ (Path.key c.input).2 → ['.', '.'] ∉ (Path.key c.output).2 →
      (Path.key c.input).1 = (Path.key c.output).1 ∨ s.placeOf c.input ≠ s.placeOf c.output →
        (run s c z).1.read c.input = s.read c.input) := by
  refine ⟨run_keeps_input_iff hv z, fun d h => run_aliased h, fun hinput houtput hapart => ?_⟩
  refine (run_keeps_input_iff hv z).mpr fun h => ?_
  rcases hapart with hfront | hplace
  · exact absurd h (not_aliased_of_validate hv hinput houtput hfront)
  · exact absurd ((aliased_iff hv hinput houtput).mp h).2 hplace

/-! ## 3. A dump and its encoding under one name -/

/-- The bytes of a dump with one parameter. -/
def plainDump : Bytes := [0x61, 0x3D, 0x31, 0x0A]

/-- The usual log level. -/
theorem isLogLevel_usual : isLogLevel "info" = true := by decide +kernel

/-- A dump is encoded into another file, and stays as it was. -/
theorem run_keeps_input_apart :
    encodeDump.validate (dumped plainDump).isPresent = .ok () ∧
      (run (dumped plainDump) encodeDump).1.read "in.txt" = .ok plainDump := by
  have hv : encodeDump.validate (dumped plainDump).isPresent = .ok () :=
    validate_eq_ok.mpr ⟨⟨_, charset_of_label usual_label⟩, isLogLevel_usual, rfl, by decide⟩
  exact ⟨hv, (run_keeps_input hv .zlib).2.2 (by decide) (by decide) (.inl (by decide))⟩

/-- The dump in a working directory that is not the root. -/
def atWork : Store := ⟨[(["w"], .directory), (["w", "in.txt"], .file plainDump)], ["w"]⟩

/-- The request to encode the dump at a path into a file of its own name. -/
def encodeInPlace (path : String) : Config :=
  ⟨"windows-1251", "info", .encode false, path, "in.txt"⟩

/-- The request passes the check and succeeds, and the dump is gone. -/
def Overwrites (path : String) : Prop :=
  (encodeInPlace path).validate atWork.isPresent = .ok () ∧ atWork.read path = .ok plainDump ∧
    ∃ s', run atWork (encodeInPlace path) = (s', .ok (single "1")) ∧
      s'.read path = .ok (singleBytes "1") ∧ singleBytes "1" ≠ plainDump

/-- This is so for every path to the dump that the check takes for another one. -/
theorem overwrites_of_locate {path : String} (hlocate : atWork.locate path = .ok ["w", "in.txt"])
    (hkey : Path.key path ≠ Path.key "in.txt")
    (hread : (Dump.Source.ofFile path).read atWork.read { charset := .windows1251 } =
      .ok (single "1")) :
    Overwrites path := by
  have hpresent : atWork.isPresent path = true := by
    rw [Store.isPresent, hlocate]
    rfl
  have hset : (encodeInPlace path).charset = .ok .windows1251 := charset_of_label usual_label
  have hv : (encodeInPlace path).validate atWork.isPresent = .ok () :=
    validate_eq_ok.mpr ⟨⟨_, hset⟩, isLogLevel_usual, hpresent, hkey⟩
  have htarget : atWork.target "in.txt" = .ok ["w", "in.txt"] := rfl
  have hfile : atWork.read path = .ok plainDump := by
    rw [Store.read, hlocate]
    rfl
  have hafter : (atWork.put ["w", "in.txt"] (.file (singleBytes "1"))).read path =
      .ok (singleBytes "1") := by
    rw [Store.read, Store.locate_put (Store.node?_target htarget) hlocate]
    rfl
  exact ⟨hv, hfile, _, run_encode_single hset rfl hread (Store.write_eq_put htarget _), hafter,
    by decide⟩

/-- **A checked request can overwrite its input**: the check takes two spellings for two files,
whether a dot, the parent directory or the root stands at the front of one of them. -/
theorem encode_overwrites :
    Overwrites "./in.txt" ∧ Overwrites "../w/in.txt" ∧ Overwrites "/w/in.txt" :=
  ⟨overwrites_of_locate rfl (by decide) (Dump.Source.read_of_iterate (n := 2) rfl),
    overwrites_of_locate rfl (by decide) (Dump.Source.read_of_iterate (n := 2) rfl),
    overwrites_of_locate rfl (by decide) (Dump.Source.read_of_iterate (n := 2) rfl)⟩

end BlockDoc.Command
