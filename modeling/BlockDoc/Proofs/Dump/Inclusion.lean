/-
# Dumps that include each other

A dump that is included is read before the reader goes on, and it may include further dumps, itself
among them.  To count these readings they are put on a stack of their own here: a status is the
reading at work and the readings that wait for it, innermost first, and `step` is what the reader
does with one line.

* Every reading comes to its end after finitely many steps, with the outcome of `readLines`, and
  hands it to the one that waits (`reaches_outcome`, by the recursion of `readLines`).
* What is left of the limit is handed from a reading to the one that it includes.  Each step keeps
  the account (`Status.Accounted.step`), so along the stack of readings what one has left and what
  the ones around it have used are together the limit of the first.
* The blocks of an included dump lie below all blocks that were open where it was asked for.  The
  account leaves just so much room for them, so every document fits (`HasRoom`), whichever dump its
  blocks come from (`readLines_fits`).
-/
import BlockDoc.Proofs.Dump.RoundTrip
import Mathlib.Logic.Function.Iterate

namespace BlockDoc.Dump

/-! ## 1. One line at a time -/

/-- The state in which a dump is read. -/
structure Reading where
  /-- How many blocks may lie inside each other. -/
  limit : Nat
  /-- The directory that relative paths start from. -/
  baseDir? : Option String
  /-- How many lines were read. -/
  number : Nat
  /-- The lines ahead. -/
  lines : List RawLine
  /-- The document that is open. -/
  top : Document
  /-- The documents around it. -/
  stack : List OpenBlock

/-- A reading that waits for an included dump. -/
structure Waiting where
  /-- The reading, behind the line that asked for the dump. -/
  reading : Reading
  /-- The name of the block that starts with the content of the dump. -/
  name : String
  /-- The order of this block. -/
  sorted : Bool

/-- Where reading stands. -/
inductive Status where
  /-- A dump is read, and some readings wait for it. -/
  | busy (r : Reading) (waiting : List Waiting)
  /-- Reading has come to an end. -/
  | done (result : Except Error Document)

/-- A block starts. -/
def Reading.enter (r : Reading) (name : String) (content : Document) : Reading :=
  { r with top := content, stack := ⟨r.top, name⟩ :: r.stack }

/-- The reading of an included dump: its limit is what is left. -/
def Reading.included (r : Reading) (text : List Char) (dir? : Option String) : Reading :=
  ⟨r.limit - (r.stack.length + 1), dir?, 0, rawLines text, .empty true, []⟩

/-- A reading has come to an end, and the one that waits for it goes on. -/
def Status.handOver (waiting : List Waiting) : Except Error Document → Status
  | .error e => .done (.error e)
  | .ok d => match waiting with
    | [] => .done (.ok d)
    | w :: waiting => .busy (w.reading.enter w.name (d.setSorted w.sorted)) waiting

/-- What is done with a line. -/
def Reading.line (files : FileReader) (charset : Charset) (r : Reading) (waiting : List Waiting) :
    Line → Status
  | .opening name sorted path? =>
    if r.stack.length + 1 ≥ r.limit then .done (.error (.nestingTooDeep r.limit))
    else match path? with
      | none => .busy (r.enter (String.ofList name) (.empty sorted)) waiting
      | some path =>
        match openFile files charset (resolve r.baseDir? (String.ofList path)) with
        | .error e => .done (.error e)
        | .ok (text, dir?) =>
          .busy (r.included text dir?) (⟨r, String.ofList name, sorted⟩ :: waiting)
  | .closing => match r.stack with
    | [] => .busy r waiting
    | b :: outer =>
      .busy { r with top := b.outer.set b.name (.block r.top), stack := outer } waiting
  | .param name value =>
    .busy { r with top := r.top.set (String.ofList name) (.param (String.ofList value)) } waiting
  | .heredoc name =>
    match takeBody r.number r.lines with
    | .error e => .done (.error e)
    | .ok (body, rest) =>
      let value := heredocValue r.stack.length body
      .busy { r with
        number := r.number + body.length + 1
        lines := rest
        top := r.top.set (String.ofList name) (.param (String.ofList value)) } waiting
  | .noise => .busy r waiting

/-- What the reader does next. -/
def step (files : FileReader) (charset : Charset) : Status → Status
  | .done result => .done result
  | .busy r waiting => match r.lines with
    | [] => .handOver waiting (.ok (closeAll r.top r.stack))
    | none :: _ => .done (.error (.io .malformedText))
    | some line :: rest =>
      { r with number := r.number + 1, lines := rest }.line files charset waiting
        (Line.ofChars line)

/-! ## 2. Every reading comes to an end -/

/-- Some steps lead from one status to another. -/
def Reaches (files : FileReader) (charset : Charset) (s s' : Status) : Prop :=
  ∃ n, (step files charset)^[n] s = s'

variable {files : FileReader} {charset : Charset} {s s' s'' : Status} {limit number : Nat}
  {baseDir? : Option String} {lines : List RawLine} {top : Document} {stack : List OpenBlock}
  {waiting : List Waiting}

theorem Reaches.of_step (h : Reaches files charset (step files charset s) s') :
    Reaches files charset s s' := by
  obtain ⟨n, hn⟩ := h
  exact ⟨n + 1, hn⟩

theorem Reaches.trans (h : Reaches files charset s s') (h' : Reaches files charset s' s'') :
    Reaches files charset s s'' := by
  obtain ⟨n, rfl⟩ := h
  obtain ⟨n', rfl⟩ := h'
  exact ⟨n' + n, Function.iterate_add_apply _ n' n s⟩

/-- Reading that has come to an end stays there. -/
theorem iterate_step_done (result : Except Error Document) (n : Nat) :
    (step files charset)^[n] (.done result) = .done result :=
  Function.iterate_fixed rfl n

/-- One step is enough. -/
theorem Reaches.single (h : step files charset s = s') : Reaches files charset s s' := ⟨1, h⟩

/-- **Every reading comes to an end**, whatever it includes, and hands its outcome to the reading
that waits for it. -/
theorem reaches_outcome (waiting : List Waiting) :
    Reaches files charset (.busy ⟨limit, baseDir?, number, lines, top, stack⟩ waiting)
      (.handOver waiting (readLines files charset limit baseDir? number lines top stack)) := by
  fun_induction readLines files charset limit baseDir? number lines top stack
    generalizing waiting with
  | case1 => exact .single rfl
  | case2 => exact .single rfl
  | case3 limit baseDir? number top stack line rest name sorted path? hline hlevel =>
    exact .single (by simp only [step, Reading.line, hline, if_pos hlevel, Status.handOver])
  | case4 limit baseDir? number top stack line rest name sorted hlevel stack' hline =>
    rename_i ih
    refine .of_step ?_
    simp only [step, Reading.line, hline, if_neg hlevel]
    exact ih waiting
  | case5 limit baseDir? number top stack line rest name sorted hlevel path e ho hline =>
    exact .single (by
      simp only [step, Reading.line, hline, if_neg hlevel, ho, Status.handOver])
  | case6 limit baseDir? number top stack line rest name sorted hlevel path text dir? ho e
      hi hline ihi =>
    -- an included dump cannot be read
    refine .of_step ?_
    simp only [step, Reading.line, hline, if_neg hlevel, ho]
    have h := ihi (⟨⟨limit, baseDir?, number + 1, rest, top, stack⟩, .ofList name, sorted⟩ :: waiting)
    rw [hi] at h
    exact h
  | case7 limit baseDir? number top stack line rest name sorted hlevel stack' path text dir? ho
      included hi hline ihi =>
    rename_i ih
    -- the included dump is read, and then the rest of this one
    refine .of_step ?_
    simp only [step, Reading.line, hline, if_neg hlevel, ho]
    have h := ihi (⟨⟨limit, baseDir?, number + 1, rest, top, stack⟩, .ofList name, sorted⟩ :: waiting)
    rw [hi] at h
    exact h.trans (ih waiting)
  | case8 limit baseDir? number top line rest hline ih =>
    refine .of_step ?_
    simp only [step, Reading.line, hline]
    exact ih waiting
  | case9 limit baseDir? number top line rest hline b outer ih =>
    refine .of_step ?_
    simp only [step, Reading.line, hline]
    exact ih waiting
  | case10 limit baseDir? number top stack line rest name value hline ih =>
    refine .of_step ?_
    simp only [step, Reading.line, hline]
    exact ih waiting
  | case11 limit baseDir? number top stack line rest name hline e hb =>
    exact .single (by simp only [step, Reading.line, hline, hb, Status.handOver])
  | case12 limit baseDir? number top stack line rest name hline body rest' hb ih =>
    refine .of_step ?_
    simp only [step, Reading.line, hline, hb]
    exact ih waiting
  | case13 limit baseDir? number top stack line rest hline ih =>
    refine .of_step ?_
    simp only [step, Reading.line, hline]
    exact ih waiting

/-! ## 3. What is left of the limit -/

/-- The account of a reading with some limit and of those that wait for it.  What a reading hands
to the one that it includes is what the blocks around the included dump leave of its own limit, and
it is more than nothing.  The first reading has the limit `total`. -/
def Accounted (total : Nat) : (limit : Nat) → List Waiting → Prop
  | limit, [] => limit = total
  | limit, w :: waiting => 0 < limit ∧ limit + (w.reading.stack.length + 1) = w.reading.limit ∧
      Accounted total w.reading.limit waiting

/-- The account is in order, and the reading at work has not used more than it has. -/
def Status.Accounted (total : Nat) : Status → Prop
  | .busy r waiting => HasRoom r.limit 0 r.stack.length ∧ Dump.Accounted total r.limit waiting
  | .done _ => True

variable {total : Nat} {r : Reading}

/-- **A dump that is included has a smaller limit** than the one that includes it. -/
theorem Accounted.pairwise (h : Accounted total limit waiting) :
    (limit :: waiting.map fun w => w.reading.limit).Pairwise (· < ·) := by
  induction waiting generalizing limit with
  | nil => exact List.pairwise_singleton _ _
  | cons w waiting ih =>
    obtain ⟨-, hsum, h⟩ := h
    have hw := ih h
    have hlt : limit < w.reading.limit := by omega
    refine List.pairwise_cons.mpr ⟨fun limit' hl => ?_, hw⟩
    rcases List.mem_cons.mp hl with rfl | hl
    · exact hlt
    · exact hlt.trans ((List.pairwise_cons.mp hw).1 limit' hl)

theorem Status.Accounted.handOver {result : Except Error Document}
    (h : Dump.Accounted total limit waiting) : (Status.handOver waiting result).Accounted total := by
  cases result with
  | error e => trivial
  | ok d =>
    cases waiting with
    | nil => trivial
    | cons w waiting =>
      obtain ⟨hpos, hsum, h⟩ := h
      refine ⟨.inr ?_, h⟩
      simp only [Reading.enter, List.length_cons]
      omega

/-- What is done with a line keeps the account. -/
theorem Status.Accounted.line (hr : HasRoom r.limit 0 r.stack.length)
    (h : Dump.Accounted total r.limit waiting) (l : Line) :
    (r.line files charset waiting l).Accounted total := by
  cases l with
  | opening name sorted path? =>
    rw [Reading.line.eq_def]
    dsimp only
    split
    next => trivial
    next hlevel =>
      have hlevel : r.stack.length + 1 < r.limit := Nat.lt_of_not_le hlevel
      cases path? with
      | none => exact ⟨.inr hlevel, h⟩
      | some path =>
        dsimp only
        split
        next => trivial
        next text dir? _ =>
          -- the included dump gets what is left, and this reading waits
          refine ⟨.inl rfl, ?_, ?_, h⟩
          · exact Nat.sub_pos_of_lt hlevel
          · exact Nat.sub_add_cancel hlevel.le
  | closing =>
    rw [Reading.line]
    split
    next => exact ⟨hr, h⟩
    next b outer hstack =>
      rw [hstack, List.length_cons] at hr
      refine ⟨?_, h⟩
      simp only [HasRoom] at hr ⊢
      omega
  | param name value => exact ⟨hr, h⟩
  | heredoc name =>
    rw [Reading.line]
    split
    next => trivial
    next => exact ⟨hr, h⟩
  | noise => exact ⟨hr, h⟩

/-- **A step keeps the account.** -/
theorem Status.Accounted.step (h : s.Accounted total) :
    (step files charset s).Accounted total := by
  cases s with
  | done result => trivial
  | busy r waiting =>
    obtain ⟨hr, h⟩ := h
    rw [Dump.step]
    split
    next => exact .handOver h
    next => trivial
    next line rest _ => exact .line (r := { r with number := r.number + 1, lines := rest }) hr h _

/-- **The account is in order all the time.** -/
theorem Status.Accounted.iterate (h : s.Accounted total) (n : Nat) :
    ((Dump.step files charset)^[n] s).Accounted total := by
  induction n with
  | zero => exact h
  | succ n ih =>
    rw [Function.iterate_succ_apply']
    exact ih.step

/-! ## 4. Room for every block -/

/-- The document has room at a level of nesting. -/
def FitsAt (limit level : Nat) (d : Document) : Prop := d.Indexed ∧ HasRoom limit level d.nesting

/-- Every open document has room at its level, and one more block around the innermost. -/
def StackFits (limit : Nat) : List OpenBlock → Prop
  | [] => True
  | b :: outer =>
    outer.length + 1 < limit ∧ FitsAt limit outer.length b.outer ∧ StackFits limit outer

variable {d inner : Document} {level : Nat}

theorem fitsAt_empty (limit level : Nat) (sorted : Bool) : FitsAt limit level (.empty sorted) :=
  ⟨Document.indexed_empty sorted, .inl (Document.nesting_empty sorted)⟩

theorem FitsAt.set_param (h : FitsAt limit level d) (name text : String) :
    FitsAt limit level (d.set name (.param text)) :=
  ⟨h.1.push _, by rw [Document.nesting_set_param h.1]; exact h.2⟩

/-- A block fits if its content fits one level below. -/
theorem FitsAt.set_block (h : FitsAt limit level d) (hlevel : level + 1 < limit)
    (hinner : FitsAt limit (level + 1) inner) (name : String) :
    FitsAt limit level (d.set name (.block inner)) := by
  refine ⟨h.1.push _, ?_⟩
  have hd := h.2
  have hi := hinner.2
  rw [Document.nesting_set_block h.1]
  simp only [HasRoom] at hd hi ⊢
  omega

/-- **What was read with the rest of the limit** fits below the blocks that are open. -/
theorem FitsAt.of_rest (hlevel : level < limit) (h : FitsAt (limit - level) 0 d) (sorted : Bool) :
    FitsAt limit level (d.setSorted sorted) := by
  refine ⟨h.1.setSorted sorted, ?_⟩
  have hd := h.2
  rw [Document.nesting_setSorted h.1]
  simp only [HasRoom] at hd ⊢
  omega

theorem FitsAt.closeAll (h : FitsAt limit stack.length top) (hstack : StackFits limit stack) :
    FitsAt limit 0 (closeAll top stack) := by
  induction stack generalizing top with
  | nil => exact h
  | cons b outer ih =>
    obtain ⟨hlevel, houter, hstack⟩ := hstack
    exact ih (houter.set_block hlevel h b.name) hstack

/-- **Every document that was read has room**, its blocks from other dumps counted. -/
theorem readLines_fits
    (h : readLines files charset limit baseDir? number lines top stack = .ok d)
    (htop : FitsAt limit stack.length top) (hstack : StackFits limit stack) : FitsAt limit 0 d := by
  fun_induction readLines files charset limit baseDir? number lines top stack generalizing d with
  | case1 =>
    cases h
    exact htop.closeAll hstack
  | case2 => cases h
  | case3 => cases h
  | case4 limit baseDir? number top stack line rest name sorted hlevel stack' hline =>
    rename_i ih
    exact ih h (fitsAt_empty limit _ sorted) ⟨Nat.lt_of_not_le hlevel, htop, hstack⟩
  | case5 => cases h
  | case6 => cases h
  | case7 limit baseDir? number top stack line rest name sorted hlevel stack' path text dir? ho
      included hi hline ihi =>
    rename_i ih
    -- the content of the block was read with what the open blocks and this one leave
    have hlevel : stack.length + 1 < limit := Nat.lt_of_not_le hlevel
    have hincluded : FitsAt (limit - (stack.length + 1)) 0 included :=
      ihi hi (fitsAt_empty _ _ true) trivial
    exact ih h (hincluded.of_rest hlevel sorted) ⟨hlevel, htop, hstack⟩
  | case8 limit baseDir? number top line rest hline ih => exact ih h htop hstack
  | case9 limit baseDir? number top line rest hline b outer ih =>
    obtain ⟨hlevel, houter, hstack⟩ := hstack
    exact ih h (houter.set_block hlevel htop b.name) hstack
  | case10 limit baseDir? number top stack line rest name value hline ih =>
    exact ih h (htop.set_param _ _) hstack
  | case11 => cases h
  | case12 limit baseDir? number top stack line rest name hline body rest' hb ih =>
    exact ih h (htop.set_param _ _) hstack
  | case13 limit baseDir? number top stack line rest hline ih => exact ih h htop hstack

/-! ## 5. Whatever is read -/

/-- Where a dump is read from. -/
inductive Source where
  /-- A text. -/
  | ofText (text : List Char)
  /-- Bytes in UTF-8. -/
  | ofBytes (bytes : Bytes)
  /-- A file. -/
  | ofFile (path : String)

/-- Read a dump. -/
def Source.read (files : FileReader) (o : Options) : Source → Except Error Document
  | .ofText text => parseWith files o text
  | .ofBytes bytes => parseBytes files o bytes
  | .ofFile path => loadFile files o path

/-- The first reading of some lines. -/
def Status.start (o : Options) (baseDir? : Option String) (lines : List RawLine) : Status :=
  .busy ⟨o.limit, baseDir?, 0, lines, .empty true, []⟩ []

/-- The first reading of a dump. -/
def Source.start (files : FileReader) (o : Options) : Source → Status
  | .ofText text => .start o o.baseDir? (rawLines text)
  | .ofBytes bytes => .start o o.baseDir? (rawLinesOfBytes bytes)
  | .ofFile path => match openFile files o.charset path with
    | .error e => .done (.error e)
    | .ok (text, dir?) => .start o dir? (rawLines text)

theorem handOver_nil (result : Except Error Document) :
    Status.handOver [] result = .done result := by
  cases result <;> rfl

/-- The first reading ends with what was read. -/
theorem Source.reaches_done (files : FileReader) (o : Options) (source : Source) :
    Reaches files o.charset (source.start files o) (.done (source.read files o)) := by
  cases source with
  | ofText text => exact handOver_nil _ ▸ reaches_outcome []
  | ofBytes bytes => exact handOver_nil _ ▸ reaches_outcome []
  | ofFile path =>
    rw [Source.start, Source.read, loadFile]
    cases openFile files o.charset path with
    | error e => exact ⟨0, rfl⟩
    | ok opened => exact handOver_nil _ ▸ reaches_outcome []

/-- What the steps end with is what was read. -/
theorem Source.read_of_iterate {o : Options} {source : Source} {n : Nat}
    {result : Except Error Document}
    (h : (step files o.charset)^[n] (source.start files o) = .done result) :
    source.read files o = result := by
  obtain ⟨m, hm⟩ := source.reaches_done files o
  have hn : (step files o.charset)^[m + n] (source.start files o) = .done result := by
    rw [Function.iterate_add_apply, h, iterate_step_done]
  have hread : (step files o.charset)^[n + m] (source.start files o) =
      .done (source.read files o) := by
    rw [Function.iterate_add_apply, hm, iterate_step_done]
  rw [Nat.add_comm, hn] at hread
  exact (Status.done.inj hread).symm

theorem Source.accounted_start (files : FileReader) (o : Options) (source : Source) :
    (source.start files o).Accounted o.limit := by
  cases source with
  | ofText text => exact ⟨.inl rfl, rfl⟩
  | ofBytes bytes => exact ⟨.inl rfl, rfl⟩
  | ofFile path =>
    rw [Source.start]
    split
    · trivial
    · exact ⟨.inl rfl, rfl⟩

theorem Source.read_fits {o : Options} {source : Source} (h : source.read files o = .ok d) :
    FitsAt o.limit 0 d := by
  cases source with
  | ofText text => exact readLines_fits h (fitsAt_empty _ _ true) trivial
  | ofBytes bytes => exact readLines_fits h (fitsAt_empty _ _ true) trivial
  | ofFile path =>
    obtain ⟨⟨text, dir?⟩, -, h⟩ := bind_eq_ok.1 h
    exact readLines_fits h (fitsAt_empty _ _ true) trivial

/-- **Reading comes to an end**, whatever is in the files and whichever dumps include each other.
All the time what a dump has left of the limit is smaller than what the one that includes it has,
by the blocks around it, and it is never used up.  A document that was read has fewer blocks inside
each other than the limit, those from included dumps and those that were added to them counted. -/
theorem Source.read_terminates (files : FileReader) (o : Options) (source : Source) :
    (∃ n, ∀ k, n ≤ k →
      (step files o.charset)^[k] (source.start files o) = .done (source.read files o)) ∧
    (∀ n r waiting, (step files o.charset)^[n] (source.start files o) = .busy r waiting →
      HasRoom r.limit 0 r.stack.length ∧ Accounted o.limit r.limit waiting ∧
        (r.limit :: waiting.map fun w => w.reading.limit).Pairwise (· < ·)) ∧
    (∀ d, source.read files o = .ok d → d.nesting = 0 ∨ d.nesting < o.limit) := by
  refine ⟨?_, fun n r waiting hn => ?_, fun d hd => (source.read_fits hd).2⟩
  · obtain ⟨n, hn⟩ := source.reaches_done files o
    refine ⟨n, fun k hk => ?_⟩
    obtain ⟨j, rfl⟩ := Nat.exists_eq_add_of_le' hk
    rw [Function.iterate_add_apply, hn, iterate_step_done]
  · have h : ((step files o.charset)^[n] (source.start files o)).Accounted o.limit :=
      (source.accounted_start files o).iterate n
    rw [hn] at h
    exact ⟨h.1, h.2, h.2.pairwise⟩

/-- A dump whose only line starts a block with the content of the dump itself. -/
def looped : FileReader := fun _ => .ok [0x61, 0x3D, 0x66, 0x7B, 0x0A]

/-- A dump with an empty block. -/
def hollowBlock : FileReader := fun _ => .ok [0x62, 0x7B]

/-- Under a limit of three a dump that includes itself is refused while two of its readings wait,
and a dump that includes an empty block is read. -/
theorem Source.read_terminates_looped :
    (Source.ofFile "f").read looped { limit := 3 } = .error (.nestingTooDeep 1) ∧
    (∃ n, (step looped .windows1251)^[n] ((Source.ofFile "f").start looped { limit := 3 }) =
      .done (.error (.nestingTooDeep 1))) ∧
    (∃ r waiting, (step looped .windows1251)^[2] ((Source.ofFile "f").start looped { limit := 3 }) =
        .busy r waiting ∧ waiting.map (fun w => w.reading.limit) = [2, 3] ∧
      Accounted 3 r.limit waiting) ∧
    ∃ d, (Source.ofText ['a', '=', 'f', '{']).read hollowBlock { limit := 3 } = .ok d ∧
      (d.nesting = 0 ∨ d.nesting < 3) := by
  obtain ⟨⟨n, hend⟩, haccount, -⟩ := Source.read_terminates looped { limit := 3 } (.ofFile "f")
  have hread : (Source.ofFile "f").read looped { limit := 3 } = .error (.nestingTooDeep 1) :=
    Source.read_of_iterate (n := 3) rfl
  rw [hread] at hend
  have hhollow : (Source.ofText ['a', '=', 'f', '{']).read hollowBlock { limit := 3 } =
      .ok ((Document.empty true).set "a" (.block
        (((Document.empty true).set "b" (.block (.empty true))).setSorted true))) :=
    Source.read_of_iterate (n := 4) rfl
  refine ⟨hread, ⟨n, hend n (Nat.le_refl n)⟩,
    ⟨_, _, rfl, rfl, (haccount 2 _ _ rfl).2.1⟩, _, hhollow,
    (Source.read_terminates hollowBlock { limit := 3 } (.ofText ['a', '=', 'f', '{'])).2.2 _ hhollow⟩

end BlockDoc.Dump
