/-
# Reading by descent

    document := flag, count, entry × count
    entry    := [word, word], kind, name, text | document

`Grammar` reads this as it stands: a document is read by reading its entries one after the other,
and a block by reading the document in it.  All that it takes from the input are words.  The two
words in front of an entry stand there in the grouped layout if the document around is sorted; kind
and name are read before the kind is judged, and the depth of a block is judged before the flag and
the count of its document are read.

The reader has a stack of open documents instead.  What it has to do for the entries that are missing
in the innermost of them does not depend on the others, and afterwards it goes on with these: so it
does what the descent does and then the rest (`readFrames_entries`).  The induction is on how much
deeper blocks may lie, which bounds the descent, and on the number of missing entries.

The descent is as deep as the limit allows, and as broad as the counts say, which may be any numbers.
The reader stops all the same: an entry takes a byte at least, and a document that is closed was
opened by an entry.  So there are at most two rounds for each byte of the input and a last one
(`Reader.rounds_reading`).

Main statement: `readDocument_eq_grammar`.
-/
import BlockDoc.Proofs.Binary.Accepted
import Mathlib.Logic.Function.Iterate

namespace BlockDoc.Binary

variable {layout : Layout} {limit : Nat}

/-! ## 1. The grammar -/

namespace Grammar

/-- The sixteen-bit units up to a zero unit. -/
def units (inp : Input) : Except Error (List Nat × Input) :=
  match _h : inp.word 2 .wideString with
  | .error e => .error e
  | .ok (unit, rest) =>
    if unit = 0 then .ok ([], rest)
    else match units rest with
      | .error e => .error e
      | .ok (us, rest) => .ok (unit :: us, rest)
termination_by inp.bytes.length
decreasing_by
  have := Input.length_of_word _h
  omega

/-- A text.  Units that form no text are reported with the offset of the first of them. -/
def text (inp : Input) : Except Error (String × Input) := do
  let (us, rest) ← units inp
  match Text.ofUnits? us with
  | some cs => .ok (String.ofList cs, rest)
  | none => .error (.invalidWideString inp.offset)

/-- The two words in front of an entry. -/
def words (layout : Layout) (sorted : Bool) (inp : Input) : Except Error Input :=
  if layout = .grouped ∧ sorted = true then do
    let (_, inp) ← inp.word 4 .groupHeader
    let (_, inp) ← inp.word 4 .groupHeader
    .ok inp
  else .ok inp

mutual

/-- A document with `depth` others around it. -/
def document (layout : Layout) (limit depth : Nat) (region : Region) (inp : Input) :
    Except Error (Document × Input) := do
  let (flag, inp) ← inp.word 1 region
  let (count, inp) ← inp.word 4 region
  entries layout limit depth count (.empty (flag == 1)) inp
termination_by (limit - depth, 2, 0)

/-- Some entries, added to a document one after the other. -/
def entries (layout : Layout) (limit depth : Nat) :
    Nat → Document → Input → Except Error (Document × Input)
  | 0, d, inp => .ok (d, inp)
  | count + 1, d, inp => do
    let ((name, value), inp) ← entry layout limit depth d.sorted inp
    entries layout limit depth count (d.set name value) inp
termination_by count => (limit - depth, 1, count)

/-- An entry of a document with `depth` others around it. -/
def entry (layout : Layout) (limit depth : Nat) (sorted : Bool) (inp : Input) :
    Except Error ((String × Value) × Input) := do
  let inp ← words layout sorted inp
  let (byte, inp) ← inp.word 1 .entryKind
  let (name, inp) ← text inp
  match UInt8.ofNat byte with
  | 1 => do
    let (content, inp) ← text inp
    .ok ((name, .param content), inp)
  | 2 =>
    if depth + 1 ≥ limit then .error (.nestingTooDeep limit)
    else do
      let (inner, inp) ← document layout limit (depth + 1) .blockHeader inp
      .ok ((name, .block inner), inp)
  | kind => .error (.invalidKind kind)
termination_by (limit - depth, 0, 0)

end

end Grammar

/-! ## 2. One step

The reader takes the entry of a block only up to the first entry in it. -/

namespace Grammar

/-- The units behind a word, if it is not zero. -/
theorem units_eq_bind (inp : Input) :
    units inp = (inp.word 2 .wideString >>= fun (unit, rest) =>
      if unit = 0 then .ok ([], rest)
      else units rest >>= fun (us, rest) => .ok (unit :: us, rest)) := by
  rw [units]
  split
  next e h =>
    rw [h]
    rfl
  next unit rest h =>
    rw [h, ok_bind]
    dsimp only
    cases units rest <;> rfl

/-- The units are those in front of the first zero unit. -/
theorem units_eq (inp : Input) :
    units inp = match Input.unitsBeforeZero? inp.bytes with
      | none => .error (.unexpectedEof .wideString)
      | some us => .ok (us, inp.drop (2 * (us.length + 1))) := by
  obtain ⟨bs, off⟩ := inp
  dsimp only
  fun_induction Input.unitsBeforeZero? bs generalizing off with
  | case1 lo hi rest hz =>
    rw [units_eq_bind]
    simp [Input.word, Input.drop, hz]
  | case2 lo hi rest hz ih =>
    have hword : Input.word 2 .wideString ⟨lo :: hi :: rest, off⟩ =
        .ok (Word.value [lo, hi], ⟨rest, off + 2⟩) := rfl
    rw [units_eq_bind, hword, ok_bind]
    dsimp only
    rw [if_neg hz, ih]
    cases Input.unitsBeforeZero? rest with
    | none => rfl
    | some us =>
      have hoffset : off + 2 + 2 * (us.length + 1) = off + 2 * (us.length + 1 + 1) := by omega
      exact congrArg (fun n => Except.ok (_, Input.mk _ n)) hoffset
  | case3 bs h =>
    have hshort : (bs.take 2).length ≠ 2 := by
      rcases bs with _ | ⟨lo, _ | ⟨hi, rest⟩⟩
      · simp
      · simp
      · exact absurd rfl (h lo hi rest)
    rw [units_eq_bind, Input.word, if_neg hshort]
    rfl

/-- A text is read as the grammar has it. -/
theorem text_eq (inp : Input) : text inp = inp.wideString := by
  rw [text, units_eq, Input.wideString]
  cases Input.unitsBeforeZero? inp.bytes with
  | none => rfl
  | some us =>
    rw [ok_bind]
    dsimp only
    cases Text.ofUnits? us <;> rfl

/-- The words in front of an entry are its place. -/
theorem words_eq (sorted : Bool) (inp : Input) :
    words layout sorted inp = inp.place layout sorted := by
  cases layout <;> cases sorted <;> rfl

/-- A document is a header and as many entries as this says. -/
theorem document_eq (depth : Nat) (region : Region) (inp : Input) :
    document layout limit depth region inp = (inp.header region >>= fun r =>
      entries layout limit depth r.1.2 (.empty r.1.1) r.2) := by
  rw [document, Input.header, Input.flag]
  simp only [bind_assoc, ok_bind]

/-- What is missing of an entry behind the piece that the reader takes of it. -/
def complete (layout : Layout) (limit depth : Nat) :
    Piece × Input → Except Error ((String × Value) × Input)
  | (.param name text, inp) => .ok ((name, .param text), inp)
  | (.block name sorted count, inp) => do
    let (inner, inp) ← entries layout limit (depth + 1) count (.empty sorted) inp
    .ok ((name, .block inner), inp)

/-- **An entry is a piece and what is missing behind it.** -/
theorem entry_eq (depth : Nat) (sorted : Bool) (inp : Input) :
    entry layout limit depth sorted inp =
      inp.piece layout limit (depth + 1) sorted >>= complete layout limit depth := by
  rw [entry, Input.piece]
  simp only [words_eq, text_eq, document_eq, bind_assoc]
  refine bind_congr fun inp => bind_congr fun b => bind_congr fun n => ?_
  obtain ⟨byte, inp⟩ := b
  obtain ⟨name, inp⟩ := n
  dsimp only
  generalize UInt8.ofNat byte = kind
  split
  next =>
    simp only [Kind.ofByte?, complete, bind_assoc, ok_bind]
  next =>
    simp only [Kind.ofByte?]
    split
    · rfl
    · simp only [complete, bind_assoc, ok_bind]
  next hparam hblock =>
    fun_cases Kind.ofByte? kind with
    | case1 => rfl
    | case2 => exact absurd rfl hparam
    | case3 => exact absurd rfl hblock
    | case4 => rfl

end Grammar

/-! ## 3. The run -/

/-- An entry that cannot be read ends the reading. -/
theorem readFrames_error {d : Document} {left depth : Nat} {name : String} {stack : List Frame}
    {inp : Input} {e : Error} (h : inp.piece layout limit (depth + 1) d.sorted = .error e) :
    readFrames layout limit ⟨d, left + 1, name, depth⟩ stack inp = .error e := by
  rw [readFrames.eq_def]
  dsimp only
  split
  · next he =>
    cases h.symm.trans he
    rfl
  · next he => cases h.symm.trans he
  · next he => cases h.symm.trans he

/-- **The entries that are missing are read first**, as the grammar has them, and then what is left
of the open documents. -/
theorem readFrames_entries {k left depth : Nat} {d : Document} {name : String}
    {stack : List Frame} {inp : Input} :
    readFrames layout limit ⟨d, k + left, name, depth⟩ stack inp =
      (Grammar.entries layout limit depth k d inp >>= fun r =>
        readFrames layout limit ⟨r.1, left, name, depth⟩ stack r.2) := by
  induction hn : limit - depth using Nat.strong_induction_on
    generalizing k left depth d name stack inp with
  | _ n deeper =>
    subst hn
    induction k generalizing d inp with
    | zero => rw [Nat.zero_add, Grammar.entries, ok_bind]
    | succ k ih =>
      rw [Nat.add_right_comm, Grammar.entries, Grammar.entry_eq, bind_assoc, bind_assoc]
      cases hp : inp.piece layout limit (depth + 1) d.sorted with
      | error e => exact readFrames_error hp
      | ok r =>
        obtain ⟨p, mid⟩ := r
        cases p with
        | param key text =>
          rw [readFrames_param hp, ih, ok_bind, Grammar.complete, ok_bind]
        | block key sorted count =>
          -- the entries of the block are missing first, and they may not lie as deep any more
          have hlevel : depth + 1 < limit := (Input.piece_eq_ok.mp hp).1.2.1
          have hinner : readFrames layout limit ⟨.empty sorted, count + 0, key, depth + 1⟩
              (⟨d, k + left + 1, name, depth⟩ :: stack) mid = _ :=
            deeper (limit - (depth + 1)) (by omega) rfl
          rw [Nat.add_zero] at hinner
          rw [readFrames_block hp, hinner, ok_bind, Grammar.complete, bind_assoc]
          refine bind_congr fun r => ?_
          obtain ⟨inner, rest⟩ := r
          rw [readFrames_close, ih, ok_bind]

/-! ## 4. The rounds -/

namespace Reader

/-- The reader between two rounds of its loop. -/
inductive Status where
  /-- It reads on, inside `top`. -/
  | reading (top : Frame) (stack : List Frame) (inp : Input)
  /-- It has stopped. -/
  | stopped (result : Except Error (Document × Input))

/-- A round of the reader: a document is closed, or one piece is read. -/
def round (layout : Layout) (limit : Nat) : Status → Status
  | .stopped result => .stopped result
  | .reading top stack inp =>
    match top.missing with
    | 0 => match stack with
      | [] => .stopped (.ok (top.document, inp))
      | parent :: outer =>
        let closed := parent.document.set top.name (.block top.document)
        .reading { parent with document := closed, missing := parent.missing - 1 } outer inp
    | left + 1 =>
      match inp.piece layout limit (top.depth + 1) top.document.sorted with
      | .error e => .stopped (.error e)
      | .ok (.param name text, rest) =>
        .reading { top with document := top.document.set name (.param text), missing := left }
          stack rest
      | .ok (.block name sorted count, rest) =>
        .reading ⟨.empty sorted, count, name, top.depth + 1⟩ (top :: stack) rest

/-- The reader in front of its first round. -/
def start (inp : Input) : Status :=
  match inp.header .documentHeader with
  | .error e => .stopped (.error e)
  | .ok ((sorted, count), rest) => .reading ⟨.empty sorted, count, "", 0⟩ [] rest

/-- A reader that has stopped stays as it is. -/
theorem rounds_stopped (result : Except Error (Document × Input)) (n : Nat) :
    (round layout limit)^[n] (.stopped result) = .stopped result :=
  Function.iterate_fixed rfl n

/-- **The reader stops.**  A round that reads a piece takes a byte at least and opens a document at
most, and every other round closes one. -/
theorem rounds_reading {top : Frame} {stack : List Frame} {inp : Input} {n : Nat}
    (h : 2 * inp.bytes.length + stack.length < n) :
    (round layout limit)^[n] (.reading top stack inp) =
      .stopped (readFrames layout limit top stack inp) := by
  induction n generalizing top stack inp with
  | zero => exact absurd h (Nat.not_lt_zero _)
  | succ n ih =>
    rw [Function.iterate_succ_apply]
    fun_cases readFrames layout limit top stack inp with
    | case1 hm =>
      simp only [round, hm]
      exact rounds_stopped _ n
    | case2 hm parent outer closed =>
      rw [List.length_cons] at h
      simp only [round, hm]
      exact ih (by omega)
    | case3 stack left hm e hp =>
      simp only [round, hm, hp]
      exact rounds_stopped _ n
    | case4 stack left hm name text rest hp =>
      have hshort := Input.length_of_piece hp
      simp only [round, hm, hp]
      exact ih (by omega)
    | case5 stack left hm name sorted count rest hp =>
      have hshort := Input.length_of_piece hp
      simp only [round, hm, hp]
      exact ih (by rw [List.length_cons]; omega)

end Reader

/-- **The reader reads the grammar.**  Its outcome is that of the descent: the document and what is
left of the input, or the error.  It has stopped after two rounds for each byte of the input and
one more, whatever the counts in it say. -/
theorem readDocument_eq_grammar (layout : Layout) (limit : Nat) (inp : Input) :
    readDocument layout limit inp = Grammar.document layout limit 0 .documentHeader inp ∧
      (Reader.round layout limit)^[2 * inp.bytes.length + 1] (Reader.start inp) =
        .stopped (readDocument layout limit inp) := by
  rw [Grammar.document_eq, readDocument, Reader.start]
  cases hheader : inp.header .documentHeader with
  | error e => exact ⟨rfl, Reader.rounds_stopped _ _⟩
  | ok r =>
    obtain ⟨⟨sorted, count⟩, rest⟩ := r
    have hshort := Input.length_of_header hheader
    refine ⟨?_, Reader.rounds_reading (by rw [List.length_nil]; omega)⟩
    have hrun : readFrames layout limit ⟨.empty sorted, count + 0, "", 0⟩ [] rest = _ :=
      readFrames_entries
    rw [Nat.add_zero] at hrun
    rw [ok_bind, ok_bind]
    dsimp only
    rw [hrun]
    cases Grammar.entries layout limit 0 count (.empty sorted) rest with
    | error e => rfl
    | ok r => rw [ok_bind, readFrames.eq_def]

end BlockDoc.Binary
