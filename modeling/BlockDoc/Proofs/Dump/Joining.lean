/-
# One dump behind another

A dump can stand behind another one in one text.  If no block is open where they meet, the second is
read there as it would be read alone, and its entries come behind those of the first.

The two readings of the second dump differ in three points: the outermost document is not empty at
the start, further documents may lie around it, and the lines have other numbers.  No line looks at
any of them, with the exception of a brace that would close the outermost document.

* What a line does, it does in both places (`advance_replant`).  What is put in the place of the
  outermost document is a function of it, which has to go with the adding of entries.
* So whole texts are read alike (`Progress.feedAll_moved`), and they end alike (`finish_moved`): the
  same document in the other place, or a failure.  Lines that fail do so with the same error; only
  the end of a text tells the number of a line, if a value is open there.

Main statement: `parseWith_concat`.
-/
import BlockDoc.Proofs.Document.Views
import BlockDoc.Proofs.Dump.Failure
import BlockDoc.Proofs.Dump.RoundTrip

namespace BlockDoc

/-! ## 1. Entries behind others -/

namespace Document

/-- A document with the entries of another one behind its own. -/
def append (d d' : Document) : Document := d'.entries.toList.foldl push d

variable {d d' : Document}

theorem append_push (e : Entry) : d.append (d'.push e) = (d.append d').push e := by
  rw [append, entries_push, List.foldl_append]
  rfl

@[simp] theorem append_empty (sorted : Bool) : d.append (empty sorted) = d := rfl

theorem indexed_foldl_push (h : d.Indexed) (es : List Entry) : (es.foldl push d).Indexed := by
  induction es generalizing d with
  | nil => exact h
  | cons e es ih => exact ih (h.push e)

theorem entries_foldl_push (es : List Entry) :
    (es.foldl push d).entries.toList = d.entries.toList ++ es := by
  induction es generalizing d with
  | nil => exact (List.append_nil _).symm
  | cons e es ih => rw [List.foldl_cons, ih, entries_push, List.append_assoc, List.singleton_append]

theorem sorted_foldl_push (es : List Entry) : (es.foldl push d).sorted = d.sorted := by
  induction es generalizing d with
  | nil => rfl
  | cons e es ih => exact ih

/-- The entries as they were added. -/
theorem Indexed.toList_insertion (h : d.Indexed) : d.toList .insertion = d.entries.toList := by
  rw [h.toList_eq, Order.isByName, if_neg Bool.false_ne_true]

/-- **The entries of both**, as they were added. -/
theorem Indexed.toList_append (h : d.Indexed) (h' : d'.Indexed) :
    (d.append d').toList .insertion = d.toList .insertion ++ d'.toList .insertion := by
  have happend : (d.append d').Indexed := indexed_foldl_push h _
  rw [happend.toList_insertion, h.toList_insertion, h'.toList_insertion, append, entries_foldl_push]

end Document

namespace Dump

/-! ## 2. Lines in another place -/

/-- The open documents, with another one in the place of the outermost and more of them around it. -/
def replant (f : Document → Document) (base : List OpenBlock) (top : Document) :
    List OpenBlock → Document × List OpenBlock
  | [] => (f top, base)
  | b :: outer =>
    let inner := replant f base b.outer outer
    (top, ⟨inner.1, b.name⟩ :: inner.2)

variable {files : FileReader} {charset : Charset} {limit : Nat} {baseDir? baseDir'? : Option String}
  {f : Document → Document} {base : List OpenBlock} {top : Document} {stack : List OpenBlock}
  {line : List Char} {lines : List (List Char)} {p q : Progress} {n : Nat}

/-- A function of documents goes with the adding of entries. -/
def AddsAlike (f : Document → Document) : Prop := ∀ d name v, f (d.set name v) = (f d).set name v

theorem length_replant :
    (replant f base top stack).2.length = stack.length + base.length := by
  induction stack generalizing top with
  | nil => simp [replant]
  | cons b outer ih =>
    rw [replant, List.length_cons, ih, List.length_cons]
    omega

/-- An entry that is added is added in the other place too. -/
theorem replant_set (hf : AddsAlike f) (name : String) (v : Value) :
    replant f base (top.set name v) stack =
      ((replant f base top stack).1.set name v, (replant f base top stack).2) := by
  cases stack with
  | nil => rw [replant, replant, hf]
  | cons b outer => rfl

/-- Closing all blocks leads to the outermost document. -/
theorem closeAll_replant (hf : AddsAlike f) (top : Document) (stack : List OpenBlock) :
    closeAll (replant f [] top stack).1 (replant f [] top stack).2 = f (closeAll top stack) := by
  induction stack generalizing top with
  | nil => rfl
  | cons b outer ih =>
    rw [replant, closeAll, closeAll, ← ih, replant_set hf]

/-- **A line does the same in the other place**, or fails in both.  It may neither close the outermost
document, if others are around it, nor ask for a dump that is another one there. -/
theorem advance_replant (files : FileReader) (charset : Charset) (limit : Nat)
    (baseDir? baseDir'? : Option String) (base : List OpenBlock) (top : Document)
    (stack : List OpenBlock) (hf : AddsAlike f) {l : Line}
    (hpath : baseDir'? = baseDir? ∨ l.path? = none)
    (hclosing : l = .closing → stack = [] → base = []) :
    (∃ s, advance files charset limit baseDir? top stack l = .ok s ∧
      advance files charset (limit + base.length) baseDir'? (replant f base top stack).1
        (replant f base top stack).2 l = .ok (replant f base s.1 s.2)) ∨
    ∃ e e', advance files charset limit baseDir? top stack l = .error e ∧
      advance files charset (limit + base.length) baseDir'? (replant f base top stack).1
        (replant f base top stack).2 l = .error e' ∧ (base = [] → e' = e) := by
  cases l with
  | opening name sorted path? =>
    simp only [advance, length_replant]
    by_cases hlevel : limit ≤ stack.length + 1
    · rw [if_pos hlevel, if_pos (by omega)]
      right
      refine ⟨_, _, rfl, rfl, ?_⟩
      rintro rfl
      rfl
    · have hrest : limit + base.length - (stack.length + base.length + 1) =
          limit - (stack.length + 1) := by omega
      have hcontent : contentOf files charset (limit - (stack.length + 1)) baseDir'? sorted path? =
          contentOf files charset (limit - (stack.length + 1)) baseDir? sorted path? := by
        rcases hpath with rfl | hpath
        · rfl
        · obtain rfl : path? = none := hpath
          rfl
      rw [if_neg hlevel, if_neg (by omega), hrest, hcontent]
      cases contentOf files charset (limit - (stack.length + 1)) baseDir? sorted path? with
      | error e => exact .inr ⟨e, e, rfl, rfl, fun _ => rfl⟩
      | ok content => exact .inl ⟨_, rfl, rfl⟩
  | closing =>
    left
    cases stack with
    | nil =>
      obtain rfl := hclosing rfl rfl
      exact ⟨_, rfl, rfl⟩
    | cons b outer =>
      refine ⟨_, rfl, ?_⟩
      rw [replant_set hf]
      rfl
  | param name value =>
    left
    refine ⟨_, rfl, ?_⟩
    rw [replant_set hf]
    rfl
  | heredoc name => exact .inl ⟨_, rfl, rfl⟩
  | noise => exact .inl ⟨_, rfl, rfl⟩

/-! ## 3. Texts in another place -/

/-- The reader with another document in the place of the outermost, and behind more lines. -/
def Progress.moved (f : Document → Document) (n : Nat) (p : Progress) : Progress :=
  let s := replant f [] p.top p.stack
  ⟨p.number + n, s.1, s.2, p.value?.map fun v => { v with start := v.start + n }⟩

/-- **A line is read alike in the other place.** -/
theorem Progress.feed_moved (hf : AddsAlike f) :
    (p.moved f n).feed files charset limit baseDir? line =
      (p.feed files charset limit baseDir? line).map (Progress.moved f n) := by
  cases hp : p.value? with
  | some v =>
    rw [feed_inside hp, feed_inside (p := p.moved f n) (v := { v with start := v.start + n })
      (by rw [moved, hp]; rfl)]
    refine congrArg Except.ok ?_
    have hlength : (replant f [] p.top p.stack).2.length = p.stack.length := length_replant
    unfold collect
    split
    · simp only [moved, hlength, replant_set hf, Option.map_none, Nat.add_right_comm]
    · simp only [moved, Option.map_some, Nat.add_right_comm]
  | none =>
    rw [feed_outside hp, feed_outside (p := p.moved f n) (by rw [moved, hp]; rfl)]
    rcases advance_replant files charset limit baseDir? baseDir? [] p.top p.stack
      (l := Line.ofChars line) hf (.inl rfl) (fun _ _ => rfl) with
      ⟨s, hs, hs'⟩ | ⟨e, e', he, he', heq⟩
    · have hs'' : advance files charset limit baseDir? (p.moved f n).top (p.moved f n).stack
          (Line.ofChars line) = .ok (replant f [] s.1 s.2) := hs'
      rw [hs, hs'']
      cases (Line.ofChars line).valueName? <;>
        simp [Except.map, moved, Nat.add_right_comm]
    · have he'' : advance files charset limit baseDir? (p.moved f n).top (p.moved f n).stack
          (Line.ofChars line) = .error e' := he'
      rw [he, he'', heq rfl]
      rfl

/-- **Lines are read alike in the other place.** -/
theorem Progress.feedAll_moved (hf : AddsAlike f) :
    (p.moved f n).feedAll files charset limit baseDir? lines =
      (p.feedAll files charset limit baseDir? lines).map (Progress.moved f n) := by
  induction lines generalizing p with
  | nil => rfl
  | cons line lines ih =>
    rw [feedAll_cons, feedAll_cons, feed_moved hf]
    cases p.feed files charset limit baseDir? line with
    | error e => rfl
    | ok q => exact ih

/-- **What is open at the end is closed alike in the other place.** -/
theorem Progress.finish_moved (hf : AddsAlike f) (hp : p.value? = none) :
    (p.moved f n).finish = .ok (f (closeAll p.top p.stack)) := by
  rw [finish, moved, hp]
  exact congrArg Except.ok (closeAll_replant hf _ _)

/-- A value that is open at the end is refused with the number that its first line has there. -/
theorem Progress.finish_moved_open {v : OpenValue} (hp : p.value? = some v) :
    (p.moved f n).finish = .error (.unterminatedHeredoc (v.start + n)) := by
  rw [finish, moved, hp]
  rfl

theorem addsAlike_append (d : Document) : AddsAlike d.append := by
  intro d' name v
  exact Document.append_push _

/-! ## 4. Two dumps in one text -/

variable {o : Options} {t₁ : List Char} {d₁ : Document}

/-- **Behind a dump without open blocks** another one is read as it is alone, with the document of the
first in the place of the empty one. -/
theorem parseWith_append_moved (t₂ : List Char) (hend : EndsLine t₁)
    (hd : parseWith files o t₁ = .ok d₁)
    (hclosed : (standing (Text.lines t₁)).level = 0) :
    parseWith files o (t₁ ++ t₂) = ((readUpTo files o t₂).map
      (Progress.moved d₁.append (Text.lines t₁).length) >>= Progress.finish) := by
  obtain ⟨p, hp, hvalue, htop⟩ := parseWith_eq_ok.mp hd
  rw [← standing_readUpTo hp] at hclosed
  have hstack : p.stack = [] := Progress.stack_eq_nil hclosed
  have hmoved : p = Progress.start.moved d₁.append (Text.lines t₁).length := by
    have hnumber := number_readUpTo hp
    rw [hstack] at htop
    cases p
    simp only [Progress.moved, Progress.start, replant, Document.append_empty, Option.map_none,
      Nat.zero_add, Progress.mk.injEq]
    exact ⟨hnumber, htop, hstack, hvalue⟩
  rw [parseWith_append hend, hp, ok_bind, hmoved, Progress.feedAll_moved (addsAlike_append d₁)]
  rfl

/-- **Two dumps in one text** are read in turn, if the first is read and leaves no block open.  The
document has the entries of the first and behind them those of the second.  If the second one fails,
so does the whole text, and with the same error; but where a value of the second one has no end, the
error has the number of its line in the whole text. -/
theorem parseWith_concat (files : FileReader) (o : Options) {t₁ t₂ : List Char} {d₁ : Document}
    (hend : EndsLine t₁) (hd : parseWith files o t₁ = .ok d₁)
    (hclosed : (standing (Text.lines t₁)).level = 0) :
    (∀ d₂, parseWith files o t₂ = .ok d₂ → ∃ d, parseWith files o (t₁ ++ t₂) = .ok d ∧
      d.sorted = d₁.sorted ∧
      d.toList .insertion = d₁.toList .insertion ++ d₂.toList .insertion) ∧
    ∀ e, parseWith files o t₂ = .error e →
      (∀ n, Unended files o t₂ n → e = .unterminatedHeredoc n ∧
        parseWith files o (t₁ ++ t₂) =
          .error (.unterminatedHeredoc (n + (Text.lines t₁).length))) ∧
      ((∀ n, ¬ Unended files o t₂ n) → parseWith files o (t₁ ++ t₂) = .error e) := by
  have hjoined := parseWith_append_moved t₂ hend hd hclosed
  constructor
  · intro d₂ hd₂
    obtain ⟨p, hp, hvalue, rfl⟩ := parseWith_eq_ok.mp hd₂
    rw [hp] at hjoined
    refine ⟨_, hjoined.trans (Progress.finish_moved (addsAlike_append d₁) hvalue),
      Document.sorted_foldl_push _, ?_⟩
    exact (kept_built.of_parseWith hd).indexed.toList_append (kept_built.of_parseWith hd₂).indexed
  · intro e he
    refine ⟨fun n hn => ?_, fun hnone => ?_⟩
    · obtain ⟨p, v, hp, hv, rfl⟩ := unended_iff.mp hn
      rw [parseWith_eq_finish, hp, ok_bind, Progress.finish, hv] at he
      cases he
      rw [hp] at hjoined
      exact ⟨rfl, hjoined.trans (Progress.finish_moved_open hv)⟩
    · rcases parseWith_eq_error.mp he with hread | ⟨n, hn, -⟩
      · rw [hjoined, hread]
        rfl
      · exact absurd hn (hnone n)

/-- A dump that closes what it opens. -/
def closedDump : List Char := "A\x7b\nx=1\n\x7d\n".toList

/-- A dump that closes a block it did not open. -/
def closingDump : List Char := "\x7d\nb=2\n".toList

/-- A dump that does not end the value in its second line. -/
def brokenDump : List Char := "\x7d\ny=<<<\n".toList

/-- A brace too many closes nothing where two dumps meet, and line two of the second dump is line
five of both. -/
theorem parseWith_concat_closedDump :
    EndsLine closedDump ∧ (standing (Text.lines closedDump)).level = 0 ∧ ∀ files,
      (∃ d₁ d₂ d, parseWith files {} closedDump = .ok d₁ ∧ parseWith files {} closingDump = .ok d₂ ∧
        parseWith files {} (closedDump ++ closingDump) = .ok d ∧
        d.toList .insertion = d₁.toList .insertion ++ d₂.toList .insertion) ∧
      parseWith files {} brokenDump = .error (.unterminatedHeredoc 2) ∧
      parseWith files {} (closedDump ++ brokenDump) = .error (.unterminatedHeredoc 5) := by
  have hend : EndsLine closedDump := by decide
  have hclosed : (standing (Text.lines closedDump)).level = 0 := by decide
  refine ⟨hend, hclosed, fun files => ?_⟩
  have hd₁ : parseWith files {} closedDump = .ok _ := parseWith_eq_ok.mpr ⟨_, rfl, rfl, rfl⟩
  have hd₂ : parseWith files {} closingDump = .ok _ := parseWith_eq_ok.mpr ⟨_, rfl, rfl, rfl⟩
  have hopen : Unended files {} brokenDump 2 := unended_iff.mpr ⟨_, _, rfl, rfl, rfl⟩
  have hbroken := parseWith_eq_error.mpr (.inr ⟨2, hopen, rfl⟩)
  refine ⟨?_, hbroken, ?_⟩
  · obtain ⟨d, hd, -, hentries⟩ := (parseWith_concat files {} hend hd₁ hclosed).1 _ hd₂
    exact ⟨_, _, d, hd₁, hd₂, hd, hentries⟩
  · exact (((parseWith_concat files {} hend hd₁ hclosed).2 _ hbroken).1 2 hopen).2

end Dump

end BlockDoc
