/-
# Including a dump and writing it out

A block that starts with the content of another dump is read as if the lines of that dump stood
behind the line that starts the block, which then asks for no dump.

* The line says the same with the path as without it, except that a name which ends in a mark of the
  order has to have the path, or a mark of its own, behind it (`classify_withPath`,
  `classify_withoutPath`).
* The included dump is read as a document of its own, with no blocks around it, in what is left of
  the limit.  Written out, its lines are read with the blocks around it, in the whole limit.  The
  same room is left at every line, so both readings go the same way (`Progress.feedAll_replant`).
  They would part at a brace that closes the block itself, or at a relative path; dumps that have
  neither are `SelfContained`.
* Behind that the two readings differ in the numbers of their lines only.

Main statement: `parseWith_inlined`.
-/
import BlockDoc.Proofs.Dump.Inclusion
import BlockDoc.Proofs.Dump.Joining

namespace BlockDoc.Dump

open Text (isBlank)

/-! ## 1. Lines that start a block -/

/-- How the order of a block is marked in front of its brace, if it is.  Blanks mean nothing. -/
inductive IsMark : List Char → Option Bool → Prop where
  | unmarked {blanks : List Char} (h : ∀ c ∈ blanks, isBlank c = true) : IsMark blanks none
  | marked (front back : List Char) (sorted : Bool) (hf : ∀ c ∈ front, isBlank c = true)
      (hb : ∀ c ∈ back, isBlank c = true) :
      IsMark (front ++ (if sorted then '^' else '~') :: back) (some sorted)

/-- What ends like a block whose order is marked. -/
def EndsInMark (cs : List Char) : Prop := cs.getLast? = some '^' ∨ cs.getLast? = some '~'

instance : DecidablePred EndsInMark := fun _ => inferInstanceAs (Decidable (_ ∨ _))

/-- A block that starts with the content of another dump. -/
structure Header where
  /-- The name of the block. -/
  name : List Char
  /-- The path of the dump. -/
  path : List Char
  /-- The order that is marked, if one is. -/
  mark? : Option Bool
  /-- The name ends at the first equals sign, and blanks behind it are cut off. -/
  equals : '=' ∉ name
  nameLast : ∀ c ∈ name.getLast?, isBlank c = false
  /-- There is a path, and blanks around it are cut off. -/
  hasPath : path ≠ []
  pathHead : ∀ c ∈ path.head?, isBlank c = false
  pathLast : ∀ c ∈ path.getLast?, isBlank c = false
  /-- A mark at the end is no part of the path. -/
  unmarked : mark? = none → ¬ EndsInMark path

namespace Header

/-- Whether the block is sorted. -/
def sorted (h : Header) : Bool := h.mark?.getD true

/-- The line that starts the block, its margins and its comment cut off. -/
def WithPath (h : Header) (content : List Char) : Prop :=
  ∃ gap gap' mark, (∀ c ∈ gap, isBlank c = true) ∧ (∀ c ∈ gap', isBlank c = true) ∧
    IsMark mark h.mark? ∧ content = h.name ++ (gap ++ '=' :: (gap' ++ (h.path ++ (mark ++ ['{']))))

/-- The same line without the equals sign and the path. -/
def WithoutPath (h : Header) (content : List Char) : Prop :=
  ∃ mark, IsMark mark h.mark? ∧ content = h.name ++ (mark ++ ['{'])

end Header

/-- **The mark of the order** is told from what stands in front of it. -/
theorem orderMark_append (cs : List Char) {mark : List Char} {mark? : Option Bool}
    (h : IsMark mark mark?) (hlast : ∀ c ∈ cs.getLast?, isBlank c = false) (hends : mark? = none → ¬ EndsInMark cs) :
    orderMark (Text.trimEnd isBlank (cs ++ mark)) = (cs, mark?.getD true) := by
  cases h with
  | unmarked hblanks =>
    rw [Text.trimEnd_append hblanks, Text.trimEnd_eq_self hlast]
    unfold orderMark
    split
    next hc => exact absurd (.inl hc) (hends rfl)
    next hc => exact absurd (.inr hc) (hends rfl)
    next => rfl
  | marked front back sorted hf hb =>
    have hparts : cs ++ (front ++ (if sorted then '^' else '~') :: back) =
        cs ++ front ++ [if sorted then '^' else '~'] ++ back := by simp
    have hmark : Text.trimEnd isBlank (cs ++ front ++ [if sorted then '^' else '~']) =
        cs ++ front ++ [if sorted then '^' else '~'] := by
      refine Text.trimEnd_eq_self fun c hc => ?_
      obtain rfl : (if sorted then '^' else '~') = c := by simpa using hc
      cases sorted <;> rfl
    have hcs : Text.trimEnd isBlank (cs ++ front) = cs := by
      rw [Text.trimEnd_append hf, Text.trimEnd_eq_self hlast]
    rw [hparts, Text.trimEnd_append hb, hmark]
    unfold orderMark
    cases sorted <;> simp [hcs]

/-- A line that ends in an opening brace starts a block. -/
theorem classify_brace (head : List Char) : classify (head ++ ['{']) = openingOf head := by
  rw [classify, if_pos (by simp), List.dropLast_concat]

/-- **A line that starts a block** with the content of a dump is told. -/
theorem classify_withPath {h : Header} {content : List Char} (hc : h.WithPath content) :
    classify content = .opening h.name h.sorted (some h.path) := by
  obtain ⟨gap, gap', mark, hgap, hgap', hmark, rfl⟩ := hc
  have hparts : h.name ++ (gap ++ '=' :: (gap' ++ (h.path ++ (mark ++ ['{'])))) =
      h.name ++ gap ++ '=' :: (gap' ++ h.path) ++ mark ++ ['{'] := by simp
  have hlast : (h.name ++ gap ++ '=' :: (gap' ++ h.path)).getLast? = h.path.getLast? := by
    rw [← List.cons_append, ← List.append_assoc]
    exact List.getLast?_append_of_ne_nil _ h.hasPath
  have horder := orderMark_append (h.name ++ gap ++ '=' :: (gap' ++ h.path)) hmark
    (by rw [hlast]; exact h.pathLast) (by rw [EndsInMark, hlast]; exact h.unmarked)
  have hequals : '=' ∉ h.name ++ gap := by
    intro hmem
    rcases List.mem_append.mp hmem with hmem | hmem
    · exact h.equals hmem
    · exact absurd (hgap _ hmem) (by decide)
  have hname : Text.trimEnd isBlank (h.name ++ gap) = h.name := by
    rw [Text.trimEnd_append hgap, Text.trimEnd_eq_self h.nameLast]
  have hpath : (gap' ++ h.path).dropWhile isBlank = h.path := by
    rw [List.dropWhile_append_of_pos hgap', Text.dropWhile_eq_self h.pathHead]
  rw [hparts, classify_brace, openingOf, horder]
  simp only [Text.splitOnce?_append hequals, hname, hpath, if_neg h.hasPath]
  rfl

/-- **The same line without the path** starts the same block, if it is not its name that ends in a
mark then. -/
theorem classify_withoutPath {h : Header} {content : List Char} (hc : h.WithoutPath content)
    (hname : h.mark? = none → ¬ EndsInMark h.name) :
    classify content = .opening h.name h.sorted none := by
  obtain ⟨mark, hmark, rfl⟩ := hc
  have horder := orderMark_append h.name hmark h.nameLast hname
  rw [← List.append_assoc, classify_brace, openingOf, horder]
  simp only [Text.splitOnce?_eq_none_iff.mpr h.equals]
  rfl

/-! ## 2. Dumps that can be written out -/

/-- A dump that is read alike wherever it stands: it has no values on lines of their own and asks for
no other dump, and the blocks it opens are the ones it closes. -/
structure SelfContained (lines : List (List Char)) : Prop where
  /-- No line asks for the lines behind it. -/
  values : ∀ line ∈ lines, (Line.ofChars line).opensValue = false
  /-- No line asks for another dump. -/
  paths : ∀ line ∈ lines, (Line.ofChars line).path? = none
  /-- A line that closes a block has one to close. -/
  closes : ∀ before line after, lines = before ++ line :: after → Line.ofChars line = .closing →
    0 < (standing before).level
  /-- No block is open behind the last line. -/
  closed : (standing lines).level = 0

/-- Every line that closes a block has one to close, line for line. -/
theorem closes_of_take {lines : List (List Char)}
    (h : ∀ i (hi : i < lines.length), Line.ofChars lines[i] = .closing →
      0 < (standing (lines.take i)).level) :
    ∀ before line after, lines = before ++ line :: after → Line.ofChars line = .closing →
      0 < (standing before).level := by
  rintro before line after rfl hclosing
  have hbefore := h before.length (by simp)
  rw [List.getElem_of_append rfl rfl, List.take_left] at hbefore
  exact hbefore hclosing

variable {files : FileReader} {charset : Charset} {limit number : Nat}
  {baseDir? baseDir'? dir? : Option String} {f : Document → Document} {base : List OpenBlock}
  {line line' name path text : List Char} {lines rest : List (List Char)} {p q : Progress}
  {sorted : Bool} {d : Document}

/-- A line without a value of its own is what it says. -/
theorem Progress.feed_line (hp : p.value? = none) (hline : (Line.ofChars line).opensValue = false) :
    p.feed files charset limit baseDir? line =
      (advance files charset limit baseDir? p.top p.stack (Line.ofChars line) >>= fun s =>
        .ok ⟨p.number + 1, s.1, s.2, none⟩) := by
  rw [feed_outside hp, Line.valueName?_eq_none hline]
  rfl

/-- **The lines of a dump are read alike inside of other blocks**, or fail in both places.  They are
none of those that look at what is around them. -/
theorem Progress.feedAll_replant (files : FileReader) (charset : Charset) (limit : Nat)
    (baseDir? baseDir'? : Option String) (number : Nat) (base : List OpenBlock) (hf : AddsAlike f)
    (hvalues : ∀ line ∈ lines, (Line.ofChars line).opensValue = false)
    (hpaths : ∀ line ∈ lines, (Line.ofChars line).path? = none)
    (hcloses : ∀ before line after, lines = before ++ line :: after →
      Line.ofChars line = .closing → 0 < (Dump.standing before).level) :
    (∃ q, start.feedAll files charset limit baseDir? lines = .ok q ∧ q.value? = none ∧
      feedAll files charset (limit + base.length) baseDir'? ⟨number, f (.empty true), base, none⟩
          lines =
        .ok ⟨number + lines.length, (replant f base q.top q.stack).1,
          (replant f base q.top q.stack).2, none⟩) ∨
    ∃ e e', start.feedAll files charset limit baseDir? lines = .error e ∧
      feedAll files charset (limit + base.length) baseDir'? ⟨number, f (.empty true), base, none⟩
        lines = .error e' := by
  induction lines using List.reverseRecOn with
  | nil => exact .inl ⟨start, rfl, rfl, rfl⟩
  | append_singleton lines line ih =>
    obtain ⟨hvalues, hvalue⟩ := List.forall_mem_append.mp hvalues
    obtain ⟨hpaths, hpath⟩ := List.forall_mem_append.mp hpaths
    rw [List.forall_mem_singleton] at hvalue hpath
    have hclosing := hcloses lines line [] rfl
    rw [feedAll_concat, feedAll_concat]
    rcases ih hvalues hpaths fun before l after h => hcloses before l (after ++ [line]) (by simp [h])
      with ⟨q, hq, hnone, hq'⟩ | ⟨e, e', he, he'⟩
    · have hlevel : (Dump.standing lines).level = q.stack.length :=
        (congrArg Standing.level (standing_feedAll hq)).symm
      have hstack : Line.ofChars line = .closing → q.stack = [] → base = [] := by
        intro hl hnil
        have hpos := hclosing hl
        rw [hlevel, hnil] at hpos
        exact absurd hpos (Nat.lt_irrefl 0)
      rw [hq, hq', ok_bind, ok_bind, feed_line hnone hvalue, feed_line rfl hvalue]
      rcases advance_replant files charset limit baseDir? baseDir'? base q.top q.stack hf
        (.inr hpath) hstack with
        ⟨s, hs, hs'⟩ | ⟨e, e', he, he', -⟩
      · rw [hs, hs', List.length_append]
        exact .inl ⟨_, rfl, rfl, rfl⟩
      · rw [he, he']
        exact .inr ⟨e, e', rfl, rfl⟩
    · rw [he, he']
      exact .inr ⟨e, e', rfl, rfl⟩

theorem addsAlike_setSorted (sorted : Bool) : AddsAlike (·.setSorted sorted) := fun _ _ _ => rfl

theorem addsAlike_id : AddsAlike id := fun _ _ _ => rfl

/-- Nothing is put in the place of the outermost document. -/
theorem replant_id (top : Document) (stack : List OpenBlock) :
    replant id [] top stack = (top, stack) := by
  induction stack generalizing top with
  | nil => rfl
  | cons b outer ih => rw [replant, ih]

/-- **A dump that is included, and one that is written out**: both are read up to the same document,
or both fail. -/
theorem SelfContained.included (h : SelfContained lines) (files : FileReader) (charset : Charset)
    (baseDir? dir? : Option String) (number : Nat) (sorted : Bool) (hbase : base.length < limit) :
    (∃ content, readLines files charset (limit - base.length) dir? 0 (lines.map some) (.empty true) [] =
        .ok content ∧
      Progress.feedAll files charset limit baseDir? ⟨number, .empty sorted, base, none⟩ lines =
        .ok ⟨number + lines.length, content.setSorted sorted, base, none⟩) ∨
    ∃ e e', readLines files charset (limit - base.length) dir? 0 (lines.map some) (.empty true) [] =
        .error e ∧
      Progress.feedAll files charset limit baseDir? ⟨number, .empty sorted, base, none⟩ lines =
        .error e' := by
  have hlimit : limit - base.length + base.length = limit := Nat.sub_add_cancel hbase.le
  have hreplant := Progress.feedAll_replant files charset (limit - base.length) dir? baseDir? number
    base (addsAlike_setSorted sorted) h.values h.paths h.closes
  rw [hlimit] at hreplant
  rw [readLines_feed]
  rcases hreplant with ⟨q, hq, hnone, hq'⟩ | ⟨e, e', he, he'⟩
  · left
    have hstanding : q.standing = standing lines := Progress.standing_feedAll hq
    have hclosed := h.closed
    rw [← hstanding] at hclosed
    have hstack : q.stack = [] := Progress.stack_eq_nil hclosed
    rw [hstack] at hq'
    refine ⟨closeAll q.top q.stack, ?_, ?_⟩
    · rw [← Progress.start, hq, ok_bind]
      exact Progress.finish_eq_ok.mpr ⟨hnone, rfl⟩
    · rw [hstack]
      exact hq'
  · right
    refine ⟨e, e', ?_, he'⟩
    rw [← Progress.start, he]
    rfl

/-! ## 3. The rest of the text -/

/-- Which document is read does not depend on the numbers of the lines. -/
theorem Progress.finish_numbered {top : Document} {stack : List OpenBlock} (n : Nat) :
    (feedAll files charset limit baseDir? ⟨number + n, top, stack, none⟩ lines >>= finish) = .ok d ↔
      (feedAll files charset limit baseDir? ⟨number, top, stack, none⟩ lines >>= finish) = .ok d := by
  have hmoved : (⟨number + n, top, stack, none⟩ : Progress) =
      Progress.moved id n ⟨number, top, stack, none⟩ := by
    rw [moved, replant_id]
    rfl
  rw [hmoved, feedAll_moved addsAlike_id]
  cases feedAll files charset limit baseDir? ⟨number, top, stack, none⟩ lines with
  | error e => rfl
  | ok q =>
    rw [ok_bind]
    change (q.moved id n).finish = .ok d ↔ _
    cases hq : q.value? with
    | none =>
      rw [finish_moved addsAlike_id hq, finish, hq]
      rfl
    | some v =>
      rw [finish_moved_open hq, finish, hq]
      simp

/-- **Lines are read alike** behind a line that includes a dump, and behind the dump written out. -/
theorem Progress.feedAll_inlined (hp : p.value? = none)
    (hline : Line.ofChars line = .opening name sorted (some path))
    (hline' : Line.ofChars line' = .opening name sorted none)
    (hopen : openFile files charset (resolve baseDir? (String.ofList path)) = .ok (text, dir?))
    (hself : SelfContained (Text.lines text)) :
    (p.feedAll files charset limit baseDir? (line :: rest) >>= finish) = .ok d ↔
      (p.feedAll files charset limit baseDir? (line' :: (Text.lines text ++ rest)) >>= finish) =
        .ok d := by
  have hvalue : (Line.ofChars line).opensValue = false := by rw [hline]; rfl
  have hvalue' : (Line.ofChars line').opensValue = false := by rw [hline']; rfl
  rw [feedAll_cons, feedAll_cons, feed_line hp hvalue, feed_line hp hvalue', hline, hline']
  simp only [advance]
  by_cases hlevel : limit ≤ p.stack.length + 1
  · rw [if_pos hlevel, if_pos hlevel]
    rfl
  · rw [if_neg hlevel, if_neg hlevel]
    simp only [contentOf, hopen, ok_bind, feedAll_append]
    have hbase : (⟨p.top, String.ofList name⟩ :: p.stack : List OpenBlock).length < limit :=
      Nat.lt_of_not_le hlevel
    rcases hself.included files charset baseDir? dir? (p.number + 1) sorted hbase with
      ⟨content, hread, hfed⟩ | ⟨e, e', hread, hfed⟩
    · rw [List.length_cons] at hread
      rw [rawLines, hread, hfed]
      exact (finish_numbered _).symm
    · rw [List.length_cons] at hread
      rw [rawLines, hread, hfed]
      simp [bind, Except.bind]

/-! ## 4. Texts -/

/-- What a line says does not depend on the line feed at its end. -/
theorem ofChars_newline (cs : List Char) : Line.ofChars (cs ++ ['\n']) = classify (bare cs) :=
  @ofChars_margins [] cs ['\n'] (by simp) (by simp [Text.isMargin])

/-- **Including a dump is writing it out.**  A text that includes a dump for a block is read if and
only if the text is that has the lines of the dump behind the line that starts the block, and it is
read as the same document.  Anything may stand in front of this line, as long as it is no line of a
value, and anything behind it.  The name of the block must not end in a mark of the order that it
would lose with the path. -/
theorem parseWith_inlined (files : FileReader) (o : Options) (h : Header)
    (before behind : List Char) {line line' text : List Char} {bytes : Bytes}
    (hbefore : EndsLine before) (hinside : (standing (Text.lines before)).inside = false)
    (hnewline : '\n' ∉ line) (hpath : h.WithPath (bare line))
    (hnewline' : '\n' ∉ line') (hnopath : h.WithoutPath (bare line'))
    (hname : h.mark? = none → ¬ EndsInMark h.name)
    (hfile : files (resolve o.baseDir? (String.ofList h.path)) = .ok bytes)
    (hdecode : o.charset.decode? bytes = some text) (htext : EndsLine text)
    (hself : SelfContained (Text.lines text)) (d : Document) :
    parseWith files o (before ++ (line ++ '\n' :: behind)) = .ok d ↔
      parseWith files o (before ++ (line' ++ '\n' :: (text ++ behind))) = .ok d := by
  have hline : Line.ofChars (line ++ ['\n']) = .opening h.name h.sorted (some h.path) := by
    rw [ofChars_newline, classify_withPath hpath]
  have hline' : Line.ofChars (line' ++ ['\n']) = .opening h.name h.sorted none := by
    rw [ofChars_newline, classify_withoutPath hnopath hname]
  have hopen : ∃ dir?, openFile files o.charset (resolve o.baseDir? (String.ofList h.path)) =
      .ok (text, dir?) := by
    simp only [openFile, hfile, hdecode]
    exact ⟨_, rfl⟩
  obtain ⟨dir?, hopen⟩ := hopen
  rw [parseWith_append hbefore, parseWith_append hbefore, Text.lines_cons hnewline,
    Text.lines_cons hnewline', Text.lines_append_lines htext]
  cases hread : readUpTo files o before with
  | error e => rfl
  | ok p =>
    rw [← standing_readUpTo hread] at hinside
    exact Progress.feedAll_inlined (Progress.value?_eq_none hinside) hline hline' hopen hself

/-- A dump with a block. -/
def cargo : List Char := "x\x7b\ny=1\n\x7d\n".toList

/-- The dump in every file. -/
def cargoFile : FileReader := fun _ => .ok [0x78, 0x7B, 0x0A, 0x79, 0x3D, 0x31, 0x0A, 0x7D, 0x0A]

/-- An unsorted block that starts with the content of a file. -/
def cargoHeader : Header where
  name := ['a']
  path := ['f']
  mark? := some false
  equals := by decide
  nameLast := by simp [isBlank]
  hasPath := by decide
  pathHead := by simp [isBlank]
  pathLast := by simp [isBlank]
  unmarked := by decide

theorem selfContained_cargo : SelfContained (Text.lines cargo) where
  values := by decide
  paths := by decide
  closes := closes_of_take (by decide)
  closed := by decide

/-- A text that includes the dump for a block in a block. -/
def cargoIncluded : List Char := "s\x7b\n\ta = f ~\x7b // cargo\nb=2\n\x7d\n".toList

/-- The text with the dump written out. -/
def cargoWritten : List Char := "s\x7b\na~\x7b\nx\x7b\ny=1\n\x7d\nb=2\n\x7d\n".toList

/-- Both texts are read as the same document, and refused both under a limit of three. -/
theorem parseWith_inlined_cargo :
    cargoHeader.WithPath (bare "\ta = f ~\x7b // cargo".toList) ∧
    cargoHeader.WithoutPath (bare "a~\x7b".toList) ∧ SelfContained (Text.lines cargo) ∧
    (∃ d, parseWith cargoFile {} cargoIncluded = .ok d ∧
      parseWith cargoFile {} cargoWritten = .ok d) ∧
    parseWith cargoFile { limit := 3 } cargoWritten = .error (.nestingTooDeep 3) ∧
    ∀ d, parseWith cargoFile { limit := 3 } cargoIncluded ≠ .ok d := by
  have hpath : cargoHeader.WithPath (bare "\ta = f ~\x7b // cargo".toList) :=
    ⟨[' '], [' '], [' ', '~'], by simp [isBlank], by simp [isBlank],
      .marked [' '] [] false (by simp [isBlank]) (by simp), by decide⟩
  have hnopath : cargoHeader.WithoutPath (bare "a~\x7b".toList) :=
    ⟨['~'], .marked [] [] false (by simp) (by simp), by decide⟩
  have hdecode : Charset.windows1251.decode? [0x78, 0x7B, 0x0A, 0x79, 0x3D, 0x31, 0x0A, 0x7D, 0x0A] =
      some cargo := by decide
  have hinlined : ∀ limit d, parseWith cargoFile { limit := limit } cargoIncluded = .ok d ↔
      parseWith cargoFile { limit := limit } cargoWritten = .ok d := fun limit =>
    parseWith_inlined cargoFile { limit := limit } cargoHeader "s\x7b\n".toList
      "b=2\n\x7d\n".toList (by decide) (by decide) (by decide) hpath (by decide) hnopath
      (by decide) rfl hdecode (by decide) selfContained_cargo
  have hread : parseWith cargoFile {} cargoWritten = .ok _ := parseWith_eq_ok.mpr ⟨_, rfl, rfl, rfl⟩
  have hfail : parseWith cargoFile { limit := 3 } cargoWritten = .error (.nestingTooDeep 3) :=
    parseWith_eq_error.mpr (.inl rfl)
  refine ⟨hpath, hnopath, selfContained_cargo, ⟨_, (hinlined 1024 _).mpr hread, hread⟩, hfail, ?_⟩
  intro d hd
  have hd' := (hinlined 3 d).mp hd
  cases hfail.symm.trans hd'

/-- A block whose name ends in a mark of the order, which stands there for the path behind it. -/
def tildeHeader : Header where
  name := ['a', '~']
  path := ['f']
  mark? := none
  equals := by decide
  nameLast := by simp [isBlank]
  hasPath := by decide
  pathHead := by simp [isBlank]
  pathLast := by simp [isBlank]
  unmarked := by decide

/-- A parameter in every file. -/
def paramFile : FileReader := fun _ => .ok [0x78, 0x3D, 0x31, 0x0A]

/-- **A name that ends in a mark** loses it with the path, so the dump is written out into a block
with another name and another order. -/
theorem inlined_name_loses_mark :
    tildeHeader.WithPath (bare "a~=f\x7b".toList) ∧ tildeHeader.WithoutPath (bare "a~\x7b".toList) ∧
    paramFile (resolve none "f") = .ok [0x78, 0x3D, 0x31, 0x0A] ∧
    Charset.windows1251.decode? [0x78, 0x3D, 0x31, 0x0A] = some "x=1\n".toList ∧
    EndsLine "x=1\n".toList ∧ SelfContained (Text.lines "x=1\n".toList) ∧
    ∃ d d', parseWith paramFile {} ([] ++ ("a~=f\x7b".toList ++ '\n' :: [])) = .ok d ∧
      parseWith paramFile {} ([] ++ ("a~\x7b".toList ++ '\n' :: ("x=1\n".toList ++ []))) = .ok d' ∧
      (d.toList .insertion).map Entry.name = ["a~"] ∧
      (d'.toList .insertion).map Entry.name = ["a"] := by
  have hself : SelfContained (Text.lines "x=1\n".toList) :=
    ⟨by decide, by decide, closes_of_take (by decide), by decide⟩
  have hread : (Source.ofText "a~=f\x7b\n".toList).read paramFile {} = .ok _ :=
    Source.read_of_iterate (n := 4) rfl
  have hread' : parseWith paramFile {} "a~\x7b\nx=1\n".toList = .ok _ :=
    parseWith_eq_ok.mpr ⟨_, rfl, rfl, rfl⟩
  exact ⟨⟨[], [], [], by simp, by simp, .unmarked (by simp), by decide⟩,
    ⟨[], .unmarked (by simp), by decide⟩, rfl, by decide, by decide, hself, _, _, hread, hread',
    rfl, rfl⟩

end BlockDoc.Dump
