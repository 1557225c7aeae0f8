/-
# Where reading fails

Reading fails at a line: all lines before it are read, it belongs to no value, and the error says
what is wrong with it.

* It asks for a value on lines of its own, and no line behind it ends the value (`Unended`).  This
  shows at the end of the text, but the error has the number of the line that asked.  A failure of
  another line comes first, wherever it is, because all lines up to the end are read then.
* It starts a block, and there is no room for one more (`advance_eq_error`).
* It starts a block with the content of another dump, which is not to be had.

Nothing else goes wrong with the lines of a text; closing what is open never fails.  A dump that
includes no other one has the first two failures only (`parseWith_eq_error`).
-/
import BlockDoc.Proofs.Dump.Course

namespace BlockDoc.Dump

variable {files : FileReader} {charset : Charset} {limit : Nat} {baseDir? : Option String}
  {top : Document} {stack : List OpenBlock} {line : List Char} {lines : List (List Char)}
  {p q : Progress} {o : Options} {t : List Char} {e : Error} {n : Nat}

/-! ## 1. Lines that cannot be read -/

/-- The path of the dump that a line asks for. -/
def Line.path? : Line → Option (List Char)
  | .opening _ _ path? => path?
  | _ => none

/-- **What a line says fails** only if it starts a block. -/
theorem advance_eq_error {l : Line} :
    advance files charset limit baseDir? top stack l = .error e ↔
      ∃ name sorted path?, l = .opening name sorted path? ∧
        (limit ≤ stack.length + 1 ∧ e = .nestingTooDeep limit ∨
          stack.length + 1 < limit ∧
            contentOf files charset (limit - (stack.length + 1)) baseDir? sorted path? = .error e) := by
  cases l with
  | opening name sorted path? =>
    simp only [Line.opening.injEq, advance]
    by_cases hlevel : limit ≤ stack.length + 1
    · rw [if_pos hlevel]
      constructor
      · intro h
        cases h
        exact ⟨name, sorted, path?, ⟨rfl, rfl, rfl⟩, .inl ⟨hlevel, rfl⟩⟩
      · rintro ⟨_, _, _, ⟨rfl, rfl, rfl⟩, ⟨-, rfl⟩ | ⟨hroom, -⟩⟩
        · rfl
        · exact absurd hlevel (Nat.not_le_of_lt hroom)
    · rw [if_neg hlevel]
      constructor
      · intro h
        refine ⟨name, sorted, path?, ⟨rfl, rfl, rfl⟩, .inr ⟨Nat.lt_of_not_le hlevel, ?_⟩⟩
        cases hcontent : contentOf files charset (limit - (stack.length + 1)) baseDir? sorted path? with
        | error e' =>
          rw [hcontent] at h
          cases h
          rfl
        | ok content =>
          rw [hcontent] at h
          cases h
      · rintro ⟨_, _, _, ⟨rfl, rfl, rfl⟩, ⟨hlevel', -⟩ | ⟨-, hcontent⟩⟩
        · exact absurd hlevel' hlevel
        · rw [hcontent]
          rfl
  | closing => cases stack <;> simp [advance]
  | param name value => simp [advance]
  | heredoc name => simp [advance]
  | noise => simp [advance]

/-- A line that asks for no other dump fails only if there is no room for its block. -/
theorem advance_eq_error_of_path {l : Line} (hpath : l.path? = none) :
    advance files charset limit baseDir? top stack l = .error e ↔
      (∃ name sorted, l = .opening name sorted none) ∧ limit ≤ stack.length + 1 ∧
        e = .nestingTooDeep limit := by
  rw [advance_eq_error]
  constructor
  · rintro ⟨name, sorted, path?, rfl, hcase⟩
    obtain rfl : path? = none := hpath
    rcases hcase with ⟨hlevel, he⟩ | ⟨-, hcontent⟩
    · exact ⟨⟨name, sorted, rfl⟩, hlevel, he⟩
    · cases hcontent
  · rintro ⟨⟨name, sorted, rfl⟩, hlevel, he⟩
    exact ⟨name, sorted, none, rfl, .inl ⟨hlevel, he⟩⟩

/-- Inside of a value no line fails. -/
theorem Progress.feed_eq_error : p.feed files charset limit baseDir? line = .error e ↔
    p.value? = none ∧
      advance files charset limit baseDir? p.top p.stack (Line.ofChars line) = .error e := by
  cases hp : p.value? with
  | some v => simp [feed_inside hp]
  | none =>
    rw [feed_outside hp]
    cases advance files charset limit baseDir? p.top p.stack (Line.ofChars line) <;>
      simp [bind, Except.bind]

/-! ## 2. Values without an end -/

/-- Line `n` of a text asks for a value that has no end: the lines before it are read, and no line
behind it ends the value. -/
def Unended (files : FileReader) (o : Options) (t : List Char) (n : Nat) : Prop :=
  ∃ before line after, Text.lines t = before ++ line :: after ∧ before.length + 1 = n ∧
    (∃ d, parseWith files o before.flatten = .ok d) ∧
    (∃ name, Line.ofChars line = .heredoc name) ∧ ∀ later ∈ after, isTerminator later = false

/-- **A value that is open behind some lines** was asked for by one of them, and not ended since. -/
theorem Progress.exists_start {v : OpenValue} (hp : p.value? = none)
    (h : p.feedAll files charset limit baseDir? lines = .ok q) (hq : q.value? = some v) :
    ∃ before line after name r, lines = before ++ line :: after ∧
      p.feedAll files charset limit baseDir? before = .ok r ∧ r.value? = none ∧
      Line.ofChars line = .heredoc name ∧ (∀ later ∈ after, isTerminator later = false) ∧
      v.start = r.number + 1 := by
  induction lines using List.reverseRecOn generalizing q v with
  | nil =>
    cases h
    rw [hp] at hq
    cases hq
  | append_singleton lines line ih =>
    rw [feedAll_concat] at h
    obtain ⟨r, hr, hline⟩ := bind_eq_ok.1 h
    cases hvalue : r.value? with
    | none =>
      -- the last line asks for the value
      rw [feed_outside hvalue] at hline
      obtain ⟨s, -, hline⟩ := bind_eq_ok.1 hline
      cases hline
      obtain ⟨name, hname, rfl⟩ := Option.map_eq_some_iff.mp hq
      have hheredoc : Line.ofChars line = .heredoc name := by
        cases hl : Line.ofChars line <;> simp_all [Line.valueName?]
      exact ⟨lines, line, [], name, r, rfl, hr, hvalue, hheredoc, by simp, rfl⟩
    | some w =>
      -- the last line is one more line of the value
      rw [feed_inside hvalue] at hline
      cases hline
      obtain ⟨before, start, after, name, r', rfl, hr', hnone, hname, hafter, hstart⟩ := ih hr hvalue
      rw [collect] at hq
      split at hq
      next => cases hq
      next hterm =>
        cases hq
        refine ⟨before, start, after ++ [line], name, r', by simp, hr', hnone, hname, ?_, hstart⟩
        rw [List.forall_mem_append, List.forall_mem_singleton]
        exact ⟨hafter, Bool.eq_false_iff.mpr hterm⟩

/-- Behind the line that asks for a value it is open until a line ends it. -/
theorem Progress.feedAll_open {name : List Char} {after : List (List Char)} (hp : p.value? = none)
    (hname : Line.ofChars line = .heredoc name)
    (hafter : ∀ later ∈ after, isTerminator later = false) :
    ∃ q v, p.feedAll files charset limit baseDir? (line :: after) = .ok q ∧ q.value? = some v ∧
      v.start = p.number + 1 := by
  rw [feedAll_cons, feed_outside hp, hname]
  simp only [advance, ok_bind, Line.valueName?, Option.map_some]
  rw [feedAll_body hafter]
  exact ⟨_, _, rfl, rfl, rfl⟩

theorem readUpTo_flatten {before after : List (List Char)} (h : Text.lines t = before ++ after) :
    readUpTo files o before.flatten =
      Progress.start.feedAll files o.charset o.limit o.baseDir? before := by
  rw [readUpTo, Text.lines_flatten h]

/-- **A text has a value without an end** if and only if all its lines are read and the value is open
behind them. -/
theorem unended_iff : Unended files o t n ↔
    ∃ p v, readUpTo files o t = .ok p ∧ p.value? = some v ∧ v.start = n := by
  constructor
  · rintro ⟨before, line, after, hlines, rfl, ⟨d, hd⟩, ⟨name, hname⟩, hafter⟩
    obtain ⟨r, hr, hnone, -⟩ := parseWith_eq_ok.mp hd
    have hnumber := number_readUpTo hr
    rw [Text.lines_flatten hlines] at hnumber
    rw [readUpTo_flatten hlines] at hr
    obtain ⟨q, v, hq, hv, hstart⟩ := Progress.feedAll_open hnone hname hafter
    refine ⟨q, v, ?_, hv, hstart.trans (by rw [hnumber])⟩
    rw [readUpTo, hlines, Progress.feedAll_append, hr, ok_bind]
    exact hq
  · rintro ⟨p, v, hp, hv, rfl⟩
    obtain ⟨before, line, after, name, r, hlines, hr, hnone, hname, hafter, hstart⟩ :=
      Progress.exists_start rfl hp hv
    rw [← readUpTo_flatten hlines] at hr
    have hnumber := number_readUpTo hr
    rw [Text.lines_flatten hlines] at hnumber
    exact ⟨before, line, after, hlines, by rw [hstart, hnumber],
      ⟨_, parseWith_eq_ok.mpr ⟨r, hr, hnone, rfl⟩⟩, ⟨name, hname⟩, hafter⟩

theorem Progress.finish_eq_error :
    p.finish = .error e ↔ ∃ v, p.value? = some v ∧ e = .unterminatedHeredoc v.start := by
  unfold finish
  cases p.value? with
  | none => simp
  | some v => simp [eq_comm]

/-! ## 3. Texts that cannot be read -/

/-- **A text fails** at a line that cannot be read, or at its end, because of a value without one. -/
theorem parseWith_eq_error : parseWith files o t = .error e ↔
    readUpTo files o t = .error e ∨ ∃ n, Unended files o t n ∧ e = .unterminatedHeredoc n := by
  rw [parseWith_eq_finish]
  simp only [unended_iff]
  cases hread : readUpTo files o t with
  | error e' => simp [bind, Except.bind]
  | ok p =>
    rw [ok_bind, Progress.finish_eq_error]
    constructor
    · rintro ⟨v, hv, he⟩
      exact .inr ⟨v.start, ⟨p, v, rfl, hv, rfl⟩, he⟩
    · rintro (h | ⟨n, ⟨p', v, hp, hv, rfl⟩, he⟩)
      · cases h
      · cases hp
        exact ⟨v, hv, he⟩

/-- **A line that cannot be read** stands in no value, behind lines that are read. -/
theorem readUpTo_eq_error : readUpTo files o t = .error e ↔
    ∃ before line after p, Text.lines t = before ++ line :: after ∧
      readUpTo files o before.flatten = .ok p ∧ p.value? = none ∧
      advance files o.charset o.limit o.baseDir? p.top p.stack (Line.ofChars line) = .error e := by
  rw [readUpTo, Progress.feedAll, foldlM_eq_error]
  refine exists_congr fun before => exists_congr fun line => exists_congr fun after =>
    exists_congr fun p => and_congr_right fun hlines => ?_
  rw [readUpTo_flatten hlines, Progress.feed_eq_error]
  rfl

/-- Where a line stands that is read behind all lines before it, and in no value. -/
theorem standing_before {before after : List (List Char)} (hlines : Text.lines t = before ++ after)
    (hp : readUpTo files o before.flatten = .ok p) (hnone : p.value? = none) :
    standing before = ⟨p.stack.length, false⟩ := by
  have h := standing_readUpTo hp
  rw [Text.lines_flatten hlines] at h
  rw [← h, Progress.standing, hnone]
  rfl

/-- No line asks for another dump, those of values apart. -/
def Standalone (lines : List (List Char)) : Prop :=
  ∀ before line after, lines = before ++ line :: after → (standing before).inside = false →
    (Line.ofChars line).path? = none

/-- **A dump that includes no other one is refused** for one of two reasons, and the error says where
or why.  At some line, up to which the text is read and which belongs to no value, a value begins
that no later line ends, and the error has the number of this line; or a block begins that is one
more than the limit allows, and the error has the limit. -/
theorem parseWith_fails_iff (files : FileReader) (o : Options) {t : List Char}
    (h : Standalone (Text.lines t)) (e : Error) :
    parseWith files o t = .error e ↔
      ∃ before line after, Text.lines t = before ++ line :: after ∧
        (∃ d, parseWith files o before.flatten = .ok d) ∧ (standing before).inside = false ∧
        ((∃ name, Line.ofChars line = .heredoc name) ∧
            (∀ later ∈ after, isTerminator later = false) ∧
            e = .unterminatedHeredoc (before.length + 1) ∨
          (∃ name sorted, Line.ofChars line = .opening name sorted none) ∧
            o.limit ≤ (standing before).level + 1 ∧ e = .nestingTooDeep o.limit) := by
  rw [parseWith_eq_error, readUpTo_eq_error]
  constructor
  · rintro (⟨before, line, after, p, hlines, hp, hnone, hfail⟩ |
      ⟨_, ⟨before, line, after, hlines, rfl, ⟨d, hd⟩, hname, hafter⟩, he⟩)
    · have hstanding := standing_before hlines hp hnone
      have hpath : (Line.ofChars line).path? = none := h _ _ _ hlines (by rw [hstanding])
      refine ⟨before, line, after, hlines, ⟨_, parseWith_eq_ok.mpr ⟨p, hp, hnone, rfl⟩⟩, ?_, ?_⟩
      · rw [hstanding]
      · rw [hstanding]
        exact .inr ((advance_eq_error_of_path hpath).mp hfail)
    · obtain ⟨p, hp, hnone, -⟩ := parseWith_eq_ok.mp hd
      refine ⟨before, line, after, hlines, ⟨d, hd⟩, ?_, .inl ⟨hname, hafter, he⟩⟩
      rw [standing_before hlines hp hnone]
  · rintro ⟨before, line, after, hlines, ⟨d, hd⟩, hinside, ⟨hname, hafter, he⟩ | hfail⟩
    · exact .inr ⟨_, ⟨before, line, after, hlines, rfl, ⟨d, hd⟩, hname, hafter⟩, he⟩
    · obtain ⟨p, hp, hnone, -⟩ := parseWith_eq_ok.mp hd
      have hpath : (Line.ofChars line).path? = none := h _ _ _ hlines hinside
      rw [standing_before hlines hp hnone] at hfail
      exact .inl ⟨before, line, after, p, hlines, hp, hnone,
        (advance_eq_error_of_path hpath).mpr hfail⟩

theorem standalone_of_forall (h : ∀ line ∈ lines, (Line.ofChars line).path? = none) :
    Standalone lines := by
  rintro before line after rfl -
  exact h line (by simp)

/-- A value, a block that has no end, and in it a value that has none. -/
def openEnded : List Char := "a=<<<\n1\n>>>\nb\x7b\nc=<<< x\n2".toList

/-- The value without an end is in line five, and the block in line four comes before it. -/
theorem parseWith_fails_iff_openEnded : Standalone (Text.lines openEnded) ∧ ∀ files,
    parseWith files {} openEnded = .error (.unterminatedHeredoc 5) ∧
    parseWith files { limit := 1 } openEnded = .error (.nestingTooDeep 1) := by
  have hlines : Text.lines openEnded = ["a=<<<\n".toList, "1\n".toList, ">>>\n".toList,
      "b\x7b\n".toList, "c=<<< x\n".toList, "2".toList] := by decide
  have hstandalone : Standalone (Text.lines openEnded) := standalone_of_forall (by decide)
  refine ⟨hstandalone, fun files => ⟨?_, ?_⟩⟩
  · refine (parseWith_fails_iff files {} hstandalone _).mpr ⟨["a=<<<\n".toList, "1\n".toList,
      ">>>\n".toList, "b\x7b\n".toList], "c=<<< x\n".toList, ["2".toList], hlines, ?_, rfl,
      .inl ⟨⟨['c'], rfl⟩, by decide, rfl⟩⟩
    exact ⟨_, parseWith_eq_ok.mpr ⟨_, rfl, rfl, rfl⟩⟩
  · refine (parseWith_fails_iff files { limit := 1 } hstandalone _).mpr ⟨["a=<<<\n".toList,
      "1\n".toList, ">>>\n".toList], "b\x7b\n".toList, ["c=<<< x\n".toList, "2".toList], hlines,
      ?_, rfl, .inr ⟨⟨['b'], true, rfl⟩, by decide, rfl⟩⟩
    exact ⟨_, parseWith_eq_ok.mpr ⟨_, rfl, rfl, rfl⟩⟩

end BlockDoc.Dump
