/-
# Which limit an error names

A dump that is included is read as a dump of its own, under what is left of the nesting limit, and
what it reports is handed on unchanged.  So when a block begins that is one more than the limit
allows, the error names the limit of the dump in which this block stands.

Such a block stands in the text itself or in a dump that the text includes, at any depth, and the
headers on the way there tell what became of the limit (`Overrun`): each of them takes as many
levels off as there are blocks open behind it.

* The two sides fit (`parseWith_eq_nestingTooDeep`): reading fails in this way if and only if there
  is such a block, and the number in the error together with the levels on the way is the limit.
* So the limit that was asked for is named if and only if the block stands in the text itself
  (`nestingTooDeep_limit`).

The second case is a real one: under a limit of three an error can say two (`included_limit_named`).
-/
import BlockDoc.Proofs.Dump.Failure
import Mathlib.Algebra.GroupWithZero.Nat

namespace BlockDoc.Dump

variable {files : FileReader} {charset : Charset} {limit : Nat} {baseDir? : Option String}
  {o : Options} {t : List Char} {e : Error} {x : Nat} {route : List Nat}

/-! ## 1. The line at which reading stops -/

/-- The reader comes to a line and asks what it says: the lines before it are read, and it belongs
to no value. -/
structure Reached (files : FileReader) (o : Options) (t : List Char) (before : List (List Char))
    (line : List Char) : Prop where
  /-- The line stands in the text. -/
  lines : ∃ after, Text.lines t = before ++ line :: after
  /-- The lines before it are read. -/
  read : ∃ d, parseWith files o before.flatten = .ok d
  /-- It belongs to no value. -/
  outside : (standing before).inside = false

/-- **Reading stops at a header**: there is no room for its block, or for what its block starts
with. -/
theorem readUpTo_eq_error_opening : readUpTo files o t = .error e ↔
    ∃ before line name sorted path?, Reached files o t before line ∧
      Line.ofChars line = .opening name sorted path? ∧
      (o.limit ≤ (standing before).level + 1 ∧ e = .nestingTooDeep o.limit ∨
        (standing before).level + 1 < o.limit ∧
          contentOf files o.charset (o.limit - ((standing before).level + 1)) o.baseDir? sorted
            path? = .error e) := by
  rw [readUpTo_eq_error]
  constructor
  · rintro ⟨before, line, after, p, hlines, hp, hnone, hfail⟩
    have hstanding := standing_before hlines hp hnone
    obtain ⟨name, sorted, path?, hline, hcase⟩ := advance_eq_error.mp hfail
    refine ⟨before, line, name, sorted, path?, ⟨⟨after, hlines⟩, ?_, ?_⟩, hline, ?_⟩
    · exact ⟨_, parseWith_eq_ok.mpr ⟨p, hp, hnone, rfl⟩⟩
    · rw [hstanding]
    · rwa [hstanding]
  · rintro ⟨before, line, name, sorted, path?, ⟨⟨after, hlines⟩, ⟨d, hd⟩, -⟩, hline, hcase⟩
    obtain ⟨p, hp, hnone, -⟩ := parseWith_eq_ok.mp hd
    rw [standing_before hlines hp hnone] at hcase
    exact ⟨before, line, after, p, hlines, hp, hnone,
      advance_eq_error.mpr ⟨name, sorted, path?, hline, hcase⟩⟩

/-- A file that cannot be read is no matter of nesting. -/
theorem openFile_ne_nestingTooDeep {path : String} :
    openFile files charset path ≠ .error (.nestingTooDeep x) := by
  unfold openFile
  split
  next => simp
  next => split <;> simp

/-- **A block starts too deep inside** if its content is read from a dump that is too deep. -/
theorem contentOf_eq_nestingTooDeep {sorted : Bool} {path? : Option (List Char)} :
    contentOf files charset limit baseDir? sorted path? = .error (.nestingTooDeep x) ↔
      ∃ path text dir?, path? = some path ∧
        openFile files charset (resolve baseDir? (String.ofList path)) = .ok (text, dir?) ∧
        parseWith files ⟨charset, dir?, limit⟩ text = .error (.nestingTooDeep x) := by
  cases path? with
  | none => simp [contentOf]
  | some path =>
    have hread : ∀ text dir?,
        readLines files charset limit dir? 0 (rawLines text) (.empty true) [] =
          parseWith files ⟨charset, dir?, limit⟩ text := fun _ _ => rfl
    rw [contentOf, bind_eq_error, or_iff_right openFile_ne_nestingTooDeep]
    simp only [bind_eq_error, hread, Prod.exists, Option.some.injEq, reduceCtorEq, and_false,
      exists_false, or_false, exists_and_left, exists_eq_left']

/-! ## 2. The way to the block -/

/-- A block begins that is one more than the limit allows, in a text or in a dump that it includes.
The route has one number for each header on the way: how many blocks are open behind it. -/
inductive Overrun (files : FileReader) : Options → List Char → List Nat → Prop
  /-- The block stands in the text. -/
  | here {o : Options} {t : List Char} {before : List (List Char)} {line name : List Char}
      {sorted : Bool} {path? : Option (List Char)} :
      Reached files o t before line → Line.ofChars line = .opening name sorted path? →
        o.limit ≤ (standing before).level + 1 → Overrun files o t []
  /-- The block stands in a dump that the text includes, or further inside. -/
  | included {o : Options} {t : List Char} {before : List (List Char)} {line name path : List Char}
      {sorted : Bool} {text : List Char} {dir? : Option String} {route : List Nat} :
      Reached files o t before line → Line.ofChars line = .opening name sorted (some path) →
        (standing before).level + 1 < o.limit →
        openFile files o.charset (resolve o.baseDir? (String.ofList path)) = .ok (text, dir?) →
        Overrun files ⟨o.charset, dir?, o.limit - ((standing before).level + 1)⟩ text route →
        Overrun files o t (((standing before).level + 1) :: route)

/-- A way inside takes levels off. -/
theorem Overrun.sum_eq_zero_iff (h : Overrun files o t route) : route.sum = 0 ↔ route = [] := by
  cases h with
  | here => simp
  | included => simp

/-- One step of the way: the block stands here, or behind the next header. -/
theorem parseWith_eq_nestingTooDeep_step : parseWith files o t = .error (.nestingTooDeep x) ↔
    ∃ before line name sorted path?, Reached files o t before line ∧
      Line.ofChars line = .opening name sorted path? ∧
      (o.limit ≤ (standing before).level + 1 ∧ x = o.limit ∨
        (standing before).level + 1 < o.limit ∧ ∃ path text dir?, path? = some path ∧
          openFile files o.charset (resolve o.baseDir? (String.ofList path)) = .ok (text, dir?) ∧
          parseWith files ⟨o.charset, dir?, o.limit - ((standing before).level + 1)⟩ text =
            .error (.nestingTooDeep x)) := by
  have hheredoc : ¬ ∃ n, Unended files o t n ∧
      Error.nestingTooDeep x = .unterminatedHeredoc n := by
    rintro ⟨n, -, he⟩
    cases he
  rw [parseWith_eq_error, or_iff_left hheredoc, readUpTo_eq_error_opening]
  simp only [contentOf_eq_nestingTooDeep, Error.nestingTooDeep.injEq]

/-- **A dump is too deep** if and only if some block on a way into it is, and the limit is what the
error names together with the levels on the way. -/
theorem parseWith_eq_nestingTooDeep : parseWith files o t = .error (.nestingTooDeep x) ↔
    ∃ route, Overrun files o t route ∧ x + route.sum = o.limit := by
  constructor
  · -- a header on the way leaves a smaller limit to what it includes
    intro h
    induction hn : o.limit using Nat.strong_induction_on generalizing o t with
    | _ n ih =>
      subst hn
      obtain ⟨before, line, name, sorted, path?, hreached, hline, hcase⟩ :=
        parseWith_eq_nestingTooDeep_step.mp h
      rcases hcase with ⟨hlevel, rfl⟩ | ⟨hroom, path, text, dir?, rfl, hopen, hinside⟩
      · exact ⟨[], .here hreached hline hlevel, rfl⟩
      · have hless : o.limit - ((standing before).level + 1) < o.limit := by omega
        obtain ⟨route, hroute, hsum⟩ := ih _ hless hinside rfl
        refine ⟨_, .included hreached hline hroom hopen hroute, ?_⟩
        rw [List.sum_cons]
        omega
  · rintro ⟨route, hroute, hsum⟩
    induction hroute with
    | here hreached hline hlevel =>
      exact parseWith_eq_nestingTooDeep_step.mpr ⟨_, _, _, _, _, hreached, hline,
        .inl ⟨hlevel, hsum⟩⟩
    | included hreached hline hroom hopen _ ih =>
      rw [List.sum_cons] at hsum
      have hinside := ih (by dsimp only; omega)
      exact parseWith_eq_nestingTooDeep_step.mpr ⟨_, _, _, _, _, hreached, hline,
        .inr ⟨hroom, _, _, _, rfl, hopen, hinside⟩⟩

/-- A file is too deep if its text is. -/
theorem loadFile_eq_nestingTooDeep {path : String} :
    loadFile files o path = .error (.nestingTooDeep x) ↔
      ∃ t dir?, openFile files o.charset path = .ok (t, dir?) ∧
        parseWith files { o with baseDir? := dir? } t = .error (.nestingTooDeep x) := by
  rw [loadFile, bind_eq_error, or_iff_right openFile_ne_nestingTooDeep, Prod.exists]

/-! ## 3. What the error names -/

/-- **The error of a dump that is too deep names what is left of the limit** where the block stands
that is one too many.  That is the limit itself if the block stands in the text or the file that was
asked for, and less if it stands in a dump that is included: less by the blocks that are open around
this dump. -/
theorem nestingTooDeep_limit (files : FileReader) (o : Options) (x : Nat) :
    (∀ t, parseWith files o t = .error (.nestingTooDeep x) ↔
      ∃ route, Overrun files o t route ∧ x + route.sum = o.limit ∧ (x = o.limit ↔ route = [])) ∧
    ∀ path, loadFile files o path = .error (.nestingTooDeep x) ↔
      ∃ t dir? route, openFile files o.charset path = .ok (t, dir?) ∧
        Overrun files { o with baseDir? := dir? } t route ∧ x + route.sum = o.limit ∧
          (x = o.limit ↔ route = []) := by
  have hnamed : ∀ {o' : Options} {t : List Char} {route : List Nat}, Overrun files o' t route →
      x + route.sum = o.limit → (x = o.limit ↔ route = []) := by
    intro o' t route hroute hsum
    rw [← hroute.sum_eq_zero_iff]
    omega
  constructor
  · intro t
    rw [parseWith_eq_nestingTooDeep]
    exact exists_congr fun route => and_congr_right fun hroute =>
      ⟨fun hsum => ⟨hsum, hnamed hroute hsum⟩, fun h => h.1⟩
  · intro path
    simp only [loadFile_eq_nestingTooDeep, parseWith_eq_nestingTooDeep]
    constructor
    · rintro ⟨t, dir?, hopen, route, hroute, hsum⟩
      exact ⟨t, dir?, route, hopen, hroute, hsum, hnamed hroute hsum⟩
    · rintro ⟨t, dir?, route, hopen, hroute, hsum, -⟩
      exact ⟨t, dir?, hopen, route, hroute, hsum⟩

/-- A limit of three. -/
def limitThree : Options := { limit := 3 }

/-- The text of a dump that includes another one in a block. -/
def outerText : List Char := "a=inner\x7b\n".toList

/-- The text of the dump that is included, with a block in a block. -/
def innerText : List Char := "b\x7b\nc\x7b\n".toList

/-- The files with the two dumps. -/
def outerInner : FileReader := fun path =>
  .ok (if path = "inner" then [0x62, 0x7B, 0x0A, 0x63, 0x7B, 0x0A]
    else [0x61, 0x3D, 0x69, 0x6E, 0x6E, 0x65, 0x72, 0x7B, 0x0A])

/-- **An error can name a smaller limit than the one that was asked for**, in a text and in a
file. -/
theorem included_limit_named :
    parseWith outerInner limitThree outerText = .error (.nestingTooDeep 2) ∧
    loadFile outerInner limitThree "outer" = .error (.nestingTooDeep 2) ∧
    2 ≠ limitThree.limit := by
  have hinner : ∀ dir?, parseWith outerInner ⟨.windows1251, dir?, 2⟩ innerText =
      .error (.nestingTooDeep 2) := fun dir? => parseWith_eq_error.mpr (.inl rfl)
  have hfile : openFile outerInner .windows1251 "inner" =
      .ok (innerText, Path.parent? "inner") := rfl
  have hlines : Text.lines outerText = [] ++ outerText :: [] := by decide
  have hline : Line.ofChars outerText = .opening ['a'] true (some "inner".toList) := by decide
  have houter : ∀ dir?, resolve dir? "inner" = "inner" →
      parseWith outerInner ⟨.windows1251, dir?, 3⟩ outerText = .error (.nestingTooDeep 2) := by
    intro dir? hpath
    have hopen : openFile outerInner .windows1251 (resolve dir? "inner") =
        .ok (innerText, Path.parent? "inner") := by rw [hpath, hfile]
    have hroom : (standing []).level + 1 < 3 := by decide
    have hreached : Reached outerInner ⟨.windows1251, dir?, 3⟩ outerText [] outerText :=
      ⟨⟨[], hlines⟩, ⟨_, parseWith_eq_ok.mpr ⟨_, rfl, rfl, rfl⟩⟩, rfl⟩
    exact parseWith_eq_nestingTooDeep_step.mpr ⟨[], outerText, ['a'], true, _, hreached, hline,
      .inr ⟨hroom, _, innerText, _, rfl, hopen, hinner _⟩⟩
  refine ⟨houter none rfl, ?_, by decide⟩
  exact loadFile_eq_nestingTooDeep.mpr ⟨outerText, _, rfl, houter _ (by decide)⟩

end BlockDoc.Dump
