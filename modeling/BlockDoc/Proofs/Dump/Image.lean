/-
# What can be read, and whether it can be written

Reading makes documents of one kind only (`WasRead`): every entry has a content, a name that fits
on its line and no comment, the document itself is sorted, and its blocks fit the limit.  All this
is what the writer needs, so a document that was read is written and read back, with one exception.

The exception is a carriage return inside the line of a parameter (`Trapped`).  Reading a line cuts
tabs and spaces around the value but no carriage return, so `\r>>>` is a value; writing puts a
value with a carriage return on lines of its own, and there it would be the line that ends it.  The
writer refuses such a value.  No value from lines of its own has this trouble, because none of its
lines ends it, and no other value from one line needs lines of its own and ends them
(`unwritable_iff_trapped`).
-/
import BlockDoc.Proofs.Dump.Faithful
import BlockDoc.Proofs.Dump.Inclusion

namespace BlockDoc.Dump

open Text (isMargin isBlank)

variable {files : FileReader} {charset : Charset} {limit number : Nat} {baseDir? : Option String}
  {lines : List RawLine} {top d : Document} {stack : List OpenBlock} {t : List Char}

/-! ## 1. The entries of a document that was read -/

/-- What is known of an entry that was read. -/
structure WasRead (x : Item) : Prop where
  /-- There is a content. -/
  defined : x.isUndef = false
  /-- The name fits on its line. -/
  name : NameFits x
  /-- There is no comment. -/
  comment : x.comment = ""
  /-- The value of a parameter can be read. -/
  value : ∀ name text comment, x = .param name text comment → ReadValue text.toList

theorem WasRead.arranged {x : Item} (h : WasRead x) : WasRead x.arranged where
  defined := by simpa using h.defined
  name := nameFits_arranged.mpr h.name
  comment := by simpa using h.comment
  value name text comment e := by
    cases x with
    | undef name comment => cases e
    | param name text comment => cases e; exact h.value _ _ _ rfl
    | block name sorted items comment => cases e

/-- **Every entry of a document that was read** is of this kind. -/
theorem kept_wasRead : Kept (Document.Each WasRead) := by
  refine kept_each (fun name text hname hvalue => ⟨rfl, hname, rfl, ?_⟩)
    fun name sorted items hname => ⟨rfl, hname, rfl, ?_⟩
  · intro _ _ _ e
    cases e
    exact hvalue
  · intro _ _ _ e
    cases e

theorem wasRead_of_parse (h : parse files t = .ok d) :
    ∀ x ∈ (d.outline .chosen).preorder, WasRead x :=
  (kept_wasRead.of_parse h).chosen (kept_built.of_parse h) fun _ => WasRead.arranged

/-! ## 2. The document around them -/

/-- The flag of the outermost of the open documents. -/
def rootSorted (top : Document) : List OpenBlock → Bool
  | [] => top.sorted
  | b :: outer => rootSorted b.outer outer

theorem sorted_closeAll (top : Document) (stack : List OpenBlock) :
    (closeAll top stack).sorted = rootSorted top stack := by
  induction stack generalizing top with
  | nil => rfl
  | cons b outer ih =>
    rw [closeAll, ih]
    cases outer <;> rfl

theorem rootSorted_set (top : Document) (stack : List OpenBlock) (name : String) (v : Value) :
    rootSorted (top.set name v) stack = rootSorted top stack := by
  cases stack <;> rfl

/-- **The outermost document keeps its flag.** -/
theorem readLines_sorted
    (h : readLines files charset limit baseDir? number lines top stack = .ok d) :
    d.sorted = rootSorted top stack := by
  fun_induction readLines files charset limit baseDir? number lines top stack generalizing d with
  | case1 =>
    cases h
    exact sorted_closeAll _ _
  | case2 => cases h
  | case3 => cases h
  | case4 =>
    rename_i ih
    exact ih h
  | case5 => cases h
  | case6 => cases h
  | case7 =>
    rename_i ih
    exact ih h
  | case8 => rename_i ih; exact ih h
  | case9 =>
    rename_i ih
    exact (ih h).trans (rootSorted_set _ _ _ _)
  | case10 =>
    rename_i ih
    exact (ih h).trans (rootSorted_set _ _ _ _)
  | case11 => cases h
  | case12 =>
    rename_i ih
    exact (ih h).trans (rootSorted_set _ _ _ _)
  | case13 => rename_i ih; exact ih h

theorem sorted_of_parse (h : parse files t = .ok d) : d.sorted = true := readLines_sorted h

/-- **Every document that was read has room.** -/
theorem depth_of_parse (h : parse files t = .ok d) : (d.outline .chosen).depth < maxDepth := by
  have hfits : d.nesting = 0 ∨ d.nesting < maxDepth :=
    (readLines_fits h (fitsAt_empty _ _ true) trivial).2
  rw [(kept_built.of_parse h).outline_chosen, Outline.depth_arranged]
  rcases hfits with h0 | hlt
  · exact lt_of_eq_of_lt h0 (by decide)
  · exact hlt

/-! ## 3. Values that were read and cannot be written -/

/-- A value on one line that has a carriage return and reads `>>>` without its margins. -/
def Trapped : Item → Prop
  | .param _ text _ => '\r' ∈ text.toList ∧ '\n' ∉ text.toList ∧
      Text.trim isMargin text.toList = ['>', '>', '>']
  | .undef _ _ => False
  | .block _ _ _ _ => False

instance : DecidablePred Trapped
  | .param _ text _ => inferInstanceAs (Decidable ('\r' ∈ text.toList ∧ '\n' ∉ text.toList ∧
      Text.trim isMargin text.toList = ['>', '>', '>']))
  | .undef _ _ => inferInstanceAs (Decidable False)
  | .block _ _ _ _ => inferInstanceAs (Decidable False)

/-- A value without line ends and without blanks around it has no margins. -/
theorem Inline.trim_eq_self {value : List Char} (h : Inline value) (hr : '\r' ∉ value) :
    Text.trim isMargin value = value := by
  have hmargin : ∀ c ∈ value, isBlank c = false → isMargin c = false := by
    intro c hc hblank
    have hreturn : c ≠ '\r' := fun e => hr (e ▸ hc)
    have hnewline : c ≠ '\n' := fun e => h.newline (e ▸ hc)
    simp only [isBlank, isMargin, Bool.or_eq_false_iff, beq_eq_false_iff_ne] at hblank ⊢
    exact ⟨⟨⟨hblank.1, hnewline⟩, hreturn⟩, hblank.2⟩
  exact Text.trim_eq_self (fun c hc => hmargin c (List.mem_of_head? hc) (h.head c hc))
    fun c hc => hmargin c (List.mem_of_getLast? hc) (h.last c hc)

/-- A value of one line that ends a value on lines of its own has to be put on such lines if and
only if it has a carriage return. -/
theorem Inline.needsHeredoc_iff {value : List Char} (h : Inline value)
    (ht : isTerminator value = true) : needsHeredoc value = true ↔ '\r' ∈ value := by
  constructor
  · intro hneeds
    by_contra hr
    have hvalue : value = ['>', '>', '>'] := by
      rw [← h.trim_eq_self hr]
      exact eq_of_beq ht
    rw [hvalue] at hneeds
    exact absurd hneeds (by decide)
  · intro hr
    simp [needsHeredoc, hr]

/-- **Among the values that can be read, the trapped ones are those that cannot be written.** -/
theorem WasRead.unwritable_iff_trapped {x : Item} (h : WasRead x) : Unwritable x ↔ Trapped x := by
  cases x with
  | undef name comment => exact Iff.rfl
  | block name sorted items comment => exact Iff.rfl
  | param name text comment =>
    rw [unwritable_param, Bool.and_eq_true]
    rcases h.value name text comment rfl with hline | hbody
    · rw [hasTerminator_of_notMem hline.newline]
      constructor
      · rintro ⟨hneeds, hterm⟩
        exact ⟨(hline.needsHeredoc_iff hterm).mp hneeds, hline.newline, eq_of_beq hterm⟩
      · rintro ⟨hr, -, htrim⟩
        have hterm : isTerminator text.toList = true := beq_iff_eq.mpr htrim
        exact ⟨(hline.needsHeredoc_iff hterm).mpr hr, hterm⟩
    · constructor
      · rintro ⟨-, hterm⟩
        rw [hbody] at hterm
        cases hterm
      · rintro ⟨-, hnew, htrim⟩
        rw [hasTerminator_of_notMem hnew] at hbody
        rw [isTerminator, htrim] at hbody
        cases hbody

/-! ## 4. There and back again -/

/-- Documents that show the same are written alike. -/
theorem format_congr {d d' : Document} (h : d'.outline .chosen = d.outline .chosen) :
    format d' = format d := by
  have hitems : d'.items .chosen = d.items .chosen := congrArg Outline.items h
  rw [format, format, render, render, hitems]

/-- **A document that was read can be written if and only if no value is trapped.**  What is then
written is read back as this document, whatever is in the files, and written the same way again.
Otherwise writing fails and names the first trapped value from top to bottom. -/
theorem parse_format (h : parse files t = .ok d) :
    ((∃ t', format d = .ok t') ↔ ∀ x ∈ (d.outline .chosen).preorder, ¬ Trapped x) ∧
    (∀ t', format d = .ok t' → ∃ d', (∀ files', parse files' t' = .ok d') ∧
      (d' == d) = true ∧ format d' = .ok t') ∧
    (∀ e, format d = .error e ↔ ∃ before x after,
      (d.outline .chosen).preorder = before ++ x :: after ∧ (∀ y ∈ before, ¬ Trapped y) ∧
        Trapped x ∧ e = .unrepresentableValue x.name) := by
  have hread := wasRead_of_parse h
  have htrapped : ∀ x ∈ (d.outline .chosen).preorder, (Unwritable x ↔ Trapped x) :=
    fun x hx => (hread x hx).unwritable_iff_trapped
  have hok : ∀ t', format d = .ok t' ↔
      t' = render d ∧ ∀ x ∈ (d.outline .chosen).preorder, ¬ Trapped x := by
    intro t'
    rw [format_ok_iff]
    exact and_congr_right fun _ => forall₂_congr fun x hx => not_congr (htrapped x hx)
  refine ⟨⟨fun ⟨t', ht'⟩ => ((hok t').mp ht').2, fun hx => ⟨_, (hok _).mpr ⟨rfl, hx⟩⟩⟩, ?_, ?_⟩
  · intro t' ht'
    obtain ⟨rfl, hx⟩ := (hok t').mp ht'
    have hform : Representable d := fun x hmem =>
      ⟨(hread x hmem).defined, (hread x hmem).name, fun hu => hx x hmem ((htrapped x hmem).mp hu)⟩
    have houtline := outline_ofItems_chosen (kept_built.of_parse h) (sorted_of_parse h)
      fun x hmem => (hread x hmem).comment
    exact ⟨_, parse_render d hform (depth_of_parse h), decide_eq_true houtline,
      (format_congr houtline).trans ht'⟩
  · intro e
    rw [format_error_iff]
    refine exists_congr fun before => exists_congr fun x => exists_congr fun after =>
      and_congr_right fun hpre => ?_
    rw [hpre] at htrapped
    have hbefore : (∀ y ∈ before, ¬ Unwritable y) ↔ ∀ y ∈ before, ¬ Trapped y :=
      forall₂_congr fun y hy => not_congr (htrapped y (List.mem_append_left _ hy))
    rw [hbefore, htrapped x List.mem_append_cons_self]

/-- A dump with a comment, a brace that closes nothing and a block without an end. -/
def untidy : List Char :=
  [' ', 'a', ' ', '=', 'x', '/', '/', 'y', '\n', '\x7d', '\n', 'b', '^', '^', '\x7b']

/-- What that dump holds. -/
def tidied : Document := .ofItems true [.param "a" "x" "", .block "b^" true [] ""]

/-- An untidy dump is read, written and read back. -/
theorem parse_format_untidy : parse (fun _ => .error .notFound) untidy = .ok tidied ∧
    ∃ t' d', format tidied = .ok t' ∧ parse (fun _ => .error .notFound) t' = .ok d' ∧
      (d' == tidied) = true ∧ format d' = .ok t' := by
  have h : (Source.ofText untidy).read (fun _ => .error .notFound) {} = .ok tidied :=
    Source.read_of_iterate (n := 4) rfl
  have hvalues : ∀ x ∈ (tidied.outline .chosen).preorder, ¬ Trapped x := by
    refine Document.forall_ofItems (fun x hx => ?_) (by decide)
    cases x <;> exact hx
  obtain ⟨hiff, hback, -⟩ := parse_format h
  obtain ⟨t', ht'⟩ := hiff.mpr hvalues
  obtain ⟨d', hd', he, hformat⟩ := hback t' ht'
  exact ⟨h, t', d', ht', hd' _, he, hformat⟩

/-- **A document that was read need not be writable**: a carriage return in front of `>>>` on one
line is read, and refused by the writer. -/
theorem parse_not_writable :
    parse (fun _ => .error .notFound) ['a', '=', '\r', '>', '>', '>', '\n'] =
      .ok (.ofItems true [.param "a" "\r>>>" ""]) ∧
    format (.ofItems true [.param "a" "\r>>>" ""]) = .error (.unrepresentableValue "a") := by
  constructor
  · have hread : (Source.ofText ['a', '=', '\r', '>', '>', '>', '\n']).read
        (fun _ => .error .notFound) {} = .ok (.ofItems true [.param "a" "\r>>>" ""]) :=
      Source.read_of_iterate (n := 2) rfl
    exact hread
  · have hitems : (Document.ofItems true [.param "a" "\r>>>" ""]).items .chosen =
        [.param "a" "\r>>>" ""] :=
      congrArg Outline.items (outline_ofItems_single rfl rfl)
    rw [format, hitems]
    rfl

end BlockDoc.Dump
