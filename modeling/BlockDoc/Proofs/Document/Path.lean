/-
# Where a path leads

The segments of a path are followed one after the other, and a byte is counted along: the one at
which the segment ends.  When a segment is missing, the path is cut at this byte.

What carries the argument is what stands in front of the segments that are left: those that were
passed, with a dot behind each (`lead`).  Their bytes are the ones that were counted, so the cut is
behind a whole segment and never inside a character (`takeBytes?_joinPath`), and what it gives is
the part of the path up to the missing segment, whatever characters the path has.

There are three ways to come to an end (`Ends`): a segment is missing, a segment that is not the
last one is no block, or the last segment is reached.  One of them is always met
(`exists_ends`), so the walk never runs out of segments.

Main statement: `lookup_ends`.
-/
import BlockDoc.Proofs.Document.Views
import BlockDoc.Proofs.Text.Cutting

namespace BlockDoc

/-! ## 1. Cutting at a byte -/

namespace Text

theorem takeBytes?_zero (cs : List Char) : takeBytes? 0 cs = some [] := by cases cs <;> rfl

/-- A character is taken with all of its bytes. -/
theorem takeBytes?_cons (n : Nat) (c : Char) (cs : List Char) :
    takeBytes? (c.utf8Size + n) (c :: cs) = (takeBytes? n cs).map (c :: ·) := by
  have hpos := c.utf8Size_pos
  obtain ⟨k, hk⟩ : ∃ k, c.utf8Size + n = k + 1 := ⟨c.utf8Size + n - 1, by omega⟩
  have hrest : k + 1 - c.utf8Size = n := by omega
  rw [hk, takeBytes?, if_pos (by omega), hrest]

/-- **As many bytes as a text has** take this text, whatever follows it. -/
theorem takeBytes?_append (cs back : List Char) :
    takeBytes? (String.ofList cs).utf8ByteSize (cs ++ back) = some cs := by
  induction cs with
  | nil => exact takeBytes?_zero back
  | cons c cs ih =>
    rw [String.ofList_cons, String.utf8ByteSize_append, String.utf8ByteSize_singleton,
      List.cons_append, takeBytes?_cons, ih, Option.map_some]

end Text

namespace Document

/-! ## 2. Segments -/

theorem segments_ne_nil (path : String) : segments path ≠ [] := by
  rw [segments, Ne, List.map_eq_nil_iff]
  exact List.splitOn_ne_nil _ _

/-- **A path is its segments** with dots between them. -/
theorem joinPath_segments (path : String) : joinPath (segments path) = path := by
  refine String.toList_inj.mp ?_
  rw [joinPath, String.toList_intercalate, segments, List.map_map]
  simp only [Function.comp_def, String.toList_ofList, List.map_id']
  exact List.intercalate_splitOn '.'

/-- No segment has a dot. -/
theorem dot_notMem_segments {path segment : String} (h : segment ∈ segments path) :
    '.' ∉ segment.toList := by
  obtain ⟨piece, hpiece, rfl⟩ := List.mem_map.mp h
  rw [String.toList_ofList]
  exact Text.notMem_splitOn hpiece

/-- **Segments are those of their path**, if no dot is in any of them. -/
theorem segments_joinPath {segs : List String} (hne : segs ≠ [])
    (hdots : ∀ s ∈ segs, '.' ∉ s.toList) : segments (joinPath segs) = segs := by
  have hlists : ∀ l ∈ segs.map String.toList, '.' ∉ l := by
    intro l hl
    obtain ⟨s, hs, rfl⟩ := List.mem_map.mp hl
    exact hdots s hs
  have hsplit := List.splitOn_intercalate '.' hlists (by simpa using hne)
  rw [segments, joinPath, String.toList_intercalate]
  refine (congrArg (List.map String.ofList) hsplit).trans ?_
  rw [List.map_map]
  simp [Function.comp_def]

/-- What stands in front of further segments: those that were passed, with a dot behind each. -/
def lead (passed : List String) : List Char := passed.flatMap fun s => s.toList ++ ['.']

theorem toList_joinPath_append (passed : List String) {rest : List String} (h : rest ≠ []) :
    (joinPath (passed ++ rest)).toList = lead passed ++ (joinPath rest).toList := by
  induction passed with
  | nil => rfl
  | cons s passed ih =>
    have hne : (passed ++ rest).map String.toList ≠ [] := by simp [h]
    rw [joinPath, String.toList_intercalate] at ih ⊢
    have hlead : lead (s :: passed) = s.toList ++ ['.'] ++ lead passed := List.flatMap_cons
    rw [List.cons_append, List.map_cons, List.intercalate_cons_of_ne_nil hne, ih, hlead,
      List.append_assoc (s.toList ++ ['.'])]
    rfl

theorem joinPath_singleton (segment : String) : joinPath [segment] = segment := rfl

/-- A path has no characters but dots and those of its segments. -/
theorem mem_joinPath {segs : List String} {c : Char} (h : c ∈ (joinPath segs).toList) :
    c = '.' ∨ ∃ s ∈ segs, c ∈ s.toList := by
  induction segs with
  | nil => exact absurd h List.not_mem_nil
  | cons s rest ih =>
    rcases eq_or_ne rest [] with rfl | hne
    · exact .inr ⟨s, List.mem_singleton_self s, h⟩
    · have hpath := toList_joinPath_append [s] hne
      rw [List.singleton_append, lead, List.flatMap_singleton] at hpath
      rw [hpath, List.append_assoc] at h
      rcases List.mem_append.mp h with h | h
      · exact .inr ⟨s, List.mem_cons_self, h⟩
      rcases List.mem_cons.mp h with h | h
      · exact .inl h
      · exact (ih h).imp_right fun ⟨s', hs', hc⟩ => ⟨s', List.mem_cons_of_mem s hs', hc⟩

/-- Segments begin with the first of them. -/
theorem exists_joinPath_cons (segment : String) (rest : List String) :
    ∃ back, (joinPath (segment :: rest)).toList = segment.toList ++ back := by
  rw [joinPath, String.toList_intercalate, List.map_cons]
  cases rest with
  | nil => exact ⟨[], by simp⟩
  | cons s rest => exact ⟨_, by rw [List.map_cons, List.intercalate_cons_cons, List.append_assoc]⟩

/-- The part of a path up to a segment. -/
theorem toList_joinPath_concat (passed : List String) (segment : String) :
    (joinPath (passed ++ [segment])).toList = lead passed ++ segment.toList := by
  rw [toList_joinPath_append passed (List.cons_ne_nil _ _), joinPath_singleton]

/-- **The part of a path up to a segment** stands at its front. -/
theorem joinPath_concat_isPrefix (passed : List String) (segment : String) (rest : List String) :
    (joinPath (passed ++ [segment])).toList <+: (joinPath (passed ++ segment :: rest)).toList := by
  obtain ⟨back, hback⟩ := exists_joinPath_cons segment rest
  refine ⟨back, ?_⟩
  rw [toList_joinPath_concat, toList_joinPath_append passed (List.cons_ne_nil _ _), hback,
    List.append_assoc]

/-- **The cut behind a segment** gives the part of the path up to this segment. -/
theorem takeBytes?_joinPath (passed : List String) (segment : String) (rest : List String) :
    Text.takeBytes? ((String.ofList (lead passed)).utf8ByteSize + segment.utf8ByteSize)
        (joinPath (passed ++ segment :: rest)).toList =
      some (joinPath (passed ++ [segment])).toList := by
  obtain ⟨back, hback⟩ := joinPath_concat_isPrefix passed segment rest
  have hsize : (String.ofList (lead passed)).utf8ByteSize + segment.utf8ByteSize =
      (String.ofList (joinPath (passed ++ [segment])).toList).utf8ByteSize := by
    rw [toList_joinPath_concat, String.ofList_append, String.utf8ByteSize_append,
      String.ofList_toList]
  rw [hsize, ← hback, Text.takeBytes?_append]

/-- One segment more was passed, and the dot behind it. -/
theorem utf8ByteSize_lead_concat (passed : List String) (segment : String) :
    (String.ofList (lead (passed ++ [segment]))).utf8ByteSize =
      (String.ofList (lead passed)).utf8ByteSize + segment.utf8ByteSize + 1 := by
  have hlead : lead (passed ++ [segment]) = lead passed ++ (segment.toList ++ ['.']) := by
    rw [lead, List.flatMap_append, List.flatMap_singleton, lead]
  rw [hlead, String.ofList_append, String.ofList_append, String.utf8ByteSize_append,
    String.utf8ByteSize_append, String.ofList_toList, Nat.add_assoc]
  rfl

/-! ## 3. Ways to an end -/

/-- The oldest entry with a name. -/
def oldest? (d : Document) (name : String) : Option Entry :=
  d.entries.toList.find? (·.name = name)

/-- Segments lead through blocks from one document to another, each of them to the oldest entry with
its name. -/
inductive Leads : Document → List String → Document → Prop
  | here (d : Document) : Leads d [] d
  | into {d inner target : Document} {segment name comment : String} {rest : List String} :
      d.oldest? segment = some ⟨name, .block inner, comment⟩ → Leads inner rest target →
      Leads d (segment :: rest) target

/-- What is found at the end of a path. -/
inductive Ending where
  /-- Nothing: the last of these segments is missing. -/
  | missing (passed : List String)
  /-- Something that is no block, under this segment, and there are more segments. -/
  | blocked (segment : String)
  /-- An entry. -/
  | reached (e : Entry)

/-- How some segments end that are followed from a document. -/
inductive Ends (d : Document) : List String → Ending → Prop
  | missing {front rest : List String} {segment : String} {x : Document} : d.Leads front x →
      x.oldest? segment = none → Ends d (front ++ segment :: rest) (.missing (front ++ [segment]))
  | blocked {front rest : List String} {segment : String} {x : Document} {e : Entry} :
      d.Leads front x → x.oldest? segment = some e → e.value.document? = none → rest ≠ [] →
      Ends d (front ++ segment :: rest) (.blocked segment)
  | reached {front : List String} {segment : String} {x : Document} {e : Entry} :
      d.Leads front x → x.oldest? segment = some e → Ends d (front ++ [segment]) (.reached e)

/-- The entry at the end of a path, or why there is none. -/
def Ending.entry (path : String) : Ending → Except Error Entry
  | .missing passed => .error (.keyNotFound (joinPath passed))
  | .blocked segment => .error (.pathNotFound path segment)
  | .reached e => .ok e

/-- The text at the end of a path, or why there is none. -/
def Ending.text (path : String) : Ending → Except Error String
  | .missing passed => .error (.keyNotFound (joinPath passed))
  | .blocked segment => .error (.pathNotFound path segment)
  | .reached e => match e.value.text? with
    | some text => .ok text
    | none => .error (.notAParameter path)

/-- The block at the end of a path, or why there is none. -/
def Ending.block (path : String) : Ending → Except Error Document
  | .missing passed => .error (.keyNotFound (joinPath passed))
  | .blocked segment => .error (.pathNotFound path segment)
  | .reached e => match e.value.document? with
    | some inner => .ok inner
    | none => .error (.notABlock path)

variable {d : Document}

/-- **Following a path meets an end.** -/
theorem exists_ends (d : Document) {segments : List String} (h : segments ≠ []) :
    ∃ ending, d.Ends segments ending := by
  induction segments generalizing d with
  | nil => exact absurd rfl h
  | cons segment rest ih =>
    cases he : d.oldest? segment with
    | none => exact ⟨_, .missing (.here d) he⟩
    | some e =>
      by_cases hrest : rest = []
      · subst hrest
        exact ⟨_, .reached (.here d) he⟩
      obtain ⟨name, value, comment⟩ := e
      cases value with
      | undef => exact ⟨_, .blocked (.here d) he rfl hrest⟩
      | param text => exact ⟨_, .blocked (.here d) he rfl hrest⟩
      | block inner =>
        obtain ⟨ending, hending⟩ := ih inner hrest
        cases hending with
        | @missing front rest s x hleads hnone =>
          exact ⟨_, @Ends.missing d (segment :: front) rest s x (.into he hleads) hnone⟩
        | @blocked front rest s x e hleads hsome hvalue hne =>
          exact ⟨_, @Ends.blocked d (segment :: front) rest s x e (.into he hleads) hsome hvalue hne⟩
        | @reached front s x e hleads hsome =>
          exact ⟨_, @Ends.reached d (segment :: front) s x e (.into he hleads) hsome⟩

theorem Indexed.first?_eq_oldest? (h : d.Indexed) (name : String) : d.first? name = d.oldest? name := by
  have hseen : d.Observes d.sorted d.entries.toList := Records.observes ⟨h, rfl, rfl⟩
  rw [hseen.first?, List.head?_filter, oldest?]

/-! ## 4. The walk -/

/-- The oldest entry with a name, if it is a block, was built. -/
theorem Built.of_oldest? (h : d.Built) {segment name comment : String} {inner : Document}
    (he : d.oldest? segment = some ⟨name, .block inner, comment⟩) : inner.Built :=
  h.inner (List.mem_of_find?_eq_some he) rfl

theorem Leads.built {front : List String} {x : Document} (h : d.Leads front x) (hd : d.Built) :
    x.Built := by
  induction h with
  | here => exact hd
  | into he _ ih => exact ih (hd.of_oldest? he)

/-- **The walk goes along the blocks** to which segments lead, and counts their bytes. -/
theorem Leads.follow_eq {path : String} {front rest : List String} {x : Document}
    (h : d.Leads front x) (hd : d.Built) (hrest : rest ≠ []) (passed : List String) :
    d.follow path (String.ofList (lead passed)).utf8ByteSize (front ++ rest) =
      x.follow path (String.ofList (lead (passed ++ front))).utf8ByteSize rest := by
  induction h generalizing passed with
  | here => rw [List.append_nil, List.nil_append]
  | @into d inner target segment name comment front he _ ih =>
    have hmore : (front ++ rest).isEmpty = false := by simp [hrest]
    rw [List.cons_append, follow, hd.indexed.first?_eq_oldest?, he]
    simp only [hmore]
    rw [← utf8ByteSize_lead_concat, ih (hd.of_oldest? he), List.append_assoc]
    rfl

/-- The walk comes to the first segment that leads to no block, or is the last one. -/
theorem Leads.follow_cons {front : List String} {x : Document} (h : d.Leads front x) (hd : d.Built)
    (path segment : String) (rest : List String) :
    d.follow path 0 (front ++ segment :: rest) =
      x.follow path (String.ofList (lead front)).utf8ByteSize (segment :: rest) :=
  h.follow_eq hd (List.cons_ne_nil segment rest) []

/-- **The walk finds what is at the end**, and neither cuts a character nor runs out of segments. -/
theorem Ends.follow_eq {segments : List String} {ending : Ending} (h : d.Ends segments ending)
    (hd : d.Built) :
    d.follow (joinPath segments) 0 segments = .ok (ending.entry (joinPath segments)) := by
  cases h with
  | @missing front rest segment x hleads hnone =>
    rw [hleads.follow_cons hd, follow, (hleads.built hd).indexed.first?_eq_oldest?, hnone]
    simp only [takeBytes?_joinPath, String.ofList_toList]
    rfl
  | @blocked front rest segment x e hleads hsome hvalue hrest =>
    have hmore : rest.isEmpty = false := by simp [hrest]
    rw [hleads.follow_cons hd, follow, (hleads.built hd).indexed.first?_eq_oldest?, hsome]
    obtain ⟨name, _ | text | inner, comment⟩ := e
    · simp only [hmore]
      rfl
    · simp only [hmore]
      rfl
    · cases hvalue
  | @reached front segment x e hleads hsome =>
    rw [hleads.follow_cons hd, follow, (hleads.built hd).indexed.first?_eq_oldest?, hsome]
    rfl

/-- One block more is passed on the way to an entry. -/
theorem Ends.into {segment name comment : String} {inner : Document} {segments : List String}
    {e : Entry} (he : d.oldest? segment = some ⟨name, .block inner, comment⟩)
    (h : inner.Ends segments (.reached e)) : d.Ends (segment :: segments) (.reached e) := by
  cases h with
  | @reached front last x e hleads hsome =>
    exact @Ends.reached d (segment :: front) last x e (.into he hleads) hsome

/-- The parameter at the end of a path that is written in one way only. -/
theorem Ends.getParam_eq {segs : List String} {name text comment : String}
    (h : d.Ends segs (.reached ⟨name, .param text, comment⟩)) (hd : d.Built)
    (hsegments : segments (joinPath segs) = segs)
    (htrimmed : Text.trimmed (joinPath segs) = joinPath segs) :
    d.getParam (joinPath segs) = .ok text := by
  have hchecked : d.resolveChecked (joinPath segs) = .ok (.ok ⟨name, .param text, comment⟩) := by
    have hfollow := h.follow_eq hd
    rw [resolveChecked, htrimmed, hsegments]
    exact hfollow
  rw [getParam, resolve, hchecked]
  rfl

/-- **Every path leads to one of the three ends**, and every reader says to which.

The path is trimmed first.  If a segment is the first one that is missing, the error names the part
of the path up to it.  If a segment that is not the last one leads to something other than a block,
the error names the path and this segment.  Otherwise there is an entry, and it has a text if it is
a parameter and a document if it is a block.  On the way the path is never cut inside a character,
and there is always a segment to go on with. -/
theorem lookup_ends (hd : d.Built) (path : String) :
    joinPath (segments (Text.trimmed path)) = Text.trimmed path ∧
    (∀ segment ∈ segments (Text.trimmed path), '.' ∉ segment.toList) ∧
    (∃ ending, d.Ends (segments (Text.trimmed path)) ending) ∧
    ∀ ending, d.Ends (segments (Text.trimmed path)) ending →
      d.resolveChecked path = .ok (ending.entry (Text.trimmed path)) ∧
      d.getParam path = ending.text (Text.trimmed path) ∧
      d.getBlock path = ending.block (Text.trimmed path) ∧
      ∀ passed, ending = .missing passed →
        (joinPath passed).toList <+: (Text.trimmed path).toList := by
  have hjoin := joinPath_segments (Text.trimmed path)
  refine ⟨hjoin, fun segment => dot_notMem_segments, exists_ends d (segments_ne_nil _),
    fun ending h => ?_⟩
  have hchecked : d.resolveChecked path = .ok (ending.entry (Text.trimmed path)) := by
    have hfollow := h.follow_eq hd
    rwa [hjoin] at hfollow
  refine ⟨hchecked, ?_, ?_, ?_⟩
  · rw [getParam, resolve, hchecked]
    cases ending with
    | missing passed => rfl
    | blocked segment => rfl
    | reached e => obtain ⟨name, _ | text | inner, comment⟩ := e <;> rfl
  · rw [getBlock, resolve, hchecked]
    cases ending with
    | missing passed => rfl
    | blocked segment => rfl
    | reached e => obtain ⟨name, _ | text | inner, comment⟩ := e <;> rfl
  · rintro passed rfl
    generalize hsegments : segments (Text.trimmed path) = segs at h hjoin
    rw [← hjoin]
    cases h with
    | @missing front rest segment x hleads hnone => exact joinPath_concat_isPrefix front segment rest

/-- A block with a name of two bytes in which a name comes twice, and a parameter with the name of
the block behind it. -/
def forked : Document :=
  .ofItems true [.block "é" false [.param "ж" "1" "", .param "ж" "2" ""] "", .param "é" "3" ""]

/-- Of two entries with one name the first is followed, a missing segment is reported with what
stands before it, and a parameter leads no further. -/
theorem lookup_ends_forked : forked.Built ∧
    forked.getParam " é.ж\u00a0" = .ok "1" ∧
    forked.getBlock "é.ж" = .error (.notABlock "é.ж") ∧
    forked.getParam "é.é.ж" = .error (.keyNotFound "é.é") ∧
    forked.getParam "é.ж.x" = .error (.pathNotFound "é.ж.x" "ж") := by
  have hd : forked.Built := built_ofItems _ _
  have hblock : forked.Leads ["é"] (.ofItems false [.param "ж" "1" "", .param "ж" "2" ""]) :=
    .into rfl (.here _)
  have hparam : forked.Ends ["é", "ж"] (.reached ⟨"ж", .param "1", ""⟩) :=
    .reached hblock rfl
  have hmissing : forked.Ends ["é", "é", "ж"] (.missing ["é", "é"]) := .missing hblock rfl
  have hblocked : forked.Ends ["é", "ж", "x"] (.blocked "ж") :=
    .blocked hblock rfl rfl (List.cons_ne_nil _ _)
  refine ⟨hd, ((lookup_ends hd " é.ж\u00a0").2.2.2 _ hparam).2.1,
    ((lookup_ends hd "é.ж").2.2.2 _ hparam).2.2.1,
    ((lookup_ends hd "é.é.ж").2.2.2 _ hmissing).2.1,
    ((lookup_ends hd "é.ж.x").2.2.2 _ hblocked).2.1⟩

end Document

end BlockDoc
