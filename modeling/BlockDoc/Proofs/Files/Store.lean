/-
# A file that was written can be read

Looking up a path asks for a directory at every step, so it passes through directories only
(`walk_put`), and those are still there when a file was written.  The path of a file that could be
written ends in a name of its own: a `.` or `..` at its end leads to a directory, and so does a slash
(`target_eq_ok`).  So the same path leads to the file afterwards, and every other path leads where it
led before (`locate_put`).

Which file that is can be told from a path without `..`: it leads down by its names from where it
starts, if anywhere (`location_of_locate`).
-/
import BlockDoc.Files.Store
import BlockDoc.Outcome
import Mathlib.Data.List.Basic

namespace BlockDoc

namespace Store

variable {s : Store} {here there l l' : Location} {n : Node} {name path : String} {content : Bytes}

/-! ## 1. Nodes -/

theorem node?_put_self (h : l ≠ []) : (s.put l n).node? l = some n := by
  cases l with
  | nil => exact absurd rfl h
  | cons name names => simp [node?, put]

theorem node?_put_of_ne (h : l' ≠ l) : (s.put l n).node? l' = s.node? l' := by
  cases l' with
  | nil => rfl
  | cons m ms =>
    have hne : ¬ (l == m :: ms) = true := fun e => h (eq_of_beq e).symm
    have hfind : (s.nodes.filter fun entry => entry.1 != l).find?
        (fun entry => entry.1 == m :: ms) = s.nodes.find? fun entry => entry.1 == m :: ms := by
      rw [List.find?_filter]
      congr 1
      funext entry
      by_cases he : entry.1 = m :: ms
      · simp [he, Ne.symm (ne_of_beq_false (Bool.eq_false_iff.mpr hne))]
      · simp [he]
    have hskip : (s.put l n).nodes.find? (fun entry => entry.1 == m :: ms) =
        (s.nodes.filter fun entry => entry.1 != l).find? (fun entry => entry.1 == m :: ms) :=
      List.find?_cons_of_neg hne
    exact congrArg (Option.map Prod.snd) (hskip.trans hfind)

/-! ## 2. Steps -/

/-- **A step starts from a directory.** -/
theorem directory_of_step (h : s.step here name = .ok there) : s.node? here = some .directory := by
  unfold step at h
  split at h
  next => cases h
  next => cases h
  next hd => exact hd

/-- A step looks at the place where it starts and nowhere else. -/
theorem step_congr {s' : Store} (h : s'.node? here = s.node? here) (name : String) :
    s'.step here name = s.step here name := by
  simp only [step, h]

/-- **A step with a name of its own leads down**, and `.` stays. -/
theorem step_eq_ok (hdots : name ≠ "..") (h : s.step here name = .ok there) :
    there = here ++ [name].filter (· ≠ ".") := by
  unfold step at h
  split at h
  next => cases h
  next => cases h
  next =>
    split at h
    next hdot =>
      cases h
      simp [hdot]
    next hdot =>
      split at h
      next => cases h
      next =>
        cases h
        simp [hdot]

theorem walk_append (steps : List String) (name : String) :
    s.walk here (steps ++ [name]) = s.walk here steps >>= fun dir => s.step dir name := by
  induction steps generalizing here with
  | nil =>
    rw [List.nil_append, walk, walk, ok_bind]
    cases s.step here name <;> rfl
  | cons step steps ih =>
    simp only [List.cons_append, walk]
    cases s.step here step with
    | error e => rfl
    | ok next => exact ih

/-- **A walk passes through directories only**, so it is the same after a change elsewhere. -/
theorem walk_put (hn : s.node? l ≠ some .directory) {steps : List String}
    (h : s.walk here steps = .ok there) : (s.put l n).walk here steps = .ok there := by
  induction steps generalizing here with
  | nil => exact h
  | cons name steps ih =>
    obtain ⟨next, hstep, hwalk⟩ := bind_eq_ok.1 h
    have hne : here ≠ l := fun e => hn (e ▸ directory_of_step hstep)
    rw [walk, step_congr (node?_put_of_ne hne), hstep]
    exact ih hwalk

/-! ## 3. The target of a path -/

/-- **A file can be written at a path** only if the path ends in a new name of a directory, or in
the name of a file there. -/
theorem target_eq_ok (h : s.target path = .ok l) :
    checkPath path = .ok () ∧ (stepsOf path).2 = false ∧
      ∃ steps last dir, (stepsOf path).1 = steps ++ [last] ∧ last ≠ "." ∧ last ≠ ".." ∧
        s.walk (s.startOf path) steps = .ok dir ∧ s.step dir last = .ok l ∧ l = dir ++ [last] ∧
        s.node? l ≠ some .directory := by
  obtain ⟨⟨⟩, hcheck, h⟩ := bind_eq_ok.1 h
  dsimp only at h
  split at h
  next => cases h
  next last hlast =>
    obtain ⟨dir, hwalk, h⟩ := bind_eq_ok.1 h
    split at h
    next => split at h <;> cases h
    next hlast' =>
      simp only [Bool.or_eq_true, decide_eq_true_eq, not_or, Bool.not_eq_true] at hlast'
      obtain ⟨⟨hslash, hdot⟩, hdots⟩ := hlast'
      obtain ⟨there, hstep, h⟩ := bind_eq_ok.1 h
      split at h
      next => cases h
      next hnode =>
        cases h
        have hl : l = dir ++ [last] := by simpa [hdot] using step_eq_ok hdots hstep
        exact ⟨hcheck, hslash, _, last, dir, (List.dropLast_append_getLast? last hlast).symm, hdot,
          hdots, hwalk, hstep, hl, hnode⟩

/-- **And at such a path it can be written.** -/
theorem target_of_step {steps : List String} {last : String} {dir : Location}
    (hcheck : checkPath path = .ok ()) (hslash : (stepsOf path).2 = false)
    (hsteps : (stepsOf path).1 = steps ++ [last]) (hdot : last ≠ ".") (hdots : last ≠ "..")
    (hwalk : s.walk (s.startOf path) steps = .ok dir) (hstep : s.step dir last = .ok l)
    (hnode : s.node? l ≠ some .directory) : s.target path = .ok l := by
  rw [target, hcheck, ok_bind]
  simp only [hslash, hsteps, List.getLast?_concat, List.dropLast_concat, hwalk, ok_bind, hstep, hdot,
    hdots, hnode, decide_false, Bool.or_false, Bool.false_eq_true, if_false]

theorem target_ne_nil (h : s.target path = .ok l) : l ≠ [] := by
  obtain ⟨-, -, -, last, dir, -, -, -, -, -, rfl, -⟩ := target_eq_ok h
  exact List.append_ne_nil_of_right_ne_nil _ (List.cons_ne_nil _ _)

/-- Where a file can be written, there is no directory. -/
theorem node?_target (h : s.target path = .ok l) : s.node? l ≠ some .directory := by
  obtain ⟨-, -, -, -, -, -, -, -, -, -, -, hnode⟩ := target_eq_ok h
  exact hnode

/-- The path of a file that can be written leads to it. -/
theorem locate_target (h : s.target path = .ok l) : s.locate path = .ok l := by
  obtain ⟨hcheck, hslash, steps, last, dir, hsteps, -, -, hwalk, hstep, -, -⟩ := target_eq_ok h
  rw [locate, hcheck, ok_bind]
  simp only [hslash, hsteps, Bool.false_eq_true, if_false]
  rw [walk_append, hwalk, ok_bind, hstep]

/-- **A path leads to the same location** after a file was written. -/
theorem locate_put (hn : s.node? l ≠ some .directory) (h : s.locate path = .ok there) :
    (s.put l n).locate path = .ok there := by
  obtain ⟨⟨⟩, hcheck, h⟩ := bind_eq_ok.1 h
  rw [locate, hcheck, ok_bind]
  exact walk_put hn h

/-- **A file can be written where it could be** before another was written. -/
theorem target_put (hn : s.node? l ≠ some .directory) (h : s.target path = .ok l') :
    (s.put l (.file content)).target path = .ok l' := by
  obtain ⟨hcheck, hslash, steps, last, dir, hsteps, hdot, hdots, hwalk, hstep, -, hnode⟩ :=
    target_eq_ok h
  have hdir : dir ≠ l := fun e => hn (e ▸ directory_of_step hstep)
  refine target_of_step hcheck hslash hsteps hdot hdots (walk_put hn hwalk)
    ((step_congr (node?_put_of_ne hdir) last).trans hstep) ?_
  by_cases he : l' = l
  · subst he
    rw [node?_put_self (target_ne_nil h)]
    exact fun e => by cases e
  · rw [node?_put_of_ne he]
    exact hnode

/-- What is read at a path is the file at its location. -/
theorem read_congr {s' : Store} {path' : String} (h : s.locate path = .ok l)
    (h' : s'.locate path' = .ok l) (hnode : s'.node? l = s.node? l) :
    s'.read path' = s.read path := by
  rw [read, read, h, h', ok_bind, ok_bind, hnode]

/-- A file is put at the target of its path. -/
theorem write_eq_put (h : s.target path = .ok l) (content : Bytes) :
    s.write path content = .ok (s.put l (.file content)) := by
  rw [write, h, ok_bind]

/-- **What was written at a path is read there.** -/
theorem read_write {s' : Store} (h : s.write path content = .ok s') : s'.read path = .ok content := by
  obtain ⟨l, ht, h⟩ := bind_eq_ok.1 h
  cases h
  rw [read, locate_put (node?_target ht) (locate_target ht), ok_bind,
    node?_put_self (target_ne_nil ht)]

end Store

/-! ## 4. Paths without `..` -/

namespace Path

/-- The names of a path are the texts between its slashes, without those that carry no meaning. -/
theorem key_names (path : String) :
    (key path).2 = (path.toList.splitOn '/').filter fun part => !isFiller part := by
  have hparts : (parts path).2.filter (fun part => !isFiller part) =
      (path.toList.splitOn '/').filter fun part => !isFiller part := by
    unfold parts
    split
    next body h =>
      rw [h, ← List.nil_append ('/' :: body), List.splitOn_append_cons_self, List.filter_append]
      rfl
    next h =>
      rw [h]
      rfl
    next body h =>
      have happend : '.' :: '/' :: body = ['.'] ++ '/' :: body := rfl
      rw [h, happend, List.splitOn_append_cons_self, List.filter_append]
      rfl
    next => rfl
  exact hparts

/-- What stands at the front of a path tells where the path starts. -/
theorem isAbsolute_eq (path : String) : isAbsolute path = ((key path).1 == ['/']) := by
  have hparts : isAbsolute path = ((parts path).1 == ['/']) := by
    unfold isAbsolute parts
    split
    next body h => rw [h]; rfl
    next h => rw [h]; rfl
    next body h => rw [h]; rfl
    next hslash _ _ =>
      cases hpath : path.toList with
      | nil => rfl
      | cons c body =>
        have hc : c ≠ '/' := fun e => hslash body (e ▸ hpath)
        simp [hc]
  exact hparts

end Path

namespace Store

variable {s : Store} {here there l : Location} {path : String}

/-- The steps of a path are its names, apart from `.`. -/
theorem filter_stepsOf (path : String) :
    (stepsOf path).1.filter (· ≠ ".") = (Path.key path).2.map String.ofList := by
  have hfiller : ∀ part : List Char, (decide (String.ofList part ≠ ".") && decide (part ≠ [])) =
      !Path.isFiller part := by
    intro part
    have hdot : String.ofList part = "." ↔ part = ['.'] := by
      rw [← String.toList_inj, String.toList_ofList]
      rfl
    by_cases h : part = [] <;> by_cases h' : part = ['.'] <;> simp [Path.isFiller, hdot, h, h']
  rw [Path.key_names, stepsOf, List.filter_map, List.filter_filter]
  congr 2
  funext part
  exact hfiller part

theorem dots_notMem_stepsOf (hdots : ['.', '.'] ∉ (Path.key path).2) :
    ".." ∉ (stepsOf path).1 := by
  intro h
  have hname : ".." ∈ (stepsOf path).1.filter (· ≠ ".") :=
    List.mem_filter.mpr ⟨h, by decide⟩
  rw [filter_stepsOf, List.mem_map] at hname
  obtain ⟨part, hpart, he⟩ := hname
  rw [← String.toList_inj, String.toList_ofList] at he
  have he : part = ['.', '.'] := he
  exact hdots (he ▸ hpart)

/-- **Steps without `..` lead down** by the names among them. -/
theorem walk_down {steps : List String} (hdots : ".." ∉ steps)
    (h : s.walk here steps = .ok there) : there = here ++ steps.filter (· ≠ ".") := by
  induction steps generalizing here with
  | nil =>
    cases h
    rw [List.filter_nil, List.append_nil]
  | cons name steps ih =>
    obtain ⟨next, hstep, hwalk⟩ := bind_eq_ok.1 h
    obtain ⟨hname, hsteps⟩ := not_or.mp (List.mem_cons.not.mp hdots)
    rw [step_eq_ok (Ne.symm hname) hstep] at hwalk
    rw [ih hsteps hwalk, List.append_assoc, ← List.filter_append, List.singleton_append]

/-- The names of a path, from the root. -/
def placeOf (s : Store) (path : String) : Location :=
  s.startOf path ++ (Path.key path).2.map String.ofList

/-- **A path without `..` leads to its names**, if anywhere. -/
theorem location_of_locate (hdots : ['.', '.'] ∉ (Path.key path).2)
    (h : s.locate path = .ok l) : l = s.placeOf path := by
  obtain ⟨⟨⟩, -, h⟩ := bind_eq_ok.1 h
  have hsteps := dots_notMem_stepsOf hdots
  rw [placeOf, ← filter_stepsOf]
  dsimp only at h
  split at h
  · rw [walk_down (by simp [hsteps]) h, List.filter_append]
    exact congrArg _ (List.append_nil _)
  · exact walk_down hsteps h

/-- Paths that begin alike start from the same place. -/
theorem startOf_congr {path' : String} (h : (Path.key path).1 = (Path.key path').1) :
    s.startOf path = s.startOf path' := by
  rw [startOf, startOf, Path.isAbsolute_eq, Path.isAbsolute_eq, h]

end Store

end BlockDoc
