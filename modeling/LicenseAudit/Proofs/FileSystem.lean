import LicenseAudit.Proofs.Workspace
import Mathlib.Tactic.SplitIfs

/-!
# What a write does to the files

A write changes the file at one location and adds no other. The directories on the way to it are
there before and after: none of them is the file that is written. So the same path leads to the same
file again, where the text is found that was written last.

Results:
1. `write_eq_ok_iff`: when a file can be written, and what is written.
2. `walk_set`: a new file does not stand in the way of a walk.
3. `read_write`, `canWrite_of_write`: the file can be read back, and written again.
4. `target_of_get?_ne`: all other files stay as they are.
-/

namespace LicenseAudit.FileSystem

variable {fs fs' : FileSystem} {path text : String} {loc other : Location}

/-! ## One write -/

/-- A file is written where its path leads to, if no directory is there. -/
theorem write_eq_ok_iff :
    fs.write path text = .ok fs' ↔
      ∃ loc, fs.target path = .ok loc ∧ (fs.get? loc = none → fs.hasDirectory loc = false) ∧
        fs' = fs.set loc (.text text) := by
  rw [write]
  cases fs.target path with
  | error fault => simp
  | ok loc =>
    simp only
    split
    · next h =>
      rw [Bool.and_eq_true, Option.isNone_iff_eq_none] at h
      refine ⟨fun heq => (nomatch heq), ?_⟩
      rintro ⟨_, hloc, hfile, -⟩
      obtain rfl := Except.ok.inj hloc
      rw [hfile h.1] at h
      cases h.2
    · next h =>
      rw [Bool.and_eq_true, Option.isNone_iff_eq_none, not_and, Bool.not_eq_true] at h
      constructor
      · intro heq
        exact ⟨loc, rfl, h, (Except.ok.inj heq).symm⟩
      · rintro ⟨_, hloc, -, rfl⟩
        obtain rfl := Except.ok.inj hloc
        rfl

/-! ## Paths after a write -/

theorem map_fst_subset_setIn (loc : Location) (content : Content) (es : List (Location × Content)) :
    es.map Prod.fst ⊆ (setIn loc content es).map Prod.fst := by
  induction es with
  | nil => exact List.nil_subset _
  | cons e es ih =>
    obtain ⟨l, c⟩ := e
    rw [setIn]
    split
    · exact List.Subset.refl _
    · exact List.cons_subset_cons _ ih

/-- A directory stays where it is. -/
theorem hasDirectory_set (h : fs.hasDirectory other = true) (content : Content) :
    (fs.set loc content).hasDirectory other = true := by
  rw [hasDirectory, Bool.or_eq_true] at h ⊢
  refine h.imp_right fun hfile => ?_
  obtain ⟨f, hf, hbelow⟩ := List.any_eq_true.1 hfile
  obtain ⟨g, hg, hsame⟩ :=
    List.mem_map.1 (map_fst_subset_setIn loc content fs.files (List.mem_map_of_mem hf))
  exact List.any_eq_true.2 ⟨g, hg, by rwa [hsame]⟩

/-- Where a part of a path leads to from a directory. -/
def enter (loc : Location) (part : String) : Except FileFault Location :=
  if isStay part then .ok loc
  else if part = ".." then .ok loc.dropLast
  else if 255 < part.utf8ByteSize then .error .nameTooLong
  else .ok (loc ++ [part])

theorem walk_cons (fs : FileSystem) (start : Location) (part : String) (rest : List String) :
    fs.walk start (part :: rest) =
      if (fs.get? start).isSome then .error .notDirectory
      else if !fs.hasDirectory start then .error .notFound
      else (enter start part).bind fun next => fs.walk next rest := by
  rw [walk, enter]
  split_ifs <;> rfl

/-- A walk comes through directories only. Where none is, a new file does not stand in its way. -/
theorem walk_set (hfile : fs.get? loc = none → fs.hasDirectory loc = false) (content : Content)
    {start : Location} {parts : List String} (h : fs.walk start parts = .ok other) :
    (fs.set loc content).walk start parts = .ok other := by
  induction parts generalizing start with
  | nil => exact h
  | cons part rest ih =>
    rw [walk_cons] at h ⊢
    split at h
    · cases h
    · next hnone =>
      rw [Option.not_isSome_iff_eq_none] at hnone
      split at h
      · cases h
      · next hdirectory =>
        rw [Bool.not_eq_true', Bool.not_eq_false] at hdirectory
        have hne : start ≠ loc := by
          rintro rfl
          rw [hfile hnone] at hdirectory
          cases hdirectory
        rw [get?_set_of_ne _ hne, hnone, hasDirectory_set hdirectory]
        cases hnext : enter start part with
        | error fault =>
          rw [hnext] at h
          cases h
        | ok next =>
          rw [hnext] at h
          exact ih h

/-- A path without a slash at its end loses no part. -/
theorem targetParts_of_no_slash (h : (parts path).getLast? ≠ some "") :
    targetParts path = (parts path, false) := by
  rw [← List.head?_reverse] at h
  simp only [targetParts, h, decide_false, Prod.mk.injEq, and_true]
  cases hparts : (parts path).reverse with
  | nil => exact (List.reverse_eq_nil_iff.1 hparts).symm
  | cons last rest =>
    rw [hparts, List.head?_cons, ne_eq, Option.some.injEq] at h
    rw [List.dropWhile_cons_of_neg (by simpa using h), ← hparts, List.reverse_reverse]

/-- A path leads to a file to be written if it does not end in a slash. -/
theorem target_eq_ok_iff : fs.target path = .ok loc ↔
    pathFault? path = none ∧ (parts path).getLast? ≠ some "" ∧
      fs.walk (fs.origin path) (parts path) = .ok loc := by
  rw [target]
  cases pathFault? path with
  | some fault => simp
  | none =>
    by_cases hslash : (parts path).getLast? = some ""
    · have hparts : targetParts path = ((targetParts path).1, true) := by
        simp [targetParts, hslash]
      rw [hparts]
      simp only
      split <;> simp [hslash]
    · rw [targetParts_of_no_slash hslash]
      simp [hslash]

/-- What is wrong on the way to a path with a slash at its end comes before what is wrong with the
slash. -/
example :
    let fs : FileSystem := ⟨[(["p", "f"], .text "")], [], ["p"]⟩
    fs.target "f/a/" = .error .notDirectory ∧ fs.target "d/a/" = .error .notFound ∧
      fs.target "f/" = .error .isDirectory :=
  ⟨rfl, rfl, rfl⟩

/-- A path to be written leads to the same place as for reading. -/
theorem resolve_of_target (h : fs.target path = .ok loc) : fs.resolve path = .ok loc := by
  obtain ⟨hfault, -, hwalk⟩ := target_eq_ok_iff.1 h
  rw [resolve, hfault]
  exact hwalk

/-- What leads to a file that can be written leads there after the write. -/
theorem target_set (hfile : fs.get? loc = none → fs.hasDirectory loc = false) (content : Content)
    (h : fs.target path = .ok loc) : (fs.set loc content).target path = .ok loc := by
  obtain ⟨hfault, hslash, hwalk⟩ := target_eq_ok_iff.1 h
  exact target_eq_ok_iff.2 ⟨hfault, hslash, walk_set hfile content hwalk⟩

/-! ## Reading after a write -/

theorem read_write (h : fs.write path text = .ok fs') : fs'.read path = .ok text := by
  obtain ⟨loc, htarget, hfile, rfl⟩ := write_eq_ok_iff.1 h
  rw [read, resolve_of_target (target_set hfile _ htarget)]
  simp only [get?_set_self]
  rfl

/-- A file that was written can be written again. -/
theorem canWrite_of_write (h : fs.write path text = .ok fs') : fs'.CanWrite path := by
  obtain ⟨loc, htarget, hfile, rfl⟩ := write_eq_ok_iff.1 h
  intro other
  refine ⟨_, write_eq_ok_iff.2 ⟨loc, target_set hfile _ htarget, fun hnone => ?_, rfl⟩⟩
  rw [get?_set_self] at hnone
  cases hnone

/-- A write changes no file but the one that the path leads to. -/
theorem target_of_get?_ne (h : fs.write path text = .ok fs') (hne : fs'.get? loc ≠ fs.get? loc) :
    fs.target path = .ok loc := by
  obtain ⟨target, htarget, -, rfl⟩ := write_eq_ok_iff.1 h
  by_cases heq : loc = target
  · rw [heq, htarget]
  · exact absurd (get?_set_of_ne fs heq _) hne

end LicenseAudit.FileSystem
