import LicenseAudit.Proofs.Listing
import LicenseAudit.Proofs.Ordered
import LicenseAudit.Proofs.Text.Lines

/-!
# A listing line by line

Every line of a text is blank, has an entry, or is faulty. A listing is read as far as the first
faulty line, which is reported by its number; blank lines are counted too. Without such a line the
entries are inserted in order, so a dependency keeps the place of its first line and has the license
of its last one.

Results:
1. `line_cases`: what a line can be.
2. `readFrom_of_entries`, `readFrom_of_fault`: lines with entries are read, and reading ends at a
   fault.
3. `entries_or_fault`: the lines have entries only, or there is a first fault.
4. `parse_records`: what a listing is read as, or refused for, said by its lines.
-/

namespace LicenseAudit.Listing

/-! ## Definitions -/

/-- Something is on the line, but no comma. -/
def LacksComma (line : List Char) : Prop := Text.trim line ≠ [] ∧ ',' ∉ Text.trim line

/-- The line has a comma, with nothing but white space before the first one. -/
def LacksDependency (line : List Char) : Prop :=
  ∃ before after, Text.trim line = before ++ ',' :: after ∧ ',' ∉ before ∧
    Text.allBlank before = true

/-- The line is neither blank nor an entry. -/
def Faulty (line : List Char) : Prop := LacksComma line ∨ LacksDependency line

/-- The fault of a line with this number, and what it says. -/
inductive FaultOn (number : Nat) (line : List Char) (fault : Fault) : Prop
  | lacksComma : LacksComma line →
      fault = .noComma number (String.ofList (Text.trim line)) →
      fault.message = "Line " ++ Nat.repr number ++ ": expected 'dependency,license', got '" ++
        String.ofList (Text.trim line) ++ "'" →
      FaultOn number line fault
  | lacksDependency : LacksDependency line →
      fault = .noDependency number →
      fault.message = "Line " ++ Nat.repr number ++ ": missing dependency name" →
      FaultOn number line fault

/-- The fault of the first faulty line, by its number among all lines, counted from 1. -/
def FirstFault (lines : List (List Char)) (fault : Fault) : Prop :=
  ∃ before line after, lines = before ++ line :: after ∧ (∀ earlier ∈ before, ¬ Faulty earlier) ∧
    FaultOn (before.length + 1) line fault

/-- No line is faulty, and these are the entries of those that are not blank, in order. -/
inductive Entries : List (List Char) → List (String × String) → Prop
  | nil : Entries [] []
  | blank {line : List Char} {rest : List (List Char)} {entries : List (String × String)} :
      Text.trim line = [] → Entries rest entries → Entries (line :: rest) entries
  | entry {line : List Char} {dependency license : String} {rest : List (List Char)}
      {entries : List (String × String)} : Records line dependency license → Entries rest entries →
      Entries (line :: rest) ((dependency, license) :: entries)

/-! ## One line -/

theorem Records.trim_ne {line : List Char} {dependency license : String}
    (h : Records line dependency license) : Text.trim line ≠ [] := fun hnil =>
  not_records_of_blank hnil dependency license h

theorem LacksDependency.trim_ne {line : List Char} (h : LacksDependency line) :
    Text.trim line ≠ [] := by
  obtain ⟨before, after, hsplit, -⟩ := h
  rw [hsplit]
  exact List.append_ne_nil_of_right_ne_nil _ (List.cons_ne_nil _ _)

/-- A faulty line has its fault. -/
theorem Faulty.exists_faultOn {line : List Char} (h : Faulty line) (number : Nat) :
    ∃ fault, FaultOn number line fault :=
  match h with
  | .inl h => ⟨_, .lacksComma h rfl rfl⟩
  | .inr h => ⟨_, .lacksDependency h rfl rfl⟩

theorem FaultOn.trim_ne {number : Nat} {line : List Char} {fault : Fault}
    (h : FaultOn number line fault) : Text.trim line ≠ [] :=
  match h with
  | .lacksComma h _ _ => h.1
  | .lacksDependency h _ _ => h.trim_ne

theorem FaultOn.readEntry_eq {number : Nat} {line : List Char} {fault : Fault}
    (h : FaultOn number line fault) : readEntry number (Text.trim line) = .error fault := by
  cases h with
  | lacksComma h hfault _ => rw [hfault, readEntry_of_notMem h.2]
  | lacksDependency h hfault _ =>
    obtain ⟨before, after, hsplit, hcomma, hblank⟩ := h
    rw [hfault, hsplit, readEntry_append hcomma, if_pos (Text.trim_eq_nil_iff.2 hblank)]

/-- Every line is blank, has an entry, or is faulty. -/
theorem line_cases (line : List Char) :
    Text.trim line = [] ∨ (∃ dependency license, Records line dependency license) ∨
      Faulty line := by
  by_cases hnil : Text.trim line = []
  · exact .inl hnil
  · by_cases hcomma : ',' ∈ Text.trim line
    · obtain ⟨before, after, hsplit, hbefore⟩ := List.eq_append_cons_of_mem hcomma
      by_cases hblank : Text.allBlank before = true
      · exact .inr (.inr (.inr ⟨before, after, hsplit, hbefore, hblank⟩))
      · have hne : Text.trim before ≠ [] := mt Text.trim_eq_nil_iff.1 hblank
        exact .inr (.inl ⟨_, _, before, after, hsplit, hbefore, hne, rfl, rfl⟩)
    · exact .inr (.inr (.inl ⟨hnil, hcomma⟩))

theorem not_faulty_of_blank {line : List Char} (h : Text.trim line = []) : ¬ Faulty line := fun hf =>
  have ⟨_, hfault⟩ := hf.exists_faultOn 1
  hfault.trim_ne h

theorem Records.not_faulty {line : List Char} {dependency license : String}
    (h : Records line dependency license) : ¬ Faulty line := by
  intro hf
  obtain ⟨fault, hfault⟩ := hf.exists_faultOn 1
  have hread := hfault.readEntry_eq
  rw [(readEntry_trim_iff 1).2 h] at hread
  cases hread

/-! ## All lines -/

/-- A line that is not blank is read as an entry. -/
theorem readFrom_cons {line : List Char} (h : Text.trim line ≠ []) (number : Nat) (m : Listing)
    (rest : List (List Char)) :
    readFrom number m (line :: rest) =
      match readEntry number (Text.trim line) with
      | .error fault => .error fault
      | .ok (dependency, license) => readFrom (number + 1) (m.insert dependency license) rest := by
  rw [readFrom]
  split
  · next hnil => exact absurd hnil h
  · rfl

theorem readFrom_of_entries {lines : List (List Char)} {entries : List (String × String)}
    (h : Entries lines entries) (number : Nat) (m : Listing) (rest : List (List Char)) :
    readFrom number m (lines ++ rest) =
      readFrom (number + lines.length) (m.insertAll entries) rest := by
  induction h generalizing number m with
  | nil => rfl
  | @blank line lines _ hblank _ ih =>
    rw [List.cons_append, readFrom_blank hblank, ih, List.length_cons, Nat.add_assoc, Nat.add_comm 1]
  | @entry line dependency license lines _ hline _ ih =>
    rw [List.cons_append, readFrom_cons hline.trim_ne, (readEntry_trim_iff number).2 hline]
    simp only [ih, List.length_cons]
    rw [Nat.add_assoc, Nat.add_comm 1]
    rfl

theorem readFrom_of_fault {number : Nat} {line : List Char} {fault : Fault}
    (h : FaultOn number line fault) (m : Listing) (rest : List (List Char)) :
    readFrom number m (line :: rest) = .error fault := by
  rw [readFrom_cons h.trim_ne, h.readEntry_eq]

theorem Entries.not_faulty {lines : List (List Char)} {entries : List (String × String)}
    (h : Entries lines entries) {line : List Char} (hline : line ∈ lines) : ¬ Faulty line := by
  induction h with
  | nil => cases hline
  | blank hblank _ ih =>
    rcases List.mem_cons.1 hline with rfl | hline
    · exact not_faulty_of_blank hblank
    · exact ih hline
  | entry hrecords _ ih =>
    rcases List.mem_cons.1 hline with rfl | hline
    · exact hrecords.not_faulty
    · exact ih hline

/-- The lines have entries only, or there is a first fault. -/
theorem entries_or_fault (lines : List (List Char)) :
    (∃ entries, Entries lines entries) ∨
      ∃ before line after entries, lines = before ++ line :: after ∧ Entries before entries ∧
        Faulty line := by
  induction lines with
  | nil => exact .inl ⟨[], .nil⟩
  | cons line rest ih =>
    obtain hblank | ⟨dependency, license, hline⟩ | hfault := line_cases line
    · obtain ⟨entries, h⟩ | ⟨before, bad, after, entries, rfl, h, hbad⟩ := ih
      · exact .inl ⟨entries, .blank hblank h⟩
      · exact .inr ⟨line :: before, bad, after, entries, rfl, .blank hblank h, hbad⟩
    · obtain ⟨entries, h⟩ | ⟨before, bad, after, entries, rfl, h, hbad⟩ := ih
      · exact .inl ⟨_, .entry hline h⟩
      · exact .inr ⟨line :: before, bad, after, _, rfl, .entry hline h, hbad⟩
    · exact .inr ⟨[], line, rest, [], rfl, .nil, hfault⟩

/-! ## Listings -/

theorem parse_of_entries {content : String} {entries : List (String × String)}
    (h : Entries (Text.lines content.toList) entries) :
    parse content = .ok (Ordered.ofList entries) := by
  have := readFrom_of_entries h 1 Ordered.empty []
  rwa [List.append_nil] at this

theorem parse_of_fault {content : String} {before after : List (List Char)} {line : List Char}
    {entries : List (String × String)} {fault : Fault}
    (hlines : Text.lines content.toList = before ++ line :: after) (h : Entries before entries)
    (hfault : FaultOn (before.length + 1) line fault) : parse content = .error fault := by
  rw [Nat.add_comm] at hfault
  rw [parse, hlines, readFrom_of_entries h]
  exact readFrom_of_fault hfault _ _

/-- A listing with a faulty line is refused for the first one. Otherwise every dependency has the
license of its last line, and the dependencies stand in the order of their first lines. -/
theorem parse_records (content : String) :
    ∃ lines, Text.Broken content.toList lines ∧
      ((∃ line ∈ lines, Faulty line) →
        ∃ fault, parse content = .error fault ∧ FirstFault lines fault) ∧
      ((∀ line ∈ lines, ¬ Faulty line) →
        ∃ listing entries, parse content = .ok listing ∧ Entries lines entries ∧
          listing.keys = (entries.map Prod.fst).eraseDups ∧
          ∀ dependency license, listing.find? dependency = some license ↔
            Last lines dependency license) := by
  refine ⟨Text.lines content.toList, Text.broken_lines _, ?_, fun hnone => ?_⟩
  · rintro ⟨bad, hbad, hfaulty⟩
    obtain ⟨entries, h⟩ | ⟨before, line, after, entries, hlines, h, hline⟩ :=
      entries_or_fault (Text.lines content.toList)
    · exact absurd hfaulty (h.not_faulty hbad)
    · obtain ⟨fault, hfault⟩ := hline.exists_faultOn (before.length + 1)
      exact ⟨fault, parse_of_fault hlines h hfault, before, line, after, hlines,
        fun _ hearlier => h.not_faulty hearlier, hfault⟩
  · obtain ⟨entries, h⟩ | ⟨before, line, after, entries, hlines, -, hline⟩ :=
      entries_or_fault (Text.lines content.toList)
    · have hparse := parse_of_entries h
      exact ⟨_, entries, hparse, h, Ordered.keys_ofList entries, find?_parse hparse⟩
    · exact absurd hline (hnone line (by rw [hlines]; simp))

example : parse "a,MIT\r\n\n , GPL\nb\n" = .error (.noDependency 3) := rfl

example : parse "a,MIT\nb,\n\n a , X, Y" = .ok ⟨[("a", "X, Y"), ("b", "")], by decide⟩ := rfl

end LicenseAudit.Listing
