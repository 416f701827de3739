import LicenseAudit.Proofs.Json.RoundTrip
import LicenseAudit.Proofs.Ordered

/-!
# Reports kept as JSON

Both texts of a report are read back. The compact one has the groups in the order of the report, so
that the report itself comes back. The pretty one has them sorted: what comes back is the sorted
report, and the text tells apart those reports that are not the same once sorted.

Results:
1. `groups?_groupsJson`: groups are read back as they were written.
2. `ofReading?_toJson`, `ofReading?_sortedJson`: what the objects of a report are read as.
3. `prettyJson_eq_iff`: the pretty text is canonical.
4. `json_lossless`: neither text loses anything that it stands for.
-/

namespace LicenseAudit

namespace Report

/-! ## Definitions -/

/-- All classes are the same, in whatever order their licenses are. The dependencies of a license
are the same in the same order. -/
def Same (r₁ r₂ : Report) : Prop :=
  r₁.allowed.Same r₂.allowed ∧ r₁.disallowed.Same r₂.disallowed ∧ r₁.unknown.Same r₂.unknown

instance (r₁ r₂ : Report) : Decidable (r₁.Same r₂) := inferInstanceAs (Decidable (_ ∧ _))

/-- The report with the licenses of each class sorted. -/
def sorted (r : Report) : Report := ⟨r.allowed.sorted, r.disallowed.sorted, r.unknown.sorted⟩

/-! ## Sorted reports -/

theorem sorted_eq_iff {r₁ r₂ : Report} : r₁.sorted = r₂.sorted ↔ r₁.Same r₂ := by
  rw [sorted, sorted, mk.injEq, Ordered.sorted_eq_iff, Ordered.sorted_eq_iff,
    Ordered.sorted_eq_iff, Same]

theorem sorted_same (r : Report) : r.sorted.Same r :=
  ⟨r.allowed.sorted_same, r.disallowed.sorted_same, r.unknown.sorted_same⟩

theorem count_sorted (g : Groups) : Groups.count g.sorted = g.count := by
  rw [Groups.count_eq_length, Groups.count_eq_length]
  exact (g.perm_sortedPairs.map Prod.snd).flatten.length_eq

/-- The summary does not see in which order licenses are. -/
theorem summary_sorted (r : Report) : r.sorted.summary = r.summary := by
  rw [summary, summary, sorted, count_sorted, count_sorted, count_sorted]

/-! ## Reading back -/

theorem texts?_reading (ds : List String) :
    texts? (Json.reading (.arr (ds.map .str))) = some ds := by
  have htext : text? ∘ Json.reading ∘ Json.str = fun d => pure d := by
    funext d
    rw [Function.comp_apply, Function.comp_apply, Json.reading]
    rfl
  rw [Json.reading, Json.readings_eq_map, texts?, List.map_map, List.mapM_map, htext,
    List.mapM_pure, List.map_id']
  rfl

/-- The groups of a report are read back, in the order in which they were written. -/
theorem groups?_groupsJson (g : Groups) : groups? (Json.reading (groupsJson g.pairs)) = some g := by
  have hmember : (member? ∘ fun m : String × Json => (some m.1, Json.reading m.2)) ∘
      (fun p : String × List String => (p.1, Json.arr (p.2.map .str))) = fun p => pure p := by
    funext p
    simp [member?, texts?_reading]
  rw [groupsJson, Json.reading, Json.memberReadings_eq_map, groups?]
  rw [List.mapM_map, List.mapM_map, hmember, List.mapM_pure, List.map_id']
  exact congrArg some g.ofList_pairs

theorem ofReading?_toJson (r : Report) : ofReading? (Json.reading r.toJson) = some r := by
  rw [toJson, Json.reading, Json.memberReadings_eq_map]
  simp [ofReading?, field?, groups?_groupsJson]

/-- The sorted report is read from the object that has its summary too. -/
theorem ofReading?_sortedJson (r : Report) :
    ofReading? (Json.reading r.sortedJson) = some r.sorted := by
  have hgroups : ∀ g : Groups, groups? (Json.reading (groupsJson g.sortedPairs)) = some g.sorted :=
    fun g => groups?_groupsJson g.sorted
  rw [sortedJson, Json.reading, Json.memberReadings_eq_map]
  simp [ofReading?, field?, hgroups, sorted]

theorem ofJson?_compactJson (r : Report) : ofJson? r.compactJson = some r := by
  rw [ofJson?, compactJson, String.toList_ofList, Json.read?_compact, Option.bind_some,
    ofReading?_toJson]

theorem ofJson?_prettyJson (r : Report) : ofJson? r.prettyJson = some r.sorted := by
  rw [ofJson?, prettyJson, String.toList_ofList, Json.read?_pretty, Option.bind_some,
    ofReading?_sortedJson]

/-! ## Both texts -/

theorem sortedJson_sorted (r : Report) :
    r.sortedJson = .obj [("allowed", groupsJson r.sorted.allowed.pairs),
      ("disallowed", groupsJson r.sorted.disallowed.pairs),
      ("summary", summaryJson r.sorted.summary),
      ("unknown", groupsJson r.sorted.unknown.pairs)] := by
  rw [summary_sorted]
  rfl

/-- The pretty text is written from the sorted report, and the sorted report is read from it. -/
theorem prettyJson_eq_iff (r₁ r₂ : Report) : r₁.prettyJson = r₂.prettyJson ↔ r₁.Same r₂ := by
  rw [← sorted_eq_iff]
  constructor
  · intro h
    have hread := ofJson?_prettyJson r₁
    rw [h, ofJson?_prettyJson] at hread
    exact (Option.some.inj hread).symm
  · intro h
    rw [prettyJson, prettyJson, sortedJson_sorted, sortedJson_sorted, h]

/-- Two reports have the same pretty text if they are the same up to the order of licenses, and only
then. Such a report is read from the pretty text, whose summary is skipped, and the report itself is
read from the compact one. -/
theorem json_lossless (r₁ r₂ : Report) :
    (r₁.prettyJson = r₂.prettyJson ↔ r₁.Same r₂) ∧
      (∃ r, ofJson? r₁.prettyJson = some r ∧ r.Same r₁) ∧
      ofJson? r₁.compactJson = some r₁ :=
  ⟨prettyJson_eq_iff r₁ r₂, ⟨r₁.sorted, ofJson?_prettyJson r₁, r₁.sorted_same⟩,
    ofJson?_compactJson r₁⟩

/-- Licenses in another order make no difference, but dependencies in another order do. -/
example :
    let r := (empty.recordAllowed "MIT" "a").recordAllowed "MIT" "b"
    let r' := (empty.recordAllowed "MIT" "b").recordAllowed "MIT" "a"
    (r.recordAllowed "ISC" "c").Same ((empty.recordAllowed "ISC" "c").recordAllowed "MIT" "a"
      |>.recordAllowed "MIT" "b") ∧ ¬ r.Same r' := by
  decide

end Report

end LicenseAudit
