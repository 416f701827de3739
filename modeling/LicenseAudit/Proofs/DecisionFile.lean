import LicenseAudit.Proofs.FileSystem
import LicenseAudit.Proofs.Yaml.Entries

/-!
# Decisions kept in a file

What is written to a file of decisions is read back as the same decisions, whatever the names are.
The text is a mapping, which is never blank, even if it has no entries.

Results:
1. `ofPairs_entries`: decisions are what their entries say, recorded one after another.
2. `ofFile?_toFile`: the text of decisions is read as these decisions.
3. `readDecisions_saveDecisions`: decisions that are saved are found again.
-/

namespace LicenseAudit

namespace Decisions

/-! ## Entries in order -/

theorem recordIn_of_forall_lt {name : String} {es : List (String × Bool)}
    (h : ∀ e ∈ es, e.1 < name) (allowed : Bool) :
    recordIn name allowed es = es ++ [(name, allowed)] := by
  induction es with
  | nil => rfl
  | cons e es ih =>
    obtain ⟨he, hes⟩ := List.forall_mem_cons.1 h
    rw [recordIn, if_neg (String.lt_asymm he), if_neg (String.ne_of_lt he), ih hes,
      List.cons_append]

/-- Pairs that come after all entries are added behind them. -/
theorem entries_recordAll_of_sorted {d : Decisions} {ps : List (String × Bool)}
    (h : (d.entries ++ ps).Pairwise fun a b => a.1 < b.1) :
    (d.recordAll ps).entries = d.entries ++ ps := by
  induction ps generalizing d with
  | nil => exact (List.append_nil _).symm
  | cons p ps ih =>
    have hlast : ∀ e ∈ d.entries, e.1 < p.1 := fun e he =>
      (List.pairwise_append.1 h).2.2 e he p List.mem_cons_self
    have hentries : (d.record p.1 p.2).entries = d.entries ++ [p] :=
      recordIn_of_forall_lt hlast p.2
    rw [List.append_cons, ← hentries] at h
    rw [recordAll, List.foldl_cons, ← recordAll, ih h, hentries, List.append_assoc,
      List.singleton_append]

theorem ofPairs_entries (d : Decisions) : ofPairs d.entries = d := by
  obtain ⟨es, hes⟩ := d
  have hentries : (ofPairs es).entries = es := entries_recordAll_of_sorted hes
  cases hd : ofPairs es with
  | mk entries sorted =>
    rw [hd] at hentries
    subst hentries
    rfl

/-! ## Texts -/

theorem ofEntry?_entryScalars (e : String × Bool) : ofEntry? (Yaml.entryScalars e) = some e := by
  simp [Yaml.entryScalars, ofEntry?, Yaml.Scalar.boolean?, Yaml.boolean?_booleanText]

/-- The text of decisions is a mapping that reads as these decisions. -/
theorem ofYaml?_toFile (d : Decisions) : ofYaml? d.toFile.toList = some d := by
  have hentries : (d.entries.map Yaml.entryScalars).mapM ofEntry? = some d.entries := by
    rw [List.mapM_map, show ofEntry? ∘ Yaml.entryScalars = fun e => pure e from
      funext ofEntry?_entryScalars, List.mapM_pure, List.map_id']
    rfl
  rw [ofYaml?, toFile, String.toList_ofList, Yaml.readStream_mappingText]
  simp only [Option.bind_eq_bind, Option.bind_some, Yaml.scalars?_entryNodes, hentries,
    ofPairs_entries]
  rfl

/-- A mapping is never blank: it has a colon or braces. -/
theorem blank_toFile (d : Decisions) : Text.blank d.toFile = false := by
  rw [Text.blank, Text.allBlank, toFile, String.toList_ofList, List.all_eq_false]
  cases d.entries with
  | nil => exact ⟨'{', List.mem_cons_self, by decide⟩
  | cons e es =>
    exact ⟨':', List.mem_append_left _ (Yaml.colon_mem_entryText _ _), by decide⟩

theorem ofFile?_toFile (d : Decisions) : ofFile? d.toFile = some d := by
  rw [ofFile?, if_neg (Bool.eq_false_iff.1 d.blank_toFile), ofYaml?_toFile]

end Decisions

namespace Workspace

variable {w w' : Workspace} {path : String} {d : Decisions}

theorem saveDecisions_eq_ok_iff : w.saveDecisions path d = .ok w' ↔
    ∃ files, w.files.write path d.toFile = .ok files ∧ w' = { w with files } := by
  rw [saveDecisions]
  cases w.files.write path d.toFile <;> simp [eq_comm]

/-- Decisions are found where they were saved. -/
theorem decisionsAt_of_save (h : w.saveDecisions path d = .ok w') : w'.DecisionsAt path d := by
  obtain ⟨files, hfiles, rfl⟩ := saveDecisions_eq_ok_iff.1 h
  exact .mapping (FileSystem.read_write hfiles) d.blank_toFile d.ofYaml?_toFile

/-- If the file can be written, saving succeeds for any decisions, and reading the file gives the
same decisions back. The text is read as a mapping; it does not pass for a blank file. -/
theorem readDecisions_saveDecisions (hw : w.files.CanWrite path) (d : Decisions) :
    ∃ w', w.saveDecisions path d = .ok w' ∧ w'.files.read path = .ok d.toFile ∧
      Text.blank d.toFile = false ∧ Decisions.ofYaml? d.toFile.toList = some d ∧
      w'.readDecisions path = .ok d ∧ w'.loadDecisions path = .ok d := by
  obtain ⟨files, hfiles⟩ := hw d.toFile
  have hsave := saveDecisions_eq_ok_iff.2 ⟨files, hfiles, rfl⟩
  have hread := FileSystem.read_write hfiles
  refine ⟨_, hsave, hread, d.blank_toFile, d.ofYaml?_toFile, ?_,
    loadDecisions_eq_ok_iff.2 (decisionsAt_of_save hsave)⟩
  rw [readDecisions]
  simp only [hread, Decisions.ofFile?_toFile]

/-- Names that look like something else, or need quotes, escapes or a block. -/
theorem readDecisions_saveDecisions_odd :
    let w : Workspace := ⟨⟨[], [], ["p"]⟩, .text "", "/p", false⟩
    let d : Decisions := .ofPairs [("", true), ("true", false), ("0x1F", true), ("~", false),
      ("a: b #c", true), (" 'MIT' ", false), ("x\ny\n", true), ("\x00\t\u2028", false)]
    w.files.CanWrite ".licenses.yaml" ∧
      (∃ w', w.saveDecisions ".licenses.yaml" d = .ok w' ∧
        w'.readDecisions ".licenses.yaml" = .ok d) ∧
      d.toFile =
        "'': true\n? \"\\0\\t\\L\"\n: false\n' ''MIT'' ': false\n'0x1F': true\n" ++
          "'a: b #c': true\n'true': false\n? |\n  x\n  y\n: true\n'~': false\n" := by
  intro w d
  have hw : w.files.CanWrite ".licenses.yaml" := fun _ => ⟨_, rfl⟩
  obtain ⟨w', hsave, -, -, -, hread, -⟩ := readDecisions_saveDecisions hw d
  exact ⟨hw, ⟨w', hsave, hread⟩, by decide⟩

end Workspace

end LicenseAudit
