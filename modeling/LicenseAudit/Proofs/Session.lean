import LicenseAudit.Proofs.DecisionFile
import LicenseAudit.Proofs.Recording
import LicenseAudit.Run

/-!
# Decisions recorded by many runs

Runs that record decisions come one after another. Each of them reads the file that the one before
left, adds its decisions, and writes the whole file again. Nothing is lost or invented on the way:
it is as if all decisions had been recorded at once, and the text of the file does not tell how they
came there.

Results:
1. `find?_recordAll`: the last decision on a name holds.
2. `decide_saves`: one run records its decisions.
3. `Session.saves`: so do many runs.
4. `session_refines`: what many runs leave, name by name and as a text.
-/

namespace LicenseAudit

namespace Decisions

/-- The last decision on a name in a list of pairs. -/
def lastIn (ps : List (String × Bool)) (name : String) : Option Bool :=
  ((ps.filter fun p => p.1 = name).getLast?).map Prod.snd

/-- The last decision on a name holds. A name that is never mentioned keeps its decision. -/
theorem find?_recordAll (d : Decisions) (ps : List (String × Bool)) (name : String) :
    (d.recordAll ps).find? name = (lastIn ps name).or (d.find? name) := by
  induction ps generalizing d with
  | nil => rfl
  | cons p ps ih =>
    rw [recordAll_cons, ih, lastIn, lastIn]
    by_cases hp : p.1 = name
    · subst hp
      rw [find?_record_self, List.filter_cons_of_pos (by simp), List.getLast?_cons]
      cases (ps.filter fun q => q.1 = p.1).getLast? <;> rfl
    · rw [d.find?_record_of_ne (Ne.symm hp), List.filter_cons_of_neg (by simpa using hp)]

end Decisions

namespace Run

/-- Runs that record decisions with the same configuration, one after another: the pairs of names
and decisions on their command lines, their outcomes, and the workspace that they leave. -/
inductive Session (c : Config) :
    Workspace → List (String × Bool) → List Outcome → Workspace → Prop
  | done (w : Workspace) : Session c w [] [] w
  | run {w w' : Workspace} {words : List String} {s : Settings} {allowed : Bool}
      {licenses : List String} {ps : List (String × Bool)} {os : List Outcome} :
      CommandLine.parse words = .run s (.decide allowed licenses) →
      w.loadConfig s.config = .ok c →
      Session c { w with files := (commandLine w words).1.files } ps os w' →
      Session c w (licenses.map (·, allowed) ++ ps) ((commandLine w words).1 :: os) w'

variable {c : Config} {w w' : Workspace} {d : Decisions} {ps : List (String × Bool)}
  {os : List Outcome}

/-- A run records its decisions on top of those that it finds, and succeeds. -/
theorem decide_saves (hd : w.DecisionsAt c.licensesFile d) (hw : w.files.CanWrite c.licensesFile)
    (allowed : Bool) (licenses : List String) (quiet : Bool) :
    ∃ out log files, decide w c allowed licenses quiet = ⟨0, out, log, "", files⟩ ∧
      w.files.write c.licensesFile (d.recordAll (licenses.map (·, allowed))).toFile = .ok files := by
  obtain ⟨files, hfiles⟩ := hw (d.recordAll (licenses.map (·, allowed))).toFile
  have hsave := Workspace.saveDecisions_eq_ok_iff.2 ⟨files, hfiles, rfl⟩
  rw [decide]
  simp only [Workspace.loadDecisions_eq_ok_iff.2 hd, hsave]
  exact ⟨_, _, files, rfl, hfiles⟩

theorem Session.eq_of_nil (h : Session c w ps [] w') : ps = [] ∧ w' = w := by
  cases h
  exact ⟨rfl, rfl⟩

/-- Every run of a session succeeds, and afterwards the file has all decisions of the session on top
of those from before. If there was a run, the text is the one of these decisions. -/
theorem Session.saves (h : Session c w ps os w') (hd : w.DecisionsAt c.licensesFile d)
    (hw : w.files.CanWrite c.licensesFile) :
    (∀ o ∈ os, o.exit = 0 ∧ o.err = "") ∧ w'.DecisionsAt c.licensesFile (d.recordAll ps) ∧
      (os ≠ [] → w'.files.read c.licensesFile = .ok (d.recordAll ps).toFile) := by
  induction h generalizing d with
  | done w => exact ⟨fun o ho => (nomatch ho), hd, fun hne => absurd rfl hne⟩
  | @run w w' words s allowed licenses ps os hwords hconfig hrest ih =>
    obtain ⟨out, log, files, hrun, hfiles⟩ := decide_saves hd hw allowed licenses s.quiet
    have houtcome : (commandLine w words).1 = ⟨0, out, log, "", files⟩ := by
      rw [commandLine_run hwords, command, withConfig_of_ok hconfig, hrun]
    rw [houtcome] at ih ⊢
    -- The next run starts from the file that this one has written, and can write it as well.
    have hsaved := Workspace.decisionsAt_of_save
      (Workspace.saveDecisions_eq_ok_iff.2 ⟨files, hfiles, rfl⟩)
    obtain ⟨hall, hafter, htext⟩ := ih hsaved (FileSystem.canWrite_of_write hfiles)
    rw [← Decisions.recordAll_append] at hafter htext
    refine ⟨List.forall_mem_cons.2 ⟨⟨rfl, rfl⟩, hall⟩, hafter, fun _ => ?_⟩
    by_cases hos : os = []
    · subst hos
      obtain ⟨rfl, rfl⟩ := hrest.eq_of_nil
      rw [List.append_nil, houtcome]
      exact FileSystem.read_write hfiles
    · exact htext hos

/-- After some runs the file has the decisions from before, except that on every name that the runs
mention it has their last word. These decisions alone determine the text: other runs that end with
the same decisions leave the same text, in whatever file and from whatever start. -/
theorem session_refines (hd : w.DecisionsAt c.licensesFile d)
    (hw : w.files.CanWrite c.licensesFile) (h : Session c w ps os w') :
    (∀ o ∈ os, o.exit = 0 ∧ o.err = "") ∧
      ∃ final, w'.DecisionsAt c.licensesFile final ∧
        (∀ other, w'.DecisionsAt c.licensesFile other → other = final) ∧
        (∀ name, final.find? name = (Decisions.lastIn ps name).or (d.find? name)) ∧
        (os ≠ [] → w'.files.read c.licensesFile = .ok final.toFile) ∧
        ∀ (c₂ : Config) (w₂ w₂' : Workspace) (d₂ : Decisions) (ps₂ : List (String × Bool))
          (os₂ : List Outcome), w₂.DecisionsAt c₂.licensesFile d₂ →
          w₂.files.CanWrite c₂.licensesFile → Session c₂ w₂ ps₂ os₂ w₂' → os ≠ [] → os₂ ≠ [] →
          w₂'.DecisionsAt c₂.licensesFile final →
          w₂'.files.read c₂.licensesFile = w'.files.read c.licensesFile := by
  obtain ⟨hall, hafter, htext⟩ := h.saves hd hw
  refine ⟨hall, d.recordAll ps, hafter, fun other hother => hother.eq hafter,
    d.find?_recordAll ps, htext, ?_⟩
  intro c₂ w₂ w₂' d₂ ps₂ os₂ hd₂ hw₂ h₂ hos hos₂ hfinal
  obtain ⟨-, hafter₂, htext₂⟩ := h₂.saves hd₂ hw₂
  rw [htext hos, htext₂ hos₂, hafter₂.eq hfinal]

/-- Two runs on a file with decisions leave the same text as one run without a file. -/
theorem session_refines_same_end :
    let w (files : List (Location × Content)) : Workspace :=
      ⟨⟨files, [], ["p"]⟩, .text "", "/p", false⟩
    let start := w [(["p", ".licenses.yaml"], .text "MIT:   false\nBSD: true\n")]
    ∃ os w' os₂ w₂', Session .default start [("ISC", false), ("MIT", true), ("ISC", true)] os w' ∧
      Session .default (w []) [("ISC", true), ("MIT", true), ("BSD", true)] os₂ w₂' ∧
      (∀ o ∈ os, o.exit = 0 ∧ o.err = "") ∧
      w'.files.read ".licenses.yaml" = .ok "BSD: true\nISC: true\nMIT: true\n" ∧
      w₂'.files.read ".licenses.yaml" = w'.files.read ".licenses.yaml" := by
  intro w start
  let file (text : String) : Workspace := w [(["p", ".licenses.yaml"], .text text)]
  have hdeny : CommandLine.parse ["deny", "ISC"] =
      .run ⟨none, false, false, none⟩ (.decide false ["ISC"]) := rfl
  have hallow : CommandLine.parse ["allow", "MIT", "ISC"] =
      .run ⟨none, false, false, none⟩ (.decide true ["MIT", "ISC"]) := rfl
  have hquiet : CommandLine.parse ["-q", "allow", "ISC", "MIT", "BSD"] =
      .run ⟨none, false, true, none⟩ (.decide true ["ISC", "MIT", "BSD"]) := rfl
  have hlast : Session .default (file "BSD: true\nISC: false\nMIT: false\n")
      [("MIT", true), ("ISC", true)] _ (file "BSD: true\nISC: true\nMIT: true\n") :=
    .run hallow rfl (.done _)
  have h : Session .default start [("ISC", false), ("MIT", true), ("ISC", true)] _ _ :=
    .run hdeny rfl hlast
  have h₂ : Session .default (w []) [("ISC", true), ("MIT", true), ("BSD", true)] _
      (file "BSD: true\nISC: true\nMIT: true\n") :=
    .run hquiet rfl (.done _)
  let d : Decisions := .ofPairs [("BSD", true), ("ISC", true), ("MIT", true)]
  have hd : (file "BSD: true\nISC: true\nMIT: true\n").DecisionsAt ".licenses.yaml" d :=
    .mapping rfl rfl rfl
  have hw : start.files.CanWrite ".licenses.yaml" := fun _ => ⟨_, rfl⟩
  have hw₂ : (w []).files.CanWrite ".licenses.yaml" := fun _ => ⟨_, rfl⟩
  obtain ⟨hall, final, -, hfinal, -, -, htext⟩ :=
    session_refines (c := .default) (w := start) (.mapping rfl rfl rfl) hw h
  obtain rfl := hfinal d hd
  exact ⟨_, _, _, _, h, h₂, hall, rfl, htext .default _ _ _ _ _ (.missing rfl) hw₂ h₂
    (List.cons_ne_nil _ _) (List.cons_ne_nil _ _) hd⟩

end Run

end LicenseAudit
