import LicenseAudit.Proofs.Check
import LicenseAudit.Proofs.Effects
import LicenseAudit.Proofs.Listing.RoundTrip

/-!
# An evaluation and a check of one license

An expression can be evaluated as it is, or stand in a listing as the license of a dependency. The
listing takes its lines apart at commas and drops white space, but it gives a license back that has
no white space around it and no line feed in it. So both ways come to the same end.

Results:
1. `parse_entry`: a listing of one line.
2. `eval_finding`: both fail alike, or come to the same fate.
3. `eval_agrees_check`: an evaluation and a check of one license agree.
-/

namespace LicenseAudit

namespace Listing

/-- A listing of one line: a dependency and its license, both trimmed. -/
theorem parse_entry {x e : String} (hx : Text.trimmed x = x) (hne : x ≠ "")
    (hcomma : ',' ∉ x.toList) (hfeed : '\n' ∉ x.toList) (he : Text.trimmed e = e)
    (hfeed' : '\n' ∉ e.toList) : parse (x ++ "," ++ e) = .ok (Ordered.empty.insert x e) := by
  have hwritable : Writable x e := ⟨hne, hx, hcomma, hfeed, he, hfeed'⟩
  have hrecords : Records (x.toList ++ ',' :: e.toList) x e := by
    simpa using hwritable.records .nil .nil .nil .nil
  have hlines : Text.lines (x ++ "," ++ e).toList = [x.toList ++ ',' :: e.toList] := by
    rw [show (x ++ "," ++ e).toList = x.toList ++ ',' :: e.toList by simp [String.toList_append]]
    exact Text.lines_of_no_feed (by simp [hfeed, hfeed']) (by simp)
  exact parse_of_entries (by rw [hlines]; exact .entry hrecords .nil)

end Listing

namespace Run

variable {w : Workspace} {c : Config} {o : CheckOptions}

/-- The report on one dependency has it in the class of its fate, and in no other one. -/
theorem find?_record_empty (fate other : Fate) (e x : String) :
    (∃ ds, ((Report.empty.record fate e x).groups other).find? e = some ds ∧ x ∈ ds) ↔
      other = fate := by
  rw [Report.groups_record]
  by_cases h : other = fate
  · rw [if_pos h, Groups.add, Ordered.find?_alter_self]
    simp [h]
  · rw [if_neg h]
    cases other <;> simp [Report.groups, Report.empty, Ordered.find?, Ordered.empty, Ordered.lookup, h]

/-- What a check finds in a listing with one line is what becomes of its license. -/
theorem finding_entry {d : Decisions} {path x e : String} {fate : Fate}
    (hpath : o.licenses.or c.currentLicenses = some path)
    (hd : w.loadDecisions c.licensesFile = .ok d)
    (hlisting : w.readListing path = .ok (Ordered.empty.insert x e))
    (hfate : d.fate? e = some fate) :
    finding w c o = .ok (Report.empty.record fate e x) := by
  rw [finding]
  simp only [hpath, hd, hlisting]
  rw [Decisions.review, show (Ordered.empty.insert x e).pairs = [(x, e)] from rfl,
    Decisions.reviewFrom_cons hfate, Decisions.reviewFrom]
  rfl

/-- The check lists the dependency under this license, in the class of this fate. -/
def Lists (w : Workspace) (c : Config) (o : CheckOptions) (fate : Fate)
    (license dependency : String) : Prop :=
  ∃ r, finding w c o = .ok r ∧
    ∃ ds, (r.groups fate).find? license = some ds ∧ dependency ∈ ds

theorem not_lists_of_finding {failure : Failure} (h : finding w c o = .error failure) (fate : Fate)
    (license dependency : String) : ¬ Lists w c o fate license dependency := by
  rintro ⟨r, hr, -⟩
  rw [h] at hr
  cases hr

theorem lists_of_finding {fate : Fate} {e x : String}
    (h : finding w c o = .ok (Report.empty.record fate e x)) (other : Fate) :
    Lists w c o other e x ↔ other = fate := by
  rw [← find?_record_empty fate other e x, Lists, h]
  constructor
  · rintro ⟨r, hr, hlisted⟩
    obtain rfl := Except.ok.inj hr
    exact hlisted
  · exact fun hlisted => ⟨_, rfl, hlisted⟩

/-- What an evaluation answers about a license with this fate: its exit code and its output. -/
def Answers (outcome : Outcome) : Fate → Prop
  | .allowed => outcome.exit = 0 ∧ outcome.out = "allowed\n"
  | .disallowed => outcome.exit = 1 ∧ outcome.out = "disallowed\n"
  | .unknown => outcome.exit = 2 ∧
      ∃ names, outcome.out = "unknown: " ++ String.intercalate ", " names ++ "\n"

/-- The exit code tells the answer. -/
theorem Answers.unique {outcome : Outcome} {fate other : Fate} (h : Answers outcome fate)
    (h' : Answers outcome other) : other = fate := by
  cases fate <;> cases other <;> first | rfl | exact absurd (h.1.symm.trans h'.1) (by decide)

theorem not_answers_failed (files : FileSystem) (log : List LogEntry) (failure : Failure)
    (fate : Fate) : ¬ Answers (.failed files log failure) fate := by
  cases fate <;> simp [Answers, Outcome.failed]

/-- An evaluation without further decisions answers by the fate of its license. A license without a
fate cannot be read, and the evaluation fails with that. -/
theorem eval_cases {d : Decisions} (hd : w.loadDecisions c.licensesFile = .ok d) (e : String) :
    (∃ fate, d.fate? e = some fate ∧ Answers (eval w c e [] []) fate ∧
        (eval w c e [] []).err = "") ∨
      ∃ source, Expr.parse e = .error source ∧ ∃ log,
        eval w c e [] [] = .failed w.files log (.check (.parse e source)) := by
  have hnone : (d.recordAll (([] : List String).map (·, true))).recordAll
    (([] : List String).map (·, false)) = d := rfl
  rw [eval]
  simp only [hd, hnone]
  rcases d.verdict_cases e with
    ⟨source, hparse, hv, -⟩ | ⟨_, b, -, hv, -⟩ | ⟨_, name, rest, -, hv, hu⟩
  · refine .inr ⟨source, hparse, ?_⟩
    simp only [hv]
    exact ⟨_, rfl⟩
  · left
    cases b
    · refine ⟨.disallowed, by rw [Decisions.fate?, hv], ?_⟩
      simp [hv, Answers]
    · refine ⟨.allowed, by rw [Decisions.fate?, hv], ?_⟩
      simp [hv, Answers]
  · refine .inl ⟨.unknown, by rw [Decisions.fate?, hv], ?_⟩
    rw [Answers]
    simp only [hv, hu, true_and, and_true]
    exact ⟨name :: rest, rfl⟩

/-- An output that cannot be written is told from a license that cannot be read. -/
theorem report_outputUnwritable_ne (fault : FileFault) (e : String) (source : ParseError) :
    (Failure.outputUnwritable fault).report ≠ (Failure.check (.parse e source)).report := by
  have hfault : (Failure.outputUnwritable fault).message = fault.message := rfl
  have hparse : (Failure.check (.parse e source)).message =
    "failed to parse license '" ++ e ++ "'" := rfl
  rw [ne_eq, ← String.toList_inj, Failure.report_toList, Failure.report_toList,
    List.append_cancel_left_eq, hfault, hparse]
  -- The two messages part at the second character at the latest.
  cases fault <;> simp [FileFault.message]

/-- A check that has a report does not fail because of a license. -/
theorem err_showReport (w : Workspace) (c : Config) (o : CheckOptions) (quiet : Bool)
    (log : List LogEntry) (r : Report) (e : String) (source : ParseError) :
    (showReport w c o quiet log r).err ≠ (Failure.check (.parse e source)).report := by
  have hverdict := Failure.ne_report (err_verdictOf o (policyOf w c o) quiet r)
    (.check (.parse e source))
  rcases showReport_cases w c o quiet log r with
    ⟨-, out, hshown⟩ | ⟨path, files, -, -, hshown⟩ | ⟨fault, hshown⟩ <;> rw [hshown]
  · exact hverdict
  · exact hverdict
  · exact report_outputUnwritable_ne fault e source

/-- An evaluation and a check of one license fail alike, or come to the same fate. -/
theorem eval_finding {path x e : String} (hpath : o.licenses.or c.currentLicenses = some path)
    (hlisting : w.readListing path = .ok (Ordered.empty.insert x e)) :
    (∃ failure, finding w c o = .error failure ∧
        ∃ log, eval w c e [] [] = .failed w.files log failure) ∨
      ∃ fate, finding w c o = .ok (Report.empty.record fate e x) ∧
        Answers (eval w c e [] []) fate ∧ (eval w c e [] []).err = "" := by
  cases hd : w.loadDecisions c.licensesFile with
  | error failure =>
    left
    unfold finding eval
    simp only [hpath, hd]
    exact ⟨failure, rfl, _, rfl⟩
  | ok d =>
    rcases eval_cases hd e with ⟨fate, hfate, heval⟩ | ⟨source, hparse, heval⟩
    · exact .inr ⟨fate, finding_entry hpath hd hlisting hfate, heval⟩
    · refine .inl ⟨_, ?_, heval⟩
      rw [finding]
      simp only [hpath, hd, hlisting]
      rw [Decisions.review, show (Ordered.empty.insert x e).pairs = [(x, e)] from rfl,
        d.reviewFrom_cons_of_parse_error hparse]
      rfl

theorem exists_failed_iff {files : FileSystem} {log : List LogEntry} {f g : Failure} :
    (∃ log', Outcome.failed files log f = .failed files log' g) ↔ f.report = g.report := by
  constructor
  · rintro ⟨log', h⟩
    exact congrArg Outcome.err h
  · exact fun h => ⟨log, by rw [Outcome.failed, h, Outcome.failed]⟩

/-- Evaluating a trimmed license without line feeds and checking a listing that has it on its only
line agree: the check lists the dependency under this license in the class that the evaluation
answers with, and if the license cannot be read, both fail with the same error. -/
theorem eval_agrees_check {path x e : String}
    (hpath : o.licenses.or c.currentLicenses = some path)
    (htext : w.readListingText path = .ok (x ++ "," ++ e)) (hx : Text.trimmed x = x)
    (hne : x ≠ "") (hcomma : ',' ∉ x.toList) (hfeed : '\n' ∉ x.toList)
    (he : Text.trimmed e = e) (hfeed' : '\n' ∉ e.toList) (quiet : Bool) :
    (∀ fate, Answers (eval w c e [] []) fate ↔ Lists w c o fate e x) ∧
      (∀ source, (∃ log, eval w c e [] [] = .failed w.files log (.check (.parse e source))) ↔
        ∃ log, check w c o quiet = .failed w.files log (.check (.parse e source))) ∧
      ∃ log, check w c o quiet =
        match finding w c o with
        | .ok r => showReport w c o quiet log r
        | .error failure => .failed w.files log failure := by
  have hlisting := (Workspace.readListing_of_text htext).2
    (Listing.parse_entry hx hne hcomma hfeed he hfeed')
  obtain ⟨log, hcheck⟩ := check_finding w c o quiet
  refine ⟨fun fate => ?_, fun source => ?_, log, hcheck⟩
  · rcases eval_finding hpath hlisting with
      ⟨failure, hfind, log', heval⟩ | ⟨found, hfind, hanswers, -⟩
    · rw [heval]
      exact iff_of_false (not_answers_failed _ _ _ fate) (not_lists_of_finding hfind fate e x)
    · rw [lists_of_finding hfind]
      exact ⟨hanswers.unique, fun heq => heq ▸ hanswers⟩
  · rcases eval_finding hpath hlisting with
      ⟨failure, hfind, log', heval⟩ | ⟨found, hfind, -, herr⟩
    · rw [hfind] at hcheck
      rw [heval, hcheck, exists_failed_iff, exists_failed_iff]
    · rw [hfind] at hcheck
      refine iff_of_false ?_ ?_
      · rintro ⟨log', h⟩
        rw [h] at herr
        exact Failure.ne_report (by simp) _ herr.symm
      · rintro ⟨log', h⟩
        rw [hcheck] at h
        exact err_showReport w c o quiet log _ e source (congrArg Outcome.err h)

/-- A license that has a comma and a carriage return inside a name. -/
theorem eval_agrees_check_comma :
    let e := "a,\rb && !GPL"
    let w : Workspace :=
      ⟨⟨[(["p", ".licenses.yaml"], .text "\"a,\\rb\": true\nGPL: false\n"),
          (["p", "deps"], .text ("x" ++ "," ++ e))], [], ["p"]⟩, .text "", "/p", false⟩
    let o : CheckOptions := ⟨some "deps", none, none, none, none, false, false⟩
    w.readListingText "deps" = .ok ("x" ++ "," ++ e) ∧ Text.trimmed e = e ∧
      Answers (eval w .default e [] []) .allowed ∧ Lists w .default o .allowed e "x" := by
  intro e w o
  have hanswers : (eval w .default e [] []).exit = 0 ∧
      (eval w .default e [] []).out = "allowed\n" := by
    decide
  have hpath : o.licenses.or Config.default.currentLicenses = some "deps" := rfl
  have htext : w.readListingText "deps" = .ok ("x" ++ "," ++ e) := rfl
  have he : Text.trimmed e = e := by decide
  have hagree := eval_agrees_check hpath htext (by decide) (by decide) (by decide) (by decide) he
    (by decide) false
  exact ⟨htext, he, hanswers, (hagree.1 .allowed).1 hanswers⟩

end Run

end LicenseAudit
