import LicenseAudit.Proofs.Expr.Names
import LicenseAudit.Run

/-!
# Verdicts and missing decisions

Two ways lead to a license without a decision. The verdict evaluates the expression, keeps the first
error and looks at its fault. The list of undecided names walks through the literals, leaves out
constants and repetitions, and then the names that are decided. The two agree because both come down
to the literals of the expression that stand for nothing: the verdict finds the first of them, and
so does the list.

Results:
1. `verdict_of_parse`, `verdict_eq_ok_iff`: the verdict on a license that can be read, by its
   undecided names.
2. `verdict_cases`: the three outcomes of a verdict, each with what is undecided then.
3. `verdict_of_undecided_nil`, `verdict_of_undecided_cons`: the verdict by what is undecided.
4. `verdict_agrees_undecided`: the two ways agree on every license, and so the answer of a run
   about an unknown license always names one.
-/

namespace LicenseAudit.Decisions

/-! ## The verdict by the undecided names -/

/-- The decisions with all other names disallowed. -/
def assignment (d : Decisions) (name : String) : Bool := (d.find? name).getD false

theorem completes_assignment (d : Decisions) : Expr.Completes d.assignment d.find? :=
  Expr.completes_getD d.find?

theorem isOpen_find? (d : Decisions) :
    Expr.isOpen d.find? = fun text => (boolSpelling? text).isNone && !d.decides text := by
  funext text
  simp [Expr.isOpen, decides]

theorem parseLicense_of_parse {license : String} {e : Expr} (h : Expr.parse license = .ok e) :
    parseLicense license = .ok e := by
  rw [parseLicense, h]
  rfl

theorem parseLicense_of_parse_error {license : String} {source : ParseError}
    (h : Expr.parse license = .error source) :
    parseLicense license = .error (.parse license source) := by
  rw [parseLicense, h]
  rfl

theorem verdict_of_parse (d : Decisions) {license : String} {e : Expr}
    (h : Expr.parse license = .ok e) :
    d.verdict license =
      match (e.names.filter fun name => !d.decides name).head? with
      | none => .ok (e.truth d.assignment)
      | some name => .error (.unknownLicense license name) := by
  have heval := Expr.evalAt_eq_firstOr d.completes_assignment (Expr.maxDepth + 1) e
  have hfaults := Expr.fault_failures d.find? (Nat.lt_succ_of_le (Expr.height_le_of_parse h))
  rw [Expr.head?_filter_names, ← d.isOpen_find?]
  unfold verdict
  rw [parseLicense_of_parse h]
  simp only
  rw [Expr.eval, heval]
  cases hfs : Expr.failures d.find? (Expr.maxDepth + 1) e with
  | nil =>
    rw [hfs, List.map_nil] at hfaults
    rw [List.map_eq_nil_iff.1 hfaults.symm]
    rfl
  | cons first rest =>
    rw [hfs, List.map_cons] at hfaults
    obtain ⟨name, names, hnames, hname, -⟩ := List.map_eq_cons_iff.1 hfaults.symm
    rw [hnames]
    simp [Expr.firstOr, Except.mapError, checkErrorOf, Located.unknownVariable?, ← hname]

/-- A license has this verdict if all its names are decided and its expression has this value. -/
theorem verdict_eq_ok_iff {d : Decisions} {license : String} {e : Expr}
    (hparse : Expr.parse license = .ok e) {b : Bool} :
    d.verdict license = .ok b ↔
      (∀ name ∈ e.names, d.decides name = true) ∧ e.truth d.assignment = b := by
  rw [d.verdict_of_parse hparse]
  cases hn : e.names.filter fun name => !d.decides name with
  | nil =>
    have hall : ∀ name ∈ e.names, d.decides name = true := by
      simpa using List.filter_eq_nil_iff.1 hn
    simp only [List.head?_nil, Except.ok.injEq]
    exact (and_iff_right hall).symm
  | cons name rest =>
    have hmem : name ∈ e.names.filter fun name => !d.decides name := hn ▸ List.mem_cons_self
    obtain ⟨hname, hno⟩ := List.mem_filter.1 hmem
    refine iff_of_false (fun h => nomatch h) fun h => ?_
    rw [h.1 name hname] at hno
    cases hno

theorem eval_eq_ok_iff {d : Decisions} {license : String} {e : Expr}
    (hparse : Expr.parse license = .ok e) {b : Bool} :
    e.eval d.find? = .ok b ↔ d.verdict license = .ok b := by
  unfold verdict
  rw [parseLicense_of_parse hparse]
  show _ ↔ (e.eval d.find?).mapError _ = .ok b
  cases e.eval d.find? with
  | ok a => simp [Except.mapError]
  | error source => exact iff_of_false nofun nofun

theorem verdict_of_parse_error (d : Decisions) {license : String} {source : ParseError}
    (h : Expr.parse license = .error source) :
    d.verdict license = .error (.parse license source) := by
  unfold verdict
  rw [parseLicense_of_parse_error h]

theorem undecided_of_parse (d : Decisions) {license : String} {e : Expr}
    (h : Expr.parse license = .ok e) :
    d.undecided license = .ok (e.names.filter fun name => !d.decides name) := by
  unfold undecided
  rw [parseLicense_of_parse h]

theorem undecided_of_parse_error (d : Decisions) {license : String} {source : ParseError}
    (h : Expr.parse license = .error source) :
    d.undecided license = .error (.parse license source) := by
  unfold undecided
  rw [parseLicense_of_parse_error h]

theorem exists_parse_of_undecided {d : Decisions} {license : String} {names : List String}
    (h : d.undecided license = .ok names) :
    ∃ e, Expr.parse license = .ok e ∧ names = e.names.filter fun name => !d.decides name := by
  cases hp : Expr.parse license with
  | error source =>
    rw [d.undecided_of_parse_error hp] at h
    cases h
  | ok e =>
    rw [d.undecided_of_parse hp] at h
    exact ⟨e, rfl, (Except.ok.inj h).symm⟩

/-- A license cannot be read, or it is decided and no name is undecided, or it is unknown and some
names are undecided. There is no fourth outcome: what was read is never too deep to be evaluated. -/
theorem verdict_cases (d : Decisions) (license : String) :
    (∃ source, Expr.parse license = .error source ∧
        d.verdict license = .error (.parse license source) ∧
        d.undecided license = .error (.parse license source)) ∨
      (∃ e b, Expr.parse license = .ok e ∧ d.verdict license = .ok b ∧
        d.undecided license = .ok []) ∨
      ∃ e name rest, Expr.parse license = .ok e ∧
        d.verdict license = .error (.unknownLicense license name) ∧
        d.undecided license = .ok (name :: rest) := by
  cases hp : Expr.parse license with
  | error source =>
    exact .inl ⟨source, rfl, d.verdict_of_parse_error hp, d.undecided_of_parse_error hp⟩
  | ok e =>
    have hv := d.verdict_of_parse hp
    have hu := d.undecided_of_parse hp
    cases hn : e.names.filter fun name => !d.decides name with
    | nil =>
      rw [hn] at hv hu
      exact .inr (.inl ⟨e, _, rfl, hv, hu⟩)
    | cons name rest =>
      rw [hn] at hv hu
      exact .inr (.inr ⟨e, name, rest, rfl, hv, hu⟩)

/-- An unknown license has undecided names, and the error tells the first one. -/
theorem undecided_of_verdict_unknown {d : Decisions} {license text name : String}
    (h : d.verdict license = .error (.unknownLicense text name)) :
    text = license ∧ ∃ rest, d.undecided license = .ok (name :: rest) := by
  rcases d.verdict_cases license with
    ⟨source, -, hv, -⟩ | ⟨e, b, -, hv, -⟩ | ⟨e, first, rest, -, hv, hu⟩
  · rw [hv] at h
    cases h
  · rw [hv] at h
    cases h
  · rw [hv] at h
    obtain ⟨rfl, rfl⟩ := CheckError.unknownLicense.inj (Except.error.inj h)
    exact ⟨rfl, rest, hu⟩

/-- A license without undecided names has a verdict. -/
theorem verdict_of_undecided_nil {d : Decisions} {license : String}
    (h : d.undecided license = .ok []) : ∃ b, d.verdict license = .ok b := by
  rcases d.verdict_cases license with
    ⟨source, -, -, hu⟩ | ⟨e, b, -, hv, -⟩ | ⟨e, name, rest, -, -, hu⟩
  · rw [hu] at h
    cases h
  · exact ⟨b, hv⟩
  · rw [hu] at h
    cases h

theorem verdict_of_undecided_cons {d : Decisions} {license name : String} {rest : List String}
    (h : d.undecided license = .ok (name :: rest)) :
    d.verdict license = .error (.unknownLicense license name) := by
  rcases d.verdict_cases license with
    ⟨source, -, -, hu⟩ | ⟨e, b, -, -, hu⟩ | ⟨e, first, others, -, hv, hu⟩
  · rw [hu] at h
    cases h
  · rw [hu] at h
    cases h
  · rw [hu] at h
    obtain ⟨rfl, -⟩ := List.cons.inj (Except.ok.inj h)
    exact hv

/-! ## The two ways agree -/

/-- A license has a verdict if no name is undecided. If some are, the verdict tells the first one.
Both ways report the same error about a text that cannot be read. A run that evaluates an expression
and finds it unknown therefore has names to tell, and asking for them does not fail. -/
theorem verdict_agrees_undecided (d : Decisions) (license : String) :
    ((∃ b, d.verdict license = .ok b) ↔ d.undecided license = .ok []) ∧
      (∀ name, d.verdict license = .error (.unknownLicense license name) ↔
        ∃ rest, d.undecided license = .ok (name :: rest)) ∧
      (∀ text source, d.verdict license = .error (.parse text source) ↔
        d.undecided license = .error (.parse text source)) ∧
      ∀ w c allow deny before text name, w.loadDecisions c.licensesFile = .ok before →
        d = (before.recordAll (allow.map (·, true))).recordAll (deny.map (·, false)) →
        d.verdict license = .error (.unknownLicense text name) →
        ∃ rest, d.undecided license = .ok (name :: rest) ∧
          (Run.eval w c license allow deny).exit = 2 ∧
          (Run.eval w c license allow deny).out =
            "unknown: " ++ String.intercalate ", " (name :: rest) ++ "\n" := by
  have hcases := d.verdict_cases license
  refine ⟨?_, fun name => ?_, fun text source => ?_, ?_⟩
  · rcases hcases with ⟨_, -, hv, hu⟩ | ⟨_, _, -, hv, hu⟩ | ⟨_, _, _, -, hv, hu⟩ <;> simp [hv, hu]
  · rcases hcases with ⟨_, -, hv, hu⟩ | ⟨_, _, -, hv, hu⟩ | ⟨_, _, _, -, hv, hu⟩ <;> simp [hv, hu]
  · rcases hcases with ⟨_, -, hv, hu⟩ | ⟨_, _, -, hv, hu⟩ | ⟨_, _, _, -, hv, hu⟩ <;> simp [hv, hu]
  · rintro w c allow deny before text name hload rfl hv
    obtain ⟨-, rest, hrest⟩ := undecided_of_verdict_unknown hv
    refine ⟨rest, hrest, ?_⟩
    unfold Run.eval
    simp only [hload, hv, hrest, and_self]

end LicenseAudit.Decisions
