import LicenseAudit.Proofs.Listing
import LicenseAudit.Proofs.Review
import LicenseAudit.Proofs.Workspace

/-!
# The outcome of a check

A check that goes through ends with 1 or 0. Which of the two depends on the decisions, on the last
line of every dependency, and on what unknown licenses mean, but not on how the report is shown.

Results:
1. `Reviewed.fails_iff`: when a report fails.
2. `exit_check`: a check ends as its report says.
3. `policyOf_of_pipe`: what unknown licenses mean if the output goes to no terminal.
4. `exit_commandLine_check`: the exit code of a command line that checks a listing.
-/

namespace LicenseAudit

/-! ## Reports that fail -/

namespace Decisions

/-- A dependency with this license makes a check fail: the license is disallowed, or it has a name
without a decision and such licenses are denied. -/
def Offends (d : Decisions) (policy : UnknownPolicy) (license : String) : Prop :=
  ∃ e, Expr.parse license = .ok e ∧
    (e.eval d.find? = .ok false ∨
      policy = .deny ∧ ∃ name ∈ e.names, d.find? name = none)

theorem offends_iff_fate? (d : Decisions) (policy : UnknownPolicy) {license : String} {e : Expr}
    (h : Expr.parse license = .ok e) :
    d.Offends policy license ↔ d.fate? license = some .disallowed ∨
      policy = .deny ∧ d.fate? license = some .unknown := by
  have hdisallowed := d.fate?_eq_decided_iff h false
  have hunknown := d.fate?_eq_unknown_iff h
  simp only [decides, Option.isSome_iff_ne_none, not_not] at hunknown
  rw [if_neg Bool.false_ne_true] at hdisallowed
  rw [hdisallowed, hunknown, Offends]
  constructor
  · rintro ⟨e', he', hcases⟩
    rw [h] at he'
    obtain rfl := Except.ok.inj he'
    exact hcases
  · exact fun hcases => ⟨e, h, hcases⟩

/-- A report fails if some dependency offends. -/
theorem Reviewed.fails_iff {d : Decisions} {ps : List (String × String)} {r : Report}
    (h : Reviewed d ps r) (hread : ∀ p ∈ ps, ∃ e, Expr.parse p.2 = .ok e)
    (policy : UnknownPolicy) :
    r.fails policy = true ↔ ∃ p ∈ ps, d.Offends policy p.2 := by
  have hoffends : (∃ p ∈ ps, d.Offends policy p.2) ↔ ∃ p ∈ ps,
      d.fate? p.2 = some .disallowed ∨ policy = .deny ∧ d.fate? p.2 = some .unknown := by
    refine exists_congr fun p => and_congr_right fun hp => ?_
    obtain ⟨e, he⟩ := hread p hp
    exact d.offends_iff_fate? policy he
  have hdisallowed := h.isEmpty_groups .disallowed
  have hunknown := h.isEmpty_groups .unknown
  simp only [Report.groups] at hdisallowed hunknown
  rw [hoffends, Report.fails, Bool.or_eq_true, Report.hasDisallowed, Report.hasUnknown,
    Bool.and_eq_true, Bool.not_eq_true', Bool.not_eq_true', hdisallowed, hunknown,
    decide_eq_true_eq]
  constructor
  · rintro (⟨p, hp, hfate⟩ | ⟨hdeny, p, hp, hfate⟩)
    · exact ⟨p, hp, .inl hfate⟩
    · exact ⟨p, hp, .inr ⟨hdeny, hfate⟩⟩
  · rintro ⟨p, hp, hfate | ⟨hdeny, hfate⟩⟩
    · exact .inl ⟨p, hp, hfate⟩
    · exact .inr ⟨hdeny, p, hp, hfate⟩

end Decisions

namespace Run

/-! ## Exit codes -/

variable {w : Workspace} {c : Config} {o : CheckOptions}

theorem exit_showReport (hout : ∀ path ∈ o.output, w.files.CanWrite path) (quiet : Bool)
    (log : List LogEntry) (r : Report) :
    (showReport w c o quiet log r).exit =
      if r.fails (policyOf w c o) && !o.exitZero then 1 else 0 := by
  have hverdict : ∀ policy, (verdictOf o policy quiet r).1 =
      if r.fails policy && !o.exitZero then 1 else 0 := by
    intro policy
    rw [verdictOf]
    split <;> rfl
  rw [← hverdict, showReport]
  cases ho : o.output with
  | none => rfl
  | some path =>
    obtain ⟨files, hfiles⟩ := hout path ho (reportText c o (policyOf w c o) r)
    simp only [hfiles]

/-- A check of a listing that can be read ends with 1 or 0, as its report says. -/
theorem exit_check {d : Decisions} {path : String} {listing : Listing} {r : Report}
    (hpath : o.licenses.or c.currentLicenses = some path)
    (hd : w.loadDecisions c.licensesFile = .ok d) (hlisting : w.readListing path = .ok listing)
    (hr : d.review listing = .ok r) (hout : ∀ p ∈ o.output, w.files.CanWrite p) (quiet : Bool) :
    (check w c o quiet).exit = if r.fails (policyOf w c o) && !o.exitZero then 1 else 0 := by
  unfold check
  simp only [hpath, hd, hlisting, hr]
  exact exit_showReport hout quiet _ r

/-- What unknown licenses mean in a run whose output goes to no terminal. Options come before the
configuration, and what was said about unknown licenses comes before what was said about somebody
watching. If nothing was said, nobody watches. -/
def pipedPolicy (c : Config) (o : CheckOptions) : UnknownPolicy :=
  match o.onUnknown, c.onUnknown, o.interactive, c.interactive with
  | some policy, _, _, _ => policy
  | none, some policy, _, _ => policy
  | none, none, some true, _ => .report
  | none, none, some false, _ => .deny
  | none, none, none, some .always => .report
  | none, none, none, some .never => .deny
  | none, none, none, some .auto => .deny
  | none, none, none, none => .deny

theorem policyOf_of_pipe (h : w.onTerminal = false) (c : Config) (o : CheckOptions) :
    policyOf w c o = pipedPolicy c o := by
  rw [policyOf, Config.policy, isWatched, h, pipedPolicy]
  cases o.onUnknown with
  | some policy => rfl
  | none =>
    cases c.onUnknown with
    | some policy => rfl
    | none =>
      cases o.interactive with
      | some watched => cases watched <;> rfl
      | none =>
        cases c.interactive with
        | none => rfl
        | some i => cases i <;> rfl

/-- A check ends with 1 if some dependency, with the license of its last line, offends and failures
are not to be ignored. Otherwise it ends with 0. -/
theorem exit_commandLine_check {words : List String} {s : Settings} {d : Decisions}
    {path content : String} {listing : Listing}
    (hwords : CommandLine.parse words = .run s (.check o))
    (hconfig : w.loadConfig s.config = .ok c) (hpipe : w.onTerminal = false)
    (hd : w.DecisionsAt c.licensesFile d)
    (hpath : o.licenses.or c.currentLicenses = some path)
    (htext : w.readListingText path = .ok content) (hlisting : Listing.parse content = .ok listing)
    (hread : ∀ dependency license,
      Listing.Last (Text.lines content.toList) dependency license →
        ∃ e, Expr.parse license = .ok e)
    (hout : ∀ p ∈ o.output, w.files.CanWrite p) :
    let offended := ∃ dependency license,
      Listing.Last (Text.lines content.toList) dependency license ∧
        d.Offends (pipedPolicy c o) license
    ((commandLine w words).1.exit = 1 ↔ o.exitZero = false ∧ offended) ∧
      ((commandLine w words).1.exit = 0 ↔ ¬ (o.exitZero = false ∧ offended)) := by
  intro offended
  -- The check sees the listing only; its pairs are what the text says about last lines.
  have hpairs := Listing.mem_pairs_parse hlisting
  have hlicenses : ∀ p ∈ listing.pairs, ∃ e, Expr.parse p.2 = .ok e :=
    fun p hp => hread p.1 p.2 ((hpairs p.1 p.2).1 hp)
  obtain ⟨r, hr, hreviewed⟩ := d.exists_review hlicenses
  have hlist := (Workspace.readListing_of_text htext).2 hlisting
  have hfails : r.fails (pipedPolicy c o) = true ↔ offended := by
    rw [hreviewed.fails_iff hlicenses]
    simp only [hpairs, Prod.exists, offended]
  have hexit : (commandLine w words).1.exit =
      if r.fails (pipedPolicy c o) && !o.exitZero then 1 else 0 := by
    rw [commandLine_run hwords, command, withConfig_of_ok hconfig,
      exit_check hpath (Workspace.loadDecisions_eq_ok_iff.2 hd) hlist hr hout,
      policyOf_of_pipe hpipe]
  rw [hexit, ← hfails]
  cases r.fails (pipedPolicy c o) <;> cases o.exitZero <;> simp

/-- The first line for `a` does not count, and the name without a decision decides. -/
theorem exit_commandLine_check_twice :
    let w : Workspace :=
      ⟨⟨[(["p", ".licenses.yaml"], .text "MIT: true\nGPL: false\n"),
          (["p", "deps"], .text "a,GPL\nb,MIT && X\na,MIT\n")], [], ["p"]⟩,
        .text "", "/p", false⟩
    (commandLine w ["check", "-l", "deps"]).1.exit = 1 ∧
      (commandLine w ["check", "-l", "deps", "--on-unknown", "report"]).1.exit = 0 := by
  intro w
  let d : Decisions := .ofPairs [("MIT", true), ("GPL", false)]
  have hd : w.DecisionsAt ".licenses.yaml" d := .mapping rfl rfl rfl
  have hlisting : Listing.parse "a,GPL\nb,MIT && X\na,MIT\n" =
      .ok ⟨[("a", "MIT"), ("b", "MIT && X")], by decide⟩ := rfl
  have hmit : Expr.parse "MIT" = .ok (.literal "MIT") := rfl
  have hboth : Expr.parse "MIT && X" = .ok (.and (.literal "MIT") (.literal "X")) := rfl
  have hlast : ∀ dependency license,
      Listing.Last (Text.lines "a,GPL\nb,MIT && X\na,MIT\n".toList) dependency license →
        license = "MIT" ∨ license = "MIT && X" := by
    intro dependency license h
    have hmem := (Listing.mem_pairs_parse hlisting dependency license).2 h
    simp only [List.mem_cons, List.not_mem_nil, or_false, Prod.mk.injEq] at hmem
    exact hmem.imp And.right And.right
  have hread : ∀ dependency license,
      Listing.Last (Text.lines "a,GPL\nb,MIT && X\na,MIT\n".toList) dependency license →
        ∃ e, Expr.parse license = .ok e := by
    intro dependency license h
    rcases hlast dependency license h with rfl | rfl
    · exact ⟨_, hmit⟩
    · exact ⟨_, hboth⟩
  constructor
  · refine (exit_commandLine_check (w := w) rfl rfl rfl hd rfl rfl hlisting hread ?_).1.2 ⟨rfl, ?_⟩
    · exact fun _ h => nomatch h
    · refine ⟨"b", "MIT && X", (Listing.mem_pairs_parse hlisting _ _).1 (by decide), _, hboth, ?_⟩
      exact .inr ⟨rfl, "X", by decide, rfl⟩
  · refine (exit_commandLine_check (w := w) rfl rfl rfl hd rfl rfl hlisting hread ?_).2.2 ?_
    · exact fun _ h => nomatch h
    · rintro ⟨-, dependency, license, h, hoffends⟩
      rcases hlast dependency license h with rfl | rfl
      · rw [d.offends_iff_fate? _ hmit] at hoffends
        revert hoffends
        decide
      · rw [d.offends_iff_fate? _ hboth] at hoffends
        revert hoffends
        decide

end Run

end LicenseAudit
