import LicenseAudit.Proofs.Recording

/-!
# Deciding unknown licenses

A check names the unknown licenses of its report and asks for decisions on them. A license of a
report is a whole expression, while a decision is on a name. So a decision on an unknown license
helps if that license is a name, and a decision on an expression of several names is on none of
them.

Results:
1. `review_recordAll`: which licenses are unknown after some decisions were recorded.
2. `resolved_iff`: which decisions leave no license unknown.
3. `hint_resolves_iff`: when decisions on the unknown licenses themselves do.
4. `hint_compound`: an unknown license that a decision on it does not settle.
-/

namespace LicenseAudit.Decisions

/-! ## Unknown licenses -/

/-- After some decisions the unknown licenses are those that were unknown before and have an
undecided name on which no decision was recorded. -/
theorem review_recordAll {d : Decisions} {listing : Listing} {r : Report}
    (h : d.review listing = .ok r) (ps : List (String × Bool)) :
    ∃ r', (d.recordAll ps).review listing = .ok r' ∧
      ∀ license, license ∈ r'.unknown.keys ↔
        license ∈ r.unknown.keys ∧ ∃ names, d.undecided license = .ok names ∧
          ∃ name ∈ names, name ∉ ps.map Prod.fst := by
  have hread := readable_of_review h
  obtain ⟨r', hr', hreviewed'⟩ := (d.recordAll ps).exists_review hread
  refine ⟨r', hr', fun license => ?_⟩
  rw [show r'.unknown = r'.groups .unknown from rfl, hreviewed'.mem_keys_iff,
    show r.unknown = r.groups .unknown from rfl, (reviewed_of_review h).mem_keys_iff, and_assoc]
  refine and_congr_right fun hmem => ?_
  obtain ⟨p, hp, rfl⟩ := List.mem_map.1 hmem
  obtain ⟨e, he⟩ := hread p hp
  have hu := d.undecided_of_parse he
  rw [fate?_unknown_iff_undecided (undecided_recordAll hu ps), fate?_unknown_iff_undecided hu, hu]
  constructor
  · rintro ⟨name, hname⟩
    obtain ⟨hname, hno⟩ := List.mem_filter.1 hname
    exact ⟨⟨name, hname⟩, _, rfl, name, hname, of_decide_eq_true hno⟩
  · rintro ⟨-, names, hnames, name, hname, hno⟩
    obtain rfl := Except.ok.inj hnames
    exact ⟨name, List.mem_filter.2 ⟨hname, decide_eq_true hno⟩⟩

/-- No license stays unknown if decisions are recorded on all undecided names of the unknown ones,
and only then. -/
theorem resolved_iff {d : Decisions} {listing : Listing} {r : Report}
    (h : d.review listing = .ok r) (ps : List (String × Bool)) :
    ∃ r', (d.recordAll ps).review listing = .ok r' ∧
      (r'.unknown.isEmpty = true ↔ ∀ license ∈ r.unknown.keys, ∀ names,
        d.undecided license = .ok names → ∀ name ∈ names, name ∈ ps.map Prod.fst) := by
  obtain ⟨r', hr', hkeys⟩ := review_recordAll h ps
  refine ⟨r', hr', ?_⟩
  rw [Ordered.isEmpty_iff]
  constructor
  · intro hempty license hlicense names hnames name hname
    by_contra hno
    exact hempty license ((hkeys license).2 ⟨hlicense, names, hnames, name, hname, hno⟩)
  · intro hall license hmem
    obtain ⟨hlicense, names, hnames, name, hname, hno⟩ := (hkeys license).1 hmem
    exact hno (hall license hlicense names hnames name hname)

theorem undecided_of_name {d : Decisions} {license name : String} {names : List String}
    (hparse : Expr.parse license = .ok (.literal license)) (h : d.undecided license = .ok names)
    (hname : name ∈ names) : name = license := by
  rw [d.undecided_of_parse hparse] at h
  obtain rfl := Except.ok.inj h
  have hmem : name ∈ (Expr.literal license).names := (List.mem_filter.1 hname).1
  simp only [Expr.names, Expr.namesAfter] at hmem
  split at hmem
  · cases hmem
  · simpa using hmem

/-! ## Decisions on the unknown licenses themselves -/

/-- Decisions on all unknown licenses of a report leave none unknown if their undecided names are
among them, and only then. This is so if all unknown licenses are names. -/
theorem hint_resolves_iff {d : Decisions} {listing : Listing} {r : Report}
    (h : d.review listing = .ok r) (ps : List (String × Bool))
    (hps : ∀ license, license ∈ ps.map Prod.fst ↔ license ∈ r.unknown.keys) :
    ∃ r', (d.recordAll ps).review listing = .ok r' ∧
      (r'.unknown.isEmpty = true ↔ ∀ license ∈ r.unknown.keys, ∀ names,
        d.undecided license = .ok names → ∀ name ∈ names, name ∈ r.unknown.keys) ∧
      ((∀ license ∈ r.unknown.keys, Expr.parse license = .ok (.literal license)) →
        r'.unknown.isEmpty = true) := by
  obtain ⟨r', hr', hiff⟩ := resolved_iff h ps
  simp only [hps] at hiff
  refine ⟨r', hr', hiff, fun hnames => hiff.2 fun license hlicense names hu name hname => ?_⟩
  rw [undecided_of_name (hnames license hlicense) hu hname]
  exact hlicense

/-- A compound license does no harm if its names are unknown licenses too. -/
theorem hint_covered :
    let listing : Listing := ⟨[("app", "MIT"), ("lib", "ISC && MIT"), ("tool", "ISC")], by decide⟩
    let decided := [("MIT", true), ("ISC && MIT", false), ("ISC", false)]
    ∃ r r', empty.review listing = .ok r ∧
      (∀ license, license ∈ decided.map Prod.fst ↔ license ∈ r.unknown.keys) ∧
      (empty.recordAll decided).review listing = .ok r' ∧ r'.unknown.isEmpty = true := by
  intro listing decided
  let unknown : Groups := .ofList [("MIT", ["app"]), ("ISC && MIT", ["lib"]), ("ISC", ["tool"])]
  have hreview : empty.review listing = .ok ⟨.empty, .empty, unknown⟩ := rfl
  have hdecided : ∀ license, license ∈ decided.map Prod.fst ↔
      license ∈ ["MIT", "ISC && MIT", "ISC"] := fun _ => Iff.rfl
  obtain ⟨r', hr', hiff, -⟩ := hint_resolves_iff hreview decided hdecided
  refine ⟨_, r', hreview, hdecided, hr', hiff.2 fun license hlicense names hnames name hname => ?_⟩
  change license ∈ ["MIT", "ISC && MIT", "ISC"] at hlicense
  change name ∈ ["MIT", "ISC && MIT", "ISC"]
  simp only [List.mem_cons, List.not_mem_nil, or_false] at hlicense
  rcases hlicense with rfl | rfl | rfl
  all_goals
    obtain rfl := Except.ok.inj hnames
    revert name
    decide

/-- The decision on a compound license stays without effect: nothing looks it up. -/
theorem hint_compound :
    let listing : Listing := ⟨[("app", "MIT && ISC")], by decide⟩
    ∃ r r', empty.review listing = .ok r ∧ r.unknown.keys = ["MIT && ISC"] ∧
      (empty.record "MIT && ISC" true).review listing = .ok r' ∧
      r'.unknown.keys = ["MIT && ISC"] :=
  ⟨_, _, rfl, rfl, rfl, rfl⟩

end LicenseAudit.Decisions
