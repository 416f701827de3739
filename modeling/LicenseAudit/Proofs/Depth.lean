import LicenseAudit.Proofs.Expr.Rendering
import LicenseAudit.Proofs.Review

/-!
# The depth of what is evaluated

The parser and the evaluation count levels on their own, and each of them has an error of its own
for a node that is too deep. The parser counts every step that the evaluation will take, and the
levels of dropped spaces and parentheses besides. So it refuses all texts whose expression would be
too deep to be evaluated, and no check ends with such an error.

Results:
1. `verdict_error`: the errors of a verdict.
2. `parsed_never_too_deep`: nothing that was parsed is too deep to be evaluated.
-/

namespace LicenseAudit.Decisions

theorem verdict_error {d : Decisions} {license : String} {error : CheckError}
    (h : d.verdict license = .error error) :
    (∃ source, Expr.parse license = .error source ∧ error = .parse license source) ∨
      ∃ e name, Expr.parse license = .ok e ∧ error = .unknownLicense license name := by
  rcases d.verdict_cases license with
    ⟨source, hp, hv, -⟩ | ⟨e, b, -, hv, -⟩ | ⟨e, name, rest, hp, hv, -⟩
  · rw [hv] at h
    exact .inl ⟨source, hp, (Except.error.inj h).symm⟩
  · rw [hv] at h
    cases h
  · rw [hv] at h
    exact .inr ⟨e, name, hp, (Except.error.inj h).symm⟩

/-- Every node of a parsed expression lies on a level that the evaluation allows, and the last of
these levels is used. So the evaluation fails only at a name without a value, and neither a verdict
nor a review fails because something was too deep to be evaluated. -/
theorem parsed_never_too_deep :
    (∀ text e, Expr.parse text = .ok e →
        (∀ p node, Expr.at? p e = some node → p.length ≤ Expr.maxDepth) ∧
          ∀ value error, e.eval value = .error error →
            ∃ name ∈ e.names, value name = none ∧ error.fault = .unknownVariable name) ∧
      (∃ text e p node, Expr.parse text = .ok e ∧ Expr.at? p e = some node ∧
        p.length = Expr.maxDepth) ∧
      (∀ (d : Decisions) license text source, d.verdict license ≠ .error (.solve text source)) ∧
      ∀ (d : Decisions) listing text source, d.review listing ≠ .error (.solve text source) := by
  refine ⟨fun text e h => ?_, ?_, fun d license text source hv => ?_,
    fun d listing text source hr => ?_⟩
  · have hheight := Expr.height_le_of_parse h
    exact ⟨fun p node hat => Nat.le_trans (Expr.length_le_height hat) hheight,
      fun value error => Expr.unknown_of_eval_error hheight⟩
  · exact ⟨_, _, _, _, Expr.parse_chain (Nat.le_refl _), Expr.at?_chain Expr.maxDepth,
      List.length_replicate⟩
  · rcases verdict_error hv with ⟨_, -, herror⟩ | ⟨_, _, -, herror⟩ <;> cases herror
  · obtain ⟨_, _, _, -, herror⟩ := parse_error_of_review hr
    cases herror

end LicenseAudit.Decisions
