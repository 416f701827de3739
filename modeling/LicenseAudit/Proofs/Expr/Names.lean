import LicenseAudit.Proofs.Expr.Height
import LicenseAudit.Proofs.Text.Repetitions

/-!
# The names of an expression

The names are collected from left to right, and a literal is left out if it spells a constant or
was collected before. Evaluation asks for the values of just these literals: a constant has its own
value, whatever the names stand for.

Results:
1. `names_eq`: the names are the literals that are no constants, each at its first occurrence.
2. `head?_filter_names`: the first name with some property is the first such literal.
3. `eval_congr`: evaluation depends on the values of the names and on nothing else.
4. `unknown_of_eval_error`: the evaluation of an expression within its levels fails only at a name
   without a value.
-/

namespace LicenseAudit.Expr

/-- The literals that are no constants, from left to right and with repetitions. -/
def named (e : Expr) : List String := e.literals.filter fun text => (boolSpelling? text).isNone

/-! ## Collected names -/

theorem mem_named_iff {e : Expr} {name : String} :
    name ∈ e.named ↔ name ∈ e.literals ∧ boolSpelling? name = none := by
  rw [named, List.mem_filter, Option.isNone_iff_eq_none]

/-- The names seen before are those of a list without its repetitions; what is collected then are
those of the list with the literals of the expression behind it. -/
theorem namesAfter_eraseDups (seen : List String) (e : Expr) :
    namesAfter seen.eraseDups e = (seen ++ e.named).eraseDups := by
  induction e generalizing seen with
  | literal text =>
    unfold namesAfter named literals
    cases hs : boolSpelling? text with
    | some b => simp [hs]
    | none =>
      rw [List.filter_cons_of_pos (by simp [hs]), List.eraseDups_append]
      by_cases hm : text ∈ seen
      · simp [hm, List.removeAll]
      · simp [hm, List.removeAll, List.eraseDups_cons]
  | not e ih => exact ih seen
  | and l r ihl ihr | or l r ihl ihr =>
    rw [namesAfter, ihl, ihr, List.append_assoc]
    unfold named
    rw [literals, List.filter_append]

theorem names_eq (e : Expr) : e.names = e.named.eraseDups :=
  namesAfter_eraseDups [] e

theorem mem_names_iff {e : Expr} {name : String} :
    name ∈ e.names ↔ name ∈ e.literals ∧ boolSpelling? name = none := by
  rw [names_eq, List.mem_eraseDups, mem_named_iff]

/-- No spelling of a constant is a name. -/
theorem notMem_names_of_spelling {e : Expr} {text : String} (h : boolSpelling? text ≠ none) :
    text ∉ e.names :=
  fun hm => h (mem_names_iff.1 hm).2

/-- Filtering the names and filtering the literals leads to the same first name. -/
theorem head?_filter_names (q : String → Bool) (e : Expr) :
    (e.names.filter q).head? =
      (e.literals.filter fun text => (boolSpelling? text).isNone && q text).head? := by
  rw [List.head?_filter, names_eq, find?_eraseDups, named, List.find?_filter, List.head?_filter]
  simp only [Bool.decide_and, Bool.decide_eq_true]

/-! ## Evaluation asks for names only -/

theorem evalAt_congr {v w : String → Option Bool} (levels : Nat) {e : Expr}
    (h : ∀ text ∈ e.literals, boolSpelling? text = none → v text = w text) :
    evalAt v levels e = evalAt w levels e := by
  induction levels generalizing e with
  | zero => rfl
  | succ below ih =>
    cases e with
    | literal text =>
      rw [evalAt, evalAt, literalValue, literalValue]
      cases hs : boolSpelling? text with
      | some b => rfl
      | none => simp only [h text List.mem_cons_self hs]
    | not e =>
      have he : evalAt v below e = evalAt w below e := ih h
      rw [evalAt, evalAt, he]
    | and l r | or l r =>
      have hl := ih fun text ht => h text (List.mem_append_left _ ht)
      have hr := ih fun text ht => h text (List.mem_append_right _ ht)
      rw [evalAt, evalAt, hl, hr]

/-- Values that agree on the names of an expression give it the same value or the same error. -/
theorem eval_congr {v w : String → Option Bool} {e : Expr} (h : ∀ name ∈ e.names, v name = w name) :
    eval v e = eval w e :=
  evalAt_congr (maxDepth + 1) fun text ht hs => h text (mem_names_iff.2 ⟨ht, hs⟩)

/-! ## Errors of an evaluation within its levels -/

theorem mem_names_of_isOpen {value : String → Option Bool} {e : Expr} {text : String}
    (hm : text ∈ e.literals) (h : isOpen value text = true) :
    text ∈ e.names ∧ value text = none := by
  rw [isOpen, Bool.and_eq_true, Option.isNone_iff_eq_none, Option.isNone_iff_eq_none] at h
  exact ⟨mem_names_iff.2 ⟨hm, h.1⟩, h.2⟩

/-- An expression that is not too deep has no value only because of a name that has none. -/
theorem unknown_of_eval_error {value : String → Option Bool} {e : Expr} (hh : e.height ≤ maxDepth)
    {error : EvalError} (h : eval value e = .error error) :
    ∃ name ∈ e.names, value name = none ∧ error.fault = .unknownVariable name := by
  have hfaults := fault_failures value (Nat.lt_succ_of_le hh)
  rw [eval, evalAt_eq_firstOr (completes_getD value)] at h
  cases hfs : failures value (maxDepth + 1) e with
  | nil =>
    rw [hfs] at h
    cases h
  | cons first rest =>
    rw [hfs] at h hfaults
    obtain rfl := Except.error.inj h
    have hmem : first.fault ∈ (e.literals.filter (isOpen value)).map .unknownVariable := by
      rw [← hfaults]
      exact List.mem_cons_self
    obtain ⟨text, htext, hfault⟩ := List.mem_map.1 hmem
    obtain ⟨hm, hopen⟩ := List.mem_filter.1 htext
    obtain ⟨hname, hvalue⟩ := mem_names_of_isOpen hm hopen
    exact ⟨text, hname, hvalue, hfault.symm⟩

end LicenseAudit.Expr
