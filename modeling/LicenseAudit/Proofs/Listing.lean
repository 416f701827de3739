import LicenseAudit.Listing
import Mathlib.Data.List.TakeWhile
import Mathlib.Tactic.Tauto

/-!
# What a listing says

A line records a dependency with its license if it has a comma, with something other than white
space before the first one. The lines of a listing are read one after another, so that a dependency
on several lines has the license of the last of them. A listing that can be read says nothing else.

Results:
1. `readEntry_trim_iff`: which lines are read, and as which entries.
2. `find?_readFrom`: what some lines add to a listing.
3. `find?_parse`: a dependency has the license of its last line.
4. `mem_pairs_parse`: the pairs of a listing are the dependencies with those licenses.
-/

namespace LicenseAudit

namespace Ordered

variable {β : Type}

theorem mem_of_lookup {key : String} {value : β} {ps : List (String × β)}
    (h : lookup key ps = some value) : (key, value) ∈ ps := by
  induction ps with
  | nil => cases h
  | cons p ps ih =>
    rw [lookup] at h
    split at h
    · next heq =>
      obtain rfl := Option.some.inj h
      exact heq ▸ List.mem_cons_self
    · exact List.mem_cons_of_mem _ (ih h)

theorem lookup_of_mem {key : String} {value : β} {ps : List (String × β)}
    (hn : (ps.map Prod.fst).Nodup) (h : (key, value) ∈ ps) : lookup key ps = some value := by
  induction ps with
  | nil => cases h
  | cons p ps ih =>
    obtain ⟨hp, hps⟩ := List.nodup_cons.1 hn
    rcases List.mem_cons.1 h with rfl | h
    · rw [lookup, if_pos rfl]
    · have hne : p.1 ≠ key := fun heq => hp (heq ▸ List.mem_map_of_mem h)
      rw [lookup, if_neg hne, ih hps h]

/-- The pairs of a map are what its look-ups find. -/
theorem mem_pairs_iff {m : Ordered β} {key : String} {value : β} :
    (key, value) ∈ m.pairs ↔ m.find? key = some value :=
  ⟨lookup_of_mem m.distinct, mem_of_lookup⟩

theorem find?_insert_eq_some_iff {m : Ordered β} {key other : String} {value v : β} :
    (m.insert key value).find? other = some v ↔
      other = key ∧ v = value ∨ other ≠ key ∧ m.find? other = some v := by
  by_cases h : other = key
  · subst h
    simp [find?_insert_self, eq_comm]
  · simp [m.find?_insert_of_ne h, h]

end Ordered

namespace Listing

/-! ## Lines and entries -/

/-- The line has an entry: the text before its first comma names the dependency, and all the text
behind it is the license. White space around the line and around both parts does not count. -/
def Records (line : List Char) (dependency license : String) : Prop :=
  ∃ before after, Text.trim line = before ++ ',' :: after ∧ ',' ∉ before ∧
    Text.trim before ≠ [] ∧ dependency = String.ofList (Text.trim before) ∧
    license = String.ofList (Text.trim after)

/-- The last one of the lines with an entry for the dependency gives it this license. -/
def Last (lines : List (List Char)) (dependency license : String) : Prop :=
  ∃ before line after, lines = before ++ line :: after ∧ Records line dependency license ∧
    ∀ later ∈ after, ∀ other, ¬ Records later dependency other

theorem readEntry_append {before : List Char} (h : ',' ∉ before) (line : Nat)
    (after : List Char) :
    readEntry line (before ++ ',' :: after) =
      if Text.trim before = [] then .error (.noDependency line)
      else .ok (String.ofList (Text.trim before), String.ofList (Text.trim after)) := by
  have hpos : ∀ c ∈ before, decide (c ≠ ',') = true := fun c hc =>
    decide_eq_true fun heq => h (heq ▸ hc)
  rw [readEntry, List.dropWhile_append_of_pos hpos, List.takeWhile_append_of_pos hpos]
  simp only [ne_eq, not_true_eq_false, decide_false, Bool.false_eq_true, not_false_eq_true,
    List.dropWhile_cons_of_neg, List.takeWhile_cons_of_neg, List.append_nil]
  split
  · next hnil => rw [if_pos hnil]
  · next hne => rw [if_neg hne]

theorem readEntry_of_notMem {text : List Char} (h : ',' ∉ text) (line : Nat) :
    readEntry line text = .error (.noComma line (String.ofList text)) := by
  have hnil : text.dropWhile (· ≠ ',') = [] :=
    List.dropWhile_eq_nil_iff.2 fun c hc => decide_eq_true fun heq => h (heq ▸ hc)
  rw [readEntry, hnil]

/-- A line is read as the entry that it has. -/
theorem readEntry_trim_iff (line : Nat) {text : List Char} {dependency license : String} :
    readEntry line (Text.trim text) = .ok (dependency, license) ↔
      Records text dependency license := by
  constructor
  · intro h
    by_cases hcomma : ',' ∈ Text.trim text
    · obtain ⟨before, after, hsplit, hbefore⟩ := List.eq_append_cons_of_mem hcomma
      rw [hsplit, readEntry_append hbefore] at h
      split at h
      · cases h
      · next hne =>
        obtain ⟨rfl, rfl⟩ := Prod.mk.inj (Except.ok.inj h)
        exact ⟨before, after, hsplit, hbefore, hne, rfl, rfl⟩
    · rw [readEntry_of_notMem hcomma] at h
      cases h
  · rintro ⟨before, after, hsplit, hbefore, hne, rfl, rfl⟩
    rw [hsplit, readEntry_append hbefore, if_neg hne]

theorem not_records_of_blank {line : List Char} (h : Text.trim line = [])
    (dependency license : String) : ¬ Records line dependency license := by
  rintro ⟨before, after, hsplit, -⟩
  rw [h] at hsplit
  exact List.append_ne_nil_of_right_ne_nil _ (List.cons_ne_nil _ _) hsplit.symm

/-- A line has one entry at most. -/
theorem Records.iff_eq {line : List Char} {dependency license : String}
    (h : Records line dependency license) (other otherLicense : String) :
    Records line other otherLicense ↔ other = dependency ∧ otherLicense = license := by
  constructor
  · intro h'
    have hread := (readEntry_trim_iff 1).2 h
    rw [(readEntry_trim_iff 1).2 h'] at hread
    exact Prod.mk.inj (Except.ok.inj hread)
  · rintro ⟨rfl, rfl⟩
    exact h

/-! ## All lines -/

theorem last_cons_iff {line : List Char} {rest : List (List Char)} {dependency license : String} :
    Last (line :: rest) dependency license ↔
      Last rest dependency license ∨ Records line dependency license ∧
        ∀ later ∈ rest, ∀ other, ¬ Records later dependency other := by
  constructor
  · rintro ⟨before, last, after, hsplit, hlast, hno⟩
    rcases List.cons_eq_append_iff.1 hsplit with ⟨rfl, heq⟩ | ⟨before', rfl, rfl⟩
    · obtain ⟨rfl, rfl⟩ := List.cons.inj heq
      exact .inr ⟨hlast, hno⟩
    · exact .inl ⟨before', last, after, rfl, hlast, hno⟩
  · rintro (⟨before, last, after, rfl, hlast, hno⟩ | ⟨hline, hno⟩)
    · exact ⟨line :: before, last, after, rfl, hlast, hno⟩
    · exact ⟨[], line, rest, rfl, hline, hno⟩

/-- After some lines a dependency has the license of the last one of them that has an entry for it,
or else the license from before. -/
theorem find?_readFrom {number : Nat} {m listing : Listing} {lines : List (List Char)}
    (h : readFrom number m lines = .ok listing) (dependency license : String) :
    listing.find? dependency = some license ↔
      Last lines dependency license ∨
        (∀ line ∈ lines, ∀ other, ¬ Records line dependency other) ∧
          m.find? dependency = some license := by
  induction lines generalizing number m with
  | nil =>
    obtain rfl := Except.ok.inj h
    simp [Last]
  | cons line rest ih =>
    rw [readFrom] at h
    split at h
    · next hblank =>
      have hnone := not_records_of_blank hblank
      simp [ih h, last_cons_iff, hnone]
    · split at h
      · cases h
      · next key value hread =>
        -- The entry of this line holds for its own dependency, until a later line has one.
        have hline := ((readEntry_trim_iff _).1 hread).iff_eq dependency
        have hother : (∀ other, ¬ Records line dependency other) ↔ dependency ≠ key := by
          simp [hline]
        rw [ih h, last_cons_iff, Ordered.find?_insert_eq_some_iff, List.forall_mem_cons, hline,
          hother]
        tauto

/-- A dependency has the license of its last line. -/
theorem find?_parse {content : String} {listing : Listing} (h : parse content = .ok listing)
    (dependency license : String) :
    listing.find? dependency = some license ↔
      Last (Text.lines content.toList) dependency license := by
  rw [find?_readFrom h]
  simp [Ordered.find?, Ordered.empty, Ordered.lookup]

/-- A listing pairs every dependency with the license of its last line. -/
theorem mem_pairs_parse {content : String} {listing : Listing} (h : parse content = .ok listing)
    (dependency license : String) :
    (dependency, license) ∈ listing.pairs ↔
      Last (Text.lines content.toList) dependency license := by
  rw [← find?_parse h]
  exact Ordered.mem_pairs_iff

end Listing

end LicenseAudit
