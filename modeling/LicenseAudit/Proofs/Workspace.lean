import LicenseAudit.Workspace

/-!
# What a run finds in its files

The decisions of a run may have no file, or a blank one, and then there are none. A listing is what
its text says, wherever the text comes from.

Results:
1. `loadDecisions_eq_ok_iff`: which decisions are loaded from a path.
2. `readListing_of_text`: which listing is read.
-/

namespace LicenseAudit

namespace FileSystem

/-- A file at this path can be written, whatever is written to it. -/
def CanWrite (fs : FileSystem) (path : String) : Prop :=
  ∀ text, ∃ files, fs.write path text = .ok files

theorem isPresent_of_read {fs : FileSystem} {path content : String}
    (h : fs.read path = .ok content) : fs.isPresent path = true := by
  rw [read] at h
  split at h
  · cases h
  · next loc hloc =>
    split at h
    · next hcontent =>
      simp [isPresent, hloc, hcontent]
    · cases h

end FileSystem

namespace Workspace

/-- The decisions at a path: none if no file is there or if it is blank, or else those that its
mapping denotes. -/
inductive DecisionsAt (w : Workspace) (path : String) : Decisions → Prop
  | missing : w.files.isPresent path = false → DecisionsAt w path .empty
  | blank {content : String} : w.files.read path = .ok content → Text.blank content = true →
      DecisionsAt w path .empty
  | mapping {content : String} {d : Decisions} : w.files.read path = .ok content →
      Text.blank content = false → Decisions.ofYaml? content.toList = some d →
      DecisionsAt w path d

theorem loadDecisions_of_read {w : Workspace} {path content : String}
    (h : w.files.read path = .ok content) {d : Decisions} :
    w.loadDecisions path = .ok d ↔ Decisions.ofFile? content = some d := by
  rw [loadDecisions, if_pos (FileSystem.isPresent_of_read h), readDecisions]
  simp only [h]
  cases Decisions.ofFile? content <;> simp

/-- Loading decisions gives those at the path, and no others. -/
theorem loadDecisions_eq_ok_iff {w : Workspace} {path : String} {d : Decisions} :
    w.loadDecisions path = .ok d ↔ w.DecisionsAt path d := by
  constructor
  · intro h
    by_cases hp : w.files.isPresent path = true
    · cases hread : w.files.read path with
      | error fault =>
        rw [loadDecisions, if_pos hp, readDecisions] at h
        simp only [hread, reduceCtorEq] at h
      | ok content =>
        rw [loadDecisions_of_read hread, Decisions.ofFile?] at h
        by_cases hb : Text.blank content = true
        · rw [if_pos hb] at h
          obtain rfl := Option.some.inj h
          exact .blank hread hb
        · rw [if_neg hb] at h
          exact .mapping hread (Bool.eq_false_iff.2 hb) h
    · rw [loadDecisions, if_neg hp] at h
      obtain rfl := Except.ok.inj h
      exact .missing (Bool.eq_false_iff.2 hp)
  · rintro (hp | ⟨hread, hb⟩ | ⟨hread, hb, hd⟩)
    · rw [loadDecisions, if_neg (Bool.eq_false_iff.1 hp)]
    · rw [loadDecisions_of_read hread, Decisions.ofFile?, if_pos hb]
    · rw [loadDecisions_of_read hread, Decisions.ofFile?, if_neg (Bool.eq_false_iff.1 hb)]
      exact hd

/-- There are no two sets of decisions at one path. -/
theorem DecisionsAt.eq {w : Workspace} {path : String} {d e : Decisions} (hd : w.DecisionsAt path d)
    (he : w.DecisionsAt path e) : d = e := by
  have hload := loadDecisions_eq_ok_iff.2 hd
  rw [loadDecisions_eq_ok_iff.2 he] at hload
  exact (Except.ok.inj hload).symm

theorem readListing_of_text {w : Workspace} {path content : String}
    (h : w.readListingText path = .ok content) {listing : Listing} :
    w.readListing path = .ok listing ↔ Listing.parse content = .ok listing := by
  rw [readListing]
  simp only [h]
  cases Listing.parse content with
  | error fault => constructor <;> intro hl <;> cases hl
  | ok other =>
    constructor
    · intro hl
      rw [Except.ok.inj hl]
    · intro hl
      rw [Except.ok.inj hl]
      rfl

end Workspace

end LicenseAudit
