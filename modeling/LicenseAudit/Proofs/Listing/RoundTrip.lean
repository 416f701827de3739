import LicenseAudit.Proofs.Listing.Records

/-!
# Written listings

A map of dependencies to licenses is written with a line for each dependency. It is read back as it
was if no name has a comma, a line feed or white space at its ends: a comma in a license stays in the
license, and a license may be empty. Lines may end with a carriage return, there may be white space
around a line and around both parts, and there may be blank lines between them.

Texts of whole lines can be put in front of each other. What is read from both is what is read from
the first, with the pairs of the second inserted in order, and lines are counted on.

Results:
1. `entries_of_writes`: what is written has the pairs as its entries.
2. `parse_written`: what is written is read back.
3. `parse_append`: a listing in two parts.
4. `parse_written_and_append`: both laws together.
-/

namespace LicenseAudit.Listing

/-! ## Definitions -/

/-- The pair can stand on a line of its own. -/
structure Writable (dependency license : String) : Prop where
  dependency_ne : dependency ≠ ""
  dependency_trimmed : Text.trimmed dependency = dependency
  dependency_no_comma : ',' ∉ dependency.toList
  dependency_no_feed : '\n' ∉ dependency.toList
  license_trimmed : Text.trimmed license = license
  license_no_feed : '\n' ∉ license.toList

/-- White space within a line. -/
def Padding (cs : List Char) : Prop := Text.allBlank cs = true ∧ '\n' ∉ cs

/-- The text has a line for each of the pairs, in order, with white space around it and around both
parts; between these lines there may be blank ones. -/
inductive Writes : List (String × String) → List Char → Prop
  | nil : Writes [] []
  | blank {line text : List Char} {ps : List (String × String)} : Padding line → Writes ps text →
      Writes ps (line ++ '\n' :: text)
  | entry {dependency license : String} {a b c d text : List Char} {ps : List (String × String)} :
      Padding a → Padding b → Padding c → Padding d → Writes ps text →
      Writes ((dependency, license) :: ps)
        (a ++ dependency.toList ++ b ++ ',' :: (c ++ license.toList ++ d) ++ '\n' :: text)

/-- The text of a listing, with a line for each dependency and this text at the end of each. -/
def written (ending : String) (m : Listing) : String :=
  String.join (m.pairs.map fun p => p.1 ++ "," ++ p.2 ++ ending)

/-- The same fault with more lines before it. -/
def Fault.later (lines : Nat) : Fault → Fault
  | noComma line text => noComma (line + lines) text
  | noDependency line => noDependency (line + lines)

/-! ## Written lines -/

/-- Whether the line is trimmed or not, its first comma divides it. -/
theorem records_of_append {before after : List Char} (hcomma : ',' ∉ before)
    (hne : Text.trim before ≠ []) :
    Records (before ++ ',' :: after) (String.ofList (Text.trim before))
      (String.ofList (Text.trim after)) := by
  refine ⟨Text.dropBlank before, Text.dropBlankEnd after, Text.trim_around rfl before after, ?_, ?_,
    ?_, ?_⟩
  · exact fun h => hcomma ((List.dropWhile_sublist _).subset h)
  · rwa [Text.trim_dropBlank]
  · rw [Text.trim_dropBlank]
  · rw [Text.trim_dropBlankEnd]

theorem records_congr {line line' : List Char} (h : Text.trim line = Text.trim line')
    {dependency license : String} :
    Records line dependency license ↔ Records line' dependency license := by
  rw [Records, Records, h]

theorem Padding.nil : Padding [] := ⟨rfl, List.not_mem_nil⟩

theorem Padding.no_comma {cs : List Char} (h : Padding cs) : ',' ∉ cs := fun hmem =>
  absurd (List.all_eq_true.1 h.1 _ hmem) (by decide)

/-- A line with white space around its two parts records them as they are. -/
theorem Writable.records {dependency license : String} (h : Writable dependency license)
    {a b c d : List Char} (ha : Padding a) (hb : Padding b) (hc : Padding c) (hd : Padding d) :
    Records (a ++ dependency.toList ++ b ++ ',' :: (c ++ license.toList ++ d)) dependency license := by
  have hdep : Text.trim (a ++ dependency.toList ++ b) = dependency.toList :=
    (Text.trim_pad ha.1 hb.1 _).trans (Text.trim_toList_of_trimmed h.dependency_trimmed)
  have hlic : Text.trim (c ++ license.toList ++ d) = license.toList :=
    (Text.trim_pad hc.1 hd.1 _).trans (Text.trim_toList_of_trimmed h.license_trimmed)
  have hcomma : ',' ∉ a ++ dependency.toList ++ b := by
    simp [ha.no_comma, h.dependency_no_comma, hb.no_comma]
  have hne : Text.trim (a ++ dependency.toList ++ b) ≠ [] := by
    rw [hdep]
    exact fun hnil => h.dependency_ne (String.toList_eq_nil_iff.1 hnil)
  have hrecords : Records (a ++ dependency.toList ++ b ++ ',' :: (c ++ license.toList ++ d)) _ _ :=
    records_of_append hcomma hne
  rwa [hdep, hlic, String.ofList_toList, String.ofList_toList] at hrecords

theorem entries_of_writes {ps : List (String × String)} {text : List Char} (h : Writes ps text)
    (hps : ∀ p ∈ ps, Writable p.1 p.2) : Entries (Text.lines text) ps := by
  induction h with
  | nil => exact .nil
  | @blank line text ps hline _ ih =>
    rw [Text.lines_append_feed hline.2]
    exact .blank (by rw [Text.trim_dropReturn, Text.trim_eq_nil_iff, hline.1]) (ih hps)
  | @entry dependency license a b c d text ps ha hb hc hd _ ih =>
    have hp : Writable dependency license := hps _ List.mem_cons_self
    have hfeed : '\n' ∉ a ++ dependency.toList ++ b ++ ',' :: (c ++ license.toList ++ d) := by
      simp [ha.2, hb.2, hc.2, hd.2, hp.dependency_no_feed, hp.license_no_feed]
    rw [Text.lines_append_feed hfeed]
    exact .entry ((records_congr (Text.trim_dropReturn _)).2 (hp.records ha hb hc hd))
      (ih fun p hmem => hps p (List.mem_cons_of_mem _ hmem))

/-- Lines that end in a line feed, with white space before it or not, are a way to write the pairs. -/
theorem writes_written {ending : String} {space : List Char} (hspace : Padding space)
    (hending : ending.toList = space ++ ['\n']) (m : Listing) :
    Writes m.pairs (written ending m).toList := by
  rw [written]
  generalize m.pairs = ps
  induction ps with
  | nil => exact .nil
  | cons p ps ih =>
    have hline : Writes (p :: ps) ([] ++ p.1.toList ++ [] ++ ',' :: ([] ++ p.2.toList ++ space) ++
        '\n' :: _) := .entry .nil .nil .nil hspace ih
    simpa [String.toList_append, hending] using hline

/-- What is written is read back, also with white space added to it. -/
theorem parse_written {m : Listing} (hm : ∀ p ∈ m.pairs, Writable p.1 p.2) :
    parse (written "\n" m) = .ok m ∧ parse (written "\r\n" m) = .ok m ∧
      ∀ text, Writes m.pairs text → parse (String.ofList text) = .ok m := by
  have hread : ∀ text : String, Writes m.pairs text.toList → parse text = .ok m := by
    intro text h
    rw [parse_of_entries (entries_of_writes h hm), Ordered.ofList_pairs]
  have hreturn : Padding ['\r'] := ⟨rfl, by decide⟩
  refine ⟨hread _ (writes_written .nil rfl m), hread _ (writes_written hreturn rfl m),
    fun text h => hread _ ?_⟩
  rwa [String.toList_ofList]

/-! ## Listings in two parts -/

theorem Entries.append {ls ls' : List (List Char)} {ps qs : List (String × String)}
    (h : Entries ls ps) (h' : Entries ls' qs) : Entries (ls ++ ls') (ps ++ qs) := by
  induction h with
  | nil => exact h'
  | blank hblank _ ih => exact .blank hblank ih
  | entry hrecords _ ih => exact .entry hrecords ih

theorem FaultOn.later {number : Nat} {line : List Char} {fault : Fault}
    (h : FaultOn number line fault) (lines : Nat) :
    FaultOn (number + lines) line (fault.later lines) := by
  cases h with
  | lacksComma h hfault _ =>
    subst hfault
    exact .lacksComma h rfl rfl
  | lacksDependency h hfault _ =>
    subst hfault
    exact .lacksDependency h rfl rfl

/-- A listing in two parts, the first of them of whole lines. -/
theorem parse_append {a : String} (ha : Text.WholeLines a.toList) (b : String) :
    parse (a ++ b) =
      match parse a, parse b with
      | .error fault, _ => .error fault
      | .ok _, .error fault => .error (fault.later (a.toList.count '\n'))
      | .ok m, .ok n => .ok (m.insertAll n.pairs) := by
  have hlines : Text.lines (a ++ b).toList = Text.lines a.toList ++ Text.lines b.toList := by
    rw [String.toList_append, Text.lines_append ha]
  obtain ⟨ps, hps⟩ | ⟨before, line, after, ps, hsplit, hps, hline⟩ :=
    entries_or_fault (Text.lines a.toList)
  · rw [parse_of_entries hps]
    obtain ⟨qs, hqs⟩ | ⟨before, line, after, qs, hsplit, hqs, hline⟩ :=
      entries_or_fault (Text.lines b.toList)
    · rw [parse_of_entries hqs, parse_of_entries (hlines ▸ hps.append hqs)]
      simp only [Ordered.insertAll_ofList]
      rw [← Ordered.insertAll_empty, Ordered.insertAll_append, Ordered.insertAll_empty]
    · obtain ⟨fault, hfault⟩ := hline.exists_faultOn (before.length + 1)
      rw [parse_of_fault hsplit hqs hfault]
      rw [hsplit, ← List.append_assoc] at hlines
      refine parse_of_fault hlines (hps.append hqs) ?_
      have := hfault.later (Text.lines a.toList).length
      rwa [← Text.length_lines ha, List.length_append, Nat.add_comm (Text.lines a.toList).length,
        Nat.add_right_comm]
  · obtain ⟨fault, hfault⟩ := hline.exists_faultOn (before.length + 1)
    rw [parse_of_fault hsplit hps hfault]
    rw [hsplit, List.append_assoc, List.cons_append] at hlines
    exact parse_of_fault hlines hps hfault

/-- Listings can be written and read back, and be read in two parts. -/
theorem parse_written_and_append {m : Listing} (hm : ∀ p ∈ m.pairs, Writable p.1 p.2) {a : String}
    (ha : Text.WholeLines a.toList) (b : String) :
    (parse (written "\n" m) = .ok m ∧ parse (written "\r\n" m) = .ok m ∧
        ∀ text, Writes m.pairs text → parse (String.ofList text) = .ok m) ∧
      parse (a ++ b) =
        match parse a, parse b with
        | .error fault, _ => .error fault
        | .ok _, .error fault => .error (fault.later (a.toList.count '\n'))
        | .ok m, .ok n => .ok (m.insertAll n.pairs) :=
  ⟨parse_written hm, parse_append ha b⟩

theorem parse_written_and_append_odd :
    let m : Listing := ⟨[("left\rpad", "Custom, see LICENSE"), ("!", "")], by decide⟩
    (∀ p ∈ m.pairs, Writable p.1 p.2) ∧ Text.WholeLines "a,MIT\r\n\n".toList ∧
      parse (written "\r\n" m) = .ok m ∧
      parse ("a,MIT\r\n\n" ++ "b") = .error (.noComma 3 "b") := by
  intro m
  have hm : ∀ p ∈ m.pairs, Writable p.1 p.2 := by
    intro p hp
    obtain rfl | rfl : p = ("left\rpad", "Custom, see LICENSE") ∨ p = ("!", "") := by
      simpa [m] using hp
    · exact ⟨by decide, by decide, by decide, by decide, by decide, by decide⟩
    · exact ⟨by decide, by decide, by decide, by decide, by decide, by decide⟩
  have ha : Text.WholeLines "a,MIT\r\n\n".toList := .inr rfl
  obtain ⟨⟨-, hreturn, -⟩, happend⟩ := parse_written_and_append hm ha "b"
  exact ⟨hm, ha, hreturn, happend.trans rfl⟩

end LicenseAudit.Listing
