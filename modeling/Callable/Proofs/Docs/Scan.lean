import Callable.Docs.Scan
import Callable.Proofs.Docs.Line

/-!
What a scan refuses. A line stands under the nearest header above it that opened a section, and after
the other lines of that section. There it is a live header, or one line more of the section. A scan
fails at the first line that is a live header of an unknown section, or that stands among exceptions
and is neither an entry nor continues one; it succeeds if there is no such line. What follows the
line is not looked at.
-/
namespace Callable.Docs

structure Place where
  /-- The nearest line above that opened a section. -/
  header : Option Line := none
  /-- The lines since. -/
  body : List Line := []

def Line.kind? (sections : SectionSet) (line : Line) : Option SectionKind :=
  (header? line.text).bind fun words => sections.get? (String.ofList words)

namespace Place

/-- A line in the form of a header that is indented no deeper than the header it stands under. -/
def IsLiveHeader (place : Place) (line : Line) : Prop :=
  (header? line.text).isSome = true ∧ ∀ above ∈ place.header, line.indent ≤ above.indent

instance (place : Place) (line : Line) : Decidable (place.IsLiveHeader line) :=
  inferInstanceAs (Decidable (_ ∧ _))

/-- The place after a line: that of a new section after a live header that is known. -/
def next (sections : SectionSet) (place : Place) (line : Line) : Place :=
  if place.IsLiveHeader line ∧ (line.kind? sections).isSome = true then ⟨some line, []⟩
  else ⟨place.header, place.body ++ [line]⟩

def after (sections : SectionSet) (place : Place) (lines : List Line) : Place :=
  lines.foldl (next sections) place

/-- The line may not stand here, and the error says why. -/
inductive Refuses (sections : SectionSet) (place : Place) (line : Line) : DocsError → Prop
  | unknown {words : List Char} : place.IsLiveHeader line → header? line.text = some words →
      sections.get? (String.ofList words) = none →
      Refuses sections place line (.unknownSection (String.ofList words) line.number)
  | stray {header : Line} : ¬ place.IsLiveHeader line → place.header = some header →
      header.kind? sections = some .raises → exceptionEntry? line.text = none →
      (∀ above ∈ place.body, exceptionEntry? above.text = none) →
      Refuses sections place line (.entry "Raises" line.number
        ("expected `Name: description`, found `" ++ String.ofList line.text ++ "`"))

/-- None of the lines is refused where it stands. -/
def Passes (sections : SectionSet) (place : Place) (lines : List Line) : Prop :=
  ∀ above line below, lines = above ++ line :: below →
    ∀ e, ¬ (place.after sections above).Refuses sections line e

end Place

section Progress

variable {sections : SectionSet} {p : Progress} {place : Place} {line : Line}

/-- The progress of a scan that has come to a place. An entry can be continued once there was one in
the section. -/
inductive Progress.StandsAt (sections : SectionSet) (p : Progress) : Place → Prop
  | preamble {body : List Line} : p.zone = .preamble → p.StandsAt sections ⟨none, body⟩
  | summary {header : Line} {body : List Line} : p.zone = .summary header.indent →
      header.kind? sections = some .summary → p.StandsAt sections ⟨some header, body⟩
  | body {header : Line} {body : List Line} : p.zone = .body header.indent →
      header.kind? sections ≠ some .raises → p.StandsAt sections ⟨some header, body⟩
  | raises {header : Line} {body : List Line} : p.zone = .raises header.indent none →
      header.kind? sections = some .raises → (∀ above ∈ body, exceptionEntry? above.text = none) →
      p.StandsAt sections ⟨some header, body⟩
  | entry {header entry : Line} {body : List Line} {name description : String} :
      p.zone = .raises header.indent (some name) → header.kind? sections = some .raises →
      p.exceptions.get? name = some description → entry ∈ body →
      exceptionEntry? entry.text ≠ none → p.StandsAt sections ⟨some header, body⟩

/-- All that taking in a line at a place can come to. -/
inductive Verdict (sections : SectionSet) (place : Place) (line : Line) :
    Except DocsError Progress → Prop
  | taken {p : Progress} : p.StandsAt sections (place.next sections line) →
      (∀ e, ¬ place.Refuses sections line e) → Verdict sections place line (.ok p)
  | refused {e : DocsError} : place.Refuses sections line e →
      Verdict sections place line (.error e)

theorem Progress.StandsAt.admits_iff (h : p.StandsAt sections place) (indent : Nat) :
    p.zone.admits indent = true ↔ ∀ above ∈ place.header, indent ≤ above.indent := by
  cases h with
  | preamble hzone | summary hzone | body hzone | raises hzone | entry hzone =>
    simp [hzone, Zone.admits]

theorem Progress.standsAt_open (p : Progress) {header : String} {kind : SectionKind}
    (hkind : line.kind? sections = some kind) :
    (p.open line header kind).StandsAt sections ⟨some line, []⟩ := by
  cases kind with
  | summary => exact StandsAt.summary rfl hkind
  | params => exact StandsAt.body rfl (by simp [hkind])
  | returns => exact StandsAt.body rfl (by simp [hkind])
  | raises => exact StandsAt.raises rfl hkind (by simp)

theorem Place.next_of_not_isLiveHeader (h : ¬ place.IsLiveHeader line) :
    place.next sections line = ⟨place.header, place.body ++ [line]⟩ := by
  unfold Place.next
  rw [if_neg (fun hopens => h hopens.1)]

theorem Place.Refuses.unique {e e' : DocsError} (h : place.Refuses sections line e)
    (h' : place.Refuses sections line e') : e = e' := by
  cases h with
  | unknown hlive hwords hunknown =>
    cases h' with
    | unknown _ hwords' _ =>
      cases hwords.symm.trans hwords'
      rfl
    | stray hnot => exact absurd hlive hnot
  | stray hnot _ _ _ _ =>
    cases h' with
    | unknown hlive => exact absurd hlive hnot
    | stray _ _ _ _ _ => rfl

/-- What is refused and is no live header is a stray line among exceptions. -/
theorem Place.Refuses.isStray {e : DocsError} (h : place.Refuses sections line e)
    (hline : ¬ place.IsLiveHeader line) :
    (∃ header, place.header = some header ∧ header.kind? sections = some .raises) ∧
      exceptionEntry? line.text = none ∧ ∀ above ∈ place.body, exceptionEntry? above.text = none := by
  cases h with
  | unknown hlive => exact absurd hlive hline
  | stray _ hheader hkind hentry hbody => exact ⟨⟨_, hheader, hkind⟩, hentry, hbody⟩

theorem Place.not_refuses_of_kind {header : Line} {body : List Line}
    (hline : ¬ (⟨some header, body⟩ : Place).IsLiveHeader line)
    (hkind : header.kind? sections ≠ some .raises) (e : DocsError) :
    ¬ (⟨some header, body⟩ : Place).Refuses sections line e := by
  intro hrefuses
  obtain ⟨⟨_, hheader, hraises⟩, -, -⟩ := hrefuses.isStray hline
  cases hheader
  exact hkind hraises

theorem Progress.verdict_entry {header : Line} {body : List Line}
    {name description : List Char} (hkind : header.kind? sections = some .raises)
    (hline : ¬ (⟨some header, body⟩ : Place).IsLiveHeader line)
    (hentry : exceptionEntry? line.text = some (name, description)) :
    Verdict sections ⟨some header, body⟩ line (.ok { p with
      zone := .raises header.indent (some (String.ofList name))
      exceptions := p.exceptions.put (String.ofList name) (String.ofList description) }) := by
  have hget : (p.exceptions.put (String.ofList name) (String.ofList description)).get?
      (String.ofList name) = some (String.ofList description) := by
    rw [Table.get?_put, if_pos rfl]
  refine Verdict.taken ?_ ?_
  · rw [Place.next_of_not_isLiveHeader hline]
    exact StandsAt.entry rfl hkind hget (List.mem_append_right _ List.mem_cons_self)
      (by simp [hentry])
  · intro e hrefuses
    obtain ⟨-, hstray, -⟩ := hrefuses.isStray hline
    cases hentry.symm.trans hstray

/-- A line that is no live header is added to its section, or is a stray line among exceptions. -/
theorem Progress.StandsAt.verdict_add (h : p.StandsAt sections place)
    (hline : ¬ place.IsLiveHeader line) : Verdict sections place line (p.add line) := by
  have hnext : place.next sections line = ⟨place.header, place.body ++ [line]⟩ :=
    Place.next_of_not_isLiveHeader hline
  unfold Progress.add
  cases h with
  | preamble hzone =>
    rw [hzone]
    refine Verdict.taken ?_ ?_
    · rw [hnext]
      exact StandsAt.preamble rfl
    · intro e hrefuses
      obtain ⟨⟨_, hheader, -⟩, -, -⟩ := hrefuses.isStray hline
      cases hheader
  | summary hzone hkind =>
    rw [hzone]
    refine Verdict.taken ?_ (Place.not_refuses_of_kind hline (by simp [hkind]))
    rw [hnext]
    exact StandsAt.summary rfl hkind
  | body hzone hkind =>
    rw [hzone]
    refine Verdict.taken ?_ (Place.not_refuses_of_kind hline hkind)
    rw [hnext]
    exact StandsAt.body rfl hkind
  | raises hzone hkind hbody =>
    rw [hzone]
    cases hentry : exceptionEntry? line.text with
    | some found => exact Progress.verdict_entry hkind hline hentry
    | none => exact Verdict.refused (Place.Refuses.stray hline rfl hkind hentry hbody)
  | @entry header entry body name description hzone hkind hget hmem hopen =>
    rw [hzone]
    cases hentry : exceptionEntry? line.text with
    | some found => exact Progress.verdict_entry hkind hline hentry
    | none =>
      simp only [Option.bind_some, hget, Option.map_some]
      have hput : (p.exceptions.put name (extend description (String.ofList line.text))).get? name =
          some (extend description (String.ofList line.text)) := by
        rw [Table.get?_put, if_pos rfl]
      refine Verdict.taken ?_ ?_
      · rw [hnext]
        exact StandsAt.entry rfl hkind hput (List.mem_append_left _ hmem) hopen
      · intro e hrefuses
        obtain ⟨-, -, hbody⟩ := hrefuses.isStray hline
        exact hopen (hbody entry hmem)

theorem Progress.StandsAt.verdict_step (h : p.StandsAt sections place) (line : Line) :
    Verdict sections place line (p.step sections line).outcome := by
  unfold Progress.step
  cases hwords : header? line.text with
  | none =>
    have hline : ¬ place.IsLiveHeader line := by
      intro hlive
      simp [Place.IsLiveHeader, hwords] at hlive
    exact h.verdict_add hline
  | some words =>
    have hadmits := h.admits_iff line.indent
    by_cases hdeep : p.zone.admits line.indent = true
    · have hlive : place.IsLiveHeader line := ⟨by rw [hwords]; rfl, hadmits.mp hdeep⟩
      simp only [hdeep, if_true]
      cases hkind : sections.get? (String.ofList words) with
      | none => exact Verdict.refused (Place.Refuses.unknown hlive hwords hkind)
      | some kind =>
        have hopens : line.kind? sections = some kind := by
          rw [Line.kind?, hwords, Option.bind_some, hkind]
        refine Verdict.taken ?_ ?_
        · unfold Place.next
          rw [if_pos ⟨hlive, by rw [hopens]; rfl⟩]
          exact p.standsAt_open hopens
        · intro e hrefuses
          cases hrefuses with
          | unknown _ hwords' hunknown =>
            cases hwords.symm.trans hwords'
            cases hkind.symm.trans hunknown
          | stray hnot => exact hnot hlive
    · have hline : ¬ place.IsLiveHeader line := fun hlive => hdeep (hadmits.mpr hlive.2)
      simp only [hdeep]
      exact h.verdict_add hline

end Progress

section Run

variable {sections : SectionSet}

namespace Place

theorem passes_nil (place : Place) : place.Passes sections [] := by
  intro above line below h
  cases above <;> cases h

theorem passes_cons_iff (place : Place) (line : Line) (rest : List Line) :
    place.Passes sections (line :: rest) ↔
      (∀ e, ¬ place.Refuses sections line e) ∧ (place.next sections line).Passes sections rest := by
  constructor
  · intro h
    refine ⟨h [] line rest rfl, ?_⟩
    intro above other below heq
    exact h (line :: above) other below (by rw [heq, List.cons_append])
  · intro h
    obtain ⟨hfirst, hrest⟩ := h
    intro above other below heq
    cases above with
    | nil =>
      obtain ⟨rfl, -⟩ := List.cons.inj heq
      exact hfirst
    | cons first above =>
      obtain ⟨rfl, htail⟩ := List.cons.inj heq
      exact hrest above other below htail

/-- Lines pass, or there is a first one that is refused. -/
theorem passes_or_refuses (sections : SectionSet) (place : Place) (lines : List Line) :
    place.Passes sections lines ∨ ∃ above line below e, lines = above ++ line :: below ∧
      place.Passes sections above ∧ (place.after sections above).Refuses sections line e := by
  induction lines generalizing place with
  | nil => exact Or.inl place.passes_nil
  | cons line rest ih =>
    by_cases hline : ∃ e, place.Refuses sections line e
    · obtain ⟨e, hrefuses⟩ := hline
      exact Or.inr ⟨[], line, rest, e, rfl, place.passes_nil, hrefuses⟩
    · have hfirst : ∀ e, ¬ place.Refuses sections line e := not_exists.mp hline
      rcases ih (place.next sections line) with hrest | ⟨above, other, below, e, rfl, habove, hother⟩
      · exact Or.inl ((place.passes_cons_iff line rest).mpr ⟨hfirst, hrest⟩)
      · exact Or.inr ⟨line :: above, other, below, e, rfl,
          (place.passes_cons_iff line above).mpr ⟨hfirst, habove⟩, hother⟩

end Place

theorem Progress.run_append (p : Progress) (lines more : List Line) :
    (p.run sections (lines ++ more)).outcome =
      (p.run sections lines).outcome >>= fun p' => (p'.run sections more).outcome := by
  induction lines generalizing p with
  | nil => rfl
  | cons line rest ih =>
    rw [List.cons_append, Progress.run, Progress.run, Logged.outcome_bind, Logged.outcome_bind]
    cases (p.step sections line).outcome with
    | error e => rfl
    | ok p' => exact ih p'

/-- A run over lines that pass comes to the place after them. -/
theorem Progress.StandsAt.run_of_passes {p : Progress} {place : Place} {lines : List Line}
    (h : p.StandsAt sections place) (hlines : place.Passes sections lines) :
    ∃ p', (p.run sections lines).outcome = .ok p' ∧
      p'.StandsAt sections (place.after sections lines) := by
  induction lines generalizing p place with
  | nil => exact ⟨p, rfl, h⟩
  | cons line rest ih =>
    obtain ⟨hfirst, hrest⟩ := (place.passes_cons_iff line rest).mp hlines
    have hverdict := h.verdict_step line
    rw [Progress.run, Logged.outcome_bind]
    cases houtcome : (p.step sections line).outcome with
    | error e =>
      rw [houtcome] at hverdict
      cases hverdict with
      | refused hrefuses => exact absurd hrefuses (hfirst e)
    | ok p' =>
      rw [houtcome] at hverdict
      cases hverdict with
      | taken hstands => exact ih hstands hrest

theorem Progress.StandsAt.run_of_refuses {p : Progress} {place : Place} {above below : List Line}
    {line : Line} {e : DocsError} (h : p.StandsAt sections place)
    (habove : place.Passes sections above)
    (hline : (place.after sections above).Refuses sections line e) :
    (p.run sections (above ++ line :: below)).outcome = .error e := by
  obtain ⟨p', hrun, hstands⟩ := h.run_of_passes habove
  have hverdict := hstands.verdict_step line
  have hstep : (p'.step sections line).outcome = .error e := by
    cases houtcome : (p'.step sections line).outcome with
    | ok taken =>
      rw [houtcome] at hverdict
      cases hverdict with
      | taken _ hpasses => exact absurd hline (hpasses e)
    | error e' =>
      rw [houtcome] at hverdict
      cases hverdict with
      | refused hrefuses => rw [hrefuses.unique hline]
  rw [Progress.run_append, hrun]
  change (p'.run sections (line :: below)).outcome = .error e
  rw [Progress.run, Logged.outcome_bind, hstep]
  rfl

end Run

theorem scan_eq_error_iff_run (sections : SectionSet) (docstring : String) (e : DocsError) :
    (scan sections docstring).outcome = .error e ↔
      (Progress.run sections {} (textLines docstring)).outcome = .error e := by
  unfold scan
  rw [Logged.outcome_bind]
  cases (Progress.run sections {} (textLines docstring)).outcome with
  | ok p => exact iff_of_false (fun h => by cases h) (fun h => by cases h)
  | error e' =>
    constructor
    · rintro ⟨⟩
      rfl
    · rintro ⟨⟩
      rfl

theorem standsAt_start (sections : SectionSet) : Progress.StandsAt sections {} {} :=
  Progress.StandsAt.preamble rfl

theorem exists_scan_of_passes {sections : SectionSet} {docstring : String}
    (h : Place.Passes sections {} (textLines docstring)) :
    ∃ found, (scan sections docstring).outcome = .ok found := by
  obtain ⟨p, hrun, -⟩ := (standsAt_start sections).run_of_passes h
  refine ⟨p.scan, ?_⟩
  unfold scan
  rw [Logged.outcome_bind, hrun]
  rfl

theorem scan_of_refuses {sections : SectionSet} {docstring : String} {above below : List Line}
    {line : Line} {e : DocsError} (hlines : textLines docstring = above ++ line :: below)
    (habove : Place.Passes sections {} above)
    (hline : (Place.after sections {} above).Refuses sections line e) :
    (scan sections docstring).outcome = .error e := by
  rw [scan_eq_error_iff_run, hlines]
  exact (standsAt_start sections).run_of_refuses habove hline

/-- An error of a scan is the reason for which some line is refused, the first one that is. -/
theorem exists_refuses_of_scan {sections : SectionSet} {docstring : String} {e : DocsError}
    (h : (scan sections docstring).outcome = .error e) :
    ∃ above line below, textLines docstring = above ++ line :: below ∧
      Place.Passes sections {} above ∧ (Place.after sections {} above).Refuses sections line e := by
  rcases Place.passes_or_refuses sections {} (textLines docstring) with
    hpasses | ⟨above, line, below, e', hlines, habove, hline⟩
  · obtain ⟨found, hfound⟩ := exists_scan_of_passes hpasses
    cases h.symm.trans hfound
  · have hscan := scan_of_refuses hlines habove hline
    cases h.symm.trans hscan
    exact ⟨above, line, below, hlines, habove, hline⟩

/-- A docstring is refused at its first line that is refused where it stands, for the reason it is
refused there, and scanned if it has no such line. What is refused stays so, for the same reason,
whatever follows it. -/
theorem scan_refuses_first (sections : SectionSet) (docstring : String) :
    (∀ e, (scan sections docstring).outcome = .error e ↔
      ∃ above line below, textLines docstring = above ++ line :: below ∧
        Place.Passes sections {} above ∧ (Place.after sections {} above).Refuses sections line e) ∧
    ((∃ found, (scan sections docstring).outcome = .ok found) ↔
      Place.Passes sections {} (textLines docstring)) ∧
    ∀ e more, (scan sections docstring).outcome = .error e →
      (scan sections (docstring ++ "\n" ++ more)).outcome = .error e := by
  refine ⟨fun e => ⟨exists_refuses_of_scan, ?_⟩, ⟨?_, exists_scan_of_passes⟩, ?_⟩
  · intro h
    obtain ⟨above, line, below, hlines, habove, hline⟩ := h
    exact scan_of_refuses hlines habove hline
  · intro h
    obtain ⟨found, hfound⟩ := h
    rcases Place.passes_or_refuses sections {} (textLines docstring) with
      hpasses | ⟨above, line, below, e, hlines, habove, hline⟩
    · exact hpasses
    · cases hfound.symm.trans (scan_of_refuses hlines habove hline)
  · intro e more h
    obtain ⟨above, line, below, hlines, habove, hline⟩ := exists_refuses_of_scan h
    obtain ⟨tail, htail⟩ := textLines_append_newline docstring more
    have hlonger : textLines (docstring ++ "\n" ++ more) = above ++ line :: (below ++ tail) := by
      rw [htail, hlines, List.append_assoc, List.cons_append]
    exact scan_of_refuses hlonger habove hline

/-- A header that is indented deeper goes on as text, one that is not is refused. -/
example : (scan .standard "Raises:\n  errors.Bad: No value.\n  See Also:\nSee Also:").outcome =
    .error (.unknownSection "See Also" 4) := by
  decide +kernel

end Callable.Docs
