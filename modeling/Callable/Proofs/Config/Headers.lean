import Callable.Config.Basic
import Callable.Proofs.Docs.Title
import Callable.Proofs.Json.Tidy

/-!
Headers that can be set and headers that can be seen. A configuration takes a header among its sections
exactly if a line of that header and a colon opens a section under it. Settings and scans each guard
titles in their own way, but the guards take nothing away from them.
-/
namespace Callable

theorem isSettableHeader_eq (header : String) :
    isSettableHeader header = Docs.isTitle header.toList := by
  unfold isSettableHeader
  by_cases htitle : Docs.isTitle header.toList = true
  · have hne : header ≠ "" := by
      rintro rfl
      exact (Docs.lettered_of_isTitle htitle).ne_nil rfl
    rw [htitle, Bool.and_true]
    exact decide_eq_true hne
  · rw [(Bool.not_eq_true _).mp htitle, Bool.and_false]

theorem Table.mem_put {α : Type} (table : Table α) (name : String) (value : α) :
    (name, value) ∈ table.put name value := by
  refine mem_of_lookup ((Table.get?_put name value table name).trans ?_)
  rw [if_pos rfl]

/-- Settings with sections pass exactly if all headers are titles; else one that is none is told. -/
theorem DocstringSettings.check_cases {s : DocstringSettings} (hne : s.sections ≠ []) :
    (s.check = .ok () ∧ ∀ entry ∈ s.sections, Docs.isTitle entry.1.toList = true) ∨
      ∃ entry ∈ s.sections, Docs.isTitle entry.1.toList = false ∧
        s.check = .error (.badHeader entry.1) := by
  have hempty : s.sections.isEmpty = false := by
    rw [← Bool.not_eq_true, List.isEmpty_iff]
    exact hne
  unfold DocstringSettings.check
  rw [hempty, Bool.and_false]
  cases hfind : s.sections.find? fun entry => !isSettableHeader entry.1 with
  | none =>
    refine Or.inl ⟨rfl, fun entry hentry => ?_⟩
    have hsettable := List.find?_eq_none.mp hfind entry hentry
    rw [← isSettableHeader_eq]
    simpa using hsettable
  | some entry =>
    refine Or.inr ⟨entry, List.mem_of_find?_eq_some hfind, ?_, rfl⟩
    have hsettable := List.find?_some hfind
    rw [← isSettableHeader_eq]
    simpa using hsettable

namespace Config

def withHeader (c : Config) (header : String) (kind : SectionKind) : Config :=
  { c with docstrings := { c.docstrings with sections := c.docstrings.sections.put header kind } }

/-- The only fault that another header can bring is its own. -/
theorem check_withHeader_cases {c : Config} (hreferences : c.references.check = .ok ())
    (hdocstrings : c.docstrings.sections = [] ∨ c.docstrings.check = .ok ()) (header : String)
    (kind : SectionKind) :
    ((c.withHeader header kind).check = .ok () ∧ Docs.isTitle header.toList = true) ∨
      ((c.withHeader header kind).check = .error (.badHeader header) ∧
        Docs.isTitle header.toList = false) := by
  have hothers : ∀ entry ∈ c.docstrings.sections, Docs.isTitle entry.1.toList = true := by
    by_cases hnone : c.docstrings.sections = []
    · rw [hnone]
      exact List.forall_mem_nil _
    · have hpassed := hdocstrings.resolve_left hnone
      rcases DocstringSettings.check_cases hnone with ⟨-, hall⟩ | ⟨entry, -, -, hfailed⟩
      · exact hall
      · cases hpassed.symm.trans hfailed
  have hmem := c.docstrings.sections.mem_put header kind
  have hcheck : (c.withHeader header kind).check = (c.withHeader header kind).docstrings.check := by
    unfold check
    change c.references.check >>= _ = _
    rw [hreferences]
    rfl
  rw [hcheck]
  rcases DocstringSettings.check_cases (s := (c.withHeader header kind).docstrings)
    (List.ne_nil_of_mem hmem) with ⟨hpassed, hall⟩ | ⟨entry, hentry, hbad, hfailed⟩
  · exact Or.inl ⟨hpassed, hall _ hmem⟩
  · rcases Table.mem_of_mem_put hentry with rfl | hold
    · exact Or.inr ⟨hfailed, hbad⟩
    · exact absurd ((hothers entry hold).symm.trans hbad) (by decide)

/-- A configuration without other faults takes a header exactly if a line of the header and a colon alone,
with any blank space around them, is read as one section under that header; there is nothing else in it
then. A header that is not taken is what the configuration is refused for. -/
theorem takes_header_iff_seen (c : Config) (hreferences : c.references.check = .ok ())
    (hdocstrings : c.docstrings.sections = [] ∨ c.docstrings.check = .ok ()) (header : String)
    (kind : SectionKind) (sections : SectionSet) (hparams : sections.get? header = some .params)
    (before after : List Char) (hbefore : ∀ c ∈ before, Text.isBlank c = true ∧ c ≠ '\n')
    (hafter : ∀ c ∈ after, Text.isBlank c = true ∧ c ≠ '\n') :
    ((c.withHeader header kind).check = .ok () ↔
      ∃ found, (Docs.scan sections (Docs.headerLine before header after)).outcome = .ok found ∧
        ∃ s, found.sections = [s] ∧ s.header = header) ∧
    ((c.withHeader header kind).check = .ok () →
      (Docs.scan sections (Docs.headerLine before header after)).outcome =
        .ok ⟨none, [⟨.params, header, 1, []⟩], []⟩) ∧
    ((c.withHeader header kind).check ≠ .ok () →
      (c.withHeader header kind).check = .error (.badHeader header)) := by
  have hseen (htitle : Docs.isTitle header.toList = true) :=
    Docs.scan_title hbefore hafter hparams htitle
  rcases check_withHeader_cases hreferences hdocstrings header kind with
    ⟨htaken, htitle⟩ | ⟨hrefused, hnot⟩
  · exact ⟨iff_of_true htaken ⟨_, hseen htitle, _, rfl, rfl⟩, fun _ => hseen htitle,
      fun h => absurd htaken h⟩
  · have hfails : (c.withHeader header kind).check ≠ .ok () := by
      rw [hrefused]
      nofun
    refine ⟨iff_of_false hfails fun hfound => ?_, fun h => absurd h hfails, fun _ => hrefused⟩
    obtain ⟨found, hscan, s, hsections, rfl⟩ := hfound
    have htitle := Docs.isTitle_of_scan hscan s (hsections ▸ List.mem_singleton_self s)
    exact absurd (htitle.symm.trans hnot) (by decide)

/-- Two words, behind a tab and before a carriage return, are a header; with two blanks between them they
are none. -/
theorem takes_header_iff_seen_words :
    (withHeader {} "See Also" .params).check = .ok () ∧
      (Docs.scan [("See Also", .params)]
        (Docs.headerLine ['\t'] "See Also" ['\r'])).outcome =
          .ok ⟨none, [⟨.params, "See Also", 1, []⟩], []⟩ ∧
      (withHeader {} "See  Also" .params).check = .error (.badHeader "See  Also") ∧
      ¬ ∃ found, (Docs.scan [("See  Also", .params)]
        (Docs.headerLine ['\t'] "See  Also" ['\r'])).outcome = .ok found ∧
          ∃ s, found.sections = [s] ∧ s.header = "See  Also" := by
  have htab : ∀ c ∈ ['\t'], Text.isBlank c = true ∧ c ≠ '\n' :=
    List.forall_mem_singleton.mpr ⟨by decide, by decide⟩
  have hreturn : ∀ c ∈ ['\r'], Text.isBlank c = true ∧ c ≠ '\n' :=
    List.forall_mem_singleton.mpr ⟨by decide, by decide⟩
  have hreferences : ({} : Config).references.check = .ok () := by decide +kernel
  have htaken : (withHeader {} "See Also" .params).check = .ok () := by decide +kernel
  have hrefused : (withHeader {} "See  Also" .params).check ≠ .ok () := by decide +kernel
  obtain ⟨-, hseen, -⟩ := takes_header_iff_seen {} hreferences (Or.inl rfl) "See Also" .params
    [("See Also", .params)] rfl ['\t'] ['\r'] htab hreturn
  obtain ⟨hiff, -, hfault⟩ := takes_header_iff_seen {} hreferences (Or.inl rfl) "See  Also" .params
    [("See  Also", .params)] rfl ['\t'] ['\r'] htab hreturn
  exact ⟨htaken, hseen htaken, hfault hrefused, fun hfound => hrefused (hiff.mpr hfound)⟩

end Config
end Callable
