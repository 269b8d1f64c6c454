import Callable.Proofs.Docs.Default
import Mathlib.Data.List.Induction
import Mathlib.Data.List.TakeWhile

/-!
Results told in several sections. Sections on parameters are read one by one, each on its own. Sections on
results are not: lines that begin no entry go on with the result before them, which may be the last one of
an earlier section. So a section that begins with an entry adds the results it has on its own, and one that
begins otherwise does so only if there is no result before it.
-/
namespace Callable

/-- The result with some lines added to its description. -/
def OutputDoc.continuedBy (doc : OutputDoc) (texts : List (List Char)) : OutputDoc :=
  texts.foldl (fun doc text =>
    { doc with description := some (Docs.continued doc.description (String.ofList text)) }) doc

namespace Docs

/-- Whether a line begins no entry on a result. -/
def goesOn (text : List Char) : Bool := returnEntry? text |>.isNone

/-- The results that some lines tell on their own. -/
def resultsOf (texts : List (List Char)) : List OutputDoc := (texts.foldl addReturnLine []).reverse

section Lines

variable {text : List Char} {texts : List (List Char)} {doc : OutputDoc}

theorem addReturnLine_of_entry (h : returnEntry? text = some doc) (done : List OutputDoc) :
    addReturnLine done text = doc :: done := by
  simp only [addReturnLine, h]

theorem addReturnLine_of_no_entry (h : returnEntry? text = none) (last : OutputDoc)
    (before : List OutputDoc) :
    addReturnLine (last :: before) text = last.continuedBy [text] :: before := by
  simp only [addReturnLine, h]
  rfl

/-- Lines that begin no entry go on with the last result. -/
theorem foldl_addReturnLine_of_no_entry (h : ∀ text ∈ texts, returnEntry? text = none)
    (last : OutputDoc) (before : List OutputDoc) :
    texts.foldl addReturnLine (last :: before) = last.continuedBy texts :: before := by
  induction texts generalizing last with
  | nil => rfl
  | cons text rest ih =>
    obtain ⟨htext, hrest⟩ := List.forall_mem_cons.mp h
    rw [List.foldl_cons, addReturnLine_of_no_entry htext, ih hrest]
    rfl

/-- Only the last result can change. -/
theorem foldl_addReturnLine_cons (texts : List (List Char)) (last : OutputDoc)
    (before : List OutputDoc) :
    texts.foldl addReturnLine (last :: before) = texts.foldl addReturnLine [last] ++ before := by
  induction texts generalizing last before with
  | nil => rfl
  | cons text rest ih =>
    rw [List.foldl_cons, List.foldl_cons]
    cases hentry : returnEntry? text with
    | none =>
      rw [addReturnLine_of_no_entry hentry, addReturnLine_of_no_entry hentry]
      exact ih (last.continuedBy [text]) before
    | some doc =>
      rw [addReturnLine_of_entry hentry, addReturnLine_of_entry hentry, ih doc (last :: before),
        ih doc [last], List.append_assoc]
      rfl

/-- Lines that begin with an entry leave all results before them as they are. -/
theorem foldl_addReturnLine_of_entry (h : ∀ text ∈ texts.head?, returnEntry? text ≠ none)
    (done : List OutputDoc) :
    texts.foldl addReturnLine done = texts.foldl addReturnLine [] ++ done := by
  cases texts with
  | nil => rfl
  | cons text rest =>
    obtain ⟨doc, hentry⟩ := Option.ne_none_iff_exists'.mp (h text rfl)
    rw [List.foldl_cons, List.foldl_cons, addReturnLine_of_entry hentry,
      addReturnLine_of_entry hentry, foldl_addReturnLine_cons]

end Lines

namespace Section

def texts (s : Section) : List (List Char) := s.lines.map Prod.snd

/-- The results of a section on its own. -/
def results (s : Section) : List OutputDoc := resultsOf s.texts

/-- The first lines of a section, up to the first entry. -/
def leading (s : Section) : List (List Char) := s.texts.takeWhile goesOn

/-- The results from the first entry on. -/
def entries (s : Section) : List OutputDoc :=
  resultsOf (s.texts.dropWhile goesOn)

/-- Results with those of a section after them: its leading lines go on with the last result if there is
one, and else are a result of their own. -/
def joinResults (done : List OutputDoc) (s : Section) : List OutputDoc :=
  match done.getLast? with
  | none => s.results
  | some last => done.dropLast ++ last.continuedBy s.leading :: s.entries

variable (s : Section)

theorem leading_append : s.leading ++ s.texts.dropWhile goesOn = s.texts :=
  List.takeWhile_append_dropWhile

theorem no_entry_leading : ∀ text ∈ s.leading, returnEntry? text = none := by
  intro text htext
  have hgoes : goesOn text = true := List.mem_takeWhile_imp htext
  exact Option.isNone_iff_eq_none.mp hgoes

theorem entry_head :
    ∀ text ∈ (s.texts.dropWhile goesOn).head?, returnEntry? text ≠ none := by
  intro text htext hnone
  have hnot := List.head?_dropWhile_not goesOn s.texts
  rw [Option.mem_def.mp htext] at hnot
  simp [goesOn, hnone] at hnot

/-- Lines are added to results one after the other; what comes of them is joined section by section. -/
theorem reverse_foldl_addReturnLine (done : List OutputDoc) :
    (s.texts.foldl addReturnLine done).reverse = joinResults done.reverse s := by
  cases done with
  | nil => rfl
  | cons last before =>
    have hjoin : joinResults (last :: before).reverse s =
        before.reverse ++ last.continuedBy s.leading :: s.entries := by
      simp [joinResults]
    rw [hjoin, ← s.leading_append, List.foldl_append,
      foldl_addReturnLine_of_no_entry s.no_entry_leading,
      foldl_addReturnLine_of_entry s.entry_head]
    simp [entries, resultsOf]

/-- On its own a section has one more result if it begins with no entry. -/
theorem length_results :
    s.results.length = (if s.leading = [] then 0 else 1) + s.entries.length := by
  unfold results resultsOf
  rw [← s.leading_append]
  cases hleading : s.leading with
  | nil => simp [entries, resultsOf]
  | cons text rest =>
    have hnone := s.no_entry_leading
    rw [hleading] at hnone
    obtain ⟨htext, hrest⟩ := List.forall_mem_cons.mp hnone
    have hfirst : addReturnLine [] text = [{ description := some (String.ofList text) }] := by
      simp only [addReturnLine, htext]
    rw [List.cons_append, List.foldl_cons, hfirst, List.foldl_append,
      foldl_addReturnLine_of_no_entry hrest, foldl_addReturnLine_of_entry s.entry_head]
    simp [entries, resultsOf]
    omega

theorem joinResults_nil : joinResults [] s = s.results := rfl

theorem length_joinResults {done : List OutputDoc} (h : done ≠ []) :
    (joinResults done s).length = done.length + s.entries.length := by
  rw [← List.dropLast_concat_getLast h]
  simp [joinResults]
  omega

theorem length_joinResults_le (done : List OutputDoc) :
    (joinResults done s).length ≤ done.length + s.results.length := by
  by_cases h : done = []
  · rw [h, joinResults_nil, List.length_nil, Nat.zero_add]
  · rw [s.length_joinResults h, s.length_results]
    omega

/-- A section adds the results that it has on its own, unless it goes on with a result before it. -/
theorem joinResults_eq_append_iff (done : List OutputDoc) :
    joinResults done s = done ++ s.results ↔ done = [] ∨ s.leading = [] := by
  by_cases h : done = []
  · simp [h, joinResults_nil]
  · constructor
    · intro heq
      have hlength := congrArg List.length heq
      rw [s.length_joinResults h, List.length_append, s.length_results] at hlength
      refine Or.inr ?_
      by_contra hleading
      rw [if_neg hleading] at hlength
      omega
    · intro hor
      have hleading := hor.resolve_left h
      have hall : s.texts.dropWhile goesOn = s.texts := by
        simpa [hleading] using s.leading_append
      rw [← List.dropLast_concat_getLast h]
      simp [joinResults, hleading, entries, hall, results, OutputDoc.continuedBy]

/-- The results of some sections, joined in order. -/
def allResults (sections : List Section) : List OutputDoc := sections.foldl joinResults []

theorem allResults_concat (sections : List Section) :
    allResults (sections ++ [s]) = joinResults (allResults sections) s := by
  rw [allResults, List.foldl_append]
  rfl

theorem allReturnDocs_eq_allResults (sections : List Section) :
    allReturnDocs sections = allResults (sections.filter (·.kind = .returns)) := by
  unfold allReturnDocs
  dsimp only
  induction sections.filter (·.kind = .returns) using List.reverseRecOn with
  | nil => rfl
  | append_singleton before s ih =>
    rw [allResults_concat, ← ih, ← reverse_foldl_addReturnLine, List.flatMap_append,
      List.foldl_append, List.flatMap_singleton]
    rfl

theorem length_allResults_le (sections : List Section) :
    (allResults sections).length ≤ (sections.flatMap results).length := by
  induction sections using List.reverseRecOn with
  | nil => exact Nat.le_refl 0
  | append_singleton before s ih =>
    have hjoin := s.length_joinResults_le (allResults before)
    rw [allResults_concat, List.flatMap_append, List.length_append, List.flatMap_singleton]
    omega

theorem results_eq_nil_iff : s.results = [] ↔ s.lines = [] := by
  have hadd (done : List OutputDoc) (text : List Char) : addReturnLine done text ≠ [] := by
    unfold addReturnLine
    split <;> exact List.cons_ne_nil _ _
  constructor
  · intro h
    by_contra hne
    have htexts : s.texts ≠ [] := fun hnil => hne (List.map_eq_nil_iff.mp hnil)
    rw [results, resultsOf, ← List.dropLast_concat_getLast htexts, List.foldl_append] at h
    exact hadd _ _ (List.reverse_eq_nil_iff.mp h)
  · intro h
    rw [results, texts, h]
    rfl

theorem allResults_eq_nil_iff (sections : List Section) :
    allResults sections = [] ↔ ∀ s ∈ sections, s.lines = [] := by
  induction sections using List.reverseRecOn with
  | nil => simp [allResults]
  | append_singleton before s ih =>
    rw [allResults_concat, List.forall_mem_append, List.forall_mem_singleton, ← ih,
      ← s.results_eq_nil_iff]
    by_cases h : allResults before = []
    · simp [h, joinResults_nil]
    · have hlength := s.length_joinResults h
      have hpos := List.length_pos_iff.mpr h
      refine iff_of_false (fun hnil => ?_) fun hboth => h hboth.1
      rw [hnil, List.length_nil] at hlength
      omega

/-- The results are those of the sections on their own exactly if no section goes on with a result
before it. -/
theorem allResults_eq_flatMap_iff (sections : List Section) :
    allResults sections = sections.flatMap results ↔
      ∀ before s, before ++ [s] <+: sections → s.leading ≠ [] → ∀ b ∈ before, b.lines = [] := by
  induction sections using List.reverseRecOn with
  | nil => simp [allResults]
  | append_singleton before s ih =>
    rw [allResults_concat, List.flatMap_append, List.flatMap_singleton]
    constructor
    · intro heq
      have hapart : allResults before = [] ∨ s.leading = [] := by
        by_contra hjoined
        obtain ⟨hne, hleading⟩ := not_or.mp hjoined
        have hlength := congrArg List.length heq
        have hle := length_allResults_le before
        rw [s.length_joinResults hne, List.length_append, s.length_results, if_neg hleading] at hlength
        omega
      have hjoin := (s.joinResults_eq_append_iff _).mpr hapart
      have hbefore := ih.mp (List.append_cancel_right (hjoin.symm.trans heq))
      intro front t hfront hleading
      rcases List.prefix_concat_iff.mp hfront with hwhole | hshort
      · obtain ⟨rfl, hlast⟩ := List.append_inj' hwhole rfl
        cases hlast
        exact (allResults_eq_nil_iff front).mp (hapart.resolve_right hleading)
      · exact hbefore front t hshort hleading
    · intro h
      have hbefore := ih.mpr fun front t hfront =>
        h front t (hfront.trans (List.prefix_append before [s]))
      rw [← hbefore, joinResults_eq_append_iff]
      by_cases hleading : s.leading = []
      · exact Or.inr hleading
      · exact Or.inl ((allResults_eq_nil_iff before).mpr (h before s List.prefix_rfl hleading))

end Section

/-- The entries on parameters of all sections are those of each on its own. -/
theorem exists_forall₂_of_allParamDocs {sections : List Section} {docs : List InputDoc}
    (h : allParamDocs sections = .ok docs) :
    ∃ parts, List.Forall₂ (fun s part => paramDocs s.header [] s.lines = .ok part)
      (sections.filter (·.kind = .params)) parts ∧ docs = parts.flatten := by
  induction sections generalizing docs with
  | nil =>
    cases h
    exact ⟨[], .nil, rfl⟩
  | cons s rest ih =>
    obtain ⟨here, hhere, more, hmore, rfl⟩ := exists_of_allParamDocs_cons h
    obtain ⟨parts, hparts, rfl⟩ := ih hmore
    rcases hhere with ⟨hkind, hhere⟩ | ⟨hkind, rfl⟩
    · refine ⟨here :: parts, ?_, rfl⟩
      rw [List.filter_cons_of_pos (by simpa using hkind)]
      exact .cons hhere hparts
    · refine ⟨parts, ?_, rfl⟩
      rwa [List.filter_cons_of_neg (by simpa using hkind)]

/-- A docstring in sections is read section by section. The entries on parameters are those that each section
has on its own. The results are joined: a section that begins with no entry goes on with the last result
before it, so they are those of each section on its own exactly if every section on results that begins so
has no lines on results before it. -/
theorem readSectioned_joins {sections : SectionSet} {docstring : String} {docs : Docs}
    (h : (readSectioned sections docstring).outcome = .ok docs) :
    ∃ found, (scan sections docstring).outcome = .ok found ∧
      (∃ parts, List.Forall₂ (fun s part => paramDocs s.header [] s.lines = .ok part)
        (found.sections.filter (·.kind = .params)) parts ∧ docs.inputs = parts.flatten) ∧
      docs.outputs = (found.sections.filter (·.kind = .returns)).foldl Section.joinResults [] ∧
      (docs.outputs = (found.sections.filter (·.kind = .returns)).flatMap Section.results ↔
        ∀ before s, before ++ [s] <+: found.sections.filter (·.kind = .returns) → s.leading ≠ [] →
          ∀ b ∈ before, b.lines = []) := by
  unfold readSectioned at h
  simp only [Logged.bind_eq_ok_iff, Logged.outcome_pure, Logged.outcome_ofExcept] at h
  obtain ⟨found, hscan, inputs, hinputs, hdocs⟩ := h
  cases hdocs
  refine ⟨found, hscan, exists_forall₂_of_allParamDocs hinputs,
    Section.allReturnDocs_eq_allResults found.sections, ?_⟩
  dsimp only
  rw [Section.allReturnDocs_eq_allResults]
  exact Section.allResults_eq_flatMap_iff _

/-- Three sections on results. The second one goes on with the only result of the first, and has an entry
after that. -/
def totalsText : String :=
  "Args:\n  x: Rows.\nReturns:\n  int: The count.\nReturn:\n  Rows of all\n  tables.\n" ++
    "  str: The name.\nArgs:\n  y: Cells.\nReturns:\n  bool: Whether any."

def totalsDocs : Docs where
  text := some totalsText
  inputs := [{ name := "x", description := some "Rows.", optional := some false },
    { name := "y", description := some "Cells.", optional := some false }]
  outputs := [{ type := some "int", description := some "The count. Rows of all tables." },
    { type := some "str", description := some "The name." },
    { type := some "bool", description := some "Whether any." }]

theorem readSectioned_totals : (readSectioned .standard totalsText).outcome = .ok totalsDocs := by
  decide +kernel

theorem readSectioned_joins_totals :
    (readSectioned .standard totalsText).outcome = .ok totalsDocs ∧
      ∃ found, (scan .standard totalsText).outcome = .ok found ∧
        (∃ parts, List.Forall₂ (fun s part => paramDocs s.header [] s.lines = .ok part)
          (found.sections.filter (·.kind = .params)) parts ∧ totalsDocs.inputs = parts.flatten) ∧
        totalsDocs.outputs =
          (found.sections.filter (·.kind = .returns)).foldl Section.joinResults [] := by
  obtain ⟨found, hscan, hinputs, houtputs, -⟩ := readSectioned_joins readSectioned_totals
  exact ⟨readSectioned_totals, found, hscan, hinputs, houtputs⟩

def restText : String := "Returns:\n    int: The count.\nReturn:\n    The rest."

def restScan : Scan where
  summary := none
  sections := [⟨.returns, "Returns", 1, [(2, "int: The count.".toList)]⟩,
    ⟨.returns, "Return", 3, [(4, "The rest.".toList)]⟩]
  exceptions := []

/-- A line that begins no entry need not become a result of its own where a section begins. -/
theorem not_results_apart :
    ¬ ∀ (sections : SectionSet) (docstring : String) (docs : Docs) (found : Scan),
      (readSectioned sections docstring).outcome = .ok docs →
      (scan sections docstring).outcome = .ok found →
      docs.outputs = (found.sections.filter (·.kind = .returns)).flatMap Section.results := by
  intro hall
  have hread : (readSectioned .standard restText).outcome = .ok {
      text := some restText
      outputs := [{ type := some "int", description := some "The count. The rest." }] } := by
    decide +kernel
  have hscan : (scan .standard restText).outcome = .ok restScan := by decide +kernel
  exact absurd (hall .standard restText _ restScan hread hscan) (by decide +kernel)

end Docs
end Callable
