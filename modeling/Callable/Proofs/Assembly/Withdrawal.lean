import Callable.Proofs.Assembly.Precedence

/-!
Flags that are taken back. While entries are read, every positional parameter that documentation alone
makes optional becomes so; afterwards the flags before the last required positional parameter are
taken back. Which flags these are depends on the signature and the entries only: those before a
required positional parameter that documentation does not make optional too. Each gives one warning.
-/
namespace Callable.Assembly

/-- A positional parameter that has to be given stands behind a place. -/
def RequiredAfter (inputs : List InputParam) (i : Nat) : Prop :=
  ∃ (j : Nat) (q : InputParam), i < j ∧ inputs[j]? = some q ∧ q.positional = true ∧
    q.isRequired = true

/-- A positional parameter that the signature asks for, and documentation does not make optional,
stands behind a place. -/
def IsBlocked (docs : List InputDoc) (inputs : List InputParam) (i : Nat) : Prop :=
  ∃ (j : Nat) (q : InputParam), i < j ∧ inputs[j]? = some q ∧ q.positional = true ∧
    q.isRequired = true ∧ ¬ Grants docs q

theorem requiredAfter_iff (inputs : List InputParam) (i : Nat) :
    RequiredAfter inputs i ↔ ∃ last, lastRequired? inputs = some last ∧ i < last := by
  constructor
  · rintro ⟨j, q, hij, hq, hpositional, hrequired⟩
    rw [InputParam.isRequired, Bool.not_eq_true'] at hrequired
    obtain ⟨last, hlast, hle⟩ := exists_lastRequired? hq hpositional hrequired
    exact ⟨last, hlast, Nat.lt_of_lt_of_le hij hle⟩
  · rintro ⟨last, hlast, hi⟩
    obtain ⟨k, hfind, rfl⟩ := Option.map_eq_some_iff.mp hlast
    obtain ⟨hk, hfound, -⟩ := List.findIdx?_eq_some_iff_getElem.mp hfind
    rw [List.getElem_reverse, Bool.and_eq_true] at hfound
    rw [List.length_reverse] at hk
    exact ⟨inputs.length - 1 - k, _, hi, List.getElem?_eq_getElem (by omega), hfound⟩

theorem requiredAfter_enrich_iff (limits : Reference.Limits) (scope : Scope)
    (docs : List InputDoc) (inputs : List InputParam) (i : Nat) :
    RequiredAfter (inputs.map (enrich limits scope docs)) i ↔ IsBlocked docs inputs i := by
  constructor
  · rintro ⟨j, q, hij, hq, hpositional, hrequired⟩
    rw [List.getElem?_map] at hq
    obtain ⟨p, hp, rfl⟩ := Option.map_eq_some_iff.mp hq
    have hpositional : p.positional = true := hpositional
    exact ⟨j, p, hij, hp, hpositional, (isRequired_enrich limits scope hpositional).mp hrequired⟩
  · rintro ⟨j, p, hij, hp, hpositional, hrequired⟩
    refine ⟨j, enrich limits scope docs p, hij, ?_, hpositional,
      (isRequired_enrich limits scope hpositional).mpr hrequired⟩
    rw [List.getElem?_map, hp, Option.map_some]

/-- Flags are taken back at the remembered places before a required positional parameter. -/
theorem exists_settle_eq (m : Merged) (hnodup : m.granted.Nodup) :
    ∃ places : List Nat, m.settle = places.foldl Merged.revoke m ∧ places.Nodup ∧
      ∀ i, i ∈ places ↔ i ∈ m.granted ∧ RequiredAfter m.inputs i := by
  unfold Merged.settle
  cases hlast : lastRequired? m.inputs with
  | none =>
    refine ⟨[], rfl, List.nodup_nil, fun i => iff_of_false List.not_mem_nil ?_⟩
    rintro ⟨-, hafter⟩
    obtain ⟨last, hsome, -⟩ := (requiredAfter_iff m.inputs i).mp hafter
    cases hlast.symm.trans hsome
  | some last =>
    refine ⟨m.granted.filter (· < last), rfl, hnodup.filter _, fun i => ?_⟩
    rw [List.mem_filter, decide_eq_true_iff, requiredAfter_iff, hlast]
    simp only [Option.some.injEq, exists_eq_left']

theorem length_revokeAll (m : Merged) (places : List Nat) :
    (places.foldl Merged.revoke m).inputs.length = m.inputs.length := by
  induction places generalizing m with
  | nil => rfl
  | cons i rest ih =>
    rw [List.foldl_cons, ih]
    unfold Merged.revoke
    split
    · rfl
    · rw [List.length_set]

theorem warnings_revoke (m : Merged) (i : Nat) :
    (m.revoke i).warnings = m.warnings ++
      (m.inputs[i]?.map fun p => Warning.contradictoryOptional p.name).toList := by
  unfold Merged.revoke
  split
  · rename_i hnone
    rw [hnone, Option.map_none, Option.toList_none, List.append_nil]
  · rename_i p hp
    rw [hp, Option.map_some, Option.toList_some]

theorem name_revoke (m : Merged) (i j : Nat) :
    ((m.revoke i).inputs[j]?).map InputParam.name = (m.inputs[j]?).map InputParam.name := by
  rw [inputs_revoke]
  split
  · rw [Option.map_map]
    rfl
  · rfl

theorem warnings_revokeAll (m : Merged) (places : List Nat) :
    (places.foldl Merged.revoke m).warnings = m.warnings ++ places.filterMap fun i =>
      (m.inputs[i]?.map InputParam.name).map Warning.contradictoryOptional := by
  induction places generalizing m with
  | nil => rw [List.foldl_nil, List.filterMap_nil, List.append_nil]
  | cons i rest ih =>
    rw [List.foldl_cons, ih, warnings_revoke, List.append_assoc]
    simp only [name_revoke]
    cases hp : m.inputs[i]? with
    | none => rw [List.filterMap_cons_none (by rw [hp]; rfl)]; rfl
    | some p => rw [List.filterMap_cons_some (by rw [hp]; rfl)]; rfl

/-- How parameters and warnings come out of a merge of `inputs` with the entries `docs`. -/
structure Settles (limits : Reference.Limits) (scope : Scope) (docs : List InputDoc)
    (inputs merged : List InputParam) (warnings : List Warning) : Prop where
  length : merged.length = inputs.length
  kept : ∀ (i : Nat) p, inputs[i]? = some p → ¬ (Grants docs p ∧ IsBlocked docs inputs i) →
    merged[i]? = some (enrich limits scope docs p)
  withdrawn : ∀ (i : Nat) p, inputs[i]? = some p → Grants docs p → IsBlocked docs inputs i →
    merged[i]? = some { enrich limits scope docs p with optional := none }
  drift : ∀ w ∈ warnings, IsInputDrift limits scope docs w ∨
    ∃ (i : Nat) (p : InputParam), inputs[i]? = some p ∧ Grants docs p ∧ IsBlocked docs inputs i ∧
      w = .contradictoryOptional p.name
  once : ∀ (i : Nat) p, inputs[i]? = some p → Grants docs p → IsBlocked docs inputs i →
    warnings.count (.contradictoryOptional p.name) = 1

theorem IsInputDrift.ne_contradictoryOptional {limits : Reference.Limits} {scope : Scope}
    {docs : List InputDoc} {w : Warning} (h : IsInputDrift limits scope docs w) (name : String) :
    w ≠ .contradictoryOptional name := by
  rintro rfl
  obtain ⟨_, -, hunknown | ⟨_, _, _, -, -, hunresolved⟩⟩ := h
  · cases hunknown
  · cases hunresolved

/-- Different places give different warnings, as names are not shared. -/
theorem nodup_contradictions {inputs : List InputParam}
    (hnames : (inputs.map InputParam.name).Nodup) {places : List Nat} (hnodup : places.Nodup) :
    (places.filterMap fun i =>
      (inputs[i]?.map InputParam.name).map Warning.contradictoryOptional).Nodup := by
  refine List.Pairwise.filterMap _ ?_ hnodup
  intro j k hjk w hj w' hk heq
  simp only [Option.map_eq_some_iff] at hj hk
  obtain ⟨_, ⟨q, hq, rfl⟩, rfl⟩ := hj
  obtain ⟨_, ⟨r, hr, rfl⟩, rfl⟩ := hk
  exact hjk (eq_place_of_name hnames hq hr (Warning.contradictoryOptional.inj heq))

theorem Reads.settles {limits : Reference.Limits} {scope : Scope} {inputs : List InputParam}
    {docs : List InputDoc} {m : Merged} (h : Reads limits scope inputs docs m)
    (hnames : (inputs.map InputParam.name).Nodup) :
    Settles limits scope docs inputs m.settle.inputs m.settle.warnings := by
  obtain ⟨places, hsettle, hnodup, hplaces⟩ := exists_settle_eq m h.nodup
  have hmem {i : Nat} {p : InputParam} (hp : inputs[i]? = some p) :
      i ∈ places ↔ Grants docs p ∧ IsBlocked docs inputs i := by
    rw [hplaces, h.granted, h.enriched, requiredAfter_enrich_iff, hp]
    simp only [Option.some.injEq, exists_eq_left']
  have hname (i : Nat) : (m.inputs[i]?).map InputParam.name = (inputs[i]?).map InputParam.name := by
    rw [h.enriched, List.getElem?_map, Option.map_map]
    rfl
  have hwarnings : m.settle.warnings = m.warnings ++ places.filterMap fun i =>
      (inputs[i]?.map InputParam.name).map Warning.contradictoryOptional := by
    rw [hsettle, warnings_revokeAll]
    simp only [hname]
  have hread {i : Nat} {p : InputParam} (hp : inputs[i]? = some p) :
      m.settle.inputs[i]? = if i ∈ places then
        some { enrich limits scope docs p with optional := none }
        else some (enrich limits scope docs p) := by
    rw [hsettle, inputs_revokeAll, h.enriched, List.getElem?_map, hp]
    rfl
  refine ⟨?_, ?_, ?_, ?_, ?_⟩
  · rw [hsettle, length_revokeAll, h.enriched, List.length_map]
  · intro i p hp hkept
    rw [hread hp, if_neg fun hi => hkept ((hmem hp).mp hi)]
  · intro i p hp hgrants hblocked
    rw [hread hp, if_pos ((hmem hp).mpr ⟨hgrants, hblocked⟩)]
  · intro w hw
    rw [hwarnings] at hw
    rcases List.mem_append.mp hw with hw | hw
    · exact Or.inl (h.warnings w hw)
    · obtain ⟨i, hi, hwarning⟩ := List.mem_filterMap.mp hw
      cases hp : inputs[i]? with
      | none =>
        rw [hp] at hwarning
        cases hwarning
      | some p =>
        rw [hp] at hwarning
        obtain ⟨hgrants, hblocked⟩ := (hmem hp).mp hi
        exact Or.inr ⟨i, p, hp, hgrants, hblocked, (Option.some.inj hwarning).symm⟩
  · intro i p hp hgrants hblocked
    have hnone : m.warnings.count (.contradictoryOptional p.name) = 0 :=
      List.count_eq_zero.mpr fun hw => (h.warnings _ hw).ne_contradictoryOptional p.name rfl
    have hmember : Warning.contradictoryOptional p.name ∈ places.filterMap fun i =>
        (inputs[i]?.map InputParam.name).map Warning.contradictoryOptional :=
      List.mem_filterMap.mpr ⟨i, (hmem hp).mpr ⟨hgrants, hblocked⟩, by rw [hp]; rfl⟩
    rw [hwarnings, List.count_append, hnone, (nodup_contradictions hnames hnodup).count,
      if_pos hmember, Nat.zero_add]

/-- Up to a flag of documentation that may have been taken back, each parameter has its documentation
merged in. -/
theorem Settles.eq_enrich {limits : Reference.Limits} {scope : Scope} {docs : List InputDoc}
    {inputs merged : List InputParam} {warnings : List Warning}
    (h : Settles limits scope docs inputs merged warnings) {i : Nat} {p q : InputParam}
    (hp : inputs[i]? = some p) (hq : merged[i]? = some q) :
    q = enrich limits scope docs p ∨
      p.optional = none ∧ q = { enrich limits scope docs p with optional := none } := by
  by_cases hwithdrawn : Grants docs p ∧ IsBlocked docs inputs i
  · obtain ⟨hgrants, hblocked⟩ := hwithdrawn
    refine Or.inr ⟨(grants_iff.mp hgrants).2.2.1, ?_⟩
    exact Option.some.inj (hq.symm.trans (h.withdrawn i p hp hgrants hblocked))
  · exact Or.inl (Option.some.inj (hq.symm.trans (h.kept i p hp hwithdrawn)))

/-- Merging ends, and its outcome is settled. -/
theorem exists_settles_mergeInputs {ε : Type} (limits : Reference.Limits) (scope : Scope)
    {inputs : List InputParam} (hnames : (inputs.map InputParam.name).Nodup)
    (docs : List InputDoc) :
    ∃ merged warnings, (mergeInputs limits scope inputs docs : Logged ε _).outcome =
        .ok (merged, warnings) ∧ Settles limits scope docs inputs merged warnings := by
  obtain ⟨m, hm, hreads⟩ := (Reads.start limits scope inputs).addAll (ε := ε) hnames docs
  rw [List.nil_append] at hreads
  refine ⟨m.settle.inputs, m.settle.warnings, ?_, hreads.settles hnames⟩
  rw [mergeInputs, Logged.outcome_bind, hm]
  rfl

end Callable.Assembly
