import Callable.Assembly.Merge

/-!
What merging keeps. Documentation changes neither names, kinds nor defaults of parameters, and a flag
only where there was none. Among the positional parameters without a default, those that
documentation made optional are remembered by their places, so all of them that stand before a
required one are found when flags are taken back, and the order of the parameters is sound again.
-/
namespace Callable.Assembly

/-- What documentation may make of a parameter. -/
structure Refines (p q : InputParam) : Prop where
  name : q.name = p.name
  positional : q.positional = p.positional
  default : q.default = p.default
  flag : q.optional = p.optional ∨
    p.optional = none ∧ (q.optional = some true ∨ q.optional = some false ∧ p.default = none)

namespace Refines

variable {p q : InputParam}

theorem refl (p : InputParam) : Refines p p := ⟨rfl, rfl, rfl, Or.inl rfl⟩

theorem optional_eq_none (h : Refines p q) (hq : q.optional = none) : p.optional = none := by
  rcases h.flag with hflag | ⟨hflag, -⟩
  · rw [← hflag, hq]
  · exact hflag

theorem isOptional (h : Refines p q) (hp : p.isOptional = true) : q.isOptional = true := by
  rw [InputParam.isOptional, Bool.or_eq_true, beq_iff_eq] at hp ⊢
  rw [h.default]
  rcases hp with hp | hp
  · rcases h.flag with hflag | ⟨hflag, -⟩
    · exact Or.inl (hflag.trans hp)
    · rw [hflag] at hp
      cases hp
  · exact Or.inr hp

theorem consistent (h : Refines p q) (hp : ¬ (p.optional = some false ∧ p.default.isSome = true)) :
    ¬ (q.optional = some false ∧ q.default.isSome = true) := by
  intro hflags
  obtain ⟨hfalse, hdefault⟩ := hflags
  rw [h.default] at hdefault
  rcases h.flag with hflag | ⟨-, htrue | ⟨-, hnone⟩⟩
  · exact hp ⟨hflag.symm.trans hfalse, hdefault⟩
  · cases htrue.symm.trans hfalse
  · rw [hnone] at hdefault
    cases hdefault

/-- Documentation is merged in; nothing is said of the type and the description. -/
theorem document (h : Refines p q) (documented : Option Bool) (type : String)
    (description : Option String) :
    Refines p { q with type, description, optional := documentedFlag q documented } := by
  refine ⟨h.name, h.positional, h.default, ?_⟩
  change documentedFlag q documented = p.optional ∨ _
  unfold documentedFlag
  split
  · rename_i flag hq
    have hp := h.optional_eq_none hq
    split
    · rename_i hflag
      refine Or.inr ⟨hp, ?_⟩
      cases flag with
      | true => exact Or.inl rfl
      | false => exact Or.inr ⟨rfl, by simpa [h.default] using hflag⟩
    · exact Or.inl hp.symm
  · exact h.flag

theorem withdraw (h : Refines p q) (hp : p.optional = none) :
    Refines p { q with optional := none } :=
  ⟨h.name, h.positional, h.default, Or.inl hp.symm⟩

end Refines

theorem isOptional_eq_false_iff (p : InputParam) :
    p.isOptional = false ↔ p.optional ≠ some true ∧ p.default = none := by
  rw [InputParam.isOptional, Bool.or_eq_false_iff, beq_eq_false_iff_ne, Option.isSome_eq_false_iff,
    Option.isNone_iff_eq_none]

/-- A positional parameter that documentation makes optional is noticed. -/
theorem grantsOptional_of_documented {q : InputParam} {documented : Option Bool} {type : String}
    {description : Option String} (hpositional : q.positional = true) (hq : q.isOptional = false)
    (h : { q with type, description, optional := documentedFlag q documented }.isOptional = true) :
    grantsOptional q documented = true := by
  obtain ⟨hflag, hdefault⟩ := (isOptional_eq_false_iff q).mp hq
  have hdocumented : documentedFlag q documented = some true := by
    simpa [InputParam.isOptional, hdefault] using h
  unfold documentedFlag at hdocumented
  split at hdocumented
  · rename_i flag hnone
    split at hdocumented
    · cases hdocumented
      simp [grantsOptional, hnone, hpositional, hdefault]
    · cases hdocumented
  · exact absurd hdocumented hflag

theorem optional_eq_none_of_grantsOptional {q : InputParam} {documented : Option Bool}
    (h : grantsOptional q documented = true) : q.optional = none := by
  simp only [grantsOptional, Bool.and_eq_true, Option.isNone_iff_eq_none] at h
  exact h.1.1.1

/-- What ties merged parameters to those of the signature: documentation refines each, and the
places of the positional ones it made optional are remembered. -/
structure Follows (inputs : List InputParam) (m : Merged) : Prop where
  length : m.inputs.length = inputs.length
  refines : ∀ (i : Nat) p q, inputs[i]? = some p → m.inputs[i]? = some q → Refines p q
  remembered : ∀ (i : Nat) p q, inputs[i]? = some p → m.inputs[i]? = some q → q.positional = true →
    p.isOptional = false → q.isOptional = true → i ∈ m.granted
  revocable : ∀ i ∈ m.granted, ∀ p, inputs[i]? = some p → p.optional = none

theorem exists_documentedType {ε : Type} (limits : Reference.Limits) (scope : Scope)
    (name type : String) (documented : Option String) :
    ∃ found, (documentedType limits scope name type documented : Logged ε _).outcome =
      .ok found := by
  unfold documentedType
  cases documented with
  | none => exact ⟨_, rfl⟩
  | some text =>
    by_cases hany : type = "Any"
    · simp only [hany, if_true, Logged.outcome_bind, Logged.outcome_attempt]
      cases (Reference.canonicalLogged limits scope text).outcome with
      | ok resolved => exact ⟨_, rfl⟩
      | error e => exact ⟨_, rfl⟩
    · simp only [hany, if_false]
      exact ⟨_, rfl⟩

namespace Follows

variable {inputs : List InputParam} {m : Merged}

theorem start (inputs : List InputParam) : Follows inputs ⟨inputs, [], []⟩ where
  length := rfl
  refines i p q hp hq := by
    cases hp.symm.trans hq
    exact Refines.refl p
  remembered i p q hp hq _ hpopt hqopt := by
    cases hp.symm.trans hq
    exact absurd hqopt (by simp [hpopt])
  revocable i hi := by cases hi

/-- Documentation of the parameter at a place. -/
theorem set (h : Follows inputs m) {i : Nat} {q : InputParam} (hq : m.inputs[i]? = some q)
    (documented : Option Bool) (type : String) (description : Option String)
    (warnings : List Warning) :
    Follows inputs {
      inputs := m.inputs.set i
        { q with type, description, optional := documentedFlag q documented }
      granted := if grantsOptional q documented then m.granted ++ [i] else m.granted
      warnings } := by
  obtain ⟨hi, -⟩ := List.getElem?_eq_some_iff.mp hq
  have hkept (j : Nat) (hj : j ∈ m.granted) :
      j ∈ (if grantsOptional q documented then m.granted ++ [i] else m.granted) := by
    split
    · exact List.mem_append_left _ hj
    · exact hj
  refine ⟨by rw [List.length_set, h.length], ?_, ?_, ?_⟩
  · intro j p q' hp hq'
    rw [List.getElem?_set] at hq'
    split at hq'
    · rename_i hij
      subst hij
      cases hq'
      exact (h.refines i p q hp hq).document documented type description
    · exact h.refines j p q' hp hq'
  · intro j p q' hp hq' hpositional hpopt hqopt
    rw [List.getElem?_set] at hq'
    split at hq'
    · rename_i hij
      subst hij
      cases hq'
      cases hold : q.isOptional with
      | true => exact hkept i (h.remembered i p q hp hq hpositional hpopt hold)
      | false =>
        have hgrants := grantsOptional_of_documented (q := q) hpositional hold hqopt
        simp only [hgrants, if_true]
        exact List.mem_append_right _ List.mem_cons_self
    · exact hkept j (h.remembered j p q' hp hq' hpositional hpopt hqopt)
  · intro j hj p hp
    simp only at hj
    split at hj
    · rename_i hgrants
      rcases List.mem_append.mp hj with hj | hj
      · exact h.revocable j hj p hp
      · obtain rfl := List.mem_singleton.mp hj
        exact (h.refines j p q hp hq).optional_eq_none
          (optional_eq_none_of_grantsOptional hgrants)
    · exact h.revocable j hj p hp

theorem add {ε : Type} (h : Follows inputs m) (limits : Reference.Limits) (scope : Scope)
    (doc : InputDoc) :
    ∃ m', (m.add limits scope doc : Logged ε Merged).outcome = .ok m' ∧ Follows inputs m' := by
  unfold Merged.add
  split
  · exact ⟨_, rfl, h.length, h.refines, h.remembered, h.revocable⟩
  · split
    · exact ⟨_, rfl, h⟩
    · rename_i q hq
      obtain ⟨⟨type, warnings⟩, hfound⟩ :=
        exists_documentedType (ε := ε) limits scope q.name q.type doc.type
      rw [Logged.outcome_bind, hfound]
      exact ⟨_, rfl, h.set hq doc.optional type (q.description.or doc.description)
        (m.warnings ++ warnings)⟩

theorem addAll {ε : Type} (h : Follows inputs m) (limits : Reference.Limits) (scope : Scope)
    (docs : List InputDoc) :
    ∃ m', (m.addAll limits scope docs : Logged ε Merged).outcome = .ok m' ∧
      Follows inputs m' := by
  induction docs generalizing m with
  | nil => exact ⟨m, rfl, h⟩
  | cons doc rest ih =>
    obtain ⟨m', hm', h'⟩ := h.add (ε := ε) limits scope doc
    obtain ⟨m'', hm'', h''⟩ := ih h'
    refine ⟨m'', ?_, h''⟩
    rw [Merged.addAll, Logged.outcome_bind, hm']
    exact hm''

/-- A remembered flag may be taken back. -/
theorem revoke (h : Follows inputs m) {i : Nat} (hi : i ∈ m.granted) :
    Follows inputs (m.revoke i) := by
  unfold Merged.revoke
  split
  · exact h
  · rename_i q hq
    refine ⟨by rw [List.length_set, h.length], ?_, ?_, h.revocable⟩
    · intro j p q' hp hq'
      rw [List.getElem?_set] at hq'
      split at hq'
      · rename_i hij
        subst hij
        split at hq' <;> cases hq'
        exact (h.refines i p q hp hq).withdraw (h.revocable i hi p hp)
      · exact h.refines j p q' hp hq'
    · intro j p q' hp hq' hpositional hpopt hqopt
      rw [List.getElem?_set] at hq'
      split at hq'
      · rename_i hij
        exact hij ▸ hi
      · exact h.remembered j p q' hp hq' hpositional hpopt hqopt

end Follows

theorem granted_revoke (m : Merged) (i : Nat) : (m.revoke i).granted = m.granted := by
  unfold Merged.revoke
  split <;> rfl

theorem inputs_revoke (m : Merged) (i j : Nat) :
    (m.revoke i).inputs[j]? =
      if j = i then m.inputs[j]?.map fun q => { q with optional := none } else m.inputs[j]? := by
  unfold Merged.revoke
  split
  · rename_i hnone
    split
    · rename_i hij
      rw [hij, hnone, Option.map_none]
    · rfl
  · rename_i q hq
    obtain ⟨hi, -⟩ := List.getElem?_eq_some_iff.mp hq
    rw [List.getElem?_set]
    by_cases hij : i = j
    · subst hij
      rw [if_pos rfl, if_pos hi, if_pos rfl, hq, Option.map_some]
    · rw [if_neg hij, if_neg (Ne.symm hij)]

/-- Taking several flags back touches the parameters at their places only. -/
theorem inputs_revokeAll (m : Merged) (places : List Nat) (j : Nat) :
    (places.foldl Merged.revoke m).inputs[j]? =
      if j ∈ places then m.inputs[j]?.map fun q => { q with optional := none }
      else m.inputs[j]? := by
  induction places generalizing m with
  | nil => rw [List.foldl_nil, if_neg List.not_mem_nil]
  | cons i rest ih =>
    rw [List.foldl_cons, ih, inputs_revoke]
    by_cases hj : j = i
    · subst hj
      rw [if_pos rfl, if_pos List.mem_cons_self, Option.map_map]
      split <;> rfl
    · simp only [hj, List.mem_cons, false_or, if_false]

theorem Follows.revokeAll {inputs : List InputParam} {m : Merged} (h : Follows inputs m)
    {places : List Nat} (hplaces : ∀ i ∈ places, i ∈ m.granted) :
    Follows inputs (places.foldl Merged.revoke m) ∧
      (places.foldl Merged.revoke m).granted = m.granted := by
  induction places generalizing m with
  | nil => exact ⟨h, rfl⟩
  | cons i rest ih =>
    obtain ⟨hi, hrest⟩ := List.forall_mem_cons.mp hplaces
    rw [← granted_revoke m i] at hrest
    obtain ⟨hfollows, hgranted⟩ := ih (h.revoke hi) hrest
    exact ⟨hfollows, hgranted.trans (granted_revoke m i)⟩

/-- No required positional parameter stands after the last one. -/
theorem exists_lastRequired? {inputs : List InputParam} {j : Nat} {q : InputParam}
    (hq : inputs[j]? = some q) (hpositional : q.positional = true)
    (hrequired : q.isOptional = false) : ∃ last, lastRequired? inputs = some last ∧ j ≤ last := by
  obtain ⟨hj, rfl⟩ := List.getElem?_eq_some_iff.mp hq
  have hfound : (inputs[j].positional && inputs[j].isRequired) = true := by
    rw [hpositional, InputParam.isRequired, hrequired]
    rfl
  unfold lastRequired?
  cases hfind : inputs.reverse.findIdx? fun p => p.positional && p.isRequired with
  | none =>
    have hnone := List.findIdx?_eq_none_iff.mp hfind inputs[j]
      (List.mem_reverse.mpr (List.getElem_mem hj))
    cases hnone.symm.trans hfound
  | some k =>
    refine ⟨_, rfl, ?_⟩
    obtain ⟨hk, -, hearlier⟩ := List.findIdx?_eq_some_iff_getElem.mp hfind
    rw [List.length_reverse] at hk
    refine Nat.le_of_not_lt fun hlast => ?_
    have hlt : inputs.length - 1 - j < k := by
      simp only at hlast
      omega
    refine hearlier _ hlt ?_
    rw [List.getElem_reverse]
    have hback : inputs.length - 1 - (inputs.length - 1 - j) = j := by omega
    simpa only [hback] using hfound

theorem Follows.settle {inputs : List InputParam} {m : Merged} (h : Follows inputs m) :
    Follows inputs m.settle ∧ m.settle.granted = m.granted := by
  unfold Merged.settle
  split
  · exact ⟨h, rfl⟩
  · exact h.revokeAll fun i hi => (List.mem_filter.mp hi).1

/-- Once flags are taken back, what documentation has made optional stands after the required
positional parameters. -/
theorem optional_settle_before {m : Merged} {i j : Nat} {q r : InputParam}
    (hi : i ∈ m.granted) (hq : m.settle.inputs[i]? = some q) (hij : i < j)
    (hr : m.settle.inputs[j]? = some r) (hpositional : r.positional = true)
    (hrequired : r.isOptional = false) : q.optional = none := by
  unfold Merged.settle at hq hr
  split at hq
  · rename_i hnone
    rw [hnone] at hr
    obtain ⟨last, hlast, -⟩ := exists_lastRequired? hr hpositional hrequired
    cases hnone.symm.trans hlast
  · rename_i last hlast
    simp only [hlast] at hr
    rw [inputs_revokeAll] at hq hr
    have hjlast : j ≤ last := by
      split at hr
      · rename_i hj
        have hlt := (List.mem_filter.mp hj).2
        exact Nat.le_of_lt (of_decide_eq_true hlt)
      · obtain ⟨last', hlast', hle⟩ := exists_lastRequired? hr hpositional hrequired
        cases hlast.symm.trans hlast'
        exact hle
    have hearly : i ∈ m.granted.filter (· < last) :=
      List.mem_filter.mpr ⟨hi, decide_eq_true (by omega)⟩
    rw [if_pos hearly] at hq
    obtain ⟨q', -, rfl⟩ := Option.map_eq_some_iff.mp hq
    rfl

theorem Follows.map_name {inputs : List InputParam} {m : Merged} (h : Follows inputs m) :
    m.inputs.map InputParam.name = inputs.map InputParam.name := by
  refine List.ext_getElem (by rw [List.length_map, List.length_map, h.length]) ?_
  intro i hi hi'
  rw [List.length_map] at hi hi'
  rw [List.getElem_map, List.getElem_map]
  exact (h.refines i _ _ (List.getElem?_eq_getElem hi') (List.getElem?_eq_getElem hi)).name

theorem Follows.exists_refines {inputs : List InputParam} {m : Merged} (h : Follows inputs m)
    {q : InputParam} (hq : q ∈ m.inputs) : ∃ p ∈ inputs, Refines p q := by
  obtain ⟨i, hi, rfl⟩ := List.getElem_of_mem hq
  have hi' : i < inputs.length := h.length ▸ hi
  exact ⟨inputs[i], List.getElem_mem hi',
    h.refines i _ _ (List.getElem?_eq_getElem hi') (List.getElem?_eq_getElem hi)⟩

/-- Among positional parameters no required one follows an optional one, as in the signature. -/
theorem Follows.ordered_settle {inputs : List InputParam} {m : Merged} (h : Follows inputs m)
    (hordered : inputs.Pairwise InputParam.MayPrecede) :
    m.settle.inputs.Pairwise InputParam.MayPrecede := by
  obtain ⟨hsettled, hgranted⟩ := h.settle
  rw [List.pairwise_iff_getElem] at hordered ⊢
  intro i j hi hj hij hipos hjpos hiopt
  have hi' : i < inputs.length := hsettled.length ▸ hi
  have hj' : j < inputs.length := hsettled.length ▸ hj
  have hirefines := hsettled.refines i _ _ (List.getElem?_eq_getElem hi')
    (List.getElem?_eq_getElem hi)
  have hjrefines := hsettled.refines j _ _ (List.getElem?_eq_getElem hj')
    (List.getElem?_eq_getElem hj)
  cases hjopt : m.settle.inputs[j].isOptional with
  | true => rfl
  | false =>
    -- the signature asks for both parameters, so documentation made the first optional
    have hjrequired : inputs[j].isOptional = false := by
      rw [← Bool.not_eq_true]
      intro hopt
      cases hjopt.symm.trans (hjrefines.isOptional hopt)
    have hirequired : inputs[i].isOptional = false := by
      rw [← Bool.not_eq_true]
      intro hopt
      have hforced := hordered i j hi' hj' hij (hirefines.positional ▸ hipos)
        (hjrefines.positional ▸ hjpos) hopt
      cases hjrequired.symm.trans hforced
    have hmem := hsettled.remembered i _ _ (List.getElem?_eq_getElem hi')
      (List.getElem?_eq_getElem hi) hipos hirequired hiopt
    rw [hgranted] at hmem
    have hnone := optional_settle_before hmem (List.getElem?_eq_getElem hi) hij
      (List.getElem?_eq_getElem hj) hjpos hjopt
    have hdefault := ((isOptional_eq_false_iff _).mp hirequired).2
    have hback : m.settle.inputs[i].isOptional = false := by
      rw [isOptional_eq_false_iff, hnone, hirefines.default]
      exact ⟨by simp, hdefault⟩
    cases hback.symm.trans hiopt

/-- Merged parameters are sound if those of the signature are. -/
theorem Follows.sound_settle {inputs : List InputParam} {m : Merged} (h : Follows inputs m)
    {name : String} {outputs outputs' : List OutputParam} (hsound : Sound name inputs outputs)
    (hnames : outputs'.map OutputParam.name = outputs.map OutputParam.name) :
    Sound name m.settle.inputs outputs' := by
  obtain ⟨hsettled, -⟩ := h.settle
  refine ⟨hsound.named, ?_, ?_, ?_, h.ordered_settle hsound.inputs_ordered, ?_, ?_⟩
  · intro q hq
    obtain ⟨p, hp, hrefines⟩ := hsettled.exists_refines hq
    rw [hrefines.name]
    exact hsound.inputs_named p hp
  · rw [hsettled.map_name]
    exact hsound.inputs_nodup
  · intro q hq
    obtain ⟨p, hp, hrefines⟩ := hsettled.exists_refines hq
    exact hrefines.consistent (hsound.inputs_consistent p hp)
  · intro q hq
    have hmem : q.name ∈ outputs.map OutputParam.name := hnames ▸ List.mem_map_of_mem hq
    obtain ⟨p, hp, heq⟩ := List.mem_map.mp hmem
    rw [← heq]
    exact hsound.outputs_named p hp
  · rw [hnames]
    exact hsound.outputs_nodup

theorem exists_mergeInputs {ε : Type} (limits : Reference.Limits) (scope : Scope)
    (inputs : List InputParam) (docs : List InputDoc) :
    ∃ m, Follows inputs m ∧
      (mergeInputs limits scope inputs docs : Logged ε _).outcome =
        .ok (m.settle.inputs, m.settle.warnings) := by
  obtain ⟨m, hm, hfollows⟩ := (Follows.start inputs).addAll (ε := ε) limits scope docs
  refine ⟨m, hfollows, ?_⟩
  rw [mergeInputs, Logged.outcome_bind, hm]
  rfl

theorem exists_mergeOutputs {ε : Type} (limits : Reference.Limits) (scope : Scope)
    (index count : Nat) (outputs : List OutputParam) (docs : List OutputDoc) :
    ∃ outputs' warnings, outputs'.map OutputParam.name = outputs.map OutputParam.name ∧
      (mergeOutputs limits scope index count outputs docs : Logged ε _).outcome =
        .ok (outputs', warnings) := by
  induction docs generalizing index outputs with
  | nil => exact ⟨outputs, [], rfl, by rw [mergeOutputs]; rfl⟩
  | cons doc docs ih =>
    cases outputs with
    | nil =>
      obtain ⟨_, warnings, -, hrest⟩ := ih (index + 1) []
      refine ⟨[], .extraOutput index :: warnings, rfl, ?_⟩
      rw [mergeOutputs, Logged.outcome_bind, hrest]
      rfl
    | cons p outputs =>
      obtain ⟨⟨type, unresolved⟩, hfound⟩ :=
        exists_documentedType (ε := ε) limits scope p.name p.type doc.type
      obtain ⟨merged, warnings, hnames, hrest⟩ := ih (index + 1) outputs
      refine ⟨{ p with type, description := p.description.or doc.description } :: merged,
        nameWarning index count p.name doc.name ++ unresolved ++ warnings, ?_, ?_⟩
      · rw [List.map_cons, List.map_cons, hnames]
      · rw [mergeOutputs, Logged.outcome_bind, hfound]
        change (_ >>= _ : Logged ε _).outcome = _
        rw [Logged.outcome_bind, hrest]
        rfl

end Callable.Assembly
