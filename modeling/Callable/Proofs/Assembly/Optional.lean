import Callable.Proofs.Assembly.Signature
import Mathlib.Data.Finset.Filter
import Mathlib.Data.Finset.Range
import Mathlib.Order.Bounds.Basic

/-!
How far documented flags are kept. The candidates are the positional parameters that documentation
alone makes optional. Of these, the ones that are optional in the end are those behind which no other
parameter is required, and no larger choice of candidates leaves the parameters in order. Each of the
others gives one warning.
-/
namespace Callable.Assembly

/-- The declaration leaves it open whether a positional parameter may be left out, and the first entry
that tells says that it may. -/
def isCandidate (docs : List InputDoc) (input : DeclaredInput) : Bool :=
  input.positional && input.default.isNone && input.optional.isNone &&
    firstSaid docs input.name InputDoc.optional == some true

def candidates (docs : List InputDoc) (inputs : List DeclaredInput) : Finset Nat :=
  (Finset.range inputs.length).filter fun i => inputs[i]?.any (isCandidate docs)

/-- Of some places, those of parameters that are flagged as optional. -/
def flagged (places : Finset Nat) (inputs : List InputParam) : Finset Nat :=
  places.filter fun i => inputs[i]?.any (·.optional == some true)

/-- The parameters with the flags at some places chosen anew. -/
def chooseOptional (places chosen : Finset Nat) (inputs : List InputParam) : List InputParam :=
  inputs.mapIdx fun i p =>
    if i ∈ places then { p with optional := if i ∈ chosen then some true else none } else p

section Choice

variable {places chosen : Finset Nat} {inputs : List InputParam} {i : Nat} {p : InputParam}

theorem mem_flagged_iff (hp : inputs[i]? = some p) :
    i ∈ flagged places inputs ↔ i ∈ places ∧ p.optional = some true := by
  rw [flagged, Finset.mem_filter, hp, Option.any_some, beq_iff_eq]

theorem getElem?_chooseOptional (places chosen : Finset Nat) (hp : inputs[i]? = some p) :
    (chooseOptional places chosen inputs)[i]? = some (if i ∈ places then
      { p with optional := if i ∈ chosen then some true else none } else p) := by
  rw [chooseOptional, List.getElem?_mapIdx, hp, Option.map_some]

theorem rel_of_pairwise {α : Type} {R : α → α → Prop} {as : List α} (h : as.Pairwise R) {i j : Nat}
    {a b : α} (hij : i < j) (ha : as[i]? = some a) (hb : as[j]? = some b) : R a b := by
  obtain ⟨hi, rfl⟩ := List.getElem?_eq_some_iff.mp ha
  obtain ⟨hj, rfl⟩ := List.getElem?_eq_some_iff.mp hb
  exact List.pairwise_iff_getElem.mp h i j hi hj hij

/-- Flags that stand where no other parameter is required are the largest choice that leaves the
parameters in order. -/
theorem isGreatest_flagged (hplaces : ∀ i ∈ places, ∃ p, inputs[i]? = some p ∧
      p.positional = true ∧ (p.optional = some true ∨ p.optional = none))
    (hordered : inputs.Pairwise InputParam.MayPrecede)
    (hblocked : ∀ i ∈ places, i ∉ flagged places inputs → ∃ (j : Nat) (q : InputParam), i < j ∧
      inputs[j]? = some q ∧ q.positional = true ∧ q.isRequired = true ∧ j ∉ places) :
    IsGreatest {chosen : Finset Nat | chosen ⊆ places ∧
      (chooseOptional places chosen inputs).Pairwise InputParam.MayPrecede}
      (flagged places inputs) := by
  constructor
  · refine ⟨Finset.filter_subset _ _, ?_⟩
    have hsame : chooseOptional places (flagged places inputs) inputs = inputs := by
      refine List.ext_getElem? fun i => ?_
      cases hp : inputs[i]? with
      | none => rw [chooseOptional, List.getElem?_mapIdx, hp, Option.map_none]
      | some p =>
        rw [getElem?_chooseOptional _ _ hp]
        split
        · rename_i hi
          obtain ⟨p', hp', -, hflag⟩ := hplaces i hi
          cases hp.symm.trans hp'
          rcases hflag with hflag | hflag
          · rw [if_pos ((mem_flagged_iff hp).mpr ⟨hi, hflag⟩), ← hflag]
          · have hnot : i ∉ flagged places inputs := fun hmem => by
              cases hflag.symm.trans ((mem_flagged_iff hp).mp hmem).2
            rw [if_neg hnot, ← hflag]
        · rfl
    rw [hsame]
    exact hordered
  · intro chosen hchosen i hi
    obtain ⟨hsub, horder⟩ := hchosen
    by_contra hnot
    obtain ⟨p, hp, hpositional, -⟩ := hplaces i (hsub hi)
    obtain ⟨j, q, hij, hq, hqpositional, hrequired, hj⟩ := hblocked i (hsub hi) hnot
    -- the blocked candidate would be optional before `q`, which the choice leaves required
    have hpnew := getElem?_chooseOptional places chosen hp
    have hqnew := getElem?_chooseOptional places chosen hq
    rw [if_pos (hsub hi), if_pos hi] at hpnew
    rw [if_neg hj] at hqnew
    have hoptional : q.isOptional = true :=
      rel_of_pairwise horder hij hpnew hqnew hpositional hqpositional rfl
    rw [InputParam.isRequired, hoptional] at hrequired
    cases hrequired

end Choice

section Candidates

variable {limits : Reference.Limits} {scope : Scope} {docs : List InputDoc}
  {declared : List DeclaredInput} {inputs merged : List InputParam} {warnings : List Warning}

theorem mem_candidates_iff (hdeclares : List.Forall₂ (Declares limits scope) declared inputs)
    {i : Nat} {p : InputParam} (hp : inputs[i]? = some p) :
    i ∈ candidates docs declared ↔ Grants docs p := by
  obtain ⟨input, hinput, hdeclare⟩ := exists_left_of_forall₂ hdeclares hp
  obtain ⟨hi, -⟩ := List.getElem?_eq_some_iff.mp hinput
  have hdefault : input.default = none ↔ p.default = none := by
    rw [← hdeclare.default, Option.map_eq_none_iff]
  rw [candidates, Finset.mem_filter, Finset.mem_range, hinput, Option.any_some, grants_iff,
    and_iff_right hi, isCandidate, hdeclare.positional, hdeclare.optional, hdeclare.name, ← hdefault]
  simp only [Bool.and_eq_true, Option.isNone_iff_eq_none, beq_iff_eq, and_assoc]

/-- Outside the candidates a merge changes nothing about what is required. -/
theorem isBlocked_iff (hdeclares : List.Forall₂ (Declares limits scope) declared inputs)
    (hsettles : Settles limits scope docs inputs merged warnings) (i : Nat) :
    IsBlocked docs inputs i ↔ ∃ (j : Nat) (q : InputParam), i < j ∧ merged[j]? = some q ∧
      q.positional = true ∧ q.isRequired = true ∧ j ∉ candidates docs declared := by
  constructor
  · rintro ⟨j, p, hij, hp, hpositional, hrequired, hgrants⟩
    refine ⟨j, enrich limits scope docs p, hij,
      hsettles.kept j p hp fun hwithdrawn => hgrants hwithdrawn.1, hpositional, ?_, ?_⟩
    · exact (isRequired_enrich limits scope hpositional).mpr ⟨hrequired, hgrants⟩
    · rwa [mem_candidates_iff hdeclares hp]
  · rintro ⟨j, q, hij, hq, hpositional, hrequired, hj⟩
    obtain ⟨hjlt, -⟩ := List.getElem?_eq_some_iff.mp hq
    obtain ⟨p, hp⟩ : ∃ p, inputs[j]? = some p :=
      ⟨_, List.getElem?_eq_getElem (hsettles.length ▸ hjlt)⟩
    rw [mem_candidates_iff hdeclares hp] at hj
    have hkept := hsettles.kept j p hp fun hwithdrawn => hj hwithdrawn.1
    cases hq.symm.trans hkept
    have hpositional : p.positional = true := hpositional
    exact ⟨j, p, hij, hp, hpositional,
      (isRequired_enrich limits scope hpositional).mp hrequired⟩

/-- A candidate is optional in the end, unless it is blocked and its flag is taken back. -/
theorem exists_candidate (hdeclares : List.Forall₂ (Declares limits scope) declared inputs)
    (hsettles : Settles limits scope docs inputs merged warnings) {i : Nat}
    (hi : i ∈ candidates docs declared) :
    ∃ q, merged[i]? = some q ∧ q.positional = true ∧
      (¬ IsBlocked docs inputs i ∧ q.optional = some true ∨
        IsBlocked docs inputs i ∧ q.optional = none ∧
          warnings.count (.contradictoryOptional q.name) = 1) := by
  have hlt : i < declared.length := Finset.mem_range.mp (Finset.mem_filter.mp hi).1
  obtain ⟨p, hp, -⟩ := exists_right_of_forall₂ hdeclares (List.getElem?_eq_getElem hlt)
  have hgrants := (mem_candidates_iff hdeclares hp).mp hi
  obtain ⟨hpositional, hdefault, hflag, hfirst⟩ := grants_iff.mp hgrants
  by_cases hblocked : IsBlocked docs inputs i
  · exact ⟨_, hsettles.withdrawn i p hp hgrants hblocked, hpositional,
      Or.inr ⟨hblocked, rfl, hsettles.once i p hp hgrants hblocked⟩⟩
  · refine ⟨_, hsettles.kept i p hp fun hwithdrawn => hblocked hwithdrawn.2, hpositional,
      Or.inl ⟨hblocked, ?_⟩⟩
    rw [optional_enrich limits scope hdefault hflag, hfirst]

/-- A candidate is optional exactly if only candidates are required behind it, and is warned of
otherwise. -/
theorem Settles.optional_candidate (hsettles : Settles limits scope docs inputs merged warnings)
    (hdeclares : List.Forall₂ (Declares limits scope) declared inputs) {i : Nat}
    (hi : i ∈ candidates docs declared) :
    ∃ p, merged[i]? = some p ∧
      (p.optional = some true ↔ ∀ (j : Nat) (q : InputParam), i < j → merged[j]? = some q →
        q.positional = true → q.isRequired = true → j ∈ candidates docs declared) ∧
      (p.optional ≠ some true → p.optional = none ∧
        warnings.count (.contradictoryOptional p.name) = 1) := by
  obtain ⟨p, hp, -, hcases⟩ := exists_candidate hdeclares hsettles hi
  have hblocked := isBlocked_iff hdeclares hsettles i
  rcases hcases with ⟨hfree, hflag⟩ | ⟨hstuck, hflag, honce⟩
  · refine ⟨p, hp, iff_of_true hflag fun j q hij hq hpositional hrequired => ?_,
      fun hother => absurd hflag hother⟩
    by_contra hj
    exact hfree (hblocked.mpr ⟨j, q, hij, hq, hpositional, hrequired, hj⟩)
  · obtain ⟨j, q, hij, hq, hpositional, hrequired, hj⟩ := hblocked.mp hstuck
    have hother : p.optional ≠ some true := by
      rw [hflag]
      exact Option.some_ne_none true |>.symm
    exact ⟨p, hp, iff_of_false hother fun hall => hj (hall j q hij hq hpositional hrequired),
      fun _ => ⟨hflag, honce⟩⟩

theorem Settles.isGreatest (hsettles : Settles limits scope docs inputs merged warnings)
    (hdeclares : List.Forall₂ (Declares limits scope) declared inputs)
    (hordered : merged.Pairwise InputParam.MayPrecede) :
    IsGreatest {chosen : Finset Nat | chosen ⊆ candidates docs declared ∧
      (chooseOptional (candidates docs declared) chosen merged).Pairwise InputParam.MayPrecede}
      (flagged (candidates docs declared) merged) := by
  refine isGreatest_flagged ?_ hordered ?_
  · intro i hi
    obtain ⟨p, hp, hpositional, hcases⟩ := exists_candidate hdeclares hsettles hi
    exact ⟨p, hp, hpositional, hcases.imp And.right fun hflag => hflag.2.1⟩
  · intro i hi hnot
    obtain ⟨p, hp, -, hcases⟩ := exists_candidate hdeclares hsettles hi
    rcases hcases with ⟨-, hflag⟩ | ⟨hblocked, -⟩
    · exact absurd ((mem_flagged_iff hp).mpr ⟨hi, hflag⟩) hnot
    · exact (isBlocked_iff hdeclares hsettles i).mp hblocked

theorem IsOutputDrift.ne_contradictoryOptional {index count : Nat} {outputs : List OutputDoc}
    {w : Warning} (h : IsOutputDrift limits scope index count outputs w) (name : String) :
    w ≠ .contradictoryOptional name := by
  rintro rfl
  obtain ⟨_, _, -, hextra | ⟨_, _, -, -, hunmatched⟩ | ⟨_, _, _, -, -, hunresolved⟩⟩ := h
  · cases hextra
  · cases hunmatched
  · cases hunresolved

end Candidates

theorem exists_assemble_documented {limits : Reference.Limits} {scope : Scope} {d : Declaration}
    {a : Assembled} (h : (assemble limits scope { d with docs := none }).outcome = .ok a)
    (docs : Docs) : ∃ a', (assemble limits scope { d with docs := some docs }).outcome = .ok a' := by
  obtain ⟨hnames, inputs, outputs, _, _, hinputs, houtputs, hmerged, hmade⟩ :=
    (assemble_eq_ok_iff limits scope _ a).mp h
  obtain ⟨rfl, hrest⟩ := Prod.mk.inj (Except.ok.inj hmerged)
  obtain ⟨rfl, -⟩ := Prod.mk.inj hrest
  obtain ⟨hname, hin, hout, -, -⟩ := make_eq_ok hmade
  have hsound : Sound d.name inputs outputs := by
    rw [← hname, ← hin, ← hout]
    exact a.descriptor.sound
  obtain ⟨m, _, warnings, hfollows, hkept, hdocs⟩ :=
    exists_mergeDocs limits scope inputs outputs docs
  obtain ⟨_, hmade'⟩ :=
    Descriptor.exists_make (hfollows.sound_settle hsound hkept) (some docs) d.endpoints
  exact ⟨⟨_, warnings⟩, (assemble_eq_ok_iff limits scope _ _).mpr
    ⟨hnames, inputs, outputs, _, _, hinputs, houtputs, hdocs, hmade'⟩⟩

/-- Of the parameters that documentation alone makes optional, those are optional in the end behind
which no other positional parameter is required: the largest choice that keeps the order. Each of the
others is as the signature has it, and these and only these are warned of, once. -/
theorem assemble_optional (limits : Reference.Limits) (scope : Scope) (d : Declaration) (docs : Docs)
    (signature : Assembled)
    (h : (assemble limits scope { d with docs := none }).outcome = .ok signature) :
    ∃ a, (assemble limits scope { d with docs := some docs }).outcome = .ok a ∧
      (∀ i ∈ candidates docs.inputs d.inputs, ∃ p, a.descriptor.inputs[i]? = some p ∧
        (p.optional = some true ↔ ∀ (j : Nat) (q : InputParam), i < j →
          a.descriptor.inputs[j]? = some q → q.positional = true → q.isRequired = true →
          j ∈ candidates docs.inputs d.inputs) ∧
        (p.optional ≠ some true → p.optional = none ∧
          a.warnings.count (.contradictoryOptional p.name) = 1)) ∧
      IsGreatest {chosen : Finset Nat | chosen ⊆ candidates docs.inputs d.inputs ∧
          (chooseOptional (candidates docs.inputs d.inputs) chosen a.descriptor.inputs).Pairwise
            InputParam.MayPrecede}
        (flagged (candidates docs.inputs d.inputs) a.descriptor.inputs) ∧
      ∀ name, .contradictoryOptional name ∈ a.warnings →
        ∃ i ∈ candidates docs.inputs d.inputs, ∃ p, a.descriptor.inputs[i]? = some p ∧
          p.name = name ∧ p.optional = none := by
  obtain ⟨a, ha⟩ := exists_assemble_documented h docs
  obtain ⟨inputs, outputs, hparts⟩ := exists_assembles ha
  obtain ⟨inputWarnings, outputWarnings, hwarnings, hsettles, hdrift⟩ := hparts.merged
  have hdeclares : List.Forall₂ (Declares limits scope) d.inputs inputs := hparts.declares
  have hsettles : Settles limits scope docs.inputs inputs a.descriptor.inputs inputWarnings :=
    hsettles
  have hcount (name : String) : a.warnings.count (.contradictoryOptional name) =
      inputWarnings.count (.contradictoryOptional name) := by
    have hnone : outputWarnings.count (.contradictoryOptional name) = 0 :=
      List.count_eq_zero.mpr fun hw => (hdrift _ hw).ne_contradictoryOptional name rfl
    rw [hwarnings, List.count_append, hnone, Nat.add_zero]
  refine ⟨a, ha, ?_, ?_, ?_⟩
  · intro i hi
    obtain ⟨p, hp, hoptional, hother⟩ := hsettles.optional_candidate hdeclares hi
    refine ⟨p, hp, hoptional, fun hflag => ?_⟩
    rw [hcount]
    exact hother hflag
  · exact hsettles.isGreatest hdeclares a.descriptor.sound.inputs_ordered
  · intro name hname
    rw [hwarnings] at hname
    rcases List.mem_append.mp hname with hname | hname
    · rcases hsettles.drift _ hname with hother | ⟨i, p, hp, hgrants, hblocked, hwarning⟩
      · exact absurd rfl (hother.ne_contradictoryOptional name)
      · exact ⟨i, (mem_candidates_iff hdeclares hp).mpr hgrants, _,
          hsettles.withdrawn i p hp hgrants hblocked,
          (Warning.contradictoryOptional.inj hwarning).symm, rfl⟩
    · exact absurd rfl ((hdrift _ hname).ne_contradictoryOptional name)

def shelf : Declaration where
  name := "shelf"
  inputs := [{ name := "width", positional := true }, { name := "depth", positional := true },
    { name := "height", positional := true }, { name := "finish" }]

def shelfDocs : Docs where
  inputs := [{ name := "height", optional := some true }, { name := "width" },
    { name := "width", optional := some true }, { name := "width", optional := some false },
    { name := "finish", optional := some true }]

theorem assemble_optional_shelf :
    ∃ signature a,
      (assemble {} (Registry.new "attic").scope { shelf with docs := none }).outcome =
        .ok signature ∧
      (assemble {} (Registry.new "attic").scope { shelf with docs := some shelfDocs }).outcome =
        .ok a ∧
      IsGreatest {chosen : Finset Nat | chosen ⊆ {0, 2} ∧
        (chooseOptional {0, 2} chosen a.descriptor.inputs).Pairwise InputParam.MayPrecede} {2} := by
  have hok : (assemble {} (Registry.new "attic").scope
      { shelf with docs := none }).outcome.toOption.isSome = true := by
    decide +kernel
  have hflagged : (assemble {} (Registry.new "attic").scope
      { shelf with docs := some shelfDocs }).outcome.toOption.map
        (fun a => flagged {0, 2} a.descriptor.inputs) = some {2} := by
    decide +kernel
  have hcandidates : candidates shelfDocs.inputs shelf.inputs = {0, 2} := by decide +kernel
  obtain ⟨signature, h⟩ := Option.isSome_iff_exists.mp hok
  have h := (toOption_eq_some_iff _ signature).mp h
  obtain ⟨a, ha, -, hgreatest, -⟩ := assemble_optional {} _ shelf shelfDocs signature h
  rw [ha] at hflagged
  have hflagged : flagged {0, 2} a.descriptor.inputs = {2} := Option.some.inj hflagged
  rw [hcandidates, hflagged] at hgreatest
  exact ⟨signature, a, h, ha, hgreatest⟩

end Callable.Assembly
