import Callable.Descriptor.Basic

/-!
The checks of a descriptor accept exactly what is sound. That what passes is sound comes with the
type of descriptors; here sound parameters are shown to pass.
-/
namespace Callable

/-- What is left of sound parameters once the first is checked. -/
theorem InputsSound.tail {p : InputParam} {rest : List InputParam} {seen : List String}
    {before after : Option String} (h : InputsSound seen before (p :: rest))
    (hafter : after.isSome = true →
      before.isSome = true ∨ (p.positional = true ∧ p.isOptional = true)) :
    InputsSound (p.name :: seen) after rest where
  named q hq := h.named q (List.mem_cons_of_mem _ hq)
  fresh q hq := by
    rw [List.mem_cons, not_or]
    have hnodup := (List.nodup_cons.mp h.nodup).1
    exact ⟨fun heq => hnodup (heq ▸ List.mem_map_of_mem hq),
      h.fresh q (List.mem_cons_of_mem _ hq)⟩
  nodup := (List.nodup_cons.mp h.nodup).2
  consistent q hq := h.consistent q (List.mem_cons_of_mem _ hq)
  ordered := (List.pairwise_cons.mp h.ordered).2
  optionalAfter hsome q hq hpos := by
    rcases hafter hsome with hbefore | ⟨hppos, hpopt⟩
    · exact h.optionalAfter hbefore q (List.mem_cons_of_mem _ hq) hpos
    · exact (List.pairwise_cons.mp h.ordered).1 q hq hppos hpos hpopt

theorem checkInputs_of_inputsSound {seen : List String} {before : Option String}
    {inputs : List InputParam} (h : InputsSound seen before inputs) (position : Nat) :
    checkInputs position seen before inputs = .ok () := by
  induction inputs generalizing position seen before with
  | nil => rfl
  | cons p rest ih =>
    have hmem : p ∈ p :: rest := List.mem_cons_self
    have hcheck := (p.check_eq_ok_iff position).mpr ⟨h.named p hmem, h.consistent p hmem⟩
    unfold checkInputs
    simp only [hcheck, h.fresh p hmem, if_false]
    by_cases hpos : p.positional = true
    · by_cases hopt : p.isOptional = true
      · simp only [hpos, hopt, Bool.not_true, Bool.false_eq_true, if_false, if_true]
        exact ih (h.tail fun _ => Or.inr ⟨hpos, hopt⟩) (position + 1)
      · simp only [hpos, hopt, Bool.not_true, Bool.false_eq_true, if_false]
        cases before with
        | some name => exact absurd (h.optionalAfter rfl p hmem hpos) hopt
        | none => exact ih (h.tail fun hsome => by cases hsome) (position + 1)
    · rw [Bool.not_eq_true] at hpos
      simp only [hpos, Bool.not_false, if_true]
      exact ih (h.tail Or.inl) (position + 1)

theorem checkOutputs_eq_ok {seen : List String} {outputs : List OutputParam}
    (hnamed : ∀ p ∈ outputs, Text.isBlankString p.name = false)
    (hfresh : ∀ p ∈ outputs, p.name ∉ seen) (hnodup : (outputs.map OutputParam.name).Nodup)
    (position : Nat) : checkOutputs position seen outputs = .ok () := by
  induction outputs generalizing position seen with
  | nil => rfl
  | cons p rest ih =>
    obtain ⟨hp, hrest⟩ := List.forall_mem_cons.mp hnamed
    obtain ⟨hpfresh, hrestfresh⟩ := List.forall_mem_cons.mp hfresh
    obtain ⟨hpnew, hrestnodup⟩ := List.nodup_cons.mp hnodup
    unfold checkOutputs
    simp only [hp, hpfresh, Bool.false_eq_true, if_false]
    refine ih hrest (fun q hq => ?_) hrestnodup (position + 1)
    rw [List.mem_cons, not_or]
    exact ⟨fun heq => hpnew (heq ▸ List.mem_map_of_mem hq), hrestfresh q hq⟩

theorem checkParams_eq_ok_iff (name : String) (inputs : List InputParam)
    (outputs : List OutputParam) :
    checkParams name inputs outputs = .ok () ↔ Sound name inputs outputs := by
  constructor
  · exact sound_of_checkParams
  · intro h
    have hinputs : InputsSound [] none inputs :=
      ⟨h.inputs_named, fun p _ => List.not_mem_nil, h.inputs_nodup, h.inputs_consistent,
        h.inputs_ordered, fun hsome => by cases hsome⟩
    unfold checkParams
    rw [checkInputs_of_inputsSound hinputs 0]
    simp only [h.named, Bool.false_eq_true, if_false]
    exact checkOutputs_eq_ok h.outputs_named (fun p _ => List.not_mem_nil) h.outputs_nodup 0

/-- Sound parameters make a descriptor, whatever the documentation and endpoints. -/
theorem Descriptor.exists_make {name : String} {inputs : List InputParam}
    {outputs : List OutputParam} (h : Sound name inputs outputs) (docs : Option Docs)
    (endpoints : Endpoints) :
    ∃ sound, Descriptor.make name inputs outputs docs endpoints =
      .ok ⟨name, inputs, outputs, docs, endpoints, sound⟩ := by
  unfold Descriptor.make
  split
  · rename_i hfail
    cases hfail.symm.trans ((checkParams_eq_ok_iff name inputs outputs).mpr h)
  · exact ⟨h, rfl⟩

end Callable
