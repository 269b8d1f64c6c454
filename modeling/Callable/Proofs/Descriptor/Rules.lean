import Callable.Proofs.Assembly.Documentation
import Callable.Wire.Records

/-!
The rules of descriptors, one by one. Each error of a check names a rule, and the parameters break it
at the places the error tells of. Parameters are sound exactly if they break no rule, so a check that
fails is right to fail. Descriptors are sound whichever way they are obtained.
-/
namespace Callable

/-- The parameters break the rule that the error names. -/
inductive Breaks (name : String) (inputs : List InputParam) (outputs : List OutputParam) :
    ParamError → Prop
  | functionName : Text.isBlankString name = true → Breaks name inputs outputs .emptyFunctionName
  | inputName {i : Nat} {p : InputParam} : inputs[i]? = some p →
      Text.isBlankString p.name = true → Breaks name inputs outputs (.emptyParamName i)
  | outputName {i : Nat} {p : OutputParam} : outputs[i]? = some p →
      Text.isBlankString p.name = true → Breaks name inputs outputs (.emptyParamName i)
  | repeatedInput {i j : Nat} {p q : InputParam} : i < j → inputs[i]? = some p →
      inputs[j]? = some q → p.name = q.name → Breaks name inputs outputs (.duplicateInput q.name)
  | repeatedOutput {i j : Nat} {p q : OutputParam} : i < j → outputs[i]? = some p →
      outputs[j]? = some q → p.name = q.name → Breaks name inputs outputs (.duplicateOutput q.name)
  | flags {i : Nat} {p : InputParam} : inputs[i]? = some p → p.optional = some false →
      p.default.isSome = true → Breaks name inputs outputs (.contradictoryFlags p.name)
  | order {i j : Nat} {p q : InputParam} : i < j → inputs[i]? = some p → inputs[j]? = some q →
      p.positional = true → q.positional = true → p.isOptional = true → q.isOptional = false →
      Breaks name inputs outputs (.requiredAfterOptional q.name p.name)

section Rules

variable {name : String} {inputs : List InputParam} {outputs : List OutputParam}

/-- Names are not repeated if those at different places differ. -/
theorem nodup_map_iff {α : Type} (f : α → String) (items : List α) :
    (items.map f).Nodup ↔ ∀ (i j : Nat) (a b : α), i < j → items[i]? = some a →
      items[j]? = some b → f a ≠ f b := by
  rw [List.Nodup, List.pairwise_map, List.pairwise_iff_getElem]
  constructor
  · intro h i j a b hij ha hb
    obtain ⟨hi, rfl⟩ := List.getElem?_eq_some_iff.mp ha
    obtain ⟨hj, rfl⟩ := List.getElem?_eq_some_iff.mp hb
    exact h i j hi hj hij
  · intro h i j hi hj hij
    exact h i j _ _ hij (List.getElem?_eq_getElem hi) (List.getElem?_eq_getElem hj)

theorem Sound.not_breaks (h : Sound name inputs outputs) (e : ParamError) :
    ¬ Breaks name inputs outputs e := by
  intro hbreaks
  cases hbreaks with
  | functionName hblank => exact Bool.false_ne_true (h.named.symm.trans hblank)
  | inputName hp hblank =>
    have hnamed := h.inputs_named _ (List.mem_of_getElem? hp)
    exact Bool.false_ne_true (hnamed.symm.trans hblank)
  | outputName hp hblank =>
    have hnamed := h.outputs_named _ (List.mem_of_getElem? hp)
    exact Bool.false_ne_true (hnamed.symm.trans hblank)
  | repeatedInput hij hp hq heq =>
    exact (nodup_map_iff _ _).mp h.inputs_nodup _ _ _ _ hij hp hq heq
  | repeatedOutput hij hp hq heq =>
    exact (nodup_map_iff _ _).mp h.outputs_nodup _ _ _ _ hij hp hq heq
  | flags hp hoptional hdefault =>
    exact h.inputs_consistent _ (List.mem_of_getElem? hp) ⟨hoptional, hdefault⟩
  | order hij hp hq hppos hqpos hpopt hqreq =>
    obtain ⟨hi, rfl⟩ := List.getElem?_eq_some_iff.mp hp
    obtain ⟨hj, rfl⟩ := List.getElem?_eq_some_iff.mp hq
    have hopt := List.pairwise_iff_getElem.mp h.inputs_ordered _ _ hi hj hij hppos hqpos hpopt
    exact Bool.false_ne_true (hqreq.symm.trans hopt)

theorem sound_of_not_breaks (h : ∀ e, ¬ Breaks name inputs outputs e) :
    Sound name inputs outputs where
  named := by
    rw [← Bool.not_eq_true]
    exact fun hblank => h _ (Breaks.functionName hblank)
  inputs_named p hp := by
    obtain ⟨i, hi⟩ := List.getElem?_of_mem hp
    rw [← Bool.not_eq_true]
    exact fun hblank => h _ (Breaks.inputName hi hblank)
  inputs_nodup := by
    rw [nodup_map_iff]
    intro i j p q hij hp hq heq
    exact h _ (Breaks.repeatedInput hij hp hq heq)
  inputs_consistent p hp hflags := by
    obtain ⟨i, hi⟩ := List.getElem?_of_mem hp
    exact h _ (Breaks.flags hi hflags.1 hflags.2)
  inputs_ordered := by
    rw [List.pairwise_iff_getElem]
    intro i j hi hj hij hppos hqpos hpopt
    rw [← Bool.not_eq_false]
    intro hqreq
    exact h _ (Breaks.order hij (List.getElem?_eq_getElem hi) (List.getElem?_eq_getElem hj) hppos
      hqpos hpopt hqreq)
  outputs_named p hp := by
    obtain ⟨i, hi⟩ := List.getElem?_of_mem hp
    rw [← Bool.not_eq_true]
    exact fun hblank => h _ (Breaks.outputName hi hblank)
  outputs_nodup := by
    rw [nodup_map_iff]
    intro i j p q hij hp hq heq
    exact h _ (Breaks.repeatedOutput hij hp hq heq)

theorem sound_iff_not_breaks :
    Sound name inputs outputs ↔ ∀ e, ¬ Breaks name inputs outputs e :=
  ⟨Sound.not_breaks, sound_of_not_breaks⟩

theorem InputParam.check_eq_error {p : InputParam} {position : Nat} {e : ParamError}
    (h : p.check position = .error e) :
    (e = .emptyParamName position ∧ Text.isBlankString p.name = true) ∨
      (e = .contradictoryFlags p.name ∧ p.optional = some false ∧ p.default.isSome = true) := by
  unfold InputParam.check at h
  split at h
  · rename_i hblank
    cases h
    exact Or.inl ⟨rfl, hblank⟩
  · split at h
    · rename_i hflags
      cases h
      exact Or.inr ⟨rfl, hflags⟩
    · cases h

/-- An item that was read has a place before that of the next item. -/
theorem exists_place_of_mem {α : Type} {above : List α} {a : α} (h : a ∈ above) (rest : List α) :
    ∃ i, i < above.length ∧ (above ++ rest)[i]? = some a := by
  obtain ⟨i, hi, rfl⟩ := List.mem_iff_getElem.mp h
  refine ⟨i, hi, ?_⟩
  rw [List.getElem?_append_left hi, List.getElem?_eq_getElem hi]

theorem getElem?_append_length {α : Type} (above rest : List α) (a : α) :
    (above ++ a :: rest)[above.length]? = some a := by
  rw [List.getElem?_append_right (Nat.le_refl _), Nat.sub_self, List.getElem?_cons_zero]

/-- Names that were seen belong to items that were read. -/
def Seen {α : Type} (f : α → String) (above : List α) (seen : List String) : Prop :=
  ∀ n ∈ seen, ∃ a ∈ above, f a = n

theorem Seen.next {α : Type} {f : α → String} {above : List α} {seen : List String}
    (h : Seen f above seen) (a : α) : Seen f (above ++ [a]) (f a :: seen) := by
  intro n hn
  rcases List.mem_cons.mp hn with rfl | hn
  · exact ⟨a, List.mem_append_right _ List.mem_cons_self, rfl⟩
  · obtain ⟨b, hb, hname⟩ := h n hn
    exact ⟨b, List.mem_append_left _ hb, hname⟩

/-- The parameter by which a check remembers that an optional one was read. -/
def Remembers (above : List InputParam) (before : Option String) : Prop :=
  ∀ n, before = some n → ∃ p ∈ above, p.positional = true ∧ p.isOptional = true ∧ p.name = n

theorem Remembers.skip {above : List InputParam} {before : Option String}
    (h : Remembers above before) (p : InputParam) : Remembers (above ++ [p]) before := by
  intro n hn
  obtain ⟨q, hq, hrule⟩ := h n hn
  exact ⟨q, List.mem_append_left _ hq, hrule⟩

theorem remembers_none (above : List InputParam) : Remembers above none := by
  intro n hn
  cases hn

theorem remembers_last (above : List InputParam) {p : InputParam} (hpos : p.positional = true)
    (hopt : p.isOptional = true) : Remembers (above ++ [p]) (some p.name) := by
  rintro _ ⟨⟩
  exact ⟨p, List.mem_append_right _ List.mem_cons_self, hpos, hopt, rfl⟩

/-- A check that has read `above` and fails in the rest names a rule that all parameters together
break. -/
theorem breaks_of_checkInputs (above : List InputParam) {rest : List InputParam} {seen : List String}
    {before : Option String} (hseen : Seen InputParam.name above seen)
    (hbefore : Remembers above before) {e : ParamError}
    (h : checkInputs above.length seen before rest = .error e) :
    Breaks name (above ++ rest) outputs e := by
  induction rest generalizing above seen before with
  | nil => cases h
  | cons p rest ih =>
    have hp : (above ++ p :: rest)[above.length]? = some p := getElem?_append_length above rest p
    have hnext {after : Option String} (hafter : Remembers (above ++ [p]) after)
        (hfail : checkInputs (above.length + 1) (p.name :: seen) after rest = .error e) :
        Breaks name (above ++ p :: rest) outputs e := by
      have hlength : (above ++ [p]).length = above.length + 1 := List.length_append
      rw [← hlength] at hfail
      have hbreaks := ih (above ++ [p]) (hseen.next p) hafter hfail
      rwa [List.append_assoc] at hbreaks
    unfold checkInputs at h
    split at h
    · rename_i hcheck
      cases h
      rcases InputParam.check_eq_error hcheck with ⟨rfl, hblank⟩ | ⟨rfl, hoptional, hdefault⟩
      · exact Breaks.inputName hp hblank
      · exact Breaks.flags hp hoptional hdefault
    · split at h
      · rename_i hold
        cases h
        obtain ⟨q, hq, hname⟩ := hseen p.name hold
        obtain ⟨i, hi, hplace⟩ := exists_place_of_mem hq (p :: rest)
        exact Breaks.repeatedInput hi hplace hp hname
      · split at h
        · exact hnext (hbefore.skip p) h
        · rename_i hpos
          rw [Bool.not_eq_true, Bool.not_eq_false'] at hpos
          split at h
          · rename_i hopt
            exact hnext (remembers_last above hpos hopt) h
          · rename_i hreq
            rw [Bool.not_eq_true] at hreq
            split at h
            · rename_i after
              cases h
              obtain ⟨q, hq, hqpos, hqopt, rfl⟩ := hbefore after rfl
              obtain ⟨i, hi, hplace⟩ := exists_place_of_mem hq (p :: rest)
              exact Breaks.order hi hplace hp hqpos hpos hqopt hreq
            · exact hnext (remembers_none _) h

theorem breaks_of_checkOutputs (above : List OutputParam) {rest : List OutputParam}
    {seen : List String} (hseen : Seen OutputParam.name above seen) {e : ParamError}
    (h : checkOutputs above.length seen rest = .error e) :
    Breaks name inputs (above ++ rest) e := by
  induction rest generalizing above seen with
  | nil => cases h
  | cons p rest ih =>
    have hp : (above ++ p :: rest)[above.length]? = some p := getElem?_append_length above rest p
    unfold checkOutputs at h
    split at h
    · rename_i hblank
      cases h
      exact Breaks.outputName hp hblank
    · split at h
      · rename_i hold
        cases h
        obtain ⟨q, hq, hname⟩ := hseen p.name hold
        obtain ⟨i, hi, hplace⟩ := exists_place_of_mem hq (p :: rest)
        exact Breaks.repeatedOutput hi hplace hp hname
      · have hlength : (above ++ [p]).length = above.length + 1 := List.length_append
        rw [← hlength] at h
        have hbreaks := ih (above ++ [p]) (hseen.next p) h
        rwa [List.append_assoc] at hbreaks

theorem breaks_of_checkParams {e : ParamError} (h : checkParams name inputs outputs = .error e) :
    Breaks name inputs outputs e := by
  unfold checkParams at h
  split at h
  · rename_i hblank
    cases h
    exact Breaks.functionName hblank
  · split at h
    · rename_i hinputs
      cases h
      exact breaks_of_checkInputs [] (fun n hn => by cases hn) (remembers_none []) hinputs
    · exact breaks_of_checkOutputs [] (fun n hn => by cases hn) h

end Rules

theorem Descriptor.breaks_of_make {name : String} {inputs : List InputParam}
    {outputs : List OutputParam} {docs : Option Docs} {endpoints : Endpoints} {e : ParamError}
    (h : Descriptor.make name inputs outputs docs endpoints = .error e) :
    Breaks name inputs outputs e := by
  unfold Descriptor.make at h
  split at h
  · rename_i hfail
    cases h
    exact breaks_of_checkParams hfail
  · cases h

/-- Endpoints have no part in what is checked. -/
theorem Descriptor.make_withEndpoints (name : String) (inputs : List InputParam)
    (outputs : List OutputParam) (docs : Option Docs) (endpoints others : Endpoints) :
    Descriptor.make name inputs outputs docs others =
      (Descriptor.make name inputs outputs docs endpoints).map (·.withEndpoints others) := by
  unfold Descriptor.make
  split
  · rfl
  · rfl

/-- Parameters make a descriptor exactly if they break no rule; else the error names a rule that they
break. What is made has the given parts, endpoints may be replaced later, and a descriptor is sound
however it was obtained: made, given other endpoints, read from its wire form or assembled. -/
theorem Descriptor.make_decides (name : String) (inputs : List InputParam)
    (outputs : List OutputParam) (docs : Option Docs) (endpoints : Endpoints) :
    ((∃ made, Descriptor.make name inputs outputs docs endpoints = .ok made) ↔
      Sound name inputs outputs) ∧
    (Sound name inputs outputs ↔ ∀ e, ¬ Breaks name inputs outputs e) ∧
    (∀ e, Descriptor.make name inputs outputs docs endpoints = .error e →
      Breaks name inputs outputs e) ∧
    (∀ made, Descriptor.make name inputs outputs docs endpoints = .ok made →
      made.name = name ∧ made.inputs = inputs ∧ made.outputs = outputs ∧ made.docs = docs ∧
        made.endpoints = endpoints) ∧
    (∀ others, Descriptor.make name inputs outputs docs others =
      (Descriptor.make name inputs outputs docs endpoints).map (·.withEndpoints others)) ∧
    (∀ (d : Descriptor) others, Sound (d.withEndpoints others).name (d.withEndpoints others).inputs
      (d.withEndpoints others).outputs) ∧
    (∀ origin draft d, Wire.descriptor origin draft = .ok d → Sound d.name d.inputs d.outputs) ∧
    ∀ limits scope declaration a, (Assembly.assemble limits scope declaration).outcome = .ok a →
      Sound a.descriptor.name a.descriptor.inputs a.descriptor.outputs := by
  refine ⟨⟨?_, ?_⟩, sound_iff_not_breaks, fun e => Descriptor.breaks_of_make,
    fun made => Assembly.make_eq_ok, Descriptor.make_withEndpoints name inputs outputs docs endpoints,
    fun d others => (d.withEndpoints others).sound, fun _ _ d _ => d.sound,
    fun _ _ _ a _ => a.descriptor.sound⟩
  · intro h
    obtain ⟨made, hmade⟩ := h
    obtain ⟨rfl, rfl, rfl, -, -⟩ := Assembly.make_eq_ok hmade
    exact made.sound
  · intro h
    obtain ⟨sound, hmade⟩ := Descriptor.exists_make h docs endpoints
    exact ⟨_, hmade⟩

end Callable
