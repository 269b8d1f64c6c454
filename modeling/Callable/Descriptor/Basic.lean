import Callable.Docs.Basic
import Callable.Text.Blank
/-!
Descriptors: what a caller needs to know of a function. A descriptor is sound: names are not blank
and not repeated, no parameter with a default says that it is not optional, and among the positional
parameters no required one follows an optional one. `Descriptor.make` checks the rules in one pass
and is the only way to a descriptor.
-/
namespace Callable

/-- How a parameter or function is exposed by a protocol: its middleware in order of execution. -/
structure Endpoint where
  middleware : List String := []
  deriving DecidableEq, Repr

def Endpoint.isPassthrough (e : Endpoint) : Bool := e.middleware.isEmpty

abbrev Endpoints := Table Endpoint

structure InputParam where
  name : String
  type : String
  positional : Bool := false
  default : Option Json := none
  optional : Option Bool := none
  description : Option String := none
  middleware : List String := []
  endpoints : Endpoints := []
  deriving DecidableEq, Repr

def InputParam.isOptional (p : InputParam) : Bool := p.optional == some true || p.default.isSome

def InputParam.isRequired (p : InputParam) : Bool := !p.isOptional

structure OutputParam where
  name : String
  type : String
  description : Option String := none
  endpoints : Endpoints := []
  deriving DecidableEq, Repr

inductive ParamError where
  | emptyFunctionName
  | emptyParamName (position : Nat)
  | duplicateInput (name : String)
  | duplicateOutput (name : String)
  | contradictoryFlags (name : String)
  | requiredAfterOptional (name after : String)
  | unserializableDefault (name detail : String)
  deriving DecidableEq, Repr

def ParamError.message : ParamError → String
  | emptyFunctionName => "function name must be non-empty"
  | emptyParamName position =>
    "parameter name at position " ++ toString position ++ " must be non-empty"
  | duplicateInput name => "duplicate input parameter name: " ++ name
  | duplicateOutput name => "duplicate output parameter name: " ++ name
  | contradictoryFlags name =>
    "contradictory flags on parameter " ++ name ++ ": optional is false but a default is present"
  | requiredAfterOptional name after =>
    "required positional parameter " ++ name ++ " follows optional parameter " ++ after
  | unserializableDefault name detail =>
    "default for parameter " ++ name ++ " is not serializable: " ++ detail

def InputParam.check (p : InputParam) (position : Nat) : Except ParamError Unit :=
  if Text.isBlankString p.name then .error (.emptyParamName position)
  else if p.optional = some false ∧ p.default.isSome then .error (.contradictoryFlags p.name)
  else .ok ()

theorem InputParam.check_eq_ok_iff (p : InputParam) (position : Nat) :
    p.check position = .ok () ↔ Text.isBlankString p.name = false ∧
      ¬ (p.optional = some false ∧ p.default.isSome = true) := by
  unfold InputParam.check
  split
  · rename_i hblank
    simp [hblank]
  · rename_i hblank
    split
    · rename_i hflags
      simp [hflags]
    · rename_i hflags
      simp [hblank, hflags]

/-- Whether `q` may follow `p` among the parameters. -/
def InputParam.MayPrecede (p q : InputParam) : Prop :=
  p.positional = true → q.positional = true → p.isOptional = true → q.isOptional = true

/-- The rules that a descriptor obeys. -/
structure Sound (name : String) (inputs : List InputParam) (outputs : List OutputParam) :
    Prop where
  named : Text.isBlankString name = false
  inputs_named : ∀ p ∈ inputs, Text.isBlankString p.name = false
  inputs_nodup : (inputs.map InputParam.name).Nodup
  inputs_consistent : ∀ p ∈ inputs, ¬ (p.optional = some false ∧ p.default.isSome = true)
  inputs_ordered : inputs.Pairwise InputParam.MayPrecede
  outputs_named : ∀ p ∈ outputs, Text.isBlankString p.name = false
  outputs_nodup : (outputs.map OutputParam.name).Nodup

/-- Checks parameters from a position on, given the names before it and the last optional positional
parameter before it. -/
def checkInputs (position : Nat) (seen : List String) (optionalBefore : Option String) :
    List InputParam → Except ParamError Unit
  | [] => .ok ()
  | p :: rest =>
    match p.check position with
    | .error e => .error e
    | .ok () =>
      if p.name ∈ seen then .error (.duplicateInput p.name)
      else if !p.positional then checkInputs (position + 1) (p.name :: seen) optionalBefore rest
      else if p.isOptional then checkInputs (position + 1) (p.name :: seen) (some p.name) rest
      else
        match optionalBefore with
        | some after => .error (.requiredAfterOptional p.name after)
        | none => checkInputs (position + 1) (p.name :: seen) none rest

def checkOutputs (position : Nat) (seen : List String) : List OutputParam → Except ParamError Unit
  | [] => .ok ()
  | p :: rest =>
    if Text.isBlankString p.name then .error (.emptyParamName position)
    else if p.name ∈ seen then .error (.duplicateOutput p.name)
    else checkOutputs (position + 1) (p.name :: seen) rest

/-- What a successful check says of the parameters from a position on. -/
structure InputsSound (seen : List String) (optionalBefore : Option String)
    (inputs : List InputParam) : Prop where
  named : ∀ p ∈ inputs, Text.isBlankString p.name = false
  fresh : ∀ p ∈ inputs, p.name ∉ seen
  nodup : (inputs.map InputParam.name).Nodup
  consistent : ∀ p ∈ inputs, ¬ (p.optional = some false ∧ p.default.isSome = true)
  ordered : inputs.Pairwise InputParam.MayPrecede
  optionalAfter : optionalBefore.isSome = true →
    ∀ p ∈ inputs, p.positional = true → p.isOptional = true

theorem InputsSound.cons {p : InputParam} {rest : List InputParam} {seen : List String}
    {before after : Option String} {position : Nat} (hp : p.check position = .ok ())
    (hseen : p.name ∉ seen) (hrest : InputsSound (p.name :: seen) after rest)
    (hkeep : before.isSome = true → after.isSome = true)
    (hbefore : before.isSome = true → p.positional = true → p.isOptional = true)
    (hafter : p.positional = true → p.isOptional = true → after.isSome = true) :
    InputsSound seen before (p :: rest) := by
  obtain ⟨hname, hflags⟩ := (p.check_eq_ok_iff position).mp hp
  refine ⟨?_, ?_, ?_, ?_, ?_, ?_⟩
  · exact List.forall_mem_cons.mpr ⟨hname, hrest.named⟩
  · exact List.forall_mem_cons.mpr
      ⟨hseen, fun q hq h => hrest.fresh q hq (List.mem_cons_of_mem _ h)⟩
  · simp only [List.map_cons, List.nodup_cons, List.mem_map, not_exists, not_and]
    refine ⟨fun q hq heq => hrest.fresh q hq ?_, hrest.nodup⟩
    rw [heq]
    exact List.mem_cons_self
  · exact List.forall_mem_cons.mpr ⟨hflags, hrest.consistent⟩
  · refine List.pairwise_cons.mpr ⟨?_, hrest.ordered⟩
    intro q hq hpos hqpos hopt
    exact hrest.optionalAfter (hafter hpos hopt) q hq hqpos
  · intro hsome
    exact List.forall_mem_cons.mpr
      ⟨hbefore hsome, hrest.optionalAfter (hkeep hsome)⟩

theorem inputsSound_of_checkInputs {position : Nat} {seen : List String} {before : Option String}
    {inputs : List InputParam} (h : checkInputs position seen before inputs = .ok ()) :
    InputsSound seen before inputs := by
  induction inputs generalizing position seen before with
  | nil => constructor <;> simp
  | cons p rest ih =>
    unfold checkInputs at h
    split at h
    · simp at h
    · rename_i hp
      split at h
      · simp at h
      · rename_i hseen
        split at h
        · rename_i hpos
          refine (ih h).cons hp hseen id ?_ ?_ <;> simp_all
        · split at h
          · rename_i hopt
            refine (ih h).cons hp hseen ?_ ?_ ?_ <;> simp_all
          · rename_i hopt
            split at h
            · simp at h
            · refine (ih h).cons hp hseen ?_ ?_ ?_ <;> simp_all

theorem outputsSound_of_checkOutputs {position : Nat} {seen : List String}
    {outputs : List OutputParam} (h : checkOutputs position seen outputs = .ok ()) :
    (∀ p ∈ outputs, Text.isBlankString p.name = false) ∧ (∀ p ∈ outputs, p.name ∉ seen) ∧
      (outputs.map OutputParam.name).Nodup := by
  induction outputs generalizing position seen with
  | nil => simp
  | cons p rest ih =>
    unfold checkOutputs at h
    split at h
    · simp at h
    · rename_i hname
      split at h
      · simp at h
      · rename_i hseen
        obtain ⟨hnamed, hfresh, hnodup⟩ := ih h
        refine ⟨List.forall_mem_cons.mpr ⟨by simpa using hname, hnamed⟩, ?_, ?_⟩
        · exact List.forall_mem_cons.mpr
            ⟨hseen, fun q hq h => hfresh q hq (List.mem_cons_of_mem _ h)⟩
        · simp only [List.map_cons, List.nodup_cons, List.mem_map, not_exists, not_and]
          refine ⟨fun q hq heq => hfresh q hq ?_, hnodup⟩
          rw [heq]
          exact List.mem_cons_self

/-- Checks what `Sound` asks for; the first rule that is broken decides the error. -/
def checkParams (name : String) (inputs : List InputParam) (outputs : List OutputParam) :
    Except ParamError Unit :=
  if Text.isBlankString name then .error .emptyFunctionName
  else
    match checkInputs 0 [] none inputs with
    | .error e => .error e
    | .ok () => checkOutputs 0 [] outputs

theorem sound_of_checkParams {name : String} {inputs : List InputParam}
    {outputs : List OutputParam} (h : checkParams name inputs outputs = .ok ()) :
    Sound name inputs outputs := by
  unfold checkParams at h
  split at h
  · simp at h
  · rename_i hname
    split at h
    · simp at h
    · rename_i hin
      have hin := inputsSound_of_checkInputs hin
      obtain ⟨hnamed, -, hnodup⟩ := outputsSound_of_checkOutputs h
      exact ⟨by simpa using hname, hin.named, hin.nodup, hin.consistent, hin.ordered, hnamed,
        hnodup⟩

structure Descriptor where
  name : String
  inputs : List InputParam
  outputs : List OutputParam
  docs : Option Docs
  endpoints : Endpoints
  sound : Sound name inputs outputs
  deriving DecidableEq

namespace Descriptor

/-- The descriptor of some parameters, or the first rule they break. -/
def make (name : String) (inputs : List InputParam) (outputs : List OutputParam)
    (docs : Option Docs) (endpoints : Endpoints) : Except ParamError Descriptor :=
  match h : checkParams name inputs outputs with
  | .error e => .error e
  | .ok () => .ok ⟨name, inputs, outputs, docs, endpoints, sound_of_checkParams h⟩

def withEndpoints (d : Descriptor) (endpoints : Endpoints) : Descriptor := { d with endpoints }

def input? (d : Descriptor) (name : String) : Option InputParam :=
  d.inputs.find? fun p => p.name = name

def requiredInputs (d : Descriptor) : List String :=
  (d.inputs.filter InputParam.isRequired).map InputParam.name

end Descriptor
end Callable
