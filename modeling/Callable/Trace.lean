/-!
Work that leaves a trace. A `Logged` value is the outcome of some work with the events noted on the
way, in order; what was noted before a failure stays noted. The outcome never depends on the events.
-/
namespace Callable

inductive Level where
  | trace
  | debug
  deriving DecidableEq, Repr

/-- What an event tells about one of its fields. -/
inductive Detail where
  | text (s : String)
  | count (n : Nat)
  deriving DecidableEq, Repr

structure Event where
  level : Level
  message : String
  fields : List (String × Detail)
  deriving DecidableEq, Repr

structure Logged (ε α : Type) where
  events : List Event
  outcome : Except ε α

namespace Logged

variable {ε ε' α β : Type}

def ok (a : α) : Logged ε α := ⟨[], .ok a⟩

def error (e : ε) : Logged ε α := ⟨[], .error e⟩

def ofExcept (outcome : Except ε α) : Logged ε α := ⟨[], outcome⟩

def note (event : Event) : Logged ε Unit := ⟨[event], .ok ()⟩

def noteAll (events : List Event) : Logged ε Unit := ⟨events, .ok ()⟩

def bind (work : Logged ε α) (next : α → Logged ε β) : Logged ε β :=
  match work.outcome with
  | .error e => ⟨work.events, .error e⟩
  | .ok a => ⟨work.events ++ (next a).events, (next a).outcome⟩

instance : Monad (Logged ε) where
  pure := ok
  bind := bind

instance : MonadExcept ε (Logged ε) where
  throw := error
  tryCatch work handler :=
    match work.outcome with
    | .ok _ => work
    | .error e => ⟨work.events ++ (handler e).events, (handler e).outcome⟩

def mapError (f : ε → ε') (work : Logged ε α) : Logged ε' α :=
  ⟨work.events, work.outcome.mapError f⟩

/-- The work as a step that cannot fail and hands its outcome on. -/
def attempt (work : Logged ε α) : Logged ε' (Except ε α) := ⟨work.events, .ok work.outcome⟩

@[simp] theorem outcome_pure (a : α) : (pure a : Logged ε α).outcome = .ok a := rfl

@[simp] theorem outcome_ok (a : α) : (ok a : Logged ε α).outcome = .ok a := rfl

@[simp] theorem outcome_error (e : ε) : (error e : Logged ε α).outcome = .error e := rfl

@[simp] theorem outcome_throw (e : ε) : (throw e : Logged ε α).outcome = .error e := rfl

@[simp] theorem outcome_ofExcept (outcome : Except ε α) :
    (ofExcept outcome).outcome = outcome := rfl

@[simp] theorem outcome_note (event : Event) : (note event : Logged ε Unit).outcome = .ok () := rfl

@[simp] theorem outcome_noteAll (events : List Event) :
    (noteAll events : Logged ε Unit).outcome = .ok () := rfl

@[simp] theorem outcome_bind (work : Logged ε α) (next : α → Logged ε β) :
    (work >>= next).outcome = work.outcome >>= fun a => (next a).outcome := by
  change (bind work next).outcome = Except.bind work.outcome _
  unfold bind Except.bind
  split <;> simp [*]

@[simp] theorem outcome_mapError (f : ε → ε') (work : Logged ε α) :
    (work.mapError f).outcome = work.outcome.mapError f := rfl

@[simp] theorem outcome_attempt (work : Logged ε α) :
    (work.attempt : Logged ε' _).outcome = .ok work.outcome := rfl

theorem bind_eq_ok_iff (work : Logged ε α) (next : α → Logged ε β) (b : β) :
    (work >>= next).outcome = .ok b ↔ ∃ a, work.outcome = .ok a ∧ (next a).outcome = .ok b := by
  rw [outcome_bind]
  cases work.outcome with
  | error e => exact iff_of_false (fun h => by cases h) (by rintro ⟨_, ⟨⟩, -⟩)
  | ok a =>
    constructor
    · exact fun h => ⟨a, rfl, h⟩
    · rintro ⟨_, ⟨⟩, h⟩
      exact h

theorem mapError_eq_ok_iff (f : ε → ε') (work : Logged ε α) (a : α) :
    (work.mapError f).outcome = .ok a ↔ work.outcome = .ok a := by
  rw [outcome_mapError]
  cases work.outcome with
  | error e => exact iff_of_false (fun h => by cases h) (fun h => by cases h)
  | ok b =>
    constructor
    · rintro ⟨⟩
      rfl
    · rintro ⟨⟩
      rfl

end Logged
end Callable
