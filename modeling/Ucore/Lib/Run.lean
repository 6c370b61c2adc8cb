import Mathlib.Data.List.Basic
import Mathlib.Tactic.Common
import Ucore.Lib.Sizes

set_option autoImplicit false

namespace Ucore.Lib

-- A system is a partial step function: none is a step that is not enabled or
-- does not return. A run feeds it a finite list of events.
section Runs

variable {State Event : Type}

def run (step : State → Event → Option State) : State → List Event → Option State
  | state, [] => some state
  | state, event :: events => (step state event).bind fun next => run step next events

theorem run_append (step : State → Event → Option State) (first second : List Event) (state : State) :
    run step state (first ++ second) = (run step state first).bind fun next => run step next second := by
  induction first generalizing state with
  | nil => rfl
  | cons event rest ih =>
      cases taken : step state event with
      | none => simp [run, taken]
      | some next => simp [run, taken, ih]

-- Every step of the run starts in a state and with an event that meet the
-- condition; nothing is said after a step that does not return.
def Throughout (step : State → Event → Option State) (condition : State → Event → Prop) : State → List Event → Prop
  | _, [] => True
  | state, event :: events =>
      condition state event ∧ ∀ next ∈ step state event, Throughout step condition next events

instance decidableThroughout (step : State → Event → Option State) (condition : State → Event → Prop)
    [∀ state event, Decidable (condition state event)] :
    (state : State) → (events : List Event) → Decidable (Throughout step condition state events)
  | _, [] => inferInstanceAs (Decidable True)
  | state, event :: events =>
      have _ : ∀ next, Decidable (Throughout step condition next events) := fun next =>
        decidableThroughout step condition next events
      inferInstanceAs (Decidable (condition state event ∧ ∀ next ∈ step state event, Throughout step condition next events))

theorem run_invariant (step : State → Event → Option State) (condition : State → Event → Prop) (inv : State → Prop)
    (keep : ∀ state event next, inv state → condition state event → step state event = some next → inv next)
    (events : List Event) (state final : State) (start : inv state)
    (met : Throughout step condition state events) (ran : run step state events = some final) : inv final := by
  induction events generalizing state with
  | nil =>
      have same : state = final := Option.some.inj ran
      exact same ▸ start
  | cons event events ih =>
      cases taken : step state event with
      | none => simp [run, taken] at ran
      | some next =>
          simp only [run, taken, Option.bind_some] at ran
          exact ih next (keep state event next start met.1 taken) (met.2 next taken) ran

theorem throughout_trivial (step : State → Event → Option State) (condition : State → Event → Prop)
    (always : ∀ state event, condition state event) (events : List Event) (state : State) :
    Throughout step condition state events := by
  induction events generalizing state with
  | nil => trivial
  | cons event events ih => exact ⟨always state event, fun next _ => ih next⟩

theorem throughout_forall (step : State → Event → Option State) (condition : Event → Prop) (events : List Event) (state : State)
    (all : ∀ event ∈ events, condition event) : Throughout step (fun _ event => condition event) state events := by
  induction events generalizing state with
  | nil => trivial
  | cons event events ih => exact ⟨all event (by simp), fun next _ => ih next fun other member => all other (by simp [member])⟩

theorem throughout_and (step : State → Event → Option State) (left right : State → Event → Prop) (events : List Event) (state : State) :
    Throughout step (fun state event => left state event ∧ right state event) state events ↔
      Throughout step left state events ∧ Throughout step right state events := by
  induction events generalizing state with
  | nil => exact ⟨fun _ => ⟨trivial, trivial⟩, fun _ => trivial⟩
  | cons event events ih =>
      constructor
      · intro met
        exact ⟨⟨met.1.1, fun next taken => ((ih next).mp (met.2 next taken)).1⟩, met.1.2, fun next taken => ((ih next).mp (met.2 next taken)).2⟩
      · intro met
        exact ⟨⟨met.1.1, met.2.1⟩, fun next taken => (ih next).mpr ⟨met.1.2 next taken, met.2.2 next taken⟩⟩

-- Two conditions that agree wherever an invariant and a common assumption hold
-- agree over a whole run.
theorem throughout_congr (step : State → Event → Option State) (inv : State → Prop) (assumed left right : State → Event → Prop)
    (keep : ∀ state event next, inv state → left state event → step state event = some next → inv next)
    (same : ∀ state event, inv state → assumed state event → (left state event ↔ right state event))
    (events : List Event) (state : State) (start : inv state) (met : Throughout step assumed state events) :
    Throughout step left state events ↔ Throughout step right state events := by
  induction events generalizing state with
  | nil => exact Iff.rfl
  | cons event events ih =>
      have here := same state event start met.1
      constructor
      · rintro ⟨now, later⟩
        refine ⟨here.mp now, fun next taken => ?_⟩
        exact (ih next (keep state event next start now taken) (met.2 next taken)).mp (later next taken)
      · rintro ⟨now, later⟩
        refine ⟨here.mpr now, fun next taken => ?_⟩
        exact (ih next (keep state event next start (here.mpr now) taken) (met.2 next taken)).mpr (later next taken)

-- A predicate holds in every state that some first part of the events reaches.
def Always (step : State → Event → Option State) (good : State → Prop) (state : State) (events : List Event) : Prop :=
  ∀ earlier, earlier <+: events → ∀ reached, run step state earlier = some reached → good reached

theorem throughout_earlier (step : State → Event → Option State) (condition : State → Event → Prop) (events earlier : List Event)
    (state : State) (met : Throughout step condition state events) (part : earlier <+: events) :
    Throughout step condition state earlier := by
  induction earlier generalizing state events with
  | nil => trivial
  | cons event rest ih =>
      cases events with
      | nil => exact absurd part (by simp)
      | cons first others =>
          obtain ⟨rfl, tail⟩ := List.cons_prefix_cons.mp part
          exact ⟨met.1, fun next taken => ih others next (met.2 next taken) tail⟩

theorem throughout_joined (step : State → Event → Option State) (condition : State → Event → Prop) (first second : List Event)
    (state : State) (begins : Throughout step condition state first)
    (goesOn : ∀ reached, run step state first = some reached → Throughout step condition reached second) :
    Throughout step condition state (first ++ second) := by
  induction first generalizing state with
  | nil => exact goesOn state rfl
  | cons event rest ih =>
      refine ⟨begins.1, fun next taken => ih next (begins.2 next taken) fun reached ran => ?_⟩
      exact goesOn reached (by rw [run, Option.mem_def.mp taken]; exact ran)

theorem throughout_append (step : State → Event → Option State) (condition : State → Event → Prop) (first second : List Event)
    (state reached : State) (met : Throughout step condition state (first ++ second)) (ran : run step state first = some reached) :
    Throughout step condition reached second := by
  induction first generalizing state with
  | nil =>
      obtain rfl := Option.some.inj ran
      exact met
  | cons event rest ih =>
      cases taken : step state event with
      | none => simp [run, taken] at ran
      | some next =>
          simp only [run, taken, Option.bind_some] at ran
          exact ih next (met.2 next taken) ran

theorem always_invariant (step : State → Event → Option State) (condition : State → Event → Prop) (inv good : State → Prop)
    (keep : ∀ state event next, inv state → condition state event → step state event = some next → inv next)
    (sound : ∀ state, inv state → good state) (events : List Event) (state : State) (start : inv state)
    (met : Throughout step condition state events) : Always step good state events := by
  intro earlier part reached ran
  exact sound reached (run_invariant step condition inv keep earlier state reached start
    (throughout_earlier step condition events earlier state met part) ran)

theorem always_throughout (step : State → Event → Option State) (good : State → Prop) (events : List Event) (state : State) :
    Always step good state events ↔
      good state ∧ Throughout step (fun state event => ∀ next, step state event = some next → good next) state events := by
  induction events generalizing state with
  | nil =>
      constructor
      · exact fun always => ⟨always [] (List.prefix_refl []) state rfl, trivial⟩
      · rintro ⟨start, _⟩ earlier part reached ran
        obtain rfl := List.prefix_nil.mp part
        obtain rfl := Option.some.inj ran
        exact start
  | cons event events ih =>
      constructor
      · intro always
        refine ⟨always [] List.nil_prefix state rfl, fun next taken => ?_, fun next taken => ?_⟩
        · exact always [event] (by simp) next (by simp [run, taken])
        · refine ((ih next).mp fun earlier part reached ran => ?_).2
          exact always (event :: earlier) (List.cons_prefix_cons.mpr ⟨rfl, part⟩) reached (by simp [run, Option.mem_def.mp taken, ran])
      · rintro ⟨start, now, later⟩ earlier part reached ran
        cases earlier with
        | nil =>
            obtain rfl := Option.some.inj ran
            exact start
        | cons first rest =>
            obtain ⟨rfl, tail⟩ := List.cons_prefix_cons.mp part
            cases taken : step state first with
            | none => simp [run, taken] at ran
            | some next =>
                simp only [run, taken, Option.bind_some] at ran
                exact (ih next).mpr ⟨now next taken, later next taken⟩ rest tail reached ran

end Runs

-- A system with an output at every step, and a total machine that says what it
-- is for. The function abs reads the machine's state off the system's.
section Refinement

variable {State Abs Event Out : Type} (step : State → Event → Option (Out × State)) (spec : Abs → Event → Out × Abs)
  (abs : State → Abs)

def outputs : State → List Event → Option (List Out × State)
  | state, [] => some ([], state)
  | state, event :: events =>
      (step state event).bind fun (out, next) => (outputs next events).map fun (outs, final) => (out :: outs, final)

def specOutputs : Abs → List Event → List Out × Abs
  | abstract, [] => ([], abstract)
  | abstract, event :: events =>
      ((spec abstract event).1 :: (specOutputs (spec abstract event).2 events).1, (specOutputs (spec abstract event).2 events).2)

-- One step returns, with the output and the state of the machine.
def StepRefines (state : State) (event : Event) : Prop :=
  ∃ out next, step state event = some (out, next) ∧ spec (abs state) event = (out, abs next)

-- Every first part of the events returns, with the outputs and the state of the
-- machine.
def Refines (state : State) (events : List Event) : Prop :=
  ∀ earlier, earlier <+: events → ∃ outs final, outputs step state earlier = some (outs, final) ∧
    specOutputs spec (abs state) earlier = (outs, abs final)

def plainStep (state : State) (event : Event) : Option State := (step state event).map Prod.snd

theorem refines_iff (events : List Event) (state : State) :
    Refines step spec abs state events ↔ Throughout (plainStep step) (StepRefines step spec abs) state events := by
  induction events generalizing state with
  | nil =>
      refine ⟨fun _ => trivial, fun _ earlier part => ?_⟩
      obtain rfl := List.prefix_nil.mp part
      exact ⟨[], state, rfl, rfl⟩
  | cons event events ih =>
      constructor
      · intro refines
        obtain ⟨outs, final, ran, specRan⟩ := refines [event] (by simp)
        cases taken : step state event with
        | none => simp [outputs, taken] at ran
        | some pair =>
            obtain ⟨out, next⟩ := pair
            simp only [outputs, taken, Option.bind_some, Option.map_some, Option.some.injEq, Prod.mk.injEq] at ran
            simp only [specOutputs, Prod.mk.injEq] at specRan
            obtain ⟨rfl, rfl⟩ := ran
            obtain ⟨sameOut, sameState⟩ := specRan
            simp only [List.cons.injEq, and_true] at sameOut
            have here : spec (abs state) event = (out, abs next) := Prod.ext sameOut sameState
            refine ⟨⟨out, next, taken, here⟩, fun after stepped => (ih after).mp fun earlier part => ?_⟩
            obtain rfl : next = after := by simpa [plainStep, taken] using stepped
            obtain ⟨outs, final, ran, specRan⟩ := refines (event :: earlier) (List.cons_prefix_cons.mpr ⟨rfl, part⟩)
            simp only [outputs, taken, Option.bind_some, Option.map_eq_some_iff, Prod.mk.injEq, Prod.exists] at ran
            obtain ⟨outs', final', ran, rfl, rfl⟩ := ran
            simp only [specOutputs, here, Prod.mk.injEq, List.cons.injEq, true_and] at specRan
            exact ⟨outs', final', ran, Prod.ext specRan.1 specRan.2⟩
      · rintro ⟨⟨out, next, taken, here⟩, later⟩ earlier part
        cases earlier with
        | nil => exact ⟨[], state, rfl, rfl⟩
        | cons first rest =>
            obtain ⟨rfl, tail⟩ := List.cons_prefix_cons.mp part
            have stepped : plainStep step state first = some next := by simp [plainStep, taken]
            obtain ⟨outs, final, ran, specRan⟩ := (ih next).mpr (later next stepped) rest tail
            exact ⟨out :: outs, final, by simp [outputs, taken, ran], by simp [specOutputs, here, specRan]⟩

end Refinement

end Ucore.Lib
