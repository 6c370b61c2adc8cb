import Ucore.Lib.Sizes

set_option autoImplicit false

namespace Ucore.Lib

-- Code that may stop at an assertion.
def check {Fault : Type} (condition : Bool) (fault : Fault) : Except Fault Unit := if condition then .ok () else .error fault

section Rewriting

variable {Fault α β : Type}

@[simp] theorem ok_bind (value : α) (next : α → Except Fault β) : (Except.ok value >>= next) = next value := rfl

@[simp] theorem error_bind (fault : Fault) (next : α → Except Fault β) : ((Except.error fault : Except Fault α) >>= next) = .error fault :=
  rfl

@[simp] theorem pure_ok (value : α) : (pure value : Except Fault α) = .ok value := rfl

@[simp] theorem check_true (fault : Fault) : check true fault = .ok () := rfl

@[simp] theorem check_false (fault : Fault) : check false fault = .error fault := rfl

theorem bind_ok {value : Except Fault α} {next : α → Except Fault β} {result : β} (returns : (value >>= next) = .ok result) :
    ∃ middle, value = .ok middle ∧ next middle = .ok result := by
  cases value with
  | error fault => exact absurd returns (by simp)
  | ok middle => exact ⟨middle, rfl, returns⟩

theorem check_bind_ok {condition : Bool} {fault : Fault} {next : Unit → Except Fault β} {result : β}
    (returns : (check condition fault >>= next) = .ok result) : condition = true ∧ next () = .ok result := by
  cases condition with
  | false => exact absurd returns (by simp)
  | true => exact ⟨rfl, returns⟩

-- The last step of a function whose earlier step gives a pair.
theorem pair_bind_ok {γ : Type} {value : Except Fault (α × β)} {shape : β → γ} {first : α} {second : γ}
    (returns : (value >>= fun reply => (pure (reply.1, shape reply.2) : Except Fault (α × γ))) = .ok (first, second)) :
    ∃ rest, value = .ok (first, rest) ∧ second = shape rest := by
  obtain ⟨reply, answers, last⟩ := bind_ok returns
  simp only [pure_ok, Except.ok.injEq, Prod.mk.injEq] at last
  obtain ⟨same, done⟩ := last
  exact ⟨reply.2, by rw [answers, ← same], done.symm⟩

end Rewriting

-- A postcondition of code that may stop, with the ways to stop that are let pass.
def Ends {Fault α : Type} (harmless : Fault → Prop) (post : α → Prop) : Except Fault α → Prop
  | .ok result => post result
  | .error fault => harmless fault

section Rules

variable {Fault α β : Type} {harmless : Fault → Prop}

theorem ends_bind {value : Except Fault α} {next : α → Except Fault β} {post : β → Prop}
    (first : Ends harmless (fun middle => Ends harmless post (next middle)) value) : Ends harmless post (value >>= next) := by
  cases value with
  | error fault => exact first
  | ok middle => exact first

theorem ends_mono {value : Except Fault α} {post weaker : α → Prop} (ends : Ends harmless post value)
    (implies : ∀ result, value = .ok result → post result → weaker result) : Ends harmless weaker value := by
  cases value with
  | error fault => exact ends
  | ok result => exact implies result rfl ends

theorem ends_ok {value : Except Fault α} {result : α} {post : α → Prop} (returns : value = .ok result) (holds : post result) :
    Ends harmless post value := by
  rw [returns]
  exact holds

theorem ends_check {condition : Bool} {fault : Fault} {post : Unit → Prop} (true' : condition = true) (holds : post ()) :
    Ends harmless post (check condition fault) := by
  rw [true']
  exact holds

end Rules

end Ucore.Lib
