import Ucore.Proc.Siblings

set_option autoImplicit false

namespace Ucore.Proc

open Ucore.Lib

variable {P : Type}

-- A proc_struct without its place in the tree.
def unlinked (entry : ProcStruct P) : ProcStruct P := { entry with parent := none, cptr := none, yptr := none, optr := none }

theorem unlinked_fields (entry entry' : ProcStruct P) (same : unlinked entry' = unlinked entry) :
    entry'.state = entry.state ∧ entry'.pid = entry.pid ∧ entry'.exiting = entry.exiting ∧ entry'.exitCode = entry.exitCode ∧
      entry'.waitState = entry.waitState := by
  simp only [unlinked, ProcStruct.mk.injEq] at same
  obtain ⟨state, pid, _, _, exiting, exitCode, waitState, _⟩ := same
  exact ⟨state, pid, exiting, exitCode, waitState⟩

def awake (entry : ProcStruct P) : ProcStruct P := { entry with state := .runnable, waitState := 0 }

theorem awake_unlinked (entry entry' : ProcStruct P) (same : unlinked entry' = unlinked entry) :
    unlinked (awake entry') = unlinked (awake entry) := by
  simp only [unlinked, ProcStruct.mk.injEq] at same
  simp [unlinked, awake, same]

-- What do_exit may rely on to wake a process that waits.
def WaitsAsleep (entry : ProcStruct P) : Prop := entry.waitState = wtChild → entry.state = .sleeping

theorem awake_waits (entry : ProcStruct P) : WaitsAsleep (awake entry) := by
  intro waits
  have never : (0 : BitVec 32) ≠ wtChild := by decide
  exact absurd waits never

variable [DecidableEq P]

theorem wake_waiting_spec (procs : Procs P) (proc : P) (asleep : WaitsAsleep (procs proc)) :
    wakeWaiting procs proc = .ok (if (procs proc).waitState = wtChild then procs.set proc (awake (procs proc)) else procs) := by
  by_cases waits : (procs proc).waitState = wtChild
  · simp [wakeWaiting, waits, wakeupState, awake, asleep waits]
  · simp [wakeWaiting, waits]

-- A process afterwards: as it was, and then there was no reason to wake it when
-- it waits for a child, or waiting and awake now.
def Rewoken (entry entry' : ProcStruct P) (quiet : Prop) : Prop :=
  unlinked entry' = unlinked entry ∧ (entry.waitState = wtChild → quiet) ∨
    entry.waitState = wtChild ∧ unlinked entry' = unlinked (awake entry)

section Adopting

-- One turn of the loop of do_exit, up to the wakeup.
def adopted (procs : Procs P) (init current proc : P) : Procs P :=
  let procs := procs.set current { procs current with cptr := (procs proc).optr }
  let procs := linkChild procs init proc
  procs.set proc { procs proc with parent := some init }

theorem adopt_turn (procs : Procs P) (init current proc : P) (fuel : Nat) (first : (procs current).cptr = some proc) :
    adoptChildren init current (fuel + 1) procs =
      (if (adopted procs init current proc proc).state = .zombie then wakeWaiting (adopted procs init current proc) init
        else .ok (adopted procs init current proc)) >>= adoptChildren init current fuel := by
  rw [adoptChildren, first]
  by_cases gone : (adopted procs init current proc proc).state = .zombie
  · rw [if_pos gone]
    exact if_pos gone
  · rw [if_neg gone]
    exact if_neg gone

variable {used : P → Prop} {procs : Procs P} {kids : P → List P} {init current : P}

theorem link_child_frame (procs : Procs P) (parent proc other : P) (outside : (procs parent).cptr ≠ some proc) :
    unlinked (linkChild procs parent proc other) = unlinked (procs other) ∧
      (linkChild procs parent proc other).parent = (procs other).parent := by
  simp [link_child_apply procs parent proc other outside, unlinked]

theorem set_cptr_frame (procs : Procs P) (current other : P) (first : Option P) :
    unlinked (procs.set current { procs current with cptr := first } other) = unlinked (procs other) ∧
      (procs.set current { procs current with cptr := first } other).parent = (procs other).parent := by
  by_cases same : other = current <;> simp [same, unlinked]

theorem adopted_frame (procs : Procs P) (init current proc other : P) (different : init ≠ current) (outside : (procs init).cptr ≠ some proc) :
    unlinked (adopted procs init current proc other) = unlinked (procs other) ∧
      (adopted procs init current proc other).parent = if other = proc then some init else (procs other).parent := by
  have kept : (procs.set current { procs current with cptr := (procs proc).optr } init).cptr ≠ some proc := by
    rw [Procs.set_other _ _ _ _ different]
    exact outside
  obtain ⟨sameLinked, parentLinked⟩ := link_child_frame _ init proc other kept
  obtain ⟨sameDropped, parentDropped⟩ := set_cptr_frame procs current other (procs proc).optr
  by_cases isProc : other = proc
  · subst isProc
    refine ⟨?_, by simp [adopted]⟩
    rw [← sameDropped, ← sameLinked]
    simp only [adopted, Procs.set_here]
    rfl
  · simp only [adopted, Procs.set_other _ _ _ _ isProc, if_neg isProc]
    exact ⟨sameLinked.trans sameDropped, parentLinked.trans parentDropped⟩

theorem adopted_chains (chains : Chains used procs kids (some current)) (proc : P) (rest : List P) (initUsed : used init)
    (currentUsed : used current) (different : init ≠ current) (first : kids current = proc :: rest) :
    Chains used (adopted procs init current proc) (Function.update (Function.update kids current rest) init (proc :: kids init))
      (some current) := by
  have dropped := chains.dropFirst current proc rest currentUsed (.inr rfl) first
  have fresh : ∀ other, used other → proc ∉ Function.update kids current rest other := by
    intro other otherUsed
    by_cases same : other = current
    · subst same
      rw [Function.update_self]
      have distinct := chains.distinct other otherUsed
      rw [first] at distinct
      exact (List.nodup_cons.mp distinct).1
    · rw [Function.update_of_ne same]
      exact chains.apart current other currentUsed otherUsed (Ne.symm same) proc (by simp [first])
  have linked := dropped.link init proc initUsed (fun same => different (Option.some.inj same).symm) fresh
  rw [Function.update_of_ne different] at linked
  apply linked.congr
  intro other
  by_cases same : other = proc <;> simp [adopted, same]

def AdoptedBy (procs procs' : Procs P) (rest : List P) (init : P) : Prop :=
  Rewoken (procs init) (procs' init) (∀ proc ∈ rest, (procs proc).state ≠ .zombie)

structure Adopted (used : P → Prop) (procs procs' : Procs P) (kids : P → List P) (init current : P) (rest : List P) : Prop where
  chains : Chains used procs' (Function.update (Function.update kids current []) init (rest.reverse ++ kids init)) none
  others : ∀ other, other ≠ init → unlinked (procs' other) = unlinked (procs other)
  adopter : AdoptedBy procs procs' rest init
  parents : ∀ other, (procs' other).parent = if other ∈ rest then some init else (procs other).parent

omit [DecidableEq P] in
theorem adopted_by_cons (procs mid procs' : Procs P) (init proc : P) (rest : List P) (notRest : init ∉ rest)
    (others : ∀ other, other ≠ init → unlinked (mid other) = unlinked (procs other)) (now : AdoptedBy procs mid [proc] init)
    (later : AdoptedBy mid procs' rest init) : AdoptedBy procs procs' (proc :: rest) init := by
  cases now with
  | inr woken =>
      obtain ⟨waits, woken⟩ := woken
      refine .inr ⟨waits, ?_⟩
      cases later with
      | inl kept => exact kept.1.trans woken
      | inr again => exact (again.2.trans (awake_unlinked _ _ woken)).trans (by simp [unlinked, awake])
  | inl kept =>
      obtain ⟨same, noneNow⟩ := kept
      obtain ⟨_, _, _, _, waits⟩ := unlinked_fields _ _ same
      cases later with
      | inr woken => exact .inr ⟨waits.symm.trans woken.1, woken.2.trans (awake_unlinked _ _ same)⟩
      | inl kept =>
          obtain ⟨sameLater, noneLater⟩ := kept
          refine .inl ⟨sameLater.trans same, fun waiting other member => ?_⟩
          cases List.mem_cons.mp member with
          | inl here => exact here ▸ noneNow waiting proc (by simp)
          | inr there =>
              have state := (unlinked_fields _ _ (others other fun equal => notRest (equal ▸ there))).1
              exact state ▸ noneLater (waits.trans waiting) other there

theorem Adopted.cons (procs mid procs' : Procs P) (proc : P) (rest : List P) (different : init ≠ current) (notRest : init ∉ rest)
    (others : ∀ other, other ≠ init → unlinked (mid other) = unlinked (procs other)) (now : AdoptedBy procs mid [proc] init)
    (parents : ∀ other, (mid other).parent = if other = proc then some init else (procs other).parent)
    (later : Adopted used mid procs' (Function.update (Function.update kids current rest) init (proc :: kids init)) init current rest) :
    Adopted used procs procs' kids init current (proc :: rest) where
  chains := by
    have same : Function.update (Function.update kids current []) init ((proc :: rest).reverse ++ kids init) =
        Function.update (Function.update (Function.update (Function.update kids current rest) init (proc :: kids init)) current []) init
          (rest.reverse ++ Function.update (Function.update kids current rest) init (proc :: kids init) init) := by
      funext other
      by_cases isInit : other = init
      · subst isInit
        simp
      · by_cases isCurrent : other = current
        · subst isCurrent
          simp [isInit]
        · simp [isInit, isCurrent]
    exact same ▸ later.chains
  others := fun other notInit => (later.others other notInit).trans (others other notInit)
  adopter := adopted_by_cons procs mid procs' init proc rest notRest others now later.adopter
  parents := by
    intro other
    rw [later.parents other, parents other]
    by_cases isProc : other = proc <;> simp [isProc]

theorem adopt_spec (rest : List P) (procs : Procs P) (kids : P → List P) (fuel : Nat) (chains : Chains used procs kids (some current))
    (children : kids current = rest) (initUsed : used init) (currentUsed : used current) (different : init ≠ current)
    (notInit : init ∉ rest) (asleep : WaitsAsleep (procs init)) (enough : rest.length < fuel) :
    ∃ procs', adoptChildren init current fuel procs = .ok procs' ∧ Adopted used procs procs' kids init current rest := by
  induction rest generalizing procs kids fuel with
  | nil =>
      obtain ⟨more, rfl⟩ := Nat.exists_eq_succ_of_ne_zero (Nat.ne_of_gt enough)
      obtain ⟨younger, _, linked⟩ := chains.chain current currentUsed
      rw [children] at linked
      have done : (procs current).cptr = none := linked
      refine ⟨procs, by simp [adoptChildren, done], ?_, fun _ _ => rfl, .inl ⟨rfl, by simp⟩, by simp⟩
      have kept : Function.update (Function.update kids current []) init ([].reverse ++ kids init) = kids := by
        have same : Function.update kids current [] = kids := by
          rw [← children]
          exact Function.update_eq_self current kids
        rw [same]
        exact Function.update_eq_self init kids
      rw [kept]
      exact chains.close current children
  | cons proc rest ih =>
      obtain ⟨more, rfl⟩ := Nat.exists_eq_succ_of_ne_zero (Nat.ne_of_gt (Nat.lt_of_le_of_lt (Nat.zero_le _) enough))
      obtain ⟨younger, _, linked⟩ := chains.chain current currentUsed
      rw [children] at linked
      obtain ⟨first, _, _⟩ := linked
      have outside : (procs init).cptr ≠ some proc := by
        obtain ⟨start, closed, ofInit⟩ := chains.chain init initUsed
        rw [chain_first procs _ _ _ ofInit]
        intro same
        exact chains.apart current init currentUsed initUsed (Ne.symm different) proc (by simp [children]) (List.mem_of_mem_head? same)
      have midChains := adopted_chains chains proc rest initUsed currentUsed different children
      have frame := fun other => adopted_frame procs init current proc other different outside
      obtain ⟨initState, _, _, _, initWaits⟩ := unlinked_fields _ _ (frame init).1
      have midAsleep : WaitsAsleep (adopted procs init current proc init) := by
        unfold WaitsAsleep
        rw [initState, initWaits]
        exact asleep
      have left : Function.update (Function.update kids current rest) init (proc :: kids init) current = rest := by
        rw [Function.update_of_ne (Ne.symm different), Function.update_self]
      have notRest : init ∉ rest := fun member => notInit (List.mem_cons_of_mem _ member)
      have woken := wake_waiting_spec _ init midAsleep
      rw [adopt_turn procs init current proc more first]
      by_cases wakes : (adopted procs init current proc proc).state = .zombie ∧ (procs init).waitState = wtChild
      · obtain ⟨gone, waits⟩ := wakes
        rw [if_pos gone, woken, if_pos (initWaits.trans waits), ok_bind]
        have wokenChains := midChains.congr ((adopted procs init current proc).set init (awake (adopted procs init current proc init))) (by
          intro other
          by_cases isInit : other = init <;> simp [isInit, awake])
        obtain ⟨procs', returns, done⟩ := ih _ _ more wokenChains left notRest
          (by rw [Procs.set_here]; exact awake_waits _) (by simpa using enough)
        refine ⟨procs', returns, Adopted.cons procs _ procs' proc rest different notRest ?_ (.inr ⟨waits, ?_⟩) ?_ done⟩
        · intro other notInit
          rw [Procs.set_other _ _ _ _ notInit]
          exact (frame other).1
        · rw [Procs.set_here]
          exact awake_unlinked _ _ (frame init).1
        · intro other
          rw [← (frame other).2]
          by_cases isInit : other = init <;> simp [isInit, awake]
      · have stays : (if (adopted procs init current proc proc).state = .zombie then wakeWaiting (adopted procs init current proc) init
            else .ok (adopted procs init current proc)) = (.ok (adopted procs init current proc) : Except Fault (Procs P)) := by
          by_cases gone : (adopted procs init current proc proc).state = .zombie
          · rw [if_pos gone, woken, if_neg]
            exact fun waits => wakes ⟨gone, initWaits.symm.trans waits⟩
          · rw [if_neg gone]
        rw [stays, ok_bind]
        obtain ⟨procs', returns, done⟩ := ih _ _ more midChains left notRest midAsleep (by simpa using enough)
        refine ⟨procs', returns, Adopted.cons procs _ procs' proc rest different notRest ?_ (.inl ⟨(frame init).1, ?_⟩) ?_ done⟩
        · exact fun other _ => (frame other).1
        · intro waits other member gone
          obtain rfl := List.mem_singleton.mp member
          exact wakes ⟨(unlinked_fields _ _ (frame other).1).1.trans gone, waits⟩
        · exact fun other => (frame other).2

end Adopting

end Ucore.Proc
