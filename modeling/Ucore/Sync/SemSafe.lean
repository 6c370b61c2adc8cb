import Mathlib.Data.List.Nodup
import Ucore.Sync.Sem

set_option autoImplicit false

namespace Ucore.Sync

open Ucore.Lib Ucore.Proc

variable {P : Type} [DecidableEq P]

-- A kill changes neither a process that runs nor one that waits for a semaphore,
-- apart from the flag.
structure KeptBy (procs procs' : Procs P) (proc : P) : Prop where
  runs : (procs proc).state = .runnable → (procs' proc).state = .runnable
  waits : (procs proc).waitState = wtKsem → (procs' proc).state = (procs proc).state ∧ (procs' proc).waitState = wtKsem

theorem kill_kept (procs : Procs P) (proc : P) (exited : (procs proc).state = .zombie → (procs proc).waitState = 0) :
    ∃ result, killProc procs proc = .ok result ∧ ∀ other, KeptBy procs result.2 other := by
  have still : interruptible (0 : BitVec 32) = false := by decide
  have ksem : interruptible wtKsem = false := by decide
  have marked : ∀ other, KeptBy procs (procs.set proc { procs proc with exiting := true }) other := by
    intro other
    by_cases here : other = proc
    · subst here
      exact ⟨by simp, by simp⟩
    · exact ⟨by simp [here], by simp [here]⟩
  rw [killProc]
  by_cases exiting : (procs proc).exiting
  · exact ⟨(eKilled, procs), if_pos exiting, fun _ => ⟨id, fun same => ⟨rfl, same⟩⟩⟩
  · rw [if_neg exiting]
    by_cases wakes : interruptible (procs proc).waitState
    · have alive : (procs proc).state ≠ .zombie := by
        intro zombie
        rw [exited zombie, still] at wakes
        exact Bool.false_ne_true wakes
      obtain ⟨after, returned, state, _, others⟩ := wakeup_state_ok (procs.set proc { procs proc with exiting := true }) proc (by simpa using alive)
      refine ⟨(0, after), ?_, fun other => ?_⟩
      · simp only [Procs.set_here, wakes, if_true, returned, Except.map]
      · by_cases here : other = proc
        · subst here
          refine ⟨fun _ => state, fun waits => ?_⟩
          rw [waits, ksem] at wakes
          exact absurd wakes Bool.false_ne_true
        · rw [show KeptBy procs after other ↔ KeptBy procs (procs.set proc { procs proc with exiting := true }) other from
            ⟨fun kept => ⟨by rw [← others other here]; exact kept.runs, by rw [← others other here]; exact kept.waits⟩,
              fun kept => ⟨by rw [others other here]; exact kept.runs, by rw [others other here]; exact kept.waits⟩⟩]
          exact marked other
    · refine ⟨(0, procs.set proc { procs proc with exiting := true }), ?_, marked⟩
      simp only [Procs.set_here]
      exact if_neg wakes

namespace Semaphore

variable (sem : Semaphore P) (waits : Waits P)

theorem value_above (value : BitVec 32) (positive : 0 < value.toInt) : (value - 1).toInt = value.toInt - 1 := by
  have bound := BitVec.toInt_lt (x := value)
  rw [BitVec.toInt_sub, show (1 : BitVec 32).toInt = 1 from rfl, Int.bmod_eq_of_le] <;> omega

theorem value_below (value : BitVec 32) (fits : value ≠ 0x7FFFFFFF) : (value + 1).toInt = value.toInt + 1 := by
  have low := BitVec.le_toInt (x := value)
  have high := BitVec.toInt_lt (x := value)
  have apart : value.toInt ≠ 0x7FFFFFFF := by
    intro same
    exact fits (BitVec.eq_of_toInt_eq (same.trans (by decide)))
  rw [BitVec.toInt_add, show (1 : BitVec 32).toInt = 1 from rfl, Int.bmod_eq_of_le] <;> omega

theorem up_empty (empty : sem.queue = []) : sem.up waits = .ok (none, { sem with value := sem.value + 1 }, waits) := by
  simp [up, empty]

theorem up_waiter (wait : P) (rest : List P) (queue : sem.queue = wait :: rest) (state : (waits.procs wait).state = .sleeping)
    (waitState : (waits.procs wait).waitState = wtKsem) :
    sem.up waits = .ok (some wait, ⟨sem.value, rest⟩,
      ⟨waits.procs.set wait { waits.procs wait with state := .runnable, waitState := 0 }, Function.update waits.wakeupFlags wait wtKsem⟩) := by
  simp [up, queue, waitState, wakeupState, state]

theorem down_free (proc : P) (free : 0 < sem.value.toInt) : sem.down waits proc = (true, { sem with value := sem.value - 1 }, waits) := by
  rw [down, if_pos free]

theorem down_taken (proc : P) (taken : ¬ 0 < sem.value.toInt) : sem.down waits proc =
    (false, { sem with queue := sem.queue ++ [proc] },
      ⟨waits.procs.set proc { waits.procs proc with state := .sleeping, waitState := wtKsem },
        Function.update waits.wakeupFlags proc wtInterrupted⟩) := by
  rw [down, if_neg taken]

theorem down_resumed_ok (proc : P) (flags : waits.wakeupFlags proc = wtKsem) (away : proc ∉ sem.queue) :
    sem.downResumed waits proc = .ok sem := by
  simp [downResumed, flags, List.erase_of_not_mem away]

end Semaphore

namespace SemSystem

-- queue and the processes inside down: who is queued sleeps, and who is not has
-- been handed an up and runs.
structure SemInv (initial : Int) (s : SemSystem P) : Prop where
  distinct : s.sem.queue.Nodup
  waiting : ∀ proc ∈ s.sem.queue, s.inDown proc = true ∧ (s.waits.procs proc).state = .sleeping ∧ (s.waits.procs proc).waitState = wtKsem
  granted : ∀ proc, s.inDown proc = true → proc ∉ s.sem.queue → (s.waits.procs proc).state = .runnable ∧
    s.waits.wakeupFlags proc = wtKsem ∧ s.handed.count proc = s.resumed.count proc + 1
  settled : ∀ proc, s.inDown proc = false ∨ proc ∈ s.sem.queue → s.handed.count proc = s.resumed.count proc
  nonneg : 0 ≤ s.sem.value.toInt
  drained : 0 < s.sem.value.toInt → s.sem.queue = []
  balance : initial + s.ups = s.sem.value.toInt + s.downs + s.tries + s.handed.length
  fifo : s.handed ++ s.sem.queue = s.queued

variable (initial : Int) (s : SemSystem P) (inv : SemInv initial s)

include inv

theorem up_inv (fits : s.sem.queue = [] → s.sem.value ≠ 0x7FFFFFFF) : ∃ next, s.call .up = .ok next ∧ SemInv initial next := by
  cases queue : s.sem.queue with
  | nil =>
      have one := Semaphore.value_below s.sem.value (fits queue)
      have nonneg := inv.nonneg
      have balance := inv.balance
      refine ⟨{ s with sem := { s.sem with value := s.sem.value + 1 }, ups := s.ups + 1, handed := s.handed ++ [] }, ?_, ?_⟩
      · rw [call, Semaphore.up_empty s.sem s.waits queue]
        rfl
      · refine ⟨inv.distinct, inv.waiting, ?_, ?_, ?_, fun _ => queue, ?_, ?_⟩
        · simpa using inv.granted
        · simpa using inv.settled
        · simp only [one]
          omega
        · simp only [one, List.append_nil]
          push_cast
          omega
        · simpa using inv.fifo
  | cons wait rest =>
      obtain ⟨asleep, state, waitState⟩ := inv.waiting wait (by simp [queue])
      have distinct := inv.distinct
      rw [queue] at distinct
      obtain ⟨away, distinctRest⟩ := List.nodup_cons.mp distinct
      refine ⟨_, by rw [call, Semaphore.up_waiter s.sem s.waits wait rest queue state waitState]; rfl, ?_⟩
      have settled := inv.settled wait (.inr (by simp [queue]))
      refine ⟨distinctRest, ?_, ?_, ?_, inv.nonneg, ?_, ?_, ?_⟩
      · intro proc inside
        have apart : proc ≠ wait := by
          rintro rfl
          exact away inside
        simpa [apart] using inv.waiting proc (by simp [queue, inside])
      · intro proc inDown outside
        by_cases here : proc = wait
        · subst here
          simp [settled, List.count_append]
        · obtain ⟨runs, flags, count⟩ := inv.granted proc inDown (by simp [queue, here]; exact outside)
          have apart : wait ≠ proc := fun same => here same.symm
          simp [here, runs, flags, count, List.count_append, apart]
      · intro proc before
        have apart : proc ≠ wait := by
          rintro rfl
          rcases before with outside | inside
          · rw [asleep] at outside
            exact absurd outside (by simp)
          · exact away inside
        have count := inv.settled proc (before.imp_right fun inside => by simp [queue, inside])
        have apart' : wait ≠ proc := fun same => apart same.symm
        simp [List.count_append, count, apart']
      · intro positive
        have empty := inv.drained positive
        rw [queue] at empty
        exact absurd empty (by simp)
      · have balance := inv.balance
        simp only [Option.toList, List.length_append, List.length_singleton]
        push_cast
        omega
      · have fifo := inv.fifo
        rw [queue] at fifo
        simpa using fifo

theorem down_inv (proc : P) (outside : s.inDown proc = false) : ∃ next, s.call (.down proc) = .ok next ∧ SemInv initial next := by
  have notQueued : proc ∉ s.sem.queue := by
    intro inside
    rw [(inv.waiting proc inside).1] at outside
    exact absurd outside (by simp)
  have balance := inv.balance
  by_cases free : 0 < s.sem.value.toInt
  · have one := Semaphore.value_above s.sem.value free
    refine ⟨{ s with sem := { s.sem with value := s.sem.value - 1 }, downs := s.downs + 1 }, ?_, ?_⟩
    · rw [call, Semaphore.down_free s.sem s.waits proc free]
    · refine ⟨inv.distinct, inv.waiting, inv.granted, inv.settled, ?_, fun _ => inv.drained free, ?_, inv.fifo⟩
      · simp only [one]
        omega
      · simp only [one]
        push_cast
        omega
  · refine ⟨{ s with
      sem := { s.sem with queue := s.sem.queue ++ [proc] }
      waits := ⟨s.waits.procs.set proc { s.waits.procs proc with state := .sleeping, waitState := wtKsem },
        Function.update s.waits.wakeupFlags proc wtInterrupted⟩
      inDown := Function.update s.inDown proc true
      queued := s.queued ++ [proc] }, ?_, ?_⟩
    · rw [call, Semaphore.down_taken s.sem s.waits proc free]
    · refine ⟨?_, ?_, ?_, ?_, inv.nonneg, fun positive => absurd positive free, balance, ?_⟩
      · refine List.nodup_append.mpr ⟨inv.distinct, by simp, fun other inside last atEnd same => ?_⟩
        rw [List.mem_singleton.mp atEnd] at same
        exact notQueued (same ▸ inside)
      · intro other inside
        by_cases here : other = proc
        · subst here
          simp
        · have inQueue : other ∈ s.sem.queue := by simpa [here] using inside
          simpa [here] using inv.waiting other inQueue
      · intro other inDown notInside
        have here : other ≠ proc := by
          rintro rfl
          exact notInside (by simp)
        have before := inv.granted other (by simpa [here] using inDown) fun inside => notInside (by simp [inside])
        simpa [here] using before
      · intro other before
        by_cases here : other = proc
        · subst here
          exact inv.settled other (.inl outside)
        · exact inv.settled other (by simpa [here] using before)
      · have fifo := inv.fifo
        show s.handed ++ (s.sem.queue ++ [proc]) = s.queued ++ [proc]
        rw [← List.append_assoc, fifo]

theorem resume_inv (proc : P) (inside : s.inDown proc = true) (runs : (s.waits.procs proc).state = .runnable) :
    ∃ next, s.call (.resume proc) = .ok next ∧ SemInv initial next := by
  have away : proc ∉ s.sem.queue := by
    intro queued
    rw [(inv.waiting proc queued).2.1] at runs
    exact absurd runs (by simp)
  obtain ⟨_, flags, count⟩ := inv.granted proc inside away
  refine ⟨{ s with inDown := Function.update s.inDown proc false, resumed := s.resumed ++ [proc] }, ?_, ?_⟩
  · rw [call, Semaphore.down_resumed_ok s.sem s.waits proc flags away]
    rfl
  · refine ⟨inv.distinct, ?_, ?_, ?_, inv.nonneg, inv.drained, inv.balance, inv.fifo⟩
    · intro other queued
      have apart : other ≠ proc := by
        rintro rfl
        exact away queued
      simpa [apart] using inv.waiting other queued
    · intro other inDown outside
      have apart : other ≠ proc := by
        rintro rfl
        simp at inDown
      have apart' : proc ≠ other := fun same => apart same.symm
      have before := inv.granted other (by simpa [apart] using inDown) outside
      simpa [List.count_append, apart'] using before
    · intro other before
      by_cases here : other = proc
      · subst here
        simp [count, List.count_append]
      · have apart : proc ≠ other := fun same => here same.symm
        have settled := inv.settled other (by simpa [here] using before)
        simp [List.count_append, apart, settled]

theorem try_down_inv (proc : P) : ∃ next, s.call (.tryDown proc) = .ok next ∧ SemInv initial next := by
  have balance := inv.balance
  by_cases free : 0 < s.sem.value.toInt
  · have one := Semaphore.value_above s.sem.value free
    refine ⟨{ s with sem := { s.sem with value := s.sem.value - 1 }, tries := s.tries + 1 }, ?_, ?_⟩
    · rw [call, Semaphore.tryDown, if_pos free]
      rfl
    · refine ⟨inv.distinct, inv.waiting, inv.granted, inv.settled, ?_, fun _ => inv.drained free, ?_, inv.fifo⟩
      · simp only [one]
        omega
      · simp only [one]
        push_cast
        omega
  · refine ⟨s, ?_, inv⟩
    rw [call, Semaphore.tryDown, if_neg free]
    rfl

-- A change to the processes that leaves those inside down as they are.
theorem procs_inv (procs : Procs P) (kept : ∀ proc, s.inDown proc = true → KeptBy s.waits.procs procs proc) :
    SemInv initial { s with waits := { s.waits with procs := procs } } where
  distinct := inv.distinct
  waiting := by
    intro proc inside
    obtain ⟨inDown, state, waitState⟩ := inv.waiting proc inside
    obtain ⟨sameState, sameWait⟩ := (kept proc inDown).waits waitState
    exact ⟨inDown, sameState.trans state, sameWait⟩
  granted := by
    intro proc inDown outside
    obtain ⟨runs, flags, count⟩ := inv.granted proc inDown outside
    exact ⟨(kept proc inDown).runs runs, flags, count⟩
  settled := inv.settled
  nonneg := inv.nonneg
  drained := inv.drained
  balance := inv.balance
  fifo := inv.fifo

theorem call_inv (semCall : SemCall P) (enabled : s.Enabled semCall) (fits : s.Fits semCall) :
    ∃ next, s.call semCall = .ok next ∧ SemInv initial next := by
  cases semCall with
  | up => exact up_inv initial s inv fits
  | down proc => exact down_inv initial s inv proc enabled.1
  | resume proc => exact resume_inv initial s inv proc enabled.1 enabled.2
  | tryDown proc => exact try_down_inv initial s inv proc
  | kill proc =>
      obtain ⟨result, killed, kept⟩ := kill_kept s.waits.procs proc enabled
      exact ⟨{ s with waits := { s.waits with procs := result.2 } }, by simp [call, killed, Except.map],
        procs_inv initial s inv result.2 fun other _ => kept other⟩
  | other proc entry =>
      refine ⟨{ s with waits := { s.waits with procs := s.waits.procs.set proc entry } }, by simp [call], procs_inv initial s inv _ ?_⟩
      intro other inDown
      have apart : other ≠ proc := by
        rintro rfl
        rw [show s.inDown other = false from enabled] at inDown
        exact absurd inDown (by simp)
      exact ⟨by simp [apart], by simp [apart]⟩

omit inv in
theorem boot_inv (value : BitVec 32) (nonneg : 0 ≤ value.toInt) (waits : Waits P) : SemInv value.toInt (boot value waits) where
  distinct := by simp [boot]
  waiting := by simp [boot]
  granted := by simp [boot]
  settled := by simp [boot]
  nonneg := nonneg
  drained := fun _ => rfl
  balance := by simp [boot]
  fifo := rfl

-- Who is in the queue sleeps; who goes on inside down was handed an up, and has
-- not used it yet.
structure SemSafe (initial : Int) (s : SemSystem P) : Prop where
  nonneg : 0 ≤ s.sem.value.toInt
  drained : 0 < s.sem.value.toInt → s.sem.queue = []
  balance : initial + s.ups = s.sem.value.toInt + s.downs + s.tries + s.handed.length
  fifo : s.handed ++ s.sem.queue = s.queued
  asleep : ∀ proc ∈ s.sem.queue, (s.waits.procs proc).state = .sleeping
  grants : ∀ proc, s.handed.count proc =
    s.resumed.count proc + if s.inDown proc = true ∧ (s.waits.procs proc).state = .runnable then 1 else 0

theorem inv_safe : SemSafe initial s := by
  refine ⟨inv.nonneg, inv.drained, inv.balance, inv.fifo, fun proc inside => (inv.waiting proc inside).2.1, fun proc => ?_⟩
  by_cases inDown : s.inDown proc = true
  · by_cases queued : proc ∈ s.sem.queue
    · have asleep := (inv.waiting proc queued).2.1
      have settled := inv.settled proc (.inr queued)
      simp [asleep, settled]
    · obtain ⟨runs, _, count⟩ := inv.granted proc inDown queued
      simp [inDown, runs, count]
  · have settled := inv.settled proc (.inl (by simpa using inDown))
    simp [inDown, settled]

omit inv in
theorem run_inv (calls : List (SemCall P)) (start : SemSystem P) (inv : SemInv initial start)
    (met : Throughout step (fun s semCall => s.Enabled semCall ∧ s.Fits semCall) start calls) :
    ∃ final, run step start calls = some final ∧ SemInv initial final := by
  induction calls generalizing start with
  | nil => exact ⟨start, rfl, inv⟩
  | cons first rest ih =>
      obtain ⟨next, called, inv'⟩ := call_inv initial start inv first met.1.1 met.1.2
      have taken : step start first = some next := by simp [step, called]
      obtain ⟨final, ran, last⟩ := ih next inv' (met.2 next taken)
      exact ⟨final, by simp [run, taken, ran], last⟩

omit inv in
theorem semaphore_safe (value : BitVec 32) (nonneg : 0 ≤ value.toInt) (waits : Waits P) (calls : List (SemCall P))
    (met : Throughout step (fun s semCall => s.Enabled semCall ∧ s.Fits semCall) (boot value waits) calls) :
    ∀ earlier, earlier <+: calls → ∃ reached, run step (boot value waits) earlier = some reached ∧ SemSafe value.toInt reached := by
  intro earlier part
  obtain ⟨reached, ran, inv⟩ := run_inv value.toInt earlier (boot value waits) (boot_inv value nonneg waits)
    (throughout_earlier _ _ calls earlier _ met part)
  exact ⟨reached, ran, inv_safe value.toInt reached inv⟩

end SemSystem

-- Three processes and a semaphore of value 1; the second waiter is killed while
-- it sleeps.
def readyWaits : Waits (Fin 3) := ⟨fun _ => { allocProc with state := .runnable }, fun _ => 0⟩

def semCalls : List (SemCall (Fin 3)) := [.down 0, .down 1, .down 2, .kill 2, .up, .tryDown 0, .up, .resume 2, .up, .resume 1, .tryDown 1]

theorem semaphore_safe_three : ∃ reached, run SemSystem.step (SemSystem.boot 1 readyWaits) semCalls = some reached ∧
    SemSystem.SemSafe 1 reached := by
  have met : Throughout SemSystem.step (fun s semCall => s.Enabled semCall ∧ s.Fits semCall) (SemSystem.boot 1 readyWaits) semCalls := by
    decide +kernel
  exact SemSystem.semaphore_safe 1 (by decide) readyWaits semCalls met semCalls (List.prefix_refl _)

-- The value is an int: an up at its largest value makes it negative.
theorem semaphore_overflow : ∃ reached, run SemSystem.step (SemSystem.boot 0x7FFFFFFF readyWaits) [.up] = some reached ∧
    reached.sem.value.toInt < 0 := by
  refine ⟨{ SemSystem.boot 0x7FFFFFFF readyWaits with sem := ⟨0x80000000, []⟩, ups := 1 }, rfl, by decide⟩

end Ucore.Sync
