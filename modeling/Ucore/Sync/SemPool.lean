import Mathlib.Data.Fintype.Card
import Mathlib.Data.Finset.Card
import Ucore.Sync.SemSafe

set_option autoImplicit false

namespace Ucore.Sync

open Ucore.Lib Ucore.Proc

-- Some semaphores, and of which one a process is inside down.
structure SemPool (P I : Type) where
  sems : I → Semaphore P
  waits : Waits P
  asleep : P → Option I

namespace SemPool

variable {P I : Type} [DecidableEq P] [DecidableEq I]

def setSem (s : SemPool P I) (id : I) (sem : Semaphore P) : I → Semaphore P := Function.update s.sems id sem

def up (s : SemPool P I) (id : I) : Except Fault (SemPool P I) := do
  let (_, sem, waits) ← (s.sems id).up s.waits
  return { s with sems := s.setSem id sem, waits := waits }

def down (s : SemPool P I) (proc : P) (id : I) : SemPool P I :=
  match (s.sems id).down s.waits proc with
  | (true, sem, waits) => { s with sems := s.setSem id sem, waits := waits }
  | (false, sem, waits) => ⟨s.setSem id sem, waits, Function.update s.asleep proc (some id)⟩

def resume (s : SemPool P I) (proc : P) (id : I) : Except Fault (SemPool P I) := do
  let sem ← (s.sems id).downResumed s.waits proc
  return { s with sems := s.setSem id sem, asleep := Function.update s.asleep proc none }

-- Who is in the queue sleeps there; who is inside down and not in the queue was
-- handed an up and runs.
structure SemHolds (waits : Waits P) (asleep : P → Option I) (id : I) (sem : Semaphore P) : Prop where
  nonneg : 0 ≤ sem.value.toInt
  drained : 0 < sem.value.toInt → sem.queue = []
  distinct : sem.queue.Nodup
  queued : ∀ proc ∈ sem.queue, asleep proc = some id ∧ (waits.procs proc).state = .sleeping ∧ (waits.procs proc).waitState = wtKsem
  handed : ∀ proc, asleep proc = some id → proc ∉ sem.queue → (waits.procs proc).state = .runnable ∧ waits.wakeupFlags proc = wtKsem

def PoolInv (s : SemPool P I) : Prop := ∀ id, SemHolds s.waits s.asleep id (s.sems id)

-- A process that is not inside down of the semaphore changes.
omit [DecidableEq P] [DecidableEq I] in
theorem holds_kept (waits waits' : Waits P) (asleep asleep' : P → Option I) (id : I) (sem : Semaphore P) (proc : P)
    (holds : SemHolds waits asleep id sem) (before : asleep proc ≠ some id) (now : asleep' proc ≠ some id)
    (same : ∀ other, other ≠ proc → asleep' other = asleep other ∧ waits'.procs other = waits.procs other ∧
      waits'.wakeupFlags other = waits.wakeupFlags other) : SemHolds waits' asleep' id sem where
  nonneg := holds.nonneg
  drained := holds.drained
  distinct := holds.distinct
  queued := by
    intro other inside
    have was := holds.queued other inside
    have apart : other ≠ proc := by
      intro equal
      exact before (equal ▸ was.1)
    obtain ⟨asleepSame, procsSame, _⟩ := same other apart
    rw [asleepSame, procsSame]
    exact was
  handed := by
    intro other inDown outside
    have apart : other ≠ proc := by
      intro equal
      exact now (equal ▸ inDown)
    obtain ⟨asleepSame, procsSame, flagsSame⟩ := same other apart
    rw [procsSame, flagsSame]
    exact holds.handed other (asleepSame ▸ inDown) outside

omit [DecidableEq P] in
theorem set_sem_inv (s : SemPool P I) (waits : Waits P) (asleep : P → Option I) (id : I) (sem : Semaphore P)
    (here : SemHolds waits asleep id sem) (others : ∀ other, other ≠ id → SemHolds waits asleep other (s.sems other)) :
    PoolInv ⟨s.setSem id sem, waits, asleep⟩ := by
  intro other
  by_cases same : other = id
  · subst same
    simpa [setSem] using here
  · simpa [setSem, same] using others other same

variable [Fintype P]

def woken (s : SemPool P I) (id : I) : Finset P := Finset.univ.filter fun proc => s.asleep proc = some id ∧ proc ∉ (s.sems id).queue

-- The ups that nobody has used yet: those in the value, and those handed to a
-- process that has not gone on.
def grants (s : SemPool P I) (id : I) : Int := (s.sems id).value.toInt + (s.woken id).card

variable (s : SemPool P I)

theorem mem_woken (id : I) (proc : P) : proc ∈ s.woken id ↔ s.asleep proc = some id ∧ proc ∉ (s.sems id).queue := by
  simp [woken]

theorem woken_congr (t : SemPool P I) (id : I) (same : ∀ proc, s.asleep proc = some id ∧ proc ∉ (s.sems id).queue ↔
    t.asleep proc = some id ∧ proc ∉ (t.sems id).queue) : s.woken id = t.woken id := by
  ext proc
  rw [mem_woken, mem_woken]
  exact same proc

theorem grants_congr (t : SemPool P I) (id : I) (value : (s.sems id).value = (t.sems id).value)
    (same : ∀ proc, s.asleep proc = some id ∧ proc ∉ (s.sems id).queue ↔ t.asleep proc = some id ∧ proc ∉ (t.sems id).queue) :
    s.grants id = t.grants id := by
  rw [grants, grants, value, woken_congr s t id same]

-- Another semaphore: its value and its queue stay, and so does who is inside down
-- of it.
theorem grants_others (waits : Waits P) (asleep : P → Option I) (id : I) (sem : Semaphore P) (grants' : Int)
    (asleepSame : ∀ other, other ≠ id → ∀ proc, asleep proc = some other ↔ s.asleep proc = some other)
    (here : grants ⟨s.setSem id sem, waits, asleep⟩ id = grants') :
    grants ⟨s.setSem id sem, waits, asleep⟩ = Function.update s.grants id grants' := by
  funext other
  by_cases same : other = id
  · subst same
    rw [Function.update_self, here]
  · have kept : s.setSem id sem other = s.sems other := by simp [setSem, same]
    rw [Function.update_of_ne same]
    refine grants_congr _ s other (by simp only [kept]) fun proc => ?_
    simp only [kept, asleepSame other same]

section Specs

variable (inv : PoolInv s)

include inv

theorem up_spec (id : I) (fits : s.grants id ≤ 1) : ∃ next, s.up id = .ok next ∧ PoolInv next ∧ next.asleep = s.asleep ∧
    next.grants = Function.update s.grants id (s.grants id + 1) := by
  cases queue : (s.sems id).queue with
  | nil =>
      have small : (s.sems id).value ≠ 0x7FFFFFFF := by
        intro same
        rw [grants, same, show (0x7FFFFFFF : BitVec 32).toInt = 0x7FFFFFFF from by decide] at fits
        omega
      have one := Semaphore.value_below (s.sems id).value small
      have nonneg := (inv id).nonneg
      refine ⟨⟨s.setSem id { s.sems id with value := (s.sems id).value + 1 }, s.waits, s.asleep⟩, ?_, ?_, rfl, ?_⟩
      · rw [up, Semaphore.up_empty (s.sems id) s.waits queue]
        rfl
      · refine set_sem_inv s _ _ id _ ⟨?_, fun _ => queue, (inv id).distinct, (inv id).queued, (inv id).handed⟩ fun other _ => inv other
        simp only [one]
        omega
      · refine grants_others s _ _ id _ _ (fun _ _ _ => Iff.rfl) ?_
        rw [grants, grants, woken_congr _ s id (by simp [setSem])]
        simp only [setSem, Function.update_self, one]
        omega
  | cons wait rest =>
      obtain ⟨asleep, state, waitState⟩ := (inv id).queued wait (by simp [queue])
      have distinct := (inv id).distinct
      rw [queue] at distinct
      obtain ⟨away, distinctRest⟩ := List.nodup_cons.mp distinct
      refine ⟨⟨s.setSem id ⟨(s.sems id).value, rest⟩,
        ⟨s.waits.procs.set wait { s.waits.procs wait with state := .runnable, waitState := 0 },
          Function.update s.waits.wakeupFlags wait wtKsem⟩, s.asleep⟩, ?_, ?_, rfl, ?_⟩
      · rw [up, Semaphore.up_waiter (s.sems id) s.waits wait rest queue state waitState]
        rfl
      · refine set_sem_inv s _ _ id _ ⟨(inv id).nonneg, ?_, distinctRest, ?_, ?_⟩ ?_
        · intro positive
          have empty := (inv id).drained positive
          rw [queue] at empty
          exact absurd empty (by simp)
        · intro proc inside
          have apart : proc ≠ wait := by
            intro equal
            exact away (equal ▸ inside)
          simpa [apart] using (inv id).queued proc (by simp [queue, inside])
        · intro proc inDown outside
          by_cases here : proc = wait
          · subst here
            simp
          · have notQueued : proc ∉ (s.sems id).queue := by simpa [queue, here] using outside
            simpa [here] using (inv id).handed proc inDown notQueued
        · intro other apart
          have elsewhere : s.asleep wait ≠ some other := by
            rw [asleep]
            intro equal
            exact apart (Option.some.inj equal).symm
          exact holds_kept s.waits _ s.asleep s.asleep other (s.sems other) wait (inv other) elsewhere elsewhere
            fun proc notWait => ⟨rfl, by simp [notWait], by simp [notWait]⟩
      · refine grants_others s _ _ id _ _ (fun _ _ _ => Iff.rfl) ?_
        have joined : woken (⟨s.setSem id ⟨(s.sems id).value, rest⟩,
            ⟨s.waits.procs.set wait { s.waits.procs wait with state := .runnable, waitState := 0 },
              Function.update s.waits.wakeupFlags wait wtKsem⟩, s.asleep⟩ : SemPool P I) id = insert wait (s.woken id) := by
          ext proc
          rw [Finset.mem_insert, mem_woken, mem_woken]
          by_cases here : proc = wait
          · subst here
            simp [setSem, asleep, away]
          · simp [setSem, queue, here]
        have absent : wait ∉ s.woken id := by
          rw [mem_woken, queue]
          simp
        rw [grants, grants, joined, Finset.card_insert_of_notMem absent]
        simp only [setSem, Function.update_self]
        omega

-- Either the value is taken, or the process sleeps in the queue.
theorem down_spec (proc : P) (id : I) (awake : s.asleep proc = none) : PoolInv (s.down proc id) ∧
    ((s.down proc id).asleep = s.asleep ∧ 0 < s.grants id ∧ (s.down proc id).grants = Function.update s.grants id (s.grants id - 1) ∨
      (s.down proc id).asleep = Function.update s.asleep proc (some id) ∧ (s.down proc id).grants = s.grants) := by
  have notQueued : ∀ other, proc ∉ (s.sems other).queue := by
    intro other inside
    have asleep := ((inv other).queued proc inside).1
    rw [awake] at asleep
    exact absurd asleep (by simp)
  by_cases free : 0 < (s.sems id).value.toInt
  · have one := Semaphore.value_above (s.sems id).value free
    rw [down, Semaphore.down_free (s.sems id) s.waits proc free]
    refine ⟨?_, .inl ⟨rfl, ?_, ?_⟩⟩
    · refine set_sem_inv s _ _ id _ ⟨?_, fun _ => (inv id).drained free, (inv id).distinct, (inv id).queued, (inv id).handed⟩
        fun other _ => inv other
      simp only [one]
      omega
    · rw [grants]
      omega
    · refine grants_others s _ _ id _ _ (fun _ _ _ => Iff.rfl) ?_
      rw [grants, grants, woken_congr _ s id (by simp [setSem])]
      simp only [setSem, Function.update_self, one]
      omega
  · rw [down, Semaphore.down_taken (s.sems id) s.waits proc free]
    have elsewhere : ∀ other, other ≠ id → s.asleep proc ≠ some other ∧ Function.update s.asleep proc (some id) proc ≠ some other := by
      intro other apart
      refine ⟨by simp [awake], fun equal => ?_⟩
      rw [Function.update_self] at equal
      exact apart (Option.some.inj equal).symm
    refine ⟨?_, .inr ⟨rfl, ?_⟩⟩
    · refine set_sem_inv s _ _ id _ ⟨(inv id).nonneg, fun positive => absurd positive free, ?_, ?_, ?_⟩ ?_
      · refine List.nodup_append.mpr ⟨(inv id).distinct, by simp, fun other inside last atEnd same => ?_⟩
        rw [List.mem_singleton.mp atEnd] at same
        exact notQueued id (same ▸ inside)
      · intro other inside
        by_cases here : other = proc
        · subst here
          simp
        · have inQueue : other ∈ (s.sems id).queue := by simpa [here] using inside
          simpa [here] using (inv id).queued other inQueue
      · intro other inDown notInside
        have here : other ≠ proc := by
          intro equal
          exact notInside (by simp [equal])
        have before := (inv id).handed other (by simpa [here] using inDown) fun inside => notInside (by simp [inside])
        simpa [here] using before
      · intro other apart
        obtain ⟨before, now⟩ := elsewhere other apart
        exact holds_kept s.waits _ s.asleep _ other (s.sems other) proc (inv other) before now
          fun notProc differs => ⟨by simp [differs], by simp [differs], by simp [differs]⟩
    · have same : s.grants = Function.update s.grants id (s.grants id) := by simp
      rw [same]
      refine grants_others s _ _ id _ _ ?_ ?_
      · intro other apart notProc
        by_cases here : notProc = proc
        · subst here
          exact ⟨fun equal => absurd equal (elsewhere other apart).2, fun equal => absurd equal (elsewhere other apart).1⟩
        · simp [here]
      · rw [grants, grants, woken_congr _ s id]
        · simp [setSem]
        · intro other
          by_cases here : other = proc
          · subst here
            simp [setSem, awake]
          · simp [setSem, here]

theorem resume_spec (proc : P) (id : I) (asleep : s.asleep proc = some id) (runs : (s.waits.procs proc).state = .runnable) :
    ∃ next, s.resume proc id = .ok next ∧ PoolInv next ∧ next.asleep = Function.update s.asleep proc none ∧ 0 < s.grants id ∧
      next.grants = Function.update s.grants id (s.grants id - 1) := by
  have away : proc ∉ (s.sems id).queue := by
    intro queued
    rw [((inv id).queued proc queued).2.1] at runs
    exact absurd runs (by simp)
  have flags := ((inv id).handed proc asleep away).2
  have member : proc ∈ s.woken id := (mem_woken s id proc).mpr ⟨asleep, away⟩
  have positive := Finset.card_pos.mpr ⟨proc, member⟩
  have nonneg := (inv id).nonneg
  have elsewhere : ∀ other, other ≠ id → s.asleep proc ≠ some other := by
    intro other apart
    rw [asleep]
    intro equal
    exact apart (Option.some.inj equal).symm
  refine ⟨⟨s.setSem id (s.sems id), s.waits, Function.update s.asleep proc none⟩, ?_, ?_, rfl, ?_, ?_⟩
  · rw [resume, Semaphore.down_resumed_ok (s.sems id) s.waits proc flags away]
    rfl
  · refine set_sem_inv s _ _ id _ ⟨nonneg, (inv id).drained, (inv id).distinct, ?_, ?_⟩ ?_
    · intro other inside
      have apart : other ≠ proc := by
        intro equal
        exact away (equal ▸ inside)
      simpa [apart] using (inv id).queued other inside
    · intro other inDown outside
      have apart : other ≠ proc := by
        intro equal
        rw [equal, Function.update_self] at inDown
        exact absurd inDown (by simp)
      exact (inv id).handed other (by simpa [apart] using inDown) outside
    · intro other apart
      exact holds_kept s.waits _ s.asleep _ other (s.sems other) proc (inv other) (elsewhere other apart) (by simp)
        fun notProc differs => ⟨by simp [differs], rfl, rfl⟩
  · rw [grants]
    omega
  · refine grants_others s _ _ id _ _ ?_ ?_
    · intro other apart notProc
      by_cases here : notProc = proc
      · subst here
        simp [elsewhere other apart]
      · simp [here]
    · have left : woken (⟨s.setSem id (s.sems id), s.waits, Function.update s.asleep proc none⟩ : SemPool P I) id = (s.woken id).erase proc := by
        ext other
        rw [Finset.mem_erase, mem_woken, mem_woken]
        by_cases here : other = proc
        · subst here
          simp
        · simp [setSem, here]
      have erased := Finset.card_erase_of_mem member
      rw [grants, grants, left, erased]
      simp only [setSem, Function.update_self]
      omega

end Specs

end SemPool

end Ucore.Sync
