import Ucore.Sched.SjfOrder

set_option autoImplicit false

namespace Ucore.Sched.Sjf

open Ucore.Lib

-- The scheduling class sees the queue and the bursts alone.
def SameQueue (s next : SjfState) : Prop := s.rq = next.rq ∧ ∀ proc, burst s.procs proc = burst next.procs proc

theorem sjf_place_congr (procs next : ProcId → Proc) (same : ∀ p, burst procs p = burst next p) (proc : ProcId) (list : List ProcId) :
    sjfPlace procs proc list = sjfPlace next proc list := by
  induction list with
  | nil => rfl
  | cons p rest ih => simp only [sjfPlace, same, ih]

section Congruence

variable {s next : SjfState} (same : SameQueue s next) (proc : ProcId)

include same

theorem same_queue_set (value : Proc) (kept : value.lab6Priority = burst next.procs proc) : SameQueue s (next.setProc proc value) := by
  refine ⟨same.1, fun other => ?_⟩
  by_cases here : other = proc
  · rw [here, set_proc_burst_here, kept, same.2]
  · rw [set_proc_burst_elsewhere _ _ _ _ here, same.2]

theorem sjf_enqueue_congr : SameQueue (sjfEnqueue s proc) (sjfEnqueue next proc) := by
  obtain ⟨here, elsewhere, queue⟩ := sjf_enqueue_spec s proc
  obtain ⟨hereNext, elsewhereNext, queueNext⟩ := sjf_enqueue_spec next proc
  have bursts : ∀ other, burst (sjfEnqueue s proc).procs other = burst (sjfEnqueue next proc).procs other := by
    intro other
    by_cases is : other = proc
    · rw [is, here, hereNext, same.2]
    · rw [elsewhere other is, elsewhereNext other is, same.2]
  refine ⟨?_, bursts⟩
  rw [queue, queueNext, sjf_place_congr _ _ bursts, same.1]

theorem sjf_tick_congr : SameQueue (sjfProcTick s proc) (sjfProcTick next proc) := by
  refine ⟨same.1, fun other => ?_⟩
  rw [sjf_tick_burst, sjf_tick_burst, same.2, same.2]

theorem sjf_dequeue_congr : SameQueue (sjfDequeue s proc) (sjfDequeue next proc) :=
  ⟨by simp only [sjfDequeue, same.1], same.2⟩

end Congruence

-- The processes on the queue are runnable ones that wait for the processor.
structure Queued (s : SjfState) : Prop where
  distinct : s.rq.runList.Nodup
  runnable : ∀ proc ∈ s.rq.runList, (s.procs proc).state = .runnable
  busy : ∀ proc ∈ s.rq.runList, proc ≠ idleproc

-- The class has come from r to a state like s by operations that are in order.
def Served (r : SjfRun) (s : SjfState) : Prop :=
  ∃ events reached, run SjfRun.step r events = some reached ∧ Throughout SjfRun.step SjfRun.Enabled r events ∧ SameQueue reached.sched s

section Serving

variable {r : SjfRun} {s : SjfState} (served : Served r s)

include served

theorem Served.like (next : SjfState) (same : s.rq = next.rq) (bursts : ∀ proc, burst s.procs proc = burst next.procs proc) :
    Served r next := by
  obtain ⟨events, reached, ran, met, queue⟩ := served
  exact ⟨events, reached, ran, met, queue.1.trans same, fun proc => (queue.2 proc).trans (bursts proc)⟩

theorem Served.set (proc : ProcId) (value : Proc) (kept : value.lab6Priority = burst s.procs proc) : Served r (s.setProc proc value) := by
  obtain ⟨events, reached, ran, met, queue⟩ := served
  exact ⟨events, reached, ran, met, same_queue_set queue proc value kept⟩

theorem Served.step (event : SjfEvent) (next : SjfState)
    (takes : ∀ reached : SjfRun, SameQueue reached.sched s → reached.Enabled event ∧ ∃ after, reached.step event = some after ∧ SameQueue after.sched next) :
    Served r next := by
  obtain ⟨events, reached, ran, met, queue⟩ := served
  obtain ⟨enabled, after, taken, same⟩ := takes reached queue
  refine ⟨events ++ [event], after, ?_, ?_, same⟩
  · rw [run_append, ran]
    simp [run, taken]
  · apply throughout_joined _ _ _ _ _ met
    intro other also
    obtain rfl : reached = other := Option.some.inj (ran.symm.trans also)
    exact ⟨enabled, fun _ _ => trivial⟩

theorem Served.enqueue (proc : ProcId) (away : proc ∉ s.rq.runList) : Served r (sjfEnqueue s proc) := by
  apply served.step (.enqueue proc)
  intro reached same
  exact ⟨by simpa only [SjfRun.Enabled, same.1] using away, _, rfl, sjf_enqueue_congr same proc⟩

theorem Served.dequeue (proc : ProcId) (listed : proc ∈ s.rq.runList) : Served r (sjfDequeue s proc) := by
  apply served.step (.dequeue proc)
  intro reached same
  exact ⟨by simpa only [SjfRun.Enabled, same.1] using listed, _, rfl, sjf_dequeue_congr same proc⟩

theorem Served.tick (proc : ProcId) (away : proc ∉ s.rq.runList) : Served r (sjfProcTick s proc) := by
  apply served.step (.tick proc)
  intro reached same
  exact ⟨by simpa only [SjfRun.Enabled, same.1] using away, _, rfl, sjf_tick_congr same proc⟩

end Serving

theorem Queued.set {s : SjfState} (queued : Queued s) (proc : ProcId) (value : Proc)
    (kept : proc ∈ s.rq.runList → value.state = .runnable) : Queued (s.setProc proc value) := by
  refine ⟨queued.distinct, fun other listed => ?_, queued.busy⟩
  by_cases same : other = proc
  · subst same
    simpa [SjfState.setProc] using kept listed
  · simpa [SjfState.setProc, same] using queued.runnable other listed

theorem sjf_enqueue_state (s : SjfState) (proc other : ProcId) : ((sjfEnqueue s proc).procs other).state = (s.procs other).state := by
  unfold sjfEnqueue
  dsimp only
  split
  · by_cases same : other = proc <;> simp [SjfState.setProc, same]
  · rfl

theorem sjf_enqueue_current (s : SjfState) (proc : ProcId) : (sjfEnqueue s proc).current = s.current := by
  unfold sjfEnqueue
  split <;> rfl

theorem Queued.enqueue {s : SjfState} (queued : Queued s) (proc : ProcId) (away : proc ∉ s.rq.runList)
    (runs : (s.procs proc).state = .runnable) (busy : proc ≠ idleproc) :
    Queued (sjfEnqueue s proc) ∧ ∀ other, other ∈ (sjfEnqueue s proc).rq.runList ↔ other = proc ∨ other ∈ s.rq.runList := by
  have placed := congrArg SjfQueue.runList (sjf_enqueue_spec s proc).2.2
  have listed := sjf_place_perm (sjfEnqueue s proc).procs proc s.rq.runList
  have members : ∀ other, other ∈ (sjfEnqueue s proc).rq.runList ↔ other = proc ∨ other ∈ s.rq.runList := by
    intro other
    rw [placed, listed.mem_iff, List.mem_cons]
  refine ⟨⟨?_, fun other member => ?_, fun other member => ?_⟩, members⟩
  · rw [placed, listed.nodup_iff]
    exact List.nodup_cons.mpr ⟨away, queued.distinct⟩
  · rw [sjf_enqueue_state]
    exact ((members other).mp member).elim (fun same => same ▸ runs) (queued.runnable other)
  · exact ((members other).mp member).elim (fun same => same ▸ busy) (queued.busy other)

-- Between the calls the running process is not on the queue, and the class has
-- been served in order.
structure CallInv (r : SjfRun) (s : SjfState) : Prop where
  served : Served r s
  queued : Queued s
  running : s.current ∉ s.rq.runList

theorem choose_next_inv (r : SjfRun) (s : SjfState) (served : Served r s) (queued : Queued s) : CallInv r s.chooseNext := by
  have switches : ∀ (next : ProcId) (chosen : SjfState), Served r chosen → Queued chosen → next ∉ chosen.rq.runList →
      CallInv r (let counted := chosen.setProc next { chosen.procs next with runs := (chosen.procs next).runs + 1 }
        if next ≠ counted.current then counted.procRun next else counted) := by
    intro next chosen served queued out
    have counts := served.set next { chosen.procs next with runs := (chosen.procs next).runs + 1 } rfl
    have kept := queued.set next { chosen.procs next with runs := (chosen.procs next).runs + 1 } fun listed => absurd listed out
    by_cases same : next = chosen.current
    · subst same
      simpa [SjfState.setProc] using (⟨counts, kept, out⟩ : CallInv r (chosen.setProc chosen.current _))
    · have again := counts.set next { (chosen.setProc next { chosen.procs next with runs := (chosen.procs next).runs + 1 }).procs next with
        runs := ((chosen.setProc next { chosen.procs next with runs := (chosen.procs next).runs + 1 }).procs next).runs + 1 } rfl
      have still := kept.set next { (chosen.setProc next { chosen.procs next with runs := (chosen.procs next).runs + 1 }).procs next with
        runs := ((chosen.setProc next { chosen.procs next with runs := (chosen.procs next).runs + 1 }).procs next).runs + 1 }
        fun listed => absurd listed out
      have moves : next ≠ (chosen.setProc next { chosen.procs next with runs := (chosen.procs next).runs + 1 }).current := same
      simp only [if_pos moves, SjfState.procRun]
      exact ⟨again.like _ rfl fun _ => rfl, ⟨still.distinct, still.runnable, still.busy⟩, out⟩
  unfold SjfState.chooseNext
  cases picked : sjfPickNext s.rq with
  | none =>
      have empty : s.rq.runList = [] := List.head?_eq_none_iff.mp picked
      exact switches idleproc s served queued (by simp [empty])
  | some next =>
      have listed : next ∈ s.rq.runList := List.mem_of_head? picked
      have kept : ∀ other ∈ s.rq.runList.erase next, other ∈ s.rq.runList := fun other member => List.mem_of_mem_erase member
      exact switches next (sjfDequeue s next) (served.dequeue next listed)
        ⟨queued.distinct.erase next, fun other member => queued.runnable other (kept other member),
          fun other member => queued.busy other (kept other member)⟩ queued.distinct.not_mem_erase

theorem CallInv.schedule {r : SjfRun} {s : SjfState} (inv : CallInv r s) : CallInv r s.schedule := by
  have served := inv.served.set s.current { s.procs s.current with needResched := false } rfl
  have queued := inv.queued.set s.current { s.procs s.current with needResched := false } fun listed => absurd listed inv.running
  unfold SjfState.schedule SjfState.schedClassEnqueue
  apply choose_next_inv
  · split
    · split
      · exact served.enqueue _ inv.running
      · exact served
    · exact served
  · split
    case isTrue runs =>
      split
      case isTrue busy => exact (queued.enqueue _ inv.running runs busy).1
      case isFalse => exact queued
    case isFalse => exact queued

theorem CallInv.call {r : SjfRun} {s : SjfState} (inv : CallInv r s) (call : SjfCall) (next : SjfState)
    (returns : s.call call = some next) : CallInv r next := by
  cases call with
  | schedule => exact Option.some.inj returns ▸ inv.schedule
  | leave state =>
      obtain rfl := Option.some.inj returns
      exact ⟨inv.served.set _ _ rfl, inv.queued.set _ _ fun listed => absurd listed inv.running, inv.running⟩
  | wakeup proc =>
      simp only [SjfState.call, SjfState.wakeupProc] at returns
      by_cases dead : (s.procs proc).state = .zombie
      · simp [dead] at returns
      · rw [if_neg dead] at returns
        by_cases runs : (s.procs proc).state = .runnable
        · simp only [runs, ne_eq, not_true_eq_false, if_false, Option.some.injEq] at returns
          exact returns ▸ inv
        · have away : proc ∉ s.rq.runList := fun listed => runs (inv.queued.runnable proc listed)
          have served := inv.served.set proc { s.procs proc with state := .runnable } rfl
          have queued := inv.queued.set proc { s.procs proc with state := .runnable } fun _ => rfl
          simp only [ne_eq, runs, not_false_eq_true, if_true, Option.some.injEq, SjfState.schedClassEnqueue] at returns
          subst returns
          split
          case isTrue apart =>
            split
            case isTrue busy =>
              obtain ⟨grown, members⟩ := queued.enqueue proc away (by simp [SjfState.setProc]) busy
              refine ⟨served.enqueue proc away, grown, ?_⟩
              rw [sjf_enqueue_current, members]
              exact fun either => either.elim (fun same => apart same.symm) inv.running
            case isFalse => exact ⟨served, queued, inv.running⟩
          case isFalse => exact ⟨served, queued, inv.running⟩
  | timer inKernel =>
      obtain rfl := Option.some.inj returns
      have ticked : CallInv r (s.schedClassProcTick s.current) := by
        unfold SjfState.schedClassProcTick
        split
        · refine ⟨inv.served.tick s.current inv.running, ?_, inv.running⟩
          exact inv.queued.set s.current _ fun listed => absurd listed inv.running
        · exact ⟨inv.served.set _ _ rfl, inv.queued.set _ _ fun listed => absurd listed inv.running, inv.running⟩
      unfold SjfState.trapTimer
      dsimp only
      split
      · exact ticked.schedule
      · exact ticked

-- sched.c and the timer interrupt, from sched_init on, do to the class what a run
-- of its operations does.
theorem sjf_calls_serve (procs : ProcId → Proc) (calls : List SjfCall) (final : SjfState)
    (returns : run SjfState.call ⟨procs, sjfInit, idleproc⟩ calls = some final) :
    ∃ events reached, run SjfRun.step (SjfRun.start procs idleproc) events = some reached ∧
      Throughout SjfRun.step SjfRun.Enabled (SjfRun.start procs idleproc) events ∧ SameQueue reached.sched final ∧ reached.Ordered := by
  have start : CallInv (SjfRun.start procs idleproc) ⟨procs, sjfInit, idleproc⟩ :=
    ⟨⟨[], _, rfl, trivial, rfl, fun _ => rfl⟩, ⟨List.nodup_nil, by simp [sjfInit], by simp [sjfInit]⟩, by simp [sjfInit]⟩
  have inv := run_invariant SjfState.call (fun _ _ => True) (CallInv (SjfRun.start procs idleproc))
    (fun s call next inv _ returns => inv.call call next returns) calls _ final start (throughout_trivial _ _ (fun _ _ => trivial) _ _) returns
  obtain ⟨events, reached, ran, met, same⟩ := inv.served
  exact ⟨events, reached, ran, met, same, SjfRun.sjf_always_ordered procs idleproc events met events (List.prefix_refl events) reached ran⟩

end Ucore.Sched.Sjf
