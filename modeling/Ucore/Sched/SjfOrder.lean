import Ucore.Sched.Sjf

set_option autoImplicit false

namespace Ucore.Sched.Sjf

open Ucore.Lib

section Place

variable (procs : ProcId → Proc) (proc : ProcId)

theorem sjf_place_perm (list : List ProcId) : (sjfPlace procs proc list).Perm (proc :: list) := by
  induction list with
  | nil => exact List.Perm.refl _
  | cons p rest ih =>
      unfold sjfPlace
      split
      · exact List.Perm.refl _
      · exact (ih.cons p).trans (List.Perm.swap proc p rest)

-- proc goes in front of the first process with more left, and so behind all that
-- have as much.
theorem sjf_place_sorted (before : ProcId → ProcId → Prop) (list : List ProcId) (sorted : list.Pairwise before)
    (trans : ∀ first ∈ list, ∀ second ∈ list, before proc first → before first second → before proc second)
    (front : ∀ p ∈ list, burst procs proc < burst procs p → before proc p)
    (behind : ∀ p ∈ list, ¬ burst procs proc < burst procs p → before p proc) : (sjfPlace procs proc list).Pairwise before := by
  induction list with
  | nil => exact List.pairwise_singleton before proc
  | cons p rest ih =>
      obtain ⟨above, below⟩ := List.pairwise_cons.mp sorted
      unfold sjfPlace
      split
      case isTrue less =>
        have first := front p (by simp) less
        refine List.pairwise_cons.mpr ⟨fun other member => ?_, sorted⟩
        cases List.mem_cons.mp member with
        | inl same => exact same ▸ first
        | inr later => exact trans p (by simp) other (by simp [later]) first (above other later)
      case isFalse more =>
        refine List.pairwise_cons.mpr ⟨fun other member => ?_, ih below ?_ ?_ ?_⟩
        · cases List.mem_cons.mp ((sjf_place_perm procs proc rest).mem_iff.mp member) with
          | inl same => exact same ▸ behind p (by simp) more
          | inr later => exact above other later
        · exact fun first inside second also => trans first (by simp [inside]) second (by simp [also])
        · exact fun other inside => front other (by simp [inside])
        · exact fun other inside => behind other (by simp [inside])

end Place

@[simp] theorem set_proc_burst_here (s : SjfState) (proc : ProcId) (value : Proc) :
    burst (s.setProc proc value).procs proc = value.lab6Priority := by
  simp [burst, SjfState.setProc]

@[simp] theorem set_proc_burst_elsewhere (s : SjfState) (proc other : ProcId) (value : Proc) (apart : other ≠ proc) :
    burst (s.setProc proc value).procs other = burst s.procs other := by
  simp [burst, SjfState.setProc, apart]

@[simp] theorem set_proc_rq (s : SjfState) (proc : ProcId) (value : Proc) : (s.setProc proc value).rq = s.rq := rfl

-- The burst that a process goes into the queue with.
def enqueueBurst (old : BitVec 32) : BitVec 32 := if old = 0 then defaultBurst else old

theorem sjf_enqueue_spec (s : SjfState) (proc : ProcId) :
    burst (sjfEnqueue s proc).procs proc = enqueueBurst (burst s.procs proc) ∧
      (∀ other, other ≠ proc → burst (sjfEnqueue s proc).procs other = burst s.procs other) ∧
      (sjfEnqueue s proc).rq = ⟨sjfPlace (sjfEnqueue s proc).procs proc s.rq.runList, s.rq.procNum + 1⟩ := by
  unfold sjfEnqueue enqueueBurst
  by_cases unset : burst s.procs proc = 0
  · simp only [if_pos unset]
    exact ⟨set_proc_burst_here s proc _, fun other apart => set_proc_burst_elsewhere s proc other _ apart, rfl⟩
  · simp only [if_neg unset]
    exact ⟨trivial, fun _ _ => trivial, trivial⟩

theorem sjf_tick_burst (s : SjfState) (proc other : ProcId) :
    burst (sjfProcTick s proc).procs other = if other = proc then burst s.procs proc - 1 else burst s.procs other := by
  unfold sjfProcTick
  by_cases same : other = proc
  · rw [if_pos same, same, set_proc_burst_here]
  · rw [if_neg same, set_proc_burst_elsewhere _ _ _ _ same]

namespace SjfRun

-- A process on the queue still has the burst that it went in with.
structure OrderInv (r : SjfRun) : Prop where
  distinct : r.sched.rq.runList.Nodup
  frozen : ∀ proc ∈ r.sched.rq.runList, burst r.sched.procs proc = r.inserted proc
  turns : ∀ proc ∈ r.sched.rq.runList, r.arrival proc < r.clock
  sorted : r.sched.rq.runList.Pairwise r.Before

theorem before_congr (r next : SjfRun) (list : List ProcId) (inserted : ∀ proc ∈ list, next.inserted proc = r.inserted proc)
    (arrival : ∀ proc ∈ list, next.arrival proc = r.arrival proc) (sorted : list.Pairwise r.Before) : list.Pairwise next.Before := by
  apply sorted.imp_of_mem
  intro first second inFirst inSecond before
  simp only [Before] at before ⊢
  rwa [inserted first inFirst, inserted second inSecond, arrival first inFirst, arrival second inSecond]

theorem OrderInv.ordered {r : SjfRun} (inv : r.OrderInv) : r.Ordered where
  sorted := inv.sorted
  picks := by
    intro some
    cases listed : r.sched.rq.runList with
    | nil => exact absurd listed some
    | cons proc rest => exact ⟨proc, by rw [sjfPickNext, listed]; rfl⟩
  least := by
    intro proc picked
    have sorted := inv.sorted
    have frozen := inv.frozen
    cases listed : r.sched.rq.runList with
    | nil => simp [sjfPickNext, listed] at picked
    | cons first rest =>
        obtain rfl : first = proc := by simpa [sjfPickNext, listed] using picked
        rw [listed] at sorted frozen
        refine ⟨by simp, fun other member => ?_⟩
        cases List.mem_cons.mp member with
        | inl same => exact same ▸ BitVec.le_refl _
        | inr later =>
            rw [frozen first (by simp), frozen other member]
            cases (List.pairwise_cons.mp sorted).1 other later with
            | inl less => exact BitVec.le_of_lt less
            | inr equal => exact equal.1 ▸ BitVec.le_refl _

theorem start_inv (procs : ProcId → Proc) (current : ProcId) : (start procs current).OrderInv where
  distinct := List.nodup_nil
  frozen := fun _ member => absurd member List.not_mem_nil
  turns := fun _ member => absurd member List.not_mem_nil
  sorted := List.Pairwise.nil

theorem enqueue_inv (r next : SjfRun) (proc : ProcId) (inv : r.OrderInv) (away : proc ∉ r.sched.rq.runList)
    (taken : r.step (.enqueue proc) = some next) : next.OrderInv := by
  obtain ⟨here, elsewhere, queue⟩ := sjf_enqueue_spec r.sched proc
  have placed := congrArg SjfQueue.runList queue
  simp only [step, Option.some.injEq] at taken
  subst taken
  have listed := sjf_place_perm (sjfEnqueue r.sched proc).procs proc r.sched.rq.runList
  have apart : ∀ other ∈ r.sched.rq.runList, other ≠ proc := fun other member same => away (same ▸ member)
  have members : ∀ other, other ∈ (sjfEnqueue r.sched proc).rq.runList ↔ other = proc ∨ other ∈ r.sched.rq.runList := by
    intro other
    rw [placed, listed.mem_iff, List.mem_cons]
  have older : ∀ other ∈ r.sched.rq.runList, Function.update r.inserted proc (burst (sjfEnqueue r.sched proc).procs proc) other =
      burst (sjfEnqueue r.sched proc).procs other := by
    intro other member
    rw [Function.update_of_ne (apart other member), elsewhere other (apart other member), inv.frozen other member]
  refine ⟨?_, ?_, ?_, ?_⟩
  · simp only
    rw [placed, listed.nodup_iff]
    exact List.nodup_cons.mpr ⟨away, inv.distinct⟩
  · intro other member
    cases (members other).mp member with
    | inl same => simp only [same, Function.update_self]
    | inr old => exact (older other old).symm
  · intro other member
    cases (members other).mp member with
    | inl same => simp [same]
    | inr old =>
        simp only [Function.update_of_ne (apart other old)]
        exact Nat.lt_succ_of_lt (inv.turns other old)
  · simp only
    rw [placed]
    apply sjf_place_sorted
    · apply before_congr r _ _ _ _ inv.sorted
      · exact fun other member => Function.update_of_ne (apart other member) _ _
      · exact fun other member => Function.update_of_ne (apart other member) _ _
    · intro first inFirst second inSecond before later
      simp only [Before, Function.update_self, Function.update_of_ne (apart first inFirst), Function.update_of_ne (apart second inSecond)]
        at before later ⊢
      have turn := inv.turns first inFirst
      cases before with
      | inl less => exact .inl (later.elim (fun more => BitVec.lt_trans less more) fun same => same.1 ▸ less)
      | inr equal => exact absurd equal.2 (by omega)
    · intro other member less
      refine .inl ?_
      simp only [Function.update_self, older other member]
      exact less
    · intro other member more
      simp only [Before, Function.update_self, older other member, Function.update_of_ne (apart other member)]
      have turn := inv.turns other member
      by_cases same : burst (sjfEnqueue r.sched proc).procs other = burst (sjfEnqueue r.sched proc).procs proc
      · exact .inr ⟨same, turn⟩
      · exact .inl (by bv_omega)

theorem step_order (r : SjfRun) (event : SjfEvent) (next : SjfRun) (inv : r.OrderInv) (enabled : r.Enabled event)
    (taken : r.step event = some next) : next.OrderInv := by
  cases event with
  | enqueue proc => exact enqueue_inv r next proc inv enabled taken
  | dequeue proc =>
      simp only [step, Option.some.injEq] at taken
      subst taken
      have kept : ∀ other ∈ r.sched.rq.runList.erase proc, other ∈ r.sched.rq.runList := fun other member => List.mem_of_mem_erase member
      exact ⟨inv.distinct.erase proc, fun other member => inv.frozen other (kept other member),
        fun other member => inv.turns other (kept other member), inv.sorted.sublist List.erase_sublist⟩
  | pick =>
      simp only [step, Option.some.injEq] at taken
      exact taken ▸ inv
  | tick proc =>
      simp only [step, Option.some.injEq] at taken
      subst taken
      refine ⟨inv.distinct, fun other member => ?_, inv.turns, inv.sorted⟩
      have apart : other ≠ proc := by
        rintro rfl
        exact enabled member
      rw [sjf_tick_burst, if_neg apart]
      exact inv.frozen other member

-- Whatever the ticks do to the bursts, the queue is in order.
theorem sjf_always_ordered (procs : ProcId → Proc) (current : ProcId) (events : List SjfEvent)
    (met : Throughout step Enabled (start procs current) events) : Always step Ordered (start procs current) events :=
  always_invariant step Enabled OrderInv Ordered step_order (fun _ inv => inv.ordered) events _ (start_inv procs current) met

-- As long as all ticks fit, they are what a burst has lost.
def LeftInv (r : SjfRun) : Prop := ∀ proc, (burst r.sched.procs proc).toNat + r.ticks proc = (r.inserted proc).toNat

theorem burst_kept_fits (r : SjfRun) (event : SjfEvent) (inv : r.LeftInv) :
    (∀ next, r.step event = some next → r.BurstKept event next) ↔ r.TickFits event := by
  cases event with
  | enqueue proc =>
      refine ⟨fun _ => trivial, fun _ next taken other => ?_⟩
      obtain ⟨here, elsewhere, _⟩ := sjf_enqueue_spec r.sched proc
      simp only [step, Option.some.injEq] at taken
      subst taken
      by_cases same : other = proc
      · subst same
        by_cases unset : burst r.sched.procs other = 0
        · exact .inr ⟨rfl, unset, by rw [here, enqueueBurst, if_pos unset]⟩
        · exact .inl (by rw [here, enqueueBurst, if_neg unset]; exact BitVec.le_refl _)
      · exact .inl (by rw [elsewhere other same]; exact BitVec.le_refl _)
  | dequeue proc =>
      refine ⟨fun _ => trivial, fun _ next taken other => ?_⟩
      simp only [step, Option.some.injEq] at taken
      exact .inl (taken ▸ BitVec.le_refl _)
  | pick =>
      refine ⟨fun _ => trivial, fun _ next taken other => ?_⟩
      simp only [step, Option.some.injEq] at taken
      exact .inl (taken ▸ BitVec.le_refl _)
  | tick proc =>
      have left := inv proc
      constructor
      · intro kept
        cases kept _ rfl proc with
        | inl less =>
            rw [sjf_tick_burst, if_pos rfl] at less
            simp only [TickFits]
            bv_omega
        | inr reset => exact absurd reset.1 (by simp)
      · intro fits next taken other
        simp only [step, Option.some.injEq] at taken
        simp only [TickFits] at fits
        subst taken
        refine .inl ?_
        rw [sjf_tick_burst]
        split
        case isTrue same =>
          subst same
          bv_omega
        case isFalse => exact BitVec.le_refl _

theorem step_left (r : SjfRun) (event : SjfEvent) (next : SjfRun) (inv : r.LeftInv)
    (kept : ∀ next, r.step event = some next → r.BurstKept event next) (taken : r.step event = some next) : next.LeftInv := by
  have fits := (burst_kept_fits r event inv).mp kept
  cases event with
  | enqueue proc =>
      obtain ⟨here, elsewhere, _⟩ := sjf_enqueue_spec r.sched proc
      simp only [step, Option.some.injEq] at taken
      subst taken
      intro other
      by_cases same : other = proc
      · simp [same]
      · simp only [Function.update_of_ne same, elsewhere other same]
        exact inv other
  | dequeue proc =>
      simp only [step, Option.some.injEq] at taken
      exact taken ▸ inv
  | pick =>
      simp only [step, Option.some.injEq] at taken
      exact taken ▸ inv
  | tick proc =>
      simp only [step, Option.some.injEq] at taken
      simp only [TickFits] at fits
      subst taken
      intro other
      have left := inv other
      simp only [sjf_tick_burst]
      by_cases same : other = proc
      · subst same
        simp only [if_pos, Function.update_self]
        bv_omega
      · simp only [if_neg same, Function.update_of_ne same]
        exact left

theorem sjf_burst_iff (procs : ProcId → Proc) (current : ProcId) (events : List SjfEvent) :
    Throughout step (fun r event => ∀ next, r.step event = some next → r.BurstKept event next) (start procs current) events ↔
      Throughout step TickFits (start procs current) events :=
  throughout_congr step LeftInv (fun _ _ => True) (fun r event => ∀ next, r.step event = some next → r.BurstKept event next) TickFits
    step_left (fun r event inv _ => burst_kept_fits r event inv) events (start procs current) (fun _ => rfl)
    (throughout_trivial step _ (fun _ _ => trivial) events _)

theorem sjf_order_and_burst_iff (procs : ProcId → Proc) (current : ProcId) (events : List SjfEvent)
    (met : Throughout step Enabled (start procs current) events) :
    (Always step Ordered (start procs current) events ∧
        Throughout step (fun r event => ∀ next, r.step event = some next → r.BurstKept event next) (start procs current) events) ↔
      Throughout step TickFits (start procs current) events := by
  rw [sjf_burst_iff]
  exact ⟨fun both => both.2, fun fits => ⟨sjf_always_ordered procs current events met, fits⟩⟩

def newProcs : ProcId → Proc := fun _ => ⟨.uninit, 0, false, false, 0, 0, 0⟩

theorem sjf_order_and_burst_two :
    (Always step Ordered (start newProcs 0) [.enqueue 1, .enqueue 2, .pick, .dequeue 1, .tick 1, .enqueue 1] ∧
        Throughout step (fun r event => ∀ next, r.step event = some next → r.BurstKept event next) (start newProcs 0)
          [.enqueue 1, .enqueue 2, .pick, .dequeue 1, .tick 1, .enqueue 1]) ↔
      Throughout step TickFits (start newProcs 0) [.enqueue 1, .enqueue 2, .pick, .dequeue 1, .tick 1, .enqueue 1] :=
  sjf_order_and_burst_iff newProcs 0 [.enqueue 1, .enqueue 2, .pick, .dequeue 1, .tick 1, .enqueue 1] (by decide)

-- A process that is in the kernel for six ticks: trap() does not call schedule()
-- there. The calls of the kernel that get to the same burst are given as well.
def kernelTicks : List SjfEvent := [.enqueue 1, .pick, .dequeue 1, .tick 1, .tick 1, .tick 1, .tick 1, .tick 1, .tick 1]

theorem sjf_burst_wraps :
    Throughout step Enabled (start newProcs idleproc) kernelTicks ∧
      ((run step (start newProcs idleproc) kernelTicks).map fun r => burst r.sched.procs 1) = some 0xffffffff ∧
      ((run SjfState.call ⟨newProcs, sjfInit, idleproc⟩
          [.wakeup 1, .schedule, .timer true, .timer true, .timer true, .timer true, .timer true, .timer true]).map
        fun s => burst s.procs 1) = some 0xffffffff ∧
      ¬ (Always step Ordered (start newProcs idleproc) kernelTicks ∧
        Throughout step (fun r event => ∀ next, r.step event = some next → r.BurstKept event next) (start newProcs idleproc) kernelTicks) := by
  refine ⟨by decide, by decide +kernel, by decide +kernel, fun both => ?_⟩
  have fits := (sjf_burst_iff newProcs idleproc kernelTicks).mp both.2
  exact absurd fits (by decide)

end SjfRun

end Ucore.Sched.Sjf
