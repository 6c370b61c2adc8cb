import Mathlib.Data.List.Nodup
import Ucore.Sched.RoundRobin

set_option autoImplicit false

namespace Ucore.Sched

open Ucore.Lib Ucore.Proc

variable {P : Type} [DecidableEq P]

namespace RunState

-- The queue holds the runnable processes but for those that are out of it.
structure RunInv (idle : P) (out : P → Prop) (s : RunState P) : Prop where
  idleUsed : idle ∈ s.inUse
  distinct : s.inUse.Nodup
  counted : s.nrProcess = s.inUse.length
  few : s.nrProcess ≤ maxProcess
  currentUsed : s.current ∈ s.inUse
  idleRuns : (s.procs idle).state = .runnable
  queued : s.rq.runList.Nodup
  members : ∀ proc, proc ∈ s.rq.runList ↔ proc ∈ s.inUse ∧ (s.procs proc).state = .runnable ∧ ¬ out proc
  procNum : s.rq.procNum = BitVec.ofNat 32 s.rq.runList.length
  slice : s.rq.maxTimeSlice = Ucore.Sched.maxTimeSlice
  sliced : ∀ proc ∈ s.rq.runList, 0 < (s.procs proc).timeSlice ∧ (s.procs proc).timeSlice ≤ s.rq.maxTimeSlice ∧ (s.procs proc).onRq = true
  slices : ∀ proc ∈ s.inUse, 0 ≤ (s.procs proc).timeSlice
  asleep : ∀ proc ∈ s.inUse, (s.procs proc).waitState ≠ 0 → (s.procs proc).state = .sleeping
  alive : ∀ proc, s.registered proc = true → proc ∈ s.inUse ∧ (s.procs proc).state ≠ .zombie

-- Between steps these are the current process and idleproc.
def Outside (idle : P) (s : RunState P) (proc : P) : Prop := proc = s.current ∨ proc = idle

section Moves

variable {idle : P} {s : RunState P} {out : P → Prop}

omit [DecidableEq P] in
theorem RunInv.congr (inv : RunInv idle out s) (out' : P → Prop)
    (same : ∀ proc ∈ s.inUse, (s.procs proc).state = .runnable → (out proc ↔ out' proc)) : RunInv idle out' s :=
  { inv with
    members := by
      intro proc
      rw [inv.members proc]
      constructor
      · exact fun ⟨used, runs, inside⟩ => ⟨used, runs, fun outside => inside ((same proc used runs).mpr outside)⟩
      · exact fun ⟨used, runs, inside⟩ => ⟨used, runs, fun outside => inside ((same proc used runs).mp outside)⟩ }

omit [DecidableEq P] in
theorem RunInv.switch (inv : RunInv idle out s) (next : P) (used : next ∈ s.inUse) : RunInv idle out { s with current := next } :=
  { inv with currentUsed := used }

-- A step that changes one process and leaves the queue as it is.
theorem RunInv.touch (inv : RunInv idle out s) (proc : P) (entry : ProcStruct P) (registered : P → Bool)
    (state : out proc ∨ entry.state = (s.procs proc).state) (idleState : proc = idle → entry.state = .runnable)
    (slice : 0 ≤ entry.timeSlice)
    (sliced : proc ∈ s.rq.runList → 0 < entry.timeSlice ∧ entry.timeSlice ≤ s.rq.maxTimeSlice ∧ entry.onRq = true)
    (asleep : entry.waitState ≠ 0 → entry.state = .sleeping)
    (alive : ∀ other, registered other = true → other ∈ s.inUse ∧ (other = proc → entry.state ≠ .zombie) ∧
      (other ≠ proc → (s.procs other).state ≠ .zombie)) :
    RunInv idle out { s with procs := s.procs.set proc entry, registered := registered } where
  idleUsed := inv.idleUsed
  distinct := inv.distinct
  counted := inv.counted
  few := inv.few
  currentUsed := inv.currentUsed
  idleRuns := by
    by_cases isIdle : idle = proc
    · subst isIdle
      simpa using idleState rfl
    · simpa [isIdle] using inv.idleRuns
  queued := inv.queued
  members := by
    intro other
    by_cases here : other = proc
    · subst here
      rw [inv.members other]
      cases state with
      | inl outside => simp [outside]
      | inr same => simp [same]
    · simpa [here] using inv.members other
  procNum := inv.procNum
  slice := inv.slice
  sliced := by
    intro other linked
    by_cases here : other = proc
    · subst here
      simpa using sliced linked
    · simpa [here] using inv.sliced other linked
  slices := by
    intro other used
    by_cases here : other = proc
    · subst here
      simpa using slice
    · simpa [here] using inv.slices other used
  asleep := by
    intro other used
    by_cases here : other = proc
    · subst here
      simpa using asleep
    · simpa [here] using inv.asleep other used
  alive := by
    intro other waits
    obtain ⟨used, same, apart⟩ := alive other waits
    refine ⟨used, ?_⟩
    by_cases here : other = proc
    · subst here
      simpa using same rfl
    · simpa [here] using apart here

omit [DecidableEq P] in
theorem RunInv.slice_positive (inv : RunInv idle out s) : 0 < s.rq.maxTimeSlice := by
  rw [inv.slice]
  decide

omit [DecidableEq P] in
theorem RunInv.outside_unlinked (inv : RunInv idle out s) (proc : P) (outside : out proc) : proc ∉ s.rq.runList := by
  intro linked
  exact ((inv.members proc).mp linked).2.2 outside

omit [DecidableEq P] in
theorem proc_num_snoc (runList : List P) (proc : P) (procNum : BitVec 32) (counted : procNum = BitVec.ofNat 32 runList.length) :
    procNum + 1 = BitVec.ofNat 32 (runList ++ [proc]).length := by
  rw [counted, List.length_append, List.length_singleton, BitVec.ofNat_add]
  rfl

theorem proc_num_erase (runList : List P) (proc : P) (procNum : BitVec 32) (counted : procNum = BitVec.ofNat 32 runList.length)
    (linked : proc ∈ runList) : procNum - 1 = BitVec.ofNat 32 (runList.erase proc).length := by
  have positive := List.length_pos_of_mem linked
  have split : runList.length = (runList.erase proc).length + 1 := by
    rw [List.length_erase_of_mem linked]
    omega
  rw [counted, split, BitVec.ofNat_add]
  exact BitVec.add_sub_cancel _ _

structure Unchanged (s s' : RunState P) (proc : P) : Prop where
  inUse : s'.inUse = s.inUse
  current : s'.current = s.current
  registered : s'.registered = s.registered
  state : (s'.procs proc).state = (s.procs proc).state
  waitState : (s'.procs proc).waitState = (s.procs proc).waitState
  others : ∀ other, other ≠ proc → s'.procs other = s.procs other

theorem RunInv.enqueue_spec (inv : RunInv idle out s) (proc : P) (used : proc ∈ s.inUse) (runs : (s.procs proc).state = .runnable)
    (outside : out proc) (notIdle : proc ≠ idle) :
    ∃ s', s.enqueue idle proc = .ok s' ∧ RunInv idle (fun other => out other ∧ other ≠ proc) s' ∧ Unchanged s s' proc := by
  have unlinked := inv.outside_unlinked proc outside
  have slice := inv.slices proc used
  have positive := inv.slice_positive
  let timeSlice := if (s.procs proc).timeSlice = 0 ∨ (s.procs proc).timeSlice > s.rq.maxTimeSlice then s.rq.maxTimeSlice else (s.procs proc).timeSlice
  have given : 0 < timeSlice ∧ timeSlice ≤ s.rq.maxTimeSlice := by
    constructor <;> simp only [timeSlice] <;> split <;> omega
  have moved := inv.touch proc { s.procs proc with timeSlice := timeSlice, onRq := true } s.registered (.inl outside)
    (fun same => absurd same notIdle) (Int.le_of_lt given.1) (fun linked => absurd linked unlinked) (inv.asleep proc used) (by
      intro other waits
      obtain ⟨otherUsed, notZombie⟩ := inv.alive other waits
      exact ⟨otherUsed, fun same => same ▸ notZombie, fun _ => notZombie⟩)
  have returns : s.enqueue idle proc = .ok { s with
      procs := s.procs.set proc { s.procs proc with timeSlice := timeSlice, onRq := true }
      rq := ⟨s.rq.runList ++ [proc], s.rq.procNum + 1, s.rq.maxTimeSlice⟩ } := by
    simp [enqueue, RoundRobin.enqueue, unlinked, notIdle, timeSlice]
  refine ⟨_, returns, ?_, ⟨rfl, rfl, rfl, by simp, by simp, fun other apart => by simp [apart]⟩⟩
  exact { moved with
    queued := by
      apply List.Nodup.append inv.queued (List.nodup_singleton proc)
      intro other linked isProc
      exact unlinked (List.mem_singleton.mp isProc ▸ linked)
    members := by
      intro other
      rw [List.mem_append, List.mem_singleton]
      by_cases here : other = proc
      · subst here
        simp [runs, used]
      · simpa [here] using inv.members other
    procNum := proc_num_snoc _ _ _ inv.procNum
    sliced := by
      intro other linked
      by_cases here : other = proc
      · subst here
        simpa using given
      · have old := (List.mem_append.mp linked).resolve_right fun isProc => here (List.mem_singleton.mp isProc)
        simpa [here] using inv.sliced other old }

theorem RunInv.dequeue_spec (inv : RunInv idle out s) (next : P) (linked : next ∈ s.rq.runList) :
    ∃ rq, s.rq.dequeue s.procs next = .ok rq ∧ RunInv idle (fun other => out other ∨ other = next) { s with rq := rq } := by
  have onRq := (inv.sliced next linked).2.2
  refine ⟨⟨s.rq.runList.erase next, s.rq.procNum - 1, s.rq.maxTimeSlice⟩, by simp [RoundRobin.dequeue, linked, onRq], ?_⟩
  exact { inv with
    queued := inv.queued.erase next
    members := by
      intro other
      rw [inv.queued.mem_erase_iff, inv.members other, not_or]
      tauto
    procNum := proc_num_erase _ _ _ inv.procNum linked
    sliced := fun other still => inv.sliced other (List.mem_of_mem_erase still) }

end Moves

section Waking

variable {idle : P} {s : RunState P}

def Settled (idle : P) (s : RunState P) : Prop := RunInv idle (Outside idle s) s

omit [DecidableEq P] in
theorem Settled.calm (inv : Settled idle s) (active : s.Active) : (s.procs s.current).waitState = 0 := by
  by_contra waits
  have sleeps := inv.asleep s.current inv.currentUsed waits
  rw [active] at sleeps
  exact absurd sleeps (by decide)

structure WokenUp (idle : P) (s : RunState P) (proc : P) (s' : RunState P) : Prop where
  inv : Settled idle s'
  inUse : s'.inUse = s.inUse
  current : s'.current = s.current
  registered : s'.registered = s.registered
  runs : (s'.procs proc).state = .runnable
  others : ∀ other, other ≠ proc → s'.procs other = s.procs other

-- The delicate case is a process that is still current: it is marked runnable, and
-- schedule() will put it into the queue.
theorem Settled.wakeup_spec (inv : Settled idle s) (proc : P) (used : proc ∈ s.inUse) (notZombie : (s.procs proc).state ≠ .zombie) :
    ∃ s', s.wakeupProc idle proc = .ok s' ∧ WokenUp idle s proc s' := by
  by_cases runs : (s.procs proc).state = .runnable
  · exact ⟨s, by simp [wakeupProc, runs], inv, rfl, rfl, rfl, runs, fun _ _ => rfl⟩
  · have notIdle : proc ≠ idle := fun same => runs (same ▸ inv.idleRuns)
    have unlinked : proc ∉ s.rq.runList := fun linked => runs ((inv.members proc).mp linked).2.1
    have aside := inv.congr (fun other => Outside idle s other ∨ other = proc) (by
      intro other _ otherRuns
      have apart : other ≠ proc := fun same => runs (same ▸ otherRuns)
      simp [apart])
    have moved := aside.touch proc { s.procs proc with state := .runnable, waitState := 0 } s.registered (.inl (.inr rfl)) (fun _ => rfl)
      (inv.slices proc used) (fun linked => absurd linked unlinked) (fun waits => absurd rfl waits) (by
        intro other waits
        obtain ⟨otherUsed, otherAlive⟩ := inv.alive other waits
        exact ⟨otherUsed, fun _ => by simp, fun _ => otherAlive⟩)
    by_cases isCurrent : proc = s.current
    · refine ⟨{ s with procs := s.procs.set proc { s.procs proc with state := .runnable, waitState := 0 } }, ?_, ?_, rfl, rfl, rfl, by simp, ?_⟩
      · have stays : ¬ ¬ proc = s.current := fun apart => apart isCurrent
        simp only [wakeupProc, ne_eq, notZombie, not_false_eq_true, decide_true, check_true, ok_bind, runs, if_true, if_neg stays]
        rfl
      · apply moved.congr
        intro other _ _
        simp only [Outside, isCurrent]
        tauto
      · exact fun other apart => by simp [apart]
    · obtain ⟨s', returns, kept, frame⟩ := moved.enqueue_spec proc used (by simp) (.inr rfl) notIdle
      refine ⟨s', ?_, ?_, frame.inUse, frame.current, frame.registered, frame.state.trans (by simp), ?_⟩
      · simp only [wakeupProc, ne_eq, notZombie, not_false_eq_true, decide_true, check_true, ok_bind, runs, if_true, isCurrent]
        exact returns
      · apply kept.congr
        intro other _ _
        simp only [Outside, frame.current]
        by_cases here : other = proc
        · simp [here, isCurrent, notIdle]
        · simp [here]
      · intro other apart
        rw [frame.others other apart]
        exact Procs.set_other _ _ _ _ apart

-- Waking several processes, none of which is a zombie.
theorem Settled.wake_all_spec (procs : List P) (s : RunState P) (inv : Settled idle s)
    (alive : ∀ proc ∈ procs, proc ∈ s.inUse ∧ (s.procs proc).state ≠ .zombie) :
    ∃ s', wakeAll idle procs s = .ok s' ∧ Settled idle s' ∧ s'.inUse = s.inUse ∧ s'.current = s.current ∧ s'.registered = s.registered := by
  induction procs generalizing s with
  | nil => exact ⟨s, rfl, inv, rfl, rfl, rfl⟩
  | cons proc rest ih =>
      obtain ⟨used, notZombie⟩ := alive proc List.mem_cons_self
      obtain ⟨mid, returns, woken⟩ := inv.wakeup_spec proc used notZombie
      have later : ∀ other ∈ rest, other ∈ mid.inUse ∧ (mid.procs other).state ≠ .zombie := by
        intro other member
        obtain ⟨otherUsed, otherAlive⟩ := alive other (List.mem_cons_of_mem _ member)
        refine ⟨woken.inUse ▸ otherUsed, ?_⟩
        by_cases same : other = proc
        · rw [same, woken.runs]
          decide
        · rw [woken.others other same]
          exact otherAlive
      obtain ⟨s', finishes, kept, inUse, current, registered⟩ := ih mid woken.inv later
      refine ⟨s', by rw [wakeAll, returns, ok_bind, finishes], kept, inUse.trans woken.inUse, current.trans woken.current,
        registered.trans woken.registered⟩

theorem Settled.visit_all_spec (visits : List P) (s : RunState P) (inv : Settled idle s) (used : ∀ proc ∈ visits, proc ∈ s.inUse) :
    ∃ s', visitAll idle visits s = .ok s' ∧ Settled idle s' := by
  induction visits generalizing s with
  | nil => exact ⟨s, rfl, inv⟩
  | cons proc rest ih =>
      have here := used proc List.mem_cons_self
      by_cases waits : (s.procs proc).waitState = wtChild
      · have nonzero : (s.procs proc).waitState ≠ 0 := by
          rw [waits]
          decide
        have notZombie : (s.procs proc).state ≠ .zombie := by
          rw [inv.asleep proc here nonzero]
          decide
        obtain ⟨mid, returns, woken⟩ := inv.wakeup_spec proc here notZombie
        obtain ⟨s', finishes, kept⟩ := ih mid woken.inv fun other member => woken.inUse ▸ used other (List.mem_cons_of_mem _ member)
        exact ⟨s', by rw [visitAll, if_pos waits, returns, ok_bind, finishes], kept⟩
      · obtain ⟨s', finishes, kept⟩ := ih s inv fun other member => used other (List.mem_cons_of_mem _ member)
        exact ⟨s', by rw [visitAll, if_neg waits, ok_bind, finishes], kept⟩

end Waking

section Scheduling

variable {idle : P} {s : RunState P}

-- schedule() from where current has gone into the queue if it may.
theorem RunInv.pick_spec (inv : RunInv idle (fun proc => proc = idle) s) :
    ∃ s', (match s.rq.pickNext with
      | some next => do
          let rq ← s.rq.dequeue s.procs next
          return { s with rq := rq, current := next }
      | none => return { s with current := idle } : Except Fault (RunState P)) = .ok s' ∧ Settled idle s' := by
  cases picked : s.rq.pickNext with
  | none =>
      refine ⟨{ s with current := idle }, rfl, ?_⟩
      apply (inv.switch idle inv.idleUsed).congr
      intro proc _ _
      simp [Outside]
  | some next =>
      have linked : next ∈ s.rq.runList := List.mem_of_mem_head? picked
      obtain ⟨rq, returns, kept⟩ := inv.dequeue_spec next linked
      refine ⟨{ s with rq := rq, current := next }, by simp [returns], ?_⟩
      apply (kept.switch next ((inv.members next).mp linked).1).congr
      intro proc _ _
      simp [Outside, or_comm]

theorem Settled.schedule_spec (inv : Settled idle s) : ∃ s', s.schedule idle = .ok s' ∧ Settled idle s' := by
  have quiet : Settled idle { s with procs := s.procs.set s.current { s.procs s.current with needResched := false } } := by
    have outside : Outside idle s s.current := .inl rfl
    apply RunInv.touch inv s.current { s.procs s.current with needResched := false } s.registered (.inl outside)
    · intro same
      show (s.procs s.current).state = .runnable
      rw [same]
      exact inv.idleRuns
    · exact inv.slices s.current inv.currentUsed
    · exact fun linked => absurd linked (inv.outside_unlinked s.current outside)
    · exact inv.asleep s.current inv.currentUsed
    · intro other waits
      obtain ⟨otherUsed, otherAlive⟩ := inv.alive other waits
      exact ⟨otherUsed, fun same => same ▸ otherAlive, fun _ => otherAlive⟩
  unfold schedule
  generalize { s with procs := s.procs.set s.current { s.procs s.current with needResched := false } } = begun at quiet
  simp only
  by_cases runs : (begun.procs begun.current).state = .runnable
  · by_cases isIdle : begun.current = idle
    · have onlyIdle : RunInv idle (fun proc => proc = idle) begun := by
        apply quiet.congr
        intro proc _ _
        simp [Outside, isIdle]
      rw [if_pos runs, enqueue, if_neg (fun apart => apart isIdle), ok_bind]
      exact onlyIdle.pick_spec
    · obtain ⟨queued, returns, kept, frame⟩ := quiet.enqueue_spec begun.current quiet.currentUsed runs (.inl rfl) isIdle
      have onlyIdle : RunInv idle (fun proc => proc = idle) queued := by
        apply kept.congr
        intro proc _ _
        by_cases here : proc = begun.current
        · simp [here, isIdle]
        · simp [Outside, here]
      rw [if_pos runs, returns, ok_bind]
      exact onlyIdle.pick_spec
  · have onlyIdle : RunInv idle (fun proc => proc = idle) begun := by
      apply quiet.congr
      intro proc _ procRuns
      have apart : proc ≠ begun.current := fun same => runs (same ▸ procRuns)
      simp [Outside, apart]
    rw [if_neg runs, ok_bind]
    exact onlyIdle.pick_spec

end Scheduling

end RunState

end Ucore.Sched
