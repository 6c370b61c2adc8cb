import Mathlib.Data.List.Nodup
import Ucore.Proc.TimerList

set_option autoImplicit false

namespace Ucore.Proc

open Ucore.Lib

namespace TimerState

variable {T P : Type} [DecidableEq T]

-- Every timer on the list belongs to a process that is inside do_sleep with it,
-- and such a process sleeps with WT_TIMER or has been woken up.
structure TimerInv (s : TimerState T P) : Prop where
  distinct : s.list.Nodup
  positive : DeltaList.Positive s.deltas
  fits : ∀ timer time, s.remaining timer = some time → time < 2 ^ 32
  pending : ∀ timer ∈ s.list, s.inSleep (s.timers timer).proc = some timer
  owner : ∀ proc timer, s.inSleep proc = some timer → (s.timers timer).proc = proc
  wakeable : ∀ proc timer, s.inSleep proc = some timer → Wakeable s.procs proc

theorem remaining_mem (s : TimerState T P) (timer : T) : (s.remaining timer).isSome ↔ timer ∈ s.list := by
  rw [remaining, DeltaList.due_mem, deltas_items]

theorem deleted_inv (s : TimerState T P) (inv : TimerInv s) (timer : T) : TimerInv (s.delTimer timer) ∧
    (s.delTimer timer).remaining = Function.update s.remaining timer none := by
  obtain ⟨list, deltas, keeps⟩ := del_timer_spec s timer inv.distinct inv.fits
  have same : (s.delTimer timer).remaining = Function.update s.remaining timer none := by
    funext other
    rw [remaining, deltas, DeltaList.due_delete timer s.deltas (by rw [deltas_items]; exact inv.distinct)]
    by_cases here : other = timer
    · subst here
      simp
    · simp [here, remaining]
  have earlier : ∀ other time, (s.delTimer timer).remaining other = some time → s.remaining other = some time := by
    intro other time found
    rw [same] at found
    by_cases here : other = timer
    · subst here
      simp at found
    · rwa [Function.update_of_ne here] at found
  refine ⟨⟨?_, ?_, ?_, ?_, ?_, ?_⟩, same⟩
  · rw [list]
    exact inv.distinct.erase timer
  · exact fun other time found => inv.positive other time (earlier other time found)
  · exact fun other time found => inv.fits other time (earlier other time found)
  · intro other inside
    rw [list] at inside
    rw [keeps.owner, keeps.inSleep]
    exact inv.pending other (List.mem_of_mem_erase inside)
  · intro proc other found
    rw [keeps.inSleep] at found
    rw [keeps.owner]
    exact inv.owner proc other found
  · intro proc other found
    rw [keeps.inSleep] at found
    rw [keeps.procs]
    exact inv.wakeable proc other found

variable [DecidableEq P]

-- A process whose timer is not pending leaves do_sleep.
theorem left_inv (s : TimerState T P) (inv : TimerInv s) (proc : P) (gone : ∀ timer, s.inSleep proc = some timer → timer ∉ s.list) :
    TimerInv { s with inSleep := Function.update s.inSleep proc none } where
  distinct := inv.distinct
  positive := inv.positive
  fits := inv.fits
  pending := by
    intro timer inside
    have held := inv.pending timer inside
    have apart : (s.timers timer).proc ≠ proc := by
      rintro rfl
      exact gone timer held inside
    simp only [Function.update_of_ne apart]
    exact held
  owner := by
    intro other timer found
    by_cases here : other = proc
    · subst here
      simp at found
    · simp only [Function.update_of_ne here] at found
      exact inv.owner other timer found
  wakeable := by
    intro other timer found
    by_cases here : other = proc
    · subst here
      simp at found
    · simp only [Function.update_of_ne here] at found
      exact inv.wakeable other timer found

omit [DecidableEq P] in
theorem procs_inv (s : TimerState T P) (inv : TimerInv s) (procs : Procs P)
    (wakeable : ∀ proc timer, s.inSleep proc = some timer → Wakeable procs proc) : TimerInv { s with procs := procs } :=
  ⟨inv.distinct, inv.positive, inv.fits, inv.pending, inv.owner, wakeable⟩

theorem kill_wakeable (procs : Procs P) (proc : P) (alive : (procs proc).state ≠ .zombie) :
    ∃ result, killProc procs proc = .ok result ∧ ∀ other, Wakeable procs other → Wakeable result.2 other := by
  rw [killProc]
  by_cases exiting : (procs proc).exiting
  · exact ⟨_, if_pos exiting, fun _ => id⟩
  · rw [if_neg exiting]
    have marked : ∀ other, Wakeable procs other → Wakeable (procs.set proc { procs proc with exiting := true }) other := by
      intro other before
      by_cases here : other = proc
      · subst here
        simpa [Wakeable] using before
      · simpa [Wakeable, here] using before
    by_cases wakes : interruptible ((procs.set proc { procs proc with exiting := true }) proc).waitState
    · have alive' : ((procs.set proc { procs proc with exiting := true }) proc).state ≠ .zombie := by simpa using alive
      obtain ⟨after, returned, _⟩ := wakeup_state_ok _ proc alive'
      refine ⟨(0, after), ?_, fun other before => wakeup_wakeable _ after proc other returned alive' (marked other before)⟩
      simp only [wakes, if_true, returned, Except.map]
    · refine ⟨(0, procs.set proc { procs proc with exiting := true }), ?_, marked⟩
      exact if_neg wakes

theorem timer_wakeable : (decide (wtTimer = 0) || interruptible wtTimer) = true := by decide

theorem asleep_inv (s : TimerState T P) (inv : TimerInv s) (proc : P) (timer : T) (time : BitVec 32) (some' : time ≠ 0)
    (idle : s.inSleep proc = none) (fresh : s.inSleep (s.timers timer).proc ≠ some timer) :
    ∃ s', s.doSleep proc timer time = .ok s' ∧ TimerInv s' ∧ s'.remaining = Function.update s.remaining timer (some time.toNat) ∧
      ∀ other, s'.inSleep other = if other = proc then some timer else s.inSleep other := by
  have away : timer ∉ s.list := fun inside => fresh (inv.pending timer inside)
  have notHeld : ∀ other, s.inSleep other ≠ some timer := by
    intro other held
    apply fresh
    rw [inv.owner other timer held]
    exact held
  have long : 0 < time := by
    rw [BitVec.lt_def]
    exact Nat.pos_of_ne_zero fun zero => some' (BitVec.eq_of_toNat_eq (by simpa using zero))
  generalize made : (⟨Function.update s.timers timer ⟨time, proc⟩, s.list,
    s.procs.set proc { s.procs proc with state := .sleeping, waitState := wtTimer }, Function.update s.inSleep proc (some timer)⟩ :
      TimerState T P) = s0
  have list : s0.list = s.list := by rw [← made]
  have expires : (s0.timers timer).expires = time := by simp [← made]
  have deltas : s0.list.map (deltaOf s0.timers) = s.deltas := by
    rw [list, deltas_eq]
    refine List.map_congr_left fun other inside => ?_
    have apart : other ≠ timer := by
      rintro rfl
      exact away inside
    simp [deltaOf, ← made, apart]
  obtain ⟨inserted, keeps, _⟩ := add_from_spec s0 timer s0.list (by rwa [list]) (by rw [list]; exact inv.distinct)
  rw [deltas, expires] at inserted
  have added : s.doSleep proc timer time = .ok { (s0.addFrom timer s0.list).1 with list := (s0.addFrom timer s0.list).2 } := by
    rw [doSleep, if_neg some', made, addTimer, expires, list, decide_eq_true long, decide_eq_true away]
    rfl
  have owner : ∀ other, ((s0.addFrom timer s0.list).1.timers other).proc = if other = timer then proc else (s.timers other).proc := by
    intro other
    rw [keeps.owner]
    by_cases here : other = timer
    · subst here
      simp [← made]
    · simp [← made, here]
  have inSleep : ∀ other, (s0.addFrom timer s0.list).1.inSleep other = if other = proc then some timer else s.inSleep other := by
    intro other
    rw [keeps.inSleep, ← made]
    simp [Function.update_apply]
  have remaining : ∀ other, DeltaList.due (DeltaList.insert timer time.toNat s.deltas) other =
      Function.update s.remaining timer (some time.toNat) other := by
    intro other
    rw [DeltaList.due_insert timer _ s.deltas (by rwa [deltas_items]), Function.update_apply]
    rfl
  have items : (s0.addFrom timer s0.list).2.Perm (timer :: s.list) := by
    have perm := DeltaList.insert_items timer time.toNat s.deltas
    rw [← inserted, deltas_items] at perm
    simpa [DeltaList.items, deltaOf, Function.comp_def] using perm
  refine ⟨_, added, ⟨?_, ?_, ?_, ?_, ?_, ?_⟩, ?_, inSleep⟩
  · exact items.nodup_iff.mpr (List.nodup_cons.mpr ⟨away, inv.distinct⟩)
  · intro other amount found
    rw [deltas_eq] at found
    simp only [inserted, remaining] at found
    by_cases here : other = timer
    · subst here
      rw [Function.update_self] at found
      obtain rfl := Option.some.inj found
      exact long
    · rw [Function.update_of_ne here] at found
      exact inv.positive other amount found
  · intro other amount found
    rw [TimerState.remaining, deltas_eq] at found
    simp only [inserted, remaining] at found
    by_cases here : other = timer
    · subst here
      rw [Function.update_self] at found
      obtain rfl := Option.some.inj found
      exact time.isLt
    · rw [Function.update_of_ne here] at found
      exact inv.fits other amount found
  · intro other inside
    have inside' := items.mem_iff.mp inside
    simp only [owner, inSleep]
    by_cases here : other = timer
    · simp [here]
    · have held := inv.pending other ((List.mem_cons.mp inside').resolve_left here)
      have apart : (s.timers other).proc ≠ proc := by
        intro same
        rw [same, idle] at held
        exact absurd held (by simp)
      simp [here, apart, held]
  · intro other held found
    simp only [inSleep] at found
    simp only [owner]
    by_cases here : other = proc
    · rw [if_pos here] at found
      obtain rfl := Option.some.inj found
      simp [here]
    · rw [if_neg here] at found
      have apart : held ≠ timer := by
        rintro rfl
        exact notHeld other found
      rw [if_neg apart]
      exact inv.owner other held found
  · intro other held found
    simp only [inSleep] at found
    have procs : (s0.addFrom timer s0.list).1.procs = s.procs.set proc { s.procs proc with state := .sleeping, waitState := wtTimer } := by
      rw [keeps.procs, ← made]
    simp only [Wakeable, procs]
    by_cases here : other = proc
    · subst here
      rw [Procs.set_here]
      exact ⟨by simp, timer_wakeable⟩
    · rw [if_neg here] at found
      rw [Procs.set_other _ _ _ _ here]
      exact inv.wakeable other held found
  · funext other
    rw [TimerState.remaining, deltas_eq]
    simp only [inserted, remaining]

def Deletes (timer : T) : TimerCall T P → Prop
  | .resume _ other => other = timer
  | .delete other => other = timer
  | _ => False

-- A process stays inside do_sleep until it deletes its timer.
def StaysAsleep (s next : TimerState T P) (timerCall : TimerCall T P) : Prop :=
  ∀ proc timer, s.inSleep proc = some timer → ¬ Deletes timer timerCall → next.inSleep proc = some timer

theorem step_refines (s : TimerState T P) (inv : TimerInv s) (timerCall : TimerCall T P) (enabled : s.Enabled timerCall) :
    ∃ out next, step s timerCall = some (out, next) ∧ remainingSpec s.remaining timerCall = (out, next.remaining) ∧ TimerInv next ∧
      StaysAsleep s next timerCall := by
  cases timerCall with
  | sleep proc timer time =>
      by_cases zero : time = 0
      · exact ⟨fun _ => 0, s, by simp [step, call, doSleep, zero, Except.map], by simp [remainingSpec, zero], inv, fun _ _ held _ => held⟩
      · obtain ⟨s', slept, inv', same, inSleep⟩ := asleep_inv s inv proc timer time zero enabled.1 enabled.2
        refine ⟨fun _ => 0, s', by simp [step, call, slept, Except.map], by rw [remainingSpec, if_neg zero, same], inv', ?_⟩
        intro other held found _
        have apart : other ≠ proc := by
          rintro rfl
          rw [enabled.1] at found
          exact absurd found (by simp)
        rw [inSleep, if_neg apart, found]
  | resume proc timer =>
      obtain ⟨inv', same⟩ := deleted_inv s inv timer
      obtain ⟨list, _, keeps⟩ := del_timer_spec s timer inv.distinct inv.fits
      have left := left_inv _ inv' proc fun other held inside => by
        rw [keeps.inSleep, show s.inSleep proc = some timer from enabled] at held
        obtain rfl := Option.some.inj held
        rw [list] at inside
        exact inv.distinct.not_mem_erase inside
      rw [keeps.inSleep] at left
      have spec : remainingSpec s.remaining (.resume proc timer) = (fun _ => 0, (s.delTimer timer).remaining) := by
        rw [remainingSpec, same]
      refine ⟨fun _ => 0, { s.delTimer timer with inSleep := Function.update s.inSleep proc none }, by simp [step, call], spec, left, ?_⟩
      intro other held found stays
      have apart : other ≠ proc := by
        rintro rfl
        rw [show s.inSleep other = some timer from enabled] at found
        exact stays (Option.some.inj found)
      simpa [apart] using found
  | delete timer =>
      obtain ⟨inv', same⟩ := deleted_inv s inv timer
      obtain ⟨_, _, keeps⟩ := del_timer_spec s timer inv.distinct inv.fits
      refine ⟨fun _ => 0, s.delTimer timer, by simp [step, call], by simp [remainingSpec, same], inv', fun other held found _ => ?_⟩
      rw [keeps.inSleep, found]
  | kill proc =>
      obtain ⟨result, killed, wakeable⟩ := kill_wakeable s.procs proc enabled
      refine ⟨fun _ => 0, { s with procs := result.2 }, by simp [step, call, killed, Except.map], rfl, procs_inv s inv result.2 ?_,
        fun _ _ found _ => found⟩
      exact fun other timer held => wakeable other (inv.wakeable other timer held)
  | other proc entry =>
      refine ⟨fun _ => 0, { s with procs := s.procs.set proc entry }, by simp [step, call], rfl, procs_inv s inv _ ?_, fun _ _ found _ => found⟩
      intro other timer held
      have apart : other ≠ proc := by
        rintro rfl
        rw [show s.inSleep other = none from enabled] at held
        exact absurd held (by simp)
      have wakeable := inv.wakeable other timer held
      simpa [Wakeable, apart] using wakeable
  | tick =>
      obtain ⟨s', ran, later, inSleep, owner, wakeable, _⟩ := run_timer_list_spec s inv.distinct inv.positive fun timer inside =>
        inv.wakeable _ timer (inv.pending timer inside)
      have distinct : (DeltaList.items s.deltas).Nodup := by
        rw [deltas_items]
        exact inv.distinct
      have now := DeltaList.now_tick s.deltas inv.positive distinct
      have sublist : (DeltaList.dueNow (DeltaList.lessFirst s.deltas)).Sublist s.list := by
        have split := DeltaList.due_now_later (DeltaList.lessFirst s.deltas)
        rw [DeltaList.less_first_items, deltas_items] at split
        rw [← split]
        exact List.sublist_append_left _ _
      have left : s'.list.Sublist s.list := by
        have split := DeltaList.due_now_later (DeltaList.lessFirst s.deltas)
        rw [DeltaList.less_first_items, deltas_items, ← later, deltas_items] at split
        rw [← split]
        exact List.sublist_append_right _ _
      have after : ∀ timer, s'.remaining timer = (s.remaining timer).bind fun time => if time = 1 then none else some (time - 1) := by
        intro timer
        rw [remaining, later, DeltaList.due_tick s.deltas inv.positive distinct]
        rfl
      have earlier : ∀ timer time, s'.remaining timer = some time → s.remaining timer = some (time + 1) ∧ 0 < time := by
        intro timer time found
        rw [after timer] at found
        obtain ⟨before, had, found⟩ := Option.bind_eq_some_iff.mp found
        have ahead := inv.positive timer before had
        split at found
        · simp at found
        · obtain rfl := Option.some.inj found
          have restored : before - 1 + 1 = before := by omega
          exact ⟨by rw [restored]; exact had, by omega⟩
      refine ⟨fun timer => (DeltaList.dueNow (DeltaList.lessFirst s.deltas)).count timer, s', by simp [step, call, ran], ?_, ?_,
        fun other held found _ => by rw [inSleep, found]⟩
      · rw [remainingSpec]
        refine Prod.ext (funext fun timer => ?_) (funext fun timer => (after timer).symm)
        by_cases last : s.remaining timer = some 1
        · have once := List.count_eq_one_of_mem (inv.distinct.sublist sublist) ((now timer).mpr last)
          simp only [last, if_true, once]
        · have notMember := List.count_eq_zero.mpr fun inside => last ((now timer).mp inside)
          simp only [last, if_false, notMember]
      · refine ⟨inv.distinct.sublist left, ?_, ?_, ?_, ?_, ?_⟩
        · exact fun timer time found => (earlier timer time found).2
        · intro timer time found
          have bound := inv.fits timer _ (earlier timer time found).1
          omega
        · intro timer inside
          rw [owner, inSleep]
          exact inv.pending timer (left.mem inside)
        · intro proc timer held
          rw [inSleep] at held
          rw [owner]
          exact inv.owner proc timer held
        · intro proc timer held
          rw [inSleep] at held
          exact wakeable proc (inv.wakeable proc timer held)

theorem run_refines (calls : List (TimerCall T P)) (s : TimerState T P) (inv : TimerInv s)
    (met : Throughout (plainStep step) Enabled s calls) : Refines step remainingSpec remaining s calls := by
  rw [refines_iff]
  induction calls generalizing s with
  | nil => trivial
  | cons first rest ih =>
      obtain ⟨out, next, taken, same, inv', _⟩ := step_refines s inv first met.1
      refine ⟨⟨out, next, taken, same⟩, fun after stepped => ?_⟩
      obtain rfl : next = after := by simpa [plainStep, taken] using stepped
      exact ih next inv' (met.2 next stepped)

theorem run_reaches (calls : List (TimerCall T P)) (s : TimerState T P) (inv : TimerInv s)
    (met : Throughout (plainStep step) Enabled s calls) : ∃ final, run (plainStep step) s calls = some final ∧ TimerInv final := by
  induction calls generalizing s with
  | nil => exact ⟨s, rfl, inv⟩
  | cons first rest ih =>
      obtain ⟨out, next, taken, _, inv', _⟩ := step_refines s inv first met.1
      have stepped : plainStep step s first = some next := by simp [plainStep, taken]
      obtain ⟨final, ran, last⟩ := ih next inv' (met.2 next stepped)
      exact ⟨final, by simp [run, stepped, ran], last⟩

def isTick : TimerCall T P → Bool
  | .tick => true
  | _ => false

def ticks (calls : List (TimerCall T P)) : Nat := calls.countP isTick

-- The timer does not wake its process in the calls, and does so once in the
-- tick that follows them.
def WakesAfter (s : TimerState T P) (timer : T) (proc : P) (calls : List (TimerCall T P)) : Prop :=
  ∃ outs reached last final, outputs step s calls = some (outs, reached) ∧ (∀ out ∈ outs, out timer = 0) ∧
    step reached .tick = some (last, final) ∧ last timer = 1 ∧ (final.procs proc).state = .runnable ∧ final.remaining timer = none

theorem wakes_at_once (s : TimerState T P) (inv : TimerInv s) (timer : T) (proc : P) (held : s.inSleep proc = some timer)
    (last : s.remaining timer = some 1) : WakesAfter s timer proc [] := by
  obtain ⟨s', ran, later, _, _, _, wakes⟩ := run_timer_list_spec s inv.distinct inv.positive fun timer inside =>
    inv.wakeable _ timer (inv.pending timer inside)
  obtain ⟨out, next, taken, same, _, _⟩ := step_refines s inv .tick trivial
  have reached : next = s' := by
    simp only [step, call, ran, Option.some.injEq, Prod.mk.injEq] at taken
    exact taken.2.symm
  subst reached
  have distinct : (DeltaList.items s.deltas).Nodup := by
    rw [deltas_items]
    exact inv.distinct
  obtain ⟨count, after⟩ := Prod.mk.inj same
  refine ⟨[], s, out, next, rfl, by simp, taken, ?_, ?_, ?_⟩
  · rw [← count]
    simp [last]
  · have runs := wakes timer ((DeltaList.now_tick s.deltas inv.positive distinct timer).mpr last)
    rwa [inv.owner proc timer held] at runs
  · rw [← after]
    simp [last]

theorem wakes_after (calls : List (TimerCall T P)) (s : TimerState T P) (inv : TimerInv s) (timer : T) (proc : P)
    (held : s.inSleep proc = some timer) (left : s.remaining timer = some (ticks calls + 1))
    (met : Throughout (plainStep step) Enabled s calls) (stays : ∀ timerCall ∈ calls, ¬ Deletes timer timerCall) :
    WakesAfter s timer proc calls := by
  induction calls generalizing s with
  | nil => exact wakes_at_once s inv timer proc held left
  | cons first rest ih =>
      obtain ⟨out, next, taken, same, inv', asleep⟩ := step_refines s inv first met.1
      have stepped : plainStep step s first = some next := by simp [plainStep, taken]
      have held' := asleep proc timer held (stays first (by simp))
      have here : out timer = 0 ∧ next.remaining timer = some (ticks rest + 1) := by
        have count : ticks (first :: rest) = ticks rest + if isTick first then 1 else 0 := List.countP_cons
        rw [count] at left
        obtain ⟨outSame, nextSame⟩ := Prod.mk.inj same
        rw [← outSame, ← nextSame]
        cases first with
        | sleep other fresh time =>
            have apart : timer ≠ fresh := by
              rintro rfl
              have pending := inv.pending timer ((remaining_mem s timer).mp (by simp [left]))
              exact met.1.2 pending
            refine ⟨rfl, ?_⟩
            by_cases zero : time = 0
            · simpa [isTick, zero] using left
            · show (if time = 0 then s.remaining else Function.update s.remaining fresh (some time.toNat)) timer = _
              rw [if_neg zero, Function.update_of_ne apart]
              simpa [isTick] using left
        | resume other deleted =>
            have apart : timer ≠ deleted := fun equal => stays (.resume other deleted) (by simp) equal.symm
            exact ⟨rfl, by simpa [isTick, apart] using left⟩
        | delete deleted =>
            have apart : timer ≠ deleted := fun equal => stays (.delete deleted) (by simp) equal.symm
            exact ⟨rfl, by simpa [isTick, apart] using left⟩
        | kill other => exact ⟨rfl, by simpa [isTick] using left⟩
        | other proc entry => exact ⟨rfl, by simpa [isTick] using left⟩
        | tick =>
            simp only [isTick, if_true] at left
            simp [left]
      obtain ⟨outs, reached, last, final, ran, quiet, tick, wakes⟩ := ih next inv' held' here.2 (met.2 next stepped)
        fun timerCall inside => stays timerCall (by simp [inside])
      refine ⟨out :: outs, reached, last, final, by simp [outputs, taken, ran], fun other inside => ?_, tick, wakes⟩
      rcases List.mem_cons.mp inside with rfl | inRest
      · exact here.1
      · exact quiet other inRest

omit [DecidableEq P] in
theorem idle_inv (s : TimerState T P) (empty : s.list = []) (idle : ∀ proc, s.inSleep proc = none) : TimerInv s where
  distinct := by simp [empty]
  positive := by simp [DeltaList.Positive, deltas_eq, empty, DeltaList.due]
  fits := by simp [remaining, deltas_eq, empty, DeltaList.due]
  pending := by simp [empty]
  owner := by simp [idle]
  wakeable := by simp [idle]

theorem timer_list_exact (s : TimerState T P) (empty : s.list = []) (idle : ∀ proc, s.inSleep proc = none)
    (calls : List (TimerCall T P)) (met : Throughout (plainStep step) Enabled s calls) :
    Refines step remainingSpec remaining s calls ∧
      ∀ before proc timer time between, before ++ .sleep proc timer time :: (between ++ [.tick]) <+: calls → time ≠ 0 →
        (∀ timerCall ∈ between, ¬ Deletes timer timerCall) → ticks between + 1 = time.toNat →
          ∃ started, run (plainStep step) s (before ++ [.sleep proc timer time]) = some started ∧ WakesAfter started timer proc between := by
  have inv := idle_inv s empty idle
  refine ⟨run_refines calls s inv met, fun before proc timer time between part long stays last => ?_⟩
  have metPart := throughout_earlier _ _ _ _ s met part
  have metBefore := throughout_earlier _ _ _ before s metPart (List.prefix_append _ _)
  obtain ⟨reached, ranBefore, inv1⟩ := run_reaches before s inv metBefore
  have metHere := throughout_append _ _ _ _ s reached metPart ranBefore
  obtain ⟨started, slept, inv2, same, inSleep⟩ := asleep_inv reached inv1 proc timer time long metHere.1.1 metHere.1.2
  have stepped : plainStep step reached (.sleep proc timer time) = some started := by
    simp [plainStep, step, call, slept, Except.map]
  refine ⟨started, ?_, wakes_after between started inv2 timer proc (by simp [inSleep]) ?_ ?_ stays⟩
  · rw [run_append, ranBefore, Option.bind_some]
    simp [run, stepped]
  · rw [same, last]
    simp
  · exact throughout_earlier _ _ _ between started (metHere.2 started stepped) (List.prefix_append _ _)

-- Three processes sleep, two of them until the same tick, and one is killed.
def restingTimers : TimerState (Fin 3) (Fin 3) := ⟨fun proc => ⟨0, proc⟩, [], fun _ => { allocProc with state := .runnable }, fun _ => none⟩

def restingCalls : List (TimerCall (Fin 3) (Fin 3)) :=
  [.sleep 0 0 3, .tick, .sleep 1 1 2, .sleep 2 2 1, .kill 2, .resume 2 2, .tick, .tick]

theorem timer_list_exact_three : Refines step remainingSpec remaining restingTimers restingCalls ∧
    ∃ started, run (plainStep step) restingTimers [.sleep 0 0 3] = some started ∧
      WakesAfter started 0 0 [.tick, .sleep 1 1 2, .sleep 2 2 1, .kill 2, .resume 2 2, .tick] := by
  have met : Throughout (plainStep step) Enabled restingTimers restingCalls := by decide +kernel
  obtain ⟨refines, wakes⟩ := timer_list_exact restingTimers rfl (fun _ => rfl) restingCalls met
  refine ⟨refines, wakes [] 0 0 3 [.tick, .sleep 1 1 2, .sleep 2 2 1, .kill 2, .resume 2 2, .tick] (List.prefix_refl _) (by decide) ?_ rfl⟩
  simp [Deletes]

end TimerState

end Ucore.Proc
