import Ucore.Proc.Timer

set_option autoImplicit false

namespace Ucore.Proc

open Ucore.Lib

namespace TimerState

variable {T P : Type}

def deltaOf (timers : T → Timer P) (timer : T) : T × Nat := (timer, (timers timer).expires.toNat)

theorem deltas_eq (s : TimerState T P) : s.deltas = s.list.map (deltaOf s.timers) := rfl

theorem deltas_items (s : TimerState T P) : DeltaList.items s.deltas = s.list := by
  simp [DeltaList.items, deltas, Function.comp_def]

variable [DecidableEq T]

theorem delta_here (s : TimerState T P) (timer : T) (expires : BitVec 32) :
    deltaOf (s.setExpires timer expires).timers timer = (timer, expires.toNat) := by
  simp [deltaOf, setExpires]

theorem deltas_other (s : TimerState T P) (timer : T) (expires : BitVec 32) (list : List T) (away : timer ∉ list) :
    list.map (deltaOf (s.setExpires timer expires).timers) = list.map (deltaOf s.timers) := by
  refine List.map_congr_left fun other inside => ?_
  have apart : other ≠ timer := by
    rintro rfl
    exact away inside
  simp [deltaOf, setExpires, apart]

@[simp] theorem set_expires_proc (s : TimerState T P) (timer other : T) (expires : BitVec 32) :
    ((s.setExpires timer expires).timers other).proc = (s.timers other).proc := by
  by_cases here : other = timer
  · subst here
    simp [setExpires]
  · simp [setExpires, here]

-- What a function of the list leaves alone.
structure Keeps (s s' : TimerState T P) : Prop where
  procs : s'.procs = s.procs
  inSleep : s'.inSleep = s.inSleep
  owner : ∀ timer, (s'.timers timer).proc = (s.timers timer).proc

omit [DecidableEq T] in
theorem keeps_trans (s s' s'' : TimerState T P) (first : Keeps s s') (second : Keeps s' s'') : Keeps s s'' :=
  ⟨second.procs.trans first.procs, second.inSleep.trans first.inSleep, fun timer => (second.owner timer).trans (first.owner timer)⟩

theorem set_expires_keeps (s : TimerState T P) (timer : T) (expires : BitVec 32) : Keeps s (s.setExpires timer expires) :=
  ⟨rfl, rfl, fun other => set_expires_proc s timer other expires⟩

theorem add_from_spec (s : TimerState T P) (timer : T) (list : List T) (fresh : timer ∉ list) (distinct : list.Nodup) :
    (addFrom s timer list).2.map (deltaOf (addFrom s timer list).1.timers) =
        DeltaList.insert timer (s.timers timer).expires.toNat (list.map (deltaOf s.timers)) ∧
      Keeps s (addFrom s timer list).1 ∧ ∀ other, other ≠ timer → other ∉ list →
        (addFrom s timer list).1.timers other = s.timers other := by
  induction list generalizing s with
  | nil => exact ⟨rfl, ⟨rfl, rfl, fun _ => rfl⟩, fun _ _ _ => rfl⟩
  | cons next rest ih =>
      simp only [List.mem_cons, not_or] at fresh
      obtain ⟨apart, notRest⟩ := fresh
      obtain ⟨nextAway, distinctRest⟩ := List.nodup_cons.mp distinct
      rw [addFrom]
      by_cases sooner : (s.timers timer).expires < (s.timers next).expires
      · rw [if_pos sooner]
        have soonerNat : (s.timers timer).expires.toNat < (s.timers next).expires.toNat := sooner
        refine ⟨?_, set_expires_keeps s next _, fun other _ notHere => ?_⟩
        · have first : deltaOf (s.setExpires next ((s.timers next).expires - (s.timers timer).expires)).timers timer =
              deltaOf s.timers timer := by simp [deltaOf, setExpires, apart]
          have second : deltaOf (s.setExpires next ((s.timers next).expires - (s.timers timer).expires)).timers next =
              (next, (s.timers next).expires.toNat - (s.timers timer).expires.toNat) := by
            rw [delta_here, BitVec.toNat_sub_of_le (BitVec.le_of_lt sooner)]
          rw [List.map_cons, List.map_cons, List.map_cons, first, second, deltas_other s next _ rest nextAway]
          simp only [DeltaList.insert, deltaOf]
          exact (if_pos soonerNat).symm
        · have notNext : other ≠ next := fun same => notHere (by simp [same])
          simp [setExpires, notNext]
      · rw [if_neg sooner]
        have laterNat : ¬ (s.timers timer).expires.toNat < (s.timers next).expires.toNat := sooner
        have le : (s.timers next).expires ≤ (s.timers timer).expires := by
          rw [BitVec.le_def]
          omega
        obtain ⟨inserted, kept, others⟩ :=
          ih (s.setExpires timer ((s.timers timer).expires - (s.timers next).expires)) notRest distinctRest
        refine ⟨?_, keeps_trans _ _ _ (set_expires_keeps s timer _) kept, fun other notTimer notHere => ?_⟩
        · have same : deltaOf (addFrom (s.setExpires timer ((s.timers timer).expires - (s.timers next).expires)) timer rest).1.timers next =
              deltaOf s.timers next := by
            rw [deltaOf, others next (Ne.symm apart) nextAway]
            simp [deltaOf, setExpires, Ne.symm apart]
          have less : ((s.setExpires timer ((s.timers timer).expires - (s.timers next).expires)).timers timer).expires.toNat =
              (s.timers timer).expires.toNat - (s.timers next).expires.toNat := by
            simp only [setExpires, Function.update_self]
            exact BitVec.toNat_sub_of_le le
          rw [less, deltas_other s timer _ rest notRest] at inserted
          rw [List.map_cons, List.map_cons, same, inserted]
          simp only [DeltaList.insert, deltaOf]
          exact (if_neg laterNat).symm
        · rw [others other notTimer fun inside => notHere (by simp [inside])]
          simp [setExpires, notTimer]

variable [DecidableEq P]

theorem next_timer_mem (timer next : T) (list : List T) (found : nextTimer timer list = some next) : next ∈ list := by
  induction list with
  | nil => simp [nextTimer] at found
  | cons first rest ih =>
      rw [nextTimer] at found
      split at found
      · exact List.mem_cons_of_mem first (List.mem_of_mem_head? found)
      · exact List.mem_cons_of_mem first (ih found)

theorem next_timer_cons (timer first : T) (rest : List T) (apart : first ≠ timer) :
    nextTimer timer (first :: rest) = nextTimer timer rest := by
  rw [nextTimer, if_neg apart]

-- The differences after the successor of the timer has taken over its own.
omit [DecidableEq P] in
theorem deltas_given (s : TimerState T P) (timer : T) (list : List T) (member : timer ∈ list) (distinct : list.Nodup)
    (fits : ∀ item time, DeltaList.due (list.map (deltaOf s.timers)) item = some time → time < 2 ^ 32) :
    (list.erase timer).map (deltaOf
        (match nextTimer timer list with
        | some next => s.setExpires next ((s.timers next).expires + (s.timers timer).expires)
        | none => s).timers) = DeltaList.delete timer (list.map (deltaOf s.timers)) := by
  induction list with
  | nil => simp at member
  | cons first rest ih =>
      obtain ⟨firstAway, distinctRest⟩ := List.nodup_cons.mp distinct
      by_cases here : first = timer
      · subst here
        rw [List.erase_cons_head, nextTimer, if_pos rfl, List.map_cons, DeltaList.delete, deltaOf]
        simp only [if_true]
        cases rest with
        | nil => rfl
        | cons next others =>
            obtain ⟨nextAway, _⟩ := List.nodup_cons.mp distinctRest
            have apart : first ≠ next := fun same => firstAway (by simp [same])
            have sum := fits next ((s.timers first).expires.toNat + (s.timers next).expires.toNat) (by
              simp [DeltaList.due, deltaOf, apart])
            have given : deltaOf (s.setExpires next ((s.timers next).expires + (s.timers first).expires)).timers next =
                (next, (s.timers next).expires.toNat + (s.timers first).expires.toNat) := by
              rw [delta_here, BitVec.toNat_add_of_lt (by omega)]
            simp only [List.head?_cons]
            rw [List.map_cons, given, deltas_other s next _ others nextAway, List.map_cons, deltaOf, DeltaList.addFirst]
      · have inRest : timer ∈ rest := (List.mem_cons.mp member).resolve_left (Ne.symm here)
        have fitsRest : ∀ item time, DeltaList.due (rest.map (deltaOf s.timers)) item = some time → time < 2 ^ 32 := by
          intro item time found
          have apart : first ≠ item := by
            rintro rfl
            have inside := (DeltaList.due_mem (rest.map (deltaOf s.timers)) first).mp (by simp [found])
            simp only [DeltaList.items, List.map_map, List.mem_map, Function.comp, deltaOf] at inside
            obtain ⟨other, inRest, rfl⟩ := inside
            exact firstAway inRest
          have larger := fits item ((s.timers first).expires.toNat + time) (by simp [DeltaList.due, deltaOf, apart, found])
          omega
        have given := ih inRest distinctRest fitsRest
        rw [List.erase_cons_tail (by simpa using here), List.map_cons, List.map_cons, next_timer_cons timer first rest here, given]
        rw [deltaOf, deltaOf, DeltaList.delete, if_neg here]
        cases found : nextTimer timer rest with
        | none => rfl
        | some next =>
            have apart : first ≠ next := by
              rintro rfl
              exact firstAway (next_timer_mem timer first rest found)
            simp [setExpires, apart]

omit [DecidableEq P] in
theorem del_timer_spec (s : TimerState T P) (timer : T) (distinct : s.list.Nodup)
    (fits : ∀ item time, s.remaining item = some time → time < 2 ^ 32) :
    (s.delTimer timer).list = s.list.erase timer ∧ (s.delTimer timer).deltas = DeltaList.delete timer s.deltas ∧
      Keeps s (s.delTimer timer) := by
  by_cases member : timer ∈ s.list
  · have given := deltas_given s timer s.list member distinct fits
    have idle : ∀ next, (s.timers timer).expires = 0 →
        (s.setExpires next ((s.timers next).expires + (s.timers timer).expires)).timers = s.timers := by
      intro next zero
      simp [setExpires, zero]
    rw [delTimer, if_pos member]
    cases found : nextTimer timer s.list with
    | none =>
        rw [found] at given
        simp only [ite_self]
        exact ⟨trivial, given, rfl, rfl, fun _ => rfl⟩
    | some next =>
        rw [found] at given
        by_cases zero : (s.timers timer).expires = 0
        · simp only [idle next zero] at given
          simp only [zero, ne_eq, not_true_eq_false, if_false]
          exact ⟨trivial, given, rfl, rfl, fun _ => rfl⟩
        · simp only [zero, ne_eq, not_false_eq_true, if_true]
          exact ⟨trivial, given, rfl, rfl, fun other => set_expires_proc s next other _⟩
  · have away : timer ∉ DeltaList.items s.deltas := by rwa [deltas_items]
    rw [delTimer, if_neg member]
    exact ⟨(List.erase_of_not_mem member).symm, (DeltaList.delete_absent timer s.deltas away).symm, rfl, rfl, fun _ => rfl⟩

-- What run_timer_list asserts about the process of a timer that has run out.
def Wakeable (procs : Procs P) (proc : P) : Prop :=
  (procs proc).state ≠ .zombie ∧ ((procs proc).waitState = 0 || interruptible (procs proc).waitState) = true

theorem wakeup_wakeable (procs procs' : Procs P) (proc other : P) (woken : wakeupState procs proc = .ok procs')
    (alive : (procs proc).state ≠ .zombie) (wakeable : Wakeable procs other) : Wakeable procs' other := by
  obtain ⟨after, returned, state, wait, others⟩ := wakeup_state_ok procs proc alive
  rw [woken] at returned
  obtain rfl := Except.ok.inj returned
  by_cases here : other = proc
  · subst here
    refine ⟨by simp [state], ?_⟩
    rcases wait with zero | same
    · simp [zero]
    · rw [same]
      exact wakeable.2
  · rw [Wakeable, others other here]
    exact wakeable

-- What a walk over timers that have run out does to the processes.
structure Woken (s s' : TimerState T P) (woken : List T) : Prop where
  timers : s'.timers = s.timers
  inSleep : s'.inSleep = s.inSleep
  wakeable : ∀ proc, Wakeable s.procs proc → Wakeable s'.procs proc
  runs : ∀ proc, (s.procs proc).state = .runnable → (s'.procs proc).state = .runnable
  wakes : ∀ timer ∈ woken, (s'.procs (s.timers timer).proc).state = .runnable

theorem expire_spec (s : TimerState T P) (timer : T) (rest : List T) (list : s.list = timer :: rest)
    (out : (s.timers timer).expires = 0) (wakeable : Wakeable s.procs (s.timers timer).proc) :
    ∃ s', s.expire timer = .ok s' ∧ s'.list = rest ∧ Woken s s' [timer] := by
  obtain ⟨procs, returned, state, _, others⟩ := wakeup_state_ok s.procs (s.timers timer).proc wakeable.1
  have removed : delTimer { s with procs := procs } timer = { s with procs := procs, list := rest } := by
    simp [delTimer, list, out]
  refine ⟨{ s with procs := procs, list := rest }, ?_, rfl, rfl, rfl, ?_, ?_, ?_⟩
  · rw [expire, wakeable.2, check_true, ok_bind, returned, ok_bind, removed, pure_ok]
  · exact fun proc before => wakeup_wakeable s.procs procs _ proc returned wakeable.1 before
  · intro proc before
    by_cases here : proc = (s.timers timer).proc
    · rw [here]
      exact state
    · show (procs proc).state = .runnable
      rw [others proc here, before]
  · intro other inside
    obtain rfl := List.mem_singleton.mp inside
    exact state

theorem expire_from_spec (list : List T) (s : TimerState T P) (whole : s.list = list)
    (wakeable : ∀ timer ∈ list, Wakeable s.procs (s.timers timer).proc) :
    ∃ s', s.expireFrom list = .ok (DeltaList.dueNow s.deltas, s') ∧ s'.deltas = DeltaList.dueLater s.deltas ∧
      Woken s s' (DeltaList.dueNow s.deltas) := by
  induction list generalizing s with
  | nil =>
      refine ⟨s, by simp [expireFrom, deltas_eq, whole, DeltaList.dueNow, DeltaList.items], ?_, rfl, rfl, fun _ => id, fun _ => id, ?_⟩
      · simp [deltas_eq, whole, DeltaList.dueLater]
      · simp [deltas_eq, whole, DeltaList.dueNow, DeltaList.items]
  | cons timer rest ih =>
      by_cases out : (s.timers timer).expires = 0
      · obtain ⟨s1, expired, left, woken1⟩ := expire_spec s timer rest whole out (wakeable timer (by simp))
        obtain ⟨s2, ran, later, woken2⟩ := ih s1 left fun other inside => by
          rw [woken1.timers]
          exact woken1.wakeable _ (wakeable other (by simp [inside]))
        have tail : s1.deltas = rest.map (deltaOf s.timers) := by rw [deltas_eq, left, woken1.timers]
        have now : DeltaList.dueNow s.deltas = timer :: DeltaList.dueNow s1.deltas := by
          rw [tail]
          simp [deltas_eq, whole, deltaOf, out, DeltaList.dueNow, DeltaList.items]
        refine ⟨s2, ?_, ?_, ?_⟩
        · rw [expireFrom, if_pos out, expired, ok_bind, ran, ok_bind, now]
          rfl
        · rw [later, tail]
          simp [deltas_eq, whole, deltaOf, out, DeltaList.dueLater]
        · rw [now]
          refine ⟨woken2.timers.trans woken1.timers, woken2.inSleep.trans woken1.inSleep,
            fun proc before => woken2.wakeable proc (woken1.wakeable proc before), fun proc before => woken2.runs proc (woken1.runs proc before), ?_⟩
          intro other inside
          rcases List.mem_cons.mp inside with rfl | inRest
          · exact woken2.runs _ (woken1.wakes other (by simp))
          · rw [← woken1.timers]
            exact woken2.wakes other inRest
      · have positive : (s.timers timer).expires.toNat ≠ 0 := fun zero => out (BitVec.eq_of_toNat_eq (by simpa using zero))
        have now : DeltaList.dueNow s.deltas = [] := by
          simp [deltas_eq, whole, deltaOf, positive, DeltaList.dueNow, DeltaList.items]
        refine ⟨s, ?_, ?_, ?_⟩
        · rw [expireFrom, if_neg out, now]
        · simp [deltas_eq, whole, deltaOf, positive, DeltaList.dueLater]
        · rw [now]
          exact ⟨rfl, rfl, fun _ => id, fun _ => id, by simp⟩

theorem run_timer_list_spec (s : TimerState T P) (distinct : s.list.Nodup) (positive : DeltaList.Positive s.deltas)
    (wakeable : ∀ timer ∈ s.list, Wakeable s.procs (s.timers timer).proc) :
    ∃ s', s.runTimerList = .ok (DeltaList.dueNow (DeltaList.lessFirst s.deltas), s') ∧
      s'.deltas = DeltaList.dueLater (DeltaList.lessFirst s.deltas) ∧ s'.inSleep = s.inSleep ∧
      (∀ timer, (s'.timers timer).proc = (s.timers timer).proc) ∧ (∀ proc, Wakeable s.procs proc → Wakeable s'.procs proc) ∧
      ∀ timer ∈ DeltaList.dueNow (DeltaList.lessFirst s.deltas), (s'.procs (s.timers timer).proc).state = .runnable := by
  cases whole : s.list with
  | nil =>
      have empty : s.deltas = [] := by simp [deltas_eq, whole]
      refine ⟨s, ?_, ?_, rfl, fun _ => rfl, fun _ => id, ?_⟩
      · simp [runTimerList, whole, empty, DeltaList.lessFirst, DeltaList.dueNow, DeltaList.items]
      · simp [empty, DeltaList.lessFirst, DeltaList.dueLater]
      · simp [empty, DeltaList.lessFirst, DeltaList.dueNow, DeltaList.items]
  | cons timer rest =>
      rw [whole] at distinct
      obtain ⟨away, _⟩ := List.nodup_cons.mp distinct
      have first : 0 < (s.timers timer).expires.toNat := positive timer _ (by simp [deltas_eq, whole, DeltaList.due, deltaOf])
      have nonzero : (s.timers timer).expires ≠ 0 := by
        intro zero
        simp [zero] at first
      have less : (s.setExpires timer ((s.timers timer).expires - 1)).deltas = DeltaList.lessFirst s.deltas := by
        have one : ((s.timers timer).expires - 1).toNat = (s.timers timer).expires.toNat - 1 := by
          rw [BitVec.toNat_sub_of_le]
          · rfl
          · rw [BitVec.le_def]
            exact first
        rw [deltas_eq, deltas_eq]
        show (s.list).map _ = _
        rw [whole, List.map_cons, List.map_cons, delta_here, deltas_other s timer _ rest away, one]
        rfl
      obtain ⟨s', ran, later, woken⟩ := expire_from_spec (timer :: rest) (s.setExpires timer ((s.timers timer).expires - 1)) whole
        fun other inside => by
          rw [set_expires_proc]
          exact wakeable other (by rw [whole]; exact inside)
      rw [less] at ran later woken
      refine ⟨s', ?_, later, woken.inSleep, fun other => ?_, woken.wakeable, fun other inside => ?_⟩
      · simp only [runTimerList, whole]
        rw [decide_eq_true nonzero, check_true, ok_bind, ran]
      · rw [woken.timers, set_expires_proc]
      · have runs := woken.wakes other inside
        rwa [set_expires_proc] at runs

end TimerState

end Ucore.Proc
