import Ucore.Sync.DiningSema

set_option autoImplicit false

namespace Ucore.Sync

open Ucore.Lib Ucore.Proc

namespace DiningSema

variable {P : Type} [DecidableEq P]

-- In phi_take_forks_sema, from state[i] = HUNGRY to the return of down(&s[i]).
def taking : Job SemaWait → Bool
  | .test _ .take | .waits _ => true
  | _ => false

def signals : Job SemaWait → Option Turn
  | .test .signal turn => some turn
  | _ => none

-- The grant that a philosopher has not used yet is in its own semaphore, unless the
-- up is still to come.
def Pending (seats : Seats P) (t : Table P SemaWait) (j : P) : Prop :=
  t.state j = .eating ∧ taking (t.job j) = true ∧ ∀ i turn, signals (t.job i) = some turn → Table.target seats i turn ≠ j

-- Who is inside down, who has the mutex, and what the semaphores hold.
structure SemaInv [Fintype P] (seats : Seats P) (s : DiningSema P) (holder : Option P) : Prop where
  pool : SemPool.PoolInv s.pool
  table : Table.DiningInv seats s.table
  asleepAt : ∀ i id, s.pool.asleep i = some id →
    id = .mutex ∧ (s.table.job i = .thinking ∨ s.table.job i = .eating) ∨ id = .own i ∧ s.table.job i = .waits .downOwn
  lock : s.pool.grants .mutex = if holder = none then 1 else 0
  holds : ∀ i, inside (s.table.job i) = true ↔ holder = some i
  granted : ∀ j, Pending seats s.table j → s.pool.grants (.own j) = 1
  used : ∀ j, ¬ Pending seats s.table j → s.pool.grants (.own j) = 0
  signaled : ∀ i turn, signals (s.table.job i) = some turn →
    s.table.state (Table.target seats i turn) = .eating ∧ taking (s.table.job (Table.target seats i turn)) = true

theorem after_facts (turn : Turn) (place : TestAt) : inside (Table.after .upMutex turn) = true ∧
    signals (Table.after .upMutex turn) = none ∧ taking (Table.after .upMutex turn) = taking (.test place turn) := by
  cases turn <;> exact ⟨rfl, rfl, rfl⟩

-- A philosopher goes on with nothing that has to do with a grant.
theorem pending_same (seats : Seats P) (t t' : Table P SemaWait) (i : P) (jobs : ∀ other, other ≠ i → t'.job other = t.job other)
    (states : ∀ other, other ≠ i → t'.state other = t.state other) (before : signals (t.job i) = none) (now : signals (t'.job i) = none)
    (own : t'.state i = .eating ∧ taking (t'.job i) = true ↔ t.state i = .eating ∧ taking (t.job i) = true) (j : P) :
    Pending seats t' j ↔ Pending seats t j := by
  have quiet : (∀ k turn, signals (t'.job k) = some turn → Table.target seats k turn ≠ j) ↔
      ∀ k turn, signals (t.job k) = some turn → Table.target seats k turn ≠ j := by
    refine forall_congr' fun k => forall_congr' fun turn => ?_
    by_cases same : k = i
    · subst same
      simp [before, now]
    · rw [jobs k same]
  rw [Pending, Pending, ← and_assoc, ← and_assoc, quiet]
  by_cases same : j = i
  · subst same
    rw [own]
  · rw [jobs j same, states j same]

section Steps

variable [Fintype P] (seats : Seats P) (s : DiningSema P) (holder : Option P) (inv : SemaInv seats s holder) (i : P)

include inv

theorem lock_held (here : inside (s.table.job i) = true) : holder = some i := (inv.holds i).mp here

theorem alone (here : inside (s.table.job i) = true) (other : P) (apart : other ≠ i) : inside (s.table.job other) = false := by
  by_contra there
  have held := (inv.holds other).mp (by simpa using there)
  rw [lock_held seats s holder inv i here] at held
  exact apart (Option.some.inj held).symm

theorem alone_tests (here : inside (s.table.job i) = true) (other : P) (apart : other ≠ i) : Table.testing (s.table.job other) = false := by
  have out := alone seats s holder inv i here other apart
  cases job : s.table.job other with
  | test place turn => simp [job, inside] at out
  | _ => rfl

theorem alone_signals (here : inside (s.table.job i) = true) (other : P) (apart : other ≠ i) : signals (s.table.job other) = none := by
  have out := alone seats s holder inv i here other apart
  cases job : s.table.job other with
  | test place turn => simp [job, inside] at out
  | _ => rfl

-- A statement between down(&mutex) and up(&mutex) that is no call of up or down.
theorem statement_inv (table' : Table P SemaWait) (awake : s.pool.asleep i = none) (here : inside (s.table.job i) = true)
    (there : inside (table'.job i) = true) (jobs : ∀ other, other ≠ i → table'.job other = s.table.job other)
    (table : Table.DiningInv seats table') (pending : ∀ j, Pending seats table' j ↔ Pending seats s.table j)
    (signaled : ∀ turn, signals (table'.job i) = some turn →
      table'.state (Table.target seats i turn) = .eating ∧ taking (table'.job (Table.target seats i turn)) = true) :
    SemaInv seats { s with table := table' } holder where
  pool := inv.pool
  table := table
  asleepAt := by
    intro other id asleep
    have apart : other ≠ i := by
      intro same
      rw [same, awake] at asleep
      exact absurd asleep (by simp)
    rw [jobs other apart]
    exact inv.asleepAt other id asleep
  lock := inv.lock
  holds := by
    intro other
    by_cases same : other = i
    · subst same
      simp [there, lock_held seats s holder inv other here]
    · rw [jobs other same]
      exact inv.holds other
  granted := fun j waits => inv.granted j ((pending j).mp waits)
  used := fun j quiet => inv.used j fun waits => quiet ((pending j).mpr waits)
  signaled := by
    intro other turn up
    by_cases same : other = i
    · subst same
      exact signaled turn up
    · rw [jobs other same, alone_signals seats s holder inv i here other same] at up
      exact absurd up (by simp)

theorem take_inv (awake : s.pool.asleep i = none) (here : s.table.job i = .hunger) :
    SemaInv seats { s with table := s.table.takeForks i } holder := by
  refine statement_inv seats s holder inv i _ awake (by rw [here]; rfl) (by simp [Table.takeForks, Table.goto, inside]) ?_
    (Table.take_forks_inv seats s.table i inv.table here) ?_ ?_
  · intro other apart
    simp [Table.takeForks, Table.goto, Table.setState, apart]
  · refine pending_same seats s.table _ i ?_ ?_ (by simp [here, signals]) (by simp [Table.takeForks, Table.goto, signals]) ?_
    · intro other apart
      simp [Table.takeForks, Table.goto, Table.setState, apart]
    · intro other apart
      simp [Table.takeForks, Table.goto, Table.setState, apart]
    · simp [Table.takeForks, Table.goto, Table.setState, here, taking]
  · intro turn up
    simp [Table.takeForks, Table.goto, signals] at up

theorem put_inv (awake : s.pool.asleep i = none) (here : s.table.job i = .putting) :
    SemaInv seats { s with table := s.table.putForks i } holder := by
  refine statement_inv seats s holder inv i _ awake (by rw [here]; rfl) (by simp [Table.putForks, Table.goto, inside]) ?_
    (Table.put_forks_inv seats s.table i inv.table here) ?_ ?_
  · intro other apart
    simp [Table.putForks, Table.goto, Table.setState, apart]
  · refine pending_same seats s.table _ i ?_ ?_ (by simp [here, signals]) (by simp [Table.putForks, Table.goto, signals]) ?_
    · intro other apart
      simp [Table.putForks, Table.goto, Table.setState, apart]
    · intro other apart
      simp [Table.putForks, Table.goto, Table.setState, apart]
    · simp [Table.putForks, Table.goto, Table.setState, here, taking]
  · intro turn up
    simp [Table.putForks, Table.goto, signals] at up

-- A comparison: the philosopher goes to the next one or leaves phi_test_sema.
theorem compare_inv (awake : s.pool.asleep i = none) (place place' : TestAt) (turn : Turn) (here : s.table.job i = .test place turn)
    (quiet : place ≠ .signal) (quiet' : place' ≠ .signal) (holds : Prop) [Decidable holds]
    (table : Table.DiningInv seats (s.table.goto i (if holds then .test place' turn else Table.after .upMutex turn))) :
    SemaInv seats { s with table := s.table.goto i (if holds then .test place' turn else Table.after .upMutex turn) } holder := by
  obtain ⟨stays, silent, same⟩ := after_facts turn place
  have job : ∀ job : Job SemaWait, (s.table.goto i job).job i = job := fun job => by simp [Table.goto]
  have none' : ∀ other : TestAt, other ≠ .signal → signals (.test other turn) = none := by
    intro other apart
    cases other with
    | signal => exact absurd rfl apart
    | _ => rfl
  have facts : inside (if holds then .test place' turn else Table.after .upMutex turn) = true ∧
      signals (if holds then .test place' turn else Table.after .upMutex turn) = none ∧
      taking (if holds then .test place' turn else Table.after .upMutex turn) = taking (.test place turn) := by
    by_cases met : holds
    · rw [if_pos met]
      exact ⟨rfl, none' place' quiet', by cases turn <;> rfl⟩
    · rw [if_neg met]
      exact ⟨stays, silent, same⟩
  refine statement_inv seats s holder inv i _ awake (by rw [here]; rfl) (by rw [job]; exact facts.1) ?_ table ?_ ?_
  · intro other apart
    simp [Table.goto, apart]
  · refine pending_same seats s.table _ i ?_ (fun _ _ => rfl) (by rw [here]; exact none' place quiet) (by rw [job]; exact facts.2.1) ?_
    · intro other apart
      simp [Table.goto, apart]
    · rw [job, facts.2.2, here]
      rfl
  · intro turn' up
    rw [job, facts.2.1] at up
    exact absurd up (by simp)

-- The grant: it is not pending before the up, and the philosopher it is for is in
-- phi_take_forks_sema.
theorem grant_inv (awake : s.pool.asleep i = none) (turn : Turn) (here : s.table.job i = .test .grant turn) :
    SemaInv seats { s with table := s.table.phiTest seats .upMutex i turn .grant } holder := by
  have within : inside (s.table.job i) = true := by rw [here]; rfl
  have hungry : s.table.state (Table.target seats i turn) = .hungry := by
    have tested := inv.table.tested i
    rw [here] at tested
    exact tested.1
  have takes : taking (s.table.job (Table.target seats i turn)) = true := by
    have own := inv.table.own (Table.target seats i turn)
    rw [hungry] at own
    cases job : s.table.job (Table.target seats i turn) with
    | test place turn' => cases turn' <;> simp_all [Table.Own, taking]
    | waits place => rfl
    | _ => simp [job, Table.Own] at own
  have takes' : taking ((s.table.phiTest seats .upMutex i turn .grant).job (Table.target seats i turn)) = true := by
    by_cases same : Table.target seats i turn = i
    · rw [same, here] at takes
      rw [same]
      cases turn <;> simp_all [Table.phiTest, Table.goto, taking]
    · simpa [Table.phiTest, Table.goto, Table.setState, same] using takes
  refine statement_inv seats s holder inv i _ awake within (by simp [Table.phiTest, Table.goto, inside]) ?_
    (Table.grant_inv seats s.table i inv.table turn here (alone_tests seats s holder inv i within)) ?_ ?_
  · intro other apart
    simp [Table.phiTest, Table.goto, Table.setState, apart]
  · intro j
    by_cases same : j = Table.target seats i turn
    · subst same
      constructor
      · intro pending
        exact absurd rfl (pending.2.2 i turn (by simp [Table.phiTest, Table.goto, signals]))
      · intro pending
        have eats := pending.1
        rw [hungry] at eats
        exact absurd eats (by simp)
    · have state : (s.table.phiTest seats .upMutex i turn .grant).state j = s.table.state j := by
        simp [Table.phiTest, Table.goto, Table.setState, same]
      have job : taking ((s.table.phiTest seats .upMutex i turn .grant).job j) = taking (s.table.job j) := by
        by_cases self : j = i
        · subst self
          rw [here]
          cases turn <;> simp [Table.phiTest, Table.goto, taking]
        · simp [Table.phiTest, Table.goto, Table.setState, self]
      rw [Pending, Pending, state, job]
      refine and_congr_right fun _ => and_congr_right fun _ => ?_
      constructor
      · intro quiet k turn' up
        by_cases self : k = i
        · subst self
          simp [here, signals] at up
        · exact quiet k turn' (by simpa [Table.phiTest, Table.goto, Table.setState, self] using up)
      · intro quiet k turn' up
        by_cases self : k = i
        · subst self
          have turns : turn = turn' := by simpa [Table.phiTest, Table.goto, signals] using up
          exact fun equal => same (by rw [← equal, turns])
        · exact quiet k turn' (by simpa [Table.phiTest, Table.goto, Table.setState, self] using up)
  · intro turn' up
    have turns : turn = turn' := by simpa [Table.phiTest, Table.goto, signals] using up
    subst turns
    exact ⟨by simp [Table.phiTest, Table.goto, Table.setState], takes'⟩

-- A philosopher that is awake afterwards changes its job, and the pool and who has
-- the mutex change with it.
theorem moved_inv (pool' : SemPool P (PhiSem P)) (job : Job SemaWait) (holder' : Option P) (pool : SemPool.PoolInv pool')
    (table : Table.DiningInv seats (s.table.goto i job)) (awake : pool'.asleep i = none)
    (asleep : ∀ other, other ≠ i → pool'.asleep other = s.pool.asleep other)
    (lock : pool'.grants .mutex = if holder' = none then 1 else 0) (here : inside job = true ↔ holder' = some i)
    (holders : ∀ other, other ≠ i → (holder' = some other ↔ holder = some other))
    (granted : ∀ j, Pending seats (s.table.goto i job) j → pool'.grants (.own j) = 1)
    (used : ∀ j, ¬ Pending seats (s.table.goto i job) j → pool'.grants (.own j) = 0) (silent : signals job = none)
    (takes : taking (s.table.job i) = true → taking job = false → ∀ other turn, other ≠ i → signals (s.table.job other) = some turn →
      Table.target seats other turn ≠ i) : SemaInv seats ⟨pool', s.table.goto i job⟩ holder' where
  pool := pool
  table := table
  asleepAt := by
    intro other id sleeping
    have apart : other ≠ i := by
      intro same
      rw [same, awake] at sleeping
      exact absurd sleeping (by simp)
    simpa [Table.goto, apart] using inv.asleepAt other id (asleep other apart ▸ sleeping)
  lock := lock
  holds := by
    intro other
    by_cases same : other = i
    · subst same
      simpa [Table.goto] using here
    · simpa [Table.goto, same, holders other same] using inv.holds other
  granted := granted
  used := used
  signaled := by
    intro other turn up
    have apart : other ≠ i := by
      intro same
      subst same
      rw [show (s.table.goto other job).job other = job from by simp [Table.goto], silent] at up
      exact absurd up (by simp)
    have up' : signals (s.table.job other) = some turn := by simpa [Table.goto, apart] using up
    obtain ⟨eats, was⟩ := inv.signaled other turn up'
    refine ⟨eats, ?_⟩
    by_cases self : Table.target seats other turn = i
    · rw [self] at was ⊢
      by_cases still : taking job = true
      · simpa [Table.goto] using still
      · exact absurd self (takes was (by simpa using still) other turn apart up')
    · simpa [Table.goto, self] using was

omit [Fintype P] inv in
theorem goto_pending (job : Job SemaWait) (before : signals (s.table.job i) = none) (silent : signals job = none)
    (same : taking job = taking (s.table.job i)) (j : P) : Pending seats (s.table.goto i job) j ↔ Pending seats s.table j := by
  refine pending_same seats s.table (s.table.goto i job) i ?_ (fun _ _ => rfl) before ?_ ?_ j
  · intro other apart
    simp [Table.goto, apart]
  · simpa [Table.goto] using silent
  · simp [Table.goto, same]

-- The up at the end of phi_test_sema: the grant is there now.
theorem signal_inv (awake : s.pool.asleep i = none) (turn : Turn) (here : s.table.job i = .test .signal turn) :
    ∃ pool, s.pool.up (.own (Table.target seats i turn)) = .ok pool ∧
      SemaInv seats ⟨pool, s.table.phiTest seats .upMutex i turn .signal⟩ holder := by
  have within : inside (s.table.job i) = true := by rw [here]; rfl
  have up : signals (s.table.job i) = some turn := by rw [here]; rfl
  obtain ⟨stays, silent, same⟩ := after_facts turn .signal
  have none' : s.pool.grants (.own (Table.target seats i turn)) = 0 := inv.used _ fun pending => pending.2.2 i turn up rfl
  obtain ⟨pool, upped, poolInv, asleep, grants⟩ := SemPool.up_spec s.pool inv.pool (.own (Table.target seats i turn)) (by omega)
  obtain ⟨eats, takes⟩ := inv.signaled i turn up
  have taking' : ∀ j, taking ((s.table.goto i (Table.after .upMutex turn)).job j) = taking (s.table.job j) := by
    intro j
    by_cases self : j = i
    · subst self
      simp [Table.goto, same, here]
    · simp [Table.goto, self]
  have quiet : ∀ k turn', signals ((s.table.goto i (Table.after .upMutex turn)).job k) ≠ some turn' := by
    intro k turn' up'
    by_cases self : k = i
    · subst self
      simp [Table.goto, silent] at up'
    · simp [Table.goto, self, alone_signals seats s holder inv i within k self] at up'
  have pending : ∀ j, Pending seats (s.table.goto i (Table.after .upMutex turn)) j ↔ j = Table.target seats i turn ∨ Pending seats s.table j := by
    intro j
    rw [Pending, Pending, taking']
    constructor
    · intro now
      by_cases self : j = Table.target seats i turn
      · exact .inl self
      · refine .inr ⟨now.1, now.2.1, fun k turn' up' equal => ?_⟩
        by_cases own : k = i
        · subst own
          rw [up] at up'
          obtain rfl := Option.some.inj up'
          exact self equal.symm
        · rw [alone_signals seats s holder inv i within k own] at up'
          exact absurd up' (by simp)
    · intro now
      rcases now with self | ⟨eats', takes', _⟩
      · subst self
        exact ⟨eats, takes, fun k turn' up' => absurd up' (quiet k turn')⟩
      · exact ⟨eats', takes', fun k turn' up' => absurd up' (quiet k turn')⟩
  refine ⟨pool, upped, moved_inv seats s holder inv i pool (Table.after .upMutex turn) holder poolInv ?_ (asleep ▸ awake)
    (fun other _ => by rw [asleep]) ?_ ?_ (fun _ _ => Iff.rfl) ?_ ?_ silent ?_⟩
  · exact Table.after_inv seats s.table i inv.table .upMutex .signal turn here fun compares => absurd rfl compares
  · rw [grants, Function.update_of_ne (by simp)]
    exact inv.lock
  · simp [stays, lock_held seats s holder inv i within]
  · intro j now
    by_cases self : j = Table.target seats i turn
    · rw [grants, self, Function.update_self, none', Int.zero_add]
    · rw [grants, Function.update_of_ne (by simp [self])]
      exact inv.granted j (((pending j).mp now).resolve_left self)
  · intro j now
    have apart : j ≠ Table.target seats i turn := fun self => now ((pending j).mpr (.inl self))
    rw [grants, Function.update_of_ne (by simp [apart])]
    exact inv.used j fun before => now ((pending j).mpr (.inr before))
  · intro _ stops
    rw [same, ← here] at stops
    intro other turn' apart up'
    rw [alone_signals seats s holder inv i within other apart] at up'
    exact absurd up' (by simp)

-- up(&mutex).
theorem unlock_inv (awake : s.pool.asleep i = none) (job : Job SemaWait) (here : inside (s.table.job i) = true) (leaves : inside job = false)
    (table : Table.DiningInv seats (s.table.goto i job)) (before : signals (s.table.job i) = none) (silent : signals job = none)
    (same : taking job = taking (s.table.job i)) :
    ∃ pool, s.pool.up .mutex = .ok pool ∧ SemaInv seats ⟨pool, s.table.goto i job⟩ none := by
  have held := lock_held seats s holder inv i here
  have locked : s.pool.grants .mutex = 0 := by rw [inv.lock, held]; rfl
  obtain ⟨pool, upped, poolInv, asleep, grants⟩ := SemPool.up_spec s.pool inv.pool .mutex (by omega)
  have pending := goto_pending seats s i job before silent same
  refine ⟨pool, upped, moved_inv seats s holder inv i pool job none poolInv table (asleep ▸ awake) (fun other _ => by rw [asleep]) ?_ ?_ ?_ ?_ ?_
    silent ?_⟩
  · rw [grants, Function.update_self, locked]
    rfl
  · simp [leaves]
  · intro other apart
    have apart' : i ≠ other := fun equal => apart equal.symm
    simp [held, apart']
  · intro j now
    rw [grants, Function.update_of_ne (by simp)]
    exact inv.granted j ((pending j).mp now)
  · intro j now
    rw [grants, Function.update_of_ne (by simp)]
    exact inv.used j fun before => now ((pending j).mpr before)
  · intro takes stops
    rw [same, takes] at stops
    exact absurd stops (by simp)

-- down(&mutex) has returned, at once or after the philosopher slept.
theorem lock_inv (pool : SemPool P (PhiSem P)) (poolInv : SemPool.PoolInv pool) (awake : pool.asleep i = none)
    (asleep : ∀ other, other ≠ i → pool.asleep other = s.pool.asleep other) (free : 0 < s.pool.grants .mutex)
    (grants : pool.grants = Function.update s.pool.grants .mutex (s.pool.grants .mutex - 1)) (job : Job SemaWait) (enters : inside job = true)
    (table : Table.DiningInv seats (s.table.goto i job)) (before : signals (s.table.job i) = none) (silent : signals job = none)
    (same : taking job = taking (s.table.job i)) : SemaInv seats ⟨pool, s.table.goto i job⟩ (some i) := by
  have nobody : holder = none := by
    by_contra held
    rw [inv.lock, if_neg held] at free
    exact absurd free (by simp)
  have pending := goto_pending seats s i job before silent same
  refine moved_inv seats s holder inv i pool job (some i) poolInv table awake asleep ?_ ?_ ?_ ?_ ?_ silent ?_
  · rw [grants, Function.update_self, inv.lock, if_pos nobody]
    rfl
  · simp [enters]
  · intro other apart
    have apart' : i ≠ other := fun equal => apart equal.symm
    simp [nobody, apart']
  · intro j now
    rw [grants, Function.update_of_ne (by simp)]
    exact inv.granted j ((pending j).mp now)
  · intro j now
    rw [grants, Function.update_of_ne (by simp)]
    exact inv.used j fun before => now ((pending j).mpr before)
  · intro takes stops
    rw [same, takes] at stops
    exact absurd stops (by simp)

-- down(&s[i]) has returned: the grant was pending, so the philosopher eats.
theorem own_inv (pool : SemPool P (PhiSem P)) (poolInv : SemPool.PoolInv pool) (awake : pool.asleep i = none)
    (asleep : ∀ other, other ≠ i → pool.asleep other = s.pool.asleep other) (free : 0 < s.pool.grants (.own i))
    (grants : pool.grants = Function.update s.pool.grants (.own i) (s.pool.grants (.own i) - 1)) (here : s.table.job i = .waits .downOwn) :
    SemaInv seats ⟨pool, s.table.goto i .eating⟩ holder := by
  have pending : Pending seats s.table i := by
    by_contra quiet
    rw [inv.used i quiet] at free
    exact absurd free (by simp)
  have others : ∀ j, j ≠ i → (Pending seats (s.table.goto i .eating) j ↔ Pending seats s.table j) := by
    intro j apart
    have quiet : ∀ k turn, signals ((s.table.goto i .eating).job k) = some turn ↔ signals (s.table.job k) = some turn := by
      intro k turn
      by_cases same : k = i
      · subst same
        simp [Table.goto, signals, here]
      · simp [Table.goto, same]
    simp only [Pending, quiet]
    simp [Table.goto, apart]
  refine moved_inv seats s holder inv i pool .eating holder poolInv ?_ awake asleep ?_ ?_ (fun _ _ => Iff.rfl) ?_ ?_ rfl ?_
  · refine Table.goto_inv seats s.table i inv.table .eating pending.1 trivial fun j _ owes => ?_
    rw [here] at owes
    exact absurd owes id
  · rw [grants, Function.update_of_ne (by simp)]
    exact inv.lock
  · rw [← inv.holds i, here]
    exact Iff.rfl
  · intro j now
    by_cases same : j = i
    · subst same
      have takes := now.2.1
      simp [Table.goto, taking] at takes
    · rw [grants, Function.update_of_ne (by simp [same])]
      exact inv.granted j ((others j same).mp now)
  · intro j now
    by_cases same : j = i
    · subst same
      rw [grants, Function.update_self, inv.granted j pending]
      rfl
    · rw [grants, Function.update_of_ne (by simp [same])]
      exact inv.used j fun before => now ((others j same).mpr before)
  · intro _ _ other turn _ up
    exact pending.2.2 other turn up

-- A down that puts the philosopher to sleep.
theorem slept_inv (pool : SemPool P (PhiSem P)) (poolInv : SemPool.PoolInv pool) (id : PhiSem P)
    (asleep : pool.asleep = Function.update s.pool.asleep i (some id)) (grants : pool.grants = s.pool.grants)
    (place : id = .mutex ∧ (s.table.job i = .thinking ∨ s.table.job i = .eating) ∨ id = .own i ∧ s.table.job i = .waits .downOwn) :
    SemaInv seats { s with pool := pool } holder where
  pool := poolInv
  table := inv.table
  asleepAt := by
    intro other other' sleeping
    rw [asleep] at sleeping
    by_cases same : other = i
    · subst same
      rw [Function.update_self] at sleeping
      obtain rfl := Option.some.inj sleeping
      exact place
    · rw [Function.update_of_ne same] at sleeping
      exact inv.asleepAt other other' sleeping
  lock := by rw [grants]; exact inv.lock
  holds := inv.holds
  granted := fun j now => by rw [grants]; exact inv.granted j now
  used := fun j now => by rw [grants]; exact inv.used j now
  signaled := inv.signaled

-- The two places of down(&mutex).
theorem enters_facts (place : s.table.job i = .thinking ∨ s.table.job i = .eating) : inside (resumed (s.table.job i)) = true ∧
    Table.DiningInv seats (s.table.goto i (resumed (s.table.job i))) ∧ signals (s.table.job i) = none ∧
    signals (resumed (s.table.job i)) = none ∧ taking (resumed (s.table.job i)) = taking (s.table.job i) := by
  have own := inv.table.own i
  rcases place with here | here
  · rw [here] at own ⊢
    refine ⟨rfl, Table.goto_inv seats s.table i inv.table .hunger own trivial fun j _ owes => ?_, rfl, rfl, rfl⟩
    rw [here] at owes
    exact absurd owes id
  · rw [here] at own ⊢
    refine ⟨rfl, Table.goto_inv seats s.table i inv.table .putting own trivial fun j _ owes => ?_, rfl, rfl, rfl⟩
    rw [here] at owes
    exact absurd owes id

theorem down_mutex_inv (awake : s.pool.asleep i = none) (place : s.table.job i = .thinking ∨ s.table.job i = .eating) :
    ∃ holder', SemaInv seats (s.downThen i .mutex (resumed (s.table.job i))) holder' := by
  obtain ⟨enters, table, before, silent, same⟩ := enters_facts seats s holder inv i place
  obtain ⟨poolInv, ⟨asleep, free, grants⟩ | ⟨asleep, grants⟩⟩ := SemPool.down_spec s.pool inv.pool i .mutex awake
  · refine ⟨some i, ?_⟩
    rw [downThen, if_pos (by rw [asleep, awake])]
    exact lock_inv seats s holder inv i _ poolInv (by rw [asleep, awake]) (fun other _ => by rw [asleep]) free grants _ enters table before
      silent same
  · refine ⟨holder, ?_⟩
    rw [downThen, if_neg (by simp [asleep])]
    exact slept_inv seats s holder inv i _ poolInv .mutex asleep grants (.inl ⟨rfl, place⟩)

theorem down_own_inv (awake : s.pool.asleep i = none) (here : s.table.job i = .waits .downOwn) :
    ∃ holder', SemaInv seats (s.downThen i (.own i) .eating) holder' := by
  refine ⟨holder, ?_⟩
  obtain ⟨poolInv, ⟨asleep, free, grants⟩ | ⟨asleep, grants⟩⟩ := SemPool.down_spec s.pool inv.pool i (.own i) awake
  · rw [downThen, if_pos (by rw [asleep, awake])]
    exact own_inv seats s holder inv i _ poolInv (by rw [asleep, awake]) (fun other _ => by rw [asleep]) free grants here
  · rw [downThen, if_neg (by simp [asleep])]
    exact slept_inv seats s holder inv i _ poolInv (.own i) asleep grants (.inr ⟨rfl, here⟩)

theorem resume_inv (id : PhiSem P) (sleeps : s.pool.asleep i = some id) (runs : (s.pool.waits.procs i).state = .runnable) :
    ∃ next holder', s.call seats i = .ok next ∧ SemaInv seats next holder' := by
  obtain ⟨pool, resumed', poolInv, asleep, free, grants⟩ := SemPool.resume_spec s.pool inv.pool i id sleeps runs
  have called : s.call seats i = .ok ⟨pool, s.table.goto i (resumed (s.table.job i))⟩ := by
    rw [call, sleeps]
    simp only [resumed', ok_bind, pure_ok]
  have awake : pool.asleep i = none := by simp [asleep]
  have others : ∀ other, other ≠ i → pool.asleep other = s.pool.asleep other := by
    intro other apart
    simp [asleep, apart]
  rcases inv.asleepAt i id sleeps with ⟨mutex, place⟩ | ⟨own, here⟩
  · subst mutex
    obtain ⟨enters, table, before, silent, same⟩ := enters_facts seats s holder inv i place
    exact ⟨_, some i, called, lock_inv seats s holder inv i pool poolInv awake others free grants _ enters table before silent same⟩
  · subst own
    refine ⟨_, holder, called, ?_⟩
    rw [here]
    exact own_inv seats s holder inv i pool poolInv awake others free grants here

theorem test_inv (awake : s.pool.asleep i = none) (place : TestAt) (turn : Turn) (here : s.table.job i = .test place turn) :
    ∃ next holder', s.call seats i = .ok next ∧ SemaInv seats next holder' := by
  have within : inside (s.table.job i) = true := by rw [here]; rfl
  have table := Table.phi_test_inv seats s.table i inv.table .upMutex place turn here (alone_tests seats s holder inv i within)
  cases place with
  | own =>
      exact ⟨_, holder, by rw [call, awake, here]; rfl,
        compare_inv seats s holder inv i awake .own .left turn here (by simp) (by simp) _ table⟩
  | left =>
      exact ⟨_, holder, by rw [call, awake, here]; rfl,
        compare_inv seats s holder inv i awake .left .right turn here (by simp) (by simp) _ table⟩
  | right =>
      exact ⟨_, holder, by rw [call, awake, here]; rfl,
        compare_inv seats s holder inv i awake .right .grant turn here (by simp) (by simp) _ table⟩
  | grant => exact ⟨_, holder, by rw [call, awake, here], grant_inv seats s holder inv i awake turn here⟩
  | signal =>
      obtain ⟨pool, upped, inv'⟩ := signal_inv seats s holder inv i awake turn here
      refine ⟨_, holder, ?_, inv'⟩
      rw [call, awake, here]
      simp only [upped, ok_bind, pure_ok]

-- Every statement of a philosopher that runs returns and keeps the invariant.
theorem call_inv (runs : (s.pool.waits.procs i).state = .runnable) : ∃ next holder', s.call seats i = .ok next ∧ SemaInv seats next holder' := by
  cases sleeps : s.pool.asleep i with
  | some id => exact resume_inv seats s holder inv i id sleeps runs
  | none =>
      have own := inv.table.own i
      cases here : s.table.job i with
      | thinking =>
          obtain ⟨holder', inv'⟩ := down_mutex_inv seats s holder inv i sleeps (.inl here)
          exact ⟨_, holder', by rw [call, sleeps, here], by simpa only [here, resumed] using inv'⟩
      | hunger => exact ⟨_, holder, by rw [call, sleeps, here], take_inv seats s holder inv i sleeps here⟩
      | test place turn => exact test_inv seats s holder inv i sleeps place turn here
      | waits place =>
          cases place with
          | upMutex =>
              rw [here] at own
              have table : Table.DiningInv seats (s.table.goto i (.waits .downOwn)) :=
                Table.goto_inv seats s.table i inv.table _ own trivial fun j _ owes => by rw [here] at owes; exact absurd owes id
              obtain ⟨pool, upped, inv'⟩ := unlock_inv seats s holder inv i sleeps (.waits .downOwn) (by rw [here]; rfl) rfl table
                (by rw [here]; rfl) rfl (by rw [here]; rfl)
              refine ⟨_, none, ?_, inv'⟩
              rw [call, sleeps, here]
              simp only [upped, ok_bind, pure_ok]
          | downOwn =>
              obtain ⟨holder', inv'⟩ := down_own_inv seats s holder inv i sleeps here
              exact ⟨_, holder', by rw [call, sleeps, here], inv'⟩
      | eating =>
          obtain ⟨holder', inv'⟩ := down_mutex_inv seats s holder inv i sleeps (.inr here)
          exact ⟨_, holder', by rw [call, sleeps, here], by simpa only [here, resumed] using inv'⟩
      | putting => exact ⟨_, holder, by rw [call, sleeps, here], put_inv seats s holder inv i sleeps here⟩
      | leaving =>
          rw [here] at own
          have table : Table.DiningInv seats (s.table.goto i .thinking) :=
            Table.goto_inv seats s.table i inv.table _ own trivial fun j _ owes => by rw [here] at owes; exact absurd owes id
          obtain ⟨pool, upped, inv'⟩ := unlock_inv seats s holder inv i sleeps .thinking (by rw [here]; rfl) rfl table
            (by rw [here]; rfl) rfl (by rw [here]; rfl)
          refine ⟨_, none, ?_, inv'⟩
          rw [call, sleeps, here]
          simp only [upped, ok_bind, pure_ok]

end Steps

variable [Fintype P]

theorem boot_inv (seats : Seats P) (waits : Waits P) : SemaInv seats (boot waits) none where
  pool := by
    intro id
    by_cases mutex : id = .mutex <;> refine ⟨?_, ?_, ?_, ?_, ?_⟩ <;> simp [boot, mutex]
  table := Table.boot_inv seats
  asleepAt := by simp [boot]
  lock := by simp [boot, SemPool.grants, SemPool.woken]
  holds := by simp [boot, inside]
  granted := by
    intro j pending
    exact absurd pending.1 (by simp [boot])
  used := by simp [boot, SemPool.grants, SemPool.woken]
  signaled := by simp [boot, signals]

theorem run_inv (seats : Seats P) (waits : Waits P) (events : List P) (final : DiningSema P)
    (ran : run (step seats) (boot waits) events = some final) : ∃ holder, SemaInv seats final holder := by
  refine run_invariant (step seats) (fun _ _ => True) (fun s => ∃ holder, SemaInv seats s holder) ?_ events _ final
    ⟨none, boot_inv seats waits⟩ (throughout_trivial _ _ (fun _ _ => trivial) events _) ran
  intro s i next held _ taken
  obtain ⟨holder, inv⟩ := held
  by_cases runs : (s.pool.waits.procs i).state = .runnable
  · obtain ⟨after, holder', called, inv'⟩ := call_inv seats s holder inv i runs
    simp only [step, runs, called, if_true, Option.some.injEq] at taken
    exact ⟨holder', taken ▸ inv'⟩
  · simp [step, runs] at taken

theorem sema_safe (seats : Seats P) (waits : Waits P) (events : List P) (final : DiningSema P)
    (ran : run (step seats) (boot waits) events = some final) :
    DiningSafe seats final.table.state final.Returned final.Inside := by
  obtain ⟨holder, inv⟩ := run_inv seats waits events final ran
  refine Table.dining_safe seats final.table inv.table final.Returned _ (fun i back => back.1) ?_
  intro i tests
  obtain ⟨place, turn, here⟩ := tests
  rw [Inside, here]
  rfl

end DiningSema

end Ucore.Sync
