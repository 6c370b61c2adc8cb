import Ucore.Sync.Dining
import Ucore.Sync.SemPool

set_option autoImplicit false

namespace Ucore.Sync

open Ucore.Lib Ucore.Proc

-- The two ends of phi_take_forks_sema: up(&mutex) and down(&s[i]).
inductive SemaWait where
  | upMutex
  | downOwn
deriving DecidableEq, Repr

inductive PhiSem (P : Type) where
  | mutex
  | own (i : P)
deriving DecidableEq, Repr

structure DiningSema (P : Type) where
  pool : SemPool P (PhiSem P)
  table : Table P SemaWait

namespace DiningSema

variable {P : Type} [DecidableEq P]

-- down, and where the philosopher goes on when it has returned.
def downThen (s : DiningSema P) (i : P) (id : PhiSem P) (job : Job SemaWait) : DiningSema P :=
  let pool := s.pool.down i id
  if pool.asleep i = none then ⟨pool, s.table.goto i job⟩ else { s with pool := pool }

-- The rest of a down that slept: down(&mutex) of phi_take_forks_sema or of
-- phi_put_forks_sema, or down(&s[i]).
def resumed : Job SemaWait → Job SemaWait
  | .thinking => .hunger
  | .eating => .putting
  | .waits .downOwn => .eating
  | job => job

-- One statement of philosopher_using_semaphore. do_sleep only delays it.
def call (seats : Seats P) (s : DiningSema P) (i : P) : Except Fault (DiningSema P) :=
  match s.pool.asleep i with
  | some id => do
      let pool ← s.pool.resume i id
      return ⟨pool, s.table.goto i (resumed (s.table.job i))⟩
  | none =>
      match s.table.job i with
      | .thinking => .ok (s.downThen i .mutex .hunger)
      | .hunger => .ok { s with table := s.table.takeForks i }
      | .test .signal turn => do
          let pool ← s.pool.up (.own (Table.target seats i turn))
          return ⟨pool, s.table.phiTest seats .upMutex i turn .signal⟩
      | .test place turn => .ok { s with table := s.table.phiTest seats .upMutex i turn place }
      | .waits .upMutex => do
          let pool ← s.pool.up .mutex
          return ⟨pool, s.table.goto i (.waits .downOwn)⟩
      | .waits .downOwn => .ok (s.downThen i (.own i) .eating)
      | .eating => .ok (s.downThen i .mutex .putting)
      | .putting => .ok { s with table := s.table.putForks i }
      | .leaving => do
          let pool ← s.pool.up .mutex
          return ⟨pool, s.table.goto i .thinking⟩

-- Any philosopher that runs may go on. none also stands for a failed assertion.
def step (seats : Seats P) (s : DiningSema P) (i : P) : Option (DiningSema P) :=
  if (s.pool.waits.procs i).state = .runnable then
    match s.call seats i with
    | .ok next => some next
    | .error _ => none
  else none

-- The start of check_sync.
def boot (waits : Waits P) : DiningSema P :=
  ⟨⟨fun id => ⟨if id = .mutex then 1 else 0, []⟩, waits, fun _ => none⟩, ⟨fun _ => .thinking, fun _ => .thinking⟩⟩

-- Between down(&mutex) and up(&mutex).
def inside : Job SemaWait → Bool
  | .hunger | .test _ _ | .waits .upMutex | .putting | .leaving => true
  | .thinking | .waits .downOwn | .eating => false

def Inside (s : DiningSema P) (i : P) : Prop := inside (s.table.job i) = true

-- Back from phi_take_forks_sema, and phi_put_forks_sema not called yet.
def Returned (s : DiningSema P) (i : P) : Prop := s.table.job i = .eating ∧ s.pool.asleep i = none

end DiningSema

end Ucore.Sync
