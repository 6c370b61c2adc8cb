import Ucore.Lib.Sums
import Ucore.Vfs.SharedTable
import Ucore.Vfs.Table

set_option autoImplicit false

namespace Ucore.Vfs

open Ucore.Lib

-- What an entry has for the calls that are opening it, in flight on it and
-- freeing it.
def Slot {N : Type} (file : File N) (opening flying freeing : Int) : Prop :=
  match file.status with
  | .none => file.openCount = 0 ∧ opening = 0 ∧ flying = 0 ∧ freeing = 0
  | .init => file.openCount = 0 ∧ opening = 1 ∧ flying = 0 ∧ freeing = 0
  | .opened => file.openCount = flying + 1 ∧ opening = 0 ∧ freeing = 0 ∧ file.node ≠ none
  | .closed => file.openCount = flying ∧ opening = 0 ∧ freeing = (if flying = 0 then 1 else 0) ∧ file.node ≠ none

-- The entry still has the vfs_close of its inode to come.
def Live {N : Type} (file : File N) : Prop := file.status = .opened ∨ file.status = .closed ∧ 0 < file.openCount

instance {N : Type} (file : File N) : Decidable (Live file) := inferInstanceAs (Decidable (_ ∨ _ ∧ _))

namespace SharedTable

variable {P N : Type} [DecidableEq P] [DecidableEq N]

structure TableInv (procs : List P) (s : SharedTable P N) : Prop where
  count : 0 < s.files.filesCount
  slots : ∀ index, Slot (s.entry index) (s.tally procs .opening index) (s.tally procs .flying index) (s.tally procs .freeing index)
  nodes : ∀ proc ∈ procs, ∀ index op node, s.phase proc = .busy index (.inOp op node) → (s.entry index).node = some node
  closes : ∀ index node, s.opens index node = s.closes index node + if Live (s.entry index) ∧ (s.entry index).node = some node then 1 else 0
  handed : ∀ inFlight ∈ s.handed, inFlight = 0

section Tallies

variable {procs : List P} {s : SharedTable P N} {proc : P}

omit [DecidableEq N] in
theorem tally_idle (sort : WorkSort) (index : Nat) : (TablePhase.idle : TablePhase N).tally sort index = 0 := rfl

omit [DecidableEq N] in
theorem tally_busy (work : Work N) (sort : WorkSort) (index : Nat) :
    (TablePhase.busy index work).tally sort index = if work.sort = sort then 1 else 0 := by
  simp [TablePhase.tally]

omit [DecidableEq N] in
theorem phase_tally_nonneg (phase : TablePhase N) (sort : WorkSort) (index : Nat) : 0 ≤ phase.tally sort index := by
  unfold TablePhase.tally
  cases phase with
  | idle => exact le_refl 0
  | busy there work =>
      simp only
      split <;> decide

omit [DecidableEq N] in
theorem tally_put (nodup : procs.Nodup) (member : proc ∈ procs) (index : Nat) (file : File N) (phase : TablePhase N) (sort : WorkSort)
    (there : Nat) : (s.put proc index file phase).tally procs sort there =
      s.tally procs sort there + phase.tally sort there - (s.phase proc).tally sort there := by
  have sums := sum_others procs proc (fun other => ((s.put proc index file phase).phase other).tally sort there)
    (fun other => (s.phase other).tally sort there) nodup member (by intro other apart; simp [put, apart])
  simp only [put, Function.update_self] at sums
  exact sums

omit [DecidableEq P] [DecidableEq N] in
theorem tally_le (member : proc ∈ procs) (sort : WorkSort) (index : Nat) :
    (s.phase proc).tally sort index ≤ s.tally procs sort index :=
  sum_map_le procs (fun other => (s.phase other).tally sort index) (fun _ => phase_tally_nonneg _ _ _) proc member

omit [DecidableEq P] [DecidableEq N] in
theorem tally_nonneg (procs : List P) (s : SharedTable P N) (sort : WorkSort) (index : Nat) : 0 ≤ s.tally procs sort index :=
  sum_map_nonneg procs (fun other => (s.phase other).tally sort index) fun _ => phase_tally_nonneg _ _ _

omit [DecidableEq N] in
theorem entry_put (index : Nat) (file : File N) (phase : TablePhase N) (inside : index < s.files.fdArray.length) (there : Nat) :
    (s.put proc index file phase).entry there = if there = index then file else s.entry there := by
  by_cases same : there = index
  · subst same
    simp [entry, put, setFile, inside]
  · simp [entry, put, setFile, same, Ne.symm same]

-- A process that works on an entry works on one of the table.
omit [DecidableEq P] in
theorem busy_inside (inv : TableInv procs s) (member : proc ∈ procs) (index : Nat) (work : Work N) (phase : s.phase proc = .busy index work) :
    index < s.files.fdArray.length ∧ (s.entry index).status ≠ .none := by
  have slot := inv.slots index
  have one := tally_le (s := s) member work.sort index
  simp only [phase, TablePhase.tally, and_self, if_true] at one
  have used : (s.entry index).status ≠ .none := by
    intro free
    simp only [Slot, free] at slot
    cases sort : work.sort <;> rw [sort] at one <;> omega
  refine ⟨?_, used⟩
  by_contra outside
  apply used
  simp [entry, List.getElem?_eq_none (Nat.not_lt.mp outside), fileNone]

end Tallies

section Updates

variable {procs : List P} {s : SharedTable P N} {proc : P}

def TablePhase.On (phase : TablePhase N) (index : Nat) : Prop := phase = .idle ∨ ∃ work, phase = .busy index work

omit [DecidableEq N] in
theorem on_tally (phase : TablePhase N) (index there : Nat) (sort : WorkSort) (on : TablePhase.On phase index) (apart : there ≠ index) :
    phase.tally sort there = 0 := by
  obtain rfl | ⟨work, rfl⟩ := on
  · rfl
  · simp [TablePhase.tally, Ne.symm apart]

-- One entry changes together with the phase of the process that works on it.
theorem TableInv.update (inv : TableInv procs s) (nodup : procs.Nodup) (member : proc ∈ procs) (index : Nat) (file : File N)
    (phase : TablePhase N) (opens closes : Nat → N → Int) (handed : List Int) (inside : index < s.files.fdArray.length)
    (was : TablePhase.On (s.phase proc) index) (on : TablePhase.On phase index)
    (slot : Slot file (s.tally procs .opening index + phase.tally .opening index - (s.phase proc).tally .opening index)
      (s.tally procs .flying index + phase.tally .flying index - (s.phase proc).tally .flying index)
      (s.tally procs .freeing index + phase.tally .freeing index - (s.phase proc).tally .freeing index))
    (keeps : file.node = (s.entry index).node ∨ s.tally procs .flying index = 0)
    (flies : ∀ op node, phase = .busy index (.inOp op node) → file.node = some node)
    (others : ∀ there node, there ≠ index → opens there node = s.opens there node ∧ closes there node = s.closes there node)
    (here : ∀ node, opens index node = closes index node + if Live file ∧ file.node = some node then 1 else 0)
    (given : ∀ inFlight ∈ handed, inFlight = 0) :
    TableInv procs { s.put proc index file phase with opens := opens, closes := closes, handed := handed } where
  count := inv.count
  slots := by
    intro there
    show Slot ((s.put proc index file phase).entry there) ((s.put proc index file phase).tally procs .opening there)
      ((s.put proc index file phase).tally procs .flying there) ((s.put proc index file phase).tally procs .freeing there)
    rw [entry_put index file phase inside, tally_put nodup member, tally_put nodup member, tally_put nodup member]
    by_cases same : there = index
    · subst same
      rw [if_pos rfl]
      exact slot
    · rw [if_neg same]
      simp only [on_tally phase index there _ on same, on_tally (s.phase proc) index there _ was same, add_zero, sub_zero]
      exact inv.slots there
  nodes := by
    intro other listed there op node busy
    show ((s.put proc index file phase).entry there).node = some node
    rw [entry_put index file phase inside]
    by_cases mine : other = proc
    · subst mine
      have now : phase = .busy there (.inOp op node) := by simpa [put] using busy
      have same : there = index := by
        obtain idle | ⟨work, busy⟩ := on
        · exact absurd (idle.symm.trans now) (by simp)
        · have pair := TablePhase.busy.inj (busy.symm.trans now)
          exact pair.1.symm
      subst same
      rw [if_pos rfl]
      exact flies op node now
    · have before : s.phase other = .busy there (.inOp op node) := by simpa [put, mine] using busy
      have named := inv.nodes other listed there op node before
      by_cases same : there = index
      · subst same
        rw [if_pos rfl]
        cases keeps with
        | inl kept => exact kept.trans named
        | inr none =>
            have one := tally_le (s := s) listed .flying there
            simp only [before, TablePhase.tally, Work.sort, and_self, if_true] at one
            omega
      · rw [if_neg same]
        exact named
  closes := by
    intro there node
    show opens there node = closes there node + if Live ((s.put proc index file phase).entry there) ∧
      ((s.put proc index file phase).entry there).node = some node then 1 else 0
    rw [entry_put index file phase inside]
    by_cases same : there = index
    · subst same
      rw [if_pos rfl]
      exact here node
    · rw [if_neg same, (others there node same).1, (others there node same).2]
      exact inv.closes there node
  handed := given

end Updates

end SharedTable

end Ucore.Vfs
