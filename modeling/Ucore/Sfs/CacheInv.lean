import Mathlib.Algebra.Order.BigOperators.Group.List
import Ucore.Lib.Sums
import Ucore.Sfs.InodeCache

set_option autoImplicit false

namespace Ucore.Sfs

open Ucore.Lib Ucore.Vfs

-- The load returned the one inode of its number that was linked.
def Loaded.Sound {N : Type} (load : Loaded N) : Prop :=
  (load.node, load.ino) ∈ load.linked ∧ ∀ other, (other, load.ino) ∈ load.linked → other = load.node

-- The reclaim freed an inode that nobody had, and it was the last one to come.
def Freed.Sound {N : Type} (free : Freed N) : Prop :=
  free.refCount = 0 ∧ free.openCount = 0 ∧ free.revived = false ∧ free.pending = 0

namespace CacheState

variable {P N : Type} [DecidableEq P] [DecidableEq N]

-- vop_close checks that an inode has fewer than MAX_INODE_COUNT references.
def Bounded (s : CacheState P N) : CacheCall P N → Prop
  | .openDec node => s.counts.refCount node < maxInodeCount
  | _ => True

structure CacheInv (procs : List P) (s : CacheState P N) : Prop where
  distinct : s.linked.Nodup
  unique : ∀ node ∈ s.linked, ∀ other ∈ s.linked, s.ino node = s.ino other → node = other
  unlinked : ∀ node, node ∉ s.linked → s.counts.refCount node = 0 ∧ s.counts.openCount node = 0
  opens : ∀ node, 0 ≤ s.counts.openCount node ∧ s.counts.openCount node ≤ s.counts.refCount node
  reclaims : ∀ node ∈ s.linked, s.reclaimCount node = s.pending procs node + if 0 < s.counts.refCount node then 1 else 0
  waits : ∀ proc ∈ procs, ∀ node, s.phase proc = .lockReclaim node → node ∈ s.linked
  loading : ∀ proc ∈ procs, ∀ ino, s.phase proc = .loading ino → s.fsSem = some proc ∧ ∀ node ∈ s.linked, s.ino node ≠ ino
  syncing : ∀ proc ∈ procs, ∀ node, s.phase proc = .syncing node →
    s.fsSem = some proc ∧ node ∈ s.linked ∧ s.counts.refCount node = 0 ∧ s.reclaimCount node = 0
  revives : ∀ node, s.revived node = true → 0 < s.counts.refCount node
  loads : ∀ load ∈ s.loads, load.Sound
  frees : ∀ free ∈ s.frees, free.Sound

section Pending

variable {procs : List P} {s : CacheState P N}

theorem pending_set (nodup : procs.Nodup) (proc : P) (member : proc ∈ procs) (phase : CachePhase N) (node : N) :
    (s.setPhase proc phase).pending procs node =
      s.pending procs node + (if phase = .lockReclaim node then 1 else 0) - if s.phase proc = .lockReclaim node then 1 else 0 := by
  have sums := sum_others procs proc (fun other => if (s.setPhase proc phase).phase other = .lockReclaim node then 1 else 0)
    (fun other => if s.phase other = .lockReclaim node then 1 else 0) nodup member (by intro other apart; simp [setPhase, apart])
  simp only [setPhase, Function.update_self] at sums
  exact sums

theorem pending_waits (proc : P) (member : proc ∈ procs) (node : N) (waits : s.phase proc = .lockReclaim node) : 1 ≤ s.pending procs node := by
  have rest := List.sum_map_erase (fun other => if s.phase other = .lockReclaim node then (1 : Int) else 0) member
  have nonneg : 0 ≤ ((procs.erase proc).map fun other => if s.phase other = .lockReclaim node then (1 : Int) else 0).sum := by
    apply List.sum_nonneg
    intro count inside
    obtain ⟨other, _, same⟩ := List.mem_map.mp inside
    subst same
    split <;> decide
  simp only [if_pos waits] at rest
  unfold pending
  omega

end Pending

section Calls

variable {procs : List P} {s : CacheState P N} {proc : P}

-- The counts of inodes that keep their references change.
omit [DecidableEq P] in
theorem CacheInv.counts (inv : CacheInv procs s) (counts : Counts N)
    (opens : ∀ node, 0 ≤ counts.openCount node ∧ counts.openCount node ≤ counts.refCount node)
    (same : ∀ node, 0 < counts.refCount node ↔ 0 < s.counts.refCount node) : CacheInv procs { s with counts := counts } where
  distinct := inv.distinct
  unique := inv.unique
  unlinked := by
    intro node out
    have before := inv.unlinked node out
    have bounds := opens node
    have keeps := same node
    have zero : ¬ 0 < counts.refCount node := by
      intro positive
      have was := keeps.mp positive
      omega
    show counts.refCount node = 0 ∧ counts.openCount node = 0
    omega
  opens := opens
  reclaims := by
    intro node linked
    have before := inv.reclaims node linked
    simp only [same node]
    exact before
  waits := inv.waits
  loading := inv.loading
  syncing := by
    intro proc member node sleeps
    obtain ⟨holds, linked, ref, count⟩ := inv.syncing proc member node sleeps
    have bounds := opens node
    have zero : ¬ 0 < counts.refCount node := by
      intro positive
      have was := (same node).mp positive
      omega
    have none : counts.refCount node = 0 := by omega
    exact ⟨holds, linked, none, count⟩
  revives := fun node revived => (same node).mpr (inv.revives node revived)
  loads := inv.loads
  frees := inv.frees

-- A process that sleeps nowhere waits for the semaphore in a load.
theorem load_inode_inv (nodup : procs.Nodup) (inv : CacheInv procs s) (member : proc ∈ procs) (free : s.phase proc = .outside) (ino : Nat) :
    CacheInv procs (s.setPhase proc (.lockLoad ino)) where
  distinct := inv.distinct
  unique := inv.unique
  unlinked := inv.unlinked
  opens := inv.opens
  reclaims := by
    intro node linked
    have before := inv.reclaims node linked
    rw [pending_set nodup proc member]
    simp only [free, reduceCtorEq, if_false, add_zero, sub_zero]
    exact before
  waits := by
    intro other inside node waits
    by_cases same : other = proc
    · subst same
      simp [setPhase] at waits
    · exact inv.waits other inside node (by simpa [setPhase, same] using waits)
  loading := by
    intro other inside ino' sleeps
    by_cases same : other = proc
    · subst same
      simp [setPhase] at sleeps
    · exact inv.loading other inside ino' (by simpa [setPhase, same] using sleeps)
  syncing := by
    intro other inside node sleeps
    by_cases same : other = proc
    · subst same
      simp [setPhase] at sleeps
    · exact inv.syncing other inside node (by simpa [setPhase, same] using sleeps)
  revives := inv.revives
  loads := inv.loads
  frees := inv.frees

-- Nobody is asleep with the semaphore while it is free.
omit [DecidableEq P] in
theorem CacheInv.awake (inv : CacheInv procs s) (free : s.fsSem = none) (other : P) (inside : other ∈ procs) :
    (∀ ino, s.phase other ≠ .loading ino) ∧ ∀ node, s.phase other ≠ .syncing node := by
  constructor
  · intro ino sleeps
    have holds := (inv.loading other inside ino sleeps).1
    rw [free] at holds
    exact absurd holds (by simp)
  · intro node sleeps
    have holds := (inv.syncing other inside node sleeps).1
    rw [free] at holds
    exact absurd holds (by simp)

-- Who is asleep with the semaphore is the only one.
omit [DecidableEq P] in
theorem CacheInv.alone (inv : CacheInv procs s) (holds : s.fsSem = some proc) (other : P) (inside : other ∈ procs) (apart : other ≠ proc) :
    (∀ ino, s.phase other ≠ .loading ino) ∧ ∀ node, s.phase other ≠ .syncing node := by
  constructor
  · intro ino sleeps
    have also := (inv.loading other inside ino sleeps).1
    rw [holds] at also
    exact apart (Option.some.inj also).symm
  · intro node sleeps
    have also := (inv.syncing other inside node sleeps).1
    rw [holds] at also
    exact apart (Option.some.inj also).symm

-- Where the other processes are does not change.
omit [DecidableEq N] in
theorem phase_set (phase : CachePhase N) (other : P) (stays : CachePhase N) (apart : phase ≠ stays)
    (there : (s.setPhase proc phase).phase other = stays) : other ≠ proc ∧ s.phase other = stays := by
  by_cases same : other = proc
  · subst same
    simp only [setPhase, Function.update_self] at there
    exact absurd there apart
  · simp only [setPhase, Function.update_of_ne same] at there
    exact ⟨same, there⟩

-- A process that does not wait in a reclaim leaves the file system, with the
-- semaphore free then.
theorem CacheInv.leave (inv : CacheInv procs s) (nodup : procs.Nodup) (member : proc ∈ procs) (sem : s.fsSem = none ∨ s.fsSem = some proc)
    (waitless : ∀ node, s.phase proc ≠ .lockReclaim node) : CacheInv procs { s.setPhase proc .outside with fsSem := none } where
  distinct := inv.distinct
  unique := inv.unique
  unlinked := inv.unlinked
  opens := inv.opens
  reclaims := by
    intro node linked
    have before := inv.reclaims node linked
    have count := pending_set (s := s) nodup proc member .outside node
    simp only [waitless node, reduceCtorEq, if_false, add_zero, sub_zero] at count
    show s.reclaimCount node = (s.setPhase proc .outside).pending procs node + _
    rw [count]
    exact before
  waits := fun other inside node waits => inv.waits other inside node (phase_set .outside other _ (by simp) waits).2
  loading := by
    intro other inside ino sleeps
    obtain ⟨apart, was⟩ := phase_set .outside other _ (by simp) sleeps
    cases sem with
    | inl free => exact absurd was ((inv.awake free other inside).1 ino)
    | inr holds => exact absurd was ((inv.alone holds other inside apart).1 ino)
  syncing := by
    intro other inside node sleeps
    obtain ⟨apart, was⟩ := phase_set .outside other _ (by simp) sleeps
    cases sem with
    | inl free => exact absurd was ((inv.awake free other inside).2 node)
    | inr holds => exact absurd was ((inv.alone holds other inside apart).2 node)
  revives := inv.revives
  loads := inv.loads
  frees := inv.frees

-- A process takes the free semaphore and falls asleep with it.
theorem CacheInv.hold (inv : CacheInv procs s) (nodup : procs.Nodup) (member : proc ∈ procs) (free : s.fsSem = none)
    (waitless : ∀ node, s.phase proc ≠ .lockReclaim node) (phase : CachePhase N) (calm : ∀ node, phase ≠ .lockReclaim node)
    (absent : ∀ ino, phase = .loading ino → ∀ node ∈ s.linked, s.ino node ≠ ino)
    (idle : ∀ node, phase = .syncing node → node ∈ s.linked ∧ s.counts.refCount node = 0 ∧ s.reclaimCount node = 0) :
    CacheInv procs { s.setPhase proc phase with fsSem := some proc } where
  distinct := inv.distinct
  unique := inv.unique
  unlinked := inv.unlinked
  opens := inv.opens
  reclaims := by
    intro node linked
    have before := inv.reclaims node linked
    have count := pending_set (s := s) nodup proc member phase node
    simp only [waitless node, calm node, if_false, add_zero, sub_zero] at count
    show s.reclaimCount node = (s.setPhase proc phase).pending procs node + _
    rw [count]
    exact before
  waits := fun other inside node waits => inv.waits other inside node (phase_set phase other _ (calm node) waits).2
  loading := by
    intro other inside ino sleeps
    by_cases loads : other = proc
    · subst loads
      simp only [setPhase, Function.update_self] at sleeps
      exact ⟨rfl, absent ino sleeps⟩
    · simp only [setPhase, Function.update_of_ne loads] at sleeps
      exact absurd sleeps ((inv.awake free other inside).1 ino)
  syncing := by
    intro other inside node sleeps
    by_cases syncs : other = proc
    · subst syncs
      simp only [setPhase, Function.update_self] at sleeps
      exact ⟨rfl, idle node sleeps⟩
    · simp only [setPhase, Function.update_of_ne syncs] at sleeps
      exact absurd sleeps ((inv.awake free other inside).2 node)
  revives := inv.revives
  loads := inv.loads
  frees := inv.frees

-- The lookup has found a linked inode; where nobody had it, one more reclaim
-- is to come for the new reference.
omit [DecidableEq P] in
theorem CacheInv.revive (inv : CacheInv procs s) (free : s.fsSem = none) (node : N) (linked : node ∈ s.linked) : CacheInv procs (s.revive node) where
  distinct := inv.distinct
  unique := inv.unique
  unlinked := by
    intro other out
    have apart : other ≠ node := fun same => out (same ▸ linked)
    have before := inv.unlinked other out
    show (refInc s.counts node).refCount other = 0 ∧ s.counts.openCount other = 0
    simpa [refInc, apart] using before
  opens := by
    intro other
    have before := inv.opens other
    show 0 ≤ s.counts.openCount other ∧ s.counts.openCount other ≤ (refInc s.counts node).refCount other
    by_cases same : other = node
    · subst same
      simp only [refInc, Function.update_self]
      omega
    · simpa [refInc, same] using before
  reclaims := by
    intro other inside
    have before := inv.reclaims other inside
    have bound := inv.opens other
    show (if (refInc s.counts node).refCount node = 1 then Function.update s.reclaimCount node (s.reclaimCount node + 1) else s.reclaimCount) other =
      s.pending procs other + if 0 < (refInc s.counts node).refCount other then 1 else 0
    by_cases same : other = node
    · subst same
      simp only [refInc, Function.update_self]
      have positive : 0 < s.counts.refCount other + 1 := by omega
      rw [if_pos positive]
      by_cases first : s.counts.refCount other = 0
      · rw [if_pos (by omega), Function.update_self, before, if_neg (by omega)]
        omega
      · rw [if_neg (by omega), before, if_pos (by omega)]
    · have kept : (refInc s.counts node).refCount other = s.counts.refCount other := by simp [refInc, same]
      rw [kept, ← before]
      split
      · simp [same]
      · rfl
  waits := inv.waits
  loading := inv.loading
  syncing := fun other inside node' sleeps => absurd sleeps ((inv.awake free other inside).2 node')
  revives := by
    intro other revived
    show 0 < (refInc s.counts node).refCount other
    by_cases same : other = node
    · have bound := inv.opens node
      subst same
      simp only [refInc, Function.update_self]
      omega
    · change Function.update s.revived node true other = true at revived
      have was : s.revived other = true := by simpa [same] using revived
      simpa [refInc, same] using inv.revives other was
  loads := inv.loads
  frees := inv.frees

-- A new inode gets into the hash list of a number that has none.
omit [DecidableEq P] in
theorem CacheInv.link (inv : CacheInv procs s) (free : s.fsSem = none) (ino : Nat) (node : N) (fresh : node ∉ s.linked)
    (absent : ∀ other ∈ s.linked, s.ino other ≠ ino) :
    CacheInv procs
      { s with
        counts := refInc ⟨Function.update s.counts.refCount node 0, Function.update s.counts.openCount node 0⟩ node
        reclaimCount := Function.update s.reclaimCount node 1
        ino := Function.update s.ino node ino
        linked := node :: s.linked
        revived := Function.update s.revived node false } where
  distinct := List.nodup_cons.mpr ⟨fresh, inv.distinct⟩
  unique := by
    intro first firstIn second secondIn same
    have old : ∀ other ∈ s.linked, Function.update s.ino node ino other = s.ino other := by
      intro other inside
      have apart : other ≠ node := fun equal => fresh (equal ▸ inside)
      simp [apart]
    simp only at same
    rcases List.mem_cons.mp firstIn with rfl | firstOld <;> rcases List.mem_cons.mp secondIn with rfl | secondOld
    · rfl
    · rw [Function.update_self, old second secondOld] at same
      exact absurd same.symm (absent second secondOld)
    · rw [Function.update_self, old first firstOld] at same
      exact absurd same (absent first firstOld)
    · rw [old first firstOld, old second secondOld] at same
      exact inv.unique first firstOld second secondOld same
  unlinked := by
    intro other out
    obtain ⟨apart, was⟩ := not_or.mp (fun inside => out (List.mem_cons.mpr inside))
    simpa [refInc, apart] using inv.unlinked other was
  opens := by
    intro other
    by_cases same : other = node
    · simp [refInc, same]
    · simpa [refInc, same] using inv.opens other
  reclaims := by
    intro other inside
    by_cases same : other = node
    · subst same
      have nobody : s.pending procs other = 0 := by
        unfold pending
        apply List.sum_eq_zero
        intro count member
        obtain ⟨proc, has, equal⟩ := List.mem_map.mp member
        rw [← equal, if_neg fun waits => fresh (inv.waits proc has other waits)]
      show Function.update s.reclaimCount other 1 other = s.pending procs other + _
      simp [nobody, refInc]
    · have old : other ∈ s.linked := (List.mem_cons.mp inside).resolve_left same
      show Function.update s.reclaimCount node 1 other = s.pending procs other + _
      simpa [refInc, same] using inv.reclaims other old
  waits := fun proc member other waits => List.mem_cons_of_mem node (inv.waits proc member other waits)
  loading := fun proc member ino' sleeps => absurd sleeps ((inv.awake free proc member).1 ino')
  syncing := fun proc member other sleeps => absurd sleeps ((inv.awake free proc member).2 other)
  revives := by
    intro other revived
    by_cases same : other = node
    · simp [same] at revived
    · have was : s.revived other = true := by simpa [same] using revived
      simpa [refInc, same] using inv.revives other was
  loads := inv.loads
  frees := inv.frees

-- One more load has returned.
omit [DecidableEq P] in
theorem CacheInv.returned (inv : CacheInv procs s) (node : N) (linked : node ∈ s.linked) :
    CacheInv procs { s with loads := ⟨s.ino node, node, s.linked.map fun other => (other, s.ino other)⟩ :: s.loads } where
  distinct := inv.distinct
  unique := inv.unique
  unlinked := inv.unlinked
  opens := inv.opens
  reclaims := inv.reclaims
  waits := inv.waits
  loading := inv.loading
  syncing := inv.syncing
  revives := inv.revives
  loads := by
    intro load member
    rcases List.mem_cons.mp member with rfl | earlier
    · constructor
      · exact List.mem_map.mpr ⟨node, linked, rfl⟩
      · intro other found
        obtain ⟨there, inside, equal⟩ := List.mem_map.mp found
        obtain ⟨rfl, number⟩ := Prod.mk.inj equal
        exact inv.unique there inside node linked number
    · exact inv.loads load earlier
  frees := inv.frees

-- A reclaim that was to come begins its body.
theorem CacheInv.claim (inv : CacheInv procs s) (nodup : procs.Nodup) (member : proc ∈ procs) (free : s.fsSem = none) (node : N)
    (waits : s.phase proc = .lockReclaim node) :
    CacheInv procs { s.setPhase proc .outside with reclaimCount := Function.update s.reclaimCount node (s.reclaimCount node - 1) } where
  distinct := inv.distinct
  unique := inv.unique
  unlinked := inv.unlinked
  opens := inv.opens
  reclaims := by
    intro other inside
    have before := inv.reclaims other inside
    have count := pending_set (s := s) nodup proc member .outside other
    simp only [waits, reduceCtorEq, if_false, add_zero, CachePhase.lockReclaim.injEq] at count
    show Function.update s.reclaimCount node (s.reclaimCount node - 1) other = (s.setPhase proc .outside).pending procs other +
      if 0 < s.counts.refCount other then 1 else 0
    rw [count]
    by_cases same : other = node
    · subst same
      simp only [Function.update_self, if_true]
      omega
    · simp only [Function.update_of_ne same, Ne.symm same, if_false]
      omega
  waits := fun other inside node' waits' => inv.waits other inside node' (phase_set .outside other _ (by simp) waits').2
  loading := fun other inside ino sleeps => absurd (phase_set .outside other _ (by simp) sleeps).2 ((inv.awake free other inside).1 ino)
  syncing := fun other inside node' sleeps => absurd (phase_set .outside other _ (by simp) sleeps).2 ((inv.awake free other inside).2 node')
  revives := inv.revives
  loads := inv.loads
  frees := inv.frees

-- The last reclaim of an inode that nobody has frees it.
theorem CacheInv.unlink (inv : CacheInv procs s) (free : s.fsSem = none) (node : N) (unused : s.counts.refCount node = 0)
    (last : s.pending procs node = 0) :
    CacheInv procs
      { s with
        linked := s.linked.erase node
        frees := ⟨node, s.counts.refCount node, s.counts.openCount node, s.revived node, s.pending procs node⟩ :: s.frees } where
  distinct := inv.distinct.erase node
  unique := fun first firstIn second secondIn => inv.unique first (List.mem_of_mem_erase firstIn) second (List.mem_of_mem_erase secondIn)
  unlinked := by
    intro other out
    have bound := inv.opens other
    by_cases same : other = node
    · subst same
      show s.counts.refCount other = 0 ∧ s.counts.openCount other = 0
      omega
    · exact inv.unlinked other fun inside => out ((List.mem_erase_of_ne same).mpr inside)
  opens := inv.opens
  reclaims := fun other inside => inv.reclaims other (List.mem_of_mem_erase inside)
  waits := by
    intro other inside node' waits
    have linked := inv.waits other inside node' waits
    have apart : node' ≠ node := by
      intro same
      have count := pending_waits (s := s) other inside node (same ▸ waits)
      omega
    exact (List.mem_erase_of_ne apart).mpr linked
  loading := fun other inside ino sleeps => absurd sleeps ((inv.awake free other inside).1 ino)
  syncing := fun other inside node' sleeps => absurd sleeps ((inv.awake free other inside).2 node')
  revives := inv.revives
  loads := inv.loads
  frees := by
    intro freed member
    rcases List.mem_cons.mp member with rfl | earlier
    · have bound := inv.opens node
      have closed : s.counts.openCount node = 0 := by omega
      have unrevived : s.revived node = false := by
        by_contra revived
        have positive := inv.revives node (by simpa using revived)
        omega
      exact ⟨unused, closed, unrevived, last⟩
    · exact inv.frees freed earlier

-- A reference goes that is not the last one.
omit [DecidableEq P] in
theorem CacheInv.drop (inv : CacheInv procs s) (node : N) (others : 1 < s.counts.refCount node)
    (spare : s.counts.openCount node < s.counts.refCount node) :
    CacheInv procs
      { s with
        counts := { s.counts with refCount := Function.update s.counts.refCount node (s.counts.refCount node - 1) }
        revived := Function.update s.revived node false } := by
  have changed := inv.counts { s.counts with refCount := Function.update s.counts.refCount node (s.counts.refCount node - 1) } ?_ ?_
  · exact
      { changed with
        revives := by
          intro other revived
          by_cases same : other = node
          · simp [same] at revived
          · exact changed.revives other (by simpa [same] using revived) }
  · intro other
    have bound := inv.opens other
    by_cases same : other = node
    · subst same
      simp only [Function.update_self]
      omega
    · simpa [same] using bound
  · intro other
    by_cases same : other = node
    · subst same
      simp only [Function.update_self]
      omega
    · simp [same]

-- The last reference goes, and a reclaim is to come.
theorem CacheInv.drop_last (inv : CacheInv procs s) (nodup : procs.Nodup) (member : proc ∈ procs) (free : s.phase proc = .outside) (node : N)
    (one : s.counts.refCount node = 1) (closed : s.counts.openCount node = 0) :
    CacheInv procs
      ({ s with
          counts := { s.counts with refCount := Function.update s.counts.refCount node (s.counts.refCount node - 1) }
          revived := Function.update s.revived node false }.setPhase proc (.lockReclaim node)) where
  distinct := inv.distinct
  unique := inv.unique
  unlinked := by
    intro other out
    have before := inv.unlinked other out
    have apart : other ≠ node := by
      intro same
      rw [same, one] at before
      exact absurd before.1 (by decide)
    simpa [setPhase, apart] using before
  opens := by
    intro other
    by_cases same : other = node
    · simp [setPhase, same, one, closed]
    · simpa [setPhase, same] using inv.opens other
  reclaims := by
    intro other linked
    have before := inv.reclaims other linked
    have count := pending_set (s := s) nodup proc member (.lockReclaim node) other
    simp only [free, reduceCtorEq, if_false, sub_zero, CachePhase.lockReclaim.injEq] at count
    show s.reclaimCount other = (s.setPhase proc (.lockReclaim node)).pending procs other +
      if 0 < Function.update s.counts.refCount node (s.counts.refCount node - 1) other then 1 else 0
    rw [count, before]
    by_cases same : other = node
    · subst same
      simp [one]
    · simp [same, Ne.symm same]
  waits := by
    intro other inside node' waits
    by_cases same : other = proc
    · subst same
      simp only [setPhase, Function.update_self, CachePhase.lockReclaim.injEq] at waits
      subst waits
      by_contra out
      have before := inv.unlinked node out
      omega
    · exact inv.waits other inside node' (by simpa [setPhase, same] using waits)
  loading := fun other inside ino sleeps => inv.loading other inside ino (phase_set (.lockReclaim node) other _ (by simp) sleeps).2
  syncing := by
    intro other inside node' sleeps
    obtain ⟨holds, linked, unused, count⟩ := inv.syncing other inside node' (phase_set (.lockReclaim node) other _ (by simp) sleeps).2
    have apart : node' ≠ node := by
      intro same
      rw [same, one] at unused
      exact absurd unused (by decide)
    exact ⟨holds, linked, by simpa [setPhase, apart] using unused, count⟩
  revives := by
    intro other revived
    by_cases same : other = node
    · simp [setPhase, same] at revived
    · have was : s.revived other = true := by simpa [setPhase, same] using revived
      simpa [setPhase, same] using inv.revives other was
  loads := inv.loads
  frees := inv.frees

-- Who has a reference takes another, or opens once more.
omit [DecidableEq P] in
theorem CacheInv.ref_inc (inv : CacheInv procs s) (node : N) (has : 0 < s.counts.refCount node) :
    CacheInv procs { s with counts := refInc s.counts node } := by
  apply inv.counts
  · intro other
    have bound := inv.opens other
    by_cases same : other = node
    · subst same
      simp only [refInc, Function.update_self]
      omega
    · simpa [refInc, same] using bound
  · intro other
    by_cases same : other = node
    · subst same
      simp only [refInc, Function.update_self]
      omega
    · simp [refInc, same]

omit [DecidableEq P] in
theorem CacheInv.open_inc (inv : CacheInv procs s) (node : N) (spare : s.counts.openCount node < s.counts.refCount node) :
    CacheInv procs { s with counts := openInc s.counts node } := by
  apply inv.counts
  · intro other
    have bound := inv.opens other
    by_cases same : other = node
    · subst same
      simp only [openInc, Function.update_self]
      omega
    · simpa [openInc, same] using bound
  · intro other
    exact Iff.rfl

omit [DecidableEq P] in
theorem CacheInv.open_dec (inv : CacheInv procs s) (node : N) (opened : 0 < s.counts.openCount node) :
    CacheInv procs { s with counts := { s.counts with openCount := Function.update s.counts.openCount node (s.counts.openCount node - 1) } } := by
  apply inv.counts
  · intro other
    have bound := inv.opens other
    by_cases same : other = node
    · subst same
      simp only [Function.update_self]
      omega
    · simpa [same] using bound
  · intro other
    exact Iff.rfl


end Calls

end CacheState

end Ucore.Sfs
