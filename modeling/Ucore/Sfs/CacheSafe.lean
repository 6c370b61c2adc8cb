import Ucore.Sfs.CacheInv

set_option autoImplicit false

namespace Ucore.Sfs

open Ucore.Lib Ucore.Vfs

namespace CacheState

variable {P N : Type} [DecidableEq P] [DecidableEq N]

section Calls

variable {procs : List P} {s : CacheState P N} {proc : P}

theorem CacheInv.lookup (inv : CacheInv procs s) (nodup : procs.Nodup) (member : proc ∈ procs) (free : s.fsSem = none) :
    ∃ next, s.call procs (.lookup proc) = .ok next ∧ CacheInv procs next := by
  cases phase : s.phase proc with
  | lockLoad ino =>
      refine ⟨s.lookupNolock proc ino, by simp only [call, phase], ?_⟩
      unfold lookupNolock
      cases found : s.linked.find? fun node => s.ino node = ino with
      | some node =>
          have linked := List.mem_of_find?_eq_some found
          have number : s.ino node = ino := by simpa using List.find?_some found
          subst number
          have waitless : ∀ other, (s.revive node).phase proc ≠ .lockReclaim other := by
            intro other
            show s.phase proc ≠ .lockReclaim other
            simp [phase]
          exact ((inv.revive free node linked).leave nodup member (.inl free) waitless).returned node linked
      | none =>
          have absent : ∀ node ∈ s.linked, s.ino node ≠ ino := by
            intro node linked
            simpa using List.find?_eq_none.mp found node linked
          refine inv.hold nodup member free (by simp [phase]) (.loading ino) (by simp) ?_ (by simp)
          intro other same
          obtain rfl := CachePhase.loading.inj same
          exact absent
  | outside => exact ⟨s, by simp only [call, phase], inv⟩
  | loading ino => exact ⟨s, by simp only [call, phase], inv⟩
  | lockReclaim node => exact ⟨s, by simp only [call, phase], inv⟩
  | syncing node => exact ⟨s, by simp only [call, phase], inv⟩

theorem CacheInv.create (inv : CacheInv procs s) (nodup : procs.Nodup) (member : proc ∈ procs) (made : Option N)
    (fresh : ∀ node ∈ made, node ∉ s.linked) : ∃ next, s.call procs (.create proc made) = .ok next ∧ CacheInv procs next := by
  cases phase : s.phase proc with
  | loading ino =>
      obtain ⟨holds, absent⟩ := inv.loading proc member ino phase
      have left := inv.leave nodup member (.inr holds) (by simp [phase])
      cases made with
      | none => exact ⟨_, by simp only [call, phase], left⟩
      | some node =>
          refine ⟨s.createInode proc ino node, by simp only [call, phase], ?_⟩
          have linked := (left.link rfl ino node (fresh node rfl) absent).returned node List.mem_cons_self
          simp only [Function.update_self] at linked
          exact linked
  | outside => exact ⟨s, by simp only [call, phase], inv⟩
  | lockLoad ino => exact ⟨s, by simp only [call, phase], inv⟩
  | lockReclaim node => exact ⟨s, by simp only [call, phase], inv⟩
  | syncing node => exact ⟨s, by simp only [call, phase], inv⟩

-- inode_kill finds no references and no opens.
theorem kill_inode_ok (inv : CacheInv procs s) (node : N) (unused : s.counts.refCount node = 0) :
    s.killInode procs proc node = .ok
      { s.setPhase proc .outside with
        fsSem := none
        linked := s.linked.erase node
        frees := ⟨node, s.counts.refCount node, s.counts.openCount node, s.revived node, s.pending procs node⟩ :: s.frees } := by
  have bound := inv.opens node
  have closed : s.counts.openCount node = 0 := by omega
  unfold killInode
  simp [check, unused, closed]

theorem CacheInv.synced (inv : CacheInv procs s) (nodup : procs.Nodup) (member : proc ∈ procs) (ok : Bool) :
    ∃ next, s.call procs (.synced proc ok) = .ok next ∧ CacheInv procs next := by
  cases phase : s.phase proc with
  | syncing node =>
      obtain ⟨holds, linked, unused, count⟩ := inv.syncing proc member node phase
      have left := inv.leave nodup member (.inr holds) (by simp [phase])
      have reclaims := inv.reclaims node linked
      have last : s.pending procs node = 0 := by
        rw [unused] at reclaims
        simp only [lt_self_iff_false, if_false] at reclaims
        omega
      have same := pending_set (s := s) nodup proc member .outside node
      simp only [phase, reduceCtorEq, if_false, add_zero, sub_zero] at same
      cases ok with
      | false => exact ⟨_, by simp [call, phase], left⟩
      | true =>
          refine ⟨_, by simp only [call, phase, if_true]; exact kill_inode_ok inv node unused, ?_⟩
          have done := left.unlink rfl node unused (same.trans last)
          have equal : pending procs { s.setPhase proc .outside with fsSem := none } node = s.pending procs node := same
          rw [equal] at done
          exact done
  | outside => exact ⟨s, by simp only [call, phase], inv⟩
  | lockLoad ino => exact ⟨s, by simp only [call, phase], inv⟩
  | loading ino => exact ⟨s, by simp only [call, phase], inv⟩
  | lockReclaim node => exact ⟨s, by simp only [call, phase], inv⟩

theorem CacheInv.reclaim (inv : CacheInv procs s) (nodup : procs.Nodup) (member : proc ∈ procs) (free : s.fsSem = none) (dirty : Bool) :
    ∃ next, s.call procs (.reclaim proc dirty) = .ok next ∧ CacheInv procs next := by
  cases phase : s.phase proc with
  | lockReclaim node =>
      have linked := inv.waits proc member node phase
      have reclaims := inv.reclaims node linked
      have waits := pending_waits proc member node phase
      have positive : 0 < s.reclaimCount node := by
        split at reclaims <;> omega
      have claimed := inv.claim nodup member free node phase
      generalize after : ({ s.setPhase proc .outside with reclaimCount := Function.update s.reclaimCount node (s.reclaimCount node - 1) } : CacheState P N) =
        claim at claimed
      have same : claim.linked = s.linked ∧ claim.fsSem = none ∧ claim.phase proc = .outside := by
        subst after
        exact ⟨rfl, free, by simp [setPhase]⟩
      have start : s.call procs (.reclaim proc dirty) =
          if claim.reclaimCount node ≠ 0 ∨ claim.counts.refCount node ≠ 0 then .ok claim
          else if dirty then .ok { claim.setPhase proc (.syncing node) with fsSem := some proc }
          else claim.killInode procs proc node := by
        subst after
        simp only [call, phase, reclaimNode, positive, decide_true, check_true, ok_bind]
        rfl
      rw [start]
      by_cases busy : claim.reclaimCount node ≠ 0 ∨ claim.counts.refCount node ≠ 0
      · exact ⟨claim, if_pos busy, claimed⟩
      · simp only [not_or, ne_eq, not_not] at busy
        obtain ⟨spent, unused⟩ := busy
        simp only [spent, unused, ne_eq, not_true_eq_false, or_self, if_false]
        cases dirty with
        | true =>
            refine ⟨_, rfl, claimed.hold nodup member same.2.1 (by simp [same.2.2]) (.syncing node) (by simp) (by simp) ?_⟩
            intro other equal
            obtain rfl := CachePhase.syncing.inj equal
            exact ⟨same.1 ▸ linked, unused, spent⟩
        | false =>
            refine ⟨_, kill_inode_ok claimed node unused, ?_⟩
            have counted := claimed.reclaims node (same.1 ▸ linked)
            have last : claim.pending procs node = 0 := by
              rw [unused, spent] at counted
              simp only [lt_self_iff_false, if_false] at counted
              omega
            have left := claimed.leave nodup member (.inl same.2.1) (by simp [same.2.2])
            have stays := pending_set (s := claim) nodup proc member .outside node
            simp only [same.2.2, reduceCtorEq, if_false, add_zero, sub_zero] at stays
            have done := left.unlink rfl node unused (stays.trans last)
            have equal : pending procs { claim.setPhase proc .outside with fsSem := none } node = claim.pending procs node := stays
            rw [equal] at done
            exact done
  | outside => exact ⟨s, by simp only [call, phase], inv⟩
  | lockLoad ino => exact ⟨s, by simp only [call, phase], inv⟩
  | loading ino => exact ⟨s, by simp only [call, phase], inv⟩
  | syncing node => exact ⟨s, by simp only [call, phase], inv⟩

theorem CacheInv.ref_dec (inv : CacheInv procs s) (nodup : procs.Nodup) (member : proc ∈ procs) (free : s.phase proc = .outside) (node : N)
    (spare : s.counts.openCount node < s.counts.refCount node) :
    ∃ next, s.call procs (.refDec proc node) = .ok next ∧ CacheInv procs next := by
  have bound := inv.opens node
  have positive : 0 < s.counts.refCount node := by omega
  have start : s.call procs (.refDec proc node) = s.refDecNode proc node := rfl
  rw [start, refDecNode]
  simp only [positive, decide_true, check_true, ok_bind, Function.update_self]
  by_cases last : s.counts.refCount node - 1 = 0
  · have one : s.counts.refCount node = 1 := by omega
    have closed : s.counts.openCount node = 0 := by omega
    refine ⟨_, ?_, inv.drop_last nodup member free node one closed⟩
    simp [last, inodeCheck, closed, maxInodeCount]
  · refine ⟨_, ?_, inv.drop node (by omega) spare⟩
    simp [last]

theorem open_dec_counts {counts after : Counts N} {node : N} (dec : openDec counts node = .ok after) :
    after = { counts with openCount := Function.update counts.openCount node (counts.openCount node - 1) } := by
  unfold openDec at dec
  obtain ⟨_, _, dec⟩ := bind_ok dec
  simp only [Function.update_self] at dec
  by_cases last : counts.openCount node - 1 = 0
  · rw [if_pos last] at dec
    obtain ⟨_, _, done⟩ := bind_ok dec
    exact (Except.ok.inj done).symm
  · rw [if_neg last] at dec
    exact (Except.ok.inj dec).symm

-- vop_close has the bound of inode_check, the other calls have none.
theorem open_dec_ok (inv : CacheInv procs s) (node : N) (opened : 0 < s.counts.openCount node) (bound : s.counts.refCount node < maxInodeCount) :
    s.call procs (.openDec node) =
      .ok { s with counts := { s.counts with openCount := Function.update s.counts.openCount node (s.counts.openCount node - 1) } } := by
  have opens := inv.opens node
  simp only [call, openDec, opened, decide_true, check_true, ok_bind, Function.update_self]
  by_cases last : s.counts.openCount node - 1 = 0
  · have refs : 0 ≤ s.counts.refCount node := by omega
    have below : s.counts.refCount node < 65536 := bound
    simp [last, inodeCheck, refs, below, maxInodeCount]
  · simp [last]

theorem CacheInv.call (inv : CacheInv procs s) (nodup : procs.Nodup) (event : CacheCall P N) (enabled : s.Enabled procs event)
    (bounded : s.Bounded event) : ∃ next, s.call procs event = .ok next ∧ CacheInv procs next := by
  cases event with
  | loadInode proc ino => exact ⟨_, rfl, load_inode_inv nodup inv enabled.1 enabled.2 ino⟩
  | lookup proc => exact inv.lookup nodup enabled.1 enabled.2
  | create proc made => exact inv.create nodup enabled.1 made enabled.2
  | refInc node => exact ⟨_, rfl, inv.ref_inc node enabled⟩
  | refDec proc node => exact inv.ref_dec nodup enabled.1 enabled.2.1 node enabled.2.2
  | openInc node => exact ⟨_, rfl, inv.open_inc node enabled⟩
  | openDec node => exact ⟨_, open_dec_ok inv node enabled bounded, inv.open_dec node enabled⟩
  | reclaim proc dirty => exact inv.reclaim nodup enabled.1 enabled.2 dirty
  | synced proc ok => exact inv.synced nodup enabled ok

theorem step_cache_inv (nodup : procs.Nodup) (inv : CacheInv procs s) (event : CacheCall P N) (enabled : s.Enabled procs event)
    (next : CacheState P N) (taken : s.step procs event = some next) : CacheInv procs next := by
  unfold step at taken
  cases returns : s.call procs event with
  | error fault => simp [returns] at taken
  | ok after =>
      simp only [returns, Option.some.injEq] at taken
      subst taken
      by_cases bounded : s.Bounded event
      · obtain ⟨other, same, kept⟩ := inv.call nodup event enabled bounded
        obtain rfl := Except.ok.inj (returns.symm.trans same)
        exact kept
      · cases event with
        | openDec node =>
            have kept := inv.open_dec node enabled
            obtain ⟨counts, dec, done⟩ := bind_ok returns
            obtain rfl := Except.ok.inj done
            obtain rfl := open_dec_counts dec
            exact kept
        | loadInode | lookup | create | refInc | refDec | openInc | reclaim | synced => exact absurd trivial bounded

end Calls

-- No number has two linked inodes, an inode in use is linked, each load returned
-- the linked one, each reclaim freed an unused one, and no assertion fails.
structure CacheSound (procs : List P) (s : CacheState P N) : Prop where
  distinct : s.linked.Nodup
  unique : ∀ node ∈ s.linked, ∀ other ∈ s.linked, s.ino node = s.ino other → node = other
  kept : ∀ node, 0 < s.counts.refCount node ∨ 0 < s.counts.openCount node → node ∈ s.linked
  loads : ∀ load ∈ s.loads, load.Sound
  frees : ∀ free ∈ s.frees, free.Sound
  returns : ∀ event, s.Enabled procs event → s.Bounded event → ∃ next, s.call procs event = .ok next

theorem CacheInv.sound {procs : List P} {s : CacheState P N} (nodup : procs.Nodup) (inv : CacheInv procs s) : CacheSound procs s where
  distinct := inv.distinct
  unique := inv.unique
  kept := by
    intro node used
    by_contra out
    have none := inv.unlinked node out
    omega
  loads := inv.loads
  frees := inv.frees
  returns := by
    intro event enabled bounded
    obtain ⟨next, done, _⟩ := inv.call nodup event enabled bounded
    exact ⟨next, done⟩

omit [DecidableEq P] in
theorem boot_cache_inv (procs : List P) : CacheInv procs (boot : CacheState P N) where
  distinct := List.nodup_nil
  unique := by simp [boot]
  unlinked := by simp [boot]
  opens := by simp [boot]
  reclaims := by simp [boot]
  waits := by simp [boot]
  loading := by simp [boot]
  syncing := by simp [boot]
  revives := by simp [boot]
  loads := by simp [boot]
  frees := by simp [boot]

theorem inode_cache_sound (procs : List P) (nodup : procs.Nodup) (events : List (CacheCall P N))
    (enabled : Throughout (step procs) (Enabled procs) boot events) : Always (step procs) (CacheSound procs) boot events :=
  always_invariant (step procs) (Enabled procs) (CacheInv procs) (CacheSound procs)
    (fun _ event next inv enabled taken => step_cache_inv nodup inv event enabled next taken) (fun _ inv => inv.sound nodup) events boot
    (boot_cache_inv procs) enabled

-- Two processes load block 5. The second reference goes between the first drop to
-- zero and its reclaim, so that two reclaims wait: the first one finds a count left,
-- the second one writes the inode back and frees it.
def revivedRun : List (CacheCall Bool Nat) :=
  [.loadInode false 5, .lookup false, .create false (some 100), .refDec false 100, .loadInode true 5, .lookup true, .refInc 100,
    .refDec true 100, .refDec true 100, .reclaim true true, .reclaim false true, .synced false true]

theorem inode_cache_sound_revived :
    Always (step [false, true]) (CacheSound [false, true]) boot revivedRun ∧
      (run (step [false, true]) boot revivedRun).map (fun s => (s.linked, s.frees.length, s.loads.length)) = some ([], 1, 2) :=
  ⟨inode_cache_sound [false, true] (by decide) revivedRun (by decide +kernel), by decide +kernel⟩

end CacheState

end Ucore.Sfs
