import Ucore.Proc.Adopt
import Ucore.Proc.Pids

set_option autoImplicit false

namespace Ucore.Proc

open Ucore.Lib

variable {P : Type} [DecidableEq P]

def Family.InUse (f : Family P) (idle proc : P) : Prop := proc = idle ∨ proc ∈ f.procList

-- The process tree and the tables of processes agree: the siblings on the chain
-- of a process are the listed ones with it as parent, the hash lists hold what
-- the process list holds, and pids tell processes apart.
structure Tree (idle : P) (f : Family P) (kids : P → List P) : Prop where
  idleOut : idle ∉ f.procList
  distinct : f.procList.Nodup
  hashed : f.hashed.Perm f.procList
  counted : f.nrProcess = f.procList.length + 1
  pids : ∀ proc ∈ f.procList, 1 ≤ (f.procs proc).pid ∧ (f.procs proc).pid < maxPid
  pidsApart : ∀ proc ∈ f.procList, ∀ other ∈ f.procList, (f.procs proc).pid = (f.procs other).pid → proc = other
  window : ∀ proc ∈ f.procList, (f.procs proc).pid ≤ f.lastPid ∨ f.nextSafe ≤ (f.procs proc).pid
  last : 1 ≤ f.lastPid
  safe : f.nextSafe ≤ maxPid
  chains : Chains (f.InUse idle) f.procs kids none
  kidsAre : ∀ parent, f.InUse idle parent → ∀ proc, proc ∈ kids parent ↔ proc ∈ f.procList ∧ (f.procs proc).parent = some parent
  parented : ∀ proc ∈ f.procList, ∃ parent, (f.procs proc).parent = some parent ∧ f.InUse idle parent

section Operations

variable {idle : P} {f : Family P} {kids : P → List P}

def SameTree (entry entry' : ProcStruct P) : Prop :=
  entry'.pid = entry.pid ∧ entry'.parent = entry.parent ∧ entry'.cptr = entry.cptr ∧ entry'.yptr = entry.yptr ∧ entry'.optr = entry.optr

omit [DecidableEq P] in
theorem Tree.congr (tree : Tree idle f kids) (procs : Procs P)
    (same : ∀ proc, f.InUse idle proc → SameTree (f.procs proc) (procs proc)) : Tree idle { f with procs := procs } kids where
  idleOut := tree.idleOut
  distinct := tree.distinct
  hashed := tree.hashed
  counted := tree.counted
  pids := by
    intro proc listed
    rw [(same proc (.inr listed)).1]
    exact tree.pids proc listed
  pidsApart := by
    intro proc listed other otherListed equal
    rw [(same proc (.inr listed)).1, (same other (.inr otherListed)).1] at equal
    exact tree.pidsApart proc listed other otherListed equal
  window := by
    intro proc listed
    rw [(same proc (.inr listed)).1]
    exact tree.window proc listed
  last := tree.last
  safe := tree.safe
  chains := by
    apply tree.chains.congrUsed procs
    · exact fun parent inUse => (same parent inUse).2.2.1
    · exact fun parent inUse proc member => (same proc (.inr ((tree.kidsAre parent inUse proc).mp member).1)).2.2.2
  kidsAre := by
    intro parent inUse proc
    rw [tree.kidsAre parent inUse proc]
    constructor
    · exact fun ⟨listed, ofParent⟩ => ⟨listed, (same proc (.inr listed)).2.1.trans ofParent⟩
    · exact fun ⟨listed, ofParent⟩ => ⟨listed, (same proc (.inr listed)).2.1.symm.trans ofParent⟩
  parented := by
    intro proc listed
    rw [(same proc (.inr listed)).2.1]
    exact tree.parented proc listed

-- find_proc returns the one listed process of that pid, or none.
omit [DecidableEq P] in
theorem Tree.find_proc_spec (tree : Tree idle f kids) (pid : Int) (proc : P) :
    f.findProc pid = some proc ↔ proc ∈ f.procList ∧ (f.procs proc).pid = pid := by
  constructor
  · intro found
    unfold Family.findProc at found
    split at found
    · have member := List.mem_of_find?_eq_some found
      have matched := List.find?_some found
      exact ⟨tree.hashed.mem_iff.mp member, by simpa using matched⟩
    · exact absurd found (by simp)
  · intro ⟨listed, carries⟩
    obtain ⟨low, high⟩ := tree.pids proc listed
    have bounds : 0 < pid ∧ pid < maxPid := by omega
    unfold Family.findProc
    rw [if_pos bounds]
    cases found : f.hashed.find? fun other => decide ((f.procs other).pid = pid) with
    | none =>
        have missed := List.find?_eq_none.mp found proc (tree.hashed.mem_iff.mpr listed)
        exact absurd carries (by simpa using missed)
    | some other =>
        have otherListed := tree.hashed.mem_iff.mp (List.mem_of_find?_eq_some found)
        have matched : (f.procs other).pid = pid := by simpa using List.find?_some found
        rw [tree.pidsApart other otherListed proc listed (matched.trans carries.symm)]

end Operations

section Forking

variable {idle : P} {f : Family P} {kids : P → List P}

-- The processes when do_fork has given the new one its pid.
def born (procs : Procs P) (current proc : P) (pid : Int) : Procs P :=
  (procs.set proc { allocProc with parent := some current, pid := pid }).set current { procs current with waitState := 0 }

theorem born_eq (procs : Procs P) (current proc : P) (pid : Int) (apart : current ≠ proc) :
    (let procs := procs.set proc { allocProc with parent := some current }
      let procs := procs.set current { procs current with waitState := 0 }
      procs.set proc { procs proc with pid := pid }) = born procs current proc pid := by
  funext other
  by_cases isProc : other = proc
  · subst isProc
    simp [born, Procs.set_other _ _ _ _ apart.symm]
  · by_cases isCurrent : other = current
    · subst isCurrent
      simp [born, Procs.set_other _ _ _ _ isProc]
    · simp [born, isProc, isCurrent]

def forkedFamily (f : Family P) (current proc : P) (pid safe : Int) : Family P :=
  let linked := linkChild (born f.procs current proc pid) current proc
  ⟨linked.set proc (awake (linked proc)), proc :: f.procList, proc :: f.hashed, f.nrProcess + 1, pid, safe⟩

theorem fork_eq (current proc : P) (pid safe : Int) (apart : current ≠ proc) (fresh : proc ∉ f.procList)
    (outside : (f.procs current).cptr ≠ some proc) (room : f.nrProcess < maxProcess)
    (found : getPid (f.procList.map fun other => (f.procs other).pid) f.lastPid f.nextSafe = .ok (pid, safe)) :
    f.doFork current (some proc) true = .ok (pid, forkedFamily f current proc pid safe) := by
  have samePids : (f.procList.map fun other =>
      (((f.procs.set proc { allocProc with parent := some current }).set current
        { (f.procs.set proc { allocProc with parent := some current }) current with waitState := 0 }) other).pid) =
      f.procList.map fun other => (f.procs other).pid := by
    apply List.map_congr_left
    intro other listed
    have notProc : other ≠ proc := fun same => fresh (same ▸ listed)
    by_cases isCurrent : other = current
    · subst isCurrent
      simp [notProc]
    · simp [isCurrent, notProc]
  have bornOutside : (born f.procs current proc pid current).cptr ≠ some proc := by simpa [born] using outside
  have linkedProc := link_child_apply (born f.procs current proc pid) current proc proc bornOutside
  have parent : (born f.procs current proc pid proc).parent = some current := by simp [born, Procs.set_other _ _ _ _ apart.symm]
  have state : (linkChild (born f.procs current proc pid) current proc proc).state = .uninit := by
    rw [linkedProc]
    simp [born, Procs.set_other _ _ _ _ apart.symm, allocProc]
  have carried : (linkChild (born f.procs current proc pid) current proc proc).pid = pid := by
    rw [linkedProc]
    simp [born, Procs.set_other _ _ _ _ apart.symm]
  have mid := born_eq f.procs current proc pid apart
  simp only at mid
  simp only [Family.doFork, if_neg (Int.not_le.mpr room), if_true]
  rw [samePids, found, ok_bind]
  simp only [mid, Family.setLinks, parent, deref, ok_bind, pure_ok, wakeupState, state]
  simp [forkedFamily, awake, carried]

structure Forked (idle : P) (f : Family P) (kids : P → List P) (current proc : P) (pid : Int) (f' : Family P) : Prop where
  tree : Tree idle f' (Function.update (Function.update kids proc []) current (proc :: kids current))
  listed : f'.procList = proc :: f.procList
  fresh : unlinked (f'.procs proc) = unlinked (awake { allocProc with pid := pid })
  parent : (f'.procs proc).parent = some current
  caller : unlinked (f'.procs current) = unlinked { f.procs current with waitState := 0 }
  others : ∀ other, other ≠ proc → other ≠ current → unlinked (f'.procs other) = unlinked (f.procs other)
  parents : ∀ other, other ≠ proc → (f'.procs other).parent = (f.procs other).parent

theorem forked_frame (current proc other : P) (pid safe : Int) (notProc : other ≠ proc)
    (outside : (born f.procs current proc pid current).cptr ≠ some proc) :
    unlinked ((forkedFamily f current proc pid safe).procs other) = unlinked (born f.procs current proc pid other) ∧
      ((forkedFamily f current proc pid safe).procs other).parent = (born f.procs current proc pid other).parent := by
  simp only [forkedFamily, Procs.set_other _ _ _ _ notProc]
  exact link_child_frame (born f.procs current proc pid) current proc other outside

theorem Tree.fork_chains (tree : Tree idle f kids) (current proc : P) (pid safe : Int) (inUse : f.InUse idle current)
    (fresh : ¬ f.InUse idle proc) :
    Chains ((forkedFamily f current proc pid safe).InUse idle) (forkedFamily f current proc pid safe).procs
      (Function.update (Function.update kids proc []) current (proc :: kids current)) none := by
  have apart : current ≠ proc := fun same => fresh (same ▸ inUse)
  have orphan : ∀ parent, f.InUse idle parent → proc ∉ kids parent := fun parent parentUsed member =>
    fresh (.inr ((tree.kidsAre parent parentUsed proc).mp member).1)
  have grown := tree.chains.grow (born f.procs current proc pid) proc fresh orphan
    (by simp [born, Procs.set_other _ _ _ _ apart.symm, allocProc]) (by
      intro other notProc
      by_cases isCurrent : other = current
      · subst isCurrent
        simp [born]
      · simp [born, notProc, isCurrent])
  have stillOrphan : ∀ parent, f.InUse idle parent ∨ parent = proc → proc ∉ Function.update kids proc [] parent := by
    intro parent parentUsed
    by_cases isProc : parent = proc
    · subst isProc
      simp
    · rw [Function.update_of_ne isProc]
      exact orphan parent (parentUsed.resolve_right isProc)
  have linked := grown.link current proc (.inl inUse) (by simp) stillOrphan
  rw [Function.update_of_ne apart] at linked
  have awakened := linked.congr (forkedFamily f current proc pid safe).procs (by
    intro other
    by_cases isProc : other = proc <;> simp [forkedFamily, isProc, awake])
  apply awakened.mono
  intro other otherUsed
  cases otherUsed with
  | inl isIdle => exact .inl (.inl isIdle)
  | inr listed =>
      cases List.mem_cons.mp listed with
      | inl isProc => exact .inr isProc
      | inr old => exact .inl (.inr old)

theorem Tree.fork_kids (tree : Tree idle f kids) (current proc : P) (procs : Procs P) (inUse : f.InUse idle current)
    (fresh : ¬ f.InUse idle proc) (freshParent : (procs proc).parent = some current)
    (oldParent : ∀ other ∈ f.procList, (procs other).parent = (f.procs other).parent) :
    ∀ parent, parent = idle ∨ parent ∈ proc :: f.procList → ∀ other,
      other ∈ Function.update (Function.update kids proc []) current (proc :: kids current) parent ↔
        other ∈ proc :: f.procList ∧ (procs other).parent = some parent := by
  have unlisted : proc ∉ f.procList := fun listed => fresh (.inr listed)
  have old : ∀ parent, f.InUse idle parent → parent ≠ current → ∀ other,
      other ∈ kids parent ↔ other ∈ proc :: f.procList ∧ (procs other).parent = some parent := by
    intro parent parentUsed notCurrent other
    rw [tree.kidsAre parent parentUsed other]
    constructor
    · intro ⟨listed, ofParent⟩
      exact ⟨List.mem_cons_of_mem _ listed, (oldParent other listed).trans ofParent⟩
    · intro ⟨listed, ofParent⟩
      cases List.mem_cons.mp listed with
      | inl isProc =>
          rw [isProc, freshParent] at ofParent
          exact absurd (Option.some.inj ofParent).symm notCurrent
      | inr member => exact ⟨member, (oldParent other member).symm.trans ofParent⟩
  intro parent parentUsed other
  by_cases isCurrent : parent = current
  · subst isCurrent
    rw [Function.update_self, List.mem_cons, List.mem_cons]
    by_cases isProc : other = proc
    · simp [isProc, freshParent]
    · simp only [isProc, false_or, tree.kidsAre parent inUse other]
      constructor
      · exact fun ⟨listed, ofParent⟩ => ⟨listed, (oldParent other listed).trans ofParent⟩
      · exact fun ⟨listed, ofParent⟩ => ⟨listed, (oldParent other listed).symm.trans ofParent⟩
  · rw [Function.update_of_ne isCurrent]
    by_cases isProc : parent = proc
    · subst isProc
      rw [Function.update_self]
      constructor
      · exact fun member => absurd member (by simp)
      · intro ⟨listed, ofParent⟩
        cases List.mem_cons.mp listed with
        | inl same =>
            rw [same, freshParent] at ofParent
            exact absurd (Option.some.inj ofParent).symm isCurrent
        | inr member =>
            obtain ⟨known, ofKnown, knownUsed⟩ := tree.parented other member
            rw [oldParent other member, ofKnown] at ofParent
            exact absurd (Option.some.inj ofParent ▸ knownUsed) fresh
    · rw [Function.update_of_ne isProc]
      have parentOld : f.InUse idle parent := by
        cases parentUsed with
        | inl isIdle => exact .inl isIdle
        | inr listed => exact .inr ((List.mem_cons.mp listed).resolve_left isProc)
      exact old parent parentOld isCurrent other

theorem Tree.forked (tree : Tree idle f kids) (current proc : P) (pid safe : Int) (inUse : f.InUse idle current)
    (fresh : ¬ f.InUse idle proc) (free : FreePid (f.procList.map fun other => (f.procs other).pid) pid safe) :
    Forked idle f kids current proc pid (forkedFamily f current proc pid safe) := by
  have apart : current ≠ proc := fun same => fresh (same ▸ inUse)
  have unlisted : proc ∉ f.procList := fun listed => fresh (.inr listed)
  have outside : (born f.procs current proc pid current).cptr ≠ some proc := by
    have first := chain_first f.procs _ _ _ (tree.chains.tight current inUse)
    have same : (born f.procs current proc pid current).cptr = (f.procs current).cptr := by simp [born]
    rw [same, first]
    exact fun member => fresh (.inr ((tree.kidsAre current inUse proc).mp (List.mem_of_mem_head? member)).1)
  have frame := fun other notProc => forked_frame (f := f) current proc other pid safe notProc outside
  have bornOther : ∀ other, other ≠ proc → other ≠ current → born f.procs current proc pid other = f.procs other := by
    intro other notProc notCurrent
    simp [born, notProc, notCurrent]
  have bornParent : ∀ other, other ≠ proc → (born f.procs current proc pid other).parent = (f.procs other).parent := by
    intro other notProc
    by_cases isCurrent : other = current
    · subst isCurrent
      simp [born]
    · rw [bornOther other notProc isCurrent]
  have bornPid : ∀ other, other ≠ proc → (born f.procs current proc pid other).pid = (f.procs other).pid := by
    intro other notProc
    by_cases isCurrent : other = current
    · subst isCurrent
      simp [born]
    · rw [bornOther other notProc isCurrent]
  have bornProc : born f.procs current proc pid proc = { allocProc with parent := some current, pid := pid } := by
    simp [born, Procs.set_other _ _ _ _ apart.symm]
  have linked := link_child_frame (born f.procs current proc pid) current proc proc outside
  have freshEntry : unlinked ((forkedFamily f current proc pid safe).procs proc) = unlinked (awake { allocProc with pid := pid }) := by
    have moved := awake_unlinked _ _ linked.1
    rw [bornProc] at moved
    simp only [forkedFamily, Procs.set_here]
    exact moved.trans rfl
  have freshParent : ((forkedFamily f current proc pid safe).procs proc).parent = some current := by
    have moved := linked.2
    rw [bornProc] at moved
    simpa [forkedFamily, awake] using moved
  have freshPid : ((forkedFamily f current proc pid safe).procs proc).pid = pid := (unlinked_fields _ _ freshEntry).2.1
  have oldPid : ∀ other ∈ f.procList, ((forkedFamily f current proc pid safe).procs other).pid = (f.procs other).pid := by
    intro other listed
    have notProc : other ≠ proc := fun same => unlisted (same ▸ listed)
    exact (unlinked_fields _ _ (frame other notProc).1).2.1.trans (bornPid other notProc)
  have oldParent : ∀ other ∈ f.procList, ((forkedFamily f current proc pid safe).procs other).parent = (f.procs other).parent := by
    intro other listed
    have notProc : other ≠ proc := fun same => unlisted (same ▸ listed)
    exact (frame other notProc).2.trans (bornParent other notProc)
  obtain ⟨low, below, top, clear⟩ := free
  have clearOld : ∀ other ∈ f.procList, (f.procs other).pid < pid ∨ safe ≤ (f.procs other).pid := fun other listed =>
    clear _ (List.mem_map_of_mem listed)
  refine ⟨⟨?_, ?_, ?_, ?_, ?_, ?_, ?_, low, top, tree.fork_chains current proc pid safe inUse fresh, ?_, ?_⟩, rfl, freshEntry, freshParent,
    ?_, ?_, ?_⟩
  · intro listed
    cases List.mem_cons.mp listed with
    | inl same => exact fresh (.inl same.symm)
    | inr old => exact tree.idleOut old
  · exact List.nodup_cons.mpr ⟨unlisted, tree.distinct⟩
  · exact tree.hashed.cons proc
  · simp [forkedFamily, tree.counted]
  · intro other listed
    cases List.mem_cons.mp listed with
    | inl same => rw [same, freshPid]; omega
    | inr old => rw [oldPid other old]; exact tree.pids other old
  · intro first firstListed second secondListed equal
    cases List.mem_cons.mp firstListed with
    | inl isProc =>
        cases List.mem_cons.mp secondListed with
        | inl same => exact isProc.trans same.symm
        | inr old =>
            rw [isProc, freshPid, oldPid second old] at equal
            have away := clearOld second old
            omega
    | inr firstOld =>
        cases List.mem_cons.mp secondListed with
        | inl isProc =>
            rw [isProc, freshPid, oldPid first firstOld] at equal
            have away := clearOld first firstOld
            omega
        | inr secondOld =>
            rw [oldPid first firstOld, oldPid second secondOld] at equal
            exact tree.pidsApart first firstOld second secondOld equal
  · intro other listed
    cases List.mem_cons.mp listed with
    | inl same => rw [same, freshPid]; exact .inl (le_refl _)
    | inr old => rw [oldPid other old]; exact (clearOld other old).imp le_of_lt id
  · exact tree.fork_kids current proc _ inUse fresh freshParent oldParent
  · intro other listed
    cases List.mem_cons.mp listed with
    | inl same => rw [same]; exact ⟨current, freshParent, inUse.imp id (List.mem_cons_of_mem _)⟩
    | inr old =>
        obtain ⟨parent, ofParent, parentUsed⟩ := tree.parented other old
        exact ⟨parent, (oldParent other old).trans ofParent, parentUsed.imp id (List.mem_cons_of_mem _)⟩
  · rw [(frame current apart).1]
    simp [born]
  · intro other notProc notCurrent
    rw [(frame other notProc).1, bornOther other notProc notCurrent]
  · intro other notProc
    exact (frame other notProc).2.trans (bornParent other notProc)

theorem Tree.fork_spec (tree : Tree idle f kids) (current proc : P) (inUse : f.InUse idle current) (fresh : ¬ f.InUse idle proc)
    (room : f.nrProcess < maxProcess) :
    ∃ pid f', f.doFork current (some proc) true = .ok (pid, f') ∧ 0 < pid ∧ Forked idle f kids current proc pid f' := by
  have few : ((f.procList.map fun other => (f.procs other).pid).length : Int) < maxPid - 1 := by
    have size := tree.counted
    have wide : maxProcess < maxPid := by decide
    rw [List.length_map]
    omega
  have clear : ∀ pid ∈ f.procList.map fun other => (f.procs other).pid, pid ≤ f.lastPid ∨ f.nextSafe ≤ pid := by
    intro pid member
    obtain ⟨other, listed, carried⟩ := List.mem_map.mp member
    exact carried ▸ tree.window other listed
  obtain ⟨pid, safe, found, free⟩ := get_pid_spec _ f.lastPid f.nextSafe few tree.last tree.safe clear
  have apart : current ≠ proc := fun same => fresh (same ▸ inUse)
  have outside : (f.procs current).cptr ≠ some proc := by
    rw [chain_first f.procs _ _ _ (tree.chains.tight current inUse)]
    exact fun member => fresh (.inr ((tree.kidsAre current inUse proc).mp (List.mem_of_mem_head? member)).1)
  refine ⟨pid, _, fork_eq current proc pid safe apart (fun listed => fresh (.inr listed)) outside room found, ?_,
    tree.forked current proc pid safe inUse fresh free⟩
  exact free.1

end Forking

end Ucore.Proc
