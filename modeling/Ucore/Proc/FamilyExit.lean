import Ucore.Proc.FamilyTree

set_option autoImplicit false

namespace Ucore.Proc

open Ucore.Lib

variable {P : Type} [DecidableEq P]

section Exiting

variable {idle init : P} {f : Family P} {kids : P → List P}

structure Exited (idle init : P) (f : Family P) (kids : P → List P) (current : P) (errorCode : Int) (f' : Family P) : Prop where
  tree : Tree idle f' (Function.update (Function.update kids current []) init ((kids current).reverse ++ kids init))
  listed : f'.procList = f.procList
  gone : unlinked (f'.procs current) = unlinked { f.procs current with state := .zombie, exitCode := errorCode }
  others : ∀ other, other ≠ current → Rewoken (f.procs other) (f'.procs other)
    ((f.procs current).parent ≠ some other ∧ (other = init → ∀ proc ∈ kids current, (f.procs proc).state ≠ .zombie))
  parents : ∀ other, (f'.procs other).parent = if other ∈ kids current then some init else (f.procs other).parent

-- What do_exit finds: the running process is neither idleproc nor initproc, and
-- whoever waits for a child sleeps.
structure MayExit (idle init : P) (f : Family P) (current : P) : Prop where
  inUse : f.InUse idle current
  notIdle : current ≠ idle
  notInit : current ≠ init
  initUsed : f.InUse idle init
  initParent : (f.procs init).parent ≠ some current
  parent : ∃ parent, (f.procs current).parent = some parent ∧ parent ≠ current ∧ WaitsAsleep (f.procs parent)
  initAsleep : WaitsAsleep (f.procs init)

omit [DecidableEq P] in
theorem rewoken_pid (entry entry' : ProcStruct P) (quiet : Prop) (moved : Rewoken entry entry' quiet) : entry'.pid = entry.pid := by
  cases moved with
  | inl kept => exact (unlinked_fields _ _ kept.1).2.1
  | inr woken => exact (unlinked_fields _ _ woken.2).2.1

omit [DecidableEq P] in
theorem Chains.loosen {used : P → Prop} {procs : Procs P} (chains : Chains used procs kids none) (current : P) :
    Chains used procs kids (some current) where
  chain := fun parent inUse => ⟨none, fun _ => rfl, chains.tight parent inUse⟩
  distinct := chains.distinct
  apart := chains.apart

-- do_exit up to the loop: the zombie, and its parent if that waits.
def zombied (procs : Procs P) (current parent : P) (errorCode : Int) : Procs P :=
  let procs := procs.set current { procs current with state := .zombie, exitCode := errorCode }
  if (procs parent).waitState = wtChild then procs.set parent (awake (procs parent)) else procs

theorem zombied_other (procs : Procs P) (current parent other : P) (errorCode : Int) (notSelf : parent ≠ current) (apart : other ≠ current) :
    zombied procs current parent errorCode other =
      if other = parent ∧ (procs other).waitState = wtChild then awake (procs other) else procs other := by
  unfold zombied
  rw [Procs.set_other _ _ _ _ notSelf]
  by_cases waits : (procs parent).waitState = wtChild
  · rw [if_pos waits]
    by_cases isParent : other = parent
    · subst isParent
      simp [waits]
    · simp [isParent, apart]
  · rw [if_neg waits, Procs.set_other _ _ _ _ apart, if_neg]
    intro woken
    exact waits (woken.1 ▸ woken.2)

theorem zombied_current (procs : Procs P) (current parent : P) (errorCode : Int) (notSelf : parent ≠ current) :
    zombied procs current parent errorCode current = { procs current with state := .zombie, exitCode := errorCode } := by
  unfold zombied
  rw [Procs.set_other _ _ _ _ notSelf]
  by_cases waits : (procs parent).waitState = wtChild
  · rw [if_pos waits, Procs.set_other _ _ _ _ (Ne.symm notSelf), Procs.set_here]
  · rw [if_neg waits, Procs.set_here]

theorem zombied_tree (procs : Procs P) (current parent other : P) (errorCode : Int) (notSelf : parent ≠ current) :
    SameTree (procs other) (zombied procs current parent errorCode other) := by
  by_cases isCurrent : other = current
  · subst isCurrent
    rw [zombied_current procs other parent errorCode notSelf]
    exact ⟨rfl, rfl, rfl, rfl, rfl⟩
  · rw [zombied_other procs current parent other errorCode notSelf isCurrent]
    split <;> exact ⟨rfl, rfl, rfl, rfl, rfl⟩

theorem exit_eq (current parent : P) (errorCode : Int) (may : MayExit idle init f current)
    (ofParent : (f.procs current).parent = some parent) (notSelf : parent ≠ current) (asleep : WaitsAsleep (f.procs parent)) :
    f.doExit idle init current errorCode =
      (adoptChildren init current (f.procList.length + 1) (zombied f.procs current parent errorCode)).map fun procs => { f with procs := procs } := by
  have parentAsleep : WaitsAsleep (f.procs.set current { f.procs current with state := .zombie, exitCode := errorCode } parent) := by
    rw [Procs.set_other _ _ _ _ notSelf]
    exact asleep
  have woken := wake_waiting_spec _ parent parentAsleep
  have got : deref (f.procs.set current { f.procs current with state := .zombie, exitCode := errorCode } current).parent = .ok parent := by
    rw [Procs.set_here]
    simp [ofParent, deref]
  simp only [Family.doExit, if_neg may.notIdle, if_neg may.notInit]
  rw [got, ok_bind, woken, ok_bind]
  show (adoptChildren init current (f.procList.length + 1) (zombied f.procs current parent errorCode) >>= fun procs => _) = _
  cases adoptChildren init current (f.procList.length + 1) (zombied f.procs current parent errorCode) <;> rfl

theorem Tree.exit_kids (tree : Tree idle f kids) (current : P) (procs : Procs P) (inUse : f.InUse idle current)
    (parents : ∀ other, (procs other).parent = if other ∈ kids current then some init else (f.procs other).parent)
    (initUsed : f.InUse idle init) (different : init ≠ current) :
    ∀ parent, f.InUse idle parent → ∀ proc,
      proc ∈ Function.update (Function.update kids current []) init ((kids current).reverse ++ kids init) parent ↔
        proc ∈ f.procList ∧ (procs proc).parent = some parent := by
  intro parent parentUsed proc
  have ofCurrent := tree.kidsAre current inUse proc
  have ofInit := tree.kidsAre init initUsed proc
  rw [parents proc]
  by_cases handed : proc ∈ kids current
  · rw [if_pos handed]
    have listed := (ofCurrent.mp handed).1
    by_cases isInit : parent = init
    · subst isInit
      simp [handed, listed]
    · have notInit : ¬ some init = some parent := fun same => isInit (Option.some.inj same).symm
      rw [Function.update_of_ne isInit]
      by_cases isCurrent : parent = current
      · subst isCurrent
        simp [notInit]
      · rw [Function.update_of_ne isCurrent]
        have elsewhere := tree.chains.apart current parent inUse parentUsed (Ne.symm isCurrent) proc handed
        simp [elsewhere, notInit]
  · rw [if_neg handed]
    by_cases isInit : parent = init
    · subst isInit
      rw [Function.update_self, List.mem_append, List.mem_reverse, ofInit]
      exact or_iff_right handed
    · rw [Function.update_of_ne isInit]
      by_cases isCurrent : parent = current
      · subst isCurrent
        rw [Function.update_self]
        exact ⟨fun member => absurd member (by simp), fun child => absurd (ofCurrent.mpr child) handed⟩
      · rw [Function.update_of_ne isCurrent]
        exact tree.kidsAre parent parentUsed proc

theorem Tree.exit_spec (tree : Tree idle f kids) (current : P) (errorCode : Int) (may : MayExit idle init f current) :
    ∃ f', f.doExit idle init current errorCode = .ok f' ∧ Exited idle init f kids current errorCode f' := by
  obtain ⟨parent, ofParent, notSelf, parentAsleep⟩ := may.parent
  have different : init ≠ current := Ne.symm may.notInit
  have sameTree := fun other => zombied_tree f.procs current parent other errorCode notSelf
  have notChild : init ∉ kids current := fun member => may.initParent ((tree.kidsAre current may.inUse init).mp member).2
  have initAsleep : WaitsAsleep (zombied f.procs current parent errorCode init) := by
    rw [zombied_other f.procs current parent init errorCode notSelf different]
    split
    · exact awake_waits _
    · exact may.initAsleep
  have few : (kids current).length < f.procList.length + 1 := by
    have part : kids current ⊆ f.procList := fun proc member => ((tree.kidsAre current may.inUse proc).mp member).1
    exact Nat.lt_succ_of_le ((tree.chains.distinct current may.inUse).subperm part).length_le
  have chains := (tree.chains.congr (zombied f.procs current parent errorCode) fun other => (sameTree other).2.2).loosen current
  obtain ⟨procs', returns, adopted⟩ :=
    adopt_spec (kids current) _ kids _ chains rfl may.initUsed may.inUse different notChild initAsleep few
  refine ⟨{ f with procs := procs' }, ?_, ?_⟩
  · rw [exit_eq current parent errorCode may ofParent notSelf parentAsleep, returns]
    rfl
  have parents : ∀ other, (procs' other).parent = if other ∈ kids current then some init else (f.procs other).parent := by
    intro other
    rw [adopted.parents other, (sameTree other).2.1]
  have pids : ∀ other, (procs' other).pid = (f.procs other).pid := by
    intro other
    rw [← (sameTree other).1]
    by_cases isInit : other = init
    · subst isInit
      exact rewoken_pid _ _ _ adopted.adopter
    · exact (unlinked_fields _ _ (adopted.others other isInit)).2.1
  have stateOf : ∀ proc, proc ≠ current → (f.procs proc).state = .zombie → (zombied f.procs current parent errorCode proc).state = .zombie := by
    intro proc notCurrent gone
    rw [zombied_other f.procs current parent proc errorCode notSelf notCurrent, if_neg]
    · exact gone
    · intro ⟨isParent, waits⟩
      have sleeping := parentAsleep (isParent ▸ waits)
      rw [← isParent, gone] at sleeping
      exact absurd sleeping (by decide)
  refine ⟨⟨tree.idleOut, tree.distinct, tree.hashed, tree.counted, ?_, ?_, ?_, tree.last, tree.safe, adopted.chains, ?_, ?_⟩, rfl, ?_, ?_, parents⟩
  · intro proc listed
    rw [pids proc]
    exact tree.pids proc listed
  · intro proc listed other otherListed equal
    rw [pids proc, pids other] at equal
    exact tree.pidsApart proc listed other otherListed equal
  · intro proc listed
    rw [pids proc]
    exact tree.window proc listed
  · exact tree.exit_kids current procs' may.inUse parents may.initUsed different
  · intro proc listed
    rw [parents proc]
    by_cases handed : proc ∈ kids current
    · rw [if_pos handed]
      exact ⟨init, rfl, may.initUsed⟩
    · rw [if_neg handed]
      exact tree.parented proc listed
  · rw [adopted.others current (Ne.symm different), zombied_current f.procs current parent errorCode notSelf]
  · intro other notCurrent
    have entry := zombied_other f.procs current parent other errorCode notSelf notCurrent
    by_cases woken : other = parent ∧ (f.procs other).waitState = wtChild
    · rw [if_pos woken] at entry
      refine .inr ⟨woken.2, ?_⟩
      by_cases isInit : other = init
      · subst isInit
        have adopter := adopted.adopter
        unfold AdoptedBy at adopter
        rw [entry] at adopter
        cases adopter with
        | inl kept => exact kept.1
        | inr again => exact again.2.trans (by simp [unlinked, awake])
      · rw [adopted.others other isInit, entry]
    · rw [if_neg woken] at entry
      have notParent : (f.procs other).waitState = wtChild → (f.procs current).parent ≠ some other := by
        intro waits same
        exact woken ⟨Option.some.inj (same.symm.trans ofParent), waits⟩
      by_cases isInit : other = init
      · subst isInit
        have adopter := adopted.adopter
        unfold AdoptedBy at adopter
        rw [entry] at adopter
        cases adopter with
        | inl kept =>
            refine .inl ⟨kept.1, fun waits => ⟨notParent waits, fun _ proc member gone => ?_⟩⟩
            have notSelfKid : proc ≠ current := by
              intro same
              rw [same] at member
              exact notSelf (Option.some.inj (ofParent.symm.trans ((tree.kidsAre current may.inUse current).mp member).2))
            exact kept.2 waits proc member (stateOf proc notSelfKid gone)
        | inr again => exact .inr again
      · refine .inl ⟨?_, fun waits => ⟨notParent waits, fun same => absurd same isInit⟩⟩
        rw [adopted.others other isInit, entry]

end Exiting

section Waiting

variable {idle init : P} {f : Family P} {kids : P → List P}

def WaitScanned (procs : Procs P) (kids : List P) (seen : Bool) : WaitScan P → Prop
  | .noKid => seen = false ∧ kids = []
  | .hasKid => ∀ proc ∈ kids, (procs proc).state ≠ .zombie
  | .found proc => proc ∈ kids ∧ (procs proc).state = .zombie

omit [DecidableEq P] in
theorem wait_scan_spec (procs : Procs P) (kids : List P) (younger first : Option P) (seen : Bool) (fuel : Nat)
    (linked : Chain procs younger first kids) (enough : kids.length < fuel) :
    ∃ result, waitScan procs fuel first seen = .ok result ∧ WaitScanned procs kids seen result := by
  induction kids generalizing younger first seen fuel with
  | nil =>
      obtain ⟨more, rfl⟩ := Nat.exists_eq_succ_of_ne_zero (Nat.ne_of_gt enough)
      have done : first = none := linked
      subst done
      cases seen with
      | true => exact ⟨.hasKid, rfl, fun proc member => absurd member (by simp)⟩
      | false => exact ⟨.noKid, rfl, rfl, rfl⟩
  | cons proc rest ih =>
      obtain ⟨more, rfl⟩ := Nat.exists_eq_succ_of_ne_zero (Nat.ne_of_gt (Nat.lt_of_le_of_lt (Nat.zero_le _) enough))
      obtain ⟨start, _, next⟩ := linked
      subst start
      by_cases gone : (procs proc).state = .zombie
      · exact ⟨.found proc, by simp [waitScan, gone], List.mem_cons_self, gone⟩
      · obtain ⟨result, returns, scanned⟩ := ih (some proc) (procs proc).optr true more next (by simpa using enough)
        refine ⟨result, by simp [waitScan, gone, returns], ?_⟩
        cases result with
        | noKid => exact absurd scanned.1 (by simp)
        | hasKid =>
            intro other member
            cases List.mem_cons.mp member with
            | inl same => exact same ▸ gone
            | inr later => exact scanned other later
        | found other => exact ⟨List.mem_cons_of_mem _ scanned.1, scanned.2⟩

-- A child that do_wait with this pid waits for.
def Awaited (f : Family P) (current : P) (pid : Int) (child : P) : Prop :=
  child ∈ f.procList ∧ (f.procs child).parent = some current ∧ (pid = 0 ∨ (f.procs child).pid = pid)

def WaitFound (f : Family P) (current : P) (pid : Int) : WaitScan P → Prop
  | .noKid => ∀ child, ¬ Awaited f current pid child
  | .hasKid => ∀ child, Awaited f current pid child → (f.procs child).state ≠ .zombie
  | .found child => Awaited f current pid child ∧ (f.procs child).state = .zombie

theorem Tree.wait_spec (tree : Tree idle f kids) (current : P) (pid : Int) (inUse : f.InUse idle current) :
    ∃ result, f.waitFor current pid = .ok result ∧ WaitFound f current pid result := by
  by_cases any : pid = 0
  · have few : (kids current).length < f.procList.length + 1 := by
      have part : kids current ⊆ f.procList := fun proc member => ((tree.kidsAre current inUse proc).mp member).1
      exact Nat.lt_succ_of_le ((tree.chains.distinct current inUse).subperm part).length_le
    obtain ⟨result, returns, scanned⟩ := wait_scan_spec f.procs _ _ _ false _ (tree.chains.tight current inUse) few
    refine ⟨result, by simp [Family.waitFor, any, returns], ?_⟩
    cases result with
    | noKid =>
        intro child awaited
        have member := (tree.kidsAre current inUse child).mpr ⟨awaited.1, awaited.2.1⟩
        rw [scanned.2] at member
        exact absurd member (by simp)
    | hasKid => exact fun child awaited => scanned child ((tree.kidsAre current inUse child).mpr ⟨awaited.1, awaited.2.1⟩)
    | found child =>
        obtain ⟨listed, ofParent⟩ := (tree.kidsAre current inUse child).mp scanned.1
        exact ⟨⟨listed, ofParent, .inl any⟩, scanned.2⟩
  · have only : ∀ child, Awaited f current pid child ↔ f.findProc pid = some child ∧ (f.procs child).parent = some current := by
      intro child
      rw [tree.find_proc_spec pid child]
      constructor
      · exact fun ⟨listed, ofParent, matched⟩ => ⟨⟨listed, matched.resolve_left any⟩, ofParent⟩
      · exact fun ⟨⟨listed, matched⟩, ofParent⟩ => ⟨listed, ofParent, .inr matched⟩
    simp only [Family.waitFor, ne_eq, any, not_false_eq_true, if_true]
    cases found : f.findProc pid with
    | none =>
        refine ⟨.noKid, rfl, fun child awaited => ?_⟩
        have known := ((only child).mp awaited).1
        rw [found] at known
        exact absurd known (by simp)
    | some proc =>
        have is : ∀ child, Awaited f current pid child → child = proc := by
          intro child awaited
          have known := ((only child).mp awaited).1
          rw [found] at known
          exact (Option.some.inj known).symm
        simp only
        by_cases mine : (f.procs proc).parent = some current
        · rw [if_pos mine]
          by_cases gone : (f.procs proc).state = .zombie
          · rw [if_pos gone]
            exact ⟨.found proc, rfl, (only proc).mpr ⟨found, mine⟩, gone⟩
          · rw [if_neg gone]
            exact ⟨.hasKid, rfl, fun child awaited => is child awaited ▸ gone⟩
        · rw [if_neg mine]
          refine ⟨.noKid, rfl, fun child awaited => ?_⟩
          have ofCurrent := awaited.2.1
          rw [is child awaited] at ofCurrent
          exact mine ofCurrent

structure Reaped (idle : P) (f : Family P) (kids : P → List P) (parent proc : P) (f' : Family P) : Prop where
  tree : Tree idle f' (Function.update kids parent ((kids parent).erase proc))
  listed : f'.procList = f.procList.erase proc
  frame : ∀ other, unlinked (f'.procs other) = unlinked (f.procs other) ∧ (f'.procs other).parent = (f.procs other).parent

theorem unlinked_from_frame (procs : Procs P) (proc other : P) :
    unlinked (unlinkedFrom procs proc other) = unlinked (procs other) ∧ (unlinkedFrom procs proc other).parent = (procs other).parent := by
  simp [unlinkedFrom, unlinked]

theorem Tree.reap_spec (tree : Tree idle f kids) (parent proc : P) (listed : proc ∈ f.procList) (ofParent : (f.procs proc).parent = some parent)
    (parentUsed : f.InUse idle parent) (noKids : kids proc = []) (notIdle : proc ≠ idle) (notInit : proc ≠ init) :
    ∃ f', f.reap idle init proc = .ok ((f.procs proc).exitCode, f') ∧ Reaped idle f kids parent proc f' := by
  have member := (tree.kidsAre parent parentUsed proc).mpr ⟨listed, ofParent⟩
  obtain ⟨pre, post, split⟩ := List.append_of_mem member
  have linked := tree.chains.tight parent parentUsed
  have distinct := tree.chains.distinct parent parentUsed
  rw [split] at linked distinct
  have freshPost : proc ∉ post := by
    have tail := (List.nodup_append.mp distinct).2.1
    exact (List.nodup_cons.mp tail).1
  have freshPre : proc ∉ pre := fun inPre => (List.nodup_append.mp distinct).2.2 proc inPre proc (by simp) rfl
  have older : (f.procs proc).optr ≠ some proc := by
    rw [chain_optr f.procs pre post proc _ _ linked]
    exact fun same => freshPost (List.mem_of_mem_head? same)
  have erased : (kids parent).erase proc = pre ++ post := by
    rw [split, List.erase_append_right _ freshPre, List.erase_cons_head]
  have frame := unlinked_from_frame f.procs proc
  have pids : ∀ other, (unlinkedFrom f.procs proc other).pid = (f.procs other).pid := fun other => (unlinked_fields _ _ (frame other).1).2.1
  have smaller : ∀ other, other ∈ f.procList.erase proc ↔ other ≠ proc ∧ other ∈ f.procList := fun other => tree.distinct.mem_erase_iff
  have used : ∀ other, other = idle ∨ other ∈ f.procList.erase proc ↔ other ≠ proc ∧ f.InUse idle other := by
    intro other
    rw [smaller other]
    constructor
    · intro inUse
      cases inUse with
      | inl isIdle => exact ⟨fun same => notIdle (same.symm.trans isIdle), .inl isIdle⟩
      | inr old => exact ⟨old.1, .inr old.2⟩
    · exact fun ⟨apart, inUse⟩ => inUse.imp id fun old => ⟨apart, old⟩
  refine ⟨⟨unlinkedFrom f.procs proc, f.procList.erase proc, f.hashed.erase proc, f.nrProcess - 1, f.lastPid, f.nextSafe⟩, ?_, ?_⟩
  · simp only [Family.reap, notIdle, notInit, or_self, if_false, Family.removeLinks]
    rw [unlink_child_ok f.procs proc parent ofParent older]
    rfl
  refine ⟨⟨?_, ?_, ?_, ?_, ?_, ?_, ?_, tree.last, tree.safe, ?_, ?_, ?_⟩, rfl, frame⟩
  · exact fun old => tree.idleOut ((smaller idle).mp old).2
  · exact tree.distinct.erase proc
  · exact tree.hashed.erase proc
  · have positive := List.length_pos_of_mem listed
    simp only [tree.counted, List.length_erase_of_mem listed]
    omega
  · intro other old
    rw [pids other]
    exact tree.pids other ((smaller other).mp old).2
  · intro first firstOld second secondOld equal
    rw [pids first, pids second] at equal
    exact tree.pidsApart first ((smaller first).mp firstOld).2 second ((smaller second).mp secondOld).2 equal
  · intro other old
    rw [pids other]
    exact tree.window other ((smaller other).mp old).2
  · rw [erased]
    exact (tree.chains.unlink parent proc pre post parentUsed ofParent split).mono _ fun other inUse => ((used other).mp inUse).2
  · intro other otherUsed child
    obtain ⟨otherApart, otherOld⟩ := (used other).mp otherUsed
    rw [smaller child, (frame child).2]
    by_cases isParent : other = parent
    · subst isParent
      rw [Function.update_self, (tree.chains.distinct other parentUsed).mem_erase_iff, tree.kidsAre other parentUsed child]
      tauto
    · rw [Function.update_of_ne isParent, tree.kidsAre other otherOld child]
      constructor
      · intro ⟨old, ofOther⟩
        refine ⟨⟨fun same => ?_, old⟩, ofOther⟩
        rw [same, ofParent] at ofOther
        exact isParent (Option.some.inj ofOther).symm
      · exact fun ⟨⟨_, old⟩, ofOther⟩ => ⟨old, ofOther⟩
  · intro child old
    obtain ⟨apart, childListed⟩ := (smaller child).mp old
    rw [(frame child).2]
    obtain ⟨known, ofKnown, knownUsed⟩ := tree.parented child childListed
    refine ⟨known, ofKnown, (used known).mpr ⟨fun same => ?_, knownUsed⟩⟩
    have kid := (tree.kidsAre proc (.inr listed) child).mpr ⟨childListed, same ▸ ofKnown⟩
    rw [noKids] at kid
    exact absurd kid (by simp)

end Waiting

end Ucore.Proc
