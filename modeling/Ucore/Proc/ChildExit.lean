import Ucore.Proc.FamilyExit

set_option autoImplicit false

namespace Ucore.Proc

open Ucore.Lib

variable {P : Type} [DecidableEq P]

namespace FamilySystem

-- Where processes are between steps.
structure WaitInv (idle init : P) (f : Family P) (phase : P → WaitPhase) : Prop where
  tree : ∃ kids, Tree idle f kids
  initListed : init ∈ f.procList
  initParent : (f.procs init).parent = some idle
  initAlive : (f.procs init).state ≠ .zombie
  idleAlive : (f.procs idle).state ≠ .zombie
  idleAwake : (f.procs idle).waitState = 0
  parents : ∀ proc ∈ f.procList, ∀ parent, (f.procs proc).parent = some parent → parent ≠ proc ∧ (f.procs parent).state ≠ .zombie
  asleep : ∀ proc ∈ f.procList, (f.procs proc).waitState ≠ 0 → (f.procs proc).state = .sleeping
  waiting : ∀ proc ∈ f.procList, (f.procs proc).state = .sleeping → (f.procs proc).waitState = wtChild →
    ∃ pid codeStore, phase proc = .waiting pid codeStore ∧ ∀ child, Awaited f proc pid child → (f.procs child).state ≠ .zombie

section Touching

variable {idle init : P} {f : Family P} {phase : P → WaitPhase}

theorem awaited_same (f : Family P) (procs : Procs P) (proc child : P) (pid : Int)
    (same : child ∈ f.procList → SameTree (f.procs child) (procs child)) :
    Awaited { f with procs := procs } proc pid child ↔ Awaited f proc pid child := by
  unfold Awaited
  by_cases listed : child ∈ f.procList
  · obtain ⟨pidSame, parentSame, _⟩ := same listed
    simp only [pidSame, parentSame]
  · simp [listed]

-- A step that changes the state of one process, alive before and afterwards.
theorem WaitInv.touch (inv : WaitInv idle init f phase) (current : P) (procs : Procs P) (phase' : P → WaitPhase) (notIdle : current ≠ idle)
    (same : ∀ proc, f.InUse idle proc → SameTree (f.procs proc) (procs proc))
    (kept : ∀ proc, f.InUse idle proc → proc ≠ current →
      (procs proc).state = (f.procs proc).state ∧ (procs proc).waitState = (f.procs proc).waitState ∧ phase' proc = phase proc)
    (alive : (f.procs current).state ≠ .zombie) (alive' : (procs current).state ≠ .zombie)
    (asleep : (procs current).waitState ≠ 0 → (procs current).state = .sleeping)
    (waiting : (procs current).state = .sleeping → (procs current).waitState = wtChild →
      ∃ pid codeStore, phase' current = .waiting pid codeStore ∧ ∀ child, Awaited f current pid child → (f.procs child).state ≠ .zombie) :
    WaitInv idle init { f with procs := procs } phase' := by
  have gone : ∀ proc, f.InUse idle proc → (procs proc).state = .zombie → (f.procs proc).state = .zombie := by
    intro proc inUse zombie
    by_cases isCurrent : proc = current
    · exact absurd (isCurrent ▸ zombie) alive'
    · exact (kept proc inUse isCurrent).1.symm.trans zombie
  have idleKept := kept idle (.inl rfl) (Ne.symm notIdle)
  refine ⟨?_, inv.initListed, ?_, ?_, ?_, ?_, ?_, ?_, ?_⟩
  · obtain ⟨kids, tree⟩ := inv.tree
    exact ⟨kids, tree.congr procs same⟩
  · exact (same init (.inr inv.initListed)).2.1.trans inv.initParent
  · exact fun zombie => inv.initAlive (gone init (.inr inv.initListed) zombie)
  · exact fun zombie => inv.idleAlive (gone idle (.inl rfl) zombie)
  · exact idleKept.2.1.trans inv.idleAwake
  · intro proc listed parent ofParent
    rw [(same proc (.inr listed)).2.1] at ofParent
    obtain ⟨notSelf, parentAlive⟩ := inv.parents proc listed parent ofParent
    obtain ⟨kids, tree⟩ := inv.tree
    obtain ⟨known, ofKnown, knownUsed⟩ := tree.parented proc listed
    have isKnown : known = parent := Option.some.inj (ofKnown.symm.trans ofParent)
    exact ⟨notSelf, fun zombie => parentAlive (gone parent (isKnown ▸ knownUsed) zombie)⟩
  · intro proc listed waits
    by_cases isCurrent : proc = current
    · subst isCurrent
      exact asleep waits
    · obtain ⟨state, waitState, _⟩ := kept proc (.inr listed) isCurrent
      rw [state]
      exact inv.asleep proc listed (waitState ▸ waits)
  · intro proc listed sleeps waits
    by_cases isCurrent : proc = current
    · subst isCurrent
      obtain ⟨pid, codeStore, there, none⟩ := waiting sleeps waits
      refine ⟨pid, codeStore, there, fun child awaited zombie => ?_⟩
      have before := (awaited_same f procs proc child pid fun listed => same child (.inr listed)).mp awaited
      exact none child before (gone child (.inr before.1) zombie)
    · obtain ⟨state, waitState, there⟩ := kept proc (.inr listed) isCurrent
      obtain ⟨pid, codeStore, before, none⟩ := inv.waiting proc listed (state ▸ sleeps) (waitState ▸ waits)
      refine ⟨pid, codeStore, there.trans before, fun child awaited zombie => ?_⟩
      have old := (awaited_same f procs proc child pid fun listed => same child (.inr listed)).mp awaited
      exact none child old (gone child (.inr old.1) zombie)

end Touching

section Forks

variable {idle init : P} {f f' : Family P} {kids : P → List P} {phase : P → WaitPhase}

theorem WaitInv.fork (inv : WaitInv idle init f phase) (current proc : P) (pid : Int) (listed : current ∈ f.procList)
    (runs : (f.procs current).state = .runnable) (fresh : ¬ f.InUse idle proc) (forked : Forked idle f kids current proc pid f') :
    WaitInv idle init f' (fun other => if some other = some proc then .outside else phase other) := by
  have old : ∀ other, other ≠ proc → (f'.procs other).state = (f.procs other).state ∧ (f'.procs other).pid = (f.procs other).pid ∧
      ((f'.procs other).waitState = (f.procs other).waitState ∨ other = current ∧ (f'.procs other).waitState = 0) := by
    intro other notProc
    by_cases isCurrent : other = current
    · subst isCurrent
      obtain ⟨state, pidSame, _, _, waits⟩ := unlinked_fields _ _ forked.caller
      exact ⟨state, pidSame, .inr ⟨rfl, waits⟩⟩
    · obtain ⟨state, pidSame, _, _, waits⟩ := unlinked_fields _ _ (forked.others other notProc isCurrent)
      exact ⟨state, pidSame, .inl waits⟩
  have apart : ∀ other, f.InUse idle other → other ≠ proc := fun other inUse same => fresh (same ▸ inUse)
  obtain ⟨freshState, _, _, _, freshWaits⟩ := unlinked_fields _ _ forked.fresh
  have split : ∀ other ∈ f'.procList, other = proc ∨ other ∈ f.procList := by
    intro other member
    rw [forked.listed] at member
    exact List.mem_cons.mp member
  have initOld := apart init (.inr inv.initListed)
  have idleOld := apart idle (.inl rfl)
  refine ⟨⟨_, forked.tree⟩, ?_, ?_, ?_, ?_, ?_, ?_, ?_, ?_⟩
  · rw [forked.listed]
    exact List.mem_cons_of_mem _ inv.initListed
  · exact (forked.parents init initOld).trans inv.initParent
  · rw [(old init initOld).1]
    exact inv.initAlive
  · rw [(old idle idleOld).1]
    exact inv.idleAlive
  · cases (old idle idleOld).2.2 with
    | inl same => exact same.trans inv.idleAwake
    | inr cleared => exact cleared.2
  · intro other member parent ofParent
    cases split other member with
    | inl isProc =>
        subst isProc
        have isCurrent : parent = current := Option.some.inj (ofParent.symm.trans forked.parent)
        subst isCurrent
        have notProc := apart parent (.inr listed)
        refine ⟨notProc, ?_⟩
        rw [(old parent notProc).1, runs]
        decide
    | inr before =>
        rw [forked.parents other (apart other (.inr before))] at ofParent
        obtain ⟨notSelf, parentAlive⟩ := inv.parents other before parent ofParent
        refine ⟨notSelf, ?_⟩
        obtain ⟨oldKids, tree⟩ := inv.tree
        obtain ⟨known, ofKnown, knownUsed⟩ := tree.parented other before
        have isKnown : known = parent := Option.some.inj (ofKnown.symm.trans ofParent)
        rw [(old parent (apart parent (isKnown ▸ knownUsed))).1]
        exact parentAlive
  · intro other member waits
    cases split other member with
    | inl isProc =>
        subst isProc
        exact absurd freshWaits waits
    | inr before =>
        obtain ⟨state, _, waitState⟩ := old other (apart other (.inr before))
        rw [state]
        cases waitState with
        | inl same => exact inv.asleep other before (same ▸ waits)
        | inr cleared => exact absurd cleared.2 waits
  · intro other member sleeps waits
    cases split other member with
    | inl isProc =>
        subst isProc
        rw [freshState] at sleeps
        exact absurd sleeps (by simp [awake])
    | inr before =>
        have notProc := apart other (.inr before)
        obtain ⟨state, _, waitState⟩ := old other notProc
        cases waitState with
        | inr cleared =>
            rw [state, cleared.1, runs] at sleeps
            exact absurd sleeps (by decide)
        | inl same =>
            obtain ⟨waitPid, codeStore, there, none⟩ := inv.waiting other before (state ▸ sleeps) (same ▸ waits)
            refine ⟨waitPid, codeStore, by simp [notProc, there], fun child awaited zombie => ?_⟩
            obtain ⟨childListed, ofOther, matched⟩ := awaited
            cases split child childListed with
            | inl isProc =>
                subst isProc
                rw [freshState] at zombie
                exact absurd zombie (by simp [awake])
            | inr childBefore =>
                have childOld := apart child (.inr childBefore)
                obtain ⟨childState, childPid, _⟩ := old child childOld
                rw [forked.parents child childOld] at ofOther
                rw [childPid] at matched
                exact none child ⟨childBefore, ofOther, matched⟩ (childState ▸ zombie)

theorem WaitInv.fork_fails (inv : WaitInv idle init f phase) (current proc : P) (listed : current ∈ f.procList)
    (runs : (f.procs current).state = .runnable) (fresh : ¬ f.InUse idle proc) (entry : ProcStruct P) :
    WaitInv idle init { f with procs := (f.procs.set proc entry).set current { (f.procs.set proc entry) current with waitState := 0 } } phase := by
  have apart : ∀ other, f.InUse idle other → other ≠ proc := fun other inUse same => fresh (same ▸ inUse)
  have notIdle : current ≠ idle := by
    obtain ⟨kids, tree⟩ := inv.tree
    exact fun same => tree.idleOut (same ▸ listed)
  have here := apart current (.inr listed)
  apply inv.touch current _ phase notIdle
  · intro other inUse
    by_cases isCurrent : other = current
    · subst isCurrent
      simp [SameTree, here]
    · simp [SameTree, isCurrent, apart other inUse]
  · intro other inUse isCurrent
    simp [isCurrent, apart other inUse]
  · rw [runs]
    decide
  · simp [here, runs]
  · simp
  · simp [here, runs]

end Forks

section Exits

variable {idle init current : P} {f f' : Family P} {kids : P → List P} {phase : P → WaitPhase} {errorCode : Int}

theorem waits_nonzero (waitState : BitVec 32) (waits : waitState = wtChild) : waitState ≠ 0 := by
  rw [waits]
  decide

omit [DecidableEq P] in
theorem WaitInv.waits_asleep (inv : WaitInv idle init f phase) (proc : P) (inUse : f.InUse idle proc) : WaitsAsleep (f.procs proc) := by
  intro waits
  cases inUse with
  | inl isIdle => exact absurd (isIdle ▸ inv.idleAwake) (waits_nonzero _ waits)
  | inr listed => exact inv.asleep proc listed (waits_nonzero _ waits)

omit [DecidableEq P] in
theorem WaitInv.may_exit (inv : WaitInv idle init f phase) (current : P) (listed : current ∈ f.procList) (notInit : current ≠ init) :
    MayExit idle init f current := by
  obtain ⟨kids, tree⟩ := inv.tree
  have notIdle : current ≠ idle := fun same => tree.idleOut (same ▸ listed)
  obtain ⟨parent, ofParent, parentUsed⟩ := tree.parented current listed
  have notSelf := (inv.parents current listed parent ofParent).1
  refine ⟨.inr listed, notIdle, notInit, .inr inv.initListed, ?_, ⟨parent, ofParent, notSelf, inv.waits_asleep parent parentUsed⟩,
    inv.waits_asleep init (.inr inv.initListed)⟩
  rw [inv.initParent]
  exact fun same => notIdle (Option.some.inj same).symm

omit [DecidableEq P] in
theorem rewoken_state (entry entry' : ProcStruct P) (quiet : Prop) (asleep : WaitsAsleep entry) (moved : Rewoken entry entry' quiet) :
    (entry'.state = entry.state ∧ entry'.waitState = entry.waitState ∧ (entry.waitState = wtChild → quiet)) ∨
      entry.state = .sleeping ∧ entry'.state = .runnable ∧ entry'.waitState = 0 := by
  cases moved with
  | inl kept =>
      obtain ⟨state, _, _, _, waits⟩ := unlinked_fields _ _ kept.1
      exact .inl ⟨state, waits, kept.2⟩
  | inr woken =>
      obtain ⟨state, _, _, _, waits⟩ := unlinked_fields _ _ woken.2
      exact .inr ⟨asleep woken.1, state, waits⟩

theorem exited_moves (exited : Exited idle init f kids current errorCode f') (inv : WaitInv idle init f phase) (other : P)
    (inUse : f.InUse idle other) (apart : other ≠ current) :
    ((f'.procs other).state = (f.procs other).state ∧ (f'.procs other).waitState = (f.procs other).waitState ∧
        ((f.procs other).waitState = wtChild →
          (f.procs current).parent ≠ some other ∧ (other = init → ∀ proc ∈ kids current, (f.procs proc).state ≠ .zombie))) ∨
      (f.procs other).state = .sleeping ∧ (f'.procs other).state = .runnable ∧ (f'.procs other).waitState = 0 :=
  rewoken_state _ _ _ (inv.waits_asleep other inUse) (exited.others other apart)

theorem WaitInv.exit (inv : WaitInv idle init f phase) (tree : Tree idle f kids) (listed : current ∈ f.procList)
    (runs : (f.procs current).state = .runnable) (notInit : current ≠ init) (exited : Exited idle init f kids current errorCode f') :
    WaitInv idle init f' (Function.update phase current .outside) := by
  have notIdle : current ≠ idle := fun same => tree.idleOut (same ▸ listed)
  have ofCurrent := tree.kidsAre current (.inr listed)
  have notSelf : current ∉ kids current := fun member => (inv.parents current listed current (ofCurrent current |>.mp member).2).1 rfl
  have initElsewhere : init ∉ kids current := by
    intro member
    have ofInit := ((ofCurrent init).mp member).2
    rw [inv.initParent] at ofInit
    exact notIdle (Option.some.inj ofInit).symm
  have moves := fun other inUse apart => exited_moves exited inv other inUse apart
  obtain ⟨goneState, gonePid, _, _, goneWaits⟩ := unlinked_fields _ _ exited.gone
  have awakeBefore : (f.procs current).waitState = 0 := by
    by_contra waits
    have sleeps := inv.asleep current listed waits
    rw [runs] at sleeps
    exact absurd sleeps (by decide)
  have keepsAlive : ∀ other, f.InUse idle other → other ≠ current → (f.procs other).state ≠ .zombie → (f'.procs other).state ≠ .zombie := by
    intro other inUse apart alive
    cases moves other inUse apart with
    | inl kept => rw [kept.1]; exact alive
    | inr woken => rw [woken.2.1]; decide
  refine ⟨⟨_, exited.tree⟩, ?_, ?_, ?_, ?_, ?_, ?_, ?_, ?_⟩
  · rw [exited.listed]
    exact inv.initListed
  · rw [exited.parents init, if_neg initElsewhere]
    exact inv.initParent
  · exact keepsAlive init (.inr inv.initListed) (Ne.symm notInit) inv.initAlive
  · exact keepsAlive idle (.inl rfl) (Ne.symm notIdle) inv.idleAlive
  · cases moves idle (.inl rfl) (Ne.symm notIdle) with
    | inl kept => exact kept.2.1.trans inv.idleAwake
    | inr woken => exact woken.2.2
  · intro other member parent ofParent
    rw [exited.listed] at member
    rw [exited.parents other] at ofParent
    by_cases handed : other ∈ kids current
    · rw [if_pos handed] at ofParent
      have isInit := Option.some.inj ofParent
      subst isInit
      exact ⟨fun same => initElsewhere (same ▸ handed), keepsAlive init (.inr inv.initListed) (Ne.symm notInit) inv.initAlive⟩
    · rw [if_neg handed] at ofParent
      obtain ⟨apart, parentAlive⟩ := inv.parents other member parent ofParent
      have notCurrent : parent ≠ current := fun same => handed ((ofCurrent other).mpr ⟨member, same ▸ ofParent⟩)
      obtain ⟨known, ofKnown, knownUsed⟩ := tree.parented other member
      have isKnown : known = parent := Option.some.inj (ofKnown.symm.trans ofParent)
      exact ⟨apart, keepsAlive parent (isKnown ▸ knownUsed) notCurrent parentAlive⟩
  · intro other member waits
    rw [exited.listed] at member
    by_cases isCurrent : other = current
    · subst isCurrent
      exact absurd (goneWaits.trans awakeBefore) waits
    · cases moves other (.inr member) isCurrent with
      | inl kept =>
          rw [kept.1]
          exact inv.asleep other member (kept.2.1 ▸ waits)
      | inr woken => exact absurd woken.2.2 waits
  · intro other member sleeps waits
    rw [exited.listed] at member
    have isOther : other ≠ current := by
      intro same
      subst same
      rw [goneState] at sleeps
      exact absurd sleeps (by simp)
    cases moves other (.inr member) isOther with
    | inr woken =>
        rw [woken.2.1] at sleeps
        exact absurd sleeps (by decide)
    | inl kept =>
        obtain ⟨state, waitState, quiet⟩ := kept
        have waited := waitState.symm.trans waits
        obtain ⟨notParent, noneHanded⟩ := quiet waited
        obtain ⟨pid, codeStore, there, none⟩ := inv.waiting other member (state ▸ sleeps) waited
        refine ⟨pid, codeStore, by rw [Function.update_of_ne isOther]; exact there, fun child awaited zombie => ?_⟩
        obtain ⟨childListed, ofOther, matched⟩ := awaited
        rw [exited.listed] at childListed
        rw [exited.parents child] at ofOther
        by_cases isCurrent : child = current
        · subst isCurrent
          rw [if_neg notSelf] at ofOther
          exact notParent ofOther
        · have childGone : (f.procs child).state = .zombie := by
            cases moves child (.inr childListed) isCurrent with
            | inl kept => exact kept.1.symm.trans zombie
            | inr woken =>
                rw [woken.2.1] at zombie
                exact absurd zombie (by decide)
          by_cases handed : child ∈ kids current
          · rw [if_pos handed] at ofOther
            exact noneHanded (Option.some.inj ofOther).symm child handed childGone
          · rw [if_neg handed] at ofOther
            rw [rewoken_pid _ _ _ (exited.others child isCurrent)] at matched
            exact none child ⟨childListed, ofOther, matched⟩ childGone

theorem WaitInv.reap (inv : WaitInv idle init f phase) (parent child current : P) (reaped : Reaped idle f kids parent child f')
    (gone : (f.procs child).state = .zombie) (runs : (f.procs current).state = .runnable) :
    WaitInv idle init f' (Function.update phase current .outside) := by
  have notInit : init ≠ child := fun same => inv.initAlive (same ▸ gone)
  have fields := fun other => unlinked_fields _ _ (reaped.frame other).1
  have old : ∀ other ∈ f'.procList, other ∈ f.procList := by
    intro other member
    rw [reaped.listed] at member
    exact List.mem_of_mem_erase member
  refine ⟨⟨_, reaped.tree⟩, ?_, ?_, ?_, ?_, ?_, ?_, ?_, ?_⟩
  · rw [reaped.listed]
    exact (List.mem_erase_of_ne notInit).mpr inv.initListed
  · exact (reaped.frame init).2.trans inv.initParent
  · rw [(fields init).1]
    exact inv.initAlive
  · rw [(fields idle).1]
    exact inv.idleAlive
  · exact (fields idle).2.2.2.2.trans inv.idleAwake
  · intro other member known ofKnown
    rw [(reaped.frame other).2] at ofKnown
    rw [(fields known).1]
    exact inv.parents other (old other member) known ofKnown
  · intro other member waits
    rw [(fields other).2.2.2.2] at waits
    rw [(fields other).1]
    exact inv.asleep other (old other member) waits
  · intro other member sleeps waits
    rw [(fields other).1] at sleeps
    rw [(fields other).2.2.2.2] at waits
    have isOther : other ≠ current := by
      intro same
      rw [same, runs] at sleeps
      exact absurd sleeps (by decide)
    obtain ⟨pid, codeStore, there, none⟩ := inv.waiting other (old other member) sleeps waits
    refine ⟨pid, codeStore, by rw [Function.update_of_ne isOther]; exact there, fun kid awaited => ?_⟩
    obtain ⟨kidListed, ofOther, matched⟩ := awaited
    rw [(reaped.frame kid).2] at ofOther
    rw [(fields kid).2.1] at matched
    rw [(fields kid).1]
    exact none kid ⟨old kid kidListed, ofOther, matched⟩

end Exits

end FamilySystem

end Ucore.Proc
