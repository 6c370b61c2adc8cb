import Ucore.Proc.ChildExit

set_option autoImplicit false

namespace Ucore.Proc

open Ucore.Lib

variable {P : Type} [DecidableEq P]

-- A reap that its zombie's parent made, and that stored the code of its exit.
def Reap.Sound (exits : List (Nat × Int)) (reap : Reap P) : Prop :=
  reap.entry.state = .zombie ∧ reap.entry.parent = some reap.reaper ∧ (reap.serial, reap.entry.exitCode) ∈ exits ∧
    reap.stored = reap.codeStore.map fun place => (place, reap.entry.exitCode)

namespace FamilySystem

-- No process sleeps in do_wait while a child that it waits for is a zombie. No
-- process exits twice, and none is reaped twice.
structure ChildExits (s : FamilySystem P) : Prop where
  noLost : ∀ proc ∈ s.family.procList, (s.family.procs proc).state = .sleeping → (s.family.procs proc).waitState = wtChild →
    ∃ pid codeStore, s.phase proc = .waiting pid codeStore ∧
      ∀ child, Awaited s.family proc pid child → (s.family.procs child).state ≠ .zombie
  exitsOnce : (s.exits.map Prod.fst).Nodup
  reapsOnce : (s.reaps.map Reap.serial).Nodup
  sound : ∀ reap ∈ s.reaps, reap.Sound s.exits

-- How the records of exits and reaps agree with the processes that there are.
structure LogInv (s : FamilySystem P) : Prop where
  apart : ∀ proc ∈ s.family.procList, ∀ other ∈ s.family.procList, s.serial proc = s.serial other → proc = other
  born : ∀ proc ∈ s.family.procList, s.serial proc < s.births
  alive : ∀ proc ∈ s.family.procList, (s.family.procs proc).state ≠ .zombie → s.serial proc ∉ s.exits.map Prod.fst
  gone : ∀ proc ∈ s.family.procList, (s.family.procs proc).state = .zombie → (s.serial proc, (s.family.procs proc).exitCode) ∈ s.exits
  unreaped : ∀ proc ∈ s.family.procList, s.serial proc ∉ s.reaps.map Reap.serial
  exitsBorn : ∀ exit ∈ s.exits, exit.1 < s.births
  reapsBorn : ∀ reap ∈ s.reaps, reap.serial < s.births
  exitsOnce : (s.exits.map Prod.fst).Nodup
  reapsOnce : (s.reaps.map Reap.serial).Nodup
  sound : ∀ reap ∈ s.reaps, reap.Sound s.exits

section Records

variable {idle init current : P} {s : FamilySystem P} {kids : P → List P}

omit [DecidableEq P] in
theorem LogInv.congr (log : LogInv s) (family : Family P) (phase : P → WaitPhase) (listed : family.procList = s.family.procList)
    (same : ∀ proc ∈ s.family.procList, ((family.procs proc).state = .zombie ↔ (s.family.procs proc).state = .zombie) ∧
      (family.procs proc).exitCode = (s.family.procs proc).exitCode) : LogInv { s with family := family, phase := phase } where
  apart := by
    intro proc member other otherMember equal
    exact log.apart proc (listed ▸ member) other (listed ▸ otherMember) equal
  born := fun proc member => log.born proc (listed ▸ member)
  alive := by
    intro proc member alive
    exact log.alive proc (listed ▸ member) fun gone => alive ((same proc (listed ▸ member)).1.mpr gone)
  gone := by
    intro proc member gone
    have record := log.gone proc (listed ▸ member) ((same proc (listed ▸ member)).1.mp gone)
    simp only [(same proc (listed ▸ member)).2]
    exact record
  unreaped := fun proc member => log.unreaped proc (listed ▸ member)
  exitsBorn := log.exitsBorn
  reapsBorn := log.reapsBorn
  exitsOnce := log.exitsOnce
  reapsOnce := log.reapsOnce
  sound := log.sound

theorem LogInv.fork (log : LogInv s) (proc : P) (pid : Int) (family : Family P) (phase : P → WaitPhase) (fresh : ¬ s.family.InUse idle proc)
    (forked : Forked idle s.family kids current proc pid family) :
    LogInv { s with
      family := family
      phase := phase
      serial := fun other => if some other = some proc then s.births else s.serial other
      births := s.births + 1 } := by
  have split : ∀ other ∈ family.procList, other = proc ∨ other ≠ proc ∧ other ∈ s.family.procList := by
    intro other member
    rw [forked.listed] at member
    cases List.mem_cons.mp member with
    | inl same => exact .inl same
    | inr old => exact .inr ⟨fun same => fresh (.inr (same ▸ old)), old⟩
  have old : ∀ other, other ≠ proc → (family.procs other).state = (s.family.procs other).state ∧
      (family.procs other).exitCode = (s.family.procs other).exitCode := by
    intro other notProc
    by_cases isCurrent : other = current
    · subst isCurrent
      obtain ⟨state, _, _, exitCode, _⟩ := unlinked_fields _ _ forked.caller
      exact ⟨state, exitCode⟩
    · obtain ⟨state, _, _, exitCode, _⟩ := unlinked_fields _ _ (forked.others other notProc isCurrent)
      exact ⟨state, exitCode⟩
  have freshState : (family.procs proc).state = .runnable := (unlinked_fields _ _ forked.fresh).1
  refine ⟨?_, ?_, ?_, ?_, ?_, ?_, ?_, log.exitsOnce, log.reapsOnce, log.sound⟩
  · intro first firstMember second secondMember equal
    cases split first firstMember with
    | inl isFirst =>
        cases split second secondMember with
        | inl isSecond => exact isFirst.trans isSecond.symm
        | inr secondOld =>
            simp only [isFirst, if_true, Option.some.injEq, secondOld.1, if_false] at equal
            exact absurd equal (Nat.ne_of_gt (log.born second secondOld.2))
    | inr firstOld =>
        cases split second secondMember with
        | inl isSecond =>
            simp only [isSecond, if_true, Option.some.injEq, firstOld.1, if_false] at equal
            exact absurd equal (Nat.ne_of_lt (log.born first firstOld.2))
        | inr secondOld =>
            simp only [Option.some.injEq, firstOld.1, secondOld.1, if_false] at equal
            exact log.apart first firstOld.2 second secondOld.2 equal
  · intro other member
    cases split other member with
    | inl isProc => simp [isProc]
    | inr before => simpa [before.1] using Nat.lt_succ_of_lt (log.born other before.2)
  · intro other member alive
    cases split other member with
    | inl isProc =>
        simp only [isProc, if_true]
        intro record
        obtain ⟨exit, recorded, serial⟩ := List.mem_map.mp record
        exact absurd serial (Nat.ne_of_lt (log.exitsBorn exit recorded))
    | inr before =>
        simp only [Option.some.injEq, before.1, if_false]
        rw [(old other before.1).1] at alive
        exact log.alive other before.2 alive
  · intro other member gone
    cases split other member with
    | inl isProc =>
        rw [isProc, freshState] at gone
        exact absurd gone (by decide)
    | inr before =>
        simp only [Option.some.injEq, before.1, if_false, (old other before.1).2]
        exact log.gone other before.2 ((old other before.1).1.symm.trans gone)
  · intro other member
    cases split other member with
    | inl isProc =>
        simp only [isProc, if_true]
        intro record
        obtain ⟨reap, recorded, serial⟩ := List.mem_map.mp record
        exact absurd serial (Nat.ne_of_lt (log.reapsBorn reap recorded))
    | inr before =>
        simp only [Option.some.injEq, before.1, if_false]
        exact log.unreaped other before.2
  · exact fun exit recorded => Nat.lt_succ_of_lt (log.exitsBorn exit recorded)
  · exact fun reap recorded => Nat.lt_succ_of_lt (log.reapsBorn reap recorded)

omit [DecidableEq P] in
theorem reap_sound_more (exits : List (Nat × Int)) (exit : Nat × Int) (reap : Reap P) (sound : reap.Sound exits) : reap.Sound (exit :: exits) := by
  obtain ⟨gone, parent, recorded, stored⟩ := sound
  exact ⟨gone, parent, List.mem_cons_of_mem _ recorded, stored⟩

theorem LogInv.exit (log : LogInv s) (inv : WaitInv idle init s.family s.phase) (errorCode : Int) (family : Family P) (phase : P → WaitPhase)
    (listed : current ∈ s.family.procList) (runs : (s.family.procs current).state = .runnable)
    (exited : Exited idle init s.family kids current errorCode family) :
    LogInv { s with family := family, phase := phase, exits := (s.serial current, errorCode) :: s.exits } := by
  have old : ∀ other ∈ s.family.procList, other ≠ current → ((family.procs other).state = .zombie ↔ (s.family.procs other).state = .zombie) ∧
      (family.procs other).exitCode = (s.family.procs other).exitCode := by
    intro other member apart
    constructor
    · cases exited_moves exited inv other (.inr member) apart with
      | inl kept => rw [kept.1]
      | inr woken => simp [woken.1, woken.2.1]
    · cases exited.others other apart with
      | inl kept => exact (unlinked_fields _ _ kept.1).2.2.2.1
      | inr woken => exact (unlinked_fields _ _ woken.2).2.2.2.1
  obtain ⟨goneState, _, _, goneCode, _⟩ := unlinked_fields _ _ exited.gone
  have notExited : s.serial current ∉ s.exits.map Prod.fst := by
    apply log.alive current listed
    rw [runs]
    decide
  refine ⟨?_, ?_, ?_, ?_, ?_, ?_, log.reapsBorn, ?_, log.reapsOnce, ?_⟩
  · intro first firstMember second secondMember equal
    exact log.apart first (exited.listed ▸ firstMember) second (exited.listed ▸ secondMember) equal
  · exact fun other member => log.born other (exited.listed ▸ member)
  · intro other member alive
    have before := exited.listed ▸ member
    by_cases isCurrent : other = current
    · subst isCurrent
      exact absurd goneState alive
    · simp only [List.map_cons, List.mem_cons, not_or]
      refine ⟨fun same => isCurrent (log.apart other before current listed same), ?_⟩
      exact log.alive other before fun gone => alive ((old other before isCurrent).1.mpr gone)
  · intro other member gone
    have before := exited.listed ▸ member
    by_cases isCurrent : other = current
    · subst isCurrent
      simp [goneCode]
    · simp only [(old other before isCurrent).2]
      exact List.mem_cons_of_mem _ (log.gone other before ((old other before isCurrent).1.mp gone))
  · exact fun other member => log.unreaped other (exited.listed ▸ member)
  · intro exit recorded
    cases List.mem_cons.mp recorded with
    | inl same =>
        subst same
        exact log.born current listed
    | inr before => exact log.exitsBorn exit before
  · exact List.nodup_cons.mpr ⟨notExited, log.exitsOnce⟩
  · exact fun reap recorded => reap_sound_more s.exits _ reap (log.sound reap recorded)

theorem LogInv.reap (log : LogInv s) (distinct : s.family.procList.Nodup) (child : P) (codeStore : Option Nat) (family : Family P)
    (phase : P → WaitPhase) (listed : child ∈ s.family.procList) (gone : (s.family.procs child).state = .zombie)
    (ofCurrent : (s.family.procs child).parent = some current) (reaped : Reaped idle s.family kids current child family) :
    LogInv { s with
      family := family
      phase := phase
      reaps := ⟨current, child, s.serial child, s.family.procs child, codeStore,
        codeStore.map fun place => (place, (s.family.procs child).exitCode)⟩ :: s.reaps } := by
  have old : ∀ other ∈ family.procList, other ≠ child ∧ other ∈ s.family.procList := by
    intro other member
    rw [reaped.listed] at member
    exact distinct.mem_erase_iff.mp member
  have fields := fun other => unlinked_fields _ _ (reaped.frame other).1
  refine ⟨?_, ?_, ?_, ?_, ?_, log.exitsBorn, ?_, log.exitsOnce, ?_, ?_⟩
  · intro first firstMember second secondMember equal
    exact log.apart first (old first firstMember).2 second (old second secondMember).2 equal
  · exact fun other member => log.born other (old other member).2
  · intro other member alive
    rw [(fields other).1] at alive
    exact log.alive other (old other member).2 alive
  · intro other member dead
    rw [(fields other).1] at dead
    simp only [(fields other).2.2.2.1]
    exact log.gone other (old other member).2 dead
  · intro other member
    obtain ⟨apart, before⟩ := old other member
    simp only [List.map_cons, List.mem_cons, not_or]
    exact ⟨fun same => apart (log.apart other before child listed same), log.unreaped other before⟩
  · intro reap recorded
    cases List.mem_cons.mp recorded with
    | inl same =>
        subst same
        exact log.born child listed
    | inr before => exact log.reapsBorn reap before
  · exact List.nodup_cons.mpr ⟨log.unreaped child listed, log.reapsOnce⟩
  · intro reap recorded
    cases List.mem_cons.mp recorded with
    | inl same =>
        subst same
        exact ⟨gone, ofCurrent, log.gone child listed gone, rfl⟩
    | inr before => exact log.sound reap before

end Records

structure FamilyInv (idle init : P) (s : FamilySystem P) : Prop where
  places : WaitInv idle init s.family s.phase
  log : LogInv s

section Steps

variable {idle init current : P} {s : FamilySystem P}

omit [DecidableEq P] in
theorem FamilyInv.running_waits (inv : FamilyInv idle init s) (runs : s.Runs current) : (s.family.procs current).waitState = 0 := by
  by_contra waits
  have sleeps := inv.places.asleep current runs.1 waits
  rw [runs.2] at sleeps
  exact absurd sleeps (by decide)

omit [DecidableEq P] in
theorem FamilyInv.not_idle (inv : FamilyInv idle init s) (proc : P) (listed : proc ∈ s.family.procList) : proc ≠ idle := by
  obtain ⟨kids, tree⟩ := inv.places.tree
  exact fun same => tree.idleOut (same ▸ listed)

-- A step that gives one process another state and another phase, alive before
-- and afterwards.
theorem FamilyInv.touch (inv : FamilyInv idle init s) (proc : P) (entry : ProcStruct P) (phase : P → WaitPhase)
    (listed : proc ∈ s.family.procList) (same : SameTree (s.family.procs proc) entry) (exitCode : entry.exitCode = (s.family.procs proc).exitCode)
    (elsewhere : ∀ other, other ≠ proc → phase other = s.phase other) (alive : (s.family.procs proc).state ≠ .zombie)
    (alive' : entry.state ≠ .zombie) (asleep : entry.waitState ≠ 0 → entry.state = .sleeping)
    (waiting : entry.state = .sleeping → entry.waitState = wtChild → ∃ pid codeStore, phase proc = .waiting pid codeStore ∧
      ∀ child, Awaited s.family proc pid child → (s.family.procs child).state ≠ .zombie) :
    FamilyInv idle init { s with family := { s.family with procs := s.family.procs.set proc entry }, phase := phase } where
  places := by
    apply inv.places.touch proc _ phase (inv.not_idle proc listed)
    · intro other inUse
      by_cases here : other = proc
      · subst here
        rw [Procs.set_here]
        exact same
      · rw [Procs.set_other _ _ _ _ here]
        exact ⟨rfl, rfl, rfl, rfl, rfl⟩
    · intro other inUse here
      rw [Procs.set_other _ _ _ _ here]
      exact ⟨rfl, rfl, elsewhere other here⟩
    · exact alive
    · rwa [Procs.set_here]
    · rwa [Procs.set_here]
    · rwa [Procs.set_here]
  log := by
    apply inv.log.congr { s.family with procs := s.family.procs.set proc entry } phase rfl
    intro other member
    by_cases here : other = proc
    · subst here
      simp only [Procs.set_here]
      exact ⟨⟨fun gone => absurd gone alive', fun gone => absurd gone alive⟩, exitCode⟩
    · simp only [Procs.set_other _ _ _ _ here]
      exact ⟨trivial, trivial⟩

theorem fork_inv (inv : FamilyInv idle init s) (proc : Option P) (ready : Bool) (runs : s.Runs current)
    (fresh : ∀ given ∈ proc, given ≠ idle ∧ given ∉ s.family.procList) :
    ∃ next, s.call idle init (.fork current proc ready) = .ok next ∧ FamilyInv idle init next := by
  have fails : ∀ ret : Int, ¬ 0 < ret → ∀ family, s.family.doFork current proc ready = .ok (ret, family) →
      FamilyInv idle init { s with family := family } →
      ∃ next, s.call idle init (.fork current proc ready) = .ok next ∧ FamilyInv idle init next := by
    intro ret negative family returns kept
    exact ⟨_, by simp only [call, returns, ok_bind, if_neg negative]; rfl, kept⟩
  by_cases room : maxProcess ≤ s.family.nrProcess
  · exact fails eNoFreeProc (by decide) s.family (by simp [Family.doFork, room]) inv
  · cases proc with
    | none => exact fails eNoMem (by decide) s.family (by simp [Family.doFork, room]) inv
    | some given =>
        obtain ⟨notIdle, unlisted⟩ := fresh given rfl
        have unused : ¬ s.family.InUse idle given := fun inUse => inUse.elim notIdle unlisted
        cases ready with
        | false =>
            apply fails eNoMem (by decide) _ (by simp only [Family.doFork, if_neg room, Bool.false_eq_true, if_false]; rfl)
            refine ⟨inv.places.fork_fails current given runs.1 runs.2 unused _, inv.log.congr _ _ rfl ?_⟩
            intro other member
            have apart : other ≠ given := fun same => unlisted (same ▸ member)
            by_cases isCurrent : other = current
            · subst isCurrent
              simp [apart]
            · simp [isCurrent, apart]
        | true =>
            obtain ⟨kids, tree⟩ := inv.places.tree
            obtain ⟨pid, family, returns, positive, forked⟩ := tree.fork_spec current given (.inr runs.1) unused (Int.not_le.mp room)
            refine ⟨_, by simp only [call, returns, ok_bind, if_pos positive]; rfl, ?_, ?_⟩
            · exact inv.places.fork current given pid runs.1 runs.2 unused forked
            · exact inv.log.fork given pid family _ unused forked

theorem exit_inv (inv : FamilyInv idle init s) (errorCode : Int) (runs : s.Runs current) (notInit : current ≠ init) :
    ∃ next, s.call idle init (.exit current errorCode) = .ok next ∧ FamilyInv idle init next := by
  obtain ⟨kids, tree⟩ := inv.places.tree
  obtain ⟨family, returns, exited⟩ := tree.exit_spec current errorCode (inv.places.may_exit current runs.1 notInit)
  refine ⟨_, by simp only [call, returns, ok_bind]; rfl, ?_, ?_⟩
  · exact inv.places.exit tree runs.1 runs.2 notInit exited
  · exact inv.log.exit inv.places errorCode family _ runs.1 runs.2 exited

theorem wait_inv (inv : FamilyInv idle init s) (pid : Int) (codeStore : Option Nat) (runs : s.Runs current) :
    ∃ next, s.waitStep idle init current pid codeStore = .ok next ∧ FamilyInv idle init next := by
  obtain ⟨kids, tree⟩ := inv.places.tree
  obtain ⟨result, scanned, found⟩ := tree.wait_spec current pid (.inr runs.1)
  have alive : (s.family.procs current).state ≠ .zombie := by
    rw [runs.2]
    decide
  cases result with
  | noKid =>
      refine ⟨_, by simp only [waitStep, scanned, ok_bind]; rfl, ?_⟩
      have quiet := inv.running_waits runs
      have kept := inv.touch current (s.family.procs current) (Function.update s.phase current .outside) runs.1 ⟨rfl, rfl, rfl, rfl, rfl⟩ rfl
        (fun other apart => Function.update_of_ne apart _ _) alive alive (fun waits => absurd quiet waits) (fun sleeps => by
          rw [runs.2] at sleeps
          exact absurd sleeps (by decide))
      have same : s.family.procs.set current (s.family.procs current) = s.family.procs := by simp [Procs.set]
      rw [same] at kept
      exact kept
  | hasKid =>
      refine ⟨_, by simp only [waitStep, scanned, ok_bind]; rfl, ?_⟩
      apply inv.touch current { s.family.procs current with state := .sleeping, waitState := wtChild }
        (Function.update s.phase current (.waiting pid codeStore)) runs.1 ⟨rfl, rfl, rfl, rfl, rfl⟩ rfl
        (fun other apart => Function.update_of_ne apart _ _) alive
      · simp
      · exact fun _ => rfl
      · exact fun _ _ => ⟨pid, codeStore, Function.update_self _ _ _, found⟩
  | found child =>
      obtain ⟨⟨listed, ofCurrent, _⟩, gone⟩ := found
      have noKids : kids child = [] := by
        by_contra some
        obtain ⟨kid, member⟩ := List.exists_mem_of_ne_nil _ some
        obtain ⟨kidListed, ofChild⟩ := (tree.kidsAre child (.inr listed) kid).mp member
        exact (inv.places.parents kid kidListed child ofChild).2 gone
      have notInit : child ≠ init := fun same => inv.places.initAlive (same ▸ gone)
      obtain ⟨family, returns, reaped⟩ :=
        tree.reap_spec current child listed ofCurrent (.inr runs.1) noKids (inv.not_idle child listed) notInit
      refine ⟨_, by simp only [waitStep, scanned, ok_bind, returns]; rfl, ?_, ?_⟩
      · exact inv.places.reap current child current reaped gone runs.2
      · exact inv.log.reap tree.distinct child codeStore family _ listed gone ofCurrent reaped

theorem resume_inv (inv : FamilyInv idle init s) (runs : s.Runs current) :
    ∃ next, s.call idle init (.resume current) = .ok next ∧ FamilyInv idle init next := by
  cases there : s.phase current with
  | outside => exact ⟨s, by simp [call, there], inv⟩
  | dying errorCode => exact ⟨s, by simp [call, there], inv⟩
  | waiting pid codeStore =>
      by_cases killed : (s.family.procs current).exiting = true
      · refine ⟨_, by simp only [call, there, if_pos killed]; rfl, ?_⟩
        have alive : (s.family.procs current).state ≠ .zombie := by
          rw [runs.2]
          decide
        have quiet := inv.running_waits runs
        have kept := inv.touch current (s.family.procs current) (Function.update s.phase current (.dying eKilled)) runs.1
          ⟨rfl, rfl, rfl, rfl, rfl⟩ rfl (fun other apart => Function.update_of_ne apart _ _) alive alive (fun waits => absurd quiet waits)
          (fun sleeps => by
            rw [runs.2] at sleeps
            exact absurd sleeps (by decide))
        have same : s.family.procs.set current (s.family.procs current) = s.family.procs := by simp [Procs.set]
        rw [same] at kept
        exact kept
      · obtain ⟨next, returns, kept⟩ := wait_inv inv pid codeStore runs
        exact ⟨next, by simp only [call, there, if_neg killed]; exact returns, kept⟩

-- The flag PF_EXITING alone, also of a zombie.
theorem FamilyInv.mark (inv : FamilyInv idle init s) (proc : P) :
    FamilyInv idle init { s with
      family := { s.family with procs := s.family.procs.set proc { s.family.procs proc with exiting := true } } } where
  places := by
    apply inv.places.touch init _ s.phase (inv.not_idle init inv.places.initListed)
    · intro other _
      by_cases here : other = proc <;> simp [SameTree, here]
    · intro other _ _
      by_cases here : other = proc <;> simp [here]
    · exact inv.places.initAlive
    · by_cases here : init = proc
      · rw [here, Procs.set_here]
        exact here ▸ inv.places.initAlive
      · rw [Procs.set_other _ _ _ _ here]
        exact inv.places.initAlive
    · have asleep := inv.places.asleep init inv.places.initListed
      by_cases here : init = proc
      · subst here
        simpa using asleep
      · rwa [Procs.set_other _ _ _ _ here]
    · have waiting := inv.places.waiting init inv.places.initListed
      by_cases here : init = proc
      · subst here
        simpa using waiting
      · rwa [Procs.set_other _ _ _ _ here]
  log := by
    apply inv.log.congr { s.family with procs := s.family.procs.set proc { s.family.procs proc with exiting := true } } s.phase rfl
    intro other _
    by_cases here : other = proc <;> simp [here]

theorem FamilyInv.awaken (inv : FamilyInv idle init s) (proc : P) (listed : proc ∈ s.family.procList)
    (sleeps : (s.family.procs proc).state = .sleeping) :
    FamilyInv idle init { s with family := { s.family with procs := s.family.procs.set proc (awake (s.family.procs proc)) } } := by
  apply inv.touch proc (awake (s.family.procs proc)) s.phase listed ⟨rfl, rfl, rfl, rfl, rfl⟩ rfl (fun _ _ => rfl)
  · rw [sleeps]
    decide
  · simp [awake]
  · exact fun waits => absurd rfl waits
  · intro still
    exact absurd still (by simp [awake])

theorem kill_inv (inv : FamilyInv idle init s) (pid : Int) :
    ∃ next, s.call idle init (.kill current pid) = .ok next ∧ FamilyInv idle init next := by
  obtain ⟨kids, tree⟩ := inv.places.tree
  cases found : s.family.findProc pid with
  | none => exact ⟨s, by simp [call, found], inv⟩
  | some proc =>
      obtain ⟨listed, _⟩ := (tree.find_proc_spec pid proc).mp found
      by_cases killed : (s.family.procs proc).exiting = true
      · exact ⟨s, by simp [call, found, killProc, killed], inv⟩
      · have marked := inv.mark proc
        by_cases wakes : interruptible (s.family.procs proc).waitState = true
        · have waits : (s.family.procs proc).waitState ≠ 0 := by
            intro zero
            rw [zero] at wakes
            exact absurd wakes (by decide)
          have sleeps := inv.places.asleep proc listed waits
          have woken := marked.awaken proc listed (by simpa using sleeps)
          refine ⟨_, ?_, woken⟩
          simp [call, found, killProc, killed, wakes, wakeupState, sleeps, Except.map, awake]
        · refine ⟨_, ?_, marked⟩
          simp [call, found, killProc, killed, wakes]

theorem block_inv (inv : FamilyInv idle init s) (waitState : BitVec 32) (runs : s.Runs current) (other : waitState ≠ wtChild) :
    ∃ next, s.call idle init (.block current waitState) = .ok next ∧ FamilyInv idle init next := by
  refine ⟨_, rfl, ?_⟩
  apply inv.touch current { s.family.procs current with state := .sleeping, waitState := waitState } s.phase runs.1
    ⟨rfl, rfl, rfl, rfl, rfl⟩ rfl (fun _ _ => rfl)
  · rw [runs.2]
    decide
  · simp
  · exact fun _ => rfl
  · exact fun _ waits => absurd waits other

theorem wake_inv (inv : FamilyInv idle init s) (proc : P) (listed : proc ∈ s.family.procList)
    (sleeps : (s.family.procs proc).state = .sleeping) :
    ∃ next, s.call idle init (.wake proc) = .ok next ∧ FamilyInv idle init next := by
  refine ⟨_, ?_, inv.awaken proc listed sleeps⟩
  simp [call, wakeupState, sleeps, awake]

-- A step that is enabled returns, but for an exit of initproc, which panics.
theorem call_inv (inv : FamilyInv idle init s) (event : FamilyCall P) (enabled : s.Enabled idle event)
    (survives : ∀ errorCode, event ≠ .exit init errorCode) :
    ∃ next, s.call idle init event = .ok next ∧ FamilyInv idle init next := by
  cases event with
  | fork current proc ready => exact fork_inv inv proc ready enabled.1 enabled.2.2
  | exit current errorCode =>
      have notInit : current ≠ init := by
        intro same
        subst same
        exact survives errorCode rfl
      exact exit_inv inv errorCode enabled.1 notInit
  | wait current pid codeStore valid =>
      by_cases bad : codeStore.isSome = true ∧ ¬ valid = true
      · exact ⟨s, by simp only [call, if_pos bad], inv⟩
      · obtain ⟨next, returns, kept⟩ := wait_inv inv pid codeStore enabled.1
        exact ⟨next, by simp only [call, if_neg bad]; exact returns, kept⟩
  | resume current => exact resume_inv inv enabled.1
  | kill current pid => exact kill_inv inv pid
  | block current waitState => exact block_inv inv waitState enabled.1 enabled.2.2.2
  | wake proc => exact wake_inv inv proc enabled.1 enabled.2.1

theorem step_inv (inv : FamilyInv idle init s) (event : FamilyCall P) (next : FamilySystem P) (enabled : s.Enabled idle event)
    (taken : s.step idle init event = some next) : FamilyInv idle init next := by
  by_cases panics : ∃ errorCode, event = .exit init errorCode
  · obtain ⟨errorCode, same⟩ := panics
    subst same
    have stops : s.family.doExit idle init init errorCode = .error .panic := by
      have notIdle := inv.not_idle init inv.places.initListed
      simp [Family.doExit, notIdle]
    simp [step, call, stops] at taken
  · obtain ⟨reached, returns, kept⟩ := call_inv inv event enabled fun errorCode same => panics ⟨errorCode, same⟩
    simp only [step, returns, Option.some.injEq] at taken
    exact taken ▸ kept

end Steps

section Booting

variable {idle init : P}

-- idleproc alone, before it creates initproc.
def idleFamily (procs : Procs P) (idle : P) : Family P :=
  ⟨procs.set idle { allocProc with pid := 0, state := .runnable, needResched := true }, [], [], 1, maxPid, maxPid⟩

theorem idle_tree (procs : Procs P) (idle : P) : Tree idle (idleFamily procs idle) (fun _ => []) where
  idleOut := by simp [idleFamily]
  distinct := by simp [idleFamily]
  hashed := by simp [idleFamily]
  counted := by simp [idleFamily]
  pids := by simp [idleFamily]
  pidsApart := by simp [idleFamily]
  window := by simp [idleFamily]
  last := by
    show (1 : Int) ≤ maxPid
    decide
  safe := le_refl maxPid
  chains := by
    refine ⟨?_, by simp, by simp⟩
    intro parent inUse
    have isIdle : parent = idle := inUse.resolve_right (by simp [idleFamily])
    subst isIdle
    exact ⟨none, fun _ => rfl, by simp [Chain, idleFamily, allocProc]⟩
  kidsAre := by simp [idleFamily]
  parented := by simp [idleFamily]

theorem boot_inv (procs : Procs P) (apart : idle ≠ init) (family : Family P) (booted : Family.procInit procs idle init = .ok family) :
    FamilyInv idle init (boot family) := by
  have fresh : ¬ (idleFamily procs idle).InUse idle init := by
    intro inUse
    cases inUse with
    | inl same => exact apart same.symm
    | inr listed => simp [idleFamily] at listed
  obtain ⟨pid, created, returns, _, forked⟩ := (idle_tree procs idle).fork_spec idle init (.inl rfl) fresh (by
    show (1 : Int) < maxProcess
    decide)
  have same : created = family := by
    have unfolded : Family.procInit procs idle init = ((idleFamily procs idle).doFork idle (some init) true >>= fun result => pure result.2) := rfl
    rw [unfolded, returns] at booted
    exact Except.ok.inj booted
  subst same
  have only : ∀ proc ∈ created.procList, proc = init := by
    intro proc listed
    rw [forked.listed] at listed
    simpa [idleFamily] using listed
  obtain ⟨initState, _, _, _, initWaits⟩ := unlinked_fields _ _ forked.fresh
  obtain ⟨idleState, _, _, _, idleWaits⟩ := unlinked_fields _ _ forked.caller
  have idleRuns : (created.procs idle).state = .runnable := by
    rw [idleState]
    simp [idleFamily]
  have initRuns : (created.procs init).state = .runnable := initState
  constructor
  · refine ⟨⟨_, forked.tree⟩, by simp [boot, forked.listed], forked.parent, ?_, ?_, idleWaits, ?_, ?_, ?_⟩
    · show (created.procs init).state ≠ .zombie
      rw [initRuns]
      decide
    · show (created.procs idle).state ≠ .zombie
      rw [idleRuns]
      decide
    · intro proc listed parent ofParent
      have isInit := only proc listed
      subst isInit
      have isIdle : idle = parent := Option.some.inj (forked.parent.symm.trans ofParent)
      subst isIdle
      refine ⟨apart, ?_⟩
      show (created.procs idle).state ≠ .zombie
      rw [idleRuns]
      decide
    · intro proc listed waits
      have isInit := only proc listed
      subst isInit
      exact absurd initWaits waits
    · intro proc listed sleeps
      have isInit := only proc listed
      subst isInit
      exact absurd (initRuns.symm.trans sleeps) (by decide)
  · refine ⟨?_, ?_, ?_, ?_, ?_, ?_, ?_, ?_, ?_, ?_⟩
    · exact fun proc listed other otherListed _ => (only proc listed).trans (only other otherListed).symm
    · exact fun _ _ => Nat.one_pos
    · simp [boot]
    · intro proc listed gone
      have isInit := only proc listed
      subst isInit
      exact absurd (initRuns.symm.trans gone) (by decide)
    all_goals simp [boot]

-- However forks, exits, waits and kills follow each other, no exit of a child is
-- lost, and every zombie is reaped once, by its parent and with its exit code.
theorem no_lost_exit (procs : Procs P) (apart : idle ≠ init) (family : Family P) (booted : Family.procInit procs idle init = .ok family)
    (events : List (FamilyCall P)) (final : FamilySystem P) (met : Throughout (step idle init) (Enabled idle) (boot family) events)
    (ran : run (step idle init) (boot family) events = some final) : final.ChildExits := by
  have inv := run_invariant (step idle init) (Enabled idle) (FamilyInv idle init)
    (fun s event next inv enabled taken => step_inv inv event next enabled taken) events (boot family) final
    (boot_inv procs apart family booted) met ran
  exact ⟨inv.places.waiting, inv.log.exitsOnce, inv.log.reapsOnce, inv.log.sound⟩

-- initproc waits for any child while its grandchild becomes a zombie of its child,
-- which exits then.
def familyCalls : List (FamilyCall (Fin 4)) :=
  [.fork 1 (some 2) true, .fork 2 (some 3) true, .wait 1 0 (some 64) true, .exit 3 7, .exit 2 5, .resume 1, .wait 1 0 none true,
    .kill 1 2, .wait 1 0 none true]

theorem no_lost_exit_three : ∃ family final, Family.procInit (fun _ : Fin 4 => allocProc) 0 1 = .ok family ∧
    run (step 0 1) (boot family) familyCalls = some final ∧ final.ChildExits := by
  have boots : (Family.procInit (fun _ : Fin 4 => allocProc) 0 1).toOption.isSome = true := by decide +kernel
  cases booted : Family.procInit (fun _ : Fin 4 => allocProc) 0 1 with
  | error fault => simp [booted, Except.toOption] at boots
  | ok family =>
      have checked : ((Family.procInit (fun _ : Fin 4 => allocProc) 0 1).toOption.map fun family =>
          decide (Throughout (step 0 1) (Enabled 0) (boot family) familyCalls) &&
            (run (step 0 1) (boot family) familyCalls).isSome) = some true := by decide +kernel
      rw [booted] at checked
      simp only [Except.toOption, Option.map_some, Option.some.injEq, Bool.and_eq_true, decide_eq_true_eq] at checked
      obtain ⟨met, returns⟩ := checked
      obtain ⟨final, ran⟩ := Option.isSome_iff_exists.mp returns
      exact ⟨family, final, rfl, ran, no_lost_exit (fun _ => allocProc) (by decide) family booted familyCalls final met ran⟩

end Booting

end FamilySystem

end Ucore.Proc
