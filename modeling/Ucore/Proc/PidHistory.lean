import Ucore.Proc.ProcTables

set_option autoImplicit false

namespace Ucore.Proc

open Ucore.Lib

-- What get_pid works on: the pids of the processes on proc_list from its head on,
-- and the two static variables.
structure PidTable where
  pids : List Int
  lastPid : Int
  nextSafe : Int
deriving DecidableEq, Repr

-- fork is get_pid with set_links after it, and reap is remove_links. order lists
-- the same processes in another order.
inductive PidEvent where
  | fork
  | reap (pid : Int)
  | order (pids : List Int)

namespace PidTable

def step (t : PidTable) : PidEvent → Option PidTable
  | .fork =>
      match getPid t.pids t.lastPid t.nextSafe with
      | .ok (lastPid, nextSafe) => some ⟨lastPid :: t.pids, lastPid, nextSafe⟩
      | .error _ => none
  | .reap pid => some { t with pids := t.pids.erase pid }
  | .order pids => some { t with pids := pids }

def Enabled (t : PidTable) : PidEvent → Prop
  | .fork => (t.pids.length : Int) < maxPid - 1
  | .reap pid => pid ∈ t.pids
  | .order pids => pids.Perm t.pids

instance (t : PidTable) (event : PidEvent) : Decidable (t.Enabled event) := by
  cases event <;> unfold Enabled <;> infer_instance

def boot : PidTable := ⟨[], maxPid, maxPid⟩

structure Inv (t : PidTable) : Prop where
  last : 1 ≤ t.lastPid
  safe : t.nextSafe ≤ maxPid
  window : ∀ pid ∈ t.pids, pid ≤ t.lastPid ∨ t.nextSafe ≤ pid
  range : ∀ pid ∈ t.pids, 1 ≤ pid ∧ pid < maxPid
  distinct : t.pids.Nodup

-- No two processes share a pid, none has one strictly between last_pid and
-- next_safe, and get_pid finds an unused one in whatever order it meets them.
structure Sound (t : PidTable) : Prop where
  apart : t.pids.Nodup
  between : ∀ pid ∈ t.pids, ¬ (t.lastPid < pid ∧ pid < t.nextSafe)
  unused : ∀ order : List Int, order.Perm t.pids → (order.length : Int) < maxPid - 1 →
    ∃ pid nextSafe, getPid order t.lastPid t.nextSafe = .ok (pid, nextSafe) ∧ 1 ≤ pid ∧ pid < maxPid ∧ pid ∉ t.pids

theorem free_pid_unused (pids : List Int) (pid nextSafe : Int) (free : FreePid pids pid nextSafe) : pid ∉ pids := by
  obtain ⟨_, below, _, clear⟩ := free
  intro member
  have outside := clear pid member
  omega

theorem boot_inv : boot.Inv where
  last := by decide
  safe := le_refl _
  window := fun pid member => absurd member List.not_mem_nil
  range := fun pid member => absurd member List.not_mem_nil
  distinct := List.nodup_nil

theorem Inv.sound {t : PidTable} (inv : t.Inv) : t.Sound where
  apart := inv.distinct
  between := by
    intro pid member
    have outside := inv.window pid member
    omega
  unused := by
    intro order same few
    have clear : ∀ pid ∈ order, pid ≤ t.lastPid ∨ t.nextSafe ≤ pid := fun pid member => inv.window pid (same.mem_iff.mp member)
    obtain ⟨pid, nextSafe, found, free⟩ := get_pid_spec order t.lastPid t.nextSafe few inv.last inv.safe clear
    refine ⟨pid, nextSafe, found, free.1, lt_of_lt_of_le free.2.1 free.2.2.1, ?_⟩
    exact fun member => free_pid_unused order pid nextSafe free (same.mem_iff.mpr member)

theorem step_inv (t : PidTable) (event : PidEvent) (next : PidTable) (inv : t.Inv) (enabled : t.Enabled event)
    (taken : t.step event = some next) : next.Inv := by
  cases event with
  | fork =>
      obtain ⟨pid, nextSafe, found, free⟩ := get_pid_spec t.pids t.lastPid t.nextSafe enabled inv.last inv.safe inv.window
      have fresh := free_pid_unused t.pids pid nextSafe free
      obtain ⟨low, below, top, clear⟩ := free
      simp only [step, found, Option.some.injEq] at taken
      subst taken
      refine ⟨low, top, ?_, ?_, List.nodup_cons.mpr ⟨fresh, inv.distinct⟩⟩
      · intro other member
        cases List.mem_cons.mp member with
        | inl same => exact .inl (le_of_eq same)
        | inr old => exact (clear other old).imp le_of_lt id
      · intro other member
        cases List.mem_cons.mp member with
        | inl same => exact same ▸ ⟨low, lt_of_lt_of_le below top⟩
        | inr old => exact inv.range other old
  | reap pid =>
      simp only [step, Option.some.injEq] at taken
      subst taken
      have kept : ∀ other ∈ t.pids.erase pid, other ∈ t.pids := fun other member => List.mem_of_mem_erase member
      exact ⟨inv.last, inv.safe, fun other member => inv.window other (kept other member),
        fun other member => inv.range other (kept other member), inv.distinct.erase pid⟩
  | order pids =>
      simp only [step, Option.some.injEq] at taken
      subst taken
      have same : pids.Perm t.pids := enabled
      exact ⟨inv.last, inv.safe, fun other member => inv.window other (same.mem_iff.mp member),
        fun other member => inv.range other (same.mem_iff.mp member), same.nodup_iff.mpr inv.distinct⟩

theorem reached_inv (events : List PidEvent) (final : PidTable) (met : Throughout step Enabled boot events)
    (ran : run step boot events = some final) : final.Inv :=
  run_invariant step Enabled Inv (fun t event next inv enabled taken => step_inv t event next inv enabled taken) events boot final
    boot_inv met ran

-- No history of forks gets stuck in get_pid.
theorem history_runs (events : List PidEvent) (t : PidTable) (inv : t.Inv) (met : Throughout step Enabled t events) :
    ∃ final, run step t events = some final := by
  induction events generalizing t with
  | nil => exact ⟨t, rfl⟩
  | cons event events ih =>
      have steps : ∃ next, t.step event = some next := by
        cases event with
        | fork =>
            obtain ⟨pid, nextSafe, found, _⟩ := get_pid_spec t.pids t.lastPid t.nextSafe met.1 inv.last inv.safe inv.window
            exact ⟨⟨pid :: t.pids, pid, nextSafe⟩, by simp only [step, found]⟩
        | reap pid => exact ⟨_, rfl⟩
        | order pids => exact ⟨_, rfl⟩
      obtain ⟨next, taken⟩ := steps
      obtain ⟨final, ran⟩ := ih next (step_inv t event next inv met.1 taken) (met.2 next taken)
      exact ⟨final, by simp [run, taken, ran]⟩

theorem get_pid_never_reuses (events : List PidEvent) (met : Throughout step Enabled boot events) :
    ∃ final, run step boot events = some final ∧ Always step Sound boot events ∧ final.Sound := by
  obtain ⟨final, ran⟩ := history_runs events boot boot_inv met
  refine ⟨final, ran, ?_, (reached_inv events final met ran).sound⟩
  exact always_invariant step Enabled Inv Sound step_inv (fun t inv => inv.sound) events boot boot_inv met

-- The pid of the process that is reaped first is not used again.
theorem get_pid_never_reuses_after_reap :
    ∃ final, run step boot [.fork, .fork, .order [1, 2], .reap 1, .fork] = some final ∧
      Always step Sound boot [.fork, .fork, .order [1, 2], .reap 1, .fork] ∧ final.Sound :=
  get_pid_never_reuses [.fork, .fork, .order [1, 2], .reap 1, .fork] (by decide +kernel)

end PidTable

section Processes

variable {P : Type}

-- The table as do_fork and do_wait keep it.
def Family.pidTable (f : Family P) : PidTable := ⟨f.procList.map fun proc => (f.procs proc).pid, f.lastPid, f.nextSafe⟩

theorem Tree.pid_table_inv {idle : P} {f : Family P} {kids : P → List P} (tree : Tree idle f kids) : f.pidTable.Inv where
  last := tree.last
  safe := tree.safe
  window := by
    intro pid member
    obtain ⟨proc, listed, rfl⟩ := List.mem_map.mp member
    exact tree.window proc listed
  range := by
    intro pid member
    obtain ⟨proc, listed, rfl⟩ := List.mem_map.mp member
    exact tree.pids proc listed
  distinct := by
    apply List.Nodup.map_on _ tree.distinct
    exact fun proc listed other otherListed same => tree.pidsApart proc listed other otherListed same

variable [DecidableEq P]

-- The same in every state between the calls of the processes, over the list that
-- set_links and remove_links make.
theorem process_pids_sound (procs : Procs P) (idle init : P) (apart : idle ≠ init) (family : Family P)
    (booted : Family.procInit procs idle init = .ok family) (events : List (FamilyCall P)) (final : FamilySystem P)
    (met : Throughout (FamilySystem.step idle init) (FamilySystem.Enabled idle) (FamilySystem.boot family) events)
    (ran : run (FamilySystem.step idle init) (FamilySystem.boot family) events = some final) : final.family.pidTable.Sound := by
  have inv := run_invariant (FamilySystem.step idle init) (FamilySystem.Enabled idle) (FamilySystem.FamilyInv idle init)
    (fun s event next inv enabled taken => FamilySystem.step_inv inv event next enabled taken) events (FamilySystem.boot family) final
    (FamilySystem.boot_inv procs apart family booted) met ran
  obtain ⟨kids, tree⟩ := inv.places.tree
  exact tree.pid_table_inv.sound

end Processes

end Ucore.Proc
