import Ucore.Proc.ReapLog

set_option autoImplicit false

namespace Ucore.Proc

open Ucore.Lib

variable {P : Type} [DecidableEq P]

def goldenRatioPrime32 : BitVec 32 := 0x9e370001

def hash32 (val : BitVec 32) (bits : Nat) : BitVec 32 := (val * goldenRatioPrime32) >>> (32 - bits)

def hashShift : Nat := 10

def pidHashfn (pid : Int) : BitVec 32 := hash32 (BitVec.ofInt 32 pid) hashShift

-- One of the hash lists from its head on, read off the list that has them all.
def hashList (procs : Procs P) (hashed : List P) (bucket : BitVec 32) : List P :=
  hashed.filter fun proc => pidHashfn (procs proc).pid = bucket

section HashLists

omit [DecidableEq P] in
theorem hash_proc_list (procs : Procs P) (hashed : List P) (proc : P) (bucket : BitVec 32) :
    hashList procs (proc :: hashed) bucket =
      if pidHashfn (procs proc).pid = bucket then proc :: hashList procs hashed bucket else hashList procs hashed bucket := by
  by_cases here : pidHashfn (procs proc).pid = bucket <;> simp [hashList, here]

theorem unhash_proc_list (procs : Procs P) (hashed : List P) (proc : P) (bucket : BitVec 32) (distinct : hashed.Nodup) :
    hashList procs (hashed.erase proc) bucket = (hashList procs hashed bucket).erase proc := by
  unfold hashList
  rw [distinct.erase_eq_filter, (distinct.filter _).erase_eq_filter, List.filter_filter, List.filter_filter]
  apply List.filter_congr
  intro other _
  rw [Bool.and_comm]

omit [DecidableEq P] in
theorem find_hash_list (procs : Procs P) (hashed : List P) (pid : Int) :
    (hashList procs hashed (pidHashfn pid)).find? (fun proc => (procs proc).pid = pid) = hashed.find? fun proc => (procs proc).pid = pid := by
  unfold hashList
  rw [List.find?_filter]
  congr 1
  funext proc
  by_cases carries : (procs proc).pid = pid <;> simp [carries]

end HashLists

namespace Family

-- find_proc as it walks its hash list.
omit [DecidableEq P] in
theorem find_proc_bucket (f : Family P) (pid : Int) :
    f.findProc pid =
      if 0 < pid ∧ pid < maxPid then (hashList f.procs f.hashed (pidHashfn pid)).find? fun proc => (f.procs proc).pid = pid else none := by
  unfold findProc
  rw [find_hash_list]

-- The siblings of every process in use, and the tables of processes. idleproc is
-- in use and on no list.
structure TablesAgree (f : Family P) (idle : P) : Prop where
  siblings : ∀ parent, f.InUse idle parent →
    ∃ kids : List P, kids.Nodup ∧ Chain f.procs none (f.procs parent).cptr kids ∧
      ∀ proc, proc ∈ kids ↔ proc ∈ f.procList ∧ (f.procs proc).parent = some parent
  parented : ∀ proc ∈ f.procList, ∃ parent, (f.procs proc).parent = some parent ∧ f.InUse idle parent
  counted : f.procList.Nodup ∧ idle ∉ f.procList ∧ f.nrProcess = f.procList.length + 1
  hashed : ∀ bucket, (hashList f.procs f.hashed bucket).Nodup ∧
    ∀ proc, proc ∈ hashList f.procs f.hashed bucket ↔ proc ∈ f.procList ∧ pidHashfn (f.procs proc).pid = bucket
  found : ∀ pid proc, f.findProc pid = some proc ↔ proc ∈ f.procList ∧ (f.procs proc).pid = pid

end Family

omit [DecidableEq P] in
theorem Tree.tables_agree {idle : P} {f : Family P} {kids : P → List P} (tree : Tree idle f kids) : f.TablesAgree idle where
  siblings := by
    intro parent inUse
    exact ⟨kids parent, tree.chains.distinct parent inUse, tree.chains.tight parent inUse, tree.kidsAre parent inUse⟩
  parented := tree.parented
  counted := ⟨tree.distinct, tree.idleOut, tree.counted⟩
  hashed := by
    intro bucket
    constructor
    · exact (tree.hashed.nodup_iff.mpr tree.distinct).filter _
    · intro proc
      simp [hashList, tree.hashed.mem_iff]
  found := tree.find_proc_spec

namespace FamilySystem

-- The same in every state between calls: of forks, exits, waits, kills and all
-- other sleeps and wakeups in any order.
theorem process_tables_agree (procs : Procs P) (idle init : P) (apart : idle ≠ init) (family : Family P)
    (booted : Family.procInit procs idle init = .ok family) (events : List (FamilyCall P)) (final : FamilySystem P)
    (met : Throughout (step idle init) (Enabled idle) (boot family) events)
    (ran : run (step idle init) (boot family) events = some final) : final.family.TablesAgree idle := by
  have inv := run_invariant (step idle init) (Enabled idle) (FamilyInv idle init)
    (fun s event next inv enabled taken => step_inv inv event next enabled taken) events (boot family) final
    (boot_inv procs apart family booted) met ran
  obtain ⟨kids, tree⟩ := inv.places.tree
  exact tree.tables_agree

-- A child and a grandchild of initproc; the child exits first.
def orphanCalls : List (FamilyCall (Fin 5)) :=
  [.fork 1 (some 2) true, .fork 2 (some 3) true, .fork 2 (some 4) true, .exit 2 5, .exit 4 0, .wait 1 0 none true]

theorem process_tables_agree_orphans : ∃ family final, Family.procInit (fun _ : Fin 5 => allocProc) 0 1 = .ok family ∧
    run (step 0 1) (boot family) orphanCalls = some final ∧ final.family.TablesAgree 0 := by
  have boots : (Family.procInit (fun _ : Fin 5 => allocProc) 0 1).toOption.isSome = true := by decide +kernel
  cases booted : Family.procInit (fun _ : Fin 5 => allocProc) 0 1 with
  | error fault => simp [booted, Except.toOption] at boots
  | ok family =>
      have checked : ((Family.procInit (fun _ : Fin 5 => allocProc) 0 1).toOption.map fun family =>
          decide (Throughout (step 0 1) (Enabled 0) (boot family) orphanCalls) &&
            (run (step 0 1) (boot family) orphanCalls).isSome) = some true := by decide +kernel
      rw [booted] at checked
      simp only [Except.toOption, Option.map_some, Option.some.injEq, Bool.and_eq_true, decide_eq_true_eq] at checked
      obtain ⟨met, returns⟩ := checked
      obtain ⟨final, ran⟩ := Option.isSome_iff_exists.mp returns
      exact ⟨family, final, rfl, ran, process_tables_agree (fun _ => allocProc) 0 1 (by decide) family booted orphanCalls final met ran⟩

end FamilySystem

end Ucore.Proc
