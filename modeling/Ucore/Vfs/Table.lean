import Ucore.Vfs.Moved

set_option autoImplicit false

namespace Ucore.Vfs

open Ucore.Lib

variable {N : Type} [DecidableEq N]

-- What an entry, a table and a process hold.
def fileHold (file : File N) : N → Int := fun node => if file.status = .opened then hitOption file.node node else 0

def tableHold (fdArray : List (File N)) : N → Int := fun node => (fdArray.map fun file => fileHold file node).sum

def filesHold (files : FilesStruct N) : N → Int := fun node => hitOption files.pwd node + tableHold files.fdArray node

-- The two states of an entry between calls.
def Idle (file : File N) : Prop := file.status = .none ∧ file.openCount = 0

def Settled (file : File N) : Prop := Idle file ∨ (file.status = .opened ∧ file.openCount = 1 ∧ ∃ node, file.node = some node)

structure Ready (files : FilesStruct N) : Prop where
  count : files.filesCount = 1
  settled : ∀ file ∈ files.fdArray, Settled file

section Holdings

theorem idle_hold (file : File N) (idle : Idle file) (node : N) : fileHold file node = 0 := by simp [fileHold, idle.1]

omit [DecidableEq N] in
theorem idle_of_settled (file : File N) (settled : Settled file) (closed : file.status ≠ .opened) : Idle file := by
  cases settled with
  | inl idle => exact idle
  | inr opened => exact absurd opened.1 closed

theorem table_hold_cons (file : File N) (rest : List (File N)) (node : N) :
    tableHold (file :: rest) node = fileHold file node + tableHold rest node := by simp [tableHold]

theorem table_hold_append (first rest : List (File N)) (node : N) :
    tableHold (first ++ rest) node = tableHold first node + tableHold rest node := by simp [tableHold]

theorem table_hold_idle (fdArray : List (File N)) (idle : ∀ file ∈ fdArray, Idle file) (node : N) : tableHold fdArray node = 0 := by
  induction fdArray with
  | nil => rfl
  | cons file rest ih =>
      rw [table_hold_cons, idle_hold file (idle file (by simp)), ih fun other member => idle other (List.mem_cons_of_mem _ member)]
      rfl

theorem table_hold_set (fdArray : List (File N)) (index : Nat) (old file : File N) (there : fdArray[index]? = some old) (node : N) :
    tableHold (fdArray.set index file) node = tableHold fdArray node + fileHold file node - fileHold old node := by
  induction fdArray generalizing index with
  | nil => exact absurd there (by simp)
  | cons first rest ih =>
      cases index with
      | zero =>
          obtain rfl : first = old := by simpa using there
          simp only [List.set_cons_zero, table_hold_cons]
          omega
      | succ index =>
          have tail := ih index (by simpa using there)
          simp only [List.set_cons_succ, table_hold_cons, tail]
          omega

omit [DecidableEq N] in
theorem settled_set (fdArray : List (File N)) (index : Nat) (file : File N) (settled : ∀ file ∈ fdArray, Settled file) (new : Settled file) :
    ∀ other ∈ fdArray.set index file, Settled other := by
  intro other member
  cases List.mem_or_eq_of_mem_set member with
  | inl before => exact settled other before
  | inr same => exact same ▸ new

end Holdings

section Entries

theorem fd_array_free_init (v : Mounts N) (c c' : Counts N) (file file' : File N) (taken : file.status = .init)
    (returns : fdArrayFree v c file = .ok (c', file')) : c' = c ∧ Idle file' := by
  obtain ⟨_, returns⟩ := check_bind_ok returns
  obtain ⟨unopened, returns⟩ := check_bind_ok returns
  have open' : file.status ≠ .closed := by simp [taken]
  simp only [if_neg open', pure_ok, Except.ok.injEq, Prod.mk.injEq] at returns
  obtain ⟨same, done⟩ := returns
  subst same done
  exact ⟨rfl, rfl, by simpa using unopened⟩

omit [DecidableEq N] in
theorem fd_array_open_spec (file file' : File N) (returns : fdArrayOpen file = .ok file') :
    file.status = .init ∧ file.node ≠ none ∧ file' = { file with status := .opened, openCount := file.openCount + 1 } := by
  obtain ⟨ready, returns⟩ := check_bind_ok returns
  obtain ⟨taken, named⟩ := of_decide_eq_true ready
  exact ⟨taken, named, (Except.ok.inj returns).symm⟩

theorem fd_array_close_moved (v : Mounts N) (c c' : Counts N) (file file' : File N) (settled : Settled file) (opened : file.status = .opened)
    (returns : fdArrayClose v c file = .ok (c', file')) :
    Moved c c' (fun node => - fileHold file node) (fun node => - fileHold file node) ∧ Idle file' := by
  have once : file.openCount = 1 ∧ ∃ node, file.node = some node := by
    cases settled with
    | inl idle => exact absurd opened (by simp [idle.1])
    | inr held => exact held.2
  obtain ⟨count, node, named⟩ := once
  have frees : fdArrayFree v c { file with status := .closed, openCount := file.openCount - 1 } = .ok (c', file') := by
    obtain ⟨_, returns⟩ := check_bind_ok returns
    obtain ⟨_, returns⟩ := check_bind_ok returns
    simpa [count] using returns
  obtain ⟨_, frees⟩ := check_bind_ok frees
  obtain ⟨_, frees⟩ := check_bind_ok frees
  simp only [if_true, named] at frees
  obtain ⟨mid, closes, frees⟩ := bind_ok frees
  simp only [pure_ok, Except.ok.injEq, Prod.mk.injEq] at frees
  obtain ⟨same, done⟩ := frees
  subst same done
  constructor
  · apply (vfs_close_moved v c mid node closes).congr <;> intro other <;> simp [fileHold, opened, named, hit, hitOption, eq_comm]
  · exact ⟨rfl, by simp [count]⟩

theorem fd_array_dup_moved (c c' : Counts N) (into into' origin : File N) (unopened : into.openCount = 0) (opened : origin.status = .opened)
    (returns : fdArrayDup c into origin = .ok (c', into')) :
    Moved c c' (fileHold origin) (fileHold origin) ∧ Settled into' ∧ ∀ node, fileHold into' node = fileHold origin node := by
  obtain ⟨_, returns⟩ := check_bind_ok returns
  cases named : origin.node with
  | none =>
      simp only [named] at returns
      exact absurd returns (by simp)
  | some node =>
      simp only [named] at returns
      obtain ⟨copied, opens, returns⟩ := bind_ok returns
      simp only [pure_ok, Except.ok.injEq, Prod.mk.injEq] at returns
      obtain ⟨same, done⟩ := returns
      subst same done
      obtain ⟨_, _, copy⟩ := fd_array_open_spec _ copied opens
      subst copy
      refine ⟨?_, ?_, ?_⟩
      · apply ((ref_inc_moved c node).trans (open_inc_moved _ node)).congr <;> intro other <;>
          simp [fileHold, opened, named, hit, hitOption, still, eq_comm]
      · exact .inr ⟨rfl, by simp [unopened], node, rfl⟩
      · simp [fileHold, opened, named]

omit [DecidableEq N] in
theorem fd_array_alloc_spec (files : FilesStruct N) (fd : Int) (index : Nat) (file : File N)
    (returns : fdArrayAlloc files fd = .ok (.ok (index, file))) :
    ∃ old, files.fdArray[index]? = some old ∧ old.status = .none ∧ file.status = .init ∧ file.openCount = 0 := by
  obtain ⟨_, returns⟩ := check_bind_ok returns
  simp only at returns
  split at returns
  · exact absurd returns (by simp)
  · rename_i position old found
    obtain ⟨place, _, got⟩ := Option.bind_eq_some_iff.mp found
    obtain ⟨entry, there, pair⟩ := Option.map_eq_some_iff.mp got
    simp only [Prod.mk.injEq] at pair
    obtain ⟨samePlace, sameEntry⟩ := pair
    subst samePlace sameEntry
    by_cases free : entry.status = .none
    · simp only [if_pos free] at returns
      obtain ⟨unopened, returns⟩ := check_bind_ok returns
      simp only [pure_ok, Except.ok.injEq, Prod.mk.injEq] at returns
      obtain ⟨same, done⟩ := returns
      subst same done
      exact ⟨entry, there, free, rfl, by simpa using unopened⟩
    · simp only [if_neg free] at returns
      exact absurd returns (by simp)

omit [DecidableEq N] in
theorem fd2file_spec (files : FilesStruct N) (fd : Int) (index : Nat) (file : File N)
    (returns : fd2file files fd = .ok (.ok (index, file))) : files.fdArray[index]? = some file ∧ file.status = .opened := by
  unfold fd2file at returns
  by_cases inside : 0 ≤ fd ∧ fd < filesStructNentry
  · simp only [if_pos inside] at returns
    obtain ⟨_, returns⟩ := check_bind_ok returns
    cases there : files.fdArray[fd.toNat]? with
    | none =>
        simp only [there] at returns
        exact absurd returns (by simp)
    | some entry =>
        simp only [there] at returns
        by_cases opened : entry.status = .opened
        · simp only [if_pos opened, pure_ok, Except.ok.injEq, Prod.mk.injEq] at returns
          obtain ⟨samePlace, sameEntry⟩ := returns
          subst samePlace sameEntry
          exact ⟨there, opened⟩
        · simp only [if_neg opened] at returns
          exact absurd returns (by simp)
  · simp only [if_neg inside] at returns
    exact absurd returns (by simp)

end Entries

section Tables

omit [DecidableEq N] in
theorem set_file_ready (files : FilesStruct N) (index : Nat) (file : File N) (ready : Ready files) (settled : Settled file) :
    Ready (setFile files index file) where
  count := ready.count
  settled := settled_set files.fdArray index file ready.settled settled

theorem set_file_hold (files : FilesStruct N) (index : Nat) (old file : File N) (there : files.fdArray[index]? = some old) (node : N) :
    tableHold (setFile files index file).fdArray node - tableHold files.fdArray node = fileHold file node - fileHold old node ∧
      filesHold (setFile files index file) node - filesHold files node = fileHold file node - fileHold old node := by
  have set := table_hold_set files.fdArray index old file there node
  simp only [filesHold, setFile] at *
  omega

theorem close_opened_moved (v : Mounts N) (c c' : Counts N) (fdArray closed : List (File N)) (settled : ∀ file ∈ fdArray, Settled file)
    (returns : closeOpened v c fdArray = .ok (c', closed)) :
    Moved c c' (fun node => - tableHold fdArray node) (fun node => - tableHold fdArray node) ∧ ∀ file ∈ closed, Idle file := by
  induction fdArray generalizing c closed with
  | nil =>
      simp only [closeOpened, Except.ok.injEq, Prod.mk.injEq] at returns
      obtain ⟨same, done⟩ := returns
      subst same done
      exact ⟨moved_refl c, by simp⟩
  | cons file rest ih =>
      have here := settled file (by simp)
      have one : ∃ mid file', Moved c mid (fun node => - fileHold file node) (fun node => - fileHold file node) ∧ Idle file' ∧
          ∃ closedRest, closeOpened v mid rest = .ok (c', closedRest) ∧ closed = file' :: closedRest := by
        by_cases opened : file.status = .opened
        · simp only [closeOpened, if_pos opened] at returns
          obtain ⟨⟨mid, file'⟩, closes, returns⟩ := bind_ok returns
          obtain ⟨moved, idle⟩ := fd_array_close_moved v c mid file file' here opened closes
          exact ⟨mid, file', moved, idle, pair_bind_ok returns⟩
        · have idle := idle_of_settled file here opened
          simp only [closeOpened, if_neg opened, ok_bind] at returns
          have moved : Moved c c (fun node => - fileHold file node) (fun node => - fileHold file node) := by
            apply (moved_refl c).congr <;> intro node <;> simp [still, idle_hold file idle]
          exact ⟨c, file, moved, idle, pair_bind_ok returns⟩
      obtain ⟨mid, file', moved, idle, closedRest, closes, done⟩ := one
      subst done
      obtain ⟨movedRest, idleRest⟩ := ih mid closedRest (fun other member => settled other (List.mem_cons_of_mem _ member)) closes
      constructor
      · apply (moved.trans movedRest).congr <;> intro node <;> rw [table_hold_cons] <;> omega
      · intro other member
        cases List.mem_cons.mp member with
        | inl same => exact same ▸ idle
        | inr member => exact idleRest other member

theorem files_closeall_moved (v : Mounts N) (c c' : Counts N) (files files' : FilesStruct N) (ready : Ready files)
    (returns : filesCloseall v c files = .ok (c', files')) :
    Moved c c' (fun node => filesHold files' node - filesHold files node) (fun node => tableHold files'.fdArray node - tableHold files.fdArray node) ∧
      Ready files' := by
  obtain ⟨_, returns⟩ := check_bind_ok returns
  obtain ⟨⟨mid, rest⟩, closes, returns⟩ := bind_ok returns
  simp only [pure_ok, Except.ok.injEq, Prod.mk.injEq] at returns
  obtain ⟨same, done⟩ := returns
  subst same done
  have settledRest : ∀ file ∈ files.fdArray.drop 2, Settled file := fun file member => ready.settled file (List.mem_of_mem_drop member)
  obtain ⟨moved, idle⟩ := close_opened_moved v c mid (files.fdArray.drop 2) rest settledRest closes
  have whole : ∀ node, tableHold files.fdArray node = tableHold (files.fdArray.take 2) node + tableHold (files.fdArray.drop 2) node := by
    intro node
    rw [← table_hold_append, List.take_append_drop]
  have after : ∀ node, tableHold (files.fdArray.take 2 ++ rest) node = tableHold (files.fdArray.take 2) node := by
    intro node
    rw [table_hold_append, table_hold_idle rest idle, Int.add_zero]
  constructor
  · apply moved.congr <;> intro node <;> simp only [filesHold, after, whole] <;> omega
  · refine ⟨ready.count, fun file member => ?_⟩
    cases List.mem_append.mp member with
    | inl kept => exact ready.settled file (List.mem_of_mem_take kept)
    | inr closed => exact .inl (idle file closed)

omit [DecidableEq N] in
theorem closed_all {value : Except Fault (Counts N × List (File N))} {after : Counts N}
    (returns : (value >>= fun reply => do
      check (reply.2.all fun file => file.status = .none) .assertFailed
      return reply.1) = .ok after) : ∃ closed, value = .ok (after, closed) := by
  obtain ⟨reply, closes, last⟩ := bind_ok returns
  obtain ⟨_, last⟩ := check_bind_ok last
  obtain rfl := Except.ok.inj last
  exact ⟨reply.2, closes⟩

theorem files_destroy_moved (v : Mounts N) (c c' : Counts N) (files : FilesStruct N) (settled : ∀ file ∈ files.fdArray, Settled file)
    (returns : filesDestroy v c files = .ok c') : Moved c c' (fun node => - filesHold files node) (fun node => - tableHold files.fdArray node) := by
  obtain ⟨_, returns⟩ := check_bind_ok returns
  have left : ∃ mid, Moved c mid (fun node => - hitOption files.pwd node) still ∧
      ∃ closed, closeOpened v mid files.fdArray = .ok (c', closed) := by
    cases pwd : files.pwd with
    | none =>
        simp only [pwd, ok_bind] at returns
        exact ⟨c, (moved_refl c).congr (by simp [still, hitOption]) (by simp), closed_all returns⟩
    | some node =>
        simp only [pwd] at returns
        obtain ⟨mid, dec, returns⟩ := bind_ok returns
        exact ⟨mid, (ref_dec_moved v c mid node dec).congr (by simp [hit, hitOption, eq_comm]) (by simp), closed_all returns⟩
  obtain ⟨mid, moved, closed, closes⟩ := left
  obtain ⟨movedRest, _⟩ := close_opened_moved v mid c' files.fdArray closed settled closes
  apply (moved.trans movedRest).congr <;> intro node <;> simp only [filesHold, still] <;> omega

theorem put_files_moved (v : Mounts N) (c c' : Counts N) (files : FilesStruct N) (ready : Ready files)
    (returns : FsState.putFiles v c files = .ok c') : Moved c c' (fun node => - filesHold files node) (fun node => - tableHold files.fdArray node) := by
  have last : files.filesCount - 1 = 0 := by simp [ready.count]
  simp only [FsState.putFiles, if_pos last] at returns
  exact files_destroy_moved v c c' { files with filesCount := files.filesCount - 1 } ready.settled returns

theorem dup_opened_moved (c c' : Counts N) (into origin copied : List (File N)) (idle : ∀ file ∈ into, Idle file)
    (settled : ∀ file ∈ origin, Settled file) (returns : dupOpened c into origin = .ok (c', copied)) :
    Moved c c' (tableHold copied) (tableHold copied) ∧ ∀ file ∈ copied, Settled file := by
  induction into generalizing c origin copied with
  | nil =>
      simp only [dupOpened, Except.ok.injEq, Prod.mk.injEq] at returns
      obtain ⟨same, done⟩ := returns
      subst same done
      exact ⟨moved_refl c, by simp⟩
  | cons first intoRest ih =>
      cases origin with
      | nil =>
          simp only [dupOpened, Except.ok.injEq, Prod.mk.injEq] at returns
          obtain ⟨same, done⟩ := returns
          subst same done
          constructor
          · apply (moved_refl c).congr <;> intro node <;> rw [table_hold_idle _ idle] <;> rfl
          · exact fun file member => .inl (idle file member)
      | cons source rest =>
          have free := idle first (by simp)
          have one : ∃ mid first', Moved c mid (fileHold first') (fileHold first') ∧ Settled first' ∧
              ∃ copiedRest, dupOpened mid intoRest rest = .ok (c', copiedRest) ∧ copied = first' :: copiedRest := by
            by_cases opened : source.status = .opened
            · simp only [dupOpened, if_pos opened] at returns
              obtain ⟨⟨mid, first'⟩, dups, returns⟩ := bind_ok returns
              obtain ⟨moved, settled', same⟩ := fd_array_dup_moved c mid { first with status := .init } first' source free.2 opened dups
              exact ⟨mid, first', moved.congr (fun node => (same node).symm) (fun node => (same node).symm), settled', pair_bind_ok returns⟩
            · simp only [dupOpened, if_neg opened, ok_bind] at returns
              have moved : Moved c c (fileHold first) (fileHold first) := by
                apply (moved_refl c).congr <;> intro node <;> rw [idle_hold first free] <;> rfl
              exact ⟨c, first, moved, .inl free, pair_bind_ok returns⟩
          obtain ⟨mid, first', moved, settled', copiedRest, dups, done⟩ := one
          subst done
          obtain ⟨movedRest, settledRest⟩ := ih mid rest copiedRest (fun file member => idle file (List.mem_cons_of_mem _ member))
            (fun file member => settled file (List.mem_cons_of_mem _ member)) dups
          constructor
          · apply (moved.trans movedRest).congr <;> intro node <;> rw [table_hold_cons]
          · intro file member
            cases List.mem_cons.mp member with
            | inl same => exact same ▸ settled'
            | inr member => exact settledRest file member

theorem created_idle (N : Type) : ∀ file ∈ (filesCreate N).fdArray, Idle file := by
  intro file member
  obtain rfl := List.eq_of_mem_replicate member
  exact ⟨rfl, rfl⟩

theorem dup_files_moved (c c' : Counts N) (origin copied : FilesStruct N) (ready : Ready origin)
    (returns : dupFiles c (filesCreate N) origin = .ok (c', copied)) :
    Moved c c' (filesHold copied) (tableHold copied.fdArray) ∧ copied.filesCount = 0 ∧ ∀ file ∈ copied.fdArray, Settled file := by
  obtain ⟨_, returns⟩ := check_bind_ok returns
  obtain ⟨⟨mid, fdArray⟩, dups, returns⟩ := bind_ok returns
  simp only [pure_ok, Except.ok.injEq, Prod.mk.injEq] at returns
  obtain ⟨same, done⟩ := returns
  subst same done
  obtain ⟨moved, settled⟩ := dup_opened_moved _ mid _ origin.fdArray fdArray (created_idle N) ready.settled dups
  refine ⟨?_, rfl, settled⟩
  cases pwd : origin.pwd with
  | none =>
      simp only [pwd] at moved
      apply moved.congr <;> intro node <;> simp [filesHold, hitOption]
  | some node =>
      simp only [pwd] at moved
      apply ((ref_inc_moved c node).trans moved).congr <;> intro other <;> simp [filesHold, hit, hitOption, still, eq_comm]

end Tables

end Ucore.Vfs
