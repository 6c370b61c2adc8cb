import Ucore.Vfs.LayerHeld

set_option autoImplicit false

namespace Ucore.Vfs

open Ucore.Lib

variable {P N C F : Type} [DecidableEq P] [DecidableEq N]

section Rules

variable {α : Type} {post : α → Prop} {unsupported : Prop}

theorem ends_in_layer {stops : Panic F → Prop} {value : Except Fault α} {result : α} (returns : value = .ok result) (holds : post result) :
    Ends stops post (inLayer value) := ends_ok ((in_layer_ok value result).mpr returns) holds

theorem ends_below {value : Except F α} (supported : ¬ unsupported) (holds : ∀ result, value = .ok result → post result) :
    Ends (Stops unsupported) post (below value) := by
  cases value with
  | error fault => exact ⟨trivial, supported⟩
  | ok result => exact holds result rfl

omit [DecidableEq N] in
theorem ends_vop_op {stops : Panic F → Prop} {v : Mounts N} {c : Counts N} {node : N} {op : Vop} {post : Unit → Prop}
    (listed : op ∈ (v.kind node).inOps) (checked : inodeCheck c node = .ok ()) (holds : post ()) : Ends stops post (vopOp v c node op) :=
  ends_bind (ends_check (decide_eq_true listed) (ends_in_layer checked holds))

end Rules

section Devices

theorem inval_negative : eInval < 0 := by decide

theorem read_refused (dev : Device) (pos : Int) (len : Nat) (refuses : dev.reads = false) : dev.dopIo pos len false = some eInval := by
  cases dev <;> simp_all [Device.reads, Device.dopIo]

theorem write_refused (dev : Device) (pos : Int) (len : Nat) (refuses : dev.writes = false) : dev.dopIo pos len true = some eInval := by
  cases dev <;> simp_all [Device.writes, Device.dopIo]

theorem seek_refused (dev : Device) (pos : Int) (refuses : dev.dBlocks = 0) : dev.devTryseek pos = eInval := by
  simp [Device.devTryseek, refuses]

theorem open_code (dev : Device) (flags : BitVec 32) : dev.dopOpen flags = 0 ∨ dev.dopOpen flags = eInval := by
  cases dev with
  | stdin =>
      by_cases mode : flags ≠ oRdOnly <;> simp [Device.dopOpen, mode]
  | stdout =>
      by_cases mode : flags ≠ oWrOnly <;> simp [Device.dopOpen, mode]
  | disk0 blocks => exact .inl rfl

end Devices

namespace FileLayer

variable {v : Mounts N} {b : Below N C F} {l : FileLayer P N C} {proc : P}

-- What a call answers: an error and no change if it is not supported, and a state
-- for the next call.
def Replies (v : Mounts N) (l : FileLayer P N C) (unsupported : Prop) (reply : Int × FileLayer P N C) : Prop :=
  (unsupported → reply.1 < 0 ∧ l.Unchanged reply.2) ∧ reply.2.LayerInv v

-- A descriptor with its entry.
structure Descriptor (l : FileLayer P N C) (proc : P) (fd : Int) (index : Nat) (file : File N) (node : N) : Prop where
  found : fd2file (l.files proc) fd = .ok (.ok (index, file))
  there : (l.files proc).fdArray[index]? = some file
  opened : file.status = .opened
  once : file.openCount = 1
  named : file.node = some node
  held : l.held proc fd = some (file, node)

omit [DecidableEq P] in
theorem fd_cases (inv : l.LayerInv v) (member : proc ∈ l.fs.procs) (fd : Int) :
    (∃ ret, fd2file (l.files proc) fd = .ok (.error ret) ∧ l.held proc fd = none) ∨ ∃ index file node, Descriptor l proc fd index file node := by
  have ready := inv_ready inv member
  obtain ⟨result, finds⟩ := fd2file_ok (l.files proc) fd (by simp [ready.count])
  cases result with
  | error ret => exact .inl ⟨ret, finds, by simp [held, finds]⟩
  | ok entry =>
      obtain ⟨index, file⟩ := entry
      obtain ⟨there, opened⟩ := fd2file_spec (l.files proc) fd index file finds
      cases ready.settled file (List.mem_of_getElem? there) with
      | inl idle => exact absurd opened (by simp [idle.1])
      | inr taken =>
          obtain ⟨_, once, node, named⟩ := taken
          exact .inr ⟨index, file, node, finds, there, opened, once, named, by simp [held, finds, named]⟩

omit [DecidableEq N] in
theorem acquire_ok (file : File N) (opened : file.status = .opened) : fdArrayAcquire file = .ok { file with openCount := file.openCount + 1 } := by
  simp [fdArrayAcquire, opened]

omit [DecidableEq N] in
theorem node_of_ok (file : File N) (node : N) (named : file.node = some node) : nodeOf file = .ok node := by
  simp [nodeOf, named]

section Entries

variable {fd : Int} {index : Nat} {file : File N} {node : N}

theorem release_answers (inv : l.LayerInv v) (member : proc ∈ l.fs.procs) (entry : Descriptor l proc fd index file node) (pos : Int) (data : C)
    (ret : Int) (unsupported : Prop) (still : unsupported → ret < 0 ∧ data = l.data ∧ pos = file.pos) :
    Ends (Stops unsupported) (Replies v l unsupported) (l.release v proc index { file with pos := pos, openCount := file.openCount + 1 } data ret :
      Except (Panic F) _) := by
  have releases : fdArrayRelease v l.fs.counts { file with pos := pos, openCount := file.openCount + 1 } =
      .ok (l.fs.counts, { file with pos := pos }) := by
    simp [fdArrayRelease, entry.opened, entry.once]
  refine ends_bind (ends_in_layer releases (ends_ok rfl ⟨fun refused => ?_, ?_⟩))
  · obtain ⟨negative, rfl, rfl⟩ := still refused
    exact ⟨negative, put_unchanged index file file entry.there rfl⟩
  · have settled : Settled { file with pos := pos } := .inr ⟨entry.opened, entry.once, node, entry.named⟩
    refine same_inv inv member data index file { file with pos := pos } entry.there settled ?_ (fun _ => rfl)
    exact inv.modes proc member file (List.mem_of_getElem? entry.there)

-- The first steps of the calls that work on a descriptor.
omit [DecidableEq P] [DecidableEq N] in
theorem entry_ends {β : Type} {stops : Panic F → Prop} {post : β → Prop} (entry : Descriptor l proc fd index file node)
    (next : File N → N → Except (Panic F) β) (rest : Ends stops post (next { file with openCount := file.openCount + 1 } node)) :
    Ends stops post (do let file ← inLayer (fdArrayAcquire file); let node ← inLayer (nodeOf file); next file node) :=
  ends_bind (ends_in_layer (acquire_ok file entry.opened) (ends_bind (ends_in_layer (node_of_ok _ node entry.named) rest)))

end Entries

section Calls

theorem io_answers (room : Room v l.fs.counts 4) (inv : l.LayerInv v) (member : proc ∈ l.fs.procs) (fd : Int) (buf : Bytes) (len : Nat)
    (write : Bool) (unsupported : Prop)
    (kinds : unsupported ↔ ∃ entry ∈ l.held proc fd, v.kind entry.2 = .dir ∨
      (v.kind entry.2 = .device ∧ (if write then (b.device entry.2).writes else (b.device entry.2).reads) = false))
    (fits : ∀ entry ∈ l.held proc fd, (if write then entry.1.writable else entry.1.readable) = true → v.kind entry.2 ≠ .dir) :
    Ends (Stops unsupported) (Replies v l unsupported) (l.fileIo v b proc fd buf len write) := by
  cases fd_cases inv member fd with
  | inl missing =>
      obtain ⟨ret, finds, nothing⟩ := missing
      refine ends_bind (ends_in_layer finds (ends_ok rfl ⟨fun refused => ?_, inv⟩))
      obtain ⟨_, here, _⟩ := kinds.mp refused
      simp [nothing] at here
  | inr there =>
      obtain ⟨index, file, node, entry⟩ := there
      refine ends_bind (ends_in_layer entry.found ?_)
      by_cases barred : ¬ (if write = true then file.writable else file.readable) = true
      · simp only [if_pos barred]
        exact ends_ok rfl ⟨fun _ => ⟨inval_negative, unchanged_refl l⟩, inv⟩
      simp only [if_neg barred]
      have notDir : v.kind node ≠ .dir := fits (file, node) entry.held (not_not.mp barred)
      have refuses : unsupported → v.kind node = .device ∧ (if write then (b.device node).writes else (b.device node).reads) = false := by
        intro refused
        obtain ⟨found, here, cases'⟩ := kinds.mp refused
        obtain rfl : (file, node) = found := by simpa [entry.held] using here
        exact cases'.resolve_left notDir
      have released : ∀ ret moved data, (unsupported → ret < 0 ∧ data = l.data ∧ moved = 0) →
          Ends (Stops unsupported) (Replies v l unsupported) (l.release v proc index { file with
            pos := file.pos + moved, openCount := file.openCount + 1 } data ret : Except (Panic F) _) := by
        intro ret moved data quiet
        refine release_answers inv member entry (file.pos + moved) data ret unsupported fun refused => ?_
        obtain ⟨negative, same, zero⟩ := quiet refused
        exact ⟨negative, same, by omega⟩
      refine entry_ends entry _ (ends_bind (ends_bind (ends_vop_op ?_ (inode_check_ok room (by decide) node) ?_)))
      · cases kind : v.kind node with
        | dir => exact absurd kind notDir
        | file => cases write <;> simp [InodeKind.inOps]
        | device => cases write <;> simp [InodeKind.inOps]
      · cases kind : v.kind node with
        | dir => exact absurd kind notDir
        | file =>
            have supported : ¬ unsupported := fun refused => by simp [kind] at refuses; exact refuses refused
            exact ends_below supported fun reply _ => released reply.1 reply.2.1 reply.2.2 fun refused => absurd refused supported
        | device =>
            cases answer : (b.device node).dopIo file.pos len write with
            | some ret =>
                refine ends_ok rfl (released ret 0 l.data fun refused => ⟨?_, rfl, rfl⟩)
                have closed := (refuses refused).2
                cases write with
                | false =>
                    rw [read_refused _ _ _ closed, Option.some.injEq] at answer
                    exact answer ▸ inval_negative
                | true =>
                    rw [write_refused _ _ _ closed, Option.some.injEq] at answer
                    exact answer ▸ inval_negative
            | none =>
                have supported : ¬ unsupported := by
                  intro refused
                  have closed := (refuses refused).2
                  cases write with
                  | false => simp [read_refused _ _ _ closed] at answer
                  | true => simp [write_refused _ _ _ closed] at answer
                exact ends_below supported fun reply _ => released reply.1 reply.2.1 reply.2.2 fun refused => absurd refused supported

omit [DecidableEq N] in
theorem fstat_ends {stops : Panic F → Prop} {post : Int → Prop} {c : Counts N} (room : Room v c 0) (data : C) (node : N) (holds : ∀ size, post size) :
    Ends stops post (vopFstat v b c data node) := by
  refine ends_bind (ends_vop_op ?_ (inode_check_ok room (le_refl 0) node) (ends_ok rfl (holds _)))
  cases v.kind node <;> simp [InodeKind.inOps]

theorem seek_answers (room : Room v l.fs.counts 4) (inv : l.LayerInv v) (member : proc ∈ l.fs.procs) (fd pos whence : Int)
    (fits : l.Fits v (.seek proc fd pos whence)) :
    Ends (Stops (l.Unsupported v b (.seek proc fd pos whence))) (Replies v l (l.Unsupported v b (.seek proc fd pos whence)))
      (l.fileSeek v b proc fd pos whence) := by
  cases fd_cases inv member fd with
  | inl missing =>
      obtain ⟨ret, finds, nothing⟩ := missing
      refine ends_bind (ends_in_layer finds (ends_ok rfl ⟨fun refused => ?_, inv⟩))
      obtain ⟨_, here, _⟩ := refused
      simp [nothing] at here
  | inr there =>
      obtain ⟨index, file, node, entry⟩ := there
      have released : ∀ ret target data, (l.Unsupported v b (.seek proc fd pos whence) → ret < 0 ∧ data = l.data ∧ target = file.pos) →
          Ends (Stops (l.Unsupported v b (.seek proc fd pos whence))) (Replies v l (l.Unsupported v b (.seek proc fd pos whence)))
            (l.release v proc index { file with pos := target, openCount := file.openCount + 1 } data ret : Except (Panic F) _) :=
        fun ret target data quiet => release_answers inv member entry target data ret _ quiet
      -- The position is known, and the inode is asked to take it.
      have seeks : ∀ target, v.kind node ≠ .dir → Ends (Stops (l.Unsupported v b (.seek proc fd pos whence)))
          (Replies v l (l.Unsupported v b (.seek proc fd pos whence))) (vopTryseek v b l.fs.counts l.data node target >>= fun reply =>
            l.release v proc index (if reply.1 = 0 then { { file with openCount := file.openCount + 1 } with pos := target }
              else { file with openCount := file.openCount + 1 }) reply.2 reply.1) := by
        intro target notDir
        have finish : ∀ ret data, (l.Unsupported v b (.seek proc fd pos whence) → ret < 0 ∧ data = l.data) →
            Ends (Stops (l.Unsupported v b (.seek proc fd pos whence))) (Replies v l (l.Unsupported v b (.seek proc fd pos whence)))
              (l.release v proc index (if ret = 0 then { { file with openCount := file.openCount + 1 } with pos := target }
                else { file with openCount := file.openCount + 1 }) data ret : Except (Panic F) _) := by
          intro ret data quiet
          by_cases taken : ret = 0
          · rw [if_pos taken]
            refine released ret target data fun refused => ?_
            have negative := (quiet refused).1
            omega
          · rw [if_neg taken]
            refine released ret file.pos data fun refused => ?_
            obtain ⟨negative, same⟩ := quiet refused
            exact ⟨negative, same, rfl⟩
        refine ends_bind (ends_bind (ends_vop_op ?_ (inode_check_ok room (by decide) node) ?_))
        · cases kind : v.kind node <;> simp [InodeKind.inOps, kind] at notDir ⊢
        · have refuses : l.Unsupported v b (.seek proc fd pos whence) → v.kind node = .device ∧ (b.device node).dBlocks = 0 := by
            intro refused
            obtain ⟨found, here, cases'⟩ := refused
            obtain rfl : (file, node) = found := by simpa [entry.held] using here
            exact cases'.resolve_left notDir
          by_cases device : v.kind node = .device
          · simp only [if_pos device]
            refine ends_ok rfl (finish _ _ fun refused => ⟨?_, rfl⟩)
            rw [seek_refused _ _ (refuses refused).2]
            exact inval_negative
          · simp only [if_neg device]
            have supported : ¬ l.Unsupported v b (.seek proc fd pos whence) := fun refused => device (refuses refused).1
            exact ends_below supported fun reply _ => finish reply.1 reply.2 fun refused => absurd refused supported
      have kinds := fits (file, node) entry.held
      refine ends_bind (ends_in_layer entry.found (entry_ends entry _ (ends_bind ?_)))
      unfold seekTarget
      by_cases set : whence = lseekSet
      · rw [if_pos set]
        exact ends_ok rfl (seeks _ (kinds (.inl set)))
      by_cases cur : whence = lseekCur
      · rw [if_neg set, if_pos cur]
        exact ends_ok rfl (seeks _ (kinds (.inr (.inl cur))))
      by_cases last : whence = lseekEnd
      · rw [if_neg set, if_neg cur, if_pos last]
        exact ends_bind (fstat_ends (room_weaken room 0 (by decide)) l.data node fun size => ends_ok rfl (seeks _ (kinds (.inr (.inr last)))))
      · rw [if_neg set, if_neg cur, if_neg last]
        exact ends_ok rfl (released eInval file.pos l.data fun _ => ⟨inval_negative, rfl, rfl⟩)

theorem fstat_answers (room : Room v l.fs.counts 4) (inv : l.LayerInv v) (member : proc ∈ l.fs.procs) (fd : Int) :
    Ends (Stops False) (Replies v l False) (l.fileFstat v b proc fd) := by
  cases fd_cases inv member fd with
  | inl missing =>
      obtain ⟨ret, finds, _⟩ := missing
      exact ends_bind (ends_in_layer finds (ends_ok rfl ⟨False.elim, inv⟩))
  | inr there =>
      obtain ⟨index, file, node, entry⟩ := there
      refine ends_bind (ends_in_layer entry.found (entry_ends entry _ (ends_bind ?_)))
      refine fstat_ends (room_weaken room 0 (by decide)) l.data node fun size => ?_
      exact release_answers inv member entry file.pos l.data 0 False False.elim

theorem fsync_answers (room : Room v l.fs.counts 4) (inv : l.LayerInv v) (member : proc ∈ l.fs.procs) (fd : Int)
    (fits : l.Fits v (.fsync proc fd)) :
    Ends (Stops (l.Unsupported v b (.fsync proc fd))) (Replies v l (l.Unsupported v b (.fsync proc fd))) (l.fileFsync v b proc fd) := by
  have supported : ¬ l.Unsupported v b (.fsync proc fd) := by
    intro refused
    obtain ⟨found, here, device⟩ := refused
    exact fits found here device
  cases fd_cases inv member fd with
  | inl missing =>
      obtain ⟨ret, finds, _⟩ := missing
      exact ends_bind (ends_in_layer finds (ends_ok rfl ⟨fun refused => absurd refused supported, inv⟩))
  | inr there =>
      obtain ⟨index, file, node, entry⟩ := there
      have kind := fits (file, node) entry.held
      refine ends_bind (ends_in_layer entry.found (entry_ends entry _ (ends_bind (ends_vop_op ?_ (inode_check_ok room (by decide) node) ?_))))
      · cases known : v.kind node <;> simp [InodeKind.inOps, known] at kind ⊢
      · refine ends_bind (ends_below supported fun reply _ => ?_)
        exact release_answers inv member entry file.pos reply.2 reply.1 _ fun refused => absurd refused supported

theorem getdirentry_answers (room : Room v l.fs.counts 4) (inv : l.LayerInv v) (member : proc ∈ l.fs.procs) (fd offset : Int)
    (fits : l.Fits v (.getdirentry proc fd offset)) :
    Ends (Stops (l.Unsupported v b (.getdirentry proc fd offset))) (Replies v l (l.Unsupported v b (.getdirentry proc fd offset)))
      (l.fileGetdirentry v b proc fd offset) := by
  have supported : ¬ l.Unsupported v b (.getdirentry proc fd offset) := by
    intro refused
    obtain ⟨found, here, other⟩ := refused
    exact other (fits found here)
  cases fd_cases inv member fd with
  | inl missing =>
      obtain ⟨ret, finds, _⟩ := missing
      exact ends_bind (ends_in_layer finds (ends_ok rfl ⟨fun refused => absurd refused supported, inv⟩))
  | inr there =>
      obtain ⟨index, file, node, entry⟩ := there
      have kind : v.kind node = .dir := fits (file, node) entry.held
      refine ends_bind (ends_in_layer entry.found (entry_ends entry _ (ends_bind (ends_vop_op ?_ (inode_check_ok room (by decide) node) ?_))))
      · simp [InodeKind.inOps, kind]
      · refine ends_bind (ends_below supported fun reply _ => ?_)
        exact release_answers inv member entry file.pos reply.2 reply.1 _ fun refused => absurd refused supported

end Calls

end FileLayer

end Ucore.Vfs
