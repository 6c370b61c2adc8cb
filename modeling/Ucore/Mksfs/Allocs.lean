import Ucore.Mksfs.Mksfs

set_option autoImplicit false

namespace Ucore.Mksfs

open Ucore.Lib
open Ucore.Sfs (blkSize blkBits blknSuper blknRoot blknFreemap typeDir typeFile typeLink roundUpDiv)

-- The first block after the freemap.
def freemapEnd (ninos : Nat) : Nat := blknFreemap + roundUpDiv ninos blkBits

def MksfsFs.allocated (fs : MksfsFs) (b : Nat) : Prop := b ∈ fs.allocs.map Prod.fst

-- What holds while the tree is read: sfs_alloc_ino has given out all numbers from
-- the end of the freemap up to next_ino, each once, and nothing else is written.
structure Built (image : Nat → Bytes) (fs : MksfsFs) : Prop where
  small : fs.ninos ≤ maxNblks
  room : freemapEnd fs.ninos < fs.ninos
  lower : freemapEnd fs.ninos ≤ fs.nextIno
  upper : fs.nextIno ≤ fs.ninos
  unused : fs.unusedBlocks = fs.ninos - fs.nextIno
  distinct : (fs.allocs.map Prod.fst).Nodup
  allocs : ∀ b, fs.allocated b ↔ freemapEnd fs.ninos ≤ b ∧ b < fs.nextIno
  inodes : ∀ ino ∈ fs.inodeList, ino = blknRoot ∨ (ino, .inode) ∈ fs.allocs
  cached : ∀ cb ∈ fs.blockList, (cb, .indirect) ∈ fs.allocs
  written : ∀ b, fs.disk b ≠ image b → fs.allocated b

section Steps

variable {image : Nat → Bytes} {fs next : MksfsFs}

theorem one_fewer (unused : Nat) (some : 0 < unused) (fits : unused < 2 ^ 32) : dec32 unused = unused - 1 := by
  unfold dec32
  omega

theorem alloc_ino_built (built : Built image fs) (use : AllocUse) (ino : Nat) (done : sfsAllocIno fs use = .ok (ino, next)) :
    Built image next ∧ (ino, use) ∈ next.allocs ∧ next.inodeList = fs.inodeList ∧ next.blockList = fs.blockList := by
  unfold sfsAllocIno at done
  by_cases room : fs.nextIno < fs.ninos
  · simp only [if_pos room, Except.ok.injEq, Prod.mk.injEq] at done
    obtain ⟨rfl, rfl⟩ := done
    have small := built.small
    have unused := built.unused
    have wide : maxNblks < 2 ^ 32 := by decide
    have lower := built.lower
    have fresh : ¬ fs.allocated fs.nextIno := fun given => by
      have bound := ((built.allocs fs.nextIno).mp given).2
      omega
    have more : ∀ b, b ∈ ((fs.nextIno, use) :: fs.allocs).map Prod.fst ↔ b = fs.nextIno ∨ fs.allocated b := by
      intro b
      simp only [List.map_cons, List.mem_cons]
      exact Iff.rfl
    refine ⟨⟨small, built.room, ?_, room, ?_, ?_, ?_, ?_, ?_, ?_⟩, List.mem_cons_self, rfl, rfl⟩
    · show freemapEnd fs.ninos ≤ fs.nextIno + 1
      omega
    · have fewer := one_fewer fs.unusedBlocks (by omega) (by omega)
      show dec32 fs.unusedBlocks = fs.ninos - (fs.nextIno + 1)
      omega
    · exact List.nodup_cons.mpr ⟨fresh, built.distinct⟩
    · intro b
      show b ∈ ((fs.nextIno, use) :: fs.allocs).map Prod.fst ↔ freemapEnd fs.ninos ≤ b ∧ b < fs.nextIno + 1
      rw [more b, built.allocs b]
      omega
    · intro ino listed
      exact (built.inodes ino listed).imp_right (List.mem_cons_of_mem _)
    · intro cb listed
      exact List.mem_cons_of_mem _ (built.cached cb listed)
    · intro b changed
      exact (more b).mpr (Or.inr (built.written b changed))
  · simp [if_neg room] at done

theorem write_block_built (built : Built image fs) (data : Bytes) (len ino : Nat) (given : fs.allocated ino)
    (done : writeBlock fs data len ino = .ok next) : Built image next := by
  obtain ⟨_, _, done⟩ := bind_ok done
  obtain rfl := Except.ok.inj done
  refine { built with written := ?_ }
  intro b changed
  by_cases same : b = ino
  · exact same ▸ given
  · simp only [Function.update_of_ne same] at changed
    exact built.written b changed

theorem set_inode_built (built : Built image fs) (file : Nat) (inode : CacheInode) : Built image (setInode fs file inode) := { built with }

theorem set_cache_built (built : Built image fs) (cb index ino : Nat) : Built image (setCache fs cb index ino) := { built with }

theorem set_entry_built (built : Built image fs) (entry : Bytes) : Built image { fs with entry := entry } := { built with }

theorem alloc_cache_block_built (built : Built image fs) (cb : Nat) (done : allocCacheBlock fs = .ok (cb, next)) : Built image next := by
  obtain ⟨⟨ino, mid⟩, taken, done⟩ := bind_ok done
  simp only [pure_ok, Except.ok.injEq, Prod.mk.injEq] at done
  obtain ⟨rfl, rfl⟩ := done
  obtain ⟨after, given, _, _⟩ := alloc_ino_built built .indirect ino taken
  refine { after with cached := ?_ }
  intro cb listed
  rcases List.mem_cons.mp listed with rfl | earlier
  · exact given
  · exact after.cached cb earlier

theorem alloc_cache_inode_built (built : Built image fs) (real ino type file : Nat) (numbered : ino = 0 ∨ ino = blknRoot)
    (done : allocCacheInode fs real ino type = .ok (file, next)) : Built image next := by
  obtain ⟨⟨number, mid⟩, taken, done⟩ := bind_ok done
  simp only [pure_ok, Except.ok.injEq, Prod.mk.injEq] at done
  obtain ⟨rfl, rfl⟩ := done
  have step : Built image mid ∧ (number = blknRoot ∨ (number, .inode) ∈ mid.allocs) := by
    by_cases zero : ino = 0
    · simp only [zero, ne_eq, not_true_eq_false, if_false] at taken
      obtain ⟨after, given, _⟩ := alloc_ino_built built .inode number taken
      exact ⟨after, Or.inr given⟩
    · simp only [ne_eq, zero, not_false_eq_true, if_true, Except.ok.injEq, Prod.mk.injEq] at taken
      obtain ⟨rfl, rfl⟩ := taken
      exact ⟨built, Or.inl (numbered.resolve_left zero)⟩
  refine { step.1 with inodes := ?_ }
  intro other listed
  rcases List.mem_cons.mp listed with rfl | earlier
  · exact step.2
  · exact step.1.inodes other earlier

theorem update_cache_built (built : Built image fs) (cb : Option Nat) (ino result : Nat) (done : updateCache fs cb ino = .ok (result, next)) :
    Built image next := by
  unfold updateCache at done
  by_cases zero : ino = 0
  · rw [if_pos zero] at done
    exact alloc_cache_block_built built result done
  · rw [if_neg zero] at done
    by_cases there : cb = some ino
    · simp only [if_pos there, Except.ok.injEq, Prod.mk.injEq] at done
      exact done.2 ▸ built
    · rw [if_neg there] at done
      cases found : searchCacheBlock fs ino with
      | none => simp [found] at done
      | some cb =>
          simp only [found, Except.ok.injEq, Prod.mk.injEq] at done
          exact done.2 ▸ built

theorem map_block_built (built : Built image fs) (file nblks ino : Nat) (done : mapBlock fs file nblks ino = .ok next) : Built image next := by
  unfold mapBlock at done
  by_cases direct : nblks < 12
  · simp only [dif_pos direct, pure_ok, Except.ok.injEq] at done
    exact done ▸ set_inode_built built file _
  · by_cases single : nblks < l1Nblks
    · simp only [dif_neg direct, if_pos single] at done
      obtain ⟨⟨l1, mid⟩, updated, done⟩ := bind_ok done
      have after := update_cache_built built _ _ l1 updated
      obtain rfl := Except.ok.inj done
      exact set_cache_built (set_inode_built after file _) l1 _ ino
    · by_cases double : nblks < l2Nblks
      · simp only [dif_neg direct, if_neg single, if_pos double] at done
        obtain ⟨⟨l2, mid⟩, updated, done⟩ := bind_ok done
        obtain ⟨⟨l1, last⟩, updated', done⟩ := bind_ok done
        have after := update_cache_built (update_cache_built built _ _ l2 updated) _ _ l1 updated'
        obtain rfl := Except.ok.inj done
        exact set_cache_built (set_inode_built (set_cache_built after l2 _ l1) file _) l1 _ ino
      · simp only [dif_neg direct, if_neg single, if_neg double, pure_ok, Except.ok.injEq] at done
        exact done ▸ built

theorem append_block_built (built : Built image fs) (file size ino : Nat) (done : appendBlock fs file size ino = .ok next) :
    Built image next := by
  obtain ⟨_, _, done⟩ := bind_ok done
  obtain ⟨_, _, done⟩ := bind_ok done
  obtain ⟨mid, mapped, done⟩ := bind_ok done
  have after := map_block_built built file _ ino mapped
  obtain rfl := Except.ok.inj done
  exact set_inode_built after file _

theorem add_entry_built (built : Built image fs) (current file : Nat) (name : Name) (done : addEntry fs current file name = .ok next) :
    Built image next := by
  obtain ⟨_, _, done⟩ := bind_ok done
  obtain ⟨⟨ino, taken⟩, alloc, done⟩ := bind_ok done
  obtain ⟨written, wrote, done⟩ := bind_ok done
  obtain ⟨appended, append, done⟩ := bind_ok done
  obtain rfl := Except.ok.inj done
  obtain ⟨first, given, _⟩ := alloc_ino_built (set_entry_built built _) .entry ino alloc
  have second := write_block_built first _ _ ino (List.mem_map_of_mem given) wrote
  exact set_inode_built (append_block_built second current _ ino append) file _

theorem open_file_loop_built (rounds : Nat) (built : Built image fs) (file : Nat) (content : HostFile) (offset last : Nat)
    (done : openFileLoop fs file content offset last rounds = .ok next) : Built image next := by
  induction rounds generalizing fs offset last with
  | zero => exact Except.ok.inj done ▸ built
  | succ rounds ih =>
      obtain ⟨_, _, done⟩ := bind_ok done
      obtain ⟨⟨ino, taken⟩, alloc, done⟩ := bind_ok done
      obtain ⟨written, wrote, done⟩ := bind_ok done
      obtain ⟨appended, append, done⟩ := bind_ok done
      obtain ⟨first, given, _⟩ := alloc_ino_built built .data ino alloc
      have second := write_block_built first _ _ ino (List.mem_map_of_mem given) wrote
      exact ih (append_block_built second file _ ino append) _ _ done

theorem open_link_built (built : Built image fs) (file : Nat) (target : HostFile) (done : openLink fs file target = .ok next) :
    Built image next := by
  obtain ⟨⟨ino, taken⟩, alloc, done⟩ := bind_ok done
  obtain ⟨_, _, done⟩ := bind_ok done
  obtain ⟨written, wrote, done⟩ := bind_ok done
  obtain ⟨first, given, _⟩ := alloc_ino_built built .data ino alloc
  have second := write_block_built first _ _ ino (List.mem_map_of_mem given) wrote
  exact append_block_built second file _ ino done

theorem add_file_built (built : Built image fs) (current : Nat) (name : Name) (real : Nat) (content : HostFile)
    (done : addFile fs current name real content = .ok next) : Built image next := by
  unfold addFile at done
  cases found : searchCacheInode fs real with
  | some file =>
      simp only [found] at done
      exact add_entry_built built current file name done
  | none =>
      simp only [found] at done
      obtain ⟨⟨file, made⟩, alloc, done⟩ := bind_ok done
      obtain ⟨filled, opened, done⟩ := bind_ok done
      have first := alloc_cache_inode_built built real 0 typeFile file (Or.inl rfl) alloc
      have second := open_file_loop_built _ first file content 0 blkSize opened
      exact add_entry_built second current file name done

theorem add_link_built (built : Built image fs) (current : Nat) (name : Name) (real : Nat) (target : HostFile)
    (done : addLink fs current name real target = .ok next) : Built image next := by
  obtain ⟨⟨file, made⟩, alloc, done⟩ := bind_ok done
  obtain ⟨filled, opened, done⟩ := bind_ok done
  have first := alloc_cache_inode_built built real 0 typeLink file (Or.inl rfl) alloc
  exact add_entry_built (open_link_built first file target opened) current file name done

theorem add_dots_built (built : Built image fs) (current parent : Nat) (done : addDots fs current parent = .ok next) : Built image next := by
  obtain ⟨mid, first, second⟩ := bind_ok done
  exact add_entry_built (add_entry_built built current current _ first) current parent _ second

-- Induction on the tree; each entry that is not skipped is one of the steps above.
theorem open_dir_loop_built (home : HostDir) (current : Nat) (built : Built image fs) (done : openDirLoop current home fs = .ok next) :
    Built image next := by
  induction home generalizing fs next current with
  | nil => exact Except.ok.inj done ▸ built
  | dir name real inner rest inside after =>
      unfold openDirLoop at done
      by_cases skipped : hidden name
      · rw [if_pos skipped] at done
        exact after current built done
      · rw [if_neg skipped] at done
        obtain ⟨_, _, done⟩ := bind_ok done
        obtain ⟨_, _, done⟩ := bind_ok done
        obtain ⟨⟨ino, made⟩, alloc, done⟩ := bind_ok done
        obtain ⟨dotted, dots, done⟩ := bind_ok done
        obtain ⟨filled, opened, done⟩ := bind_ok done
        obtain ⟨entered, entry, done⟩ := bind_ok done
        have first := alloc_cache_inode_built built real 0 typeDir ino (Or.inl rfl) alloc
        have second := inside ino (add_dots_built first ino current dots) opened
        exact after current (add_entry_built second current ino name entry) done
  | file name real content rest after =>
      unfold openDirLoop at done
      by_cases skipped : hidden name
      · rw [if_pos skipped] at done
        exact after current built done
      · rw [if_neg skipped] at done
        obtain ⟨_, _, done⟩ := bind_ok done
        obtain ⟨added, add, done⟩ := bind_ok done
        exact after current (add_file_built built current name real content add) done
  | link name real target rest after =>
      unfold openDirLoop at done
      by_cases skipped : hidden name
      · rw [if_pos skipped] at done
        exact after current built done
      · rw [if_neg skipped] at done
        obtain ⟨_, _, done⟩ := bind_ok done
        obtain ⟨added, add, done⟩ := bind_ok done
        exact after current (add_link_built built current name real target add) done
  | other name rest after =>
      unfold openDirLoop at done
      by_cases skipped : hidden name
      · rw [if_pos skipped] at done
        exact after current built done
      · rw [if_neg skipped] at done
        obtain ⟨_, _, done⟩ := bind_ok done
        exact after current built done

theorem create_sfs_built (stSize : Nat) (garbage : Bytes) (done : createSfs stSize garbage image = .ok fs) : Built image fs := by
  obtain ⟨room, done⟩ := check_bind_ok done
  obtain ⟨⟨root, made⟩, alloc, done⟩ := bind_ok done
  obtain rfl := Except.ok.inj done
  refine alloc_cache_inode_built ?_ 0 blknRoot typeDir root (Or.inr rfl) alloc
  refine ⟨Nat.min_le_right _ _, of_decide_eq_true room, le_refl _, Nat.le_of_lt (of_decide_eq_true room), rfl, List.nodup_nil, ?_, ?_, ?_, ?_⟩
  · intro b
    constructor
    · intro given
      cases given
    · intro between
      exact absurd between.2 (Nat.not_lt.mpr between.1)
  · intro ino listed
    cases listed
  · intro cb listed
    cases listed
  · intro b changed
    exact absurd rfl changed

end Steps

end Ucore.Mksfs
