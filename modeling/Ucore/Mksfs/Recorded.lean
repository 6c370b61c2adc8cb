import Mathlib.Data.List.Nodup
import Ucore.Lib.Bytes
import Ucore.Mksfs.Allocs

set_option autoImplicit false

namespace Ucore.Mksfs

open Ucore.Lib
open Ucore.Sfs (blkSize blkBits blknSuper blknRoot blknFreemap nDirect blkNentry maxFileSize typeDir typeFile typeLink roundUpDiv)

-- The block that an inode in the cache maps an index to, up to the last one that
-- the indirect block holds.
def fileSlot (fs : MksfsFs) (file i : Nat) : Nat :=
  if bound : i < 12 then (fs.inodeAt file).din.direct ⟨i, bound⟩
  else getLe (fs.cacheAt (fs.inodeAt file).din.indirect) ((i - 12) * 4) 4

-- The blocks of an inode: up to 1036, the indirect block for those from the
-- thirteenth on, and all of them given out for what they are used for.
structure MappedInode (fs : MksfsFs) (ino : Nat) : Prop where
  sized : (fs.inodeAt ino).din.size < 2 ^ 32
  bounded : (fs.inodeAt ino).nblks ≤ 1036
  blocks : (fs.inodeAt ino).din.blocks = (fs.inodeAt ino).nblks
  few : (fs.inodeAt ino).nblks ≤ 12 → (fs.inodeAt ino).din.indirect = 0 ∧ (fs.inodeAt ino).l1 = none
  many : 12 < (fs.inodeAt ino).nblks →
    (fs.inodeAt ino).l1 = some (fs.inodeAt ino).din.indirect ∧ (fs.inodeAt ino).din.indirect ∈ fs.blockList
  direct : ∀ k, (fs.inodeAt ino).din.direct k = 0 ∨ fs.allocated ((fs.inodeAt ino).din.direct k)
  slots : ∀ i, i < (fs.inodeAt ino).nblks → (fileSlot fs ino i, .entry) ∈ fs.allocs ∨ (fileSlot fs ino i, .data) ∈ fs.allocs

structure Mapped (fs : MksfsFs) : Prop where
  each : ∀ ino ∈ fs.inodeList, MappedInode fs ino
  apart : ∀ a ∈ fs.inodeList, ∀ b ∈ fs.inodeList, 12 < (fs.inodeAt a).nblks → 12 < (fs.inodeAt b).nblks →
    (fs.inodeAt a).din.indirect = (fs.inodeAt b).din.indirect → a = b

-- What the steps of the build leave as it is: all that is there, up to the ends of
-- the inodes that grow.
structure Extends (grows : Nat → Prop) (fs next : MksfsFs) : Prop where
  inodes : ∀ ino ∈ fs.inodeList, ino ∈ next.inodeList
  real : ∀ ino ∈ fs.inodeList, (next.inodeAt ino).real = (fs.inodeAt ino).real
  type : ∀ ino ∈ fs.inodeList, (next.inodeAt ino).din.type = (fs.inodeAt ino).din.type
  slots : ∀ ino ∈ fs.inodeList, ∀ i, i < (fs.inodeAt ino).nblks → fileSlot next ino i = fileSlot fs ino i
  longer : ∀ ino ∈ fs.inodeList, (fs.inodeAt ino).nblks ≤ (next.inodeAt ino).nblks
  same : ∀ ino ∈ fs.inodeList, ¬ grows ino →
    (next.inodeAt ino).nblks = (fs.inodeAt ino).nblks ∧ (next.inodeAt ino).din.size = (fs.inodeAt ino).din.size
  allocs : ∀ given ∈ fs.allocs, given ∈ next.allocs
  blocks : ∀ cb ∈ fs.blockList, cb ∈ next.blockList
  disk : ∀ b, fs.allocated b → next.disk b = fs.disk b

section Extends

variable {grows : Nat → Prop} {fs mid next : MksfsFs}

theorem extends_refl (fs : MksfsFs) : Extends grows fs fs :=
  ⟨fun _ listed => listed, fun _ _ => rfl, fun _ _ => rfl, fun _ _ _ _ => rfl, fun _ _ => le_refl _, fun _ _ _ => ⟨rfl, rfl⟩,
    fun _ given => given, fun _ cached => cached, fun _ _ => rfl⟩

theorem extends_allocated (ext : Extends grows fs next) (b : Nat) (given : fs.allocated b) : next.allocated b := by
  obtain ⟨pair, member, same⟩ := List.mem_map.mp given
  exact List.mem_map.mpr ⟨pair, ext.allocs pair member, same⟩

-- The second step may also let grow what the first one has brought.
theorem extends_trans {also : Nat → Prop} (first : Extends grows fs mid) (second : Extends also mid next)
    (inside : ∀ ino ∈ fs.inodeList, also ino → grows ino) : Extends grows fs next := by
  constructor
  · exact fun ino listed => second.inodes ino (first.inodes ino listed)
  · exact fun ino listed => (second.real ino (first.inodes ino listed)).trans (first.real ino listed)
  · exact fun ino listed => (second.type ino (first.inodes ino listed)).trans (first.type ino listed)
  · intro ino listed i below
    rw [second.slots ino (first.inodes ino listed) i (Nat.lt_of_lt_of_le below (first.longer ino listed)), first.slots ino listed i below]
  · exact fun ino listed => le_trans (first.longer ino listed) (second.longer ino (first.inodes ino listed))
  · intro ino listed still
    obtain ⟨nblks, size⟩ := first.same ino listed still
    obtain ⟨nblks', size'⟩ := second.same ino (first.inodes ino listed) fun grown => still (inside ino listed grown)
    exact ⟨nblks'.trans nblks, size'.trans size⟩
  · exact fun given member => second.allocs given (first.allocs given member)
  · exact fun cb cached => second.blocks cb (first.blocks cb cached)
  · exact fun b given => (second.disk b (extends_allocated first b given)).trans (first.disk b given)

theorem extends_weaken {more : Nat → Prop} (ext : Extends grows fs next) (inside : ∀ ino ∈ fs.inodeList, grows ino → more ino) :
    Extends more fs next := extends_trans (extends_refl fs) ext inside

end Extends

section Numbers

variable {image : Nat → Bytes} {fs next : MksfsFs}

theorem given_small (built : Built image fs) (b : Nat) (given : fs.allocated b) : 2 < b ∧ b < fs.nextIno ∧ b < 2 ^ 32 := by
  have range := (built.allocs b).mp given
  have room := built.room
  have upper := built.upper
  have small := built.small
  have ends : 2 < freemapEnd fs.ninos := by
    simp only [freemapEnd, blknFreemap, roundUpDiv, blkBits, blkSize] at room ⊢
    omega
  have wide : maxNblks < 2 ^ 32 := by decide
  omega

theorem given_once (built : Built image fs) (b : Nat) (use other : AllocUse) (first : (b, use) ∈ fs.allocs) (second : (b, other) ∈ fs.allocs) :
    use = other := (Prod.mk.inj (List.inj_on_of_nodup_map built.distinct first second rfl)).2

theorem alloc_ino_shape (use : AllocUse) (ino : Nat) (done : sfsAllocIno fs use = .ok (ino, next)) : ino = fs.nextIno ∧
    next = { fs with unusedBlocks := dec32 fs.unusedBlocks, nextIno := fs.nextIno + 1, allocs := (fs.nextIno, use) :: fs.allocs } := by
  unfold sfsAllocIno at done
  by_cases room : fs.nextIno < fs.ninos
  · simp only [if_pos room, Except.ok.injEq, Prod.mk.injEq] at done
    exact ⟨done.1.symm, done.2.symm⟩
  · simp [if_neg room] at done

theorem next_fresh (built : Built image fs) : ¬ fs.allocated fs.nextIno := fun given => absurd ((built.allocs _).mp given).2 (lt_irrefl _)

theorem file_slot_congr (ino i : Nat) (direct : (next.inodeAt ino).din.direct = (fs.inodeAt ino).din.direct)
    (indirect : (next.inodeAt ino).din.indirect = (fs.inodeAt ino).din.indirect)
    (cache : 12 ≤ i → next.cacheAt (fs.inodeAt ino).din.indirect = fs.cacheAt (fs.inodeAt ino).din.indirect) :
    fileSlot next ino i = fileSlot fs ino i := by
  unfold fileSlot
  by_cases small : i < 12
  · rw [dif_pos small, dif_pos small, direct]
  · rw [dif_neg small, dif_neg small, indirect, cache (by omega)]

-- An inode is not touched, and no block is taken back.
theorem mapped_inode_kept (ino : Nat) (mapped : MappedInode fs ino) (same : next.inodeAt ino = fs.inodeAt ino)
    (cache : 12 < (fs.inodeAt ino).nblks → next.cacheAt (fs.inodeAt ino).din.indirect = fs.cacheAt (fs.inodeAt ino).din.indirect)
    (allocs : ∀ given ∈ fs.allocs, given ∈ next.allocs) (blocks : ∀ cb ∈ fs.blockList, cb ∈ next.blockList) : MappedInode next ino := by
  have grown : ∀ b, fs.allocated b → next.allocated b := by
    intro b given
    obtain ⟨pair, member, here⟩ := List.mem_map.mp given
    exact List.mem_map.mpr ⟨pair, allocs pair member, here⟩
  constructor
  · rw [same]
    exact mapped.sized
  · rw [same]
    exact mapped.bounded
  · rw [same]
    exact mapped.blocks
  · rw [same]
    exact mapped.few
  · rw [same]
    exact fun many => ⟨(mapped.many many).1, blocks _ (mapped.many many).2⟩
  · rw [same]
    exact fun k => (mapped.direct k).imp_right (grown _)
  · rw [same]
    intro i below
    rw [file_slot_congr ino i (by rw [same]) (by rw [same]) fun late => cache (by omega)]
    exact (mapped.slots i below).imp (allocs _) (allocs _)

-- A block for an entry or for data: given out and written.
structure Stored (fs next : MksfsFs) (use : AllocUse) (b : Nat) (block : Bytes) : Prop where
  given : (b, use) ∈ next.allocs
  fresh : ¬ fs.allocated b
  mapped : Mapped next
  ext : Extends (fun _ => False) fs next
  block : next.disk b = block
  inodeList : next.inodeList = fs.inodeList
  inodeAt : next.inodeAt = fs.inodeAt
  entry : next.entry = fs.entry

theorem store_block (built : Built image fs) (mapped : Mapped fs) (use : AllocUse) (b : Nat) (mid : MksfsFs) (data : Bytes) (len : Nat)
    (alloc : sfsAllocIno fs use = .ok (b, mid)) (wrote : writeBlock mid data len b = .ok next) :
    Built image next ∧ Stored fs next use b (memcpy zeroBytes 0 data len) := by
  obtain ⟨after, given, _, _⟩ := alloc_ino_built built use b alloc
  have builtN := write_block_built after data len b (List.mem_map_of_mem given) wrote
  obtain ⟨rfl, rfl⟩ := alloc_ino_shape use b alloc
  obtain ⟨_, _, wrote⟩ := bind_ok wrote
  obtain rfl := Except.ok.inj wrote
  refine ⟨builtN, given, next_fresh built, ⟨fun ino listed => ?_, mapped.apart⟩, ?_, Function.update_self _ _ _, rfl, rfl, rfl⟩
  · exact mapped_inode_kept ino (mapped.each ino listed) rfl (fun _ => rfl) (fun given member => List.mem_cons_of_mem _ member) fun _ cached => cached
  · refine ⟨fun _ listed => listed, fun _ _ => rfl, fun _ _ => rfl, fun ino _ i _ => file_slot_congr ino i rfl rfl fun _ => rfl, fun _ _ => le_refl _,
      fun _ _ _ => ⟨rfl, rfl⟩, fun given member => List.mem_cons_of_mem _ member, fun _ cached => cached, fun b given => ?_⟩
    refine Function.update_of_ne (fun same => ?_) _ _
    exact next_fresh built (same ▸ given)

theorem inode_not_next (built : Built image fs) : fs.nextIno ∉ fs.inodeList := by
  intro listed
  rcases built.inodes _ listed with root | given
  · have lower := built.lower
    simp only [freemapEnd, blknFreemap, root, blknRoot] at lower
    omega
  · exact next_fresh built (List.mem_map_of_mem given)

-- A new inode, without blocks and names.
structure Opened (fs next : MksfsFs) (real type file : Nat) : Prop where
  mapped : Mapped next
  ext : Extends (fun _ => False) fs next
  fresh : file ∉ fs.inodeList
  inodeList : next.inodeList = file :: fs.inodeList
  inode : next.inodeAt file = ⟨real, ⟨0, type, 0, 0, fun _ => 0, 0⟩, 0, 0, none, none⟩
  others : ∀ ino, ino ≠ file → next.inodeAt ino = fs.inodeAt ino

theorem alloc_cache_inode_step (built : Built image fs) (mapped : Mapped fs) (real type file : Nat)
    (done : allocCacheInode fs real 0 type = .ok (file, next)) : Opened fs next real type file := by
  obtain ⟨⟨number, mid⟩, taken, done⟩ := bind_ok done
  simp only [pure_ok, Except.ok.injEq, Prod.mk.injEq] at done
  obtain ⟨rfl, rfl⟩ := done
  obtain ⟨rfl, rfl⟩ := alloc_ino_shape .inode number taken
  have fresh := inode_not_next built
  have apart : ∀ ino ∈ fs.inodeList, ino ≠ fs.nextIno := fun ino listed same => fresh (same ▸ listed)
  have still : ∀ ino, ino ≠ fs.nextIno →
      Function.update fs.inodeAt fs.nextIno ⟨real, ⟨0, type, 0, 0, fun _ => 0, 0⟩, 0, 0, none, none⟩ ino = fs.inodeAt ino :=
    fun ino other => Function.update_of_ne other _ _
  have new := Function.update_self fs.nextIno (⟨real, ⟨0, type, 0, 0, fun _ => 0, 0⟩, 0, 0, none, none⟩ : CacheInode) fs.inodeAt
  refine ⟨⟨fun ino listed => ?_, fun a listedA b listedB manyA manyB same => ?_⟩, ?_, fresh, rfl, new, still⟩
  · rcases List.mem_cons.mp listed with rfl | earlier
    · constructor
      · simp only [new]
        decide
      · simp only [new]
        decide
      · simp only [new]
      · simp
      · simp only [new]
        omega
      · simp
      · simp only [new]
        omega
    · exact mapped_inode_kept ino (mapped.each ino earlier) (still ino (apart ino earlier)) (fun _ => rfl)
        (fun given member => List.mem_cons_of_mem _ member) fun _ cached => cached
  · have old : ∀ ino, ino ∈ fs.nextIno :: fs.inodeList →
        12 < (Function.update fs.inodeAt fs.nextIno ⟨real, ⟨0, type, 0, 0, fun _ => 0, 0⟩, 0, 0, none, none⟩ ino).nblks → ino ∈ fs.inodeList := by
      intro ino listed many
      rcases List.mem_cons.mp listed with rfl | earlier
      · rw [new] at many
        cases many
      · exact earlier
    have inA := old a listedA manyA
    have inB := old b listedB manyB
    simp only [still a (apart a inA), still b (apart b inB)] at manyA manyB same
    exact mapped.apart a inA b inB manyA manyB same
  · refine ⟨fun ino listed => List.mem_cons_of_mem _ listed, fun ino listed => ?_, fun ino listed => ?_, fun ino listed i below => ?_,
      fun ino listed => ?_, fun ino listed _ => ?_, fun given member => List.mem_cons_of_mem _ member, fun _ cached => cached, fun _ _ => rfl⟩
    · simp only [still ino (apart ino listed)]
    · simp only [still ino (apart ino listed)]
    · exact file_slot_congr ino i (by simp only [still ino (apart ino listed)]) (by simp only [still ino (apart ino listed)]) fun _ => rfl
    · simp only [still ino (apart ino listed), le_refl]
    · simp only [still ino (apart ino listed), and_self]

-- A block at the end of an inode.
structure Appended (fs next : MksfsFs) (file b size : Nat) : Prop where
  mapped : Mapped next
  ext : Extends (fun ino => ino = file) fs next
  inodeList : next.inodeList = fs.inodeList
  nblks : (next.inodeAt file).nblks = (fs.inodeAt file).nblks + 1
  size : (next.inodeAt file).din.size = ((fs.inodeAt file).din.size + size) % 2 ^ 32
  slot : fileSlot next file (fs.inodeAt file).nblks = b
  nlinks : ∀ ino, (next.inodeAt ino).din.nlinks = (fs.inodeAt ino).din.nlinks
  disk : next.disk = fs.disk
  entry : next.entry = fs.entry

-- The inode behind append_block, with its new block map.
def appendedInode (inode : CacheInode) (direct : Fin 12 → Nat) (indirect : Nat) (l1 : Option Nat) (size : Nat) : CacheInode :=
  { inode with
    nblks := inode.nblks + 1
    l1 := l1
    din := { inode.din with
      direct := direct
      indirect := indirect
      size := (inode.din.size + size) % 2 ^ 32
      blocks := (inode.din.blocks + 1) % 2 ^ 32 } }

-- The other inodes, where only the indirect block c has changed.
theorem appended_of (mapped : Mapped fs) (file b size : Nat) (listed : file ∈ fs.inodeList) (inode : CacheInode) (c : Nat)
    (inodeAt : next.inodeAt = Function.update fs.inodeAt file inode) (real : inode.real = (fs.inodeAt file).real)
    (type : inode.din.type = (fs.inodeAt file).din.type) (nlinks : inode.din.nlinks = (fs.inodeAt file).din.nlinks)
    (nblks : inode.nblks = (fs.inodeAt file).nblks + 1) (grown : inode.din.size = ((fs.inodeAt file).din.size + size) % 2 ^ 32)
    (inodeList : next.inodeList = fs.inodeList) (disk : next.disk = fs.disk) (entry : next.entry = fs.entry)
    (allocs : ∀ given ∈ fs.allocs, given ∈ next.allocs) (blocks : ∀ cb ∈ fs.blockList, cb ∈ next.blockList)
    (cache : ∀ other, other ≠ c → next.cacheAt other = fs.cacheAt other)
    (away : ∀ ino ∈ fs.inodeList, ino ≠ file → 12 < (fs.inodeAt ino).nblks → (fs.inodeAt ino).din.indirect ≠ c)
    (kept : ∀ i, i < (fs.inodeAt file).nblks → fileSlot next file i = fileSlot fs file i) (slot : fileSlot next file (fs.inodeAt file).nblks = b)
    (own : MappedInode next file) (only : 12 < inode.nblks → inode.din.indirect = c) : Appended fs next file b size := by
  have here : next.inodeAt file = inode := by rw [inodeAt, Function.update_self]
  have still : ∀ ino, ino ≠ file → next.inodeAt ino = fs.inodeAt ino := fun ino other => by rw [inodeAt, Function.update_of_ne other]
  have others : ∀ ino ∈ fs.inodeList, ino ≠ file → 12 < (fs.inodeAt ino).nblks →
      next.cacheAt (fs.inodeAt ino).din.indirect = fs.cacheAt (fs.inodeAt ino).din.indirect :=
    fun ino inside other many => cache _ (away ino inside other many)
  refine ⟨⟨fun ino inside => ?_, fun x insideX y insideY manyX manyY same => ?_⟩, ⟨fun ino inside => by rwa [inodeList], fun ino inside => ?_,
    fun ino inside => ?_, fun ino inside i below => ?_, fun ino inside => ?_, fun ino inside other => ?_, allocs, blocks, fun x _ => by rw [disk]⟩,
    inodeList, by rw [here, nblks], by rw [here, grown], slot, fun ino => ?_, disk, entry⟩
  · rw [inodeList] at inside
    by_cases same : ino = file
    · exact same ▸ own
    · exact mapped_inode_kept ino (mapped.each ino inside) (still ino same) (others ino inside same) allocs blocks
  · rw [inodeList] at insideX insideY
    by_cases first : x = file
    · by_cases second : y = file
      · rw [first, second]
      · rw [first, here] at manyX same
        rw [still y second] at manyY same
        exact absurd (same.symm.trans (only manyX)) (away y insideY second manyY)
    · rw [still x first] at manyX same
      by_cases second : y = file
      · rw [second, here] at manyY same
        exact absurd (same.trans (only manyY)) (away x insideX first manyX)
      · rw [still y second] at manyY same
        exact mapped.apart x insideX y insideY manyX manyY same
  · by_cases same : ino = file
    · rw [same, here, real]
    · rw [still ino same]
  · by_cases same : ino = file
    · rw [same, here, type]
    · rw [still ino same]
  · by_cases same : ino = file
    · subst same
      exact kept i below
    · exact file_slot_congr ino i (by rw [still ino same]) (by rw [still ino same]) fun late => others ino inside same (by omega)
  · by_cases same : ino = file
    · rw [same, here, nblks]
      omega
    · rw [still ino same]
  · rw [still ino other]
    exact ⟨rfl, rfl⟩
  · by_cases same : ino = file
    · rw [same, here, nlinks]
    · rw [still ino same]

theorem append_direct (built : Built image fs) (mapped : Mapped fs) (file b size : Nat) (listed : file ∈ fs.inodeList)
    (bound : (fs.inodeAt file).nblks < 12) (use : (b, .entry) ∈ fs.allocs ∨ (b, .data) ∈ fs.allocs)
    (shape : next = setInode fs file (appendedInode (fs.inodeAt file)
      (Function.update (fs.inodeAt file).din.direct ⟨(fs.inodeAt file).nblks, bound⟩ b) (fs.inodeAt file).din.indirect (fs.inodeAt file).l1 size)) :
    Appended fs next file b size := by
  have old := mapped.each file listed
  have counted := old.blocks
  subst shape
  have slots : ∀ i, fileSlot (setInode fs file (appendedInode (fs.inodeAt file)
      (Function.update (fs.inodeAt file).din.direct ⟨(fs.inodeAt file).nblks, bound⟩ b) (fs.inodeAt file).din.indirect (fs.inodeAt file).l1 size))
      file i = if i = (fs.inodeAt file).nblks then b else fileSlot fs file i := by
    intro i
    simp only [fileSlot, setInode, Function.update_self, appendedInode]
    by_cases small : i < 12
    · rw [dif_pos small, dif_pos small]
      by_cases same : i = (fs.inodeAt file).nblks
      · subst same
        rw [if_pos rfl, Function.update_self]
      · rw [if_neg same, Function.update_of_ne fun equal => same (Fin.mk.inj equal)]
    · rw [dif_neg small, dif_neg small, if_neg (by omega)]
  have allocated : fs.allocated b := use.elim (fun given => List.mem_map_of_mem given) fun given => List.mem_map_of_mem given
  refine appended_of mapped file b size listed _ 0 rfl rfl rfl rfl rfl rfl rfl rfl rfl (fun _ given => given) (fun _ cached => cached) (fun _ _ => rfl)
    (fun ino inside _ many => ?_) (fun i below => by rw [slots, if_neg (by omega)]) (by rw [slots, if_pos rfl]) ?_ fun many => ?_
  · have given := List.mem_map_of_mem (f := Prod.fst) (built.cached _ ((mapped.each ino inside).many many).2)
    have positive := (given_small built _ given).1
    omega
  · have few := old.few (by omega)
    constructor
    · simp only [setInode, Function.update_self, appendedInode]
      exact Nat.mod_lt _ (Nat.two_pow_pos 32)
    · simp only [setInode, Function.update_self, appendedInode]
      omega
    · simp only [setInode, Function.update_self, appendedInode, counted]
      omega
    · simp only [setInode, Function.update_self, appendedInode]
      exact fun _ => few
    · simp only [setInode, Function.update_self, appendedInode]
      omega
    · intro k
      simp only [setInode, Function.update_self, appendedInode]
      by_cases same : k = ⟨(fs.inodeAt file).nblks, bound⟩
      · rw [same, Function.update_self]
        exact .inr allocated
      · rw [Function.update_of_ne same]
        exact old.direct k
    · intro i below
      simp only [setInode, Function.update_self, appendedInode] at below
      rw [slots]
      by_cases same : i = (fs.inodeAt file).nblks
      · rw [if_pos same]
        exact use
      · rw [if_neg same]
        exact old.slots i (by omega)
  · simp only [appendedInode] at many
    omega

theorem append_indirect (built : Built image fs) (mapped : Mapped fs) (file b size : Nat) (listed : file ∈ fs.inodeList)
    (lower : 12 ≤ (fs.inodeAt file).nblks) (upper : (fs.inodeAt file).nblks < 1036) (use : (b, .entry) ∈ fs.allocs ∨ (b, .data) ∈ fs.allocs)
    (c : Nat) (old : Bytes)
    (inodeAt : next.inodeAt = Function.update fs.inodeAt file (appendedInode (fs.inodeAt file) (fs.inodeAt file).din.direct c (some c) size))
    (cacheAt : next.cacheAt = Function.update fs.cacheAt c (memcpy old (4 * ((fs.inodeAt file).nblks - l0Nblks)) (toLe b) 4))
    (inodeList : next.inodeList = fs.inodeList) (disk : next.disk = fs.disk) (entry : next.entry = fs.entry)
    (allocs : ∀ given ∈ fs.allocs, given ∈ next.allocs) (blocks : ∀ cb ∈ fs.blockList, cb ∈ next.blockList) (given : c ∈ next.blockList)
    (fresh : (fs.inodeAt file).nblks = 12 → ¬ fs.allocated c)
    (more : 12 < (fs.inodeAt file).nblks → c = (fs.inodeAt file).din.indirect ∧ old = fs.cacheAt c) : Appended fs next file b size := by
  have before := mapped.each file listed
  have counted := before.blocks
  have here : next.inodeAt file = appendedInode (fs.inodeAt file) (fs.inodeAt file).din.direct c (some c) size := by rw [inodeAt, Function.update_self]
  have allocated : fs.allocated b := use.elim (fun given => List.mem_map_of_mem given) fun given => List.mem_map_of_mem given
  have small := (given_small built b allocated).2.2
  have slots : ∀ i, i ≤ (fs.inodeAt file).nblks → fileSlot next file i = if i = (fs.inodeAt file).nblks then b else fileSlot fs file i := by
    intro i bound
    simp only [fileSlot, here, appendedInode, cacheAt, Function.update_self]
    by_cases low : i < 12
    · rw [dif_pos low, dif_pos low, if_neg (by omega)]
    · rw [dif_neg low, dif_neg low]
      by_cases same : i = (fs.inodeAt file).nblks
      · subst same
        rw [if_pos rfl, Nat.mul_comm _ 4]
        exact (get_le_memcpy_same _ _ _ _).trans (get_le_to_le b 4 small)
      · obtain ⟨sameBlock, rfl⟩ := more (by omega)
        rw [if_neg same, get_le_memcpy_other _ _ _ _ _ _ (.inl (by simp only [l0Nblks, Ucore.Sfs.nDirect]; omega)), sameBlock]
  refine appended_of mapped file b size listed _ c inodeAt rfl rfl rfl rfl rfl inodeList disk entry allocs blocks
    (fun other apart => by rw [cacheAt, Function.update_of_ne apart]) (fun ino inside other many same => ?_)
    (fun i below => by rw [slots i (by omega), if_neg (by omega)]) (by rw [slots _ (le_refl _), if_pos rfl]) ?_ fun _ => rfl
  · have theirs := built.cached _ ((mapped.each ino inside).many many).2
    by_cases first : (fs.inodeAt file).nblks = 12
    · exact fresh first (same ▸ List.mem_map_of_mem theirs)
    · have many' : 12 < (fs.inodeAt file).nblks := by omega
      exact other (mapped.apart ino inside file listed many many' (same.trans (more many').1))
  · constructor
    · simp only [here, appendedInode]
      exact Nat.mod_lt _ (Nat.two_pow_pos 32)
    · simp only [here, appendedInode]
      omega
    · simp only [here, appendedInode, counted]
      omega
    · simp only [here, appendedInode]
      omega
    · simp only [here, appendedInode]
      exact fun _ => ⟨trivial, given⟩
    · intro k
      simp only [here, appendedInode]
      refine (before.direct k).imp_right fun held => ?_
      obtain ⟨pair, member, same⟩ := List.mem_map.mp held
      exact List.mem_map.mpr ⟨pair, allocs pair member, same⟩
    · intro i below
      simp only [here, appendedInode] at below
      rw [slots i (by omega)]
      by_cases same : i = (fs.inodeAt file).nblks
      · rw [if_pos same]
        exact use.imp (allocs _) (allocs _)
      · rw [if_neg same]
        exact (before.slots i (by omega)).imp (allocs _) (allocs _)

theorem update_cache_first (cb : Option Nat) (c : Nat) (done : updateCache fs cb 0 = .ok (c, next)) :
    c = fs.nextIno ∧ next.inodeAt = fs.inodeAt ∧ next.cacheAt = Function.update fs.cacheAt c zeroBytes ∧ next.inodeList = fs.inodeList ∧
      next.disk = fs.disk ∧ next.entry = fs.entry ∧ next.allocs = (c, .indirect) :: fs.allocs ∧ next.blockList = c :: fs.blockList := by
  obtain ⟨⟨number, taken⟩, alloc, made⟩ := bind_ok done
  obtain ⟨rfl, rfl⟩ := alloc_ino_shape .indirect number alloc
  simp only [pure_ok, Except.ok.injEq, Prod.mk.injEq] at made
  obtain ⟨rfl, rfl⟩ := made
  exact ⟨rfl, rfl, rfl, rfl, rfl, rfl, rfl, rfl⟩

theorem append_block_step (built : Built image fs) (mapped : Mapped fs) (file b size : Nat) (listed : file ∈ fs.inodeList)
    (room : (fs.inodeAt file).nblks < 1036) (use : (b, .entry) ∈ fs.allocs ∨ (b, .data) ∈ fs.allocs)
    (done : appendBlock fs file size b = .ok next) : Appended fs next file b size := by
  have before := mapped.each file listed
  obtain ⟨_, _, done⟩ := bind_ok done
  obtain ⟨_, _, done⟩ := bind_ok done
  obtain ⟨mid, placed, done⟩ := bind_ok done
  obtain rfl := Except.ok.inj done
  unfold mapBlock at placed
  by_cases direct : (fs.inodeAt file).nblks < 12
  · simp only [dif_pos direct, pure_ok, Except.ok.injEq] at placed
    subst placed
    refine append_direct built mapped file b size listed direct use ?_
    simp only [setInode, Function.update_self, Function.update_idem, appendedInode]
  · have single : (fs.inodeAt file).nblks < l1Nblks := room
    simp only [dif_neg direct, if_pos single] at placed
    obtain ⟨⟨c, cached⟩, updated, placed⟩ := bind_ok placed
    obtain rfl := Except.ok.inj placed
    by_cases first : (fs.inodeAt file).nblks = 12
    · rw [(before.few (by omega)).1] at updated
      obtain ⟨rfl, inodeAt, cacheAt, inodeList, disk, entry, allocs, blockList⟩ := update_cache_first _ c updated
      refine append_indirect built mapped file b size listed (by omega) room use fs.nextIno zeroBytes ?_ ?_ inodeList disk entry ?_ ?_ ?_
        (fun _ => next_fresh built) fun more => by omega
      · simp only [setCache, setInode, inodeAt, Function.update_self, Function.update_idem, appendedInode]
      · simp only [setCache, setInode, cacheAt, Function.update_self, Function.update_idem]
      · intro given member
        simp only [setCache, setInode, allocs, List.mem_cons, member, or_true]
      · intro cb cached
        simp only [setCache, setInode, blockList, List.mem_cons, cached, or_true]
      · simp only [setCache, setInode, blockList, List.mem_cons, true_or]
    · obtain ⟨l1, given⟩ := before.many (by omega)
      have positive := (given_small built _ (List.mem_map_of_mem (built.cached _ given))).1
      have here : (fs.inodeAt file).din.indirect ≠ 0 := by
        simp only at positive
        omega
      rw [updateCache, if_neg here, if_pos l1, Except.ok.injEq, Prod.mk.injEq] at updated
      obtain ⟨rfl, rfl⟩ := updated
      refine append_indirect built mapped file b size listed (by omega) room use (fs.inodeAt file).din.indirect
        (fs.cacheAt (fs.inodeAt file).din.indirect) ?_ ?_ rfl rfl rfl (fun _ member => member) (fun _ member => member) given
        (fun same => absurd same first)
        fun _ => ⟨rfl, rfl⟩
      · simp only [setCache, setInode, Function.update_self, Function.update_idem, appendedInode]
      · simp only [setCache, setInode]

theorem listed_small (built : Built image fs) (ino : Nat) (listed : ino ∈ fs.inodeList) : 0 < ino ∧ ino < 2 ^ 32 := by
  rcases built.inodes ino listed with root | given
  · rw [root]
    decide
  · have bounds := given_small built ino (List.mem_map_of_mem given)
    omega

-- Another count of names.
theorem set_links_step (mapped : Mapped fs) (file links : Nat)
    (shape : next = setInode fs file { fs.inodeAt file with din := { (fs.inodeAt file).din with nlinks := links } }) :
    Mapped next ∧ Extends (fun _ => False) fs next ∧ ∀ ino i, fileSlot next ino i = fileSlot fs ino i := by
  subst shape
  have parts : ∀ ino, (setInode fs file { fs.inodeAt file with din := { (fs.inodeAt file).din with nlinks := links } }).inodeAt ino =
      { fs.inodeAt ino with din := { (fs.inodeAt ino).din with nlinks := if ino = file then links else (fs.inodeAt ino).din.nlinks } } := by
    intro ino
    by_cases same : ino = file
    · subst same
      simp only [setInode, Function.update_self, if_true]
    · simp only [setInode, Function.update_of_ne same, if_neg same]
  have slots : ∀ ino i, fileSlot (setInode fs file { fs.inodeAt file with din := { (fs.inodeAt file).din with nlinks := links } }) ino i =
      fileSlot fs ino i := fun ino i => file_slot_congr ino i (by rw [parts]) (by rw [parts]) fun _ => rfl
  refine ⟨⟨fun ino listed => ?_, fun a listedA b listedB => ?_⟩, ?_, slots⟩
  · have old := mapped.each ino listed
    constructor
    · rw [parts]
      exact old.sized
    · rw [parts]
      exact old.bounded
    · rw [parts]
      exact old.blocks
    · rw [parts]
      exact old.few
    · rw [parts]
      exact old.many
    · rw [parts]
      exact old.direct
    · rw [parts]
      intro i below
      rw [slots]
      exact old.slots i below
  · rw [parts, parts]
    exact mapped.apart a listedA b listedB
  · exact ⟨fun _ listed => listed, fun ino _ => by rw [parts], fun ino _ => by rw [parts], fun ino _ i _ => slots ino i,
      fun ino _ => by rw [parts], fun ino _ _ => by rw [parts]; exact ⟨rfl, rfl⟩, fun _ given => given, fun _ cached => cached, fun _ _ => rfl⟩

-- What add_entry writes: the number, and as much of the name as the first 256
-- bytes of the entry have room for, with its zero.
def storedName (name : Name) : List UInt8 := name.take (entryNameSize - 4) ++ [0]

structure EntryAt (fs : MksfsFs) (dir k : Nat) (name : Name) (ino : Nat) : Prop where
  below : k < (fs.inodeAt dir).nblks
  given : (fileSlot fs dir k, .entry) ∈ fs.allocs
  ino : getLe (fs.disk (fileSlot fs dir k)) 0 4 = ino
  name : HoldsAt (fs.disk (fileSlot fs dir k)) 4 (storedName name)

theorem entry_block_holds (old : Bytes) (file : Nat) (name : Name) (small : file < 2 ^ 32) :
    getLe (memcpy zeroBytes 0 (memcpy (memcpy old 0 (toLe file) 4) 4 (nameBytes name) (name.length + 1)) entryNameSize) 0 4 = file ∧
    HoldsAt (memcpy zeroBytes 0 (memcpy (memcpy old 0 (toLe file) 4) 4 (nameBytes name) (name.length + 1)) entryNameSize) 4 (storedName name) := by
  have size : entryNameSize = 256 := rfl
  constructor
  · rw [get_le_congr _ (memcpy (memcpy old 0 (toLe file) 4) 4 (nameBytes name) (name.length + 1)) 0 0 4 fun k below => by
      rw [memcpy_inside _ _ _ _ _ (Nat.zero_le _) (by omega), Nat.sub_zero],
      get_le_memcpy_other _ _ 4 _ 0 4 (.inl (by omega)), get_le_memcpy_same, get_le_to_le file 4 small]
  · intro i bound
    have length : (storedName name).length = min 252 name.length + 1 := by
      simp only [storedName, size, List.length_append, List.length_take, List.length_singleton]
    rw [length] at bound
    have at' : (storedName name).get ⟨i, by rw [length]; exact bound⟩ = if i < 252 then name.getD i 0 else 0 := by
      simp only [storedName, size, List.get_eq_getElem]
      by_cases early : i < min 252 name.length
      · rw [List.getElem_append_left (by simp only [List.length_take]; omega), List.getElem_take, if_pos (by omega),
          List.getD_eq_getElem?_getD, List.getElem?_eq_getElem (by omega)]
        rfl
      · rw [List.getElem_append_right (by simp only [List.length_take]; omega)]
        simp only [List.getElem_singleton]
        by_cases low : i < 252
        · rw [if_pos low, List.getD_eq_getElem?_getD, List.getElem?_eq_none (by omega)]
          rfl
        · rw [if_neg low]
    rw [at']
    by_cases low : i < 252
    · rw [if_pos low, memcpy_inside _ _ _ _ _ (Nat.zero_le _) (by omega), Nat.sub_zero, memcpy_inside _ _ _ _ _ (by omega) (by omega),
        Nat.add_sub_cancel_left, nameBytes]
    · rw [if_neg low, memcpy_outside _ _ _ _ _ (.inr (by omega)), zeroBytes]

theorem entry_at_extends {grows : Nat → Prop} (ext : Extends grows fs next) (dir k : Nat) (name : Name) (ino : Nat) (listed : dir ∈ fs.inodeList)
    (entry : EntryAt fs dir k name ino) : EntryAt next dir k name ino := by
  have slot := ext.slots dir listed k entry.below
  have block := ext.disk _ (List.mem_map_of_mem (f := Prod.fst) entry.given)
  refine ⟨Nat.lt_of_lt_of_le entry.below (ext.longer dir listed), ?_, ?_, ?_⟩
  · rw [slot]
    exact ext.allocs _ entry.given
  · rw [slot, block]
    exact entry.ino
  · rw [slot, block]
    exact entry.name

structure Entered (fs next : MksfsFs) (current file : Nat) (name : Name) : Prop where
  mapped : Mapped next
  ext : Extends (fun ino => ino = current) fs next
  inodeList : next.inodeList = fs.inodeList
  nblks : (next.inodeAt current).nblks = (fs.inodeAt current).nblks + 1
  entry : EntryAt next current (fs.inodeAt current).nblks name file
  nlinks : ∀ ino, (next.inodeAt ino).din.nlinks =
    if ino = file then ((fs.inodeAt ino).din.nlinks + 1) % 2 ^ 16 else (fs.inodeAt ino).din.nlinks

theorem add_entry_step (built : Built image fs) (mapped : Mapped fs) (current file : Nat) (name : Name) (listed : current ∈ fs.inodeList)
    (known : file ∈ fs.inodeList) (room : (fs.inodeAt current).nblks < 1036) (done : addEntry fs current file name = .ok next) :
    Entered fs next current file name := by
  obtain ⟨_, _, done⟩ := bind_ok done
  obtain ⟨⟨b, taken⟩, alloc, done⟩ := bind_ok done
  obtain ⟨written, wrote, done⟩ := bind_ok done
  obtain ⟨appended, append, done⟩ := bind_ok done
  have shape := (Except.ok.inj done).symm
  have start : Mapped { fs with entry := memcpy (memcpy fs.entry 0 (toLe file) 4) 4 (nameBytes name) (name.length + 1) } :=
    ⟨fun ino inside => mapped_inode_kept ino (mapped.each ino inside) rfl (fun _ => rfl) (fun _ given => given) fun _ cached => cached, mapped.apart⟩
  obtain ⟨builtW, stored⟩ := store_block (set_entry_built built _) start .entry b taken _ _ alloc wrote
  have sameAt : written.inodeAt = fs.inodeAt := stored.inodeAt
  have listedW : current ∈ written.inodeList := by rw [stored.inodeList]; exact listed
  have step := append_block_step builtW stored.mapped current b entryNameSize listedW (by rw [sameAt]; exact room) (.inl stored.given) append
  obtain ⟨mappedN, extN, slotsN⟩ := set_links_step step.mapped file _ shape
  have ext0 : Extends (fun ino => ino = current) fs written :=
    ⟨stored.ext.inodes, stored.ext.real, stored.ext.type, fun ino inside i below => (stored.ext.slots ino inside i below).trans
      (file_slot_congr ino i rfl rfl fun _ => rfl), stored.ext.longer, fun ino inside _ => stored.ext.same ino inside not_false,
      stored.ext.allocs, stored.ext.blocks, stored.ext.disk⟩
  have ext1 : Extends (fun ino => ino = current) fs appended := extends_trans ext0 step.ext fun _ _ grown => grown
  have parts : ∀ ino, next.inodeAt ino = { appended.inodeAt ino with
      din := { (appended.inodeAt ino).din with
        nlinks := if ino = file then ((appended.inodeAt ino).din.nlinks + 1) % 2 ^ 16 else (appended.inodeAt ino).din.nlinks } } := by
    intro ino
    rw [shape]
    by_cases same : ino = file
    · subst same
      simp only [setInode, Function.update_self, if_true]
    · simp only [setInode, Function.update_of_ne same, if_neg same]
  refine ⟨mappedN, extends_trans ext1 extN fun _ _ grown => grown.elim, ?_, ?_, ?_, fun ino => ?_⟩
  · rw [shape]
    exact step.inodeList.trans stored.inodeList
  · rw [parts, step.nblks, sameAt]
  · have block := entry_block_holds fs.entry file name (listed_small built file known).2
    have disk : next.disk b = memcpy zeroBytes 0 (memcpy (memcpy fs.entry 0 (toLe file) 4) 4 (nameBytes name) (name.length + 1)) entryNameSize := by
      have last : next.disk = appended.disk := by rw [shape]; rfl
      have entry : taken.entry = memcpy (memcpy fs.entry 0 (toLe file) 4) 4 (nameBytes name) (name.length + 1) := by
        obtain ⟨_, rfl⟩ := alloc_ino_shape .entry b alloc
        rfl
      rw [last, step.disk, stored.block, entry]
    have slot : fileSlot next current (fs.inodeAt current).nblks = b := by
      rw [slotsN, ← sameAt]
      exact step.slot
    refine ⟨?_, ?_, ?_, ?_⟩
    · rw [parts, step.nblks, sameAt]
      exact Nat.lt_succ_self _
    · rw [slot]
      exact extN.allocs _ (step.ext.allocs _ stored.given)
    · rw [slot, disk]
      exact block.1
    · rw [slot, disk]
      exact block.2
  · rw [parts, step.nlinks, sameAt]

-- The first k blocks of a file of the host stand in its inode.
structure FilePart (fs : MksfsFs) (file k : Nat) (content : HostFile) : Prop where
  nblks : (fs.inodeAt file).nblks = k
  size : (fs.inodeAt file).din.size = min (k * blkSize) content.size
  bytes : ∀ i, i < k → ∀ j, j < blkSize → i * blkSize + j < content.size → fs.disk (fileSlot fs file i) j = content.data (i * blkSize + j)

theorem file_part_extends {grows : Nat → Prop} (ext : Extends grows fs next) (mapped : Mapped fs) (file k : Nat) (content : HostFile)
    (listed : file ∈ fs.inodeList) (still : ¬ grows file) (part : FilePart fs file k content) : FilePart next file k content := by
  obtain ⟨nblks, size⟩ := ext.same file listed still
  refine ⟨nblks.trans part.nblks, size.trans part.size, fun i below j inBlock inside => ?_⟩
  have here : i < (fs.inodeAt file).nblks := by rw [part.nblks]; exact below
  have given : fs.allocated (fileSlot fs file i) :=
    ((mapped.each file listed).slots i here).elim (fun given => List.mem_map_of_mem given) fun given => List.mem_map_of_mem given
  rw [ext.slots file listed i here, ext.disk _ given]
  exact part.bytes i below j inBlock inside

-- A block of a file, and what stays as it was.
structure Filled (image : Nat → Bytes) (fs next : MksfsFs) (file : Nat) : Prop where
  built : Built image next
  mapped : Mapped next
  ext : Extends (fun ino => ino = file) fs next
  inodeList : next.inodeList = fs.inodeList
  nlinks : ∀ ino, (next.inodeAt ino).din.nlinks = (fs.inodeAt ino).din.nlinks

theorem fill_block (built : Built image fs) (mapped : Mapped fs) (file k ret : Nat) (content : HostFile) (listed : file ∈ fs.inodeList)
    (part : FilePart fs file k content) (room : k < 1036) (inside : k * blkSize ≤ content.size)
    (size : ret = min blkSize (content.size - k * blkSize)) (b : Nat) (taken written : MksfsFs)
    (alloc : sfsAllocIno fs .data = .ok (b, taken)) (wrote : writeBlock taken (content.data.from (k * blkSize)) ret b = .ok written)
    (append : appendBlock written file ret b = .ok next) : Filled image fs next file ∧ FilePart next file (k + 1) content := by
  obtain ⟨builtW, stored⟩ := store_block built mapped .data b taken _ ret alloc wrote
  have builtN := append_block_built builtW file ret b append
  have sameAt := stored.inodeAt
  have listedW : file ∈ written.inodeList := by rw [stored.inodeList]; exact listed
  have partW := file_part_extends stored.ext mapped file k content listed not_false part
  have step := append_block_step builtW stored.mapped file b ret listedW (by rw [partW.nblks]; exact room) (.inr stored.given) append
  have total := step.size
  have slot := step.slot
  have block : blkSize = 4096 := rfl
  have start : k * blkSize = k * 4096 := rfl
  have stop : (k + 1) * blkSize = (k + 1) * 4096 := rfl
  rw [partW.size] at total
  rw [partW.nblks] at slot
  refine ⟨⟨builtN, step.mapped, extends_trans (extends_weaken stored.ext fun _ _ never => never.elim) step.ext fun _ _ grown => grown,
    step.inodeList.trans stored.inodeList, fun ino => by rw [step.nlinks, sameAt]⟩, ?_, ?_, fun i below j inBlock within => ?_⟩
  · rw [step.nblks, partW.nblks]
  · rw [total, size, Nat.mod_eq_of_lt (by omega)]
    omega
  · rw [step.disk]
    by_cases last : i = k
    · rw [last] at within ⊢
      rw [slot, stored.block, memcpy_inside _ _ _ _ _ (Nat.zero_le _) (by omega), Nat.sub_zero, Bytes.from]
    · rw [step.ext.slots file listedW i (by rw [partW.nblks]; omega)]
      exact partW.bytes i (by omega) j inBlock within

theorem filled_trans {mid : MksfsFs} {file : Nat} (first : Filled image fs mid file) (second : Filled image mid next file) :
    Filled image fs next file :=
  ⟨second.built, second.mapped, extends_trans first.ext second.ext fun _ _ grown => grown, second.inodeList.trans first.inodeList,
    fun ino => (second.nlinks ino).trans (first.nlinks ino)⟩

theorem open_file_loop_step (rounds : Nat) (built : Built image fs) (mapped : Mapped fs) (file k last : Nat) (content : HostFile)
    (listed : file ∈ fs.inodeList) (part : FilePart fs file k content) (whole : k + rounds = roundUpDiv content.size blkSize)
    (bounded : content.size ≤ 1036 * blkSize) (done : openFileLoop fs file content (min (k * blkSize) content.size) last rounds = .ok next) :
    Filled image fs next file ∧ FilePart next file (roundUpDiv content.size blkSize) content := by
  induction rounds generalizing fs k last with
  | zero =>
      obtain rfl := Except.ok.inj done
      refine ⟨⟨built, mapped, extends_refl fs, rfl, fun _ => rfl⟩, ?_⟩
      rw [← whole]
      exact part
  | succ rounds ih =>
      have block : blkSize = 4096 := rfl
      have start : k * blkSize = k * 4096 := rfl
      have stop : (k + 1) * blkSize = (k + 1) * 4096 := rfl
      have count : roundUpDiv content.size blkSize = (content.size + 4095) / 4096 := rfl
      have inside : k * blkSize < content.size := by omega
      obtain ⟨_, _, done⟩ := bind_ok done
      obtain ⟨⟨b, taken⟩, alloc, done⟩ := bind_ok done
      obtain ⟨written, wrote, done⟩ := bind_ok done
      obtain ⟨appended, append, done⟩ := bind_ok done
      have offset : min (k * blkSize) content.size = k * blkSize := by omega
      rw [offset] at wrote append done
      obtain ⟨filled, grown⟩ := fill_block built mapped file k _ content listed part (by omega) (by omega) rfl b taken written alloc wrote append
      have next' : k * blkSize + min blkSize (content.size - k * blkSize) = min ((k + 1) * blkSize) content.size := by omega
      rw [next'] at done
      obtain ⟨rest, all⟩ := ih filled.built filled.mapped (k + 1) _ (by rw [filled.inodeList]; exact listed) grown (by omega) done
      exact ⟨filled_trans filled rest, all⟩

end Numbers

end Ucore.Mksfs
