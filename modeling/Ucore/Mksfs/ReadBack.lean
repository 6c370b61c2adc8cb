import Ucore.Mksfs.SavedImage
import Ucore.Sfs.Lookup

set_option autoImplicit false

namespace Ucore.Mksfs

open Ucore.Lib
open Ucore.Sfs

-- The volume that the kernel has mounted, beside the build in mksfs.
structure OnVolume (fs : MksfsFs) (sfs : SfsFs) : Prop where
  mounted : Mounted sfs
  noFault : sfs.dev.results = []
  blocks : sfs.super.blocks = fs.ninos
  used : ∀ b, b < fs.nextIno → sfs.freemap.bit b = false
  saved : Saved fs sfs.dev.data

section Mount

variable {image : Nat → Bytes} {fs : MksfsFs}

theorem closed_freemap (closed : Closed image fs) (b : Bitmap) (read : Bytes) (dev : Device) (holds : dev.data = fs.disk)
    (content : ∀ k, k < roundUpDiv fs.ninos blkBits → ∀ j, j < 4096 → read (0 + k * 4096 + j) = dev.data (blknFreemap + k) j) :
    (∀ w, w < roundUpDiv fs.ninos blkBits * 1024 → (bitmapOfData b read).map w = diskWord fs.disk w) ∧
      ∀ j, j < roundUpDiv fs.ninos blkBits * blkBits → (bitmapOfData b read).bit j = decide (fs.nextIno ≤ j ∧ j < fs.ninos) := by
  have map : ∀ w, w < roundUpDiv fs.ninos blkBits * 1024 → (bitmapOfData b read).map w = diskWord fs.disk w := by
    intro w inside
    simp only [bitmapOfData, diskWord]
    congr 1
    refine get_le_congr _ _ _ _ 4 fun k below => ?_
    rw [← holds, ← content (w / 1024) (by omega) (w % 1024 * 4 + k) (by omega)]
    congr 1
    omega
  refine ⟨map, fun j inside => ?_⟩
  have size : roundUpDiv fs.ninos blkBits * blkBits = roundUpDiv fs.ninos blkBits * 32768 := rfl
  have bit := closed_bit closed j inside
  simp only [Bitmap.bit, freemapOf, wordBits] at bit ⊢
  rw [map (j / 32) (by omega), bit]

-- A mount of a device that has the image, with transfers that succeed.
theorem closed_mounted (closed : Closed image fs) (dev : Device) (holds : dev.data = fs.disk) (noFault : dev.results = [])
    (inside : fs.ninos ≤ dev.dBlocks) : ∃ sfs, sfsDoMount dev = .ok (0, dev, some sfs) ∧ sfs.dev = dev ∧ Mounted sfs ∧
      sfs.super.blocks = fs.ninos ∧ ∀ b, b < fs.nextIno → sfs.freemap.bit b = false := by
  obtain ⟨room, small, unused⟩ := closed_small closed
  obtain ⟨_, built⟩ := closed.built
  have lower : freemapEnd fs.ninos ≤ fs.nextIno := built.lower
  have upper : fs.nextIno ≤ fs.ninos := built.upper
  have size : blkBits = 32768 := rfl
  have blocks : roundUpDiv fs.ninos blkBits = (fs.ninos + 32768 - 1) / 32768 := rfl
  have product : roundUpDiv fs.ninos blkBits * blkBits = roundUpDiv fs.ninos blkBits * 32768 := rfl
  simp only [freemapEnd, blknFreemap] at room lower
  have first : sfsInitRead dev blknSuper zeroBytes = (0, dev.data blknSuper, dev) :=
    init_read_spec dev blknSuper zeroBytes noFault (by simp only [blknSuper]; omega) (by decide)
  have header : decodeSuper (dev.data blknSuper) = fs.super := by
    rw [holds, closed.super]
    refine decode_encode_super fs.super zeroBytes ⟨by show sfsMagic < 2 ^ 32; decide, ?_, ?_⟩
    · show fs.ninos < 2 ^ 32
      omega
    · show fs.unusedBlocks < 2 ^ 32
      omega
  have bits : sfsFreemapBits { fs.super with info := Function.update fs.super.info ⟨maxInfoLen, by decide⟩ 0 } =
      roundUpDiv fs.ninos blkBits * blkBits := by
    refine Nat.mod_eq_of_lt ?_
    show roundUpDiv fs.ninos blkBits * blkBits < 2 ^ 32
    omega
  obtain ⟨b, created, bBits, bWords, _⟩ := bitmap_create_spec (roundUpDiv fs.ninos blkBits * blkBits) (by omega) (by omega)
  have nwords : b.nwords = roundUpDiv fs.ninos blkBits * 1024 := by
    rw [bWords]
    simp only [roundUpDiv, size]
    omega
  obtain ⟨read, loaded, _, content⟩ := init_freemap_spec dev noFault (roundUpDiv fs.ninos blkBits) (bitmapData b) 0 blknFreemap
    (by simp only [blknFreemap]; omega) (by simp only [blknFreemap]; omega)
  obtain ⟨words, bit⟩ := closed_freemap closed b read dev holds content
  have counted := closed_count closed (bitmapOfData b read) bBits words
  let sfs : SfsFs := ⟨{ fs.super with info := Function.update fs.super.info ⟨maxInfoLen, by decide⟩ 0 }, dev, bitmapOfData b read, false⟩
  have count := count_unused_spec (bitmapOfData b read) (roundUpDiv fs.ninos blkBits * blkBits) 0 (by
    rw [Nat.zero_add]
    exact Nat.le_of_eq bBits.symm)
  rw [Nat.zero_add, Bitmap.count, counted, Except.ok.injEq] at count
  refine ⟨sfs, ?_, rfl, ⟨inside, by show fs.ninos ≤ 2 ^ 20; omega, bBits, ?_, fun j within outside => ?_, ?_, ?_⟩, rfl, fun j below => ?_⟩
  · have accepted : ¬ (fs.super.magic ≠ sfsMagic ∨ dev.dBlocks < fs.super.blocks) := by
      intro refused
      rcases refused with wrong | less
      · exact wrong rfl
      · exact absurd inside (Nat.not_le.mpr less)
    have wide : b.nwords * 4 = sfsFreemapBlocks { fs.super with info := Function.update fs.super.info ⟨maxInfoLen, by decide⟩ 0 } * blkSize := by
      show b.nwords * 4 = roundUpDiv fs.ninos blkBits * 4096
      omega
    have sameBlocks : sfsFreemapBlocks { fs.super with info := Function.update fs.super.info ⟨maxInfoLen, by decide⟩ 0 } =
        roundUpDiv fs.ninos blkBits := rfl
    replace counted : countUnused (bitmapOfData b read) 0 0 (roundUpDiv fs.ninos blkBits * blkBits) = .ok fs.super.unusedBlocks := counted
    rw [sfsDoMount, first]
    simp only [header, if_neg accepted, bits, created, wide, sameBlocks, loaded, counted, ok_bind, pure_ok, check_true, decide_true, ne_eq,
      not_true_eq_false, if_false, sfs]
  · show b.nwords * 32 = b.nbits
    omega
  · have within' : j < roundUpDiv fs.ninos blkBits * blkBits := bBits ▸ within
    have past : ¬ (fs.nextIno ≤ j ∧ j < fs.ninos) := fun range => absurd range.2 (Nat.not_lt.mpr outside)
    exact (bit j within').trans (decide_eq_false past)
  · exact (bit 0 (by omega)).trans (decide_eq_false (by omega))
  · show fs.unusedBlocks = (bitmapOfData b read).count b.nbits
    rw [bBits, ← count]
  · exact (bit j (by omega)).trans (decide_eq_false (by omega))

end Mount

section Volume

variable {image : Nat → Bytes} {host : Nat → Option HostFile} {fs : MksfsFs} {sfs : SfsFs} (recorded : Recorded image host fs)
  (volume : OnVolume fs sfs) (ino : Nat) (listed : ino ∈ fs.inodeList)

include recorded volume

-- What mksfs has given out is in use.
theorem given_in_use (b : Nat) (given : fs.allocated b) : b ≠ 0 ∧ b < sfs.super.blocks ∧ sfs.freemap.bit b = false := by
  have upper := recorded.built.upper
  obtain ⟨named, below, _⟩ := given_small recorded.built b given
  rw [volume.blocks]
  exact ⟨by omega, by omega, volume.used b below⟩

include listed

theorem inode_in_use : ino ≠ 0 ∧ ino < sfs.super.blocks ∧ sfs.freemap.bit ino = false := by
  rcases recorded.built.inodes ino listed with root | given
  · have lower := recorded.built.lower
    have upper := recorded.built.upper
    simp only [freemapEnd, blknFreemap] at lower
    rw [root, volume.blocks]
    exact ⟨by decide, by simp only [blknRoot]; omega, volume.used blknRoot (by simp only [blknRoot]; omega)⟩
  · exact given_in_use recorded volume ino (List.mem_map_of_mem given)

-- The block map that the kernel reads from the indirect block.
theorem volume_slot (i : Nat) (below : i < (fs.inodeAt ino).nblks) : slot sfs (fs.inodeAt ino).din i = fileSlot fs ino i := by
  have own := recorded.mapped.each ino listed
  have bounded := own.bounded
  unfold slot fileSlot
  by_cases direct : i < 12
  · rw [dif_pos direct, dif_pos direct]
  · obtain ⟨_, cached⟩ := own.many (by omega)
    have named := (given_in_use recorded volume _ (List.mem_map_of_mem (recorded.built.cached _ cached))).1
    rw [dif_neg direct, dif_neg direct, if_neg named, volume.saved.indirect _ cached]
    refine get_le_congr _ _ _ _ 4 fun k inside => ?_
    rw [memcpy_inside _ _ _ _ _ (Nat.zero_le _) (by simp only [blkSize]; omega), Nat.sub_zero]

theorem slot_given (i : Nat) (below : i < (fs.inodeAt ino).nblks) :
    fs.allocated (fileSlot fs ino i) ∧ sfs.dev.data (fileSlot fs ino i) = fs.disk (fileSlot fs ino i) := by
  rcases (recorded.mapped.each ino listed).slots i below with entry | data
  · exact ⟨List.mem_map_of_mem entry, volume.saved.entry _ entry⟩
  · exact ⟨List.mem_map_of_mem data, volume.saved.data _ data⟩

theorem volume_in_use : InUse sfs (fs.inodeAt ino).din := by
  have own := recorded.mapped.each ino listed
  have blocks := own.blocks
  intro b refers
  rcases refers with indirect | mapped
  · obtain ⟨rfl, named⟩ := indirect
    by_cases few : (fs.inodeAt ino).nblks ≤ 12
    · exact absurd (own.few few).1 named
    · exact given_in_use recorded volume _ (List.mem_map_of_mem (recorded.built.cached _ (own.many (by omega)).2))
  · obtain ⟨i, below, rfl⟩ := mapped
    rw [volume_slot recorded volume ino listed i (by omega)]
    exact given_in_use recorded volume _ (slot_given recorded volume ino listed i (by omega)).1

theorem volume_inode (type : (fs.inodeAt ino).din.type < 2 ^ 16) : decodeInode (sfs.dev.data ino) = (fs.inodeAt ino).din :=
  saved_decodes recorded.built recorded.mapped sfs.dev.data volume.saved ino listed type (recorded.small ino listed)

-- A file of the host stands in its inode byte by byte.
theorem volume_readable (content : HostFile) (file : FileIs fs ino content) :
    Readable sfs (fs.inodeAt ino).din ∧ (fs.inodeAt ino).din.size = content.size ∧
      ∀ pos, pos < content.size → fileByte sfs (fs.inodeAt ino).din pos = content.data pos := by
  have own := recorded.mapped.each ino listed
  have nblks := file.part.nblks
  have bounded := own.bounded
  have blocks := own.blocks
  have block : blkSize = 4096 := rfl
  have count : roundUpDiv content.size blkSize = (content.size + 4096 - 1) / 4096 := rfl
  have size : (fs.inodeAt ino).din.size = content.size := by
    have whole := file.part.size
    have product : roundUpDiv content.size blkSize * blkSize = roundUpDiv content.size blkSize * 4096 := rfl
    omega
  refine ⟨⟨file.type, by omega, by rw [blocks, nblks, size], volume_in_use recorded volume ino listed⟩, size, fun pos inside => ?_⟩
  have below : pos / 4096 < (fs.inodeAt ino).nblks := by omega
  have place : pos / 4096 * blkSize + pos % 4096 = pos := by
    have product : pos / 4096 * blkSize = pos / 4096 * 4096 := rfl
    omega
  have byte := file.part.bytes (pos / 4096) (by omega) (pos % 4096) (Nat.mod_lt _ (by decide)) (by rw [place]; exact inside)
  rw [fileByte, volume_slot recorded volume ino listed _ below, (slot_given recorded volume ino listed _ below).2, byte, place]

end Volume

-- The name of the host as the kernel reads it: mksfs keeps 252 bytes of it.
def shownName (name : Name) : Name := name.take (entryNameSize - 4)

section Names

theorem c_name_text (text rest : List UInt8) (plain : 0 ∉ text) : cName (text ++ 0 :: rest) = text := by
  induction text with
  | nil => rfl
  | cons c later ih =>
      have other : c ≠ 0 := fun zero => plain (by simp [zero])
      have next := ih fun member => plain (List.mem_cons_of_mem c member)
      rw [cName] at next ⊢
      rw [List.cons_append, List.takeWhile_cons, if_pos (decide_eq_true other), next]

theorem holds_record (mem : Bytes) (n : Nat) (text : List UInt8) (held : HoldsAt mem 0 text) (short : text.length ≤ n) :
    ∃ rest, (List.range n).map mem = text ++ rest := by
  refine ⟨((List.range n).map mem).drop text.length, ?_⟩
  have first : ((List.range n).map mem).take text.length = text := by
    refine List.ext_getElem (by simp [short]) fun i left right => ?_
    have byte := held i right
    rw [Nat.zero_add] at byte
    rw [List.getElem_take, List.getElem_map, List.getElem_range, byte]
    rfl
  conv_lhs => rw [← List.take_append_drop text.length ((List.range n).map mem), first]

theorem shown_plain (name : Name) (plain : 0 ∉ name) : 0 ∉ shownName name := fun member => plain (List.mem_of_mem_take member)

end Names

-- What is at the end of a path of names below a node of the host: the node, or the
-- code of the lookup that fails. At a link it ends.
def HostDir.find (home : HostDir) (name : Name) : Option HostNode := (home.entries.find? fun e => shownName e.1 = name).map Prod.snd

def HostNode.walk : HostNode → List Name → Except Int HostNode
  | node, [] => .ok node
  | .dir inner, name :: rest =>
      match inner.find name with
      | none => .error eNoEnt
      | some node => node.walk rest
  | .file _, _ :: _ => .error eNotDir
  | .link target, _ :: _ => .ok (.link target)

-- The names that the kernel reads in a directory.
def HostDir.shownNames (home : HostDir) : List Name := [46] :: [46, 46] :: home.entries.map fun e => shownName e.1

-- The names of the host have no zeros.
def HostDir.Plain : HostDir → Prop
  | .nil => True
  | .dir name _ inner rest => (hidden name = false → 0 ∉ name ∧ inner.Plain) ∧ rest.Plain
  | .file name _ _ rest => (hidden name = false → 0 ∉ name) ∧ rest.Plain
  | .link name _ _ rest => (hidden name = false → 0 ∉ name) ∧ rest.Plain
  | .other _ rest => rest.Plain

def HostNode.Plain : HostNode → Prop
  | .dir inner => inner.Plain
  | .file _ => True
  | .link _ => True

-- A node of the host as it stands in an inode of the build.
def NodeAt (fs : MksfsFs) (parent ino : Nat) : HostNode → Prop
  | .dir inner => ShownDir fs (fun _ => False) ino parent inner.entries.length ∧ Shows fs (fun _ => False) inner ino 2
  | .file content => ino ∈ fs.inodeList ∧ FileIs fs ino content
  | .link _ => ino ∈ fs.inodeList ∧ (fs.inodeAt ino).din.type = typeLink

section Entries

theorem plain_entries (home : HostDir) (plain : home.Plain) : ∀ e ∈ home.entries, 0 ∉ e.1 ∧ e.2.Plain := by
  induction home with
  | nil => exact fun e member => by cases member
  | dir name real inner rest inside after =>
      rw [HostDir.entries]
      by_cases skipped : hidden name
      · rw [if_pos skipped]
        exact after plain.2
      · rw [if_neg skipped]
        exact List.forall_mem_cons.mpr ⟨plain.1 (Bool.eq_false_iff.mpr skipped), after plain.2⟩
  | file name real content rest after =>
      rw [HostDir.entries]
      by_cases skipped : hidden name
      · rw [if_pos skipped]
        exact after plain.2
      · rw [if_neg skipped]
        exact List.forall_mem_cons.mpr ⟨⟨plain.1 (Bool.eq_false_iff.mpr skipped), trivial⟩, after plain.2⟩
  | link name real target rest after =>
      rw [HostDir.entries]
      by_cases skipped : hidden name
      · rw [if_pos skipped]
        exact after plain.2
      · rw [if_neg skipped]
        exact List.forall_mem_cons.mpr ⟨⟨plain.1 (Bool.eq_false_iff.mpr skipped), trivial⟩, after plain.2⟩
  | other name rest after => exact after plain

theorem entries_cons {α : Type} (holds : Nat → α → Prop) (k : Nat) (first : α) (rest : List α) (here : holds k first)
    (later : ∀ i e, rest[i]? = some e → holds (k + 1 + i) e) (i : Nat) (e : α) (found : (first :: rest)[i]? = some e) : holds (k + i) e := by
  cases i with
  | zero =>
      obtain rfl := Option.some.inj found
      exact here
  | succ i =>
      rw [show k + (i + 1) = k + 1 + i by omega]
      exact later i e found

theorem node_listed {fs : MksfsFs} (parent ino : Nat) (node : HostNode) (stands : NodeAt fs parent ino node) : ino ∈ fs.inodeList := by
  cases node with
  | dir inner => exact stands.1.listed
  | file content => exact stands.1
  | link target => exact stands.1

theorem shows_entry {fs : MksfsFs} (home : HostDir) (current k : Nat) (shows' : Shows fs (fun _ => False) home current k) :
    ∀ i e, home.entries[i]? = some e → ∃ ino, EntryAt fs current (k + i) e.1 ino ∧ NodeAt fs current ino e.2 := by
  let holds (place : Nat) (e : Name × HostNode) : Prop := ∃ ino, EntryAt fs current place e.1 ino ∧ NodeAt fs current ino e.2
  induction home generalizing k with
  | nil => exact fun i e here => by cases here
  | dir name real inner rest inside after =>
      rw [HostDir.entries]
      rw [Shows] at shows'
      by_cases skipped : hidden name
      · rw [if_pos skipped] at shows' ⊢
        exact after k shows'
      · rw [if_neg skipped] at shows' ⊢
        obtain ⟨⟨ino, entry, shown, below⟩, later⟩ := shows'
        exact entries_cons holds k _ _ ⟨ino, entry, shown, below⟩ (after (k + 1) later)
  | file name real content rest after =>
      rw [HostDir.entries]
      rw [Shows] at shows'
      by_cases skipped : hidden name
      · rw [if_pos skipped] at shows' ⊢
        exact after k shows'
      · rw [if_neg skipped] at shows' ⊢
        exact entries_cons holds k _ _ shows'.1 (after (k + 1) shows'.2)
  | link name real target rest after =>
      rw [HostDir.entries]
      rw [Shows] at shows'
      by_cases skipped : hidden name
      · rw [if_pos skipped] at shows' ⊢
        exact after k shows'
      · rw [if_neg skipped] at shows' ⊢
        exact entries_cons holds k _ _ shows'.1 (after (k + 1) shows'.2)
  | other name rest after => exact after k shows'

end Entries

section Directory

variable {image : Nat → Bytes} {host : Nat → Option HostFile} {fs : MksfsFs} {sfs : SfsFs} (recorded : Recorded image host fs)
  (volume : OnVolume fs sfs) (dir : Nat) (listed : dir ∈ fs.inodeList)

include recorded volume listed

theorem volume_entry (k ino : Nat) (name : Name) (plain : 0 ∉ name) (entry : EntryAt fs dir k name ino) :
    slotIno sfs (fs.inodeAt dir).din k = ino ∧ cName (slotName sfs (fs.inodeAt dir).din k) = shownName name := by
  have here := volume_slot recorded volume dir listed k entry.below
  have block := volume.saved.entry _ entry.given
  refine ⟨?_, ?_⟩
  · rw [slotIno, here, block]
    exact entry.ino
  · have held : HoldsAt (entryName (fs.disk (fileSlot fs dir k))) 0 (storedName name) := by
      intro i bound
      rw [← entry.name i bound, entryName, Bytes.from, Nat.zero_add]
    have length : (storedName name).length ≤ Ucore.Sfs.maxFnameLen := by
      have size : Ucore.Sfs.maxFnameLen = 255 := rfl
      have room : entryNameSize = 256 := rfl
      simp only [storedName, List.length_append, List.length_take, List.length_singleton, size, room]
      omega
    obtain ⟨rest, record⟩ := holds_record _ _ _ held length
    rw [slotName, here, block, record, storedName, List.append_assoc, List.append_assoc, List.singleton_append]
    exact c_name_text (shownName name) (rest ++ [0]) (shown_plain name plain)

omit recorded volume listed in
theorem shown_names_at (inner : HostDir) (j : Nat) (name : Name) (here : inner.shownNames[j]? = some name) :
    (j = 0 ∧ name = [46]) ∨ (j = 1 ∧ name = [46, 46]) ∨ ∃ i e, j = 2 + i ∧ inner.entries[i]? = some e ∧ name = shownName e.1 := by
  rcases j with _ | _ | i
  · exact .inl ⟨rfl, (Option.some.inj here).symm⟩
  · exact .inr (.inl ⟨rfl, (Option.some.inj here).symm⟩)
  · have mapped : (inner.entries.map fun e => shownName e.1)[i]? = some name := here
    rw [List.getElem?_map] at mapped
    obtain ⟨e, at', same⟩ := Option.map_eq_some_iff.mp mapped
    exact .inr (.inr ⟨i, e, by omega, at', same.symm⟩)

variable (parent : Nat) (inner : HostDir) (plain : inner.Plain) (shown : ShownDir fs (fun _ => False) dir parent inner.entries.length)
  (below : Shows fs (fun _ => False) inner dir 2) (known : parent ∈ fs.inodeList)

include plain shown below known

-- The slots of a directory: the two dots and its entries, in their order.
theorem volume_dir (j : Nat) (inside : j < (fs.inodeAt dir).din.blocks) :
    slotIno sfs (fs.inodeAt dir).din j ≠ 0 ∧ inner.shownNames[j]? = some (cName (slotName sfs (fs.inodeAt dir).din j)) := by
  have blocks := (recorded.mapped.each dir listed).blocks
  have nblks := shown.nblks
  have names : ∀ ino, ino ∈ fs.inodeList → ino ≠ 0 := fun ino there => Nat.ne_of_gt (listed_small recorded.built ino there).1
  rcases j with _ | _ | i
  · obtain ⟨number, name⟩ := volume_entry recorded volume dir listed 0 dir [46] (by decide) shown.dot
    rw [number, name]
    exact ⟨names dir listed, rfl⟩
  · obtain ⟨number, name⟩ := volume_entry recorded volume dir listed 1 parent [46, 46] (by decide) shown.dots
    rw [number, name]
    exact ⟨names parent known, rfl⟩
  · have bound : i < inner.entries.length := by omega
    have here := List.getElem?_eq_getElem bound
    obtain ⟨ino, entry, node⟩ := shows_entry inner dir 2 below i _ here
    obtain ⟨plainName, _⟩ := plain_entries inner plain _ (List.getElem_mem bound)
    rw [show i + 1 + 1 = 2 + i by omega]
    obtain ⟨number, name⟩ := volume_entry recorded volume dir listed (2 + i) ino _ plainName entry
    rw [number, name]
    refine ⟨names ino (node_listed dir ino _ node), ?_⟩
    have mapped : (inner.entries.map fun e => shownName e.1)[i]? = some (shownName inner.entries[i].1) := by rw [List.getElem?_map, here]; rfl
    rw [show 2 + i = i + 1 + 1 by omega]
    exact mapped

omit plain below known in
theorem dir_stored : StoredDir sfs (fs.inodeAt dir).din := by
  have own := recorded.mapped.each dir listed
  have bounded := own.bounded
  have blocks := own.blocks
  exact ⟨shown.type, by omega, volume_in_use recorded volume dir listed⟩

theorem dir_used : usedSlots sfs (fs.inodeAt dir).din 0 (fs.inodeAt dir).din.blocks = List.range' 0 (fs.inodeAt dir).din.blocks := by
  refine List.filter_eq_self.mpr fun j member => decide_eq_true ?_
  have inside : j < (fs.inodeAt dir).din.blocks := by
    have range := List.mem_range'_1.mp member
    omega
  exact (volume_dir recorded volume dir listed parent inner plain shown below known j inside).1

theorem dir_names : (dirNames sfs (fs.inodeAt dir).din).map cName = inner.shownNames := by
  have blocks := (recorded.mapped.each dir listed).blocks
  have nblks := shown.nblks
  rw [dirNames, dir_used recorded volume dir listed parent inner plain shown below known, List.map_map]
  refine List.ext_getElem? fun j => ?_
  by_cases inside : j < (fs.inodeAt dir).din.blocks
  · have here := (volume_dir recorded volume dir listed parent inner plain shown below known j inside).2
    rw [here, List.getElem?_map, List.getElem?_eq_getElem (by rw [List.length_range']; exact inside), List.getElem_range']
    simp only [Option.map_some, Function.comp_apply, Nat.zero_add, Nat.one_mul]
  · have length : inner.shownNames.length = 2 + inner.entries.length := by
      simp only [HostDir.shownNames, List.length_cons, List.length_map]
      omega
    rw [List.getElem?_eq_none (by simp only [List.length_map, List.length_range']; omega), List.getElem?_eq_none (by omega)]

theorem dir_find_none (name : Name) (dot : name ≠ [46]) (dots : name ≠ [46, 46]) (missing : inner.find name = none) :
    findSlot sfs (fs.inodeAt dir).din name 0 (fs.inodeAt dir).din.blocks = none := by
  rw [HostDir.find, Option.map_eq_none_iff] at missing
  rw [findSlot, dir_used recorded volume dir listed parent inner plain shown below known]
  refine List.find?_eq_none.mpr fun j member same => ?_
  have inside : j < (fs.inodeAt dir).din.blocks := by
    have range := List.mem_range'_1.mp member
    omega
  have here := (volume_dir recorded volume dir listed parent inner plain shown below known j inside).2
  rw [of_decide_eq_true same] at here
  rcases shown_names_at inner j name here with first | second | entry
  · exact dot first.2
  · exact dots second.2
  · obtain ⟨i, e, _, at', equal⟩ := entry
    exact List.find?_eq_none.mp missing e (List.mem_of_getElem? at') (decide_eq_true equal.symm)

theorem dir_find_some (name : Name) (dot : name ≠ [46]) (dots : name ≠ [46, 46]) (node : HostNode) (found : inner.find name = some node) :
    ∃ j ino, findSlot sfs (fs.inodeAt dir).din name 0 (fs.inodeAt dir).din.blocks = some j ∧ slotIno sfs (fs.inodeAt dir).din j = ino ∧
      NodeAt fs dir ino node ∧ node.Plain := by
  obtain ⟨e, first, rfl⟩ := Option.map_eq_some_iff.mp found
  obtain ⟨same, i, bound, at', before⟩ := List.find?_eq_some_iff_getElem.mp first
  have here : inner.entries[i]? = some e := by rw [List.getElem?_eq_getElem bound, at']
  have blocks := (recorded.mapped.each dir listed).blocks
  have nblks := shown.nblks
  obtain ⟨ino, entry, stands⟩ := shows_entry inner dir 2 below i e here
  obtain ⟨plainName, plainNode⟩ := plain_entries inner plain e (List.mem_of_getElem? here)
  obtain ⟨number, shownName'⟩ := volume_entry recorded volume dir listed (2 + i) ino e.1 plainName entry
  refine ⟨2 + i, ino, ?_, number, stands, plainNode⟩
  rw [findSlot, dir_used recorded volume dir listed parent inner plain shown below known, List.find?_range'_eq_some]
  refine ⟨?_, List.mem_range'_1.mpr ⟨Nat.zero_le _, by omega⟩, fun j _ earlier => ?_⟩
  · rw [shownName']
    exact same
  · have named := (volume_dir recorded volume dir listed parent inner plain shown below known j (by omega)).2
    rw [Bool.not_eq_true', decide_eq_false_iff_not]
    intro equal
    rw [equal] at named
    rcases shown_names_at inner j name named with first | second | other
    · exact dot first.2
    · exact dots second.2
    · obtain ⟨k, e', rfl, at'', equal⟩ := other
      have apart := before k (by omega)
      rw [List.getElem?_eq_getElem (by omega)] at at''
      rw [Option.some.inj at'', decide_eq_true equal.symm] at apart
      cases apart

end Directory

-- A directory of the kernel that has the entries of one of the host, and a file
-- whose reads give the bytes of one of the host.
structure ShowsDir (sfs : SfsFs) (sin : SfsInode) (inner : HostDir) : Prop where
  type : sin.din.type = typeDir
  names : (dirNames sfs sin.din).map cName = inner.shownNames

structure ShowsFile (sfs : SfsFs) (sin : SfsInode) (content : HostFile) : Prop where
  type : sin.din.type = typeFile
  size : sin.din.size = content.size
  reads : ∀ (buf : Bytes) (offset len : Nat), offset < Ucore.Sfs.maxFileSize → offset + len < 2 ^ 63 →
    ∃ s', sfsIoNolock sfs sin buf offset len false = .ok (0, s') ∧ s'.sfs = sfs ∧ s'.sin = sin ∧ s'.alen = readCount content.size offset len ∧
      ∀ k, s'.buf k = if k < readCount content.size offset len then content.data (offset + k) else buf k

-- The answer of the kernel for a path whose end on the host is given. It has no
-- operations for links.
def Answers (sfs : SfsFs) (result : Except Ucore.Sfs.Fault (Int × Option SfsInode × SfsFs)) : Except Int HostNode → Prop
  | .error code => result = .ok (code, none, sfs)
  | .ok (.dir inner) => ∃ sin, result = .ok (0, some sin, sfs) ∧ ShowsDir sfs sin inner
  | .ok (.file content) => ∃ sin, result = .ok (0, some sin, sfs) ∧ ShowsFile sfs sin content
  | .ok (.link _) => result = .error .unknownType

structure PathName (name : Name) : Prop where
  lookup : LookupName name
  dot : name ≠ [46]
  dots : name ≠ [46, 46]

def kernelInode (fs : MksfsFs) (ino : Nat) : SfsInode := ⟨(fs.inodeAt ino).din, ino, false⟩

section Paths

variable {image : Nat → Bytes} {host : Nat → Option HostFile} {fs : MksfsFs} {sfs : SfsFs} (recorded : Recorded image host fs)
  (volume : OnVolume fs sfs)

include recorded volume

theorem file_shown (parent ino : Nat) (content : HostFile) (stands : NodeAt fs parent ino (.file content)) :
    ShowsFile sfs (kernelInode fs ino) content := by
  obtain ⟨listed, file⟩ := stands
  obtain ⟨readable, size, bytes⟩ := volume_readable recorded volume ino listed content file
  refine ⟨file.type, size, fun buf offset len below fits => ?_⟩
  obtain ⟨ret, s', moved, reads, alen, _, buffer, sin, quiet, complete, success⟩ :=
    read_nolock_spec sfs (kernelInode fs ino) buf offset len volume.mounted (readable_stored sfs _ readable) below fits
  obtain rfl := success volume.noFault
  have count : moved = readCount content.size offset len := by
    rw [complete rfl]
    exact congrArg (readCount · offset len) size
  subst count
  refine ⟨s', reads, quiet_same sfs s'.sfs quiet volume.noFault, sin, alen, fun k => ?_⟩
  rw [buffer k]
  by_cases moved : k < readCount content.size offset len
  · have inside : offset + k < content.size := by
      simp only [readCount] at moved
      omega
    rw [if_pos moved, if_pos moved]
    exact bytes (offset + k) inside
  · rw [if_neg moved, if_neg moved]

variable (nlinks : ∀ ino ∈ fs.inodeList, (fs.inodeAt ino).din.nlinks ≠ 0)

include nlinks

theorem load_back (ino : Nat) (listed : ino ∈ fs.inodeList) (type : (fs.inodeAt ino).din.type < 2 ^ 16) :
    sfsLoadInode sfs ino =
      if (fs.inodeAt ino).din.type = typeDir ∨ (fs.inodeAt ino).din.type = typeFile then .ok (0, some (kernelInode fs ino), sfs)
      else .error .unknownType := by
  obtain ⟨named, bound, used⟩ := inode_in_use recorded volume ino listed
  have record := volume_inode recorded volume ino listed type
  have loads := load_inode_any sfs volume.mounted volume.noFault ino named bound used (by rw [record]; exact nlinks ino listed)
  rw [record] at loads
  exact loads

-- Induction on the path, one directory a name.
theorem walk_back (memory : Nat → Option Bytes) (given : ∀ n, (memory n).isSome = true) (path : List Name) (valid : ∀ name ∈ path, PathName name)
    (dir parent : Nat) (inner : HostDir) (plain : inner.Plain) (stands : NodeAt fs parent dir (.dir inner)) (known : parent ∈ fs.inodeList) :
    Answers sfs (lookupPath memory sfs (kernelInode fs dir) path) ((HostNode.dir inner).walk path) := by
  induction path generalizing dir parent inner with
  | nil =>
      obtain ⟨shown, below⟩ := stands
      exact ⟨kernelInode fs dir, rfl, shown.type, dir_names recorded volume dir shown.listed parent inner plain shown below known⟩
  | cons name rest ih =>
      obtain ⟨shown, below⟩ := stands
      have path := valid name List.mem_cons_self
      obtain ⟨entry, some'⟩ := Option.isSome_iff_exists.mp (given rest.length)
      have stored := dir_stored recorded volume dir shown.listed parent inner shown
      cases found : inner.find name with
      | none =>
          have missing := dir_find_none recorded volume dir shown.listed parent inner plain shown below known name path.dot path.dots found
          have looked := lookup_missing sfs (kernelInode fs dir) volume.mounted volume.noFault stored name entry path.lookup missing
          rw [HostNode.walk, found]
          show lookupPath memory sfs (kernelInode fs dir) (name :: rest) = .ok (eNoEnt, none, sfs)
          rw [lookupPath, some', looked]
          rfl
      | some node =>
          obtain ⟨j, ino, slot, number, at', plainNode⟩ :=
            dir_find_some recorded volume dir shown.listed parent inner plain shown below known name path.dot path.dots node found
          have looked := lookup_found sfs (kernelInode fs dir) volume.mounted volume.noFault stored name entry path.lookup j slot
          have listed := node_listed dir ino node at'
          rw [show slotIno sfs (kernelInode fs dir).din j = ino from number] at looked
          rw [HostNode.walk, found, lookupPath, some', looked]
          cases node with
          | dir deeper =>
              have type := at'.1.type
              rw [load_back recorded volume nlinks ino listed (by rw [type]; decide), if_pos (.inl type)]
              have onward : ¬ (rest ≠ [] ∧ (kernelInode fs ino).din.type ≠ typeDir) := fun other => other.2 type
              simp only [Except.map, ok_bind, if_neg onward]
              exact ih (fun later member => valid later (List.mem_cons_of_mem _ member)) ino dir deeper plainNode at' shown.listed
          | file content =>
              have type := at'.2.type
              rw [load_back recorded volume nlinks ino listed (by rw [type]; decide), if_pos (.inr type)]
              simp only [Except.map, ok_bind]
              cases rest with
              | nil => exact ⟨kernelInode fs ino, rfl, file_shown recorded volume dir ino content at'⟩
              | cons later rest =>
                  have stops : later :: rest ≠ [] ∧ (kernelInode fs ino).din.type ≠ typeDir := by
                    refine ⟨List.cons_ne_nil _ _, ?_⟩
                    show (fs.inodeAt ino).din.type ≠ typeDir
                    rw [type]
                    decide
                  rw [if_pos stops]
                  rfl
          | link target =>
              have type := at'.2
              have other : ¬ (typeLink = typeDir ∨ typeLink = typeFile) := by decide
              rw [load_back recorded volume nlinks ino listed (by rw [type]; decide), type, if_neg other]
              cases rest with
              | nil => rfl
              | cons later rest => rfl

end Paths

-- A tree of one host file system within the bounds of the format.
structure HostDir.Storable (host : Nat → Option HostFile) (home : HostDir) : Prop where
  one : home.OneHost host
  numbered : host 0 = none
  plain : home.Plain
  room : home.entries.length + 2 ≤ 1036
  fits : home.Fits
  few : home.FewNames

-- A device with the image mounts, and from the root each path of names ends for the
-- kernel at what it ends at on the host.
def ReadsBack (dev : Device) (home : HostDir) : Prop :=
  ∃ sfs root, sfsDoMount dev = .ok (0, dev, some sfs) ∧ sfsLoadInode sfs blknRoot = .ok (0, some root, sfs) ∧
    ∀ (memory : Nat → Option Bytes) (path : List Name), (∀ n, (memory n).isSome = true) → (∀ name ∈ path, PathName name) →
      Answers sfs (lookupPath memory sfs root path) ((HostNode.dir home).walk path)

theorem image_read_back (stSize : Nat) (garbage : Bytes) (image : Nat → Bytes) (host : Nat → Option HostFile) (home : HostDir)
    (storable : home.Storable host) (fs : MksfsFs) (made : createImg stSize garbage image home = .ok fs) (dev : Device) (holds : dev.data = fs.disk)
    (noFault : dev.results = []) (inside : fs.ninos ≤ dev.dBlocks) : ReadsBack dev home := by
  obtain ⟨created, create, made⟩ := bind_ok made
  obtain ⟨dotted, dots, made⟩ := bind_ok made
  obtain ⟨filled, opened, made⟩ := bind_ok made
  have whole := build_whole stSize garbage home storable.numbered storable.room storable.fits storable.one storable.few create dots opened
  have closed := close_sfs_closed whole.recorded.built made
  obtain ⟨shape, saved⟩ := close_sfs_saved whole.recorded.built made
  obtain ⟨sfs, mounts, sameDev, mounted, blocks, used⟩ := closed_mounted closed dev holds noFault inside
  have ninos : fs.ninos = filled.ninos := by rw [shape]
  have nextIno : fs.nextIno = filled.nextIno := by rw [shape]
  have volume : OnVolume filled sfs := by
    refine ⟨mounted, by rw [sameDev, noFault], blocks.trans ninos, fun b below => used b (nextIno ▸ below), ?_⟩
    rw [sameDev, holds]
    exact saved
  have type := whole.root.type
  refine ⟨sfs, kernelInode filled blknRoot, mounts, ?_, fun memory path given valid => ?_⟩
  · rw [load_back whole.recorded volume whole.nlinks blknRoot whole.root.listed (by rw [type]; decide), if_pos (.inl type)]
  · exact walk_back whole.recorded volume whole.nlinks memory given path valid blknRoot blknRoot home storable.plain ⟨whole.root, whole.shows⟩
      whole.root.listed

-- A file with two names, one of them in a directory, and a link.
def sharedHome : HostDir :=
  .dir [98, 105, 110] 7 (.file [115, 104] 8 ⟨5000, fun i => UInt8.ofNat i⟩ .nil)
    (.file [115, 104, 50] 8 ⟨5000, fun i => UInt8.ofNat i⟩ (.link [108] 9 ⟨6, fun _ => 97⟩ .nil))

def sharedHost (real : Nat) : Option HostFile := if real = 8 then some ⟨5000, fun i => UInt8.ofNat i⟩ else none

theorem shared_storable : sharedHome.Storable sharedHost := by
  refine ⟨?_, rfl, ?_, by decide, ?_, fun real => ?_⟩
  · simp [HostDir.OneHost, sharedHome, sharedHost]
  · simp [HostDir.Plain, sharedHome]
  · simp [HostDir.Fits, sharedHome, HostDir.entries, blkSize, hidden]
  · have once (count other : Nat) : (if real = other then count else 0) ≤ count := by
      split <;> omega
    have dir := once 1 7
    have root := once 1 0
    have file := once 1 8
    have dots := once 2 0
    simp only [HostDir.points, sharedHome, hidden, List.head?_cons, Option.some.injEq, show ¬ ((98 : UInt8) = 46) by decide,
      show ¬ ((115 : UInt8) = 46) by decide, decide_false, Bool.false_eq_true, if_false]
    omega

theorem image_read_back_shared :
    ∃ fs, createImg 133120 zeroBytes (fun _ => zeroBytes) sharedHome = .ok fs ∧ ReadsBack ⟨fs.ninos, fs.disk, []⟩ sharedHome := by
  have returns : (createImg 133120 zeroBytes (fun _ => zeroBytes) sharedHome).toOption.isSome = true := by decide +kernel
  cases made : createImg 133120 zeroBytes (fun _ => zeroBytes) sharedHome with
  | error fault => simp [made, Except.toOption] at returns
  | ok fs =>
      exact ⟨fs, rfl, image_read_back 133120 zeroBytes (fun _ => zeroBytes) sharedHost sharedHome shared_storable fs made
        ⟨fs.ninos, fs.disk, []⟩ rfl rfl (le_refl _)⟩

end Ucore.Mksfs
