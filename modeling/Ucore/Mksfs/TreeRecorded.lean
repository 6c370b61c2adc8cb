import Ucore.Mksfs.Recorded

set_option autoImplicit false

namespace Ucore.Mksfs

open Ucore.Lib
open Ucore.Sfs (blkSize blknRoot blknFreemap typeDir typeFile typeLink roundUpDiv)

-- What a visible entry of a directory of the host is.
inductive HostNode where
  | dir (inner : HostDir)
  | file (content : HostFile)
  | link (target : HostFile)

namespace HostDir

def entries : HostDir → List (Name × HostNode)
  | .nil => []
  | .dir name _ inner rest => if hidden name then rest.entries else (name, .dir inner) :: rest.entries
  | .file name _ content rest => if hidden name then rest.entries else (name, .file content) :: rest.entries
  | .link name _ target rest => if hidden name then rest.entries else (name, .link target) :: rest.entries
  | .other _ rest => rest.entries

-- How often the inode of the host with a number is named, by its entries and by
-- . and .. of the directories, in a directory that has the number own.
def points (own real : Nat) : HostDir → Nat
  | .nil => 0
  | .dir name number inner rest =>
      if hidden name then rest.points own real
      else (if real = number then 1 else 0) + (if real = own then 1 else 0) + inner.points number real + (if real = number then 1 else 0) +
        rest.points own real
  | .file name number _ rest => if hidden name then rest.points own real else (if real = number then 1 else 0) + rest.points own real
  | .link _ _ _ rest => rest.points own real
  | .other _ rest => rest.points own real

-- Within what the kernel can map: 1036 blocks for a file, and 1036 entries, the
-- two dots among them, for a directory.
def Fits : HostDir → Prop
  | .nil => True
  | .dir name _ inner rest => (hidden name = false → inner.entries.length + 2 ≤ 1036 ∧ inner.Fits) ∧ rest.Fits
  | .file name _ content rest => (hidden name = false → content.size ≤ 1036 * blkSize) ∧ rest.Fits
  | .link _ _ _ rest => rest.Fits
  | .other _ rest => rest.Fits

-- One host file system, where host gives the regular file that has a number.
def OneHost (host : Nat → Option HostFile) : HostDir → Prop
  | .nil => True
  | .dir name real inner rest => (hidden name = false → host real = none ∧ inner.OneHost host) ∧ rest.OneHost host
  | .file name real content rest => (hidden name = false → host real = some content) ∧ rest.OneHost host
  | .link name real _ rest => (hidden name = false → host real = none) ∧ rest.OneHost host
  | .other _ rest => rest.OneHost host

end HostDir

structure FileIs (fs : MksfsFs) (ino : Nat) (content : HostFile) : Prop where
  type : (fs.inodeAt ino).din.type = typeFile
  part : FilePart fs ino (roundUpDiv content.size blkSize) content

-- The inodes of the build: each is what the number it has on the host says.
structure Recorded (image : Nat → Bytes) (host : Nat → Option HostFile) (fs : MksfsFs) : Prop where
  built : Built image fs
  mapped : Mapped fs
  files : ∀ ino ∈ fs.inodeList, ∀ content, host (fs.inodeAt ino).real = some content → FileIs fs ino content
  others : ∀ ino ∈ fs.inodeList, host (fs.inodeAt ino).real = none → (fs.inodeAt ino).din.type ≠ typeFile
  distinct : ∀ a ∈ fs.inodeList, ∀ b ∈ fs.inodeList, (fs.inodeAt a).din.type ≠ typeLink → (fs.inodeAt b).din.type ≠ typeLink →
    (fs.inodeAt a).real = (fs.inodeAt b).real → a = b
  small : ∀ ino ∈ fs.inodeList, (fs.inodeAt ino).din.nlinks < 2 ^ 16

def linksOf (fs : MksfsFs) (ino : Nat) : Nat := if ino ∈ fs.inodeList then (fs.inodeAt ino).din.nlinks else 0

-- The names that a step adds, by the number on the host. A symbolic link has one
-- name only.
structure Linked (fs next : MksfsFs) (add : Nat → Nat) : Prop where
  counts : ∀ ino ∈ next.inodeList, (next.inodeAt ino).din.type ≠ typeLink →
    (next.inodeAt ino).din.nlinks = (linksOf fs ino + add (next.inodeAt ino).real) % 2 ^ 16
  links : ∀ ino ∈ next.inodeList, (next.inodeAt ino).din.type = typeLink →
    (next.inodeAt ino).din.nlinks = if ino ∈ fs.inodeList then (fs.inodeAt ino).din.nlinks else 1
  known : ∀ real, add real ≠ 0 → ∃ ino ∈ next.inodeList, (next.inodeAt ino).din.type ≠ typeLink ∧ (next.inodeAt ino).real = real

-- What a step brings is named in it.
def Named (fs next : MksfsFs) (add : Nat → Nat) : Prop :=
  ∀ ino ∈ next.inodeList, ino ∉ fs.inodeList → (next.inodeAt ino).din.type ≠ typeLink → add (next.inodeAt ino).real ≠ 0

section Steps

variable {image : Nat → Bytes} {host : Nat → Option HostFile} {fs mid next : MksfsFs}

theorem named_same (add : Nat → Nat) (inodeList : next.inodeList = fs.inodeList) : Named fs next add :=
  fun _ listed new => absurd (inodeList ▸ listed) new

theorem named_new (add : Nat → Nat) (new : Nat) (inodeList : next.inodeList = new :: fs.inodeList)
    (named : (next.inodeAt new).din.type ≠ typeLink → add (next.inodeAt new).real ≠ 0) : Named fs next add := by
  intro ino listed other plain
  rw [inodeList] at listed
  rcases List.mem_cons.mp listed with rfl | earlier
  · exact named plain
  · exact absurd earlier other

theorem named_trans {also : Nat → Prop} {first second add : Nat → Nat} (one : Named fs mid first) (two : Named mid next second)
    (ext : Extends also mid next) (sum : ∀ real, add real = first real + second real) : Named fs next add := by
  intro ino listed new plain
  rw [sum]
  by_cases there : ino ∈ mid.inodeList
  · have early := one ino there new (by rw [← ext.type ino there]; exact plain)
    rw [ext.real ino there]
    omega
  · have late := two ino listed there plain
    omega

theorem file_is_extends {grows : Nat → Prop} (ext : Extends grows fs next) (mapped : Mapped fs) (ino : Nat) (content : HostFile)
    (listed : ino ∈ fs.inodeList) (dirs : ∀ ino ∈ fs.inodeList, grows ino → (fs.inodeAt ino).din.type = typeDir) (file : FileIs fs ino content) :
    FileIs next ino content := by
  refine ⟨(ext.type ino listed).trans file.type, file_part_extends ext mapped ino _ content listed (fun grown => ?_) file.part⟩
  have dir := dirs ino listed grown
  rw [file.type] at dir
  cases dir

theorem recorded_extends {grows : Nat → Prop} (recorded : Recorded image host fs) (ext : Extends grows fs next) (built : Built image next)
    (mapped : Mapped next) (inodeList : next.inodeList = fs.inodeList)
    (dirs : ∀ ino ∈ fs.inodeList, grows ino → (fs.inodeAt ino).din.type = typeDir)
    (small : ∀ ino ∈ fs.inodeList, (next.inodeAt ino).din.nlinks < 2 ^ 16) : Recorded image host next := by
  refine ⟨built, mapped, fun ino listed content known => ?_, fun ino listed known => ?_, fun a listedA b listedB notA notB same => ?_,
    fun ino listed => small ino (inodeList ▸ listed)⟩
  · rw [inodeList] at listed
    rw [ext.real ino listed] at known
    exact file_is_extends ext recorded.mapped ino content listed dirs (recorded.files ino listed content known)
  · rw [inodeList] at listed
    rw [ext.real ino listed] at known
    rw [ext.type ino listed]
    exact recorded.others ino listed known
  · rw [inodeList] at listedA listedB
    rw [ext.type a listedA] at notA
    rw [ext.type b listedB] at notB
    rw [ext.real a listedA, ext.real b listedB] at same
    exact recorded.distinct a listedA b listedB notA notB same

-- One more inode, with a number that no other one has.
theorem recorded_new (recorded : Recorded image host fs) (ext : Extends (fun _ => False) fs next) (built : Built image next) (mapped : Mapped next)
    (new : Nat) (inodeList : next.inodeList = new :: fs.inodeList)
    (file : ∀ content, host (next.inodeAt new).real = some content → FileIs next new content)
    (other : host (next.inodeAt new).real = none → (next.inodeAt new).din.type ≠ typeFile)
    (apart : (next.inodeAt new).din.type ≠ typeLink → ∀ ino ∈ fs.inodeList, (fs.inodeAt ino).real ≠ (next.inodeAt new).real)
    (small : ∀ ino ∈ next.inodeList, (next.inodeAt ino).din.nlinks < 2 ^ 16) : Recorded image host next := by
  refine ⟨built, mapped, fun ino listed content known => ?_, fun ino listed known => ?_, fun a listedA b listedB notA notB same => ?_, small⟩
  · rw [inodeList] at listed
    rcases List.mem_cons.mp listed with rfl | earlier
    · exact file content known
    · rw [ext.real ino earlier] at known
      exact file_is_extends ext recorded.mapped ino content earlier (fun _ _ never => never.elim) (recorded.files ino earlier content known)
  · rw [inodeList] at listed
    rcases List.mem_cons.mp listed with rfl | earlier
    · exact other known
    · rw [ext.real ino earlier] at known
      rw [ext.type ino earlier]
      exact recorded.others ino earlier known
  · rw [inodeList] at listedA listedB
    rcases List.mem_cons.mp listedA with rfl | earlierA
    · rcases List.mem_cons.mp listedB with rfl | earlierB
      · rfl
      · rw [ext.real b earlierB] at same
        exact absurd same.symm (apart notA b earlierB)
    · rcases List.mem_cons.mp listedB with rfl | earlierB
      · rw [ext.real a earlierA] at same
        exact absurd same (apart notB a earlierA)
      · rw [ext.type a earlierA] at notA
        rw [ext.type b earlierB] at notB
        rw [ext.real a earlierA, ext.real b earlierB] at same
        exact recorded.distinct a earlierA b earlierB notA notB same

theorem linked_trans {grows also : Nat → Prop} {first second : Nat → Nat} (one : Linked fs mid first) (two : Linked mid next second)
    (ext1 : Extends grows fs mid) (ext2 : Extends also mid next) (recorded : Recorded image host next) :
    Linked fs next fun real => first real + second real := by
  refine ⟨fun ino listed plain => ?_, fun ino listed link => ?_, fun real some => ?_⟩
  · rw [two.counts ino listed plain]
    by_cases there : ino ∈ mid.inodeList
    · have before := one.counts ino there (by rw [← ext2.type ino there]; exact plain)
      rw [linksOf, if_pos there, before, ext2.real ino there, Nat.mod_add_mod, Nat.add_assoc]
    · have notFirst : ino ∉ fs.inodeList := fun listed => there (ext1.inodes ino listed)
      -- Nothing that the first step names has the number of a later inode.
      have none : first (next.inodeAt ino).real = 0 := by
        by_contra some
        obtain ⟨other, known, plainO, same⟩ := one.known _ some
        have equal := recorded.distinct other (ext2.inodes other known) ino listed (by rw [ext2.type other known]; exact plainO) plain
          (by rw [ext2.real other known]; exact same)
        exact there (equal ▸ known)
      rw [linksOf, if_neg there, linksOf, if_neg notFirst, none, Nat.zero_add, Nat.zero_add]
  · rw [two.links ino listed link]
    by_cases there : ino ∈ mid.inodeList
    · rw [if_pos there]
      exact one.links ino there (by rw [← ext2.type ino there]; exact link)
    · rw [if_neg there, if_neg fun listed => there (ext1.inodes ino listed)]
  · by_cases early : first real = 0
    · exact two.known real (by omega)
    · obtain ⟨ino, known, plain, same⟩ := one.known real early
      exact ⟨ino, ext2.inodes ino known, by rw [ext2.type ino known]; exact plain, (ext2.real ino known).trans same⟩

theorem linked_refl (recorded : Recorded image host fs) : Linked fs fs fun _ => 0 := by
  refine ⟨fun ino listed _ => ?_, fun ino listed _ => (if_pos listed).symm, fun _ some => absurd rfl some⟩
  rw [linksOf, if_pos listed, Nat.add_zero, Nat.mod_eq_of_lt (recorded.small ino listed)]

-- A name for an inode that is there.
theorem enter_recorded (recorded : Recorded image host fs) (current file : Nat) (name : Name)
    (dir : (fs.inodeAt current).din.type = typeDir) (built : Built image next)
    (entered : Entered fs next current file name) : Recorded image host next := by
  refine recorded_extends recorded entered.ext built entered.mapped entered.inodeList (fun ino _ same => same ▸ dir) fun ino inside => ?_
  rw [entered.nlinks]
  split
  · exact Nat.mod_lt _ (by decide)
  · exact recorded.small ino inside

theorem enter_linked (recorded : Recorded image host fs) (current file : Nat) (name : Name) (known : file ∈ fs.inodeList)
    (plain : (fs.inodeAt file).din.type ≠ typeLink) (entered : Entered fs next current file name) :
    Linked fs next fun real => if real = (fs.inodeAt file).real then 1 else 0 := by
  refine ⟨fun ino listed plainI => ?_, fun ino listed link => ?_, fun real some => ?_⟩
  · rw [entered.inodeList] at listed
    rw [entered.ext.type ino listed] at plainI
    rw [entered.nlinks, entered.ext.real ino listed, linksOf, if_pos listed]
    by_cases same : ino = file
    · rw [if_pos same, if_pos (by rw [same])]
    · rw [if_neg same, if_neg fun equal => same (recorded.distinct ino listed file known plainI plain equal), Nat.add_zero,
        Nat.mod_eq_of_lt (recorded.small ino listed)]
  · rw [entered.inodeList] at listed
    rw [entered.ext.type ino listed] at link
    rw [entered.nlinks, if_neg fun same => plain (by rw [← same]; exact link), if_pos listed]
  · by_cases same : real = (fs.inodeAt file).real
    · exact ⟨file, by rw [entered.inodeList]; exact known, by rw [entered.ext.type file known]; exact plain,
        (entered.ext.real file known).trans same.symm⟩
    · rw [if_neg same] at some
      exact absurd rfl some

theorem linked_congr {add other : Nat → Nat} (linked : Linked fs next add) (same : ∀ real, add real = other real) : Linked fs next other := by
  obtain rfl : add = other := funext same
  exact linked

theorem search_unknown (real : Nat) (none : searchCacheInode fs real = none) (ino : Nat) (listed : ino ∈ fs.inodeList) :
    (fs.inodeAt ino).real ≠ real := by
  have differs := List.find?_eq_none.mp none ino listed
  simpa using differs

theorem opened_linked (recorded : Recorded image host fs) (real type file : Nat) (plain : type ≠ typeLink) (opened : Opened fs next real type file) :
    Linked fs next fun _ => 0 := by
  have new : (next.inodeAt file).din.type = type := by rw [opened.inode]
  refine ⟨fun ino listed _ => ?_, fun ino listed link => ?_, fun _ some => absurd rfl some⟩
  · rw [opened.inodeList] at listed
    rcases List.mem_cons.mp listed with rfl | earlier
    · rw [opened.inode, linksOf, if_neg opened.fresh]
      rfl
    · rw [opened.others ino fun same => opened.fresh (same ▸ earlier), linksOf, if_pos earlier, Nat.add_zero, Nat.mod_eq_of_lt (recorded.small ino earlier)]
  · rw [opened.inodeList] at listed
    rcases List.mem_cons.mp listed with rfl | earlier
    · exact absurd (new.symm.trans link) plain
    · rw [if_pos earlier, opened.others ino fun same => opened.fresh (same ▸ earlier)]

theorem opened_small (recorded : Recorded image host fs) (real type file : Nat) (opened : Opened fs next real type file) :
    ∀ ino ∈ next.inodeList, (next.inodeAt ino).din.nlinks < 2 ^ 16 := by
  intro ino listed
  rw [opened.inodeList] at listed
  rcases List.mem_cons.mp listed with rfl | earlier
  · rw [opened.inode]
    exact Nat.two_pow_pos 16
  · rw [opened.others ino fun same => opened.fresh (same ▸ earlier)]
    exact recorded.small ino earlier

-- The two dots of an empty directory.
structure Dotted (image : Nat → Bytes) (host : Nat → Option HostFile) (fs next : MksfsFs) (ino parent : Nat) : Prop where
  recorded : Recorded image host next
  ext : Extends (fun other => other = ino) fs next
  linked : Linked fs next fun r => (if r = (fs.inodeAt ino).real then 1 else 0) + if r = (fs.inodeAt parent).real then 1 else 0
  inodeList : next.inodeList = fs.inodeList
  nblks : (next.inodeAt ino).nblks = 2
  dot : EntryAt next ino 0 [46] ino
  dots : EntryAt next ino 1 [46, 46] parent

theorem add_dots_step (recorded : Recorded image host fs) (ino parent : Nat) (listed : ino ∈ fs.inodeList) (known : parent ∈ fs.inodeList)
    (dir : (fs.inodeAt ino).din.type = typeDir) (above : (fs.inodeAt parent).din.type = typeDir) (empty : (fs.inodeAt ino).nblks = 0)
    (dots : addDots fs ino parent = .ok next) : Dotted image host fs next ino parent := by
  obtain ⟨mid, first, second⟩ := bind_ok dots
  have plain : typeDir ≠ typeLink := by decide
  have entered := add_entry_step recorded.built recorded.mapped ino ino [46] listed listed (by rw [empty]; decide) first
  have builtM := add_entry_built recorded.built ino ino [46] first
  have recordedM := enter_recorded recorded ino ino [46] dir builtM entered
  have listedM : ino ∈ mid.inodeList := entered.ext.inodes ino listed
  have knownM : parent ∈ mid.inodeList := entered.ext.inodes parent known
  have nblksM : (mid.inodeAt ino).nblks = 1 := by rw [entered.nblks, empty]
  have dirM : (mid.inodeAt ino).din.type = typeDir := (entered.ext.type ino listed).trans dir
  have aboveM : (mid.inodeAt parent).din.type = typeDir := (entered.ext.type parent known).trans above
  have again := add_entry_step builtM entered.mapped ino parent [46, 46] listedM knownM (by rw [nblksM]; decide) second
  have builtN := add_entry_built builtM ino parent [46, 46] second
  have recordedN := enter_recorded recordedM ino parent [46, 46] dirM builtN again
  have linked1 := enter_linked recorded ino ino [46] listed (by rw [dir]; exact plain) entered
  have linked2 := enter_linked recordedM ino parent [46, 46] knownM (by rw [aboveM]; exact plain) again
  refine ⟨recordedN, extends_trans entered.ext again.ext fun _ _ same => same,
    linked_congr (linked_trans linked1 linked2 entered.ext again.ext recordedN) fun r => ?_, again.inodeList.trans entered.inodeList, ?_, ?_, ?_⟩
  · rw [entered.ext.real parent known]
  · rw [again.nblks, nblksM]
  · have dot := entered.entry
    rw [empty] at dot
    exact entry_at_extends again.ext ino 0 [46] ino listedM dot
  · have dots := again.entry
    rw [nblksM] at dots
    exact dots

-- A new directory with its two dots.
structure NewDir (image : Nat → Bytes) (host : Nat → Option HostFile) (fs next : MksfsFs) (current real ino : Nat) : Prop where
  recorded : Recorded image host next
  ext : Extends (fun _ => False) fs next
  linked : Linked fs next fun r => (if r = real then 1 else 0) + if r = (fs.inodeAt current).real then 1 else 0
  named : Named fs next fun r => (if r = real then 1 else 0) + if r = (fs.inodeAt current).real then 1 else 0
  fresh : ino ∉ fs.inodeList
  listed : ino ∈ next.inodeList
  real : (next.inodeAt ino).real = real
  type : (next.inodeAt ino).din.type = typeDir
  nblks : (next.inodeAt ino).nblks = 2
  dot : EntryAt next ino 0 [46] ino
  dots : EntryAt next ino 1 [46, 46] current

theorem new_dir_step (recorded : Recorded image host fs) (current real ino : Nat) (listed : current ∈ fs.inodeList)
    (dir : (fs.inodeAt current).din.type = typeDir) (unknown : searchCacheInode fs real = none) (noFile : host real = none) (made : MksfsFs)
    (alloc : allocCacheInode fs real 0 typeDir = .ok (ino, made)) (dots : addDots made ino current = .ok next) :
    NewDir image host fs next current real ino := by
  have opened := alloc_cache_inode_step recorded.built recorded.mapped real typeDir ino alloc
  have builtM := alloc_cache_inode_built recorded.built real 0 typeDir ino (.inl rfl) alloc
  have here : ino ∈ made.inodeList := by
    rw [opened.inodeList]
    exact List.mem_cons_self
  have realM : (made.inodeAt ino).real = real := by rw [opened.inode]
  have typeM : (made.inodeAt ino).din.type = typeDir := by rw [opened.inode]
  have recordedM : Recorded image host made := by
    refine recorded_new recorded opened.ext builtM opened.mapped ino opened.inodeList (fun content known => ?_) (fun _ => ?_) (fun _ other inside => ?_)
      (opened_small recorded real typeDir ino opened)
    · rw [realM, noFile] at known
      cases known
    · rw [typeM]
      decide
    · rw [realM]
      exact search_unknown real unknown other inside
  have both := add_dots_step recordedM ino current here (opened.ext.inodes current listed) typeM ((opened.ext.type current listed).trans dir)
    (by rw [opened.inode]) dots
  have linked := linked_trans (opened_linked recorded real typeDir ino (by decide) opened) both.linked opened.ext both.ext both.recorded
  refine ⟨both.recorded, extends_trans opened.ext both.ext fun other inside same => opened.fresh (same ▸ inside), linked_congr linked fun r => ?_,
    named_new _ ino (both.inodeList.trans opened.inodeList) fun _ => ?_, opened.fresh, both.ext.inodes ino here,
    (both.ext.real ino here).trans realM, (both.ext.type ino here).trans typeM, both.nblks, both.dot, both.dots⟩
  · rw [Nat.zero_add, realM, opened.ext.real current listed]
  · rw [both.ext.real ino here, realM, if_pos rfl]
    exact Nat.ne_of_gt (Nat.lt_of_lt_of_le Nat.zero_lt_one (Nat.le_add_right 1 _))

theorem linked_same {grows : Nat → Prop} {add : Nat → Nat} (linked : Linked fs mid add) (ext : Extends grows mid next)
    (inodeList : next.inodeList = mid.inodeList) (nlinks : ∀ ino, (next.inodeAt ino).din.nlinks = (mid.inodeAt ino).din.nlinks) :
    Linked fs next add := by
  refine ⟨fun ino listed plain => ?_, fun ino listed link => ?_, fun real some => ?_⟩
  · rw [inodeList] at listed
    rw [ext.type ino listed] at plain
    rw [nlinks, ext.real ino listed]
    exact linked.counts ino listed plain
  · rw [inodeList] at listed
    rw [ext.type ino listed] at link
    rw [nlinks]
    exact linked.links ino listed link
  · obtain ⟨ino, known, plain, same⟩ := linked.known real some
    exact ⟨ino, ext.inodes ino known, by rw [ext.type ino known]; exact plain, (ext.real ino known).trans same⟩

-- An entry at the end of a directory, and the inode that it names.
structure NewEntry (image : Nat → Bytes) (host : Nat → Option HostFile) (fs next : MksfsFs) (current file : Nat) (name : Name) (add : Nat → Nat) :
    Prop where
  recorded : Recorded image host next
  ext : Extends (fun ino => ino = current) fs next
  linked : Linked fs next add
  named : Named fs next add
  nblks : (next.inodeAt current).nblks = (fs.inodeAt current).nblks + 1
  entry : EntryAt next current (fs.inodeAt current).nblks name file
  listed : file ∈ next.inodeList

section Entry

variable (recorded : Recorded image host fs) (current : Nat) (listed : current ∈ fs.inodeList) (dir : (fs.inodeAt current).din.type = typeDir)
  (room : (fs.inodeAt current).nblks < 1036) (name : Name) (real : Nat)

include recorded listed dir room

theorem known_entry_step (file : Nat) (known : file ∈ fs.inodeList) (same : (fs.inodeAt file).real = real)
    (plain : (fs.inodeAt file).din.type ≠ typeLink) (done : addEntry fs current file name = .ok next) :
    NewEntry image host fs next current file name fun r => if r = real then 1 else 0 := by
  have entered := add_entry_step recorded.built recorded.mapped current file name listed known room done
  have built := add_entry_built recorded.built current file name done
  refine ⟨enter_recorded recorded current file name dir built entered, entered.ext,
    linked_congr (enter_linked recorded current file name known plain entered) fun r => by rw [same], named_same _ entered.inodeList, entered.nblks,
    entered.entry, ?_⟩
  rw [entered.inodeList]
  exact known

theorem add_file_step (content : HostFile) (known : host real = some content) (bounded : content.size ≤ 1036 * blkSize)
    (done : addFile fs current name real content = .ok next) :
    ∃ file, (NewEntry image host fs next current file name fun r => if r = real then 1 else 0) ∧ FileIs next file content := by
  unfold addFile at done
  cases found : searchCacheInode fs real with
  | some file =>
      simp only [found] at done
      have inside : file ∈ fs.inodeList := List.mem_of_find?_eq_some found
      have same : (fs.inodeAt file).real = real := by simpa using List.find?_some found
      have is := recorded.files file inside content (by rw [same]; exact known)
      have entry := known_entry_step recorded current listed dir room name real file inside same (by rw [is.type]; decide) done
      exact ⟨file, entry, file_is_extends entry.ext recorded.mapped file content inside (fun ino _ same => same ▸ dir) is⟩
  | none =>
      simp only [found] at done
      obtain ⟨⟨file, made⟩, alloc, done⟩ := bind_ok done
      obtain ⟨filled, opened', done⟩ := bind_ok done
      have opened := alloc_cache_inode_step recorded.built recorded.mapped real typeFile file alloc
      have builtM := alloc_cache_inode_built recorded.built real 0 typeFile file (.inl rfl) alloc
      have here : file ∈ made.inodeList := by
        rw [opened.inodeList]
        exact List.mem_cons_self
      have empty : FilePart made file 0 content := by
        refine ⟨by rw [opened.inode], ?_, fun i below => absurd below (Nat.not_lt_zero i)⟩
        rw [opened.inode, Nat.zero_mul, Nat.zero_min]
      have start : openFileLoop made file content (min (0 * blkSize) content.size) blkSize (roundUpDiv content.size blkSize) = .ok filled := by
        rw [Nat.zero_mul, Nat.zero_min]
        exact opened'
      obtain ⟨rest, all⟩ := open_file_loop_step _ builtM opened.mapped file 0 blkSize content here empty (Nat.zero_add _) bounded start
      have realF : (filled.inodeAt file).real = real := by rw [rest.ext.real file here, opened.inode]
      have typeF : (filled.inodeAt file).din.type = typeFile := by rw [rest.ext.type file here, opened.inode]
      have ext : Extends (fun _ => False) fs filled := extends_trans opened.ext rest.ext fun ino inside same => opened.fresh (same ▸ inside)
      have recordedF : Recorded image host filled := by
        refine recorded_new recorded ext rest.built rest.mapped file (rest.inodeList.trans opened.inodeList) (fun other is => ?_) (fun none => ?_)
          (fun _ other inside => ?_) fun ino inside => ?_
        · rw [realF, known] at is
          obtain rfl := Option.some.inj is
          exact ⟨typeF, all⟩
        · rw [realF, known] at none
          cases none
        · rw [realF]
          exact search_unknown real found other inside
        · rw [rest.nlinks]
          exact opened_small recorded real typeFile file opened ino (by rw [← rest.inodeList]; exact inside)
      have linkedF := linked_same (opened_linked recorded real typeFile file (by decide) opened) rest.ext rest.inodeList rest.nlinks
      have currentF : current ∈ filled.inodeList := ext.inodes current listed
      have nblksF := (ext.same current listed not_false).1
      have entry := known_entry_step recordedF current currentF ((ext.type current listed).trans dir) (by rw [nblksF]; exact room) name real file
        (rest.ext.inodes file here) realF (by rw [typeF]; decide) done
      refine ⟨file, ⟨entry.recorded, extends_trans (extends_weaken ext fun _ _ never => never.elim) entry.ext fun _ _ same => same,
        linked_congr (linked_trans linkedF entry.linked ext entry.ext entry.recorded) fun r => Nat.zero_add _, ?_, ?_, ?_, entry.listed⟩,
        file_is_extends entry.ext rest.mapped file content (rest.ext.inodes file here) (fun ino inside same => ?_) ⟨typeF, all⟩⟩
      · intro ino inside new plain
        by_cases there : ino ∈ filled.inodeList
        · have only : ino = file := by
            rw [rest.inodeList, opened.inodeList] at there
            exact (List.mem_cons.mp there).resolve_right new
          rw [only, entry.ext.real file (rest.ext.inodes file here), realF]
          simp only [if_true, ne_eq, Nat.one_ne_zero, not_false_eq_true]
        · exact entry.named ino inside there plain
      · rw [entry.nblks, nblksF]
      · have place := entry.entry
        rw [nblksF] at place
        exact place
      · rw [same]
        exact (ext.type current listed).trans dir

theorem add_link_step (target : HostFile) (noFile : host real = none) (done : addLink fs current name real target = .ok next) :
    ∃ link, (NewEntry image host fs next current link name fun _ => 0) ∧ (next.inodeAt link).din.type = typeLink := by
  obtain ⟨⟨link, made⟩, alloc, done⟩ := bind_ok done
  obtain ⟨filled, opened', done⟩ := bind_ok done
  have opened := alloc_cache_inode_step recorded.built recorded.mapped real typeLink link alloc
  have builtM := alloc_cache_inode_built recorded.built real 0 typeLink link (.inl rfl) alloc
  have here : link ∈ made.inodeList := by
    rw [opened.inodeList]
    exact List.mem_cons_self
  have builtF := open_link_built builtM link target opened'
  obtain ⟨⟨b, taken⟩, allocB, fill⟩ := bind_ok opened'
  obtain ⟨_, _, fill⟩ := bind_ok fill
  obtain ⟨written, wrote, append⟩ := bind_ok fill
  obtain ⟨builtW, stored⟩ := store_block builtM opened.mapped .data b taken _ _ allocB wrote
  have listedW : link ∈ written.inodeList := by rw [stored.inodeList]; exact here
  have nblksW : (written.inodeAt link).nblks = 0 := by rw [stored.inodeAt, opened.inode]
  have step := append_block_step builtW stored.mapped link b _ listedW (by rw [nblksW]; decide) (.inr stored.given) append
  have extM : Extends (fun ino => ino = link) made filled := extends_trans (extends_weaken stored.ext fun _ _ never => never.elim) step.ext
    fun _ _ same => same
  have inodeList : filled.inodeList = link :: fs.inodeList := (step.inodeList.trans stored.inodeList).trans opened.inodeList
  have ext : Extends (fun _ => False) fs filled := extends_trans opened.ext extM fun ino inside same => opened.fresh (same ▸ inside)
  have nlinksF : ∀ ino, (filled.inodeAt ino).din.nlinks = (made.inodeAt ino).din.nlinks := fun ino => by rw [step.nlinks, stored.inodeAt]
  have realF : (filled.inodeAt link).real = real := by rw [extM.real link here, opened.inode]
  have typeF : (filled.inodeAt link).din.type = typeLink := by rw [extM.type link here, opened.inode]
  have smallM := opened_small recorded real typeLink link opened
  have recordedF : Recorded image host filled := by
    refine recorded_new recorded ext builtF step.mapped link inodeList (fun content is => ?_) (fun _ => ?_) (fun plain => absurd typeF plain)
      fun ino inside => ?_
    · rw [realF, noFile] at is
      cases is
    · rw [typeF]
      decide
    · rw [nlinksF]
      exact smallM ino (by rw [opened.inodeList, ← inodeList]; exact inside)
  have currentF : current ∈ filled.inodeList := ext.inodes current listed
  have nblksF := (ext.same current listed not_false).1
  have dirF : (filled.inodeAt current).din.type = typeDir := (ext.type current listed).trans dir
  have linkF : link ∈ filled.inodeList := extM.inodes link here
  have entered := add_entry_step builtF step.mapped current link name currentF linkF (by rw [nblksF]; exact room) done
  have builtN := add_entry_built builtF current link name done
  have whole : Extends (fun ino => ino = current) fs next :=
    extends_trans (extends_weaken ext fun _ _ never => never.elim) entered.ext fun _ _ same => same
  have typeN : (next.inodeAt link).din.type = typeLink := (entered.ext.type link linkF).trans typeF
  have old : ∀ ino ∈ fs.inodeList, (next.inodeAt ino).din.nlinks = (fs.inodeAt ino).din.nlinks := by
    intro ino inside
    have apart : ino ≠ link := fun same => opened.fresh (same ▸ inside)
    rw [entered.nlinks, if_neg apart, nlinksF, opened.others ino apart]
  have one : (next.inodeAt link).din.nlinks = 1 := by
    rw [entered.nlinks, if_pos rfl, nlinksF, opened.inode]
    rfl
  refine ⟨link, ⟨enter_recorded recordedF current link name dirF builtN entered, whole, ⟨fun ino inside plain => ?_, fun ino inside _ => ?_,
    fun _ some => absurd rfl some⟩, named_new _ link (entered.inodeList.trans inodeList) fun plain => absurd typeN plain, ?_, ?_,
    by rw [entered.inodeList]; exact linkF⟩, typeN⟩
  · rw [entered.inodeList, inodeList] at inside
    rcases List.mem_cons.mp inside with rfl | earlier
    · exact absurd typeN plain
    · rw [old ino earlier, linksOf, if_pos earlier, Nat.add_zero, Nat.mod_eq_of_lt (recorded.small ino earlier)]
  · rw [entered.inodeList, inodeList] at inside
    rcases List.mem_cons.mp inside with rfl | earlier
    · rw [one, if_neg opened.fresh]
    · rw [old ino earlier, if_pos earlier]
  · rw [entered.nblks, nblksF]
  · have place := entered.entry
    rw [nblksF] at place
    exact place

end Entry

end Steps

-- A finished directory with count entries behind its dots; what is above is still open.
structure ShownDir (fs : MksfsFs) (above : Nat → Prop) (ino parent count : Nat) : Prop where
  listed : ino ∈ fs.inodeList
  away : ¬ above ino
  type : (fs.inodeAt ino).din.type = typeDir
  nblks : (fs.inodeAt ino).nblks = 2 + count
  dot : EntryAt fs ino 0 [46] ino
  dots : EntryAt fs ino 1 [46, 46] parent

-- The entries of a directory of the host stand in the inode current from place k
-- on, in their order, each with what it names.
def Shows (fs : MksfsFs) (above : Nat → Prop) : HostDir → Nat → Nat → Prop
  | .nil, _, _ => True
  | .dir name _ inner rest, current, k =>
      if hidden name then Shows fs above rest current k
      else (∃ ino, EntryAt fs current k name ino ∧ ShownDir fs above ino current inner.entries.length ∧ Shows fs above inner ino 2) ∧
        Shows fs above rest current (k + 1)
  | .file name _ content rest, current, k =>
      if hidden name then Shows fs above rest current k
      else (∃ ino, EntryAt fs current k name ino ∧ ino ∈ fs.inodeList ∧ FileIs fs ino content) ∧ Shows fs above rest current (k + 1)
  | .link name _ _ rest, current, k =>
      if hidden name then Shows fs above rest current k
      else (∃ ino, EntryAt fs current k name ino ∧ ino ∈ fs.inodeList ∧ (fs.inodeAt ino).din.type = typeLink) ∧ Shows fs above rest current (k + 1)
  | .other _ rest, current, k => Shows fs above rest current k

section Tree

variable {image : Nat → Bytes} {host : Nat → Option HostFile}

theorem shown_dir_extends {grows : Nat → Prop} {fs next : MksfsFs} (ext : Extends grows fs next) (above : Nat → Prop)
    (still : ∀ ino ∈ fs.inodeList, grows ino → above ino) (ino parent count : Nat) (shown : ShownDir fs above ino parent count) :
    ShownDir next above ino parent count :=
  ⟨ext.inodes ino shown.listed, shown.away, (ext.type ino shown.listed).trans shown.type,
    (ext.same ino shown.listed fun grown => shown.away (still ino shown.listed grown)).1.trans shown.nblks,
    entry_at_extends ext ino 0 [46] ino shown.listed shown.dot, entry_at_extends ext ino 1 [46, 46] parent shown.listed shown.dots⟩

theorem shows_extends {grows : Nat → Prop} {fs next : MksfsFs} (ext : Extends grows fs next) (mapped : Mapped fs) (above : Nat → Prop)
    (still : ∀ ino ∈ fs.inodeList, grows ino → above ino ∧ (fs.inodeAt ino).din.type = typeDir) (home : HostDir) (current k : Nat)
    (listed : current ∈ fs.inodeList) (shows' : Shows fs above home current k) : Shows next above home current k := by
  induction home generalizing current k with
  | nil => trivial
  | dir name real inner rest inside after =>
      rw [Shows] at shows' ⊢
      by_cases skipped : hidden name
      · rw [if_pos skipped] at shows' ⊢
        exact after current k listed shows'
      · rw [if_neg skipped] at shows' ⊢
        obtain ⟨⟨ino, entry, shown, below⟩, later⟩ := shows'
        exact ⟨⟨ino, entry_at_extends ext current k name ino listed entry,
          shown_dir_extends ext above (fun ino inside grown => (still ino inside grown).1) ino current _ shown,
          inside ino 2 shown.listed below⟩, after current (k + 1) listed later⟩
  | file name real content rest after =>
      rw [Shows] at shows' ⊢
      by_cases skipped : hidden name
      · rw [if_pos skipped] at shows' ⊢
        exact after current k listed shows'
      · rw [if_neg skipped] at shows' ⊢
        obtain ⟨⟨ino, entry, known, file⟩, later⟩ := shows'
        exact ⟨⟨ino, entry_at_extends ext current k name ino listed entry, ext.inodes ino known,
          file_is_extends ext mapped ino content known (fun ino inside grown => (still ino inside grown).2) file⟩, after current (k + 1) listed later⟩
  | link name real target rest after =>
      rw [Shows] at shows' ⊢
      by_cases skipped : hidden name
      · rw [if_pos skipped] at shows' ⊢
        exact after current k listed shows'
      · rw [if_neg skipped] at shows' ⊢
        obtain ⟨⟨ino, entry, known, type⟩, later⟩ := shows'
        exact ⟨⟨ino, entry_at_extends ext current k name ino listed entry, ext.inodes ino known, (ext.type ino known).trans type⟩,
          after current (k + 1) listed later⟩
  | other name rest after => exact after current k listed shows'

theorem shows_fewer {above fewer : Nat → Prop} {fs : MksfsFs} (less : ∀ ino, fewer ino → above ino) (home : HostDir) (current k : Nat)
    (shows' : Shows fs above home current k) : Shows fs fewer home current k := by
  induction home generalizing current k with
  | nil => trivial
  | dir name real inner rest inside after =>
      rw [Shows] at shows' ⊢
      by_cases skipped : hidden name
      · rw [if_pos skipped] at shows' ⊢
        exact after current k shows'
      · rw [if_neg skipped] at shows' ⊢
        obtain ⟨⟨ino, entry, shown, below⟩, later⟩ := shows'
        exact ⟨⟨ino, entry, ⟨shown.listed, fun high => shown.away (less ino high), shown.type, shown.nblks, shown.dot, shown.dots⟩,
          inside ino 2 below⟩, after current (k + 1) later⟩
  | file name real content rest after =>
      rw [Shows] at shows' ⊢
      by_cases skipped : hidden name
      · rw [if_pos skipped] at shows' ⊢
        exact after current k shows'
      · rw [if_neg skipped] at shows' ⊢
        exact ⟨shows'.1, after current (k + 1) shows'.2⟩
  | link name real target rest after =>
      rw [Shows] at shows' ⊢
      by_cases skipped : hidden name
      · rw [if_pos skipped] at shows' ⊢
        exact after current k shows'
      · rw [if_neg skipped] at shows' ⊢
        exact ⟨shows'.1, after current (k + 1) shows'.2⟩
  | other name rest after => exact after current k shows'

-- What the loop of open_dir over some entries does.
structure Shown (image : Nat → Bytes) (host : Nat → Option HostFile) (above : Nat → Prop) (fs next : MksfsFs) (current : Nat) (home : HostDir) :
    Prop where
  recorded : Recorded image host next
  ext : Extends (fun ino => ino = current) fs next
  linked : Linked fs next fun real => home.points (fs.inodeAt current).real real
  named : Named fs next fun real => home.points (fs.inodeAt current).real real
  nblks : (next.inodeAt current).nblks = (fs.inodeAt current).nblks + home.entries.length
  shows : Shows next above home current (fs.inodeAt current).nblks

-- One entry and the rest of them.
theorem shown_cons (above : Nat → Prop) {fs mid next : MksfsFs} (current : Nat) (listed : current ∈ fs.inodeList)
    (ext : Extends (fun ino => ino = current) fs mid) (add : Nat → Nat) (linked : Linked fs mid add) (named : Named fs mid add)
    (nblks : (mid.inodeAt current).nblks = (fs.inodeAt current).nblks + 1) (rest home : HostDir) (shown : Shown image host above mid next current rest)
    (points : ∀ real, home.points (fs.inodeAt current).real real = add real + rest.points (fs.inodeAt current).real real)
    (length : home.entries.length = rest.entries.length + 1)
    (first : Shows next above rest current ((fs.inodeAt current).nblks + 1) → Shows next above home current (fs.inodeAt current).nblks) :
    Shown image host above fs next current home := by
  have same := ext.real current listed
  have later := shown.shows
  have both := linked_trans linked shown.linked ext shown.ext shown.recorded
  rw [nblks] at later
  refine ⟨shown.recorded, extends_trans ext shown.ext fun _ _ same => same, linked_congr both fun real => ?_,
    named_trans named shown.named shown.ext fun real => ?_, ?_, first later⟩
  · rw [points, same]
  · rw [points, same]
  · rw [shown.nblks, nblks, length]
    omega

theorem shown_skip (above : Nat → Prop) {fs next : MksfsFs} (current : Nat) (rest home : HostDir) (shown : Shown image host above fs next current rest)
    (points : ∀ own real, home.points own real = rest.points own real) (entries : home.entries = rest.entries)
    (same : ∀ k, Shows next above rest current k → Shows next above home current k) : Shown image host above fs next current home :=
  ⟨shown.recorded, shown.ext, linked_congr shown.linked fun real => (points _ real).symm,
    named_trans (named_same _ rfl) shown.named shown.ext fun real => (points _ real).trans (Nat.zero_add _).symm, by rw [entries]; exact shown.nblks, same _ shown.shows⟩

-- The steps of one directory: its inode with the dots, its own entries, and the
-- entry of it.
theorem dir_entry_step (above : Nat → Prop) {fs dotted filled entered : MksfsFs} (current real ino : Nat) (name : Name) (inner : HostDir)
    (listed : current ∈ fs.inodeList) (dir : (fs.inodeAt current).din.type = typeDir) (high : ∀ a, above a → a ∈ fs.inodeList) (here : above current)
    (made : NewDir image host fs dotted current real ino)
    (inside : Shown image host (fun a => above a ∨ a = ino) dotted filled ino inner)
    (entry : NewEntry image host filled entered current ino name fun r => if r = real then 1 else 0) :
    Extends (fun a => a = current) fs entered ∧
    Linked fs entered (fun r => (if r = real then 1 else 0) + (if r = (fs.inodeAt current).real then 1 else 0) + inner.points real r +
      if r = real then 1 else 0) ∧
    Named fs entered (fun r => (if r = real then 1 else 0) + (if r = (fs.inodeAt current).real then 1 else 0) + inner.points real r +
      if r = real then 1 else 0) ∧
    (entered.inodeAt current).nblks = (fs.inodeAt current).nblks + 1 ∧ EntryAt entered current (fs.inodeAt current).nblks name ino ∧
    ShownDir entered above ino current inner.entries.length ∧ Shows entered above inner ino 2 := by
  have apart : current ≠ ino := fun same => made.fresh (same ▸ listed)
  have extF : Extends (fun _ => False) fs filled := extends_trans made.ext inside.ext fun a old same => made.fresh (same ▸ old)
  have nblksF := (extF.same current listed not_false).1
  have listedF : ino ∈ filled.inodeList := inside.ext.inodes ino made.listed
  have typeF : (filled.inodeAt ino).din.type = typeDir := (inside.ext.type ino made.listed).trans made.type
  have linkedF := linked_trans made.linked inside.linked made.ext inside.ext inside.recorded
  have linkedE := linked_trans linkedF entry.linked extF entry.ext entry.recorded
  have dot := entry_at_extends inside.ext ino 0 [46] ino made.listed made.dot
  have dots := entry_at_extends inside.ext ino 1 [46, 46] current made.listed made.dots
  have place := entry.entry
  have entries := inside.shows
  rw [nblksF] at place
  rw [made.nblks] at entries
  have named := named_trans (named_trans made.named inside.named inside.ext fun _ => rfl) entry.named entry.ext fun _ => rfl
  rw [made.real] at named
  refine ⟨extends_trans (extends_weaken extF fun _ _ never => never.elim) entry.ext fun _ _ same => same, linked_congr linkedE fun r => ?_, named, ?_, place,
    ⟨entry.listed, fun up => made.fresh (high ino up), (entry.ext.type ino listedF).trans typeF, ?_,
      entry_at_extends entry.ext ino 0 [46] ino listedF dot, entry_at_extends entry.ext ino 1 [46, 46] current listedF dots⟩, ?_⟩
  · rw [made.real]
  · rw [entry.nblks, nblksF]
  · rw [(entry.ext.same ino listedF fun same => apart same.symm).1, inside.nblks, made.nblks]
  · refine shows_extends entry.ext inside.recorded.mapped above (fun a old same => ?_) inner ino 2 listedF
      (shows_fewer (fun a up => .inl up) inner ino 2 entries)
    subst same
    exact ⟨here, (extF.type a listed).trans dir⟩

-- Induction on the tree. What is above the current directory is open and has its
-- number from before, so no entry names it.
theorem open_dir_loop_shown (home : HostDir) (above : Nat → Prop) (current : Nat) {fs next : MksfsFs} (recorded : Recorded image host fs)
    (high : ∀ a, above a → a ∈ fs.inodeList ∧ (fs.inodeAt a).din.type = typeDir) (here : above current)
    (room : (fs.inodeAt current).nblks + home.entries.length ≤ 1036) (fits : home.Fits) (one : home.OneHost host)
    (done : openDirLoop current home fs = .ok next) : Shown image host above fs next current home := by
  obtain ⟨listed, dir⟩ := high current here
  induction home generalizing above current fs next with
  | nil =>
      obtain rfl := Except.ok.inj done
      exact ⟨recorded, extends_refl fs, linked_refl recorded, named_same _ rfl, rfl, trivial⟩
  | dir name real inner rest inside after =>
      unfold openDirLoop at done
      by_cases skipped : hidden name
      · rw [if_pos skipped] at done
        have entries : (HostDir.dir name real inner rest).entries = rest.entries := if_pos skipped
        rw [entries] at room
        refine shown_skip above current rest _ (after above current recorded high here room fits.2 one.2 done listed dir) (fun own real => if_pos skipped)
          entries fun k later => ?_
        rw [Shows, if_pos skipped]
        exact later
      · have visible : hidden name = false := Bool.eq_false_iff.mpr skipped
        obtain ⟨bound, fitsInner⟩ := fits.1 visible
        obtain ⟨noFile, oneInner⟩ := one.1 visible
        rw [if_neg skipped] at done
        obtain ⟨_, _, done⟩ := bind_ok done
        obtain ⟨unknown, done⟩ := check_bind_ok done
        obtain ⟨⟨ino, made⟩, alloc, done⟩ := bind_ok done
        obtain ⟨dotted, dots, done⟩ := bind_ok done
        obtain ⟨filled, opened, done⟩ := bind_ok done
        obtain ⟨entered, entry, done⟩ := bind_ok done
        have entries : (HostDir.dir name real inner rest).entries = (name, .dir inner) :: rest.entries := if_neg skipped
        rw [entries, List.length_cons] at room
        have new := new_dir_step recorded current real ino listed dir (of_decide_eq_true unknown) noFile made alloc dots
        have shown := inside (fun a => above a ∨ a = ino) ino new.recorded (fun a up => ?_) (.inr rfl) (by rw [new.nblks]; omega) fitsInner oneInner
          opened new.listed new.type
        · have extF : Extends (fun _ => False) fs filled := extends_trans new.ext shown.ext fun a old same => new.fresh (same ▸ old)
          have nblksF := (extF.same current listed not_false).1
          have step := known_entry_step shown.recorded current (extF.inodes current listed) ((extF.type current listed).trans dir)
            (by rw [nblksF]; omega) name real ino (shown.ext.inodes ino new.listed) ((shown.ext.real ino new.listed).trans new.real)
            (by rw [shown.ext.type ino new.listed, new.type]; decide) entry
          obtain ⟨ext, linked, named, nblks, place, dirIs, below⟩ := dir_entry_step above current real ino name inner listed dir (fun a up => (high a up).1) here
            new shown step
          have later := after above current step.recorded (fun a up => ⟨ext.inodes a (high a up).1, (ext.type a (high a up).1).trans (high a up).2⟩)
            here (by rw [nblks]; omega) fits.2 one.2 done (ext.inodes current listed) ((ext.type current listed).trans dir)
          have still : ∀ a ∈ entered.inodeList, a = current → above a ∧ (entered.inodeAt a).din.type = typeDir := by
            intro a _ same
            subst same
            exact ⟨here, (ext.type a listed).trans dir⟩
          refine shown_cons above current listed ext _ linked named nblks rest _ later (fun r => ?_) (by rw [entries, List.length_cons]) fun tail => ?_
          · rw [HostDir.points, if_neg skipped]
          · rw [Shows, if_neg skipped]
            exact ⟨⟨ino, entry_at_extends later.ext current _ name ino (ext.inodes current listed) place,
              shown_dir_extends later.ext above (fun a old same => (still a old same).1) ino current _ dirIs,
              shows_extends later.ext step.recorded.mapped above still inner ino 2 dirIs.listed below⟩, tail⟩
        · rcases up with up | rfl
          · exact ⟨new.ext.inodes a (high a up).1, (new.ext.type a (high a up).1).trans (high a up).2⟩
          · exact ⟨new.listed, new.type⟩
  | file name real content rest after =>
      unfold openDirLoop at done
      by_cases skipped : hidden name
      · rw [if_pos skipped] at done
        have entries : (HostDir.file name real content rest).entries = rest.entries := if_pos skipped
        rw [entries] at room
        refine shown_skip above current rest _ (after above current recorded high here room fits.2 one.2 done listed dir) (fun own real => if_pos skipped)
          entries fun k later => ?_
        rw [Shows, if_pos skipped]
        exact later
      · have visible : hidden name = false := Bool.eq_false_iff.mpr skipped
        rw [if_neg skipped] at done
        obtain ⟨_, _, done⟩ := bind_ok done
        obtain ⟨added, add, done⟩ := bind_ok done
        have entries : (HostDir.file name real content rest).entries = (name, .file content) :: rest.entries := if_neg skipped
        rw [entries, List.length_cons] at room
        obtain ⟨ino, step, is⟩ := add_file_step recorded current listed dir (by omega) name real content (one.1 visible) (fits.1 visible) add
        have later := after above current step.recorded
          (fun a up => ⟨step.ext.inodes a (high a up).1, (step.ext.type a (high a up).1).trans (high a up).2⟩)
          here (by rw [step.nblks]; omega) fits.2 one.2 done (step.ext.inodes current listed) ((step.ext.type current listed).trans dir)
        refine shown_cons above current listed step.ext _ step.linked step.named step.nblks rest _ later (fun r => ?_) (by rw [entries, List.length_cons])
          fun tail => ?_
        · rw [HostDir.points, if_neg skipped]
        · rw [Shows, if_neg skipped]
          refine ⟨⟨ino, entry_at_extends later.ext current _ name ino (step.ext.inodes current listed) step.entry,
            later.ext.inodes ino step.listed, file_is_extends later.ext step.recorded.mapped ino content step.listed (fun a _ same => ?_) is⟩, tail⟩
          subst same
          exact (step.ext.type a listed).trans dir
  | link name real target rest after =>
      unfold openDirLoop at done
      by_cases skipped : hidden name
      · rw [if_pos skipped] at done
        have entries : (HostDir.link name real target rest).entries = rest.entries := if_pos skipped
        rw [entries] at room
        refine shown_skip above current rest _ (after above current recorded high here room fits one.2 done listed dir) (fun own real => rfl)
          entries fun k later => ?_
        rw [Shows, if_pos skipped]
        exact later
      · rw [if_neg skipped] at done
        obtain ⟨_, _, done⟩ := bind_ok done
        obtain ⟨added, add, done⟩ := bind_ok done
        have entries : (HostDir.link name real target rest).entries = (name, .link target) :: rest.entries := if_neg skipped
        rw [entries, List.length_cons] at room
        obtain ⟨ino, step, type⟩ := add_link_step recorded current listed dir (by omega) name real target
          (one.1 (Bool.eq_false_iff.mpr skipped)) add
        have later := after above current step.recorded
          (fun a up => ⟨step.ext.inodes a (high a up).1, (step.ext.type a (high a up).1).trans (high a up).2⟩)
          here (by rw [step.nblks]; omega) fits one.2 done (step.ext.inodes current listed) ((step.ext.type current listed).trans dir)
        refine shown_cons above current listed step.ext _ step.linked step.named step.nblks rest _ later (fun r => ?_) (by rw [entries, List.length_cons])
          fun tail => ?_
        · rw [HostDir.points, Nat.zero_add]
        · rw [Shows, if_neg skipped]
          exact ⟨⟨ino, entry_at_extends later.ext current _ name ino (step.ext.inodes current listed) step.entry,
            later.ext.inodes ino step.listed, (later.ext.type ino step.listed).trans type⟩, tail⟩
  | other name rest after =>
      unfold openDirLoop at done
      by_cases skipped : hidden name
      · rw [if_pos skipped] at done
        exact shown_skip above current rest _ (after above current recorded high here room fits one done listed dir) (fun _ _ => rfl) rfl
          fun _ later => later
      · rw [if_neg skipped] at done
        obtain ⟨_, _, done⟩ := bind_ok done
        exact shown_skip above current rest _ (after above current recorded high here room fits one done listed dir) (fun _ _ => rfl) rfl
          fun _ later => later

end Tree

end Ucore.Mksfs
