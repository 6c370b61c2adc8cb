import Ucore.Vfs.PathWalk

set_option autoImplicit false

namespace Ucore.Vfs

open Ucore.Lib

-- vfs_getcwd may also climb for ever, or take the name of a file system that is on no device.
inductive CwdFault where
  | vfs (fault : Fault)
  | outOfFuel
  | noDevname
deriving DecidableEq, Repr

section Names

variable {N : Type} [DecidableEq N]

def inCwd {α : Type} (value : Except Fault α) : Except CwdFault α := value.mapError .vfs

-- The climb of sfs_namefile to the root. written is the end of the buffer, filled from
-- the back, and resid the room before it.
def climb (v : Mounts N) (t : SfsTree N) (c : Counts N) (node : N) (resid : Nat) (written : List Char) :
    Nat → Except CwdFault (Counts N × Except Int (List Char))
  | 0 => .error .outOfFuel
  | fuel + 1 => do
      let (c, found) ← inCwd (sfsLookupOnce t c node ['.', '.'])
      match found with
      | .error ret => do
          let c ← inCwd (refDec v c node)
          return (c, .error ret)
      | .ok parent => do
          let c ← inCwd (refDec v c node)
          if node = parent then do
            let c ← inCwd (refDec v c node)
            return (c, .ok written)
          else do
            check (v.kind parent = .dir) (.vfs .assertFailed)
            match direntFindino t parent node with
            | none => do
                let c ← inCwd (refDec v c parent)
                return (c, .error eNoEnt)
            | some name =>
                if resid < name.length + 1 then do
                  let c ← inCwd (refDec v c parent)
                  return (c, .error eNoMem)
                else climb v t c parent (resid - (name.length + 1)) (name ++ '/' :: written) fuel

-- What sfs_namefile puts in the buffer up to the null.
def sfsNamefile (v : Mounts N) (t : SfsTree N) (fuel : Nat) (c : Counts N) (node : N) (resid : Nat) : Except CwdFault (Counts N × Except Int (List Char)) :=
  if resid ≤ 2 then .ok (c, .error eNoMem)
  else do
    let c := refInc c node
    let (c, names) ← climb v t c node (resid - 2) [] fuel
    return (c, names.map fun names => '/' :: names)

-- The file system of an inode is known by its root.
def vfsGetDevname (v : Mounts N) (node : N) : Option (List Char) := (v.devs.find? fun dev => dev.root = some (v.rootOf node)).map VfsDev.devname

-- vfs_getcwd into a buffer of len bytes: the name of the device, a colon and the name of the directory.
def vfsGetcwd (v : Mounts N) (t : SfsTree N) (starts : Starts N) (fuel : Nat) (c : Counts N) (len : Nat) :
    Except CwdFault (Counts N × Except Int (List Char)) :=
  match vfsGetCurdir starts c with
  | (c, .error ret) => .ok (c, .error ret)
  | (c, .ok node) =>
      match vfsGetDevname v node with
      | none => .error .noDevname
      | some devname =>
          if len < devname.length + 1 then do
            let c ← inCwd (refDec v c node)
            return (c, .error eNoMem)
          else do
            inCwd (inodeCheck c node)
            check (v.kind node = .dir) (.vfs .assertFailed)
            let (c, names) ← sfsNamefile v t fuel c node (len - (devname.length + 1))
            let c ← inCwd (refDec v c node)
            return (c, names.map fun names => devname ++ ':' :: names)

-- A directory nested in the root by its names: each is the entry of the one above, where
-- its number is found, and leads back to it.
inductive Nested (v : Mounts N) (t : SfsTree N) (root : N) : N → List (List Char) → Prop where
  | root (turns : t.entry root ['.', '.'] = some root) (dir : v.kind root = .dir) : Nested v t root root []
  | child (parent node : N) (names : List (List Char)) (name : List Char) (above : Nested v t root parent names) (listed : direntFindino t parent node = some name)
      (entry : t.entry parent name = some node) (back : t.entry node ['.', '.'] = some parent) (other : node ≠ parent) (dir : v.kind node = .dir) :
      Nested v t root node (names ++ [name])

def slashed (names : List (List Char)) : List Char := names.flatMap fun name => name ++ ['/']

theorem slashed_snoc (names : List (List Char)) (name : List Char) : slashed (names ++ [name]) = slashed names ++ (name ++ ['/']) := by
  simp [slashed]

variable {v : Mounts N} {t : SfsTree N} {c : Counts N}

theorem nested_dir (root node : N) (names : List (List Char)) (nested : Nested v t root node names) : v.kind node = .dir := by
  cases nested with
  | root turns dir => exact dir
  | child parent node names name above listed entry back other dir => exact dir

-- One step up: the reference moves from the directory to the one above.
theorem climb_up (room : Room v c 2) (plain : ∀ node, v.kind node = .dir → t.link node = false) (held : Counts N) (node parent : N) (taken : Moved c held (hit node) still)
    (back : t.entry node ['.', '.'] = some parent) (dir : v.kind parent = .dir) :
    ∃ after, sfsLookupOnce t held node ['.', '.'] = .ok (refInc held parent, .ok parent) ∧ refDec v (refInc held parent) node = .ok after ∧
      Moved c after (hit parent) still := by
  have both := taken.trans (ref_inc_moved held parent)
  obtain ⟨after, dec⟩ := ref_dec_ok room _ _ both node fun other => by
    obtain ⟨first, second⟩ := hit_bounds node other
    obtain ⟨third, fourth⟩ := hit_bounds parent other
    simp only [still]
    omega
  refine ⟨after, ?_, dec, ?_⟩
  · have short : decide (['.', '.'].length ≤ maxFnameLen) = true := rfl
    have opened : decide (¬ t.link parent = true) = true := by simp [plain parent dir]
    simp only [sfsLookupOnce, direntSearch, short, check_true, ok_bind, pure_ok, back, sfsLoadInode, opened]
  · refine (both.trans (ref_dec_moved v _ _ _ dec)).congr (fun other => ?_) fun other => ?_
    · omega
    · simp [still]

theorem climb_spec (room : Room v c 2) (plain : ∀ node, v.kind node = .dir → t.link node = false) (root node : N) (names : List (List Char))
    (nested : Nested v t root node names) (held : Counts N) (taken : Moved c held (hit node) still) (resid fuel : Nat) (written : List Char)
    (enough : (slashed names).length ≤ resid) (rounds : names.length < fuel) :
    climb v t held node resid written fuel = .ok (c, .ok (slashed names ++ written)) := by
  induction nested generalizing held resid fuel written with
  | root turns dir =>
      obtain ⟨n, rfl⟩ := Nat.exists_eq_succ_of_ne_zero (Nat.ne_of_gt rounds)
      obtain ⟨after, once, dec, moved⟩ := climb_up room plain held root root taken turns dir
      obtain ⟨final, last⟩ := ref_dec_ok room _ _ moved root fun other => by
        obtain ⟨first, second⟩ := hit_bounds root other
        simp only [still]
        omega
      have same : final = c := moved_still c final <| (moved.trans (ref_dec_moved v _ _ _ last)).congr (fun other => by simp [still]) fun other => by simp [still]
      simp only [climb, inCwd, once, Except.mapError, ok_bind, dec, if_true, last, pure_ok, same, slashed, List.flatMap_nil, List.nil_append]
  | child parent node names name above listed entry back other dir ih =>
      obtain ⟨n, rfl⟩ := Nat.exists_eq_succ_of_ne_zero (Nat.ne_of_gt (Nat.lt_of_le_of_lt (Nat.zero_le _) rounds))
      have parentDir := nested_dir root parent names above
      obtain ⟨after, once, dec, moved⟩ := climb_up room plain held node parent taken back parentDir
      rw [slashed_snoc, List.length_append, List.length_append, List.length_singleton] at enough
      rw [List.length_append, List.length_singleton] at rounds
      have room' : ¬ resid < name.length + 1 := by omega
      have onward := ih after moved (resid - (name.length + 1)) n (name ++ '/' :: written) (by omega) (by omega)
      simp only [climb, inCwd, once, Except.mapError, ok_bind, dec, if_neg other, decide_eq_true parentDir, check_true, listed, if_neg room', onward]
      simp [slashed_snoc]

theorem getcwd_spec (room : Room v c 4) (plain : ∀ node, v.kind node = .dir → t.link node = false) (starts : Starts N) (node : N) (cwd : starts.pwd = some node)
    (names : List (List Char)) (nested : Nested v t (v.rootOf node) node names) (devname : List Char) (device : vfsGetDevname v node = some devname) (len fuel : Nat)
    (enough : devname.length + (slashed names).length + 4 ≤ len) (rounds : names.length < fuel) :
    vfsGetcwd v t starts fuel c len = .ok (c, .ok (devname ++ ':' :: '/' :: slashed names)) := by
  have dir := nested_dir _ node names nested
  have first := ref_inc_moved c node
  have held : Room v (refInc c node) 3 := room_moved room (hit node) still 1 first fun other => by
    obtain ⟨low, high⟩ := hit_bounds node other
    simp only [still]
    omega
  have checked := inode_check_ok held (by omega) node
  have climbed := climb_spec (room_weaken held 2 (by omega)) plain _ node names nested _ (ref_inc_moved (refInc c node) node) (len - (devname.length + 1) - 2) fuel []
    (by omega) rounds
  obtain ⟨final, last⟩ := ref_dec_ok room _ _ first node fun other => by
    obtain ⟨low, high⟩ := hit_bounds node other
    simp only [still]
    omega
  have same : final = c := moved_still c final <| (first.trans (ref_dec_moved v _ _ _ last)).congr (fun other => by simp [still]) fun other => by simp [still]
  have named : ¬ len < devname.length + 1 := by omega
  have large : ¬ len - (devname.length + 1) ≤ 2 := by omega
  simp only [vfsGetcwd, vfsGetCurdir, cwd, device, if_neg named, inCwd, checked, Except.mapError, ok_bind, decide_eq_true dir, check_true, sfsNamefile, if_neg large,
    climbed, List.append_nil, pure_ok, last, same]
  rfl

-- Names of devices are not empty, have neither a colon nor a slash, and differ.
structure DevNames (v : Mounts N) : Prop where
  plain : ∀ dev ∈ v.devs, dev.devname ≠ [] ∧ ∀ c ∈ dev.devname, isMark c = false
  nodup : (v.devs.map VfsDev.devname).Nodup

theorem split_prefix_device (devname rest : List Char) (named : devname ≠ []) (plain : ∀ c ∈ devname, isMark c = false) :
    splitPrefix (devname ++ ':' :: rest) = (.device devname, rest) := by
  have first : ((devname ++ ':' :: rest).takeWhile fun c => decide (¬ isMark c = true)) = devname := by
    rw [List.takeWhile_append_of_pos fun c member => by simp [plain c member]]
    simp [isMark]
  obtain ⟨head, tail, rfl⟩ := List.exists_cons_of_ne_nil named
  simp only [splitPrefix, first, List.drop_left]
  rfl

theorem devname_start (devnames : DevNames v) (starts : Starts N) (node : N) (devname : List Char) (device : vfsGetDevname v node = some devname) :
    startOf v starts (.device devname) = some (v.rootOf node) ∧ devname ≠ [] ∧ ∀ c ∈ devname, isMark c = false := by
  obtain ⟨dev, found, rfl⟩ := Option.map_eq_some_iff.mp device
  have member := List.mem_of_find?_eq_some found
  have root := List.find?_some found
  simp only [decide_eq_true_eq] at root
  obtain ⟨named, plain⟩ := devnames.plain dev member
  refine ⟨?_, named, plain⟩
  have byName : (v.devs.find? fun other => other.devname = dev.devname) = some dev := by
    obtain ⟨before, after, shape⟩ := List.append_of_mem member
    have nodup := devnames.nodup
    rw [shape, List.map_append, List.map_cons] at nodup
    refine List.find?_eq_some_iff_append.mpr ⟨by simp, before, after, shape, fun other earlier => ?_⟩
    have apart : other.devname ≠ dev.devname := fun same =>
      List.disjoint_of_nodup_append nodup (List.mem_map_of_mem earlier) (by simp [same])
    simp [apart]
  simp [startOf, byName, root]

theorem slashed_head (names : List (List Char)) (named : ∀ name ∈ names, name ≠ [] ∧ '/' ∉ name) : skipSlashes ('/' :: slashed names) = slashed names := by
  cases names with
  | nil => rfl
  | cons name rest =>
      obtain ⟨nonempty, plain⟩ := named name (by simp)
      obtain ⟨head, tail, rfl⟩ := List.exists_cons_of_ne_nil nonempty
      have apart : head ≠ '/' := fun same => plain (by simp [same])
      simp [slashed, skipSlashes, apart]

theorem nested_named (named : t.Named) (root node : N) (names : List (List Char)) (nested : Nested v t root node names) :
    ∀ name ∈ names, name ≠ [] ∧ '/' ∉ name := by
  induction nested with
  | root turns dir => simp
  | child parent node names name above listed entry back other dir ih =>
      intro some' member
      rcases List.mem_append.mp member with earlier | last
      · exact ih some' earlier
      · obtain rfl := List.mem_singleton.mp last
        obtain ⟨slot, found, rfl⟩ := Option.map_eq_some_iff.mp listed
        exact named parent slot (List.mem_of_find?_eq_some found)

theorem nested_root (root node : N) (names : List (List Char)) (nested : Nested v t root node names) : t.entry root ['.', '.'] = some root := by
  induction nested with
  | root turns dir => exact turns
  | child parent node names name above listed entry back other dir ih => exact ih

theorem nested_root_iff (root node : N) (names : List (List Char)) (nested : Nested v t root node names) : node = root ↔ names = [] := by
  cases nested with
  | root turns dir => simp
  | child parent node names name above listed entry back other dir =>
      have turns := nested_root root parent names above
      constructor
      · rintro rfl
        exact absurd (Option.some.inj (turns.symm.trans back)) other
      · simp

omit [DecidableEq N] in
theorem walk_append (start : N) (first second : List (List Char)) :
    walk v t start (first ++ second) = (walk v t start first).bind fun node => walk v t node second := by
  induction first generalizing start with
  | nil => rfl
  | cons name rest ih =>
      by_cases dir : v.kind start = .dir
      · cases entry : t.entry start name with
        | none => simp [walk, dir, entry]
        | some next => simp [walk, dir, entry, ih]
      · simp [walk, dir]

theorem nested_walk (root node : N) (names : List (List Char)) (nested : Nested v t root node names) : walk v t root names = some node := by
  induction nested with
  | root turns dir => rfl
  | child parent node names name above listed entry back other dir ih =>
      have parentDir := nested_dir root parent names above
      rw [walk_append, ih, Option.bind_some, walk, if_pos parentDir, entry]
      rfl

theorem components_slashed (names : List (List Char)) (named : ∀ name ∈ names, name ≠ [] ∧ '/' ∉ name) : components (slashed names) = names := by
  induction names with
  | nil => rfl
  | cons name rest ih =>
      obtain ⟨nonempty, plain⟩ := named name (by simp)
      have shape : slashed (name :: rest) = name ++ '/' :: slashed rest := by simp [slashed]
      have cut : (name ++ '/' :: slashed rest).splitOn '/' = name :: (slashed rest).splitOn '/' := by
        rw [List.splitOn_eq_splitOnP, List.splitOn_eq_splitOnP]
        refine List.splitOnP_append_cons_of_forall_mem (fun c member => ?_) '/' (by simp) _
        have apart : c ≠ '/' := fun same => plain (same ▸ member)
        simpa using apart
      have later := ih fun other member => named other (List.mem_cons_of_mem name member)
      rw [components] at later
      rw [shape, components, cut, List.filter_cons_of_pos (by simpa using nonempty), later]

-- What vfs_getcwd writes leads back to the directory exactly at the root of a file system.
theorem getcwd_lookup_iff (mounted : WellMounted v) (devnames : DevNames v) (room : Room v c 4) (named : t.Named)
    (plain : ∀ node, v.kind node = .dir → t.link node = false) (starts other : Starts N) (placed : Placed v other) (node : N) (cwd : starts.pwd = some node)
    (names : List (List Char)) (nested : Nested v t (v.rootOf node) node names) (devname : List Char) (device : vfsGetDevname v node = some devname) (len fuel : Nat)
    (enough : devname.length + (slashed names).length + 4 ≤ len) (rounds : names.length < fuel) :
    ∃ text, vfsGetcwd v t starts fuel c len = .ok (c, .ok text) ∧
      (vfsLookupTree v t other c text = .ok (refInc c node, .ok node) ↔ node = v.rootOf node) := by
  refine ⟨_, getcwd_spec room plain starts node cwd names nested devname device len fuel enough rounds, ?_⟩
  obtain ⟨start, nonempty, unmarked⟩ := devname_start devnames other node devname device
  have split := split_prefix_device devname ('/' :: slashed names) nonempty unmarked
  have rest : subpathOf (devname ++ ':' :: '/' :: slashed names) = slashed names := by
    simp only [subpathOf, split]
    exact slashed_head names (nested_named named _ node names nested)
  have proper := nested_named named _ node names nested
  have reached : followPath v t other (devname ++ ':' :: '/' :: slashed names) = some node := by
    rw [followPath, split, start, Option.bind_some, components_slash, components_slashed names proper]
    exact nested_walk _ node names nested
  have follows := path_resolution_iff mounted placed room named (devname ++ ':' :: '/' :: slashed names)
  simp only [Follows, reached] at follows
  rw [nested_root_iff _ node names nested, follows]
  constructor
  · intro single
    by_contra deep
    obtain ⟨name, others, rfl⟩ := List.exists_cons_of_ne_nil deep
    have slash : '/' ∈ slashed (name :: others) := by simp [slashed]
    have nowhere := (single (v.rootOf node) (by rw [split, start]) (mounted.roots node) (by
      rw [rest]
      exact List.ne_nil_of_mem slash)).2 (by
        rw [rest]
        exact slash)
    rw [reached] at nowhere
    cases nowhere
  · rintro rfl begin _ _ left
    exact absurd (rest.trans rfl) left

end Names

theorem disk_devnames : DevNames diskMounts where
  plain := by
    intro dev member
    obtain rfl := List.mem_singleton.mp member
    exact ⟨by simp, by simp [isMark]⟩
  nodup := by simp [diskMounts]

theorem disk_nested : Nested diskMounts diskTree 0 0 [] ∧ Nested diskMounts diskTree 0 1 [['a']] := by
  have root : Nested diskMounts diskTree 0 0 [] := Nested.root (by decide) (by decide)
  exact ⟨root, Nested.child 0 1 [] ['a'] root (by decide) (by decide) (by decide) (by decide) (by decide)⟩

theorem getcwd_root_found : ∃ text, vfsGetcwd diskMounts diskTree diskStarts 1 oneEach 64 = .ok (oneEach, .ok text) ∧
    vfsLookupTree diskMounts diskTree diskStarts oneEach text = .ok (refInc oneEach 0, .ok 0) := by
  obtain ⟨mounted, placed, room, named⟩ := disk_sound
  obtain ⟨text, written, leads⟩ := getcwd_lookup_iff mounted disk_devnames room named (fun _ _ => rfl) diskStarts diskStarts placed 0 rfl [] disk_nested.1
    ['d', 'i', 's', 'k', '0'] (by decide) 64 1 (by decide) (by decide)
  exact ⟨text, written, leads.mpr rfl⟩

-- A process goes to the directory a of disk0 and asks where it is: the name that it
-- gets ends in a slash, and no entry of the root has it.
theorem getcwd_not_found : (vfsChdir diskMounts diskStarts oneEach ['a'] (answerOf diskTree 0 ['a'])).map Prod.snd = .ok (.ok (some 1)) ∧
    vfsGetcwd diskMounts diskTree ⟨some 1, some 0⟩ 2 oneEach 64 = .ok (oneEach, .ok ['d', 'i', 's', 'k', '0', ':', '/', 'a', '/']) ∧
    (vfsLookupTree diskMounts diskTree ⟨some 1, some 0⟩ oneEach ['d', 'i', 's', 'k', '0', ':', '/', 'a', '/']).map Prod.snd = .ok (.error eNoEnt) := by
  obtain ⟨_, _, room, _⟩ := disk_sound
  refine ⟨rfl, ?_, rfl⟩
  exact getcwd_spec room (fun _ _ => rfl) ⟨some 1, some 0⟩ 1 rfl [['a']] disk_nested.2 ['d', 'i', 's', 'k', '0'] (by decide) 64 2 (by decide) (by decide)

end Ucore.Vfs
