import Ucore.Lib.Checked
import Ucore.Vfs.Holders
import Ucore.Vfs.LayerData
import Ucore.Vfs.TableSafe

set_option autoImplicit false

namespace Ucore.Vfs

open Ucore.Lib

variable {P N C F : Type} [DecidableEq P] [DecidableEq N]

-- Counts that inode_check accepts, also after k references more, with devices that
-- are never let go.
structure Room (v : Mounts N) (c : Counts N) (k : Int) : Prop where
  counts : ∀ node, 0 ≤ c.openCount node ∧ c.openCount node ≤ c.refCount node ∧ c.refCount node + k < maxInodeCount
  devices : ∀ node, v.kind node = .device → 0 < c.refCount node

-- The working directory and the boot file system are directories.
structure Placed (v : Mounts N) (starts : Starts N) : Prop where
  pwd : ∃ node, starts.pwd = some node ∧ v.kind node = .dir
  bootfs : ∃ node, starts.bootfs = some node ∧ v.kind node = .dir

-- Roots are directories, and the table of devices lists each device.
structure WellMounted (v : Mounts N) : Prop where
  roots : ∀ node, v.kind (v.rootOf node) = .dir
  mounted : ∀ dev ∈ v.devs, ∀ root, dev.root = some root → v.kind root = .dir
  devices : ∀ dev ∈ v.devs, v.kind dev.devnode = .device
  listed : ∀ node, v.kind node = .device → ∃ dev ∈ v.devs, dev.devnode = node

theorem hit_bounds (node other : N) : 0 ≤ hit node other ∧ hit node other ≤ 1 := by
  unfold hit
  split <;> decide

section Counting

variable {v : Mounts N} {c c' : Counts N} {k : Int}

omit [DecidableEq N] in
theorem room_moved (room : Room v c k) (refs opens : N → Int) (m : Int) (moved : Moved c c' refs opens)
    (bounds : ∀ node, 0 ≤ opens node ∧ opens node ≤ refs node ∧ refs node ≤ m) : Room v c' (k - m) where
  counts := by
    intro node
    obtain ⟨low, below, high⟩ := room.counts node
    obtain ⟨nonneg, less, few⟩ := bounds node
    rw [moved.ref node, moved.op node]
    omega
  devices := by
    intro node device
    have held := room.devices node device
    obtain ⟨nonneg, less, _⟩ := bounds node
    rw [moved.ref node]
    omega

omit [DecidableEq N] in
theorem room_weaken (room : Room v c k) (fewer : Int) (less : fewer ≤ k) : Room v c fewer where
  counts := by
    intro node
    obtain ⟨low, below, high⟩ := room.counts node
    exact ⟨low, below, by omega⟩
  devices := room.devices

omit [DecidableEq N] in
theorem inode_check_ok (room : Room v c k) (spare : 0 ≤ k) (node : N) : inodeCheck c node = .ok () := by
  obtain ⟨low, below, high⟩ := room.counts node
  have first : decide (c.openCount node ≤ c.refCount node ∧ 0 ≤ c.openCount node) = true := decide_eq_true ⟨below, low⟩
  have second : decide (c.refCount node < maxInodeCount ∧ c.openCount node < maxInodeCount) = true := decide_eq_true ⟨by omega, by omega⟩
  simp only [inodeCheck, first, second, check_true, ok_bind]

-- A reference is given back that was taken since the counts had room.
theorem ref_dec_ok (room : Room v c k) (refs opens : N → Int) (moved : Moved c c' refs opens) (node : N)
    (bounds : ∀ other, 0 ≤ opens other ∧ opens other + hit node other ≤ refs other ∧ refs other ≤ k) :
    ∃ after, refDec v c' node = .ok after := by
  have here := bounds node
  obtain ⟨low, below, high⟩ := room.counts node
  have one : hit node node = 1 := by simp [hit]
  have taken : decide (0 < c'.refCount node) = true := by
    rw [moved.ref node, decide_eq_true_eq]
    omega
  simp only [refDec, taken, check_true, ok_bind, Function.update_self]
  by_cases last : c'.refCount node - 1 = 0
  · have gone := moved.ref node
    have device : decide (v.kind node ≠ .device) = true := by
      rw [decide_eq_true_eq]
      intro device
      have held := room.devices node device
      omega
    have dropped : Room v { c' with refCount := Function.update c'.refCount node (c'.refCount node - 1) } 0 := by
      have back : Moved c { c' with refCount := Function.update c'.refCount node (c'.refCount node - 1) } (fun other => refs other - hit node other) opens := by
        constructor
        · intro other
          by_cases same : other = node
          · subst same
            simp only [Function.update_self, moved.ref other, one]
            omega
          · simp [same, hit, moved.ref other]
        · exact moved.op
      refine room_weaken (room_moved room _ _ k back fun other => ?_) 0 (by omega)
      obtain ⟨first, second, third⟩ := bounds other
      obtain ⟨nonneg, _⟩ := hit_bounds node other
      omega
    have checked := inode_check_ok dropped (le_refl 0) node
    simp only [if_pos last, device, check_true, ok_bind, checked]
    exact ⟨_, rfl⟩
  · simp only [if_neg last]
    exact ⟨_, rfl⟩

theorem vfs_close_ok (room : Room v c k) (node : N) (refs opens : N → Int) (moved : Moved c c' refs opens)
    (bounds : ∀ other, hit node other ≤ opens other ∧ opens other ≤ refs other ∧ refs other ≤ k) : ∃ after, vfsClose v c' node = .ok after := by
  have here := bounds node
  obtain ⟨low, below, high⟩ := room.counts node
  have one : hit node node = 1 := by simp [hit]
  have opened : decide (0 < c'.openCount node) = true := by
    rw [moved.op node, decide_eq_true_eq]
    omega
  have closes : ∃ mid, openDec c' node = .ok mid := by
    simp only [openDec, opened, check_true, ok_bind, Function.update_self]
    by_cases last : c'.openCount node - 1 = 0
    · have shut : Moved c { c' with openCount := Function.update c'.openCount node (c'.openCount node - 1) } refs
          (fun other => opens other - hit node other) := by
        constructor
        · exact moved.ref
        · intro other
          by_cases same : other = node
          · subst same
            simp only [Function.update_self, moved.op other, one]
            omega
          · simp [same, hit, moved.op other]
      have checked := inode_check_ok (room_weaken (room_moved room _ _ k shut fun other => by
        obtain ⟨first, second, third⟩ := bounds other
        obtain ⟨nonneg, _⟩ := hit_bounds node other
        omega) 0 (by omega)) (le_refl 0) node
      simp only [if_pos last, checked, ok_bind]
      exact ⟨_, rfl⟩
    · simp only [if_neg last]
      exact ⟨_, rfl⟩
  obtain ⟨mid, closed⟩ := closes
  have both := moved.trans (open_dec_moved c' mid node closed)
  obtain ⟨after, dec⟩ := ref_dec_ok room _ _ both node fun other => by
    obtain ⟨first, second, third⟩ := bounds other
    simp only [still]
    omega
  exact ⟨after, by simp [vfsClose, closed, dec]⟩

end Counting

section Names

variable {v : Mounts N} {starts : Starts N} {c : Counts N}

theorem skip_slashes_head (path : List Char) : (skipSlashes path).head? ≠ some '/' := by
  intro first
  have dropped := List.head?_dropWhile_not (fun c => decide (c = '/')) path
  unfold skipSlashes at first
  rw [first] at dropped
  simp at dropped

theorem get_root_kind (mounted : WellMounted v) (devname : List Char) (top : N) (found : (vfsGetRoot v c devname).2 = .ok top) :
    v.kind top ≠ .file := by
  unfold vfsGetRoot at found
  cases listed : v.devs.find? fun dev => dev.devname = devname with
  | none => simp [listed] at found
  | some dev =>
      have member := List.mem_of_find?_eq_some listed
      simp only [listed] at found
      cases root : dev.root with
      | some node =>
          simp only [root, Except.ok.injEq] at found
          have dir := mounted.mounted dev member node root
          simp [← found, dir]
      | none =>
          simp only [root] at found
          by_cases plain : ¬ dev.mountable = true
          · simp only [if_pos plain, Except.ok.injEq] at found
            have device := mounted.devices dev member
            simp [← found, device]
          · rw [if_neg plain] at found
            exact absurd found (by simp)

-- get_device returns, with a directory or a device to start from, and a rest of the
-- path that does not begin with a slash.
theorem get_device_start (mounted : WellMounted v) (placed : Placed v starts) (room : Room v c 2) (path : List Char) :
    ∃ c' result, getDevice v starts c path = .ok (c', result) ∧
      ∀ node subpath, result = .ok (node, subpath) → v.kind node ≠ .file ∧ subpath.head? ≠ some '/' := by
  obtain ⟨pwd, atPwd, dirPwd⟩ := placed.pwd
  obtain ⟨boot, atBoot, dirBoot⟩ := placed.bootfs
  have notFile : ∀ node, v.kind node = .dir → v.kind node ≠ .file := by
    intro node dir
    simp [dir]
  unfold getDevice
  simp only [vfsGetCurdir, vfsGetBootfs, atPwd, atBoot]
  split
  · rename_i rest _ _
    have taken := (ref_inc_moved c pwd).trans (ref_inc_moved (refInc c pwd) (v.rootOf pwd))
    obtain ⟨after, dec⟩ := ref_dec_ok room _ _ taken pwd fun other => by
      obtain ⟨first, second⟩ := hit_bounds pwd other
      obtain ⟨third, fourth⟩ := hit_bounds (v.rootOf pwd) other
      simp only [still]
      omega
    refine ⟨after, _, by simp [dec]; rfl, ?_⟩
    intro node subpath same
    obtain ⟨rfl, rfl⟩ := Prod.mk.inj (Except.ok.inj same)
    exact ⟨notFile _ (mounted.roots pwd), skip_slashes_head rest⟩
  · rename_i rest _ _
    refine ⟨_, _, rfl, ?_⟩
    intro node subpath same
    obtain ⟨rfl, rfl⟩ := Prod.mk.inj (Except.ok.inj same)
    exact ⟨notFile _ dirBoot, skip_slashes_head rest⟩
  · rename_i rest _ _
    refine ⟨_, _, rfl, ?_⟩
    intro node subpath same
    cases found : (vfsGetRoot v c (path.takeWhile fun c => ¬ isMark c)).2 with
    | error ret =>
        rw [found] at same
        exact absurd same (by simp [Except.map])
    | ok top =>
        rw [found] at same
        obtain ⟨rfl, rfl⟩ := Prod.mk.inj (Except.ok.inj same)
        exact ⟨get_root_kind mounted _ top found, skip_slashes_head rest⟩
  · rename_i first tail noColon noSlash noDevice
    refine ⟨_, _, rfl, ?_⟩
    intro node subpath same
    simp only [Except.map, Except.ok.injEq, Prod.mk.injEq] at same
    obtain ⟨rfl, rfl⟩ := same
    refine ⟨notFile _ dirPwd, fun slash => ?_⟩
    cases path with
    | nil => simp at slash
    | cons head rest =>
        obtain rfl : head = '/' := by simpa using slash
        exact noSlash rest (by simp [isMark]) (by simp [isMark])

theorem vop_lookup_ok {k : Int} (room : Room v c k) (spare : 2 ≤ k) (node : N) (path : List Char) (ans : Answers N) (notFile : v.kind node ≠ .file)
    (named : path ≠ []) (relative : path.head? ≠ some '/') : ∃ c' result, vopLookup v c node path ans = .ok (c', result) := by
  have checked := inode_check_ok room (by omega) node
  simp only [vopLookup, checked, ok_bind]
  cases kind : v.kind node with
  | file => exact absurd kind notFile
  | device =>
      simp only [named, ne_eq, not_false_eq_true, if_true, pure_ok]
      exact ⟨_, _, rfl⟩
  | dir =>
      have accepted : decide (path ≠ [] ∧ path.head? ≠ some '/') = true := decide_eq_true ⟨named, relative⟩
      simp only [accepted, check_true, ok_bind]
      cases ans.lookup with
      | error ret =>
          obtain ⟨after, dec⟩ := ref_dec_ok room _ _ (ref_inc_moved c node) node fun other => by
            obtain ⟨first, second⟩ := hit_bounds node other
            simp only [still]
            omega
          exact ⟨after, .error ret, by simp [dec]⟩
      | ok subnode =>
          obtain ⟨after, dec⟩ := ref_dec_ok room _ _ ((ref_inc_moved c node).trans (ref_inc_moved _ subnode)) node fun other => by
            obtain ⟨first, second⟩ := hit_bounds node other
            obtain ⟨third, fourth⟩ := hit_bounds subnode other
            simp only [still]
            omega
          exact ⟨after, .ok subnode, by simp [dec]⟩

theorem vfs_lookup_ok (mounted : WellMounted v) (placed : Placed v starts) (room : Room v c 4) (path : List Char) (ans : Answers N) :
    ∃ c' result, vfsLookup v starts c path ans = .ok (c', result) := by
  obtain ⟨mid, start, located, begins⟩ := get_device_start mounted placed (room_weaken room 2 (by omega)) path
  have taken := get_device_found v starts c mid path start located
  simp only [vfsLookup, located, ok_bind]
  cases start with
  | error ret => exact ⟨mid, .error ret, rfl⟩
  | ok pair =>
      obtain ⟨node, subpath⟩ := pair
      obtain ⟨notFile, relative⟩ := begins node subpath rfl
      have moved : Moved c mid (hit node) still := taken
      by_cases whole : subpath = []
      · simp only [whole, ne_eq, not_true_eq_false, if_false, pure_ok]
        exact ⟨mid, .ok node, rfl⟩
      · have roomMid := room_moved room (hit node) still 1 moved fun other => by
          obtain ⟨first, second⟩ := hit_bounds node other
          simp only [still]
          omega
        obtain ⟨after, found, searched⟩ := vop_lookup_ok roomMid (by omega) node subpath ans notFile whole relative
        have looked := vop_lookup_found v mid after node subpath ans found searched
        have both : ∃ refs, Moved c after refs still ∧ ∀ other, hit node other ≤ refs other ∧ refs other ≤ 4 := by
          cases found with
          | error ret =>
              refine ⟨_, (moved.trans looked).congr (fun _ => rfl) (fun _ => by simp [still]), fun other => ?_⟩
              obtain ⟨first, second⟩ := hit_bounds node other
              simp only [still]
              omega
          | ok sub =>
              refine ⟨_, (moved.trans looked).congr (fun _ => rfl) (fun _ => by simp [still]), fun other => ?_⟩
              obtain ⟨first, second⟩ := hit_bounds node other
              obtain ⟨third, fourth⟩ := hit_bounds sub other
              omega
        obtain ⟨refs, whole', bounds⟩ := both
        obtain ⟨final, dec⟩ := ref_dec_ok room refs still whole' node fun other => by
          obtain ⟨first, second⟩ := bounds other
          simp only [still]
          omega
        refine ⟨final, found, ?_⟩
        simp only [ne_eq, whole, not_false_eq_true, if_true, searched, ok_bind, dec, pure_ok]

end Names

end Ucore.Vfs
