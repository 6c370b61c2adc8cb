import Mathlib.Data.List.TakeWhile
import Ucore.Vfs.PathTree

set_option autoImplicit false

namespace Ucore.Vfs

open Ucore.Lib

-- What a path begins with: device:, / or :, or nothing of these.
inductive Prefix where
  | device (name : List Char)
  | boot
  | ownRoot
  | current
deriving DecidableEq, Repr

def selectPrefix (path first tail : List Char) : Prefix × List Char :=
  match first, tail with
  | [], ':' :: rest => (.ownRoot, rest)
  | [], '/' :: rest => (.boot, rest)
  | _ :: _, ':' :: rest => (.device first, rest)
  | _, _ => (.current, path)

def splitPrefix (path : List Char) : Prefix × List Char :=
  let first := path.takeWhile fun c => ¬ isMark c
  selectPrefix path first (path.drop first.length)

def components (path : List Char) : List (List Char) := (path.splitOn '/').filter fun name => name ≠ []

-- What get_device leaves for vop_lookup.
def subpathOf (path : List Char) : List Char :=
  match (splitPrefix path).1 with
  | .current => path
  | _ => skipSlashes (splitPrefix path).2

section Walk

variable {N : Type} [DecidableEq N]

def startOf (v : Mounts N) (starts : Starts N) : Prefix → Option N
  | .device name => (v.devs.find? fun dev => dev.devname = name).bind fun dev => if dev.root = none ∧ ¬ dev.mountable then some dev.devnode else dev.root
  | .boot => starts.bootfs
  | .ownRoot => starts.pwd.map v.rootOf
  | .current => starts.pwd

-- The walk over the components, from directory to entry.
def walk (v : Mounts N) (t : SfsTree N) (node : N) : List (List Char) → Option N
  | [] => some node
  | name :: rest => if v.kind node = .dir then (t.entry node name).bind fun next => walk v t next rest else none

def followPath (v : Mounts N) (t : SfsTree N) (starts : Starts N) (path : List Char) : Option N :=
  (startOf v starts (splitPrefix path).1).bind fun start => walk v t start (components (splitPrefix path).2)

-- vfs_lookup returns the inode that the walk reaches, with one reference more, or an
-- error when there is none.
def Follows (v : Mounts N) (t : SfsTree N) (starts : Starts N) (c : Counts N) (path : List Char) : Prop :=
  match followPath v t starts path with
  | some node => vfsLookupTree v t starts c path = .ok (refInc c node, .ok node)
  | none => ∃ ret, ret ≠ 0 ∧ vfsLookupTree v t starts c path = .ok (c, .error ret)

-- The condition: below a directory the path is one component, short enough and not a
-- link, or a short path with slashes that leads nowhere.
def Single (v : Mounts N) (t : SfsTree N) (starts : Starts N) (path : List Char) : Prop :=
  ∀ start, startOf v starts (splitPrefix path).1 = some start → v.kind start = .dir → subpathOf path ≠ [] →
    Searchable t start (subpathOf path) ∧ ('/' ∈ subpathOf path → followPath v t starts path = none)

-- Names of entries are file names.
def SfsTree.Named (t : SfsTree N) : Prop := ∀ dir, ∀ entry ∈ t.slots dir, entry.name ≠ [] ∧ '/' ∉ entry.name

theorem split_prefix_relative (path : List Char) (plain : ∀ c ∈ path, isMark c = false) : splitPrefix path = (.current, path) := by
  have whole : (path.takeWhile fun c => decide (¬ isMark c = true)) = path := List.takeWhile_eq_self_iff.mpr fun c member => by simp [plain c member]
  unfold splitPrefix selectPrefix
  simp only [whole, List.drop_length]

theorem components_slash (rest : List Char) : components ('/' :: rest) = components rest := by
  simp [components, List.splitOn_cons_eq_if_modifyHead]

theorem components_skip (path : List Char) : components (skipSlashes path) = components path := by
  induction path with
  | nil => rfl
  | cons head rest ih =>
      by_cases slash : head = '/'
      · subst slash
        have skipped : skipSlashes ('/' :: rest) = skipSlashes rest := by simp [skipSlashes]
        rw [skipped, components_slash, ih]
      · simp [skipSlashes, slash]

theorem components_subpath (path : List Char) : components (subpathOf path) = components (splitPrefix path).2 := by
  have whole : (splitPrefix path).1 = .current → (splitPrefix path).2 = path := by
    unfold splitPrefix selectPrefix
    simp only
    split <;> simp
  unfold subpathOf
  split
  · rename_i current
    rw [whole current]
  · exact components_skip _

theorem components_single (name : List Char) (named : name ≠ []) (plain : '/' ∉ name) : components name = [name] := by
  have whole : name.splitOn '/' = [name] := by
    rw [List.splitOn_eq_splitOnP]
    refine List.splitOnP_eq_singleton fun c member => ?_
    have apart : c ≠ '/' := fun same => plain (same ▸ member)
    simpa using apart
  simp [components, whole, named]

omit [DecidableEq N] in
theorem entry_plain (t : SfsTree N) (named : t.Named) (dir : N) (name : List Char) (slash : '/' ∈ name) : t.entry dir name = none := by
  have missed : (t.slots dir).find? (fun slot => decide (slot.ino.isSome ∧ name = slot.name)) = none := by
    refine List.find?_eq_none.mpr fun slot member => ?_
    have plain := (named dir slot member).2
    simp only [decide_eq_true_eq, not_and]
    rintro _ rfl
    exact plain slash
  rw [SfsTree.entry, missed]
  rfl

-- A start, and what the search for it answers.
inductive Finds : Option N → Except Int N → Prop where
  | found (node : N) : Finds (some node) (.ok node)
  | missing (ret : Int) (failed : ret ≠ 0) : Finds none (.error ret)

omit [DecidableEq N] in
theorem moved_unique (c first second : Counts N) (refs opens : N → Int) (left : Moved c first refs opens) (right : Moved c second refs opens) : first = second := by
  have ref : first.refCount = second.refCount := funext fun node => (left.ref node).trans (right.ref node).symm
  have op : first.openCount = second.openCount := funext fun node => (left.op node).trans (right.op node).symm
  cases first
  cases second
  simp_all

variable {v : Mounts N} {t : SfsTree N} {starts : Starts N} {c : Counts N}

theorem get_curdir_finds (starts : Starts N) (c : Counts N) : Finds starts.pwd (vfsGetCurdir starts c).2 := by
  cases cwd : starts.pwd with
  | none => simpa [vfsGetCurdir, cwd] using Finds.missing eNoEnt (by decide)
  | some node => simpa [vfsGetCurdir, cwd] using Finds.found node

theorem get_bootfs_finds (starts : Starts N) (c : Counts N) : Finds starts.bootfs (vfsGetBootfs starts c).2 := by
  cases boot : starts.bootfs with
  | none => simpa [vfsGetBootfs, boot] using Finds.missing eNoEnt (by decide)
  | some node => simpa [vfsGetBootfs, boot] using Finds.found node

theorem get_root_finds (v : Mounts N) (starts : Starts N) (c : Counts N) (name : List Char) : Finds (startOf v starts (.device name)) (vfsGetRoot v c name).2 := by
  simp only [vfsGetRoot, startOf]
  cases v.devs.find? fun dev => dev.devname = name with
  | none => exact Finds.missing eNoDev (by decide)
  | some dev =>
      simp only [Option.bind_some]
      cases root : dev.root with
      | some top => simpa using Finds.found top
      | none =>
          by_cases plain : ¬ dev.mountable = true
          · simpa [plain] using Finds.found dev.devnode
          · simpa [plain] using Finds.missing eNaDev (by decide)

omit [DecidableEq N] in
theorem finds_map (start : Option N) (found : Except Int N) (subpath : List Char) (finds : Finds start found) :
    Finds start ((found.map fun node => (node, subpath)).map Prod.fst) := by
  cases finds with
  | found node => exact Finds.found node
  | missing ret failed => exact Finds.missing ret failed

-- get_device finds the start that the prefix selects, and leaves the rest of the path.
theorem get_device_finds (mid : Counts N) (path : List Char) (result : Except Int (N × List Char)) (returns : getDevice v starts c path = .ok (mid, result)) :
    Finds (startOf v starts (splitPrefix path).1) (result.map Prod.fst) ∧ ∀ node subpath, result = .ok (node, subpath) → subpath = subpathOf path := by
  have rest : ∀ (found : Except Int N) (rest : List Char) (node : N) (subpath : List Char), (found.map fun node => (node, rest)) = .ok (node, subpath) → subpath = rest := by
    intro found rest node subpath same
    cases found with
    | error ret => cases same
    | ok other =>
        simp only [Except.map, Except.ok.injEq, Prod.mk.injEq] at same
        exact same.2.symm
  unfold getDevice at returns
  unfold subpathOf splitPrefix
  simp only at returns ⊢
  generalize path.takeWhile (fun c => decide (¬ isMark c = true)) = first at returns ⊢
  generalize path.drop first.length = tail at returns ⊢
  split at returns
  · rename_i tail
    change Finds (starts.pwd.map v.rootOf) (result.map Prod.fst) ∧ ∀ node subpath, result = .ok (node, subpath) → subpath = skipSlashes tail
    have finds := get_curdir_finds starts c
    cases here : vfsGetCurdir starts c with
    | mk mid found =>
        rw [here] at finds returns
        generalize starts.pwd = cwd at finds ⊢
        cases finds with
        | missing ret failed =>
            simp only [Except.ok.injEq, Prod.mk.injEq] at returns
            obtain ⟨_, rfl⟩ := returns
            exact ⟨Finds.missing ret failed, fun node subpath same => by cases same⟩
        | found node =>
            simp only at returns
            obtain ⟨_, _, returns⟩ := bind_ok returns
            simp only [pure_ok, Except.ok.injEq, Prod.mk.injEq] at returns
            obtain ⟨_, rfl⟩ := returns
            refine ⟨Finds.found (v.rootOf node), fun top subpath same => ?_⟩
            simp only [Except.ok.injEq, Prod.mk.injEq] at same
            exact same.2.symm
  · simp only [Except.ok.injEq, Prod.mk.injEq] at returns
    obtain ⟨_, rfl⟩ := returns
    exact ⟨finds_map _ _ _ (get_bootfs_finds starts c), rest _ _⟩
  · simp only [Except.ok.injEq, Prod.mk.injEq] at returns
    obtain ⟨_, rfl⟩ := returns
    exact ⟨finds_map _ _ _ (get_root_finds v starts c _), rest _ _⟩
  · rename_i noColon noSlash noDevice
    simp only [Except.ok.injEq, Prod.mk.injEq] at returns
    obtain ⟨_, rfl⟩ := returns
    have plain : selectPrefix path first tail = (.current, path) := by
      unfold selectPrefix
      split
      · exact absurd rfl (noColon _ rfl)
      · exact absurd rfl (noSlash _ rfl)
      · exact absurd rfl (noDevice _ _ _ rfl)
      · rfl
    rw [plain]
    exact ⟨finds_map _ _ _ (get_curdir_finds starts c), rest _ _⟩

theorem vfs_lookup_located (mid : Counts N) (path subpath : List Char) (node : N) (located : getDevice v starts c path = .ok (mid, .ok (node, subpath)))
    (searchable : subpath ≠ [] → v.kind node = .dir → Searchable t node subpath) :
    vfsLookupTree v t starts c path = vfsLookup v starts c path (answerOf t node subpath) := by
  simp only [vfsLookupTree, vfsLookup, located, ok_bind]
  by_cases whole : subpath = []
  · simp [whole]
  · rw [vop_lookup_tree v t mid node subpath (searchable whole)]

theorem vop_lookup_result (c' : Counts N) (node : N) (path : List Char) (ans : Answers N) (result : Except Int N) (named : path ≠ [])
    (returns : vopLookup v c node path ans = .ok (c', result)) : result = if v.kind node = .dir then ans.lookup else .error eNoEnt := by
  obtain ⟨_, _, returns⟩ := bind_ok returns
  cases kind : v.kind node with
  | device =>
      simp only [kind, named, ne_eq, not_false_eq_true, if_true, pure_ok, Except.ok.injEq, Prod.mk.injEq] at returns
      simp [← returns.2]
  | file =>
      simp only [kind] at returns
      cases returns
  | dir =>
      simp only [kind] at returns
      obtain ⟨_, returns⟩ := check_bind_ok returns
      cases answer : ans.lookup with
      | error ret =>
          simp only [answer] at returns
          obtain ⟨_, _, returns⟩ := bind_ok returns
          simp only [pure_ok, Except.ok.injEq, Prod.mk.injEq] at returns
          simp [← returns.2]
      | ok sub =>
          simp only [answer] at returns
          obtain ⟨_, _, returns⟩ := bind_ok returns
          simp only [pure_ok, Except.ok.injEq, Prod.mk.injEq] at returns
          simp [← returns.2]

theorem vfs_lookup_result (mid c' : Counts N) (path subpath : List Char) (node : N) (ans : Answers N) (result : Except Int N)
    (located : getDevice v starts c path = .ok (mid, .ok (node, subpath))) (named : subpath ≠ []) (returns : vfsLookup v starts c path ans = .ok (c', result)) :
    result = if v.kind node = .dir then ans.lookup else .error eNoEnt := by
  simp only [vfsLookup, located, ok_bind, named, ne_eq, not_false_eq_true, if_true] at returns
  obtain ⟨⟨after, found⟩, searched, returns⟩ := bind_ok returns
  obtain ⟨_, _, returns⟩ := bind_ok returns
  simp only [pure_ok, Except.ok.injEq, Prod.mk.injEq] at returns
  rw [← returns.2]
  exact vop_lookup_result after node subpath ans found named searched

theorem found_error (c' : Counts N) (ret : Int) (found : Found c c' (.error ret)) : c' = c := moved_still c c' found

theorem found_ok (c' : Counts N) (node : N) (found : Found c c' (.ok node)) : c' = refInc c node :=
  moved_unique c c' (refInc c node) _ _ found (ref_inc_moved c node)

theorem components_nonempty (path : List Char) (named : path ≠ []) (relative : path.head? ≠ some '/') : components path ≠ [] := by
  cases path with
  | nil => exact absurd rfl named
  | cons head rest =>
      have plain : head ≠ '/' := fun same => relative (by simp [same])
      obtain ⟨first, others, shape⟩ := List.exists_cons_of_ne_nil (List.splitOn_ne_nil '/' rest)
      simp [components, List.splitOn_cons_eq_if_modifyHead, plain, shape]

-- A search that passes its assertions answers what the walk does, when there is no slash.
theorem searched_follows (mounted : WellMounted v) (placed : Placed v starts) (room : Room v c 4) (named : t.Named) (path : List Char) (mid : Counts N) (node : N)
    (located : getDevice v starts c path = .ok (mid, .ok (node, subpathOf path))) (start : startOf v starts (splitPrefix path).1 = some node)
    (nonempty : subpathOf path ≠ []) (relative : (subpathOf path).head? ≠ some '/') (searchable : v.kind node = .dir → Searchable t node (subpathOf path)) :
    Follows v t starts c path ↔ (v.kind node = .dir → '/' ∈ subpathOf path → followPath v t starts path = none) := by
  have same := vfs_lookup_located mid path (subpathOf path) node located fun _ => searchable
  obtain ⟨after, result, returns⟩ := vfs_lookup_ok mounted placed room path (answerOf t node (subpathOf path))
  have answered := vfs_lookup_result mid after path (subpathOf path) node _ result located nonempty returns
  have found := vfs_lookup_found v starts c after path _ result returns
  have walked : followPath v t starts path = walk v t node (components (subpathOf path)) := by
    rw [followPath, start, Option.bind_some, components_subpath]
  unfold Follows
  rw [same, returns]
  by_cases dir : v.kind node = .dir
  · rw [if_pos dir] at answered
    by_cases slash : '/' ∈ subpathOf path
    · have missing := entry_plain t named node (subpathOf path) slash
      simp only [answerOf, missing] at answered
      subst answered
      rw [found_error after _ found]
      cases follows : followPath v t starts path with
      | none => simp [eNoEnt]
      | some other => simp [dir, slash]
    · rw [walked, components_single _ nonempty slash, walk, if_pos dir]
      cases entry : t.entry node (subpathOf path) with
      | none =>
          simp only [answerOf, entry] at answered
          subst answered
          rw [found_error after _ found]
          simp [eNoEnt]
      | some sub =>
          simp only [answerOf, entry] at answered
          subst answered
          rw [found_ok after _ found]
          simp [walk, slash]
  · rw [if_neg dir] at answered
    subst answered
    rw [found_error after _ found]
    obtain ⟨name, rest, shape⟩ := List.exists_cons_of_ne_nil (components_nonempty _ nonempty relative)
    have nowhere : followPath v t starts path = none := by rw [walked, shape, walk, if_neg dir]
    simp [nowhere, eNoEnt]

-- vfs_lookup follows the tree exactly for the paths that meet the condition.
theorem path_resolution_iff (mounted : WellMounted v) (placed : Placed v starts) (room : Room v c 4) (named : t.Named) (path : List Char) :
    Follows v t starts c path ↔ Single v t starts path := by
  obtain ⟨mid, result, located, begins⟩ := get_device_start mounted placed (room_weaken room 2 (by omega)) path
  obtain ⟨finds, rest⟩ := get_device_finds mid path result located
  have taken := get_device_found v starts c mid path result located
  cases result with
  | error ret =>
      cases start : startOf v starts (splitPrefix path).1 with
      | some node =>
          rw [start] at finds
          cases finds
      | none =>
          rw [start] at finds
          simp only [Except.map] at finds
          cases finds with
          | missing ret failed =>
              have nowhere : followPath v t starts path = none := by rw [followPath, start, Option.bind_none]
              have here := found_error mid ret taken
              refine iff_of_true ?_ fun node same => ?_
              · simp only [Follows, nowhere, vfsLookupTree, located, ok_bind, pure_ok]
                exact ⟨ret, failed, by rw [here]⟩
              · rw [start] at same
                cases same
  | ok pair =>
      obtain ⟨node, subpath⟩ := pair
      obtain rfl := rest node subpath rfl
      obtain ⟨notFile, relative⟩ := begins node (subpathOf path) rfl
      have start : startOf v starts (splitPrefix path).1 = some node := by
        generalize startOf v starts (splitPrefix path).1 = begin at finds
        cases finds
        rfl
      by_cases whole : subpathOf path = []
      · have here : components (splitPrefix path).2 = [] := by rw [← components_subpath, whole]; rfl
        have stays : followPath v t starts path = some node := by rw [followPath, start, Option.bind_some, here, walk]
        refine iff_of_true ?_ fun _ _ _ nonempty => absurd whole nonempty
        simp only [Follows, stays, vfsLookupTree, located, ok_bind, whole, ne_eq, not_true_eq_false, if_false, pure_ok]
        rw [found_ok mid node taken]
      · have single : Single v t starts path ↔ (v.kind node = .dir → Searchable t node (subpathOf path) ∧
            ('/' ∈ subpathOf path → followPath v t starts path = none)) := by
          simp only [Single, start, Option.some.injEq, forall_eq', ne_eq, whole, not_false_eq_true, true_implies]
        by_cases searchable : v.kind node = .dir → Searchable t node (subpathOf path)
        · rw [single, searched_follows mounted placed room named path mid node located start whole relative searchable]
          exact ⟨fun nowhere dir => ⟨searchable dir, nowhere dir⟩, fun both dir => (both dir).2⟩
        · obtain ⟨dir, stuck⟩ := Classical.not_imp.mp searchable
          refine iff_of_false (fun follows => ?_) fun both => stuck ((single.mp both) dir).1
          have never : ∀ result, vfsLookupTree v t starts c path ≠ .ok result := by
            intro result returns
            simp only [vfsLookupTree, located, ok_bind, whole, ne_eq, not_false_eq_true, if_true] at returns
            obtain ⟨found, searched, _⟩ := bind_ok returns
            exact vop_lookup_stuck v t mid node (subpathOf path) dir stuck found searched
          unfold Follows at follows
          split at follows
          · exact never _ follows
          · obtain ⟨ret, _, returns⟩ := follows
            exact never _ returns

end Walk

-- disk0 with the directory a in its root, and the file b in a.
def diskMounts : Mounts Nat :=
  ⟨fun node => if node = 9 then .device else if node = 2 then .file else .dir, fun _ => 0, [⟨['d', 'i', 's', 'k', '0'], 9, some 0, true⟩]⟩

def diskTree : SfsTree Nat where
  slots := fun node =>
    if node = 0 then [⟨some 0, ['.']⟩, ⟨some 0, ['.', '.']⟩, ⟨some 1, ['a']⟩]
    else if node = 1 then [⟨some 1, ['.']⟩, ⟨some 0, ['.', '.']⟩, ⟨some 2, ['b']⟩]
    else []
  link := fun _ => false

def diskStarts : Starts Nat := ⟨some 0, some 0⟩

def oneEach : Counts Nat := ⟨fun _ => 1, fun _ => 0⟩

theorem disk_sound : WellMounted diskMounts ∧ Placed diskMounts diskStarts ∧ Room diskMounts oneEach 4 ∧ diskTree.Named := by
  refine ⟨⟨fun _ => rfl, ?_, ?_, fun node device => ⟨_, List.mem_singleton_self _, ?_⟩⟩, ⟨⟨0, rfl, by decide⟩, 0, rfl, by decide⟩, ⟨fun node => ?_, fun node _ => ?_⟩,
    fun dir entry member => ?_⟩
  · simp [diskMounts]
  · simp [diskMounts]
  · by_contra other
    have apart : node ≠ 9 := fun same => other same.symm
    by_cases file : node = 2
    · simp [diskMounts, file] at device
    · simp [diskMounts, apart, file] at device
  · simp [oneEach, maxInodeCount]
  · simp [oneEach]
  · simp only [diskTree] at member
    split at member
    · simp only [List.mem_cons, List.not_mem_nil, or_false] at member
      rcases member with rfl | rfl | rfl <;> simp
    · split at member
      · simp only [List.mem_cons, List.not_mem_nil, or_false] at member
        rcases member with rfl | rfl | rfl <;> simp
      · cases member

theorem path_resolution_disk : Follows diskMounts diskTree diskStarts oneEach ['d', 'i', 's', 'k', '0', ':', '/', '/', 'a'] := by
  obtain ⟨mounted, placed, room, named⟩ := disk_sound
  refine (path_resolution_iff mounted placed room named _).mpr fun start same _ _ => ⟨⟨by decide, fun found _ => rfl⟩, fun slash => absurd slash (by decide)⟩

theorem long_name_stuck (n : Nat) (long : maxFnameLen < n) : ¬ Follows diskMounts diskTree diskStarts oneEach (List.replicate n 'a') := by
  obtain ⟨mounted, placed, room, named⟩ := disk_sound
  have relative := split_prefix_relative (List.replicate n 'a') fun c member => by
    rw [List.eq_of_mem_replicate member]
    rfl
  have rest : subpathOf (List.replicate n 'a') = List.replicate n 'a' := by simp only [subpathOf, relative]
  intro follows
  have single := (path_resolution_iff mounted placed room named _).mp follows 0 (by rw [relative]; rfl) rfl (by
    rw [rest]
    simp only [ne_eq, List.replicate_eq_nil_iff]
    omega)
  have short := single.1.1
  rw [rest, List.length_replicate] at short
  omega

-- The name of two components is searched in one directory, and a name of 256 bytes
-- does not pass the assertion of the search.
theorem two_components_missed : followPath diskMounts diskTree diskStarts ['a', '/', 'b'] = some 2 ∧
    ¬ Follows diskMounts diskTree diskStarts oneEach ['a', '/', 'b'] ∧ ¬ Follows diskMounts diskTree diskStarts oneEach (List.replicate 256 'a') := by
  obtain ⟨mounted, placed, room, named⟩ := disk_sound
  refine ⟨by decide, fun follows => ?_, long_name_stuck 256 (by decide)⟩
  have single := (path_resolution_iff mounted placed room named _).mp follows 0 (by decide) (by decide) (by decide)
  exact absurd (single.2 (by decide)) (by decide)

end Ucore.Vfs
