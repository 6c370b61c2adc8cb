import Mathlib.Algebra.BigOperators.Group.List.Basic
import Ucore.Vfs.Files

set_option autoImplicit false

namespace Ucore.Vfs

open Ucore.Lib

variable {N : Type} [DecidableEq N]

-- How far the counts of every inode have moved.
structure Moved (c c' : Counts N) (refs opens : N → Int) : Prop where
  ref : ∀ node, c'.refCount node = c.refCount node + refs node
  op : ∀ node, c'.openCount node = c.openCount node + opens node

def still : N → Int := fun _ => 0

def hit (node : N) : N → Int := fun other => if other = node then 1 else 0

def hitOption (node : Option N) : N → Int := fun other => if node = some other then 1 else 0

omit [DecidableEq N] in
theorem moved_refl (c : Counts N) : Moved c c still still := ⟨by simp [still], by simp [still]⟩

omit [DecidableEq N] in
theorem moved_still (c c' : Counts N) (moved : Moved c c' still still) : c' = c := by
  have ref : c'.refCount = c.refCount := funext fun node => by simpa [still] using moved.ref node
  have op : c'.openCount = c.openCount := funext fun node => by simpa [still] using moved.op node
  cases c
  cases c'
  simp_all

omit [DecidableEq N] in
theorem Moved.trans {c c' c'' : Counts N} {refs opens refs' opens' : N → Int} (first : Moved c c' refs opens)
    (second : Moved c' c'' refs' opens') : Moved c c'' (fun node => refs node + refs' node) (fun node => opens node + opens' node) where
  ref := by
    intro node
    rw [second.ref node, first.ref node, Int.add_assoc]
  op := by
    intro node
    rw [second.op node, first.op node, Int.add_assoc]

omit [DecidableEq N] in
theorem Moved.congr {c c' : Counts N} {refs opens refs' opens' : N → Int} (moved : Moved c c' refs opens)
    (sameRefs : ∀ node, refs node = refs' node) (sameOpens : ∀ node, opens node = opens' node) : Moved c c' refs' opens' where
  ref := by
    intro node
    rw [moved.ref node, sameRefs node]
  op := by
    intro node
    rw [moved.op node, sameOpens node]

section Inodes

theorem ref_inc_moved (c : Counts N) (node : N) : Moved c (refInc c node) (hit node) still where
  ref := by
    intro other
    by_cases same : other = node <;> simp [refInc, hit, same]
  op := by simp [refInc, still]

theorem open_inc_moved (c : Counts N) (node : N) : Moved c (openInc c node) still (hit node) where
  ref := by simp [openInc, still]
  op := by
    intro other
    by_cases same : other = node <;> simp [openInc, hit, same]

theorem ref_dec_moved (v : Mounts N) (c c' : Counts N) (node : N) (returns : refDec v c node = .ok c') :
    Moved c c' (fun other => - hit node other) still := by
  have moved : Moved c { c with refCount := Function.update c.refCount node (c.refCount node - 1) } (fun other => - hit node other) still := by
    constructor
    · intro other
      by_cases same : other = node
      · subst same
        simp [hit]
        omega
      · simp [hit, same]
    · simp [still]
  obtain ⟨_, returns⟩ := check_bind_ok returns
  by_cases zero : Function.update c.refCount node (c.refCount node - 1) node = 0
  · simp only [if_pos zero] at returns
    obtain ⟨_, returns⟩ := check_bind_ok returns
    obtain ⟨_, _, returns⟩ := bind_ok returns
    exact Except.ok.inj returns ▸ moved
  · simp only [if_neg zero] at returns
    exact Except.ok.inj returns ▸ moved

theorem open_dec_moved (c c' : Counts N) (node : N) (returns : openDec c node = .ok c') : Moved c c' still (fun other => - hit node other) := by
  have moved : Moved c { c with openCount := Function.update c.openCount node (c.openCount node - 1) } still (fun other => - hit node other) := by
    constructor
    · simp [still]
    · intro other
      by_cases same : other = node
      · subst same
        simp [hit]
        omega
      · simp [hit, same]
  obtain ⟨_, returns⟩ := check_bind_ok returns
  by_cases zero : Function.update c.openCount node (c.openCount node - 1) node = 0
  · simp only [if_pos zero] at returns
    obtain ⟨_, _, returns⟩ := bind_ok returns
    exact Except.ok.inj returns ▸ moved
  · simp only [if_neg zero] at returns
    exact Except.ok.inj returns ▸ moved

theorem vfs_close_moved (v : Mounts N) (c c' : Counts N) (node : N) (returns : vfsClose v c node = .ok c') :
    Moved c c' (fun other => - hit node other) (fun other => - hit node other) := by
  obtain ⟨mid, opened, released⟩ := bind_ok returns
  apply ((open_dec_moved c mid node opened).trans (ref_dec_moved v mid c' node released)).congr <;> intro other <;> simp [still]

end Inodes

section Names

-- What a lookup gives: a reference to the inode that it finds, and nothing when it
-- fails.
def Found (c c' : Counts N) : Except Int N → Prop
  | .ok node => Moved c c' (hit node) still
  | .error _ => Moved c c' still still

theorem curdir_found (starts : Starts N) (c : Counts N) : Found c (vfsGetCurdir starts c).1 (vfsGetCurdir starts c).2 := by
  unfold vfsGetCurdir
  cases starts.pwd with
  | none => exact moved_refl c
  | some node => exact ref_inc_moved c node

theorem bootfs_found (starts : Starts N) (c : Counts N) : Found c (vfsGetBootfs starts c).1 (vfsGetBootfs starts c).2 := by
  unfold vfsGetBootfs
  cases starts.bootfs with
  | none => exact moved_refl c
  | some node => exact ref_inc_moved c node

theorem root_found (v : Mounts N) (c : Counts N) (devname : List Char) : Found c (vfsGetRoot v c devname).1 (vfsGetRoot v c devname).2 := by
  unfold vfsGetRoot
  cases v.devs.find? fun dev => dev.devname = devname with
  | none => exact moved_refl c
  | some dev =>
      simp only
      split
      · exact ref_inc_moved c _
      · split
        · exact ref_inc_moved c dev.devnode
        · exact moved_refl c

theorem found_map (c c' : Counts N) (found : Except Int N) (subpath : List Char) (moved : Found c c' found) :
    Found c c' ((found.map fun node => (node, subpath)).map Prod.fst) := by
  cases found with
  | error ret => exact moved
  | ok node => exact moved

theorem get_device_found (v : Mounts N) (starts : Starts N) (c c' : Counts N) (path : List Char) (result : Except Int (N × List Char))
    (returns : getDevice v starts c path = .ok (c', result)) : Found c c' (result.map Prod.fst) := by
  unfold getDevice at returns
  simp only at returns
  split at returns
  · rename_i rest _ _
    have started := curdir_found starts c
    cases here : vfsGetCurdir starts c with
    | mk mid found =>
        rw [here] at returns started
        cases found with
        | error ret =>
            simp only [Except.ok.injEq, Prod.mk.injEq] at returns
            obtain ⟨same, failed⟩ := returns
            subst same failed
            exact started
        | ok node =>
            simp only at returns
            obtain ⟨released, dec, returns⟩ := bind_ok returns
            simp only [pure_ok, Except.ok.injEq, Prod.mk.injEq] at returns
            obtain ⟨same, done⟩ := returns
            subst same done
            have moved := (Moved.trans started (ref_inc_moved mid (v.rootOf node))).trans (ref_dec_moved v _ _ _ dec)
            apply moved.congr <;> intro other <;> simp [still]
  · have moved := bootfs_found starts c
    simp only [Except.ok.injEq, Prod.mk.injEq] at returns
    obtain ⟨same, done⟩ := returns
    subst same done
    exact found_map _ _ _ _ moved
  · have moved := root_found v c (path.takeWhile fun c => ¬ isMark c)
    simp only [Except.ok.injEq, Prod.mk.injEq] at returns
    obtain ⟨same, done⟩ := returns
    subst same done
    exact found_map _ _ _ _ moved
  · have moved := curdir_found starts c
    simp only [Except.ok.injEq, Prod.mk.injEq] at returns
    obtain ⟨same, done⟩ := returns
    subst same done
    exact found_map _ _ _ _ moved

theorem vop_lookup_found (v : Mounts N) (c c' : Counts N) (node : N) (path : List Char) (ans : Answers N) (result : Except Int N)
    (returns : vopLookup v c node path ans = .ok (c', result)) : Found c c' result := by
  obtain ⟨_, _, returns⟩ := bind_ok returns
  cases kind : v.kind node with
  | device =>
      simp only [kind] at returns
      by_cases empty : path = []
      · simp only [empty, ne_eq, not_true_eq_false, if_false, pure_ok, Except.ok.injEq, Prod.mk.injEq] at returns
        obtain ⟨same, done⟩ := returns
        subst same done
        exact ref_inc_moved c node
      · simp only [empty, ne_eq, not_false_eq_true, if_true, pure_ok, Except.ok.injEq, Prod.mk.injEq] at returns
        obtain ⟨same, done⟩ := returns
        subst same done
        exact moved_refl c
  | file =>
      simp only [kind] at returns
      exact absurd returns (by simp)
  | dir =>
      simp only [kind] at returns
      obtain ⟨_, returns⟩ := check_bind_ok returns
      cases answer : ans.lookup with
      | error ret =>
          simp only [answer] at returns
          obtain ⟨released, dec, returns⟩ := bind_ok returns
          simp only [pure_ok, Except.ok.injEq, Prod.mk.injEq] at returns
          obtain ⟨same, done⟩ := returns
          subst same done
          have moved := (ref_inc_moved c node).trans (ref_dec_moved v _ _ _ dec)
          apply moved.congr <;> intro other <;> simp [still]
      | ok subnode =>
          simp only [answer] at returns
          obtain ⟨released, dec, returns⟩ := bind_ok returns
          simp only [pure_ok, Except.ok.injEq, Prod.mk.injEq] at returns
          obtain ⟨same, done⟩ := returns
          subst same done
          have moved := ((ref_inc_moved c node).trans (ref_inc_moved _ subnode)).trans (ref_dec_moved v _ _ _ dec)
          apply moved.congr <;> intro other <;> simp [still]

theorem vfs_lookup_found (v : Mounts N) (starts : Starts N) (c c' : Counts N) (path : List Char) (ans : Answers N) (result : Except Int N)
    (returns : vfsLookup v starts c path ans = .ok (c', result)) : Found c c' result := by
  obtain ⟨⟨mid, device⟩, located, returns⟩ := bind_ok returns
  have started := get_device_found v starts c mid path device located
  cases device with
  | error ret =>
      simp only [pure_ok, Except.ok.injEq, Prod.mk.injEq] at returns
      obtain ⟨same, done⟩ := returns
      subst same done
      exact started
  | ok start =>
      obtain ⟨node, subpath⟩ := start
      simp only at returns
      by_cases whole : subpath = []
      · simp only [whole, ne_eq, not_true_eq_false, if_false, pure_ok, Except.ok.injEq, Prod.mk.injEq] at returns
        obtain ⟨same, done⟩ := returns
        subst same done
        exact started
      · simp only [whole, ne_eq, not_false_eq_true, if_true] at returns
        obtain ⟨⟨after, found⟩, searched, returns⟩ := bind_ok returns
        obtain ⟨released, dec, returns⟩ := bind_ok returns
        simp only [pure_ok, Except.ok.injEq, Prod.mk.injEq] at returns
        obtain ⟨same, done⟩ := returns
        subst same done
        have looked := vop_lookup_found v mid after node subpath ans found searched
        have dropped := ref_dec_moved v after released node dec
        cases found with
        | error ret =>
            apply ((Moved.trans started looked).trans dropped).congr <;> intro other <;> simp [still]
        | ok sub =>
            apply ((Moved.trans started looked).trans dropped).congr <;> intro other <;> simp [still]

end Names

section Opening

theorem vfs_open_node_found (v : Mounts N) (c c' : Counts N) (node : N) (flags : BitVec 32) (ans : Answers N) (result : Except Int N)
    (returns : vfsOpenNode v c node flags ans = .ok (c', result)) :
    match result with
    | .ok found => found = node ∧ Moved c c' still (hit node)
    | .error _ => Moved c c' (fun other => - hit node other) still := by
  obtain ⟨ret, _, returns⟩ := bind_ok returns
  by_cases refused : ret ≠ 0
  · simp only [if_pos refused] at returns
    obtain ⟨released, dec, returns⟩ := bind_ok returns
    simp only [pure_ok, Except.ok.injEq, Prod.mk.injEq] at returns
    obtain ⟨same, done⟩ := returns
    subst same done
    exact ref_dec_moved v c released node dec
  · simp only [if_neg refused] at returns
    by_cases truncates : has flags oTrunc = true ∨ has flags oCreat = true
    · simp only [if_pos truncates] at returns
      obtain ⟨cut, _, returns⟩ := bind_ok returns
      by_cases failed : cut ≠ 0
      · simp only [if_pos failed] at returns
        obtain ⟨released, dec, returns⟩ := bind_ok returns
        simp only [pure_ok, Except.ok.injEq, Prod.mk.injEq] at returns
        obtain ⟨same, done⟩ := returns
        subst same done
        apply ((open_inc_moved c node).trans (vfs_close_moved v _ released node dec)).congr <;> intro other <;> simp [still]
      · simp only [if_neg failed, pure_ok, Except.ok.injEq, Prod.mk.injEq] at returns
        obtain ⟨same, done⟩ := returns
        subst same done
        exact ⟨rfl, open_inc_moved c node⟩
    · simp only [if_neg truncates, pure_ok, Except.ok.injEq, Prod.mk.injEq] at returns
      obtain ⟨same, done⟩ := returns
      subst same done
      exact ⟨rfl, open_inc_moved c node⟩

-- The lookup of an open finds an inode.
def Exists (v : Mounts N) (starts : Starts N) (c : Counts N) (path : List Char) (ans : Answers N) : Prop :=
  ∃ c' node, vfsLookup v starts c path ans = .ok (c', .ok node)

-- O_CREAT with O_EXCL on a file that is there: this error leaves the reference of
-- the lookup behind.
def Exclusive (flags : BitVec 32) : Prop := has flags oExcl = true ∧ has flags oCreat = true

def Opened (c c' : Counts N) : Except Int N → Prop
  | .ok node => Moved c c' (hit node) (hit node)
  | .error _ => Moved c c' still still

theorem vfs_open_opened (v : Mounts N) (starts : Starts N) (c c' : Counts N) (path : List Char) (flags : BitVec 32) (ans : Answers N)
    (result : Except Int N) (plain : Exclusive flags → ¬ Exists v starts c path ans)
    (returns : vfsOpen v starts c path flags ans = .ok (c', result)) : Opened c c' result := by
  unfold vfsOpen at returns
  by_cases badMode : flags &&& oAccMode = oAccMode
  · simp only [if_pos badMode, Except.ok.injEq, Prod.mk.injEq] at returns
    obtain ⟨same, done⟩ := returns
    subst same done
    exact moved_refl c
  simp only [if_neg badMode] at returns
  by_cases badTrunc : has flags oTrunc = true ∧ flags &&& oAccMode = oRdOnly
  · simp only [if_pos badTrunc, Except.ok.injEq, Prod.mk.injEq] at returns
    obtain ⟨same, done⟩ := returns
    subst same done
    exact moved_refl c
  simp only [if_neg badTrunc] at returns
  obtain ⟨⟨mid, found⟩, looked, returns⟩ := bind_ok returns
  have located := vfs_lookup_found v starts c mid path ans found looked
  cases found with
  | error ret =>
      simp only at returns
      by_cases creates : ret = eNoEnt ∧ has flags oCreat = true
      · simp only [if_pos creates] at returns
        obtain ⟨⟨after, dir⟩, device, returns⟩ := bind_ok returns
        have started := get_device_found v starts mid after (cutPath path) dir device
        cases dir with
        | error ret' =>
            simp only [pure_ok, Except.ok.injEq, Prod.mk.injEq] at returns
            obtain ⟨same, done⟩ := returns
            subst same done
            apply (Moved.trans located started).congr <;> intro other <;> simp [still]
        | ok start => exact absurd returns (by simp)
      · simp only [if_neg creates, pure_ok, Except.ok.injEq, Prod.mk.injEq] at returns
        obtain ⟨same, done⟩ := returns
        subst same done
        exact located
  | ok node =>
      simp only at returns
      by_cases exclusive : has flags oExcl = true ∧ has flags oCreat = true
      · exact absurd ⟨mid, node, looked⟩ (plain exclusive)
      · simp only [if_neg exclusive] at returns
        have after := vfs_open_node_found v mid c' node flags ans result returns
        cases result with
        | error ret => apply (Moved.trans located after).congr <;> intro other <;> simp [still]
        | ok opened =>
            obtain ⟨same, moved⟩ := after
            subst same
            apply (Moved.trans located moved).congr <;> intro other <;> simp [still]

-- A change of the working directory moves one reference.
def Changed (starts : Starts N) (c c' : Counts N) : Except Int (Option N) → Prop
  | .ok pwd => Moved c c' (fun other => hitOption pwd other - hitOption starts.pwd other) still
  | .error _ => Moved c c' still still

theorem vfs_chdir_changed (v : Mounts N) (starts : Starts N) (c c' : Counts N) (path : List Char) (ans : Answers N)
    (result : Except Int (Option N)) (returns : vfsChdir v starts c path ans = .ok (c', result)) : Changed starts c c' result := by
  obtain ⟨⟨mid, found⟩, looked, returns⟩ := bind_ok returns
  have located := vfs_lookup_found v starts c mid path ans found looked
  cases found with
  | error ret =>
      simp only [pure_ok, Except.ok.injEq, Prod.mk.injEq] at returns
      obtain ⟨same, done⟩ := returns
      subst same done
      exact located
  | ok node =>
      simp only at returns
      by_cases here : starts.pwd = some node
      · simp only [if_pos here] at returns
        obtain ⟨released, dec, returns⟩ := bind_ok returns
        simp only [pure_ok, Except.ok.injEq, Prod.mk.injEq] at returns
        obtain ⟨same, done⟩ := returns
        subst same done
        apply (Moved.trans located (ref_dec_moved v mid released node dec)).congr <;> intro other <;> simp [still]
      · simp only [if_neg here] at returns
        obtain ⟨_, _, returns⟩ := bind_ok returns
        by_cases other : v.kind node ≠ .dir
        · simp only [if_pos other] at returns
          obtain ⟨released, dec, returns⟩ := bind_ok returns
          simp only [pure_ok, Except.ok.injEq, Prod.mk.injEq] at returns
          obtain ⟨same, done⟩ := returns
          subst same done
          apply (Moved.trans located (ref_dec_moved v mid released node dec)).congr <;> intro other <;> simp [still]
        · simp only [if_neg other] at returns
          have taken := Moved.trans located (ref_inc_moved mid node)
          cases pwd : starts.pwd with
          | none =>
              simp only [pwd, ok_bind] at returns
              obtain ⟨released, dec, returns⟩ := bind_ok returns
              simp only [pure_ok, Except.ok.injEq, Prod.mk.injEq] at returns
              obtain ⟨same, done⟩ := returns
              subst same done
              apply (taken.trans (ref_dec_moved v _ released node dec)).congr <;> intro other <;> simp [still, hit, hitOption, pwd, eq_comm]
          | some old =>
              simp only [pwd] at returns
              obtain ⟨swapped, swap, returns⟩ := bind_ok returns
              obtain ⟨released, dec, returns⟩ := bind_ok returns
              simp only [pure_ok, Except.ok.injEq, Prod.mk.injEq] at returns
              obtain ⟨same, done⟩ := returns
              subst same done
              apply ((taken.trans (ref_dec_moved v _ _ old swap)).trans (ref_dec_moved v _ released node dec)).congr
              · intro other
                simp [hit, hitOption, pwd, eq_comm]
                omega
              · intro other
                simp [still]

end Opening

end Ucore.Vfs
