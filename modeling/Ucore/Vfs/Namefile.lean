import Mathlib.Data.List.GetD
import Ucore.Vfs.Getcwd

set_option autoImplicit false

namespace Ucore.Vfs.Namefile

open Ucore.Lib

inductive NameFault where
  | vfs (fault : Fault)
  | outOfFuel
  | wroteOutside
deriving DecidableEq, Repr

def nul : Char := Char.ofNat 0

-- What the allocations and transfers of the lookups have yet to come to; they
-- succeed when the results are used up.
def nextResult : List Int → Int × List Int
  | [] => (0, [])
  | ret :: results => (ret, results)

def overlay (buf : Nat → Char) (pos : Nat) (text : List Char) : Nat → Char := fun i =>
  if pos ≤ i ∧ i < pos + text.length then text.getD (i - pos) nul else buf i

-- A buffer of size characters from io_base on. A write behind it or before it is a fault.
def putText (size : Nat) (buf : Nat → Char) (pos : Int) (text : List Char) : Except NameFault (Nat → Char) := do
  check (0 ≤ pos ∧ pos + text.length ≤ size) .wroteOutside
  return overlay buf pos.toNat text

section Climb

variable {N : Type} [DecidableEq N]

def inName {α : Type} (value : Except Fault α) : Except NameFault α := value.mapError .vfs

-- The loop over the slots of a directory, which reads each one.
def searchSlots {α : Type} (wanted : DiskEntry N → Option α) : List (DiskEntry N) → List Int → Except Int α × List Int
  | [], results => (.error eNoEnt, results)
  | slot :: rest, results =>
      let (ret, results) := nextResult results
      if ret ≠ 0 then (.error ret, results)
      else
        match wanted slot with
        | some found => (.ok found, results)
        | none => searchSlots wanted rest results

def byName (name : List Char) (slot : DiskEntry N) : Option N := if name = slot.name then slot.ino else none

def byNumber (node : N) (slot : DiskEntry N) : Option (List Char) := if slot.ino = some node then some slot.name else none

-- The first result is that of the allocation of the entry.
def direntSearch (t : SfsTree N) (dir : N) (name : List Char) (results : List Int) : Except NameFault (Except Int N × List Int) := do
  check (name.length ≤ maxFnameLen) (.vfs .assertFailed)
  let (ret, results) := nextResult results
  if ret ≠ 0 then return (.error eNoMem, results)
  else return searchSlots (byName name) (t.slots dir) results

def direntFindino (t : SfsTree N) (dir node : N) (results : List Int) : Except Int (List Char) × List Int :=
  searchSlots (byNumber node) (t.slots dir) results

def sfsLookupOnce (t : SfsTree N) (c : Counts N) (dir : N) (name : List Char) (results : List Int) :
    Except NameFault (Counts N × Except Int N × List Int) := do
  let (found, results) ← direntSearch t dir name results
  match found with
  | .error ret => return (c, .error ret, results)
  | .ok node =>
      let (ret, results) := nextResult results
      if ret ≠ 0 then return (c, .error ret, results)
      else
        let c ← inName (sfsLoadInode t c node)
        return (c, .ok node, results)

-- The climb of sfs_namefile. The result is the code, resid, ptr and the buffer.
def climb (v : Mounts N) (t : SfsTree N) (size : Nat) :
    Nat → Counts N → N → Nat → Int → (Nat → Char) → List Int → Except NameFault (Counts N × Int × Nat × Int × (Nat → Char) × List Int)
  | 0, _, _, _, _, _, _ => .error .outOfFuel
  | fuel + 1, c, node, resid, ptr, buf, results => do
      let (c, found, results) ← sfsLookupOnce t c node ['.', '.'] results
      match found with
      | .error ret => do
          let c ← inName (refDec v c node)
          return (c, ret, resid, ptr, buf, results)
      | .ok parent => do
          let c ← inName (refDec v c node)
          if node = parent then do
            let c ← inName (refDec v c node)
            return (c, 0, resid, ptr, buf, results)
          else do
            check (v.kind parent = .dir) (.vfs .assertFailed)
            let (found, results) := direntFindino t parent node results
            match found with
            | .error ret => do
                let c ← inName (refDec v c parent)
                return (c, ret, resid, ptr, buf, results)
            | .ok name =>
                if resid < name.length + 1 then do
                  let c ← inName (refDec v c parent)
                  return (c, eNoMem, resid, ptr, buf, results)
                else do
                  let ptr := ptr - (name.length + 1 : Nat)
                  let buf ← putText size buf ptr (name ++ ['/'])
                  climb v t size fuel c parent (resid - (name.length + 1)) ptr buf results

-- sfs_namefile with memory for its entry: the code, the buffer and the length that iobuf_skip gets.
def sfsNamefile (v : Mounts N) (t : SfsTree N) (fuel size : Nat) (c : Counts N) (node : N) (buf : Nat → Char) (results : List Int) :
    Except NameFault (Counts N × Int × (Nat → Char) × Nat × List Int) := do
  if size ≤ 2 then return (c, eNoMem, buf, 0, results)
  else
    let (c, ret, resid, ptr, buf, results) ← climb v t size fuel (refInc c node) node (size - 2) size buf results
    if ret ≠ 0 then return (c, ret, buf, 0, results)
    else
      let alen := size - resid - 2
      check (0 ≤ ptr ∧ ptr + alen ≤ size) .wroteOutside
      let buf ← putText size buf 1 ((List.range alen).map fun i => buf (ptr.toNat + i))
      let buf ← putText size buf 0 ['/']
      let buf ← putText size buf (1 + alen) [nul]
      return (c, 0, buf, alen, results)

-- A failure is among the results.
def Fails (results : List Int) : Prop := ∃ ret ∈ results, ret ≠ 0

theorem next_result_cases (results : List Int) : ((nextResult results).1 = 0 ∨ Fails results) ∧ ∀ ret ∈ (nextResult results).2, ret ∈ results := by
  cases results with
  | nil => exact ⟨.inl rfl, fun ret member => member⟩
  | cons ret rest =>
      refine ⟨?_, fun other member => List.mem_cons_of_mem ret member⟩
      by_cases zero : ret = 0
      · exact .inl zero
      · exact .inr ⟨ret, by simp, zero⟩

theorem fails_of_subset (results rest : List Int) (fewer : ∀ ret ∈ rest, ret ∈ results) (fails : Fails rest) : Fails results := by
  obtain ⟨ret, member, bad⟩ := fails
  exact ⟨ret, fewer ret member, bad⟩

-- A search finds what is first, or fails with one of the results.
omit [DecidableEq N] in
theorem search_slots_spec {α : Type} (wanted : DiskEntry N → Option α) (slots : List (DiskEntry N)) (results : List Int) (found : α)
    (first : slots.findSome? wanted = some found) :
    ∃ rest, (∀ ret ∈ rest, ret ∈ results) ∧ (searchSlots wanted slots results = (.ok found, rest) ∨
      Fails results ∧ ∃ ret, ret ≠ 0 ∧ searchSlots wanted slots results = (.error ret, rest)) := by
  induction slots generalizing results with
  | nil => cases first
  | cons slot slots ih =>
      obtain ⟨here, fewer⟩ := next_result_cases results
      by_cases zero : (nextResult results).1 = 0
      · cases own : wanted slot with
        | some value =>
            rw [List.findSome?_cons, own] at first
            cases first
            refine ⟨(nextResult results).2, fewer, .inl ?_⟩
            simp only [searchSlots, zero, own, ne_eq, not_true_eq_false, if_false]
        | none =>
            rw [List.findSome?_cons, own] at first
            obtain ⟨rest, less, outcome⟩ := ih (nextResult results).2 first
            refine ⟨rest, fun ret member => fewer ret (less ret member), ?_⟩
            simp only [searchSlots, zero, own, ne_eq, not_true_eq_false, if_false]
            cases outcome with
            | inl good => exact .inl good
            | inr bad => exact .inr ⟨fails_of_subset results _ fewer bad.1, bad.2⟩
      · refine ⟨(nextResult results).2, fewer, .inr ⟨here.resolve_left zero, (nextResult results).1, zero, ?_⟩⟩
        simp only [searchSlots, ne_eq, zero, not_false_eq_true, if_true]

-- The searches of the tree of directories are those over its slots.
omit [DecidableEq N] in
theorem entry_slots (t : SfsTree N) (dir : N) (name : List Char) : (t.slots dir).findSome? (byName name) = t.entry dir name := by
  rw [SfsTree.entry]
  generalize t.slots dir = slots
  induction slots with
  | nil => rfl
  | cons slot slots ih =>
      rw [List.findSome?_cons]
      by_cases same : name = slot.name
      · cases used : slot.ino with
        | none =>
            rw [List.find?_cons_of_neg (by simp [used])]
            simp only [byName, if_pos same, used]
            exact ih
        | some other =>
            rw [List.find?_cons_of_pos (by simp [used, same])]
            simp only [byName, if_pos same, used]
            exact used.symm
      · rw [List.find?_cons_of_neg (by simp [same])]
        simp only [byName, if_neg same]
        exact ih

theorem findino_slots (t : SfsTree N) (dir node : N) : (t.slots dir).findSome? (byNumber node) = Vfs.direntFindino t dir node := by
  rw [Vfs.direntFindino]
  generalize t.slots dir = slots
  induction slots with
  | nil => rfl
  | cons slot slots ih =>
      rw [List.findSome?_cons]
      by_cases same : slot.ino = some node
      · rw [List.find?_cons_of_pos (by simp [same])]
        simp only [byNumber, if_pos same]
        rfl
      · rw [List.find?_cons_of_neg (by simp [same])]
        simp only [byNumber, if_neg same]
        exact ih

theorem lookup_parent (t : SfsTree N) (held : Counts N) (node parent : N) (results : List Int) (back : t.entry node ['.', '.'] = some parent)
    (plain : t.link parent = false) :
    ∃ rest, (∀ ret ∈ rest, ret ∈ results) ∧ (sfsLookupOnce t held node ['.', '.'] results = .ok (refInc held parent, .ok parent, rest) ∨
      Fails results ∧ ∃ ret, ret ≠ 0 ∧ sfsLookupOnce t held node ['.', '.'] results = .ok (held, .error ret, rest)) := by
  have short : decide (['.', '.'].length ≤ maxFnameLen) = true := rfl
  have opened : decide (¬ t.link parent = true) = true := by simp [plain]
  obtain ⟨allocated, afterAlloc⟩ := next_result_cases results
  by_cases memory : (nextResult results).1 = 0
  · obtain ⟨rest, fewer, outcome⟩ := search_slots_spec (byName ['.', '.']) (t.slots node) (nextResult results).2 parent ((entry_slots t node _).trans back)
    cases outcome with
    | inl good =>
        obtain ⟨loaded, afterLoad⟩ := next_result_cases rest
        refine ⟨(nextResult rest).2, fun ret member => afterAlloc ret (fewer ret (afterLoad ret member)), ?_⟩
        by_cases load : (nextResult rest).1 = 0
        · refine .inl ?_
          simp only [sfsLookupOnce, direntSearch, short, check_true, ok_bind, memory, ne_eq, not_true_eq_false, if_false, pure_ok, good, load, sfsLoadInode, opened,
            inName, Except.mapError]
        · refine .inr ⟨fails_of_subset results rest (fun ret member => afterAlloc ret (fewer ret member)) (loaded.resolve_left load), (nextResult rest).1, load, ?_⟩
          simp only [sfsLookupOnce, direntSearch, short, check_true, ok_bind, memory, ne_eq, not_true_eq_false, if_false, pure_ok, good, load, not_false_eq_true, if_true]
    | inr bad =>
        obtain ⟨fails, ret, nonzero, failed⟩ := bad
        refine ⟨rest, fun ret member => afterAlloc ret (fewer ret member), .inr ⟨fails_of_subset results _ afterAlloc fails, ret, nonzero, ?_⟩⟩
        simp only [sfsLookupOnce, direntSearch, short, check_true, ok_bind, memory, ne_eq, not_true_eq_false, if_false, pure_ok, failed]
  · refine ⟨(nextResult results).2, afterAlloc, .inr ⟨allocated.resolve_left memory, eNoMem, by decide, ?_⟩⟩
    simp only [sfsLookupOnce, direntSearch, short, check_true, ok_bind, ne_eq, memory, not_false_eq_true, if_true, pure_ok]

-- The end of the buffer is filled with a text.
def Filled (size : Nat) (buf : Nat → Char) (written : List Char) : Prop :=
  written.length ≤ size ∧ ∀ i, i < written.length → buf (size - written.length + i) = written.getD i nul

theorem overlay_inside (buf : Nat → Char) (pos : Nat) (text : List Char) (i : Nat) (bound : i < text.length) : overlay buf pos text (pos + i) = text.getD i nul := by
  rw [overlay, if_pos (by omega), Nat.add_sub_cancel_left]

theorem overlay_outside (buf : Nat → Char) (pos : Nat) (text : List Char) (i : Nat) (outside : i < pos ∨ pos + text.length ≤ i) : overlay buf pos text i = buf i :=
  if_neg (by omega)

theorem put_text_ok (size : Nat) (buf : Nat → Char) (pos : Nat) (text : List Char) (inside : pos + text.length ≤ size) :
    putText size buf pos text = .ok (overlay buf pos text) := by
  have fits : (0 : Int) ≤ pos ∧ (pos : Int) + text.length ≤ size := by omega
  simp only [putText, decide_eq_true fits, check_true, ok_bind, pure_ok, Int.toNat_natCast]

theorem filled_put (size : Nat) (buf : Nat → Char) (text written : List Char) (filled : Filled size buf written) (room : text.length + written.length ≤ size) :
    Filled size (overlay buf (size - written.length - text.length) text) (text ++ written) := by
  refine ⟨by rw [List.length_append]; exact room, fun i bound => ?_⟩
  rw [List.length_append] at bound ⊢
  by_cases front : i < text.length
  · rw [show size - (text.length + written.length) + i = size - written.length - text.length + i by omega, overlay_inside _ _ _ _ front, List.getD_append _ _ _ _ front]
  · have later := filled.2 (i - text.length) (by omega)
    rw [overlay_outside _ _ _ _ (by omega), show size - (text.length + written.length) + i = size - written.length + (i - text.length) by omega, later,
      List.getD_append_right _ _ _ _ (by omega)]

variable {v : Mounts N} {t : SfsTree N} {c : Counts N}

-- What a climb from a directory comes to, with a text already at the end of the buffer.
structure Climbed (size resid : Nat) (names : List Char) (written : List Char) (buf : Nat → Char) (results : List Int) (ret : Int) (resid' : Nat) (ptr' : Int)
    (buf' : Nat → Char) : Prop where
  outside : ∀ pos, size ≤ pos → buf' pos = buf pos
  done : ret = 0 → resid' + 2 + (names ++ written).length = size ∧ ptr' = (size : Int) - (names ++ written).length ∧ Filled size buf' (names ++ written)
  fits : ret = 0 → names.length ≤ resid
  why : ret ≠ 0 → (ret = eNoMem ∧ resid < names.length) ∨ Fails results

theorem give_back (room : Room v c 2) (held : Counts N) (node : N) (taken : Moved c held (hit node) still) : refDec v held node = .ok c := by
  obtain ⟨final, last⟩ := ref_dec_ok room _ _ taken node fun other => by
    obtain ⟨first, second⟩ := hit_bounds node other
    simp only [still]
    omega
  rw [last]
  exact congrArg _ (moved_still c final <| (taken.trans (ref_dec_moved v _ _ _ last)).congr (fun other => by simp [still]) fun other => by simp [still])

-- The reference moves from a directory to the one above it.
theorem pass_up (room : Room v c 2) (held : Counts N) (node parent : N) (taken : Moved c held (hit node) still) :
    ∃ after, refDec v (refInc held parent) node = .ok after ∧ Moved c after (hit parent) still := by
  have both := taken.trans (ref_inc_moved held parent)
  obtain ⟨after, dec⟩ := ref_dec_ok room _ _ both node fun other => by
    obtain ⟨first, second⟩ := hit_bounds node other
    obtain ⟨third, fourth⟩ := hit_bounds parent other
    simp only [still]
    omega
  refine ⟨after, dec, (both.trans (ref_dec_moved v _ _ _ dec)).congr (fun other => ?_) fun other => ?_⟩
  · omega
  · simp [still]

theorem climb_spec (room : Room v c 2) (plain : ∀ node, v.kind node = .dir → t.link node = false) (size : Nat) (root node : N) (names : List (List Char))
    (nested : Nested v t root node names) (held : Counts N) (taken : Moved c held (hit node) still) (resid fuel : Nat) (written : List Char) (buf : Nat → Char)
    (results : List Int) (rounds : names.length < fuel) (place : resid + 2 + written.length = size) (filled : Filled size buf written) :
    ∃ ret resid' ptr' buf' rest, climb v t size fuel held node resid ((size : Int) - written.length) buf results = .ok (c, ret, resid', ptr', buf', rest) ∧
      Climbed size resid (slashed names) written buf results ret resid' ptr' buf' := by
  induction nested generalizing held resid fuel written buf results with
  | root turns dir =>
      obtain ⟨n, rfl⟩ := Nat.exists_eq_succ_of_ne_zero (Nat.ne_of_gt rounds)
      obtain ⟨rest, _, outcome⟩ := lookup_parent t held root root results turns (plain root dir)
      cases outcome with
      | inl found =>
          obtain ⟨after, dec, moved⟩ := pass_up room held root root taken
          have last := give_back room after root moved
          refine ⟨0, resid, (size : Int) - written.length, buf, rest, ?_, fun _ _ => rfl, fun _ => ⟨place, rfl, filled⟩, fun _ => Nat.zero_le _, fun bad => absurd rfl bad⟩
          simp only [climb, found, ok_bind, dec, inName, Except.mapError, if_true, last, pure_ok]
      | inr failed =>
          obtain ⟨fails, ret, nonzero, found⟩ := failed
          have last := give_back room held root taken
          refine ⟨ret, resid, (size : Int) - written.length, buf, rest, ?_, fun _ _ => rfl, fun zero => absurd zero nonzero, fun zero => absurd zero nonzero,
            fun _ => .inr fails⟩
          simp only [climb, found, ok_bind, inName, Except.mapError, last, pure_ok]
  | child parent node names name above listed entry back other dir ih =>
      obtain ⟨n, rfl⟩ := Nat.exists_eq_succ_of_ne_zero (Nat.ne_of_gt (Nat.lt_of_le_of_lt (Nat.zero_le _) rounds))
      have parentDir := nested_dir root parent names above
      rw [List.length_append, List.length_singleton] at rounds
      obtain ⟨rest, fewer, outcome⟩ := lookup_parent t held node parent results back (plain parent parentDir)
      cases outcome with
      | inr failed =>
          obtain ⟨fails, ret, nonzero, found⟩ := failed
          have last := give_back room held node taken
          refine ⟨ret, resid, (size : Int) - written.length, buf, rest, ?_, fun _ _ => rfl, fun zero => absurd zero nonzero, fun zero => absurd zero nonzero,
            fun _ => .inr fails⟩
          simp only [climb, found, ok_bind, inName, Except.mapError, last, pure_ok]
      | inl found =>
          obtain ⟨after, dec, moved⟩ := pass_up room held node parent taken
          have last := give_back room after parent moved
          obtain ⟨rest', fewer', search⟩ := search_slots_spec (byNumber node) (t.slots parent) rest name ((findino_slots t parent node).trans listed)
          cases search with
          | inr failed =>
              obtain ⟨fails, ret, nonzero, failed⟩ := failed
              refine ⟨ret, resid, (size : Int) - written.length, buf, rest', ?_, fun _ _ => rfl, fun zero => absurd zero nonzero, fun zero => absurd zero nonzero,
                fun _ => .inr (fails_of_subset results rest fewer fails)⟩
              simp only [climb, found, ok_bind, dec, inName, Except.mapError, if_neg other, decide_eq_true parentDir, check_true, direntFindino, failed, last, pure_ok]
          | inl named =>
              have long : (slashed (names ++ [name])).length = (slashed names).length + (name.length + 1) := by
                rw [slashed_snoc, List.length_append, List.length_append, List.length_singleton]
              by_cases full : resid < name.length + 1
              · refine ⟨eNoMem, resid, (size : Int) - written.length, buf, rest', ?_, fun _ _ => rfl, fun zero => absurd zero (by decide),
                  fun zero => absurd zero (by decide), fun _ => .inl ⟨rfl, by omega⟩⟩
                simp only [climb, found, ok_bind, dec, inName, Except.mapError, if_neg other, decide_eq_true parentDir, check_true, direntFindino, named, if_pos full,
                  last, pure_ok]
              · have slash : (name ++ ['/']).length = name.length + 1 := by simp
                have next : (size : Int) - written.length - (name.length + 1 : Nat) = ((size - written.length - (name ++ ['/']).length : Nat) : Int) := by
                  rw [slash]
                  omega
                have put := put_text_ok size buf (size - written.length - (name ++ ['/']).length) (name ++ ['/']) (by omega)
                have onward := filled_put size buf (name ++ ['/']) written filled (by omega)
                have length : (name ++ ['/'] ++ written).length = name.length + 1 + written.length := by rw [List.length_append, slash]
                obtain ⟨ret, resid', ptr', buf', rest'', run, climbed⟩ := ih after moved (resid - (name.length + 1)) n (name ++ ['/'] ++ written) _ rest' (by omega)
                  (by omega) onward
                rw [show (size : Int) - (name ++ ['/'] ++ written).length = ((size - written.length - (name ++ ['/']).length : Nat) : Int) by omega] at run
                refine ⟨ret, resid', ptr', buf', rest'', ?_, ?_⟩
                · simp only [climb, found, ok_bind, dec, inName, Except.mapError, if_neg other, decide_eq_true parentDir, check_true, direntFindino, named, if_neg full,
                    next, put, run]
                · rw [slashed_snoc]
                  refine ⟨fun pos past => ?_, fun zero => ?_, fun zero => ?_, fun bad => ?_⟩
                  · rw [climbed.outside pos past, overlay_outside _ _ _ _ (by omega)]
                  · rw [List.append_assoc]
                    exact climbed.done zero
                  · have below := climbed.fits zero
                    rw [List.length_append]
                    omega
                  · cases climbed.why bad with
                    | inl small =>
                        refine .inl ⟨small.1, ?_⟩
                        rw [List.length_append]
                        omega
                    | inr fails => exact .inr (fails_of_subset results rest fewer (fails_of_subset rest rest' fewer' fails))

-- The text and its null.
def nameText (names : List (List Char)) : List Char := '/' :: slashed names ++ [nul]

theorem taken_range (size : Nat) (buf : Nat → Char) (written : List Char) (filled : Filled size buf written) :
    ((List.range written.length).map fun i => buf (size - written.length + i)) = written := by
  refine List.ext_getElem (by simp) fun i first second => ?_
  rw [List.getElem_map, List.getElem_range, filled.2 i second, List.getD_eq_getElem _ _ second]

-- The text is moved to the second place, and the slash and the null are put around it.
theorem overlay_text (text : List Char) (buf : Nat → Char) :
    ∀ i, i < text.length + 2 → overlay (overlay (overlay buf 1 text) 0 ['/']) (1 + text.length) [nul] i = ('/' :: text ++ [nul]).getD i nul := by
  intro i bound
  by_cases last : i = 1 + text.length
  · have here := overlay_inside (overlay (overlay buf 1 text) 0 ['/']) (1 + text.length) [nul] 0 (by decide)
    rw [Nat.add_zero, ← last] at here
    rw [← last, here, List.getD_append_right _ _ _ _ (by rw [List.length_cons]; omega), last, List.length_cons, Nat.add_comm, Nat.sub_self]
  · rw [overlay_outside _ _ _ i (by omega)]
    cases i with
    | zero => rfl
    | succ i =>
        rw [overlay_outside _ _ _ _ (.inr (by simp)), Nat.add_comm i 1, overlay_inside _ _ _ _ (by omega), Nat.add_comm 1 i,
          List.getD_append _ _ _ _ (by rw [List.length_cons]; omega), List.getD_cons_succ]

-- What sfs_namefile does when the climb has put the whole text at the end of the buffer.
theorem namefile_finish (v : Mounts N) (t : SfsTree N) (fuel size : Nat) (held : Counts N) (node : N) (buf : Nat → Char) (results : List Int) (after : Counts N)
    (resid : Nat) (text : List Char) (buf' : Nat → Char) (rest : List Int) (large : ¬ size ≤ 2)
    (run : climb v t size fuel (refInc held node) node (size - 2) size buf results = .ok (after, 0, resid, (size : Int) - text.length, buf', rest))
    (place : resid + 2 + text.length = size) (filled : Filled size buf' text) :
    sfsNamefile v t fuel size held node buf results =
      .ok (after, 0, overlay (overlay (overlay buf' 1 text) 0 ['/']) (1 + text.length) [nul], text.length, rest) := by
  have used : size - resid - 2 = text.length := by omega
  have inside : (0 : Int) ≤ (size : Int) - text.length ∧ (size : Int) - text.length + text.length ≤ size := by omega
  have begin : ((size : Int) - text.length).toNat = size - text.length := by omega
  have moved := put_text_ok size buf' 1 text (by omega)
  have slash := put_text_ok size (overlay buf' 1 text) 0 ['/'] (by simp only [List.length_singleton]; omega)
  have null := put_text_ok size (overlay (overlay buf' 1 text) 0 ['/']) (1 + text.length) [nul] (by rw [List.length_singleton]; omega)
  simp only [Nat.cast_one, Nat.cast_zero, Nat.cast_add] at moved slash null
  simp only [sfsNamefile, if_neg large, run, ok_bind, ne_eq, not_true_eq_false, if_false, used, decide_eq_true inside, check_true, begin, taken_range size buf' _ filled,
    moved, slash, null, pure_ok]

section Shown

-- The climb where nothing fails but what the tree of directories says: its text is at
-- the end of the buffer.
inductive ClimbShown (size : Nat) : Except CwdFault (Counts N × Except Int (List Char)) →
    Except NameFault (Counts N × Int × Nat × Int × (Nat → Char) × List Int) → Prop where
  | stuck (fault : Fault) : ClimbShown size (.error (.vfs fault)) (.error (.vfs fault))
  | tired : ClimbShown size (.error .outOfFuel) (.error .outOfFuel)
  | failed (after : Counts N) (ret : Int) (resid : Nat) (ptr : Int) (buf : Nat → Char) (bad : ret ≠ 0) :
      ClimbShown size (.ok (after, .error ret)) (.ok (after, ret, resid, ptr, buf, []))
  | named (after : Counts N) (text : List Char) (resid : Nat) (buf : Nat → Char) (place : resid + 2 + text.length = size) (filled : Filled size buf text) :
      ClimbShown size (.ok (after, .ok text)) (.ok (after, 0, resid, (size : Int) - text.length, buf, []))

omit [DecidableEq N] in
theorem search_slots_quiet {α : Type} (wanted : DiskEntry N → Option α) (slots : List (DiskEntry N)) :
    searchSlots wanted slots [] = ((slots.findSome? wanted).elim (.error eNoEnt) .ok, []) := by
  induction slots with
  | nil => rfl
  | cons slot slots ih =>
      rw [List.findSome?_cons]
      cases own : wanted slot with
      | some value => simp [searchSlots, nextResult, own]
      | none => simp [searchSlots, nextResult, own, ih]

theorem lookup_once_quiet (t : SfsTree N) (held : Counts N) (dir : N) (name : List Char) :
    sfsLookupOnce t held dir name [] = (inName (Vfs.sfsLookupOnce t held dir name)).map fun reply => (reply.1, reply.2, []) := by
  rw [sfsLookupOnce, Vfs.sfsLookupOnce, direntSearch, Vfs.direntSearch]
  by_cases short : name.length ≤ maxFnameLen
  · simp only [decide_eq_true short, check_true, ok_bind, nextResult, ne_eq, not_true_eq_false, if_false, pure_ok, search_slots_quiet, entry_slots]
    cases t.entry dir name with
    | none => rfl
    | some node =>
        simp only [Option.elim_some, inName]
        cases sfsLoadInode t held node with
        | error fault => rfl
        | ok after => rfl
  · simp only [decide_eq_false short, check_false, error_bind]
    rfl

theorem lookup_once_failed (t : SfsTree N) (held after : Counts N) (dir : N) (name : List Char) (ret : Int)
    (ran : Vfs.sfsLookupOnce t held dir name = .ok (after, .error ret)) : ret = eNoEnt := by
  obtain ⟨found, _, ran⟩ := bind_ok ran
  cases found with
  | none =>
      simp only [pure_ok, Except.ok.injEq, Prod.mk.injEq, Except.error.injEq] at ran
      exact ran.2.symm
  | some node =>
      obtain ⟨_, _, ran⟩ := bind_ok ran
      simp only [pure_ok, Except.ok.injEq, Prod.mk.injEq, reduceCtorEq, and_false] at ran

variable (v : Mounts N) (t : SfsTree N) (size : Nat)

theorem climb_shown (fuel : Nat) (held : Counts N) (node : N) (resid : Nat) (written : List Char) (buf : Nat → Char)
    (place : resid + 2 + written.length = size) (filled : Filled size buf written) :
    ClimbShown size (Vfs.climb v t held node resid written fuel) (climb v t size fuel held node resid ((size : Int) - written.length) buf []) := by
  induction fuel generalizing held node resid written buf with
  | zero => exact .tired
  | succ fuel ih =>
      rw [Vfs.climb, climb, lookup_once_quiet]
      cases looked : Vfs.sfsLookupOnce t held node ['.', '.'] with
      | error fault => exact .stuck fault
      | ok reply =>
          obtain ⟨mid, found⟩ := reply
          simp only [inCwd, inName, Except.mapError, Except.map, ok_bind]
          cases found with
          | error ret =>
              have code := lookup_once_failed t held mid node _ ret looked
              simp only
              cases refDec v mid node with
              | error fault => exact .stuck fault
              | ok last => exact .failed last ret _ _ _ (code ▸ (by decide))
          | ok parent =>
              simp only
              cases refDec v mid node with
              | error fault => exact .stuck fault
              | ok last =>
                  simp only [ok_bind]
                  by_cases top : node = parent
                  · rw [if_pos top, if_pos top]
                    cases refDec v last node with
                    | error fault => exact .stuck fault
                    | ok final => exact .named final written resid buf place filled
                  · rw [if_neg top, if_neg top]
                    by_cases dir : v.kind parent = .dir
                    · simp only [decide_eq_true dir, check_true, ok_bind, direntFindino, search_slots_quiet, findino_slots]
                      cases Vfs.direntFindino t parent node with
                      | none =>
                          simp only [Option.elim_none]
                          cases refDec v last parent with
                          | error fault => exact .stuck fault
                          | ok final => exact .failed final eNoEnt _ _ _ (by decide)
                      | some name =>
                          simp only [Option.elim_some]
                          by_cases full : resid < name.length + 1
                          · rw [if_pos full, if_pos full]
                            cases refDec v last parent with
                            | error fault => exact .stuck fault
                            | ok final => exact .failed final eNoMem _ _ _ (by decide)
                          · rw [if_neg full, if_neg full]
                            have slash : (name ++ ['/']).length = name.length + 1 := by simp
                            have length : (name ++ '/' :: written).length = name.length + 1 + written.length := by
                              rw [List.length_append, List.length_cons]
                              omega
                            have next : (size : Int) - written.length - (name.length + 1 : Nat) = ((size - written.length - (name ++ ['/']).length : Nat) : Int) := by
                              rw [slash]
                              omega
                            have onward := filled_put size buf (name ++ ['/']) written filled (by omega)
                            rw [List.append_assoc, List.singleton_append] at onward
                            have later := ih last parent (resid - (name.length + 1)) (name ++ '/' :: written) _ (by omega) onward
                            rw [show (size : Int) - (name ++ '/' :: written).length = ((size - written.length - (name ++ ['/']).length : Nat) : Int) by omega] at later
                            simp only [next, put_text_ok size buf (size - written.length - (name ++ ['/']).length) (name ++ ['/']) (by omega), ok_bind]
                            exact later
                    · simp only [decide_eq_false dir, check_false, error_bind]
                      exact .stuck _

-- sfs_namefile in the same way: the text is at the start of the buffer, and behind it a
-- null.
inductive NameShown (size : Nat) : Except CwdFault (Counts N × Except Int (List Char)) →
    Except NameFault (Counts N × Int × (Nat → Char) × Nat × List Int) → Prop where
  | stuck (fault : Fault) : NameShown size (.error (.vfs fault)) (.error (.vfs fault))
  | tired : NameShown size (.error .outOfFuel) (.error .outOfFuel)
  | failed (after : Counts N) (ret : Int) (buf : Nat → Char) (bad : ret ≠ 0) : NameShown size (.ok (after, .error ret)) (.ok (after, ret, buf, 0, []))
  | named (after : Counts N) (text : List Char) (buf : Nat → Char) (fits : text.length + 2 ≤ size)
      (stored : ∀ i, i < text.length + 2 → buf i = ('/' :: text ++ [nul]).getD i nul) :
      NameShown size (.ok (after, .ok ('/' :: text))) (.ok (after, 0, buf, text.length, []))

theorem namefile_shown (fuel : Nat) (held : Counts N) (node : N) (buf : Nat → Char) :
    NameShown size (Vfs.sfsNamefile v t fuel held node size) (sfsNamefile v t fuel size held node buf []) := by
  by_cases small : size ≤ 2
  · rw [Vfs.sfsNamefile, sfsNamefile, if_pos small, if_pos small]
    exact .failed held eNoMem buf (by decide)
  · have climbs := climb_shown v t size fuel (refInc held node) node (size - 2) [] buf (by simp only [List.length_nil]; omega)
      ⟨Nat.zero_le _, fun i bound => absurd bound (Nat.not_lt_zero i)⟩
    rw [List.length_nil, Nat.cast_zero, Int.sub_zero] at climbs
    generalize tree : Vfs.climb v t (refInc held node) node (size - 2) [] fuel = left at climbs
    generalize run : climb v t size fuel (refInc held node) node (size - 2) size buf [] = right at climbs
    cases climbs with
    | stuck fault =>
        simp only [Vfs.sfsNamefile, sfsNamefile, if_neg small, tree, run, error_bind]
        exact .stuck fault
    | tired =>
        simp only [Vfs.sfsNamefile, sfsNamefile, if_neg small, tree, run, error_bind]
        exact .tired
    | failed after ret resid ptr buf' bad =>
        simp only [Vfs.sfsNamefile, sfsNamefile, if_neg small, tree, run, ok_bind, ne_eq, bad, not_false_eq_true, if_true, pure_ok]
        exact .failed after ret buf' bad
    | named after text resid buf' place filled =>
        rw [namefile_finish v t fuel size held node buf [] after resid text buf' [] small run place filled]
        simp only [Vfs.sfsNamefile, if_neg small, tree, ok_bind, pure_ok]
        exact .named after text _ (by omega) (overlay_text text buf')

end Shown

-- In a chain of directories the text is exact and inside the buffer, and the counts are as before in every case.
theorem namefile_exact (room : Room v c 2) (plain : ∀ node, v.kind node = .dir → t.link node = false) (root node : N) (names : List (List Char))
    (nested : Nested v t root node names) (size fuel : Nat) (buf : Nat → Char) (results : List Int) (rounds : names.length < fuel) :
    ∃ ret buf' used rest, sfsNamefile v t fuel size c node buf results = .ok (c, ret, buf', used, rest) ∧ (∀ pos, size ≤ pos → buf' pos = buf pos) ∧
      (ret = 0 → used = (slashed names).length ∧ 2 < size ∧ (nameText names).length ≤ size ∧ ∀ i, i < (nameText names).length → buf' i = (nameText names).getD i nul) ∧
      (¬ Fails results → ret = if size ≤ 2 ∨ size < (nameText names).length then eNoMem else 0) ∧ (ret ≠ 0 → ret = eNoMem ∨ Fails results) := by
  have length : (nameText names).length = (slashed names).length + 2 := by
    rw [nameText, List.length_append, List.length_cons, List.length_singleton]
  by_cases small : size ≤ 2
  · refine ⟨eNoMem, buf, 0, results, ?_, fun _ _ => rfl, fun zero => absurd zero (by decide), fun _ => (if_pos (.inl small)).symm, fun _ => .inl rfl⟩
    simp only [sfsNamefile, if_pos small, pure_ok]
  · obtain ⟨ret, resid', ptr', buf', rest, run, climbed⟩ := climb_spec room plain size root node names nested (refInc c node) (ref_inc_moved c node) (size - 2) fuel [] buf
      results rounds (by simp only [List.length_nil]; omega) ⟨Nat.zero_le _, fun i bound => absurd bound (Nat.not_lt_zero i)⟩
    rw [List.length_nil, Nat.cast_zero, Int.sub_zero] at run
    by_cases zero : ret = 0
    · subst zero
      obtain ⟨place, start, filled⟩ := climbed.done rfl
      have fits := climbed.fits rfl
      rw [List.append_nil] at place start filled
      rw [start] at run
      have finish := namefile_finish v t fuel size c node buf results c resid' (slashed names) buf' rest small run place filled
      refine ⟨0, _, (slashed names).length, rest, ?_, fun pos past => ?_, fun _ => ⟨rfl, by omega, by omega,
          fun i bound => overlay_text (slashed names) buf' i (by omega)⟩, fun _ => ?_, fun bad => absurd rfl bad⟩
      · exact finish
      · rw [overlay_outside _ _ _ _ (.inr (by rw [List.length_singleton]; omega)), overlay_outside _ _ _ _ (.inr (by rw [List.length_singleton]; omega)),
          overlay_outside _ _ _ _ (.inr (by omega)), climbed.outside pos past]
      · rw [if_neg (by omega)]
    · refine ⟨ret, buf', 0, rest, ?_, climbed.outside, fun same => absurd same zero, fun none => ?_, fun _ => ?_⟩
      · simp only [sfsNamefile, if_neg small, run, ok_bind, ne_eq, zero, not_false_eq_true, if_true, pure_ok]
      · cases climbed.why zero with
        | inl full => rw [if_pos (.inr (by omega)), full.1]
        | inr fails => exact absurd fails none
      · exact (climbed.why zero).imp And.left id

end Climb

-- The directory a of disk0, whose name takes four characters, with a buffer for them and with a smaller one.
theorem namefile_exact_disk : ∃ ret buf' used rest, sfsNamefile diskMounts diskTree 2 4 oneEach 1 (fun _ => 'x') [] = .ok (oneEach, ret, buf', used, rest) ∧
    ret = 0 ∧ buf' 0 = '/' ∧ buf' 1 = 'a' ∧ buf' 2 = '/' ∧ buf' 3 = nul ∧ ∀ pos, 4 ≤ pos → buf' pos = 'x' := by
  obtain ⟨_, _, room, _⟩ := disk_sound
  obtain ⟨ret, buf', used, rest, run, outside, text, exact, _⟩ :=
    namefile_exact (room_weaken room 2 (by omega)) (fun _ _ => rfl) 0 1 [['a']] disk_nested.2 4 2 (fun _ => 'x') [] (by decide)
  have zero : ret = 0 := exact fun fails => by
    obtain ⟨_, member, _⟩ := fails
    cases member
  obtain ⟨_, _, _, chars⟩ := text zero
  exact ⟨ret, buf', used, rest, run, zero, chars 0 (by decide), chars 1 (by decide), chars 2 (by decide), chars 3 (by decide), outside⟩

end Ucore.Vfs.Namefile
