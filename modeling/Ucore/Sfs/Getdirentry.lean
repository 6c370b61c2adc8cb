import Ucore.Sfs.Dirent

set_option autoImplicit false

namespace Ucore.Sfs

open Ucore.Lib

-- One call after the other with the same dirent. An answer is the name or the code.
def listing (sfs : SfsFs) (sin : SfsInode) (direntp : Dirent) :
    List (Option Bytes) → Except Fault (List (Except Int (List UInt8)) × Dirent × SfsFs × SfsInode)
  | [] => .ok ([], direntp, sfs, sin)
  | entry :: rest => do
      let (ret, direntp, sfs, sin) ← fileGetdirentry entry sfs sin direntp
      let (answers, last, sfs, sin) ← listing sfs sin direntp rest
      return ((if ret = 0 then .ok (nameRecord direntp.name) else .error ret) :: answers, last, sfs, sin)

def delivered (answers : List (Except Int (List UInt8))) : List (List UInt8) := answers.filterMap Except.toOption

section Calls

variable (s : SfsFs) (sin : SfsInode)

theorem getdirentry_rejects (entry : Option Bytes) (buf : Bytes) (resid : Nat) (offset : Int) (bad : offset < 0 ∨ offset % dentrySize ≠ 0) :
    sfsGetdirentry entry s sin buf resid offset = .ok (if entry.isSome then eInval else eNoMem, buf, 0, s, sin) := by
  cases entry with
  | none => rfl
  | some entry => simp only [sfsGetdirentry, if_pos bad, Option.isSome_some, if_true]

theorem used_slots_length (din : SfsDiskInode) (rounds : Nat) : (usedSlots s din 0 rounds).length ≤ rounds := by
  have fewer := List.length_filter_le (fun i => decide (slotIno s din i ≠ 0)) (List.range' 0 rounds)
  rwa [List.length_range'] at fewer

theorem dir_names_quiet (t : SfsFs) (quiet : Quiet s t) (din : SfsDiskInode) : dirNames t din = dirNames s din := by
  rw [dirNames, used_quiet s t quiet, slot_name_quiet s t quiet, ← dirNames]

theorem next_offset (k : Nat) (small : k ≤ 1036) : toOff ((dentrySize : Int) * k + dentrySize) = dentrySize * (k + 1 : Nat) := by
  have size : (dentrySize : Int) = 256 := rfl
  rw [size, toOff, Int.bmod_eq_of_le (by omega) (by omega)]
  omega

-- The call at the k-th name delivers it, or leaves the offset where it is.
theorem file_getdirentry_step (entry : Option Bytes) (direntp : Dirent) (k : Nat) (mounted : Mounted s) (stored : StoredDir s sin.din)
    (start : direntp.offset = dentrySize * k) (inside : k ≤ (dirNames s sin.din).length) :
    ∃ ret direntp' t, Quiet s t ∧ fileGetdirentry entry s sin direntp = .ok (ret, direntp', t, sin) ∧
      (ret = 0 → (dirNames s sin.din)[k]? = some (nameRecord direntp'.name) ∧ direntp'.offset = dentrySize * (k + 1 : Nat)) ∧
      (ret ≠ 0 → direntp'.offset = dentrySize * k) ∧
      (entry.isSome → s.dev.results = [] → ret = if k < (dirNames s sin.din).length then 0 else eNoEnt) := by
  cases entry with
  | none =>
      refine ⟨eNoMem, direntp, s, quiet_refl s, ?_, fun same => absurd same (by decide), fun _ => start, fun memory => by cases memory⟩
      simp only [fileGetdirentry, sfsGetdirentry, ok_bind, pure_ok, if_neg (show ¬ eNoMem = 0 by decide)]
  | some entry =>
      have count : (dirNames s sin.din).length = (usedSlots s sin.din 0 sin.din.blocks).length := List.length_map _
      have few := used_slots_length s sin.din sin.din.blocks
      have bounded := stored.bounded
      have small : k ≤ 1036 := by omega
      have whole : toInt (sin.din.blocks : Int) = sin.din.blocks := Int.bmod_eq_of_le (by omega) (by omega)
      have proper : ¬ (direntp.offset < 0 ∨ direntp.offset % dentrySize ≠ 0) := by
        rw [start]
        simp only [dentrySize, maxFnameLen]
        omega
      have slotK : toInt (direntp.offset / dentrySize) = k := by
        rw [start, Int.mul_ediv_cancel_left _ (by decide)]
        exact Int.bmod_eq_of_le (by omega) (by omega)
      have near : ¬ (sin.din.blocks : Int) < (k : Int) % 2 ^ 32 := by omega
      obtain ⟨ret, entry', t, quiet, named, code, scan⟩ := getdirentry_loop_spec s sin k sin.din.blocks entry 0 mounted stored (by omega)
      have sub : sfsGetdirentrySubNolock s sin k entry = .ok (ret, entry', t, sin) := by
        rw [sfsGetdirentrySubNolock, whole, Int.toNat_natCast, scan]
      rw [count]
      by_cases failed : ret = 0
      · subst failed
        obtain ⟨j, here, entryOf⟩ := named rfl
        refine ⟨0, ⟨toOff (direntp.offset + dentrySize), memcpy direntp.name 0 (entryName entry') dentrySize⟩, t, quiet, ?_, fun _ => ⟨?_, ?_⟩,
          fun none => absurd rfl none, fun _ => code⟩
        · simp only [fileGetdirentry, sfsGetdirentry, if_neg proper, slotK, if_neg near, sub, ok_bind, pure_ok, ne_eq, not_true_eq_false, if_false, iobufMove,
            Nat.lt_irrefl, Nat.sub_self, if_true]
        · rw [dirNames, List.getElem?_map, here, Option.map_some, ← entryOf.name]
          refine congrArg some (List.map_congr_left fun b member => Eq.symm ?_)
          exact memcpy_inside _ _ _ _ b (Nat.zero_le b) (by simpa using List.mem_range.mp member)
        · show toOff (direntp.offset + dentrySize) = _
          rw [start, next_offset k small]
      · refine ⟨ret, direntp, t, quiet, ?_, fun same => absurd same failed, fun _ => start, fun _ => code⟩
        simp only [fileGetdirentry, sfsGetdirentry, if_neg proper, slotK, if_neg near, sub, ok_bind, pure_ok, ne_eq, if_pos failed, if_neg failed]

theorem listing_delivers (calls : List (Option Bytes)) (direntp : Dirent) (k : Nat) (mounted : Mounted s) (stored : StoredDir s sin.din)
    (start : direntp.offset = dentrySize * k) (inside : k ≤ (dirNames s sin.din).length) :
    ∃ answers last t, listing s sin direntp calls = .ok (answers, last, t, sin) ∧ Quiet s t ∧
      delivered answers = ((dirNames s sin.din).drop k).take (delivered answers).length ∧
      last.offset = dentrySize * (k + (delivered answers).length : Nat) := by
  induction calls generalizing s direntp k with
  | nil => exact ⟨[], direntp, s, rfl, quiet_refl s, rfl, start⟩
  | cons entry rest ih =>
      obtain ⟨ret, next, t, quiet, call, gives, stays, _⟩ := file_getdirentry_step s sin entry direntp k mounted stored start inside
      have onward := ih t next
      rw [dir_names_quiet s t quiet] at onward
      by_cases failed : ret = 0
      · obtain ⟨name, moved⟩ := gives failed
        obtain ⟨below, here⟩ := List.getElem?_eq_some_iff.mp name
        obtain ⟨answers, last, u, later, quietU, taken, final⟩ :=
          onward (k + 1) (quiet_mounted s t quiet mounted) (stored_quiet s t quiet sin.din stored) moved below
        refine ⟨.ok (nameRecord next.name) :: answers, last, u, ?_, quiet_trans s t u quiet quietU, ?_, ?_⟩
        · simp only [listing, call, ok_bind, later, pure_ok, if_pos failed]
        · simp only [delivered, List.filterMap_cons, Except.toOption, List.length_cons] at taken ⊢
          rw [List.drop_eq_getElem_cons below, List.take_succ_cons, ← taken, here]
        · simp only [delivered, List.filterMap_cons, Except.toOption, List.length_cons] at final ⊢
          rw [final]
          congr 2
          omega
      · obtain ⟨answers, last, u, later, quietU, taken, final⟩ :=
          onward k (quiet_mounted s t quiet mounted) (stored_quiet s t quiet sin.din stored) (stays failed) inside
        refine ⟨.error ret :: answers, last, u, ?_, quiet_trans s t u quiet quietU, taken, final⟩
        simp only [listing, call, ok_bind, later, pure_ok, if_neg failed]

theorem listing_exact (calls : List (Option Bytes)) (direntp : Dirent) (k : Nat) (mounted : Mounted s) (stored : StoredDir s sin.din)
    (start : direntp.offset = dentrySize * k) (inside : k ≤ (dirNames s sin.din).length) (clear : s.dev.results = [])
    (memory : ∀ entry ∈ calls, entry.isSome) :
    ∃ last t, listing s sin direntp calls = .ok
      ((((dirNames s sin.din).drop k).take calls.length).map .ok ++ List.replicate (calls.length - ((dirNames s sin.din).length - k)) (.error eNoEnt), last, t, sin) := by
  induction calls generalizing s direntp k with
  | nil => exact ⟨direntp, s, by simp [listing]⟩
  | cons entry rest ih =>
      obtain ⟨ret, next, t, quiet, call, gives, stays, code⟩ := file_getdirentry_step s sin entry direntp k mounted stored start inside
      have onward := ih t next
      rw [dir_names_quiet s t quiet] at onward
      have answer := code (memory entry (by simp)) clear
      by_cases below : k < (dirNames s sin.din).length
      · rw [if_pos below] at answer
        obtain ⟨name, moved⟩ := gives answer
        obtain ⟨_, here⟩ := List.getElem?_eq_some_iff.mp name
        obtain ⟨last, u, later⟩ := onward (k + 1) (quiet_mounted s t quiet mounted) (stored_quiet s t quiet sin.din stored) moved below
          (quiet_results s t quiet clear) fun entry member => memory entry (List.mem_cons_of_mem _ member)
        have rest' : rest.length + 1 - ((dirNames s sin.din).length - k) = rest.length - ((dirNames s sin.din).length - (k + 1)) := by omega
        refine ⟨last, u, ?_⟩
        simp only [listing, call, ok_bind, later, pure_ok, if_pos answer, List.length_cons, List.drop_eq_getElem_cons below, List.take_succ_cons, List.map_cons,
          here, rest', List.cons_append]
      · rw [if_neg below] at answer
        obtain ⟨last, u, later⟩ := onward k (quiet_mounted s t quiet mounted) (stored_quiet s t quiet sin.din stored) (stays (by simp [answer, eNoEnt])) inside
          (quiet_results s t quiet clear) fun entry member => memory entry (List.mem_cons_of_mem _ member)
        have none : (dirNames s sin.din).length - k = 0 := by omega
        have past : (dirNames s sin.din).drop k = [] := List.drop_eq_nil_of_le (by omega)
        refine ⟨last, u, ?_⟩
        simp only [listing, call, ok_bind, later, pure_ok, answer, if_neg (show ¬ eNoEnt = 0 by decide), none, past, List.take_nil, List.map_nil, List.nil_append, Nat.sub_zero,
          List.length_cons, List.replicate_succ]

-- In every run from offset 0 the successful calls deliver the names of the used slots in order;
-- with memory and a working device nothing else happens before the last, and E_NOENT after it.
theorem directory_listed (name : Bytes) (mounted : Mounted s) (stored : StoredDir s sin.din) :
    (∀ calls, ∃ answers last t, listing s sin ⟨0, name⟩ calls = .ok (answers, last, t, sin) ∧
      delivered answers = (dirNames s sin.din).take (delivered answers).length ∧ last.offset = dentrySize * (delivered answers).length) ∧
    (∀ calls, s.dev.results = [] → (∀ entry ∈ calls, entry.isSome) → ∃ last t, listing s sin ⟨0, name⟩ calls = .ok
      (((dirNames s sin.din).take calls.length).map .ok ++ List.replicate (calls.length - (dirNames s sin.din).length) (.error eNoEnt), last, t, sin)) ∧
    ∀ entry buf resid, ∀ offset : Int, offset < 0 ∨ offset % dentrySize ≠ 0 →
      sfsGetdirentry entry s sin buf resid offset = .ok (if entry.isSome then eInval else eNoMem, buf, 0, s, sin) := by
  refine ⟨fun calls => ?_, fun calls clear memory => ?_, fun entry buf resid offset bad => getdirentry_rejects s sin entry buf resid offset bad⟩
  · obtain ⟨answers, last, t, run, _, taken, final⟩ := listing_delivers s sin calls ⟨0, name⟩ 0 mounted stored rfl (Nat.zero_le _)
    rw [Nat.zero_add] at final
    exact ⟨answers, last, t, run, taken, final⟩
  · exact listing_exact s sin calls ⟨0, name⟩ 0 mounted stored rfl (Nat.zero_le _) clear memory

end Calls

-- A directory of four slots: the first and the third are empty, the others name a and b.
def namedEntry (ino : Nat) (letter : UInt8) : Bytes := memcpy (memcpy zeroBytes 0 (toLe ino) 4) 4 (fun _ => letter) 1

def sparseFs : SfsFs := ((freshVolume 4).sfs.store 4 (namedEntry 3 97)).store 6 (namedEntry 5 98)

def sparseDir : SfsInode := ⟨⟨4 * blkSize, typeDir, 2, 4, fun i => if i < 4 then i + 3 else 0, 0⟩, 7, false⟩

theorem sparse_stored : Mounted sparseFs ∧ StoredDir sparseFs sparseDir.din := by
  have fresh := fresh_image 4 (by omega)
  refine ⟨store_mounted _ _ _ (store_mounted _ _ _ fresh.wellFormed.mounted), rfl, by decide, fun b refers => ?_⟩
  rcases refers with ⟨same, named⟩ | ⟨i, below, same⟩
  · exact absurd same named
  · have inside : i < 4 := below
    have kept := fresh.kept (i + 3) (by simp only [freshReserved]; omega)
    have here : b = i + 3 := by
      rw [← same, slot_direct _ _ i (by omega)]
      exact if_pos inside
    subst here
    exact ⟨by omega, kept⟩

theorem directory_listed_sparse :
    (dirNames sparseFs sparseDir.din).map (List.take 2) = [[97, 0], [98, 0]] ∧
      ∃ last t, listing sparseFs sparseDir ⟨0, zeroBytes⟩ [some zeroBytes, some zeroBytes, some zeroBytes] =
        .ok ((dirNames sparseFs sparseDir.din).map .ok ++ [.error eNoEnt], last, t, sparseDir) := by
  have two : (dirNames sparseFs sparseDir.din).map (List.take 2) = [[97, 0], [98, 0]] := by decide +kernel
  have length : (dirNames sparseFs sparseDir.din).length = 2 := by
    have mapped := congrArg List.length two
    rwa [List.length_map] at mapped
  obtain ⟨mounted, stored⟩ := sparse_stored
  obtain ⟨_, working, _⟩ := directory_listed sparseFs sparseDir zeroBytes mounted stored
  obtain ⟨last, t, listed⟩ := working [some zeroBytes, some zeroBytes, some zeroBytes] rfl (by simp)
  refine ⟨two, last, t, listed.trans ?_⟩
  rw [length, List.take_of_length_le (by rw [length]; decide)]
  rfl

end Ucore.Sfs
