import Ucore.Sfs.FileSizes

set_option autoImplicit false

namespace Ucore.Sfs

open Ucore.Lib

variable {n : Nat}

-- The panic of sfs_bmap_get_nolock, or the assertion of sfs_bmap_load_nolock.
def IndexPanic {α : Type} (outcome : Except Fault α) : Prop := outcome = .error .indexOutOfRange ∨ outcome = .error .indexPastBlocks

def Returns {α : Type} (outcome : Except Fault α) : Prop := ∃ result, outcome = .ok result

-- The file grows to at most the mapped blocks, or the free blocks run out before
-- the last of them is in place.
def GrowthStops (s : SfsFs) (din : SfsDiskInode) (blocks : Nat) : Prop :=
  blocks ≤ 1036 ∨ s.super.unusedBlocks < needBlocks din (1036 - din.blocks)

instance (s : SfsFs) (din : SfsDiskInode) (blocks : Nat) : Decidable (GrowthStops s din blocks) :=
  inferInstanceAs (Decidable (blocks ≤ 1036 ∨ s.super.unusedBlocks < needBlocks din (1036 - din.blocks)))

def TruncSafe (s : SfsFs) (din : SfsDiskInode) (len : Int) : Prop :=
  0 ≤ len ∧ len ≤ maxFileSize → (din.size : Int) ≠ len → GrowthStops s din (blocksOf len.toNat)

-- The assertion of sfs_truncfile when the length stays.
def TruncAgrees (din : SfsDiskInode) (len : Int) : Prop := (din.size : Int) = len → len ≤ maxFileSize → din.blocks = blocksOf len.toNat

-- The calls that keep their indices in range, by the state before them.
def IndexSafe (s : SfsFs) (din : SfsDiskInode) : FileCall → Prop
  | .io _ offset resid write => write = true → Moves offset resid →
      offset.toNat / 4096 ≤ din.blocks ∧ GrowthStops s din (blocksOf (ioEnd offset resid))
  | .truncfile len => TruncSafe s din len
  | .tryseek pos => 0 ≤ pos ∧ pos < maxFileSize ∧ din.size < pos → TruncSafe s din pos

def CallAgrees (din : SfsDiskInode) : FileCall → Prop
  | .truncfile len => TruncAgrees din len
  | _ => True

instance (s : SfsFs) (din : SfsDiskInode) (len : Int) : Decidable (TruncSafe s din len) :=
  inferInstanceAs (Decidable (0 ≤ len ∧ len ≤ maxFileSize → (din.size : Int) ≠ len → GrowthStops s din (blocksOf len.toNat)))

instance (s : SfsFs) (din : SfsDiskInode) (call : FileCall) : Decidable (IndexSafe s din call) :=
  match call with
  | .io _ offset resid write => inferInstanceAs (Decidable (write = true → Moves offset resid →
      offset.toNat / 4096 ≤ din.blocks ∧ GrowthStops s din (blocksOf (ioEnd offset resid))))
  | .truncfile len => inferInstanceAs (Decidable (TruncSafe s din len))
  | .tryseek pos => inferInstanceAs (Decidable (0 ≤ pos ∧ pos < maxFileSize ∧ din.size < pos → TruncSafe s din pos))

-- A call returns where it is safe, and runs into the index check elsewhere.
def Settled {α : Type} (safe : Prop) (outcome : Except Fault α) : Prop := (safe ∧ Returns outcome) ∨ (¬ safe ∧ IndexPanic outcome)

theorem settled_returns {α : Type} (safe : Prop) (outcome : Except Fault α) (settled : Settled safe outcome) :
    Returns outcome ↔ safe := by
  rcases settled with ⟨yes, returned⟩ | ⟨no, panicked | panicked⟩
  · exact ⟨fun _ => yes, fun _ => returned⟩
  · simp [Returns, panicked, no]
  · simp [Returns, panicked, no]

theorem settled_panics {α : Type} (safe : Prop) (outcome : Except Fault α) (settled : Settled safe outcome) :
    IndexPanic outcome ↔ ¬ safe := by
  rcases settled with ⟨yes, result, returned⟩ | ⟨no, panicked⟩
  · simp [IndexPanic, returned, yes]
  · exact ⟨fun _ => no, fun _ => panicked⟩

theorem settled_bind {α β : Type} (safe : Prop) (outcome : Except Fault α) (next : α → β) (settled : Settled safe outcome) :
    Settled safe (outcome.bind fun result => .ok (next result)) := by
  rcases settled with ⟨yes, result, returned⟩ | ⟨no, panicked | panicked⟩
  · exact Or.inl ⟨yes, next result, by rw [returned]; rfl⟩
  · exact Or.inr ⟨no, Or.inl (by rw [panicked]; rfl)⟩
  · exact Or.inr ⟨no, Or.inr (by rw [panicked]; rfl)⟩

section Calls

variable (others : Nat → Prop) (s : SfsFs) (i : SfsInode) (superOthers : others 0) (mounted : Mounted s)
  (map : FileMap s i.din others) (noFault : s.dev.results = []) (covered : i.din.size ≤ i.din.blocks * 4096)

include superOthers mounted map

include covered in
theorem read_returns (buf : Bytes) (offset : Int) (resid : Nat) (moves : Moves offset resid) :
    Returns (sfsIo s i buf offset resid false) := by
  have bounded := map.bounded
  by_cases atEnd : (i.din.size : Int) ≤ offset
  · exact ⟨_, io_read_end s i buf offset resid map.type moves atEnd⟩
  · have nonneg := moves.1
    rcases io_read_spec others s i buf offset resid superOthers mounted map moves (by omega) (by omega) with
      ⟨_, exceeds⟩ | ⟨ret, s', m, ran, _⟩
    · omega
    · exact ⟨_, ran⟩

section NoFault

include noFault

theorem write_settled (buf : Bytes) (offset : Int) (resid : Nat) (moves : Moves offset resid) :
    Settled (offset.toNat / 4096 ≤ i.din.blocks ∧ GrowthStops s i.din (blocksOf (ioEnd offset resid)))
      (sfsIo s i buf offset resid true) := by
  have bounded := map.bounded
  by_cases near : offset.toNat / 4096 ≤ i.din.blocks
  · rcases io_write_spec others s i buf offset resid superOthers mounted map moves near with
      ⟨stopped, exceeds, plenty⟩ | ⟨ret, s', m, ran, grown, _, _, covers, complete, short⟩
    · have enough := plenty noFault
      refine Or.inr ⟨?_, Or.inl stopped⟩
      simp only [GrowthStops, blocksOf]
      omega
    · refine Or.inl ⟨⟨near, ?_⟩, _, ran⟩
      simp only [GrowthStops, blocksOf]
      have grownBound := grown.effect.map.bounded
      rw [grown.blocks] at grownBound
      by_cases zero : ret = 0
      · have cover := (complete zero).2
        omega
      · obtain ⟨_, behind, missing⟩ := short noFault zero
        have mono := need_mono i.din (m + 1) (1036 - i.din.blocks) (by omega)
        omega
  · exact Or.inr ⟨fun safe => near safe.1, Or.inr (io_write_past s i buf offset resid map.type moves (by omega))⟩

theorem truncfile_settled (len : Int) (agrees : TruncAgrees i.din len) : Settled (TruncSafe s i.din len) (sfsTruncfile s i len) := by
  have bounded := map.bounded
  by_cases valid : 0 ≤ len ∧ len ≤ maxFileSize
  · by_cases same : (i.din.size : Int) = len
    · refine Or.inl ⟨fun _ other => absurd same other, (0, s, i), ?_⟩
      have blocks : i.din.blocks = roundUpDiv len.toNat 4096 := agrees same valid.2
      rw [truncfile_same s i len valid same, if_pos blocks.symm]
    · by_cases up : i.din.blocks < roundUpDiv len.toNat 4096
      · rcases truncfile_grow others s i len superOthers mounted map valid same up with
          ⟨stopped, exceeds, plenty⟩ | ⟨s', i', done, grown, _⟩ | ⟨ret, s', i', m, _, failed, grown, _, short, _⟩
        · have enough := plenty noFault
          refine Or.inr ⟨fun safe => ?_, Or.inl stopped⟩
          have stops := safe valid same
          simp only [GrowthStops, blocksOf] at stops
          omega
        · have grownBound := grown.effect.map.bounded
          rw [grown.blocks] at grownBound
          refine Or.inl ⟨fun _ _ => Or.inl ?_, _, done⟩
          simp only [blocksOf]
          omega
        · obtain ⟨_, room, missing⟩ := short noFault
          have mono := need_mono i.din (m + 1) (1036 - i.din.blocks) (by omega)
          exact Or.inl ⟨fun _ _ => Or.inr (by omega), _, failed⟩
      · obtain ⟨ret, s', i', m, done, _⟩ := truncfile_shrink others s i len mounted map valid same (by omega)
        refine Or.inl ⟨fun _ _ => Or.inl ?_, _, done⟩
        simp only [blocksOf]
        omega
  · exact Or.inl ⟨fun inRange => absurd inRange valid, _, truncfile_invalid s i len valid⟩

theorem tryseek_settled (pos : Int) : Settled (0 ≤ pos ∧ pos < maxFileSize ∧ i.din.size < pos → TruncSafe s i.din pos) (sfsTryseek s i pos) := by
  by_cases invalid : pos < 0 ∨ (maxFileSize : Int) ≤ pos
  · refine Or.inl ⟨fun valid => by omega, (eInval, s, i), ?_⟩
    rw [sfsTryseek, if_pos invalid]
  · rw [sfsTryseek, if_neg invalid]
    by_cases beyond : (i.din.size : Int) < pos
    · have inRange : 0 ≤ pos ∧ pos < maxFileSize ∧ i.din.size < pos := ⟨by omega, by omega, beyond⟩
      rw [if_pos beyond]
      simpa [inRange] using truncfile_settled others s i superOthers mounted map noFault pos fun same => by omega
    · rw [if_neg beyond]
      exact Or.inl ⟨fun valid => absurd valid.2.2 beyond, _, rfl⟩

-- What sfs_tryseek answers: the position is none for a file, or the disk is full.
theorem tryseek_answer (pos : Int) (ret : Int) (s' : SfsFs) (i' : SfsInode) (ran : sfsTryseek s i pos = .ok (ret, s', i')) :
    ret = 0 ∨ ret = eInval ∨ ret = eNoMem := by
  by_cases invalid : pos < 0 ∨ (maxFileSize : Int) ≤ pos
  · rw [sfsTryseek, if_pos invalid] at ran
    exact .inr (.inl (Prod.mk.inj (Except.ok.inj ran)).1.symm)
  · rw [sfsTryseek, if_neg invalid] at ran
    by_cases beyond : (i.din.size : Int) < pos
    · rw [if_pos beyond] at ran
      have valid : 0 ≤ pos ∧ pos ≤ maxFileSize := by omega
      have other : (i.din.size : Int) ≠ pos := by omega
      by_cases up : i.din.blocks < roundUpDiv pos.toNat 4096
      · rcases truncfile_grow others s i pos superOthers mounted map valid other up with
          ⟨stopped, _⟩ | ⟨_, _, done, _⟩ | ⟨_, _, _, _, _, failed, _, _, short, _⟩
        · rw [stopped] at ran
          cases ran
        · rw [done] at ran
          exact .inl (Prod.mk.inj (Except.ok.inj ran)).1.symm
        · rw [failed] at ran
          exact .inr (.inr ((Prod.mk.inj (Except.ok.inj ran)).1.symm.trans (short noFault).1))
      · obtain ⟨_, _, _, _, done, _, _, _, success⟩ := truncfile_shrink others s i pos mounted map valid other (by omega)
        rw [done] at ran
        exact .inl ((Prod.mk.inj (Except.ok.inj ran)).1.symm.trans (success noFault))
    · rw [if_neg beyond] at ran
      exact .inl (Prod.mk.inj (Except.ok.inj ran)).1.symm

include covered in
theorem call_settled (call : FileCall) (agrees : CallAgrees i.din call) : Settled (IndexSafe s i.din call) (call.run s i) := by
  cases call with
  | io buf offset resid write =>
      refine settled_bind _ (sfsIo s i buf offset resid write) (fun r => ((⟨r.1, r.2.buf, r.2.alen⟩ : Reply), r.2.sfs, r.2.sin)) ?_
      by_cases moves : Moves offset resid
      · cases write with
        | true => simpa [IndexSafe, moves] using write_settled others s i superOthers mounted map noFault buf offset resid moves
        | false =>
            have returns := read_returns others s i superOthers mounted map covered buf offset resid moves
            exact Or.inl ⟨fun writes => absurd writes (by decide), returns⟩
      · obtain ⟨ret, done⟩ := io_idle s i buf offset resid write map.type moves
        exact Or.inl ⟨fun _ moved => absurd moved moves, _, done⟩
  | truncfile len =>
      exact settled_bind _ (sfsTruncfile s i len) (fun r => ((⟨r.1, zeroBytes, 0⟩ : Reply), r.2.1, r.2.2))
        (truncfile_settled others s i superOthers mounted map noFault len agrees)
  | tryseek pos =>
      exact settled_bind _ (sfsTryseek s i pos) (fun r => ((⟨r.1, zeroBytes, 0⟩ : Reply), r.2.1, r.2.2))
        (tryseek_settled others s i superOthers mounted map noFault pos)

end NoFault

end Calls

-- The one call outside the index checks that does not return: a truncation to
-- the size of a file that has other blocks.
theorem call_disagrees (s : SfsFs) (i : SfsInode) (call : FileCall) (disagrees : ¬ CallAgrees i.din call) :
    IndexSafe s i.din call ∧ call.run s i = .error .assertFailed := by
  cases call with
  | io buf offset resid write => exact absurd trivial disagrees
  | tryseek pos => exact absurd trivial disagrees
  | truncfile len =>
      simp only [CallAgrees, TruncAgrees, Classical.not_imp] at disagrees
      obtain ⟨same, small, other⟩ := disagrees
      refine ⟨fun _ apart => absurd same apart, ?_⟩
      rw [FileCall.run, truncfile_same s i len ⟨by omega, small⟩ same, if_neg fun agree => other agree.symm]
      rfl

theorem run_covered (v final : Volume n) (reserved : Nat → Prop) (events : List (Fin n × FileCall)) (image : v.Image reserved)
    (covered : v.Covered) (ran : run Volume.step v events = some final) : final.Image reserved ∧ final.Covered :=
  run_invariant Volume.step (fun _ _ => True) (fun v => v.Image reserved ∧ v.Covered)
    (fun v event next ⟨image, covered⟩ _ stepped =>
      ⟨step_image v next reserved event image stepped, step_covered v next reserved event image covered stepped⟩)
    events v final ⟨image, covered⟩ (throughout_trivial Volume.step _ (fun _ _ => trivial) events v) ran

theorem index_checks (v final : Volume n) (reserved : Nat → Prop) (events : List (Fin n × FileCall)) (image : v.Image reserved)
    (covered : v.Covered) (ran : run Volume.step v events = some final) (file : Fin n) (call : FileCall) :
    (¬ IndexPanic (call.run final.sfs (final.files file)) ↔ IndexSafe final.sfs (final.files file).din call) ∧
      (Returns (call.run final.sfs (final.files file)) ↔
        IndexSafe final.sfs (final.files file).din call ∧ CallAgrees (final.files file).din call) := by
  obtain ⟨image', covered'⟩ := run_covered v final reserved events image covered ran
  by_cases agrees : CallAgrees (final.files file).din call
  · have settled := call_settled _ final.sfs (final.files file) (Or.inl image'.wellFormed.superBlock) image'.wellFormed.mounted
      (image'.wellFormed.maps file) image'.noFault (covered' file) call agrees
    simp only [settled_panics _ _ settled, settled_returns _ _ settled, not_not, agrees, and_true, and_self]
  · obtain ⟨safe, failed⟩ := call_disagrees final.sfs (final.files file) call agrees
    simp [IndexPanic, Returns, failed, safe, agrees]

theorem fresh_covered (n : Nat) : (freshVolume n).Covered := fun _ => Nat.zero_le _

-- A file of 14 blocks is cut to nothing while a descriptor stays at 50000.
theorem index_checks_cut : ∃ final, run Volume.step (freshVolume 1) [(0, .truncfile 53248), (0, .truncfile 0)] = some final ∧
    IndexPanic (FileCall.run (.io zeroBytes 50000 1 true) final.sfs (final.files 0)) ∧
    Returns (FileCall.run (.io zeroBytes 4095 1 true) final.sfs (final.files 0)) := by
  cases ran : run Volume.step (freshVolume 1) [(0, .truncfile 53248), (0, .truncfile 0)] with
  | none =>
      have returns : (run Volume.step (freshVolume 1) [(0, .truncfile 53248), (0, .truncfile 0)]).isSome := by decide +kernel
      simp [ran] at returns
  | some final =>
      have settle := index_checks (freshVolume 1) final (freshReserved 1) _ (fresh_image 1 (by decide)) (fresh_covered 1) ran 0
      have facts : ∀ reached, run Volume.step (freshVolume 1) [(0, .truncfile 53248), (0, .truncfile 0)] = some reached →
          ¬ IndexSafe reached.sfs (reached.files 0).din (.io zeroBytes 50000 1 true) ∧
            IndexSafe reached.sfs (reached.files 0).din (.io zeroBytes 4095 1 true) := by
        decide +kernel
      obtain ⟨bad, good⟩ := facts final ran
      exact ⟨final, rfl, not_not.mp fun fine => bad ((settle _).1.mp fine), (settle _).2.mpr ⟨good, trivial⟩⟩

-- One byte at the second block of a file with none.
theorem index_past_blocks : ∃ v : Volume 1, v.Image (freshReserved 1) ∧ v.Covered ∧
    FileCall.run (.io zeroBytes 4096 1 true) v.sfs (v.files 0) = .error .indexPastBlocks := by
  refine ⟨freshVolume 1, fresh_image 1 (by decide), fresh_covered 1, ?_⟩
  rw [FileCall.run, io_write_past _ _ _ _ _ rfl (by decide) (by decide)]
  rfl

end Ucore.Sfs
