import Ucore.Vfs.LayerKinds

set_option autoImplicit false

namespace Ucore.Vfs

open Ucore.Lib

variable {P N C F : Type} [DecidableEq P] [DecidableEq N]

section Bounds

theorem hit_option_nonneg (target : Option N) (node : N) : 0 ≤ hitOption target node := by
  unfold hitOption
  split <;> decide

theorem file_hold_nonneg (file : File N) (node : N) : 0 ≤ fileHold file node := by
  unfold fileHold
  split
  · exact hit_option_nonneg file.node node
  · exact le_refl 0

theorem file_hold_le (fdArray : List (File N)) (file : File N) (member : file ∈ fdArray) (node : N) :
    fileHold file node ≤ tableHold fdArray node :=
  sum_map_le fdArray (fun file => fileHold file node) (fun other => file_hold_nonneg other node) file member

theorem table_hold_nonneg (fdArray : List (File N)) (node : N) : 0 ≤ tableHold fdArray node :=
  sum_map_nonneg fdArray (fun file => fileHold file node) fun file => file_hold_nonneg file node

omit [DecidableEq P] in
theorem table_hold_le (s : FsState P N) (proc : P) (member : proc ∈ s.procs) (node : N) :
    tableHold (s.filesp proc).fdArray node ≤ FsState.openHolders s node :=
  sum_map_le s.procs (fun proc => tableHold (s.filesp proc).fdArray node) (fun _ => table_hold_nonneg _ node) proc member

omit [DecidableEq P] in
theorem open_holders_nonneg (s : FsState P N) (node : N) : 0 ≤ FsState.openHolders s node :=
  sum_map_nonneg s.procs (fun proc => tableHold (s.filesp proc).fdArray node) fun _ => table_hold_nonneg _ node

theorem device_hold_nonneg (v : Mounts N) (node : N) : 0 ≤ FsState.deviceHold v node :=
  sum_map_nonneg v.devs (fun dev => hit dev.devnode node) fun dev => (hit_bounds dev.devnode node).1

theorem device_hold_pos (v : Mounts N) (mounted : WellMounted v) (node : N) (device : v.kind node = .device) :
    0 < FsState.deviceHold v node := by
  obtain ⟨dev, member, same⟩ := mounted.listed node device
  have one := sum_map_le v.devs (fun dev => hit dev.devnode node) (fun dev => (hit_bounds dev.devnode node).1) dev member
  have here : hit dev.devnode node = 1 := by simp [hit, same]
  simp only [FsState.deviceHold]
  omega

omit [DecidableEq P] in
theorem holders_le (v : Mounts N) (s : FsState P N) (node : N) :
    FsState.openHolders s node + FsState.deviceHold v node ≤ FsState.refHolders v s node := by
  have tables : FsState.openHolders s node ≤ (s.procs.map fun proc => filesHold (s.filesp proc) node).sum := by
    refine List.sum_le_sum fun proc _ => ?_
    have pwd := hit_option_nonneg (s.filesp proc).pwd node
    simp only [filesHold]
    omega
  have boot := hit_option_nonneg s.bootfs node
  simp only [FsState.refHolders]
  omega

end Bounds

namespace FileLayer

variable {v : Mounts N} {b : Below N C F} {l : FileLayer P N C} {proc : P}

-- The counts have room, also without what some open entries hold.
omit [DecidableEq P] in
theorem inv_room (mounted : WellMounted v) (inv : l.LayerInv v) (few : ∀ node, l.fs.counts.refCount node + 4 < maxInodeCount) (part : N → Int)
    (bounds : ∀ node, 0 ≤ part node ∧ part node ≤ FsState.openHolders l.fs node) :
    Room v ⟨fun node => l.fs.counts.refCount node - part node, fun node => l.fs.counts.openCount node - part node⟩ 4 := by
  obtain ⟨leaked, nonneg, hold⟩ := inv.hold
  have facts : ∀ node, l.fs.counts.openCount node = FsState.openHolders l.fs node ∧
      FsState.openHolders l.fs node + FsState.deviceHold v node ≤ l.fs.counts.refCount node := by
    intro node
    have opens : l.fs.counts.openCount node = FsState.openHolders l.fs node := hold.accounted.op node
    have refs : l.fs.counts.refCount node - leaked node = FsState.refHolders v l.fs node := hold.accounted.ref node
    have below := holders_le v l.fs node
    have more := nonneg node
    exact ⟨opens, by omega⟩
  constructor
  · intro node
    obtain ⟨opens, below⟩ := facts node
    obtain ⟨low, high⟩ := bounds node
    have devices := device_hold_nonneg v node
    have limit := few node
    show 0 ≤ l.fs.counts.openCount node - part node ∧ l.fs.counts.openCount node - part node ≤ l.fs.counts.refCount node - part node ∧
      l.fs.counts.refCount node - part node + 4 < maxInodeCount
    omega
  · intro node device
    obtain ⟨opens, below⟩ := facts node
    obtain ⟨low, high⟩ := bounds node
    have held := device_hold_pos v mounted node device
    show 0 < l.fs.counts.refCount node - part node
    omega

omit [DecidableEq P] in
theorem inv_counts (mounted : WellMounted v) (inv : l.LayerInv v) (few : ∀ node, l.fs.counts.refCount node + 4 < maxInodeCount) :
    Room v l.fs.counts 4 := by
  have room := inv_room mounted inv few still fun node => ⟨le_refl 0, open_holders_nonneg l.fs node⟩
  simpa [still] using room

omit [DecidableEq P] in
theorem inv_ready (inv : l.LayerInv v) (member : proc ∈ l.fs.procs) : Ready (l.files proc) := by
  obtain ⟨_, _, hold⟩ := inv.hold
  exact hold.ready proc member

-- The entry of a call changes, and the counts move by what it holds more or less and
-- by what an open leaves behind.
theorem put_inv (inv : l.LayerInv v) (member : proc ∈ l.fs.procs) (c : Counts N) (data : C) (index : Nat) (old file : File N) (left : N → Int)
    (there : (l.files proc).fdArray[index]? = some old) (settled : Settled file) (mode : ModeOk v file) (nonneg : ∀ node, 0 ≤ left node)
    (moved : Moved l.fs.counts c (fun node => fileHold file node - fileHold old node + left node) (fun node => fileHold file node - fileHold old node)) :
    (l.put proc c data index file).LayerInv v where
  hold := by
    obtain ⟨leaked, more, hold⟩ := inv.hold
    refine ⟨fun node => leaked node + left node, fun node => ?_, ?_⟩
    · have first := more node
      have second := nonneg node
      show 0 ≤ leaked node + left node
      omega
    · have without : Moved (unleaked l.fs.counts leaked) (unleaked c fun node => leaked node + left node)
          (fun node => fileHold file node - fileHold old node) (fun node => fileHold file node - fileHold old node) := by
        constructor
        · intro node
          have change := moved.ref node
          simp only [unleaked]
          omega
        · exact moved.op
      refine hold.files_changed v _ proc _ (setFile (l.files proc) index file) member (set_file_ready _ index file (hold.ready proc member) settled) ?_
      apply without.congr
      · intro node
        exact (set_file_hold (l.files proc) index old file there node).2.symm
      · intro node
        exact (set_file_hold (l.files proc) index old file there node).1.symm
  placed := by
    intro other inside
    have starts : (l.put proc c data index file).fs.starts other = l.fs.starts other := by
      by_cases same : other = proc
      · subst same
        simp [put, FsState.setFiles, FsState.starts, setFile, files]
      · simp [put, FsState.setFiles, FsState.starts, same]
    exact starts ▸ inv.placed other inside
  modes := by
    intro other inside entry entries
    by_cases same : other = proc
    · subst same
      have set : entry ∈ ((l.files other).fdArray.set index file) := by simpa [put, FsState.setFiles, files, setFile] using entries
      cases List.mem_or_eq_of_mem_set set with
      | inl before => exact inv.modes other inside entry before
      | inr new => exact new ▸ mode
    · exact inv.modes other inside entry (by simpa [put, FsState.setFiles, files, same] using entries)

-- The entry of a call that holds what it held.
theorem same_inv (inv : l.LayerInv v) (member : proc ∈ l.fs.procs) (data : C) (index : Nat) (old file : File N)
    (there : (l.files proc).fdArray[index]? = some old) (settled : Settled file) (mode : ModeOk v file)
    (hold : ∀ node, fileHold file node = fileHold old node) : (l.put proc l.fs.counts data index file).LayerInv v := by
  refine put_inv inv member l.fs.counts data index old file still there settled mode (fun _ => le_refl 0) ?_
  apply (moved_refl l.fs.counts).congr <;> intro node <;> simp [hold node, still]

omit [DecidableEq P] [DecidableEq N] in
theorem unchanged_refl (l : FileLayer P N C) : l.Unchanged l := ⟨rfl, rfl, fun _ => ⟨rfl, rfl⟩⟩

-- An entry is put back as the calls saw it.
omit [DecidableEq N] in
theorem put_unchanged (index : Nat) (old file : File N) (there : (l.files proc).fdArray[index]? = some old) (same : entryView file = entryView old) :
    l.Unchanged (l.put proc l.fs.counts l.data index file) where
  data := rfl
  counts := rfl
  tables := by
    intro other
    by_cases here : other = proc
    · subst here
      refine ⟨by simp [put, FsState.setFiles, files, setFile], ?_⟩
      have set : ((l.files other).fdArray.set index file).map entryView = (l.files other).fdArray.map entryView := by
        rw [List.map_set, same]
        obtain ⟨inside, get⟩ := List.getElem?_eq_some_iff.mp there
        refine List.ext_getElem (by simp) fun place first second => ?_
        by_cases at' : index = place
        · subst at'
          simp [get]
        · simp [at']
      simpa [put, FsState.setFiles, files, setFile] using set
    · simp [put, FsState.setFiles, files, here]

end FileLayer

end Ucore.Vfs
