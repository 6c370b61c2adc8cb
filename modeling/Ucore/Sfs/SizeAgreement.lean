import Ucore.Sfs.FilePanics

set_option autoImplicit false

namespace Ucore.Sfs

open Ucore.Lib

variable {n : Nat}

-- Every file has the blocks of its size, and the assertions of sfs_truncfile
-- that compare the two hold for every length.
structure Volume.SizesAgree (v : Volume n) : Prop where
  blocks : ∀ file, (v.files file).din.blocks = blocksOf (v.files file).din.size
  asserts : ∀ file len, sfsTruncfile v.sfs (v.files file) len ≠ .error .assertFailed

-- The call does not return, or leaves no blocks past the size.
def KeepsSizes (v : Volume n) (event : Fin n × FileCall) : Prop :=
  IndexSafe v.sfs (v.files event.1).din event.2 → ¬ LeavesBlocks v.sfs (v.files event.1).din event.2

instance (v : Volume n) (event : Fin n × FileCall) : Decidable (KeepsSizes v event) :=
  inferInstanceAs (Decidable (IndexSafe v.sfs (v.files event.1).din event.2 → ¬ LeavesBlocks v.sfs (v.files event.1).din event.2))

theorem sizes_covered (v : Volume n) (blocks : ∀ file, (v.files file).din.blocks = blocksOf (v.files file).din.size) : v.Covered := by
  intro file
  have here := blocks file
  simp only [blocksOf, roundUpDiv] at here
  omega

theorem sizes_agree (v : Volume n) (reserved : Nat → Prop) (image : v.Image reserved)
    (blocks : ∀ file, (v.files file).din.blocks = blocksOf (v.files file).din.size) : v.SizesAgree := by
  refine ⟨blocks, fun file len failed => ?_⟩
  have agrees : TruncAgrees (v.files file).din len := by
    rintro same _
    rw [blocks file, ← same, Int.toNat_natCast]
  rcases truncfile_settled _ v.sfs (v.files file) (Or.inl image.wellFormed.superBlock) image.wellFormed.mounted
    (image.wellFormed.maps file) image.noFault len agrees with ⟨_, result, returned⟩ | ⟨_, panicked | panicked⟩
  · rw [returned] at failed
    cases failed
  · rw [panicked] at failed
    cases failed
  · rw [panicked] at failed
    cases failed

section Calls

variable (others : Nat → Prop) (s : SfsFs) (i : SfsInode) (superOthers : others 0) (mounted : Mounted s)
  (map : FileMap s i.din others) (noFault : s.dev.results = [])

include superOthers mounted map noFault

theorem truncfile_leaves (len : Int) (leaves : TruncLeaves s i.din len) (ret : Int) (s' : SfsFs) (i' : SfsInode)
    (ran : sfsTruncfile s i len = .ok (ret, s', i')) : i'.din.size = i.din.size ∧ i.din.blocks < i'.din.blocks := by
  obtain ⟨valid, other, up, first, last⟩ := leaves
  simp only [blocksOf] at up last
  rcases truncfile_grow others s i len superOthers mounted map valid other up with
    ⟨stopped, _⟩ | ⟨t, j, done, grown, _⟩ | ⟨_, t, j, m, _, failed, grown, _, short, _⟩
  · rw [stopped] at ran
    cases ran
  · have spent := grown.cost noFault
    have mono := need_mono i.din (min (roundUpDiv len.toNat 4096) 1036 - i.din.blocks) (roundUpDiv len.toNat 4096 - i.din.blocks)
      (by omega)
    omega
  · rw [failed] at ran
    cases ran
    obtain ⟨_, _, missing⟩ := short noFault
    have blocks := grown.blocks
    refine ⟨grown.size, ?_⟩
    by_contra still
    have none : m = 0 := by omega
    have one := need_one s i.din others map
    subst none
    simp only [Nat.zero_add] at missing
    omega

theorem call_leaves (call : FileCall) (leaves : LeavesBlocks s i.din call) (reply : Reply) (s' : SfsFs) (i' : SfsInode)
    (ran : call.run s i = .ok (reply, s', i')) : i'.din.size = i.din.size ∧ i.din.blocks < i'.din.blocks := by
  cases call with
  | io buf offset resid write =>
      obtain ⟨rfl, moves, past, first⟩ := leaves
      simp only [blocksOf] at past
      simp only [FileCall.run] at ran
      by_cases near : offset.toNat / 4096 ≤ i.din.blocks
      · rcases io_write_spec others s i buf offset resid superOthers mounted map moves near with
          ⟨stopped, _⟩ | ⟨ret, t, m, done, grown, _, _, _, complete, short⟩
        · rw [stopped] at ran
          cases ran
        · rw [done] at ran
          cases ran
          have blocks := grown.blocks
          refine ⟨grown.size, ?_⟩
          show i.din.blocks < t.sin.din.blocks
          by_cases zero : ret = 0
          · have cover := (complete zero).2
            omega
          · obtain ⟨_, _, missing⟩ := short noFault zero
            by_contra still
            have none : m = 0 := by omega
            have one := need_one s i.din others map
            subst none
            simp only [Nat.zero_add] at missing
            omega
      · rw [io_write_past s i buf offset resid map.type moves (by omega)] at ran
        cases ran
  | truncfile len =>
      simp only [FileCall.run] at ran
      cases done : sfsTruncfile s i len with
      | error fault => simp [done] at ran
      | ok result =>
          obtain ⟨ret, t, j⟩ := result
          rw [done] at ran
          cases ran
          exact truncfile_leaves others s i superOthers mounted map noFault len leaves ret _ _ done
  | tryseek pos =>
      obtain ⟨inRange, beyond, leaves⟩ := leaves
      simp only [FileCall.run, sfsTryseek] at ran
      rw [if_neg (by omega), if_pos beyond] at ran
      cases done : sfsTruncfile s i pos with
      | error fault => simp [done] at ran
      | ok result =>
          obtain ⟨ret, t, j⟩ := result
          rw [done] at ran
          cases ran
          exact truncfile_leaves others s i superOthers mounted map noFault pos leaves ret _ _ done

end Calls

-- From sizes that agree, a call that returns keeps them exactly when it leaves
-- no blocks past the size.
theorem step_keeps_sizes (v : Volume n) (reserved : Nat → Prop) (event : Fin n × FileCall) (image : v.Image reserved)
    (agree : v.SizesAgree) : (∀ next, v.step event = some next → next.SizesAgree) ↔ KeepsSizes v event := by
  have covered := sizes_covered v agree.blocks
  have wf := image.wellFormed
  have leaves := call_leaves _ v.sfs (v.files event.1) (Or.inl wf.superBlock) wf.mounted (wf.maps event.1) image.noFault event.2
  constructor
  · rintro kept safe left
    have agrees : CallAgrees (v.files event.1).din event.2 := by
      by_contra disagrees
      obtain ⟨_, failed⟩ := call_disagrees v.sfs (v.files event.1) event.2 disagrees
      cases call : event.2 with
      | io buf offset resid write => simp [call, CallAgrees] at disagrees
      | tryseek pos => simp [call, CallAgrees] at disagrees
      | truncfile len =>
          refine agree.asserts event.1 len ?_
          rw [call, FileCall.run] at failed
          cases done : sfsTruncfile v.sfs (v.files event.1) len with
          | ok result => simp [done] at failed
          | error fault => simpa [done] using failed
    have settled := call_settled _ v.sfs (v.files event.1) (Or.inl wf.superBlock) wf.mounted (wf.maps event.1) image.noFault
      (covered event.1) event.2 agrees
    obtain ⟨⟨reply, s', i'⟩, returned⟩ := (settled_returns _ _ settled).mpr safe
    obtain ⟨size, more⟩ := leaves left reply s' i' returned
    have next := (kept (v.after event.1 s' i') (by simp [Volume.step, returned, Except.toOption, Volume.after])).blocks event.1
    rw [after_self v event.1 s' i' event.1 rfl, size, ← agree.blocks event.1] at next
    omega
  · intro keeps next stepped
    refine sizes_agree next reserved (step_image v next reserved event image stepped) fun file => ?_
    obtain ⟨outcome, same⟩ := step_outcome v next reserved event image covered stepped
    by_cases here : file = event.1
    · subst here
      cases outcome with
      | resized blocks => exact blocks
      | kept size blocks => rw [size, blocks, agree.blocks]
      | left size more leaves =>
          refine absurd leaves (keeps ?_)
          obtain ⟨reply, s', i', ran, _⟩ := step_some v next event stepped
          by_cases agrees : CallAgrees (v.files event.1).din event.2
          · have settled := call_settled _ v.sfs (v.files event.1) (Or.inl wf.superBlock) wf.mounted (wf.maps event.1) image.noFault
              (covered event.1) event.2 agrees
            exact (settled_returns _ _ settled).mp ⟨_, ran⟩
          · exact (call_disagrees v.sfs (v.files event.1) event.2 agrees).1
    · rw [same file here]
      exact agree.blocks file

theorem size_blocks_agreement (v : Volume n) (reserved : Nat → Prop) (events : List (Fin n × FileCall)) (image : v.Image reserved)
    (blocks : ∀ file, (v.files file).din.blocks = blocksOf (v.files file).din.size) :
    Always Volume.step Volume.SizesAgree v events ↔ Throughout Volume.step KeepsSizes v events := by
  have start := sizes_agree v reserved image blocks
  rw [always_throughout]
  refine (and_iff_right start).trans (throughout_congr Volume.step (fun v => v.Image reserved ∧ v.SizesAgree) (fun _ _ => True) _ _
    ?_ ?_ events v ⟨image, start⟩ (throughout_trivial Volume.step _ (fun _ _ => trivial) events v))
  · rintro v event next ⟨image, _⟩ kept stepped
    exact ⟨step_image v next reserved event image stepped, kept next stepped⟩
  · rintro v event ⟨image, agree⟩ _
    exact step_keeps_sizes v reserved event image agree

theorem size_blocks_agreement_trunc : Always Volume.step Volume.SizesAgree (freshVolume 2)
    [(0, .truncfile 53248), (0, .io zeroBytes 5000 100 true), (1, .tryseek 10), (0, .truncfile 1)] :=
  (size_blocks_agreement (freshVolume 2) (freshReserved 2) _ (fresh_image 2 (by decide)) fun _ => (by decide : 0 = blocksOf 0)).mpr (by decide +kernel)

-- Ten bytes written to an empty file, and then a truncation to its size.
theorem write_breaks_sizes : ∃ final, run Volume.step (freshVolume 1) [(0, .io zeroBytes 0 10 true)] = some final ∧
    ((final.files 0).din.blocks, (final.files 0).din.size) = (1, 0) ∧
    sfsTruncfile final.sfs (final.files 0) 0 = .error .assertFailed := by
  cases ran : run Volume.step (freshVolume 1) [(0, .io zeroBytes 0 10 true)] with
  | none =>
      have returns : (run Volume.step (freshVolume 1) [(0, .io zeroBytes 0 10 true)]).isSome := by decide +kernel
      simp [ran] at returns
  | some final =>
      have facts : ∀ reached, run Volume.step (freshVolume 1) [(0, .io zeroBytes 0 10 true)] = some reached →
          ((reached.files 0).din.blocks, (reached.files 0).din.size) = (1, 0) := by
        decide +kernel
      have sizes := facts final ran
      simp only [Prod.mk.injEq] at sizes
      refine ⟨final, rfl, facts final ran, ?_⟩
      rw [truncfile_same _ _ _ (by decide) (by rw [sizes.2]; rfl), if_neg (by rw [sizes.1]; decide)]

end Ucore.Sfs
