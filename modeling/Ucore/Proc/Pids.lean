import Mathlib.Data.Int.Interval
import Mathlib.Tactic.Linarith
import Ucore.Proc.Family

set_option autoImplicit false

namespace Ucore.Proc

-- No pid is in use from lastPid up to nextSafe.
def PidsClear (pids : List Int) (lastPid nextSafe : Int) : Prop := ∀ pid ∈ pids, pid < lastPid ∨ nextSafe ≤ pid

theorem pids_clear_append (seen rest : List Int) (pid lastPid nextSafe : Int) (before : PidsClear seen lastPid nextSafe)
    (here : pid < lastPid ∨ nextSafe ≤ pid) (after : PidsClear rest lastPid nextSafe) :
    PidsClear (seen ++ pid :: rest) lastPid nextSafe := by
  intro other member
  cases List.mem_append.mp member with
  | inl old => exact before other old
  | inr new =>
      cases List.mem_cons.mp new with
      | inl same => exact same ▸ here
      | inr later => exact after other later

-- What a pass over the pids promises when the ones that it has seen are clear: it
-- never steps over a pid that is free.
def PidScanned (seen pids : List Int) (lastPid : Int) : PidScan → Prop
  | .found pid nextSafe => lastPid ≤ pid ∧ pid < nextSafe ∧ nextSafe ≤ maxPid ∧ PidsClear (seen ++ pids) pid nextSafe
  | .again pid =>
      ∃ reached, lastPid < reached ∧ reached ≤ maxPid ∧ (∀ taken, lastPid ≤ taken → taken < reached → taken ∈ pids) ∧
        (reached < maxPid ∧ pid = reached ∨ reached = maxPid ∧ pid = 1)

theorem pid_scanned_next (seen rest : List Int) (pid last : Int) (result : PidScan) (taken : pid = last)
    (later : PidScanned (seen ++ [pid]) rest (last + 1) result) : PidScanned seen (pid :: rest) last result := by
  cases result with
  | found found nextSafe =>
      obtain ⟨above, below, top, clear⟩ := later
      rw [List.append_assoc] at clear
      exact ⟨by omega, below, top, clear⟩
  | again again =>
      obtain ⟨reached, above, top, used, ends⟩ := later
      refine ⟨reached, by omega, top, ?_, ends⟩
      intro other low high
      by_cases same : other = last
      · exact same ▸ taken ▸ List.mem_cons_self
      · exact List.mem_cons_of_mem _ (used other (by omega) high)

theorem pid_scanned_skip (seen rest : List Int) (pid last : Int) (result : PidScan)
    (later : PidScanned (seen ++ [pid]) rest last result) : PidScanned seen (pid :: rest) last result := by
  cases result with
  | found found nextSafe =>
      obtain ⟨above, below, top, clear⟩ := later
      rw [List.append_assoc] at clear
      exact ⟨above, below, top, clear⟩
  | again again =>
      obtain ⟨reached, above, top, used, ends⟩ := later
      exact ⟨reached, above, top, fun other low high => List.mem_cons_of_mem _ (used other low high), ends⟩

theorem pid_scan_spec (pids seen : List Int) (lastPid nextSafe : Int) (order : lastPid < nextSafe) (top : nextSafe ≤ maxPid)
    (clear : PidsClear seen lastPid nextSafe) : PidScanned seen pids lastPid (pidScan pids lastPid nextSafe) := by
  induction pids generalizing seen lastPid nextSafe with
  | nil => exact ⟨le_refl _, order, top, by simpa using clear⟩
  | cons pid rest ih =>
      by_cases taken : pid = lastPid
      · by_cases crowded : nextSafe ≤ lastPid + 1
        · simp only [pidScan, if_pos taken, if_pos crowded]
          refine ⟨lastPid + 1, by omega, by omega, ?_, ?_⟩
          · intro other low high
            have same : other = pid := by omega
            exact same ▸ List.mem_cons_self
          · split <;> omega
        · simp only [pidScan, if_pos taken, if_neg crowded]
          apply pid_scanned_next seen rest pid lastPid _ taken
          apply ih (seen ++ [pid]) (lastPid + 1) nextSafe (by omega) top
          apply pids_clear_append seen [] pid
          · exact fun other member => (clear other member).imp (by omega) id
          · exact .inl (by omega)
          · exact fun other member => absurd member (by simp)
      · by_cases nearer : lastPid < pid ∧ pid < nextSafe
        · simp only [pidScan, if_neg taken, if_pos nearer]
          apply pid_scanned_skip
          apply ih (seen ++ [pid]) lastPid pid nearer.1 (by omega)
          apply pids_clear_append seen [] pid
          · exact fun other member => (clear other member).imp id (by omega)
          · exact .inr (le_refl _)
          · exact fun other member => absurd member (by simp)
        · simp only [pidScan, if_neg taken, if_neg nearer]
          apply pid_scanned_skip
          apply ih (seen ++ [pid]) lastPid nextSafe order top
          apply pids_clear_append seen [] pid lastPid nextSafe clear
          · omega
          · exact fun other member => absurd member (by simp)

theorem pids_not_full (pids : List Int) (few : (pids.length : Int) < maxPid - 1)
    (full : ∀ pid, 1 ≤ pid → pid < maxPid → pid ∈ pids) : False := by
  have covered : Finset.Ico 1 maxPid ⊆ pids.toFinset := by
    intro pid member
    have bounds := Finset.mem_Ico.mp member
    exact List.mem_toFinset.mpr (full pid bounds.1 bounds.2)
  have small := (Finset.card_le_card covered).trans pids.toFinset_card_le
  rw [Int.card_Ico] at small
  have wide : (1 : Int) ≤ maxPid := by decide
  omega

def FreePid (pids : List Int) (lastPid nextSafe : Int) : Prop :=
  1 ≤ lastPid ∧ lastPid < nextSafe ∧ nextSafe ≤ maxPid ∧ PidsClear pids lastPid nextSafe

-- After last_pid has wrapped around every smaller pid is in use, so that it never
-- wraps around again.
theorem pid_search_wrapped (pids : List Int) (few : (pids.length : Int) < maxPid - 1) (fuel : Nat) (lastPid : Int) (low : 1 ≤ lastPid)
    (high : lastPid < maxPid) (used : ∀ pid, 1 ≤ pid → pid < lastPid → pid ∈ pids) (enough : maxPid - lastPid ≤ fuel) :
    ∃ pid nextSafe, pidSearch pids fuel lastPid = .ok (pid, nextSafe) ∧ FreePid pids pid nextSafe := by
  induction fuel generalizing lastPid with
  | zero => omega
  | succ fuel ih =>
      have scanned := pid_scan_spec pids [] lastPid maxPid high (le_refl _) (fun other member => absurd member (by simp))
      cases result : pidScan pids lastPid maxPid with
      | found pid nextSafe =>
          rw [result] at scanned
          obtain ⟨above, below, top, clear⟩ := scanned
          exact ⟨pid, nextSafe, by simp [pidSearch, result], le_trans low above, below, top, by simpa using clear⟩
      | again pid =>
          rw [result] at scanned
          obtain ⟨reached, above, top, taken, ends⟩ := scanned
          have covered : ∀ other, 1 ≤ other → other < reached → other ∈ pids := by
            intro other positive less
            by_cases before : other < lastPid
            · exact used other positive before
            · exact taken other (by omega) less
          cases ends with
          | inl inside =>
              obtain ⟨below, same⟩ := inside
              obtain ⟨free, nextSafe, returns, spec⟩ := ih pid (by omega) (by omega) (same ▸ covered) (by push_cast at enough; omega)
              exact ⟨free, nextSafe, by simp [pidSearch, result, returns], spec⟩
          | inr wrapped => exact (pids_not_full pids few fun other positive less => covered other positive (by omega)).elim

theorem pid_search_spec (pids : List Int) (few : (pids.length : Int) < maxPid - 1) (fuel : Nat) (lastPid : Int) (low : 1 ≤ lastPid)
    (high : lastPid < maxPid) (enough : maxPid - lastPid + maxPid ≤ fuel) :
    ∃ pid nextSafe, pidSearch pids fuel lastPid = .ok (pid, nextSafe) ∧ FreePid pids pid nextSafe := by
  have wide : (1 : Int) < maxPid := by decide
  induction fuel generalizing lastPid with
  | zero => omega
  | succ fuel ih =>
      have scanned := pid_scan_spec pids [] lastPid maxPid high (le_refl _) (fun other member => absurd member (by simp))
      cases result : pidScan pids lastPid maxPid with
      | found pid nextSafe =>
          rw [result] at scanned
          obtain ⟨above, below, top, clear⟩ := scanned
          exact ⟨pid, nextSafe, by simp [pidSearch, result], le_trans low above, below, top, by simpa using clear⟩
      | again pid =>
          rw [result] at scanned
          obtain ⟨reached, above, top, _, ends⟩ := scanned
          push_cast at enough
          cases ends with
          | inl inside =>
              obtain ⟨below, same⟩ := inside
              obtain ⟨free, nextSafe, returns, spec⟩ := ih pid (by omega) (by omega) (by omega)
              exact ⟨free, nextSafe, by simp [pidSearch, result, returns], spec⟩
          | inr wrapped =>
              obtain ⟨_, same⟩ := wrapped
              obtain ⟨free, nextSafe, returns, spec⟩ :=
                pid_search_wrapped pids few fuel pid (by omega) (by omega) (fun other positive less => by omega) (by omega)
              exact ⟨free, nextSafe, by simp [pidSearch, result, returns], spec⟩

theorem get_pid_spec (pids : List Int) (lastPid nextSafe : Int) (few : (pids.length : Int) < maxPid - 1) (low : 1 ≤ lastPid)
    (top : nextSafe ≤ maxPid) (clear : ∀ pid ∈ pids, pid ≤ lastPid ∨ nextSafe ≤ pid) :
    ∃ pid safe, getPid pids lastPid nextSafe = .ok (pid, safe) ∧ FreePid pids pid safe := by
  have wide : maxPid + maxPid ≤ (pidFuel : Int) := by decide
  have large : (1 : Int) < maxPid := by decide
  unfold getPid
  by_cases wraps : maxPid ≤ lastPid + 1
  · rw [if_pos wraps]
    exact pid_search_spec pids few pidFuel 1 (le_refl _) large (by omega)
  · rw [if_neg wraps]
    by_cases unsafePid : nextSafe ≤ lastPid + 1
    · rw [if_pos unsafePid]
      exact pid_search_spec pids few pidFuel (lastPid + 1) (by omega) (by omega) (by omega)
    · rw [if_neg unsafePid]
      refine ⟨lastPid + 1, nextSafe, rfl, by omega, by omega, top, ?_⟩
      exact fun pid member => (clear pid member).imp (by omega) id

end Ucore.Proc
