import Mathlib.Data.List.Nodup
import Ucore.Dev.Stdin

set_option autoImplicit false

namespace Ucore.Dev

open Ucore.Lib Ucore.Proc Ucore.Sync

variable {P : Type} [DecidableEq P]

-- A change of the processes that makes no zombie.
def Lives (procs procs' : Procs P) : Prop := ∀ proc, (procs proc).state ≠ .zombie → (procs' proc).state ≠ .zombie

theorem lives_set (procs : Procs P) (proc : P) (entry : ProcStruct P) (alive : entry.state ≠ .zombie) : Lives procs (procs.set proc entry) := by
  intro other before
  by_cases here : other = proc
  · subst here
    simpa using alive
  · simpa [here] using before

theorem wakeup_lives (procs procs' : Procs P) (proc : P) (woken : wakeupState procs proc = .ok procs') : Lives procs procs' := by
  obtain ⟨_, woken⟩ := check_bind_ok woken
  split at woken
  · simp only [pure_ok, Except.ok.injEq] at woken
    exact woken ▸ lives_set procs proc _ (by simp)
  · simp only [pure_ok, Except.ok.injEq] at woken
    exact woken ▸ fun _ before => before

theorem kill_lives (procs : Procs P) (proc : P) (result : Int × Procs P) (killed : killProc procs proc = .ok result) : Lives procs result.2 := by
  have marked : Lives procs (procs.set proc { procs proc with exiting := true }) := by
    intro other before
    by_cases here : other = proc
    · subst here
      simpa using before
    · simpa [here] using before
  rw [killProc] at killed
  split at killed
  · obtain rfl := by simpa using killed
    exact fun _ before => before
  · simp only [Procs.set_here] at killed
    by_cases wakes : interruptible (procs proc).waitState
    · rw [if_pos wakes] at killed
      cases woken : wakeupState (procs.set proc { procs proc with exiting := true }) proc with
      | error fault => simp [woken, Except.map] at killed
      | ok procs' =>
          simp only [woken, Except.map, Except.ok.injEq] at killed
          subst killed
          exact fun other before => wakeup_lives _ procs' proc woken other (marked other before)
    · rw [if_neg wakes] at killed
      obtain rfl := Except.ok.inj killed
      exact marked

namespace Stdin

theorem wakeup_queue_ok (waits : Waits P) (queue : List P) (alive : ∀ proc ∈ queue, (waits.procs proc).state ≠ .zombie) :
    ∃ waits', wakeupQueue waits queue = .ok waits' ∧ Lives waits.procs waits'.procs := by
  induction queue generalizing waits with
  | nil => exact ⟨waits, rfl, fun _ before => before⟩
  | cons wait rest ih =>
      obtain ⟨procs, woken, _⟩ := wakeup_state_ok waits.procs wait (alive wait (by simp))
      have lives := wakeup_lives waits.procs procs wait woken
      obtain ⟨waits', ran, later⟩ := ih ⟨procs, Function.update waits.wakeupFlags wait wtKbd⟩ fun proc inside =>
        lives proc (alive proc (by simp [inside]))
      exact ⟨waits', by rw [wakeupQueue, woken, ok_bind, ran], fun proc before => later proc (lives proc before)⟩

-- A process in the queue sleeps or was woken up by a kill, inside of dev_stdin_read.
structure StdinInv (s : Stdin P) : Prop where
  behind : s.rpos ≤ s.wpos
  bounded : s.wpos ≤ s.rpos + stdinBufsize
  order : s.delivered ++ s.unread = s.accepted
  distinct : s.queue.Nodup
  waiting : ∀ proc ∈ s.queue, s.reading proc ≠ none
  alive : ∀ proc, s.reading proc ≠ none → (s.waits.procs proc).state ≠ .zombie

omit [DecidableEq P] in
theorem unread_length (s : Stdin P) : s.unread.length = s.wpos - s.rpos := slots_length stdinBufsize s.buffer s.rpos _

omit [DecidableEq P] in
theorem inv_fifo (s : Stdin P) (inv : StdinInv s) : Fifo s := by
  have bounded := inv.bounded
  refine ⟨inv.order, ?_⟩
  rw [unread_length]
  omega

-- The first two statements of dev_stdin_write.
def stored (s : Stdin P) (c : UInt8) : Stdin P :=
  if s.wpos - s.rpos < stdinBufsize then
    { s with buffer := Function.update s.buffer (s.wpos % stdinBufsize) c, wpos := s.wpos + 1, accepted := s.accepted ++ [c] }
  else { s with buffer := Function.update s.buffer (s.wpos % stdinBufsize) c }

section Write

variable (s : Stdin P) (inv : StdinInv s) (c : UInt8)

include inv

theorem write_spec (given : c ≠ 0) : ∃ waits', s.call (.write c) = .ok { s.stored c with waits := waits', queue := [] } ∧
    Lives s.waits.procs waits'.procs := by
  obtain ⟨waits', woken, lives⟩ := wakeup_queue_ok s.waits s.queue fun proc inside => inv.alive proc (inv.waiting proc inside)
  refine ⟨waits', ?_, lives⟩
  rw [call, devStdinWrite, if_pos given, stored]
  by_cases room : s.wpos - s.rpos < stdinBufsize
  · simp [room, woken]
  · simp [room, woken]

omit [DecidableEq P] in
theorem stored_room (room : s.unread.length < stdinBufsize) : (s.stored c).unread = s.unread ++ [c] ∧ (s.stored c).accepted = s.accepted ++ [c] ∧
    (s.stored c).delivered = s.delivered ∧ (s.stored c).wpos = s.wpos + 1 ∧ (s.stored c).rpos = s.rpos := by
  have behind := inv.behind
  rw [unread_length] at room
  have put := slots_put stdinBufsize s.buffer s.rpos (s.wpos - s.rpos) c room
  rw [show s.rpos + (s.wpos - s.rpos) = s.wpos by omega] at put
  simp only [stored, if_pos room, unread]
  rw [show s.wpos + 1 - s.rpos = s.wpos - s.rpos + 1 by omega]
  exact ⟨put, trivial, trivial, trivial, trivial⟩

-- The new character falls on the oldest one.
omit [DecidableEq P] in
theorem stored_full (full : ¬ s.unread.length < stdinBufsize) : ∃ oldest rest, s.unread = oldest :: rest ∧ (s.stored c).unread = c :: rest ∧
    (s.stored c).accepted = s.accepted ∧ (s.stored c).delivered = s.delivered ∧ (s.stored c).wpos = s.wpos ∧ (s.stored c).rpos = s.rpos := by
  have bounded := inv.bounded
  have behind := inv.behind
  rw [unread_length] at full
  have count : s.wpos - s.rpos = stdinBufsize := by omega
  obtain ⟨others, whole⟩ : ∃ others, stdinBufsize = others + 1 := ⟨4095, rfl⟩
  have front := slots_cons stdinBufsize s.buffer s.rpos others
  have put := slots_full stdinBufsize s.buffer s.rpos others c whole
  rw [← whole] at front
  rw [show s.rpos + stdinBufsize = s.wpos by omega] at put
  refine ⟨s.buffer (s.rpos % stdinBufsize), slotsFrom stdinBufsize s.buffer (s.rpos + 1) others, ?_, ?_⟩
  · rw [unread, count, front]
  · rw [stored, if_neg full]
    refine ⟨?_, rfl, rfl, rfl, rfl⟩
    rw [unread]
    show slotsFrom stdinBufsize (Function.update s.buffer (s.wpos % stdinBufsize) c) s.rpos (s.wpos - s.rpos) = _
    rw [count, put]

theorem write_inv (next : Stdin P) (spares : s.Spares (.write c)) (ran : s.call (.write c) = .ok next) : StdinInv next := by
  by_cases given : c = 0
  · obtain rfl : s = next := by simpa [call, devStdinWrite, given] using ran
    exact inv
  · obtain ⟨waits', wrote, lives⟩ := write_spec s inv c given
    rw [wrote] at ran
    obtain rfl := Except.ok.inj ran
    have behind := inv.behind
    have bounded := inv.bounded
    have order := inv.order
    have sameReading : (s.stored c).reading = s.reading := by
      unfold stored
      split <;> rfl
    by_cases room : s.unread.length < stdinBufsize
    · obtain ⟨content, accepted, delivered, wpos, rpos⟩ := stored_room s inv c room
      rw [unread_length] at room
      refine ⟨?_, ?_, ?_, List.nodup_nil, by simp, fun proc held => lives proc (inv.alive proc (by rwa [sameReading] at held))⟩
      · simp only [wpos, rpos]
        omega
      · simp only [wpos, rpos]
        omega
      · show (s.stored c).delivered ++ (s.stored c).unread = (s.stored c).accepted
        rw [content, accepted, delivered, ← List.append_assoc, order]
    · obtain ⟨oldest, rest, before, after, accepted, delivered, wpos, rpos⟩ := stored_full s inv c room
      have same : oldest = c := by
        rcases spares with zero | free | front
        · exact absurd zero given
        · exact absurd free room
        · simpa [before] using front
      refine ⟨?_, ?_, ?_, List.nodup_nil, by simp, fun proc held => lives proc (inv.alive proc (by rwa [sameReading] at held))⟩
      · simpa only [wpos, rpos] using behind
      · simpa only [wpos, rpos] using bounded
      · show (s.stored c).delivered ++ (s.stored c).unread = (s.stored c).accepted
        rw [after, accepted, delivered, ← same, ← before, order]

theorem write_spares (good : ∀ next, s.step (.write c) = some next → Fifo next) : s.Spares (.write c) := by
  by_cases given : c = 0
  · exact .inl given
  · by_cases room : s.unread.length < stdinBufsize
    · exact .inr (.inl room)
    · obtain ⟨waits', wrote, _⟩ := write_spec s inv c given
      obtain ⟨oldest, rest, before, after, accepted, delivered, _⟩ := stored_full s inv c room
      have fifo := (good _ (by rw [step, wrote])).order
      replace fifo : (s.stored c).delivered ++ (s.stored c).unread = (s.stored c).accepted := fifo
      rw [after, accepted, delivered, ← inv.order, before] at fifo
      have same := (List.cons.inj (List.append_cancel_left fifo)).1
      exact .inr (.inr (by simp [before, same]))

end Write

-- Every round takes the oldest character out.
theorem read_loop_inv (left : Nat) (s : Stdin P) (proc : P) (got : List UInt8) (inv : StdinInv s) (away : proc ∉ s.queue) :
    StdinInv (s.readLoop proc got left) := by
  induction left generalizing s got with
  | zero =>
      refine ⟨inv.behind, inv.bounded, inv.order, inv.distinct, fun other inside => ?_, fun other held => ?_⟩
      · have apart : other ≠ proc := by
          rintro rfl
          exact away inside
        simpa [readLoop, apart] using inv.waiting other inside
      · by_cases here : other = proc
        · subst here
          simp [readLoop] at held
        · exact inv.alive other (by simpa [readLoop, here] using held)
  | succ left ih =>
      have bounded := inv.bounded
      rw [readLoop]
      by_cases some' : s.rpos < s.wpos
      · rw [if_pos some']
        refine ih _ _ ⟨some', ?_, ?_, inv.distinct, inv.waiting, inv.alive⟩ away
        · show s.wpos ≤ s.rpos + 1 + stdinBufsize
          omega
        · have order := inv.order
          rw [unread, show s.wpos - s.rpos = s.wpos - (s.rpos + 1) + 1 by omega, slots_cons] at order
          show s.delivered ++ [s.buffer (s.rpos % stdinBufsize)] ++ slotsFrom stdinBufsize s.buffer (s.rpos + 1) (s.wpos - (s.rpos + 1)) =
            s.accepted
          simpa using order
      · rw [if_neg some']
        refine ⟨inv.behind, inv.bounded, inv.order, ?_, fun other inside => ?_, fun other held => ?_⟩
        · exact inv.distinct.append (List.nodup_singleton proc) (by simpa using away)
        · by_cases here : other = proc
          · simp [here]
          · simpa [here] using inv.waiting other (by simpa [here] using inside)
        · by_cases here : other = proc
          · simp [here]
          · simpa [here] using inv.alive other (by simpa [here] using held)

theorem step_inv (s : Stdin P) (inv : StdinInv s) (stdinCall : StdinCall P) (spares : s.Spares stdinCall) (next : Stdin P)
    (ran : s.call stdinCall = .ok next) : StdinInv next := by
  cases stdinCall with
  | write c => exact write_inv s inv c next spares ran
  | read proc len =>
      rw [call] at ran
      split at ran
      case isTrue ready =>
        obtain rfl := Except.ok.inj ran
        exact read_loop_inv len s proc [] inv fun inside => inv.waiting proc inside ready.1
      case isFalse => exact Except.ok.inj ran ▸ inv
  | resume proc =>
      cases held : s.reading proc with
      | none =>
          simp only [call, held] at ran
          exact Except.ok.inj ran ▸ inv
      | some reading =>
          simp only [call, held] at ran
          split at ran
          case isTrue runs =>
            obtain rfl := Except.ok.inj ran
            have left : StdinInv { s with queue := s.queue.erase proc } :=
              ⟨inv.behind, inv.bounded, inv.order, inv.distinct.erase proc,
                fun other inside => inv.waiting other (List.mem_of_mem_erase inside), inv.alive⟩
            have away : proc ∉ s.queue.erase proc := inv.distinct.not_mem_erase
            rw [readResumed]
            split
            · exact read_loop_inv reading.left _ proc reading.got left away
            · exact read_loop_inv 0 _ proc reading.got left away
          case isFalse => exact Except.ok.inj ran ▸ inv
  | kill proc =>
      cases killed : killProc s.waits.procs proc with
      | error fault => simp [call, killed, Except.map] at ran
      | ok result =>
          simp only [call, killed, Except.map, Except.ok.injEq] at ran
          subst ran
          exact ⟨inv.behind, inv.bounded, inv.order, inv.distinct, inv.waiting,
            fun other held => kill_lives s.waits.procs proc result killed other (inv.alive other held)⟩
  | other proc entry =>
      rw [call] at ran
      split at ran
      case isTrue outside =>
        obtain rfl := Except.ok.inj ran
        refine ⟨inv.behind, inv.bounded, inv.order, inv.distinct, inv.waiting, fun other held => ?_⟩
        have apart : other ≠ proc := by
          rintro rfl
          exact held outside
        simpa [apart] using inv.alive other held
      case isFalse => exact Except.ok.inj ran ▸ inv

theorem step_some (s next : Stdin P) (stdinCall : StdinCall P) (ran : s.step stdinCall = some next) : s.call stdinCall = .ok next := by
  unfold step at ran
  cases result : s.call stdinCall with
  | error fault => simp [result] at ran
  | ok other =>
      rw [result] at ran
      rw [Option.some.inj ran]

omit [DecidableEq P] in
theorem boot_inv (buffer : Nat → UInt8) (waits : Waits P) : StdinInv (boot buffer waits) :=
  ⟨Nat.le_refl 0, Nat.zero_le _, rfl, List.nodup_nil, by simp [boot], by simp [boot]⟩

theorem fifo_iff_spares (s : Stdin P) (inv : StdinInv s) (stdinCall : StdinCall P) :
    s.Spares stdinCall ↔ ∀ next, s.step stdinCall = some next → Fifo next := by
  constructor
  · exact fun spares next ran => inv_fifo next (step_inv s inv stdinCall spares next (step_some s next stdinCall ran))
  · intro good
    cases stdinCall with
    | write c => exact write_spares s inv c good
    | read _ _ => trivial
    | resume _ => trivial
    | kill _ => trivial
    | other _ _ => trivial

theorem fifo_from (s : Stdin P) (inv : StdinInv s) (calls : List (StdinCall P)) : Always step Fifo s calls ↔ Throughout step Spares s calls := by
  have same := throughout_congr step StdinInv (fun _ _ => True) Spares (fun s stdinCall => ∀ next, s.step stdinCall = some next → Fifo next)
    (fun s stdinCall next inv spares ran => step_inv s inv stdinCall spares next (step_some s next stdinCall ran))
    (fun s stdinCall inv _ => fifo_iff_spares s inv stdinCall) calls s inv
    (throughout_trivial step _ (fun _ _ => trivial) calls _)
  rw [always_throughout, same]
  exact ⟨fun both => both.2, fun later => ⟨inv_fifo _ inv, later⟩⟩

theorem fill_spec (buffer : Nat → UInt8) (waits : Waits P) (c : UInt8) (given : c ≠ 0) (count : Nat) (room : count ≤ stdinBufsize) :
    ∃ s, run step (boot buffer waits) (List.replicate count (.write c)) = some s ∧ StdinInv s ∧ s.unread = List.replicate count c := by
  induction count with
  | zero => exact ⟨boot buffer waits, rfl, boot_inv buffer waits, rfl⟩
  | succ count ih =>
      obtain ⟨s, ran, inv, content⟩ := ih (by omega)
      have free : s.unread.length < stdinBufsize := by
        rw [content, List.length_replicate]
        omega
      obtain ⟨waits', wrote, _⟩ := write_spec s inv c given
      have stepped : s.step (.write c) = some { s.stored c with waits := waits', queue := [] } := by rw [step, wrote]
      refine ⟨_, ?_, write_inv s inv c _ (.inr (.inl free)) wrote, ?_⟩
      · rw [List.replicate_succ', run_append, ran]
        simp [run, stepped]
      · show (s.stored c).unread = _
        rw [(stored_room s inv c free).1, content, List.replicate_succ']

-- In any order of characters and readers, and whatever happens to the processes.
theorem stdin_fifo_iff (buffer : Nat → UInt8) (waits : Waits P) (calls : List (StdinCall P)) :
    Always step Fifo (boot buffer waits) calls ↔ Throughout step Spares (boot buffer waits) calls :=
  fifo_from (boot buffer waits) (boot_inv buffer waits) calls

-- The buffer fills up with one letter, and then another one comes.
def oneTooMany : List (StdinCall Unit) := List.replicate stdinBufsize (.write 97) ++ [.write 98]

theorem stdin_overwrites : ¬ Always step Fifo (boot (fun _ => 0) ⟨fun _ => allocProc, fun _ => 0⟩) oneTooMany := by
  obtain ⟨s, ran, _, content⟩ := fill_spec (P := Unit) (fun _ => 0) ⟨fun _ => allocProc, fun _ => 0⟩ 97 (by decide) stdinBufsize (Nat.le_refl _)
  rw [fifo_from _ (boot_inv _ _)]
  intro spares
  have last := (throughout_append step Spares _ _ _ s spares ran).1
  rcases last with zero | room | front
  · exact absurd zero (by decide)
  · rw [content, List.length_replicate] at room
    exact Nat.lt_irrefl _ room
  · obtain ⟨others, whole⟩ : ∃ others, stdinBufsize = others + 1 := ⟨4095, rfl⟩
    rw [content, whole, List.replicate_succ] at front
    simp at front

end Stdin

end Ucore.Dev
