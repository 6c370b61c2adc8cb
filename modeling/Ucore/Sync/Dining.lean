import Mathlib.Logic.Function.Basic
import Mathlib.Tactic.Common
import Ucore.Lib.Sizes

set_option autoImplicit false

namespace Ucore.Sync

inductive PhiState where
  | thinking
  | hungry
  | eating
deriving DecidableEq, Repr

-- The neighbours of a philosopher.
structure Seats (P : Type) where
  left : P → P
  right : P → P
  right_left : ∀ i, right (left i) = i
  left_right : ∀ i, left (right i) = i
  apart : ∀ i, left i ≠ i

theorem left_value (count value : Nat) (small : value < count) :
    (value + count - 1) % count = if value = 0 then count - 1 else value - 1 := by
  by_cases first : value = 0
  · rw [if_pos first, first, Nat.zero_add, Nat.mod_eq_of_lt (by omega)]
  · rw [if_neg first, show value + count - 1 = value - 1 + count from by omega, Nat.add_mod_right, Nat.mod_eq_of_lt (by omega)]

theorem right_value (count value : Nat) (small : value < count) : (value + 1) % count = if value + 1 = count then 0 else value + 1 := by
  by_cases last : value + 1 = count
  · rw [if_pos last, last, Nat.mod_self]
  · rw [if_neg last, Nat.mod_eq_of_lt (by omega)]

-- LEFT and RIGHT: (i-1+N)%N and (i+1)%N.
def ring (count : Nat) (three : 3 ≤ count) : Seats (Fin count) where
  left i := ⟨(i.val + count - 1) % count, Nat.mod_lt _ (by omega)⟩
  right i := ⟨(i.val + 1) % count, Nat.mod_lt _ (by omega)⟩
  right_left := by
    intro i
    have left := left_value count i.val i.isLt
    have right := right_value count ((i.val + count - 1) % count) (Nat.mod_lt _ (by omega))
    apply Fin.ext
    change ((i.val + count - 1) % count + 1) % count = i.val
    grind
  left_right := by
    intro i
    have right := right_value count i.val i.isLt
    have left := left_value count ((i.val + 1) % count) (Nat.mod_lt _ (by omega))
    apply Fin.ext
    change ((i.val + 1) % count + count - 1) % count = i.val
    grind
  apart := by
    intro i same
    have left := left_value count i.val i.isLt
    have value : (i.val + count - 1) % count = i.val := congrArg Fin.val same
    grind

-- Which call of phi_test a philosopher is in: the one of phi_take_forks, or one of
-- the two of phi_put_forks.
inductive Turn where
  | take
  | putLeft
  | putRight
deriving DecidableEq, Repr

-- The statement of phi_test that comes next: one of the three comparisons, the
-- assignment or the call that wakes the philosopher up.
inductive TestAt where
  | own
  | left
  | right
  | grant
  | signal
deriving DecidableEq, Repr

-- The statement of philosopher_using_sema or philosopher_using_condvar that comes
-- next. waits is what comes in phi_take_forks after phi_test, which differs.
inductive Job (W : Type) where
  | thinking
  | hunger
  | test (place : TestAt) (turn : Turn)
  | waits (place : W)
  | eating
  | putting
  | leaving
deriving DecidableEq, Repr

structure Table (P W : Type) where
  state : P → PhiState
  job : P → Job W

namespace Table

variable {P W : Type} [DecidableEq P]

def target (seats : Seats P) (i : P) : Turn → P
  | .take => i
  | .putLeft => seats.left i
  | .putRight => seats.right i

-- What follows a call of phi_test.
def after (first : W) : Turn → Job W
  | .take => .waits first
  | .putLeft => .test .own .putRight
  | .putRight => .leaving

def goto (t : Table P W) (i : P) (job : Job W) : Table P W := { t with job := Function.update t.job i job }

def setState (t : Table P W) (i : P) (state : PhiState) : Table P W := { t with state := Function.update t.state i state }

-- phi_test, without what wakes the philosopher up.
def phiTest (seats : Seats P) (first : W) (t : Table P W) (i : P) (turn : Turn) : TestAt → Table P W
  | .own => t.goto i (if t.state (target seats i turn) = .hungry then .test .left turn else after first turn)
  | .left => t.goto i (if t.state (seats.left (target seats i turn)) ≠ .eating then .test .right turn else after first turn)
  | .right => t.goto i (if t.state (seats.right (target seats i turn)) ≠ .eating then .test .grant turn else after first turn)
  | .grant => (t.setState (target seats i turn) .eating).goto i (.test .signal turn)
  | .signal => t.goto i (after first turn)

-- state[i] = HUNGRY in phi_take_forks, state[i] = THINKING in phi_put_forks.
def takeForks (t : Table P W) (i : P) : Table P W := (t.setState i .hungry).goto i (.test .own .take)

def putForks (t : Table P W) (i : P) : Table P W := (t.setState i .thinking).goto i (.test .own .putLeft)

-- A philosopher's own state, by where it is.
def Own : Job W → PhiState → Prop
  | .thinking, state | .hunger, state | .leaving, state => state = .thinking
  | .test _ .take, state | .waits _, state => state ≠ .thinking
  | .test _ _, state => state = .thinking
  | .eating, state | .putting, state => state = .eating

-- Whom a philosopher has still to test: nobody who is not HUNGRY loses anything.
def Owes (seats : Seats P) (i j : P) : Job W → Prop
  | .test .signal turn => turn = .putLeft ∧ j = seats.right i
  | .test _ turn => target seats i turn = j ∨ turn = .putLeft ∧ j = seats.right i
  | _ => False

-- What the comparisons have told so far.
def Tested (seats : Seats P) (state : P → PhiState) (i : P) : Job W → Prop
  | .test .left turn => state (target seats i turn) = .hungry
  | .test .right turn => state (target seats i turn) = .hungry ∧ state (seats.left (target seats i turn)) ≠ .eating
  | .test .grant turn => state (target seats i turn) = .hungry ∧ state (seats.left (target seats i turn)) ≠ .eating ∧
      state (seats.right (target seats i turn)) ≠ .eating
  | _ => True

def testing : Job W → Bool
  | .test .left _ | .test .right _ | .test .grant _ => true
  | _ => false

def Served (seats : Seats P) (t : Table P W) (j : P) : Prop := t.state (seats.left j) = .eating ∨ t.state (seats.right j) = .eating

structure DiningInv (seats : Seats P) (t : Table P W) : Prop where
  apart : ∀ i, t.state i = .eating → t.state (seats.left i) ≠ .eating
  own : ∀ i, Own (t.job i) (t.state i)
  noMissed : ∀ j, t.state j = .hungry → t.Served seats j ∨ ∃ i, Owes seats i j (t.job i)
  tested : ∀ i, Tested seats t.state i (t.job i)

section Steps

variable (seats : Seats P) (t : Table P W) (i : P)

omit [DecidableEq P] in
theorem seats_right_apart : seats.right i ≠ i := by
  intro same
  have back := seats.left_right i
  rw [same] at back
  exact seats.apart i back

omit [DecidableEq P] in
theorem tested_idle (state state' : P → PhiState) (job : Job W) (idle : testing job = false) (tested : Tested seats state i job) :
    Tested seats state' i job := by
  cases job with
  | test place turn => cases place <;> simp_all [testing, Tested]
  | _ => trivial

-- A philosopher goes on without a change of a state.
theorem goto_inv (inv : DiningInv seats t) (job : Job W) (own : Own job (t.state i)) (tested : Tested seats t.state i job)
    (owed : ∀ j, t.state j = .hungry → Owes seats i j (t.job i) → t.Served seats j ∨ Owes seats i j job) :
    DiningInv seats (t.goto i job) where
  apart := inv.apart
  own := by
    intro j
    by_cases here : j = i
    · subst here
      simpa [goto] using own
    · simpa [goto, here] using inv.own j
  noMissed := by
    intro j hungry
    rcases inv.noMissed j hungry with served | ⟨other, owes⟩
    · exact .inl served
    · by_cases here : other = i
      · subst here
        rcases owed j hungry owes with served | owes'
        · exact .inl served
        · exact .inr ⟨other, by simpa [goto] using owes'⟩
      · exact .inr ⟨other, by simpa [goto, here] using owes⟩
  tested := by
    intro j
    by_cases here : j = i
    · subst here
      simpa [goto] using tested
    · simpa [goto, here] using inv.tested j

omit [DecidableEq P] in
theorem tested_kept (state state' : P → PhiState) (job : Job W) (hungry : ∀ k, state k = .hungry → state' k = .hungry)
    (calm : ∀ k, state k ≠ .eating → state' k ≠ .eating) (tested : Tested seats state i job) : Tested seats state' i job := by
  cases job with
  | test place turn =>
      cases place with
      | left => exact hungry _ tested
      | right => exact ⟨hungry _ tested.1, calm _ tested.2⟩
      | grant => exact ⟨hungry _ tested.1, calm _ tested.2.1, calm _ tested.2.2⟩
      | own => trivial
      | signal => trivial
  | _ => trivial

-- state[i] gets a value that is not EATING: who looked at it before sees no
-- philosopher start to eat.
theorem calm_inv (inv : DiningInv seats t) (state : PhiState) (job : Job W) (calm : state ≠ .eating) (awake : t.state i ≠ .hungry)
    (own : Own job state) (idle : testing job = false) (self : state = .hungry → Owes seats i i job)
    (owed : ∀ j, Owes seats i j (t.job i) → Owes seats i j job)
    (left : t.state i = .eating → ∀ j, t.state j = .hungry → seats.left j = i ∨ seats.right j = i → Owes seats i j job) :
    DiningInv seats ((t.setState i state).goto i job) where
  apart := by
    intro j eating
    by_cases same : j = i
    · subst same
      exact absurd (by simpa [goto, setState] using eating) calm
    · have before := inv.apart j (by simpa [goto, setState, same] using eating)
      by_cases next : seats.left j = i
      · simpa [goto, setState, next] using calm
      · simpa [goto, setState, next] using before
  own := by
    intro j
    by_cases same : j = i
    · subst same
      simpa [goto, setState] using own
    · simpa [goto, setState, same] using inv.own j
  noMissed := by
    intro j hungry
    by_cases same : j = i
    · subst same
      exact .inr ⟨j, by simpa [goto] using self (by simpa [goto, setState] using hungry)⟩
    · have before : t.state j = .hungry := by simpa [goto, setState, same] using hungry
      by_cases beside : t.state i = .eating ∧ (seats.left j = i ∨ seats.right j = i)
      · exact .inr ⟨i, by simpa [goto] using left beside.1 j before beside.2⟩
      · rcases inv.noMissed j before with served | ⟨other, owes⟩
        · left
          rcases served with eats | eats
          · have apart : seats.left j ≠ i := fun equal => beside ⟨equal ▸ eats, .inl equal⟩
            exact .inl (by simpa [goto, setState, apart] using eats)
          · have apart : seats.right j ≠ i := fun equal => beside ⟨equal ▸ eats, .inr equal⟩
            exact .inr (by simpa [goto, setState, apart] using eats)
        · by_cases here : other = i
          · subst here
            exact .inr ⟨other, by simpa [goto] using owed j owes⟩
          · exact .inr ⟨other, by simpa [goto, setState, here] using owes⟩
  tested := by
    intro j
    by_cases same : j = i
    · subst same
      have now := tested_idle seats j t.state (Function.update t.state j state) job idle
      cases job with
      | test place turn => cases place <;> simp_all [goto, setState, testing, Tested]
      | _ => simp [goto, setState, Tested]
    · have kept := tested_kept seats j t.state (Function.update t.state i state) (t.job j) ?_ ?_ (inv.tested j)
      · simpa [goto, setState, same] using kept
      · intro k hungry
        have apart : k ≠ i := fun equal => awake (equal ▸ hungry)
        simpa [apart] using hungry
      · intro k still
        by_cases equal : k = i
        · subst equal
          simpa using calm
        · simpa [equal] using still

theorem take_forks_inv (inv : DiningInv seats t) (here : t.job i = .hunger) : DiningInv seats (t.takeForks i) := by
  have was : t.state i = .thinking := by simpa [here, Own] using inv.own i
  refine calm_inv seats t i inv .hungry _ (by simp) (by simp [was]) (by simp [Own]) rfl ?_ ?_ ?_
  · intro _
    exact .inl rfl
  · intro j owes
    simp [here, Owes] at owes
  · intro eats
    rw [was] at eats
    exact absurd eats (by simp)

theorem put_forks_inv (inv : DiningInv seats t) (here : t.job i = .putting) : DiningInv seats (t.putForks i) := by
  have was : t.state i = .eating := by simpa [here, Own] using inv.own i
  refine calm_inv seats t i inv .thinking _ (by simp) (by simp [was]) rfl rfl (by simp) ?_ ?_
  · intro j owes
    simp [here, Owes] at owes
  · intro _ j _ beside
    rcases beside with left | right
    · exact .inr ⟨rfl, by rw [← left, seats.right_left]⟩
    · left
      rw [target, ← right, seats.left_right]

-- The grant: both neighbours of the philosopher were found not to eat, and nobody
-- else was testing meanwhile.
theorem grant_inv (inv : DiningInv seats t) (turn : Turn) (here : t.job i = .test .grant turn)
    (alone : ∀ other, other ≠ i → testing (t.job other) = false) :
    DiningInv seats ((t.setState (target seats i turn) .eating).goto i (.test .signal turn)) where
  apart := by
    obtain ⟨hungry, calmLeft, calmRight⟩ : Tested seats t.state i (.test .grant turn) := here ▸ inv.tested i
    intro j eating
    by_cases same : j = target seats i turn
    · subst same
      simpa [goto, setState, seats.apart] using calmLeft
    · have eats : t.state j = .eating := by simpa [goto, setState, same] using eating
      by_cases next : seats.left j = target seats i turn
      · rw [← next, seats.right_left] at calmRight
        exact absurd eats calmRight
      · simpa [goto, setState, next] using inv.apart j eats
  own := by
    obtain ⟨hungry, _, _⟩ : Tested seats t.state i (.test .grant turn) := here ▸ inv.tested i
    intro j
    by_cases same : j = i
    · subst same
      have before := inv.own j
      rw [here] at before
      cases turn with
      | take => simp [goto, setState, target, Own]
      | putLeft =>
          have apart : j ≠ seats.left j := (seats.apart j).symm
          simpa [goto, setState, target, apart, Own] using before
      | putRight =>
          have apart : j ≠ seats.right j := (seats_right_apart seats j).symm
          simpa [goto, setState, target, apart, Own] using before
    · by_cases granted : j = target seats i turn
      · subst granted
        have before := inv.own (target seats i turn)
        rw [hungry] at before
        cases job : t.job (target seats i turn) with
        | test place turn' => cases turn' <;> simp_all [goto, setState, Own]
        | waits place => simp [goto, setState, same, job, Own]
        | _ => simp [job, Own] at before
      · simpa [goto, setState, same, granted] using inv.own j
  noMissed := by
    intro j hungry
    by_cases granted : j = target seats i turn
    · subst granted
      simp [goto, setState] at hungry
    · rcases inv.noMissed j (by simpa [goto, setState, granted] using hungry) with served | ⟨other, owes⟩
      · left
        rcases served with eats | eats
        · by_cases next : seats.left j = target seats i turn
          · exact .inl (by simp [goto, setState, next])
          · exact .inl (by simpa [goto, setState, next] using eats)
        · by_cases next : seats.right j = target seats i turn
          · exact .inr (by simp [goto, setState, next])
          · exact .inr (by simpa [goto, setState, next] using eats)
      · by_cases same : other = i
        · subst same
          rw [here] at owes
          rcases owes with equal | later
          · exact absurd equal.symm granted
          · exact .inr ⟨other, by simpa [goto, Owes] using later⟩
        · exact .inr ⟨other, by simpa [goto, setState, same] using owes⟩
  tested := by
    intro j
    by_cases same : j = i
    · subst same
      simp [goto, setState, Tested]
    · have kept := tested_idle seats j t.state (t.setState (target seats i turn) .eating).state (t.job j) (alone j same) (inv.tested j)
      simpa [goto, setState, same] using kept

theorem after_own (first : W) (place : TestAt) (turn : Turn) (state : PhiState) (own : Own (.test place turn : Job W) state) :
    Own (after first turn) state := by
  cases turn <;> exact own

-- A comparison that fails: either the philosopher is not HUNGRY, or it has a
-- neighbour that eats. After the grant only the second test is owed.
omit [DecidableEq P] in
theorem failed_owed (first : W) (place : TestAt) (turn : Turn)
    (served : place ≠ .signal → t.state (target seats i turn) = .hungry → t.Served seats (target seats i turn))
    (j : P) (hungry : t.state j = .hungry) (owes : Owes seats i j (.test place turn : Job W)) :
    t.Served seats j ∨ Owes seats i j (after first turn) := by
  have later : turn = .putLeft ∧ j = seats.right i → Owes seats i j (after first turn) := by
    intro later
    rw [later.1]
    exact .inl later.2.symm
  have now : place ≠ .signal → target seats i turn = j ∨ turn = .putLeft ∧ j = seats.right i →
      t.Served seats j ∨ Owes seats i j (after first turn) := by
    intro compares owed
    rcases owed with equal | owed
    · exact .inl (equal ▸ served compares (equal ▸ hungry))
    · exact .inr (later owed)
  cases place with
  | signal => exact .inr (later owes)
  | _ => exact now (by simp) owes

theorem after_inv (inv : DiningInv seats t) (first : W) (place : TestAt) (turn : Turn) (here : t.job i = .test place turn)
    (served : place ≠ .signal → t.state (target seats i turn) = .hungry → t.Served seats (target seats i turn)) :
    DiningInv seats (t.goto i (after first turn)) := by
  have own := inv.own i
  rw [here] at own
  refine goto_inv seats t i inv _ (after_own first place turn _ own) ?_ ?_
  · cases turn <;> trivial
  · intro j hungry owes
    exact failed_owed seats t i first place turn served j hungry (here ▸ owes)

theorem next_inv (inv : DiningInv seats t) (place place' : TestAt) (turn : Turn) (here : t.job i = .test place turn) (comes : place' ≠ .signal)
    (tested : Tested seats t.state i (.test place' turn : Job W)) : DiningInv seats (t.goto i (.test place' turn)) := by
  have own := inv.own i
  rw [here] at own
  refine goto_inv seats t i inv _ ?_ tested ?_
  · cases turn <;> exact own
  · intro j _ owes
    rw [here] at owes
    have owes' : target seats i turn = j ∨ turn = .putLeft ∧ j = seats.right i := by
      cases place with
      | signal => exact .inr owes
      | _ => exact owes
    cases place' with
    | signal => exact absurd rfl comes
    | _ => exact .inr owes'

theorem phi_test_inv (inv : DiningInv seats t) (first : W) (place : TestAt) (turn : Turn) (here : t.job i = .test place turn)
    (alone : ∀ other, other ≠ i → testing (t.job other) = false) : DiningInv seats (phiTest seats first t i turn place) := by
  have tested := inv.tested i
  rw [here] at tested
  cases place with
  | own =>
      by_cases hungry : t.state (target seats i turn) = .hungry
      · rw [phiTest, if_pos hungry]
        exact next_inv seats t i inv .own .left turn here (by simp) hungry
      · rw [phiTest, if_neg hungry]
        exact after_inv seats t i inv first .own turn here fun _ equal => absurd equal hungry
  | left =>
      by_cases calm : t.state (seats.left (target seats i turn)) ≠ .eating
      · rw [phiTest, if_pos calm]
        exact next_inv seats t i inv .left .right turn here (by simp) ⟨tested, calm⟩
      · rw [phiTest, if_neg calm]
        exact after_inv seats t i inv first .left turn here fun _ _ => .inl (not_not.mp calm)
  | right =>
      by_cases calm : t.state (seats.right (target seats i turn)) ≠ .eating
      · rw [phiTest, if_pos calm]
        exact next_inv seats t i inv .right .grant turn here (by simp) ⟨tested.1, tested.2, calm⟩
      · rw [phiTest, if_neg calm]
        exact after_inv seats t i inv first .right turn here fun _ _ => .inr (not_not.mp calm)
  | grant => exact grant_inv seats t i inv turn here alone
  | signal => exact after_inv seats t i inv first .signal turn here fun compares => absurd rfl compares

omit [DecidableEq P] in
theorem boot_inv : DiningInv seats ⟨fun _ => .thinking, fun _ => (.thinking : Job W)⟩ where
  apart := by simp
  own := fun _ => rfl
  noMissed := by simp
  tested := fun _ => trivial

end Steps

end Table

-- What check_sync is there to show: neighbours do not eat at once, who has its
-- forks eats, and while nobody is inside the section everybody who is HUNGRY has a
-- neighbour to wait for.
structure DiningSafe {P : Type} (seats : Seats P) (state : P → PhiState) (returned inside : P → Prop) : Prop where
  apart : ∀ i, state i = .eating → state (seats.left i) ≠ .eating ∧ state (seats.right i) ≠ .eating
  returned : ∀ i, returned i → state i = .eating
  noMissed : (∀ i, ¬ inside i) → ∀ i, state i = .hungry → state (seats.left i) = .eating ∨ state (seats.right i) = .eating

namespace Table

variable {P W : Type} [DecidableEq P]

omit [DecidableEq P] in
theorem dining_safe (seats : Seats P) (t : Table P W) (inv : DiningInv seats t) (returned inside : P → Prop)
    (eats : ∀ i, returned i → t.job i = .eating) (tests : ∀ i, (∃ place turn, t.job i = .test place turn) → inside i) :
    DiningSafe seats t.state returned inside where
  apart := by
    intro i eating
    refine ⟨inv.apart i eating, fun right => ?_⟩
    have left := inv.apart (seats.right i) right
    rw [seats.left_right] at left
    exact left eating
  returned := by
    intro i back
    have own := inv.own i
    rw [eats i back] at own
    exact own
  noMissed := by
    intro nobody i hungry
    rcases inv.noMissed i hungry with served | ⟨other, owes⟩
    · exact served
    · cases job : t.job other with
      | test place turn => exact absurd (tests other ⟨place, turn, job⟩) (nobody other)
      | _ => simp [job, Owes] at owes

end Table

end Ucore.Sync
