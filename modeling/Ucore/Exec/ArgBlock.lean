import Ucore.Exec.CopyKargv
import Ucore.Exec.ImageBuilt

set_option autoImplicit false

namespace Ucore.Exec

open Ucore.Lib Ucore.Vmm

-- The physical address behind a user address.
def physAt (pgdir : Pgdir) (va : Nat) : Option Nat := (pgdir.entry (va / pgSize)).map fun pte => pte.ppn * pgSize + va % pgSize

def Writable (pgdir : Pgdir) (va : Nat) : Prop := ∃ pte, pgdir.entry (va / pgSize) = some pte ∧ pte.flags &&& pteW ≠ 0

theorem user_byte_at (mem : Mem) (pgdir : Pgdir) (va : Nat) : userByte mem pgdir va = (physAt pgdir va).map mem.phys := by
  rw [userByte, physAt, Option.map_map]
  rfl

theorem phys_at_apart (mem : Mem) (pgdir : Pgdir) (foreign : Nat → Prop) (outside : Nat → Nat) (image : Image mem pgdir foreign outside)
    (va vb addr : Nat) (lowA : va / pgSize < nPages) (lowB : vb / pgSize < nPages) (first : physAt pgdir va = some addr)
    (second : physAt pgdir vb = some addr) : va = vb := by
  obtain ⟨pte, entry, here⟩ := Option.map_eq_some_iff.mp first
  obtain ⟨pte', entry', there⟩ := Option.map_eq_some_iff.mp second
  have frames : pte.ppn = pte'.ppn := by
    simp only [pgSize] at here there
    omega
  have pages := image.own _ _ pte pte' lowA lowB entry entry' frames
  rw [frames] at here
  simp only [pgSize] at pages here there
  omega

section Stores

variable (pgdir : Pgdir)
  (apart : ∀ va vb addr, va / pgSize < nPages → vb / pgSize < nPages → physAt pgdir va = some addr → physAt pgdir vb = some addr → va = vb)

include apart

theorem store_user_ok (mem : Mem) (va : Nat) (value : UInt8) (low : va / pgSize < nPages) (writable : Writable pgdir va) :
    ∃ mem', storeUser mem pgdir va value = .ok mem' ∧
      (∀ vb, vb / pgSize < nPages → userByte mem' pgdir vb = if vb = va then some value else userByte mem pgdir vb) ∧
      ∀ addr, physAt pgdir va ≠ some addr → mem'.phys addr = mem.phys addr := by
  obtain ⟨pte, entry, flag⟩ := writable
  have place : physAt pgdir va = some (pte.ppn * pgSize + va % pgSize) := by rw [physAt, entry]; rfl
  refine ⟨{ mem with phys := Function.update mem.phys (pte.ppn * pgSize + va % pgSize) value }, ?_, fun vb bound => ?_, fun addr away => ?_⟩
  · rw [storeUser, entry]
    simp only [if_pos flag, storeByte, entry]
  · rw [user_byte_at, user_byte_at]
    by_cases same : vb = va
    · rw [if_pos same, same, place]
      simp
    · rw [if_neg same]
      cases there : physAt pgdir vb with
      | none => rfl
      | some addr =>
          have differs : addr ≠ pte.ppn * pgSize + va % pgSize := by
            intro equal
            exact same (apart vb va _ bound low (equal ▸ there) place)
          simp [differs]
  · have differs : addr ≠ pte.ppn * pgSize + va % pgSize := by
      intro equal
      exact away (equal ▸ place)
    simp [differs]

-- A copy to addresses that can be written: these bytes and no others.
theorem memcpy_user_ok (mem : Mem) (va : Nat) (src : Bytes) (len : Nat) (low : ∀ vb, va ≤ vb → vb < va + len → vb / pgSize < nPages)
    (writable : ∀ vb, va ≤ vb → vb < va + len → Writable pgdir vb) :
    ∃ mem', memcpyUser mem pgdir va src len = .ok mem' ∧
      (∀ vb, vb / pgSize < nPages → userByte mem' pgdir vb = if va ≤ vb ∧ vb < va + len then some (src (vb - va)) else userByte mem pgdir vb) ∧
      ∀ addr, (∀ vb, va ≤ vb → vb < va + len → physAt pgdir vb ≠ some addr) → mem'.phys addr = mem.phys addr := by
  induction len generalizing mem va src with
  | zero => exact ⟨mem, rfl, fun vb _ => by rw [if_neg (by omega)], fun _ _ => rfl⟩
  | succ len ih =>
      obtain ⟨mem1, stored, byte1, frame1⟩ := store_user_ok pgdir apart mem va (src 0) (low va (Nat.le_refl _) (by omega))
        (writable va (Nat.le_refl _) (by omega))
      obtain ⟨mem', copied, bytes, frame⟩ := ih mem1 (va + 1) (src.from 1) (fun vb lower upper => low vb (by omega) (by omega))
        fun vb lower upper => writable vb (by omega) (by omega)
      refine ⟨mem', ?_, fun vb bound => ?_, fun addr away => ?_⟩
      · rw [memcpyUser, stored, ok_bind, copied]
      · rw [bytes vb bound, byte1 vb bound]
        by_cases first : vb = va
        · subst first
          rw [if_neg (by omega), if_pos rfl, if_pos (by omega), Nat.sub_self]
        · by_cases inside : va ≤ vb ∧ vb < va + (len + 1)
          · rw [if_pos (by omega), if_pos inside, Bytes.from]
            congr 2
            omega
          · rw [if_neg (by omega), if_neg first, if_neg inside]
      · rw [frame addr fun vb lower upper => away vb (by omega) (by omega)]
        exact frame1 addr (away va (Nat.le_refl _) (by omega))

end Stores

-- The bytes of the strings, and where each begins when they end at top.
def argsSize (args : List (List UInt8)) : Nat := (args.map fun arg => arg.length + 1).sum

def argPlaces (top : Nat) : List (List UInt8) → List Nat
  | [] => []
  | arg :: rest => (top - argsSize (arg :: rest)) :: argPlaces top rest

theorem args_size_cons (arg : List UInt8) (rest : List (List UInt8)) : argsSize (arg :: rest) = arg.length + 1 + argsSize rest := by
  simp [argsSize]

theorem sub64_small (a b : Nat) (small : a < 2 ^ 64) (le : b ≤ a) : sub64 a b = a - b := by
  unfold sub64
  omega

theorem arg_places_length (top : Nat) (args : List (List UInt8)) : (argPlaces top args).length = args.length := by
  induction args with
  | nil => rfl
  | cons arg rest ih => simp [argPlaces, ih]

-- A string of the block lies between the ones before and after it.
theorem arg_places_at (top : Nat) (args : List (List UInt8)) (fits : argsSize args ≤ top) (i : Nat) (bound : i < args.length) :
    (argPlaces top args).getD i 0 + argsSize (args.drop i) = top := by
  induction args generalizing i with
  | nil => simp at bound
  | cons arg rest ih =>
      rw [args_size_cons] at fits
      cases i with
      | zero =>
          simp only [argPlaces, List.getD_cons_zero, List.drop_zero]
          rw [args_size_cons]
          omega
      | succ i =>
          simp only [argPlaces, List.getD_cons_succ, List.drop_succ_cons]
          exact ih (by omega) i (by simpa using bound)

-- pushArgs stops where the strings say, whatever it did to the memory.
theorem push_args_stop (mem mem' : Mem) (pgdir : Pgdir) (top sp : Nat) (args : List (List UInt8)) (uargv : List Nat) (small : top < 2 ^ 64)
    (fits : argsSize args ≤ top) (ran : pushArgs mem pgdir top args = .ok (mem', sp, uargv)) : sp = top - argsSize args := by
  induction args generalizing mem' sp uargv with
  | nil =>
      simp only [pushArgs, Except.ok.injEq, Prod.mk.injEq] at ran
      rw [← ran.2.1]
      rfl
  | cons arg rest ih =>
      rw [args_size_cons] at fits ⊢
      rw [pushArgs] at ran
      obtain ⟨⟨mem1, sp1, uargv1⟩, pushed, ran⟩ := bind_ok ran
      obtain ⟨mem2, _, ran⟩ := bind_ok ran
      simp only [pure_ok, Except.ok.injEq, Prod.mk.injEq] at ran
      have before := ih mem1 sp1 uargv1 (by omega) pushed
      rw [← ran.2.1, before, sub64_small _ _ (by omega) (by omega)]
      omega

theorem args_size_drop (args : List (List UInt8)) (i : Nat) (bound : i < args.length) :
    argsSize (args.drop i) = (args.getD i []).length + 1 + argsSize (args.drop (i + 1)) := by
  rw [List.drop_eq_getElem_cons bound, args_size_cons]
  simp [bound]

theorem args_size_drop_le (args : List (List UInt8)) (i : Nat) : argsSize (args.drop i) ≤ argsSize args := by
  induction args generalizing i with
  | nil => simp
  | cons arg rest ih =>
      rw [args_size_cons]
      cases i with
      | zero => rw [List.drop_zero, args_size_cons]
      | succ i =>
          have less := ih i
          rw [List.drop_succ_cons]
          omega

-- A string in the memory of the program.
def StringAt (mem : Mem) (pgdir : Pgdir) (va : Nat) (arg : List UInt8) : Prop :=
  ∀ k, k ≤ arg.length → userByte mem pgdir (va + k) = some (arg.getD k 0)

theorem push_args_ok (mem : Mem) (pgdir : Pgdir) (top : Nat) (args : List (List UInt8)) (low : top / pgSize < nPages)
    (apart : ∀ va vb addr, va / pgSize < nPages → vb / pgSize < nPages → physAt pgdir va = some addr → physAt pgdir vb = some addr → va = vb)
    (fits : argsSize args ≤ top) (writable : ∀ va, top - argsSize args ≤ va → va < top → Writable pgdir va) :
    ∃ mem', pushArgs mem pgdir top args = .ok (mem', top - argsSize args, argPlaces top args) ∧
      (∀ i, i < args.length → StringAt mem' pgdir ((argPlaces top args).getD i 0) (args.getD i [])) ∧
      ∀ addr, (∀ vb, top - argsSize args ≤ vb → vb < top → physAt pgdir vb ≠ some addr) → mem'.phys addr = mem.phys addr := by
  have below : ∀ vb, vb < top → vb / pgSize < nPages := by
    intro vb less
    exact Nat.lt_of_le_of_lt (Nat.div_le_div_right (Nat.le_of_lt less)) low
  have wide : top < 2 ^ 64 := by
    simp only [pgSize, nPages] at low
    omega
  induction args generalizing mem with
  | nil => exact ⟨mem, rfl, by simp, fun _ _ => rfl⟩
  | cons arg rest ih =>
      rw [args_size_cons] at fits writable ⊢
      obtain ⟨mem1, pushed, strings1, frame1⟩ := ih mem (by omega) fun va lower upper => writable va (by omega) upper
      have place : sub64 (top - argsSize rest) (arg.length + 1) = top - (arg.length + 1 + argsSize rest) := by
        rw [sub64_small _ _ (by omega) (by omega)]
        omega
      obtain ⟨mem', copied, bytes, frame⟩ := memcpy_user_ok pgdir apart mem1 (top - (arg.length + 1 + argsSize rest)) (cString arg) (arg.length + 1)
        (fun vb _ upper => below vb (by omega)) fun vb lower upper => writable vb lower (by omega)
      refine ⟨mem', ?_, fun i bound => ?_, fun addr away => ?_⟩
      · rw [pushArgs, pushed]
        simp only [ok_bind, place, copied, pure_ok, argPlaces, args_size_cons]
      · intro k short
        cases i with
        | zero =>
            simp only [argPlaces, List.getD_cons_zero, args_size_cons] at short ⊢
            rw [bytes _ (below _ (by omega)), if_pos (by omega), cString]
            congr 2
            omega
        | succ i =>
            have inRest : i < rest.length := by simpa using bound
            have there := arg_places_at top rest (by omega) i inRest
            have size := args_size_drop rest i inRest
            have whole : argsSize (rest.drop i) ≤ argsSize rest := args_size_drop_le rest i
            simp only [argPlaces, List.getD_cons_succ] at short ⊢
            rw [bytes _ (below _ (by omega)), if_neg (by omega)]
            exact strings1 i inRest k short
      · rw [frame addr fun vb lower upper => away vb lower (by omega)]
        exact frame1 addr fun vb lower upper => away vb (by omega) upper

-- The strings, rounded up to a pointer, and the array below them.
def blockSize (kargv : List (List UInt8)) : Nat := roundUp (argsSize kargv) sizeofPtr + sizeofPtr * kargv.length

theorem setup_args_stop (mem mem' : Mem) (pgdir : Pgdir) (kargv : List (List UInt8)) (sp : Nat) (fits : blockSize kargv ≤ ustackTop)
    (ran : setupArgs mem pgdir kargv = .ok (mem', sp)) : sp = ustackTop - blockSize kargv := by
  rw [setupArgs] at ran
  obtain ⟨⟨mem1, sp1, uargv⟩, pushed, ran⟩ := bind_ok ran
  obtain ⟨mem2, _, ran⟩ := bind_ok ran
  simp only [pure_ok, Except.ok.injEq, Prod.mk.injEq] at ran
  simp only [blockSize, roundUp, roundDown, sizeofPtr, ustackTop, userTop] at fits
  have strings := push_args_stop mem mem1 pgdir ustackTop sp1 kargv uargv (by decide) (by simp only [ustackTop, userTop]; omega) pushed
  rw [← ran.2, strings, sub64_small]
  · simp only [blockSize, roundUp, roundDown, sizeofPtr, ustackTop, userTop]
    omega
  · simp only [roundDown, sizeofPtr, ustackTop, userTop]
    omega
  · simp only [roundDown, sizeofPtr, ustackTop, userTop]
    omega

-- The four pages that load_icode maps for the stack.
def StackPage (pgdir : Pgdir) (va : Nat) : Prop :=
  ustackTop - 4 * pgSize ≤ va ∧ va < ustackTop ∧ ∃ page, pgdir.entry (va / pgSize) = some (pteCreate page (pteV ||| stackPerm))

-- The block of the arguments: all of it on pages that are mapped, nothing written
-- elsewhere, the array of pointers at sp, and behind each pointer its string, with no
-- byte of two of them in common.
structure ArgBlock (before after : Mem) (pgdir : Pgdir) (kargv : List (List UInt8)) (sp : Nat) (uargv : List Nat) : Prop where
  mapped : ∀ va, sp ≤ va → va < ustackTop → StackPage pgdir va
  only : ∀ addr, (∀ va, sp ≤ va → va < ustackTop → physAt pgdir va ≠ some addr) → after.phys addr = before.phys addr
  length : uargv.length = kargv.length
  array : ∀ i, i < kargv.length → ∀ k, k < sizeofPtr → userByte after pgdir (sp + sizeofPtr * i + k) = some (toLe (uargv.getD i 0) k)
  above : ∀ i, i < kargv.length → sp + sizeofPtr * kargv.length ≤ uargv.getD i 0
  below : ∀ i, i < kargv.length → uargv.getD i 0 + (kargv.getD i []).length + 1 ≤ ustackTop
  apart : ∀ i j, i < j → j < kargv.length → uargv.getD i 0 + (kargv.getD i []).length + 1 ≤ uargv.getD j 0
  strings : ∀ i, i < kargv.length → StringAt after pgdir (uargv.getD i 0) (kargv.getD i [])

theorem args_size_mono (args : List (List UInt8)) (i j : Nat) (le : i ≤ j) : argsSize (args.drop j) ≤ argsSize (args.drop i) := by
  obtain ⟨k, rfl⟩ := Nat.exists_eq_add_of_le le
  rw [← List.drop_drop]
  exact args_size_drop_le (args.drop i) k

theorem setup_args_ok (mem : Mem) (pgdir : Pgdir) (kargv : List (List UInt8))
    (apart : ∀ va vb addr, va / pgSize < nPages → vb / pgSize < nPages → physAt pgdir va = some addr → physAt pgdir vb = some addr → va = vb)
    (stack : ∀ va, ustackTop - 4 * pgSize ≤ va → va < ustackTop → StackPage pgdir va) (fits : blockSize kargv ≤ 4 * pgSize) :
    ∃ mem', setupArgs mem pgdir kargv = .ok (mem', ustackTop - blockSize kargv) ∧
      ArgBlock mem mem' pgdir kargv (ustackTop - blockSize kargv) (argPlaces ustackTop kargv) := by
  have writable : ∀ va, ustackTop - 4 * pgSize ≤ va → va < ustackTop → Writable pgdir va := by
    intro va lower upper
    obtain ⟨_, _, page, entry⟩ := stack va lower upper
    exact ⟨_, entry, by simp [pteCreate, stackPerm, pteV, pteR, pteW, pteU]⟩
  have low : ∀ va, va < ustackTop → va / pgSize < nPages := by
    intro va upper
    simp only [ustackTop, userTop, pgSize, nPages] at *
    omega
  -- The strings, the rounding and the array.
  have sizes : argsSize kargv + sizeofPtr * kargv.length ≤ blockSize kargv := by
    simp only [blockSize, roundUp, roundDown, sizeofPtr]
    omega
  have roundedSp : sub64 (roundDown (ustackTop - argsSize kargv) sizeofPtr) (sizeofPtr * kargv.length) = ustackTop - blockSize kargv := by
    simp only [blockSize, roundUp, roundDown, sizeofPtr, ustackTop, userTop, pgSize] at fits ⊢
    rw [sub64_small _ _ (by omega) (by omega)]
    omega
  have top : 4 * pgSize ≤ ustackTop := by decide
  obtain ⟨mem1, pushed, strings1, frame1⟩ := push_args_ok mem pgdir ustackTop kargv (by decide) apart (by omega)
    fun va lower upper => writable va (by omega) upper
  obtain ⟨mem', copied, bytes, frame⟩ := memcpy_user_ok pgdir apart mem1 (ustackTop - blockSize kargv) (pointerBytes (argPlaces ustackTop kargv))
    (sizeofPtr * kargv.length) (fun vb _ upper => low vb (by omega)) fun vb lower upper => writable vb (by omega) (by omega)
  have place : ∀ i, i < kargv.length → (argPlaces ustackTop kargv).getD i 0 + argsSize (kargv.drop i) = ustackTop := fun i bound =>
    arg_places_at ustackTop kargv (by omega) i bound
  refine ⟨mem', ?_, ?_⟩
  · rw [setupArgs, pushed]
    simp only [ok_bind, roundedSp, copied, pure_ok]
  · refine ⟨fun va lower upper => stack va (by omega) upper, fun addr away => ?_, arg_places_length _ _, fun i bound k small => ?_,
      fun i bound => ?_, fun i bound => ?_, fun i j less bound => ?_, fun i bound k short => ?_⟩
    · rw [frame addr fun vb lower upper => away vb lower (by omega)]
      exact frame1 addr fun vb lower upper => away vb (by omega) upper
    · have inside : sizeofPtr * i + k < sizeofPtr * kargv.length := by
        simp only [sizeofPtr] at *
        omega
      rw [bytes _ (low _ (by omega)), if_pos (by omega), pointerBytes]
      have offset : ustackTop - blockSize kargv + sizeofPtr * i + k - (ustackTop - blockSize kargv) = sizeofPtr * i + k := by omega
      have index : (sizeofPtr * i + k) / sizeofPtr = i ∧ (sizeofPtr * i + k) % sizeofPtr = k := by
        simp only [sizeofPtr] at *
        omega
      rw [offset, index.1, index.2]
    · have here := place i bound
      have part := args_size_drop_le kargv i
      omega
    · have here := place i bound
      have size := args_size_drop kargv i bound
      omega
    · have here := place i (by omega)
      have there := place j bound
      have size := args_size_drop kargv i (by omega)
      have mono := args_size_mono kargv (i + 1) j (by omega)
      omega
    · have here := place i bound
      have size := args_size_drop kargv i bound
      have part := args_size_drop_le kargv i
      rw [bytes _ (low _ (by omega)), if_neg (by omega)]
      exact strings1 i bound k short

theorem built_stack (fails : Failures) (mem mem' : Mem) (file : ElfFile) (mm' : Mm) (clean : ∀ page, mem.free page = true → mem.ref page = 0)
    (builds : Builds fails mem file mem' mm') (va : Nat) (lower : ustackTop - 4 * pgSize ≤ va) (upper : va < ustackTop) :
    StackPage mm'.pgdir va := by
  obtain ⟨foreign, outside, _, _, mem1, mm1, stack, _, _, _, image1, set, _⟩ := builds_parts fails mem mem' file mm' clean builds
  obtain ⟨mmS, pgdir', mapped, pages, rfl⟩ := setup_stack_parts fails mem1 mem' mm1 mm' stack set
  rw [(mm_map_shape mm1 mmS _ _ _ mapped).1] at pages
  have entries := (stack_pages_image foreign outside _ mem1 mem' mm1.pgdir pgdir' image1 pages).2 (va / pgSize) (by
    simp only [ustackTop, userTop, pgSize, nPages] at *
    omega)
  rw [if_pos] at entries
  · exact ⟨lower, upper, entries⟩
  · refine ⟨ustackTop / pgSize - va / pgSize, ?_, ?_⟩
    · simp only [List.mem_cons, List.not_mem_nil, or_false, ustackTop, userTop, pgSize] at *
      omega
    · simp only [ustackTop, userTop, pgSize] at *
      omega

-- load_icode on such a program: all that is left are the arguments.
theorem load_icode_args (fails : Failures) (mem memS : Mem) (satp : Nat) (file : ElfFile) (mmS : Mm) (kargv : List (List UInt8))
    (builds : Builds fails mem file memS mmS) : ∃ made, loadIcode fails mem satp file kargv = (do
      let (mem', sp) ← setupArgs memS mmS.pgdir kargv
      return ⟨0, mem', some ⟨mmS, ⟨sp, kargv.length, sp, (elfhdrAt file.bytes).eEntry⟩⟩, mmS.pgdir.page, made, [.uargv]⟩) := by
  obtain ⟨⟨noMm, noUargv⟩, magic, mm0, mem0, mem1, mm1, made, stack, created, read, loaded, set⟩ := builds
  refine ⟨.mm :: made ++ stack ++ [.uargv], ?_⟩
  rw [loadIcode, noMm, created]
  simp only [Bool.false_eq_true, if_false, read, magic, ne_eq, not_true_eq_false, loaded, set, ok_bind, noUargv]

theorem args_size_le (args : List (List UInt8)) (len : ∀ arg ∈ args, arg.length ≤ execMaxArgLen) : argsSize args ≤ (execMaxArgLen + 1) * args.length := by
  induction args with
  | nil => simp [argsSize]
  | cons arg rest ih =>
      have first := len arg (by simp)
      have others := ih fun other member => len other (by simp [member])
      rw [args_size_cons, List.length_cons, Nat.mul_succ]
      omega

theorem accepted_small (kargv : List (List UInt8)) (accepted : Accepted kargv) : blockSize kargv ≤ ustackTop := by
  have size := args_size_le kargv accepted.len
  have num := accepted.num
  simp only [blockSize, roundUp, roundDown, sizeofPtr, execMaxArgLen, execMaxArgNum, ustackTop, userTop] at *
  omega

-- The arguments are laid out: load_icode returns, and the program finds them at sp.
def ArgsLaidOut (fails : Failures) (mem memS : Mem) (satp : Nat) (file : ElfFile) (mmS : Mm) (kargv : List (List UInt8)) : Prop :=
  ∃ outcome sp uargv, loadIcode fails mem satp file kargv = .ok outcome ∧ outcome.ret = 0 ∧
    outcome.current = some ⟨mmS, ⟨sp, kargv.length, sp, (elfhdrAt file.bytes).eEntry⟩⟩ ∧ ArgBlock memS outcome.mem mmS.pgdir kargv sp uargv

section Args

variable (fails : Failures) (mem memS : Mem) (satp : Nat) (file : ElfFile) (mmS : Mm) (kargv : List (List UInt8))
  (clean : ∀ page, mem.free page = true → mem.ref page = 0) (accepted : Accepted kargv) (builds : Builds fails mem file memS mmS)

include builds

-- What lies below the four pages has no page to be stored in.
include accepted in
theorem laid_out_fits (laid : ArgsLaidOut fails mem memS satp file mmS kargv) : blockSize kargv ≤ 4 * pgSize := by
  have small := accepted_small kargv accepted
  obtain ⟨made, run⟩ := load_icode_args fails mem memS satp file mmS kargv builds
  obtain ⟨outcome, sp, uargv, ran, _, current, block⟩ := laid
  rw [run] at ran
  obtain ⟨⟨mem1, sp1⟩, args, ran⟩ := bind_ok ran
  simp only [pure_ok, Except.ok.injEq] at ran
  rw [← ran] at current
  simp only [Option.some.injEq, Loaded.mk.injEq, Trapframe.mk.injEq, true_and] at current
  have stop := setup_args_stop memS mem1 mmS.pgdir kargv sp1 small args
  have positive : 1 ≤ kargv.length := accepted.some'
  have nonempty : 0 < blockSize kargv := by
    simp only [blockSize, sizeofPtr]
    omega
  have lowest := (block.mapped sp (Nat.le_refl _) (by omega)).1
  have top : 4 * pgSize ≤ ustackTop := by decide
  omega

include clean in
theorem fits_laid_out (fits : blockSize kargv ≤ 4 * pgSize) : ArgsLaidOut fails mem memS satp file mmS kargv := by
  obtain ⟨made, run⟩ := load_icode_args fails mem memS satp file mmS kargv builds
  obtain ⟨foreign, outside, _, _, _, _, _, _, _, _, _, _, image⟩ := builds_parts fails mem memS file mmS clean builds
  obtain ⟨mem', args, block⟩ := setup_args_ok memS mmS.pgdir kargv (phys_at_apart memS mmS.pgdir foreign outside image)
    (built_stack fails mem memS file mmS clean builds) fits
  have ran : loadIcode fails mem satp file kargv = .ok ⟨0, mem', some ⟨mmS, ⟨ustackTop - blockSize kargv, kargv.length,
      ustackTop - blockSize kargv, (elfhdrAt file.bytes).eEntry⟩⟩, mmS.pgdir.page, made, [.uargv]⟩ := by
    rw [run, args]
    rfl
  exact ⟨_, _, _, ran, rfl, rfl, block⟩

end Args

-- Nothing compares the block with the four pages, so it is laid out exactly when it
-- fits into them.
theorem exec_args_iff (fails : Failures) (mem memS : Mem) (satp : Nat) (file : ElfFile) (mmS : Mm) (kargv : List (List UInt8))
    (clean : ∀ page, mem.free page = true → mem.ref page = 0) (accepted : Accepted kargv) (builds : Builds fails mem file memS mmS) :
    ArgsLaidOut fails mem memS satp file mmS kargv ↔ blockSize kargv ≤ 4 * pgSize :=
  ⟨laid_out_fits fails mem memS satp file mmS kargv accepted builds, fits_laid_out fails mem memS satp file mmS kargv clean builds⟩

-- A volume with one file of 136 bytes in one block, and what is to be in the file.
def elfVolume (bytes : Bytes) : Sfs.SfsFs := (Sfs.freshVolume 2).sfs.store 4 bytes

def elfInode : Sfs.SfsInode := ⟨⟨136, Sfs.typeFile, 1, 1, fun i => if (i : Nat) = 0 then 4 else 0, 0⟩, 3, false⟩

theorem elf_slot (bytes : Bytes) (i : Nat) : Sfs.slot (elfVolume bytes) elfInode.din i = if i = 0 then 4 else 0 := by
  by_cases first : i = 0
  · subst first
    rfl
  · rw [Sfs.slot, if_neg first]
    by_cases bound : i < 12
    · rw [dif_pos bound]
      exact if_neg first
    · rw [dif_neg bound]
      rfl

theorem elf_map (bytes : Bytes) : Sfs.FileMap (elfVolume bytes) elfInode.din (fun b => b < 4) where
  type := rfl
  bounded := show 1 ≤ 1036 from by decide
  mapped i below := by
    have first : i = 0 := Nat.lt_one_iff.mp below
    rw [elf_slot, if_pos first]
    decide
  unmapped i above _ := by
    have later : 1 ≤ i := above
    rw [elf_slot, if_neg (by omega)]
  distinct i j one other _ := by
    have first : i = 0 := Nat.lt_one_iff.mp one
    have same : j = 0 := Nat.lt_one_iff.mp other
    rw [first, same]
  apart i below := by
    have first : i = 0 := Nat.lt_one_iff.mp below
    rw [elf_slot, if_pos first]
    exact show 4 ≠ 0 from by decide
  owned b refers := by
    rcases refers with ⟨entry, some'⟩ | ⟨i, below, mapped⟩
    · exact absurd entry some'
    · have first : i = 0 := Nat.lt_one_iff.mp below
      rw [elf_slot, if_pos first] at mapped
      subst mapped
      exact ⟨by decide, show 4 < 32 from by decide, (Sfs.fresh_bit 5 4).trans (by decide), by decide⟩
  others b low := by
    have below : ¬ 5 ≤ b := by omega
    exact ⟨Nat.lt_trans low (show 4 < 32 from by decide), (Sfs.fresh_bit 5 b).trans (by simp [below])⟩

def storedElf (bytes : Bytes) : ElfFile where
  sfs := elfVolume bytes
  sin := elfInode
  mounted := by
    have mounted := (Sfs.fresh_image 2 (by decide)).wellFormed.mounted
    exact ⟨mounted.fits, mounted.small, mounted.nbits, mounted.words, mounted.past, mounted.superUsed, mounted.unused⟩
  map := ⟨fun b => b < 4, Nat.zero_lt_succ 3, elf_map bytes⟩
  covered := show 136 ≤ 1 * 4096 from by decide
  works := rfl

-- A program with one segment, and a memory of 56 free pages.
def smallBytes : Bytes := fun i =>
  [0x7f, 0x45, 0x4c, 0x46, 2, 1, 1, 0, 0, 0, 0, 0, 0, 0, 0, 0, 2, 0, 0xf3, 0, 1, 0, 0, 0, 0, 0, 0x80, 0, 0, 0, 0, 0,
    64, 0, 0, 0, 0, 0, 0, 0, 0, 0, 0, 0, 0, 0, 0, 0, 0, 0, 0, 0, 64, 0, 56, 0, 1, 0, 0, 0, 0, 0, 0, 0,
    1, 0, 0, 0, 5, 0, 0, 0, 120, 0, 0, 0, 0, 0, 0, 0, 0, 0, 0x80, 0, 0, 0, 0, 0, 0, 0, 0x80, 0, 0, 0, 0, 0,
    16, 0, 0, 0, 0, 0, 0, 0, 16, 0, 0, 0, 0, 0, 0, 0, 0, 16, 0, 0, 0, 0, 0, 0].getD i 0x13

def smallElf : ElfFile := storedElf smallBytes

def smallMem : Mem where
  manager := fun free => (List.range 64).find? free
  free := fun page => decide (8 ≤ page ∧ page < 64)
  ref := fun _ => 0
  phys := fun _ => 0
  freed := []

def noFailures : Failures := ⟨false, fun _ => false, false, fun _ _ _ => none, by simp, none, by simp⟩

def buildsImage (mem : Mem) (file : ElfFile) : Bool :=
  match mmCreate mem with
  | none => false
  | some (mm0, mem0) =>
      match loadSegments noFailures file mem0 mm0 (elfhdrAt file.bytes).ePhoff (elfhdrAt file.bytes).ePhnum with
      | .ok (0, mem1, mm1, _) =>
          match setupStack noFailures mem1 mm1 with
          | .ok (0, _, _, _) => true
          | _ => false
      | _ => false

theorem builds_image (mem : Mem) (file : ElfFile) (header : sizeofElfhdr ≤ file.size) (magic : (elfhdrAt file.bytes).eMagic = elfMagic)
    (built : buildsImage mem file = true) : ∃ memS mmS, Builds noFailures mem file memS mmS := by
  have buf : file.bytes.from 0 = file.bytes := by
    funext i
    rw [Bytes.from, Nat.zero_add]
  have read : ∀ mem, loadIcodeRead noFailures file mem sizeofElfhdr 0 = .ok (0, file.bytes) := by
    intro mem
    rw [load_icode_read_inside noFailures file mem sizeofElfhdr 0 rfl (by omega), buf]
  unfold buildsImage at built
  split at built
  · exact absurd built (by simp)
  · rename_i mm0 mem0 created
    split at built
    · rename_i mem1 mm1 made loaded
      split at built
      · rename_i memS mmS stack set
        exact ⟨memS, mmS, ⟨rfl, rfl⟩, magic, mm0, mem0, mem1, mm1, made, stack, created, read mem0, loaded, set⟩
      · exact absurd built (by simp)
    · exact absurd built (by simp)

theorem small_builds : ∃ memS mmS, Builds noFailures smallMem smallElf memS mmS :=
  builds_image smallMem smallElf (by decide) (by decide) (by decide +kernel)

theorem exec_args_one : ∃ memS mmS, Builds noFailures smallMem smallElf memS mmS ∧
    ArgsLaidOut noFailures smallMem memS 1 smallElf mmS [[0x6c, 0x73]] := by
  obtain ⟨memS, mmS, builds⟩ := small_builds
  have accepted : Accepted [[0x6c, 0x73]] := ⟨by decide, by decide, by decide, by decide⟩
  exact ⟨memS, mmS, builds, (exec_args_iff noFailures smallMem memS 1 smallElf mmS [[0x6c, 0x73]] (fun _ _ => rfl) accepted builds).mpr (by decide)⟩

-- Four arguments of 4095 bytes: 32 bytes more than the four pages.
def longArg : List UInt8 := List.replicate 4095 0x61

theorem long_arg_length : longArg.length = 4095 := List.length_replicate

theorem exec_args_too_long : ∃ memS mmS, Accepted [longArg, longArg, longArg, longArg] ∧ Builds noFailures smallMem smallElf memS mmS ∧
    ¬ ArgsLaidOut noFailures smallMem memS 1 smallElf mmS [longArg, longArg, longArg, longArg] := by
  obtain ⟨memS, mmS, builds⟩ := small_builds
  have same : ∀ arg ∈ [longArg, longArg, longArg, longArg], arg = longArg := by
    intro arg member
    simpa only [List.mem_cons, List.not_mem_nil, or_false, or_self] using member
  have accepted : Accepted [longArg, longArg, longArg, longArg] := by
    refine ⟨by decide, by decide, fun arg member => ?_, fun arg member => ?_⟩
    · rw [same arg member, long_arg_length]
      decide
    · rw [same arg member]
      intro zero
      exact absurd (List.eq_of_mem_replicate zero) (by decide)
  refine ⟨memS, mmS, accepted, builds, fun laid => ?_⟩
  have fits := laid_out_fits noFailures smallMem memS 1 smallElf mmS _ accepted builds laid
  simp only [blockSize, argsSize, List.map_cons, List.map_nil, long_arg_length, List.length_cons, List.length_nil, List.sum_cons, List.sum_nil,
    roundUp, roundDown, sizeofPtr, pgSize] at fits
  omega

end Ucore.Exec
