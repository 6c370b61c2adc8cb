import Ucore.Vmm.FrameCounts
import Ucore.Vmm.SpacesInv

set_option autoImplicit false

namespace Ucore.Vmm

open Ucore.Lib

-- What a program sees at a virtual address, and what it stores there.
def userByte (mem : Mem) (pgdir : Pgdir) (va : Nat) : Option UInt8 :=
  (pgdir.entry (va / pgSize)).map fun pte => mem.phys (pte.ppn * pgSize + va % pgSize)

def storeByte (mem : Mem) (pgdir : Pgdir) (va : Nat) (value : UInt8) : Mem :=
  match pgdir.entry (va / pgSize) with
  | some pte => { mem with phys := Function.update mem.phys (pte.ppn * pgSize + va % pgSize) value }
  | none => mem

-- The permissions of a program in an entry.
def userPerm : Nat := pteR ||| pteW ||| pteX ||| pteU

-- The state of a copy: the pages in use before are as they were, the pages that
-- are done are copied, and no other page is mapped.
structure Copying (start mem : Mem) (target source : Pgdir) (done : Nat → Prop) : Prop where
  kept : ∀ page, start.free page = false → mem.free page = false ∧ mem.ref page = start.ref page
  phys : ∀ addr, start.free (addr / pgSize) = false → mem.phys addr = start.phys addr
  copied : ∀ vpn pte, vpn < nPages → done vpn → source.entry vpn = some pte → ∃ npage, Copied start mem target pte vpn npage
  absent : ∀ vpn, vpn < nPages → ¬ done vpn ∨ source.entry vpn = none → target.entry vpn = none

theorem copying_congr (start mem : Mem) (target source : Pgdir) (left right : Nat → Prop) (same : ∀ vpn, vpn < nPages → (left vpn ↔ right vpn))
    (copying : Copying start mem target source left) : Copying start mem target source right :=
  ⟨copying.kept, copying.phys, fun vpn pte bound done => copying.copied vpn pte bound ((same vpn bound).mpr done),
    fun vpn bound open' => copying.absent vpn bound (open'.imp_left fun away done => away ((same vpn bound).mp done))⟩

theorem insert_front (mm mm' : Mm) (vma : Vma) (ahead : ∀ next ∈ mm.mmapList, vma.vmStart < next.vmStart)
    (ran : insertVmaStruct mm vma = .ok mm') : mm'.mmapList = vma :: mm.mmapList ∧ mm'.pgdir = mm.pgdir := by
  have before : mm.mmapList.takeWhile (fun prev => !(vma.vmStart < prev.vmStart : Bool)) = [] := by
    cases list : mm.mmapList with
    | nil => rfl
    | cons head rest => simp [ahead head (by simp [list])]
  have after : mm.mmapList.dropWhile (fun prev => !(vma.vmStart < prev.vmStart : Bool)) = mm.mmapList := by
    cases list : mm.mmapList with
    | nil => rfl
    | cons head rest => simp [ahead head (by simp [list])]
  have first : checkNeighbours none (some vma) = .ok () := rfl
  unfold insertVmaStruct at ran
  rw [before, after] at ran
  cases checked : (check (vma.vmStart < vma.vmEnd) .assertFailed : Except Fault Unit) with
  | error fault => simp [checked] at ran
  | ok _ =>
      cases overlap : checkNeighbours (some vma) mm.mmapList.head? with
      | error fault => simp [checked, overlap, first] at ran
      | ok _ =>
          simp only [List.getLast?_nil, checked, first, overlap, ok_bind, List.nil_append, pure_ok, Except.ok.injEq] at ran
          rw [← ran]
          exact ⟨rfl, rfl⟩

section Copy

variable (start : Mem) (source : Pgdir) (frames : ∀ vpn pte, vpn < nPages → source.entry vpn = some pte → start.free pte.ppn = false)
  (foreign : Nat → Prop) (outside : Nat → Nat)

include frames

theorem copying_page (mem mem' : Mem) (target target' : Pgdir) (space : Space mem target foreign outside) (done : Nat → Prop)
    (copying : Copying start mem target source done) (vpn : Nat) (small : vpn < nPages) (fresh : ¬ done vpn)
    (ran : copyPage mem target source (vpn * pgSize) = .ok (0, mem', target')) :
    Copying start mem' target' source fun other => done other ∨ other = vpn := by
  obtain ⟨_, entries, _, phys, kept, here⟩ := copy_page_spec mem target source foreign outside space vpn small 0 mem' target' ran
  have keep := kept (copying.absent vpn small (.inl fresh))
  have now := here rfl
  refine ⟨fun page used => ?_, fun addr used => ?_, fun other pte bound listed entry => ?_, fun other bound open' => ?_⟩
  · obtain ⟨before, ref⟩ := copying.kept page used
    obtain ⟨after, same⟩ := keep page before
    exact ⟨after, same.trans ref⟩
  · exact (phys addr (copying.kept _ used).1).trans (copying.phys addr used)
  · have origin := frames other pte bound entry
    by_cases same : other = vpn
    · subst same
      rw [entry] at now
      obtain ⟨npage, new⟩ := now
      have unused : start.free npage = true := by
        cases before : start.free npage with
        | true => rfl
        | false =>
            have clash := new.fresh
            rw [(copying.kept npage before).1] at clash
            cases clash
      refine ⟨npage, unused, new.entry, new.ref, new.used, fun _ i inside => ?_⟩
      rw [new.bytes (copying.kept pte.ppn origin).1 i inside]
      exact copying.phys _ (by rwa [page_byte pte.ppn i inside])
    · have early : done other := listed.resolve_right same
      obtain ⟨npage, old⟩ := copying.copied other pte bound early entry
      obtain ⟨used, ref⟩ := keep npage old.used
      refine ⟨npage, old.fresh, (entries other bound same).trans old.entry, ref.trans old.ref, used, fun still i inside => ?_⟩
      rw [phys _ (by rw [page_byte npage i inside]; exact old.used)]
      exact old.bytes still i inside
  · by_cases same : other = vpn
    · subst same
      rcases open' with away | none'
      · exact absurd (.inr rfl) away
      · rw [none'] at now
        rw [now]
        exact copying.absent other bound (.inl fresh)
    · rw [entries other bound same]
      exact copying.absent other bound (open'.imp_left fun away early => away (.inl early))

theorem copying_pages (vpns : List Nat) (distinct : vpns.Nodup) (mem mem' : Mem) (target target' : Pgdir)
    (space : Space mem target foreign outside) (done : Nat → Prop) (copying : Copying start mem target source done)
    (user : ∀ vpn ∈ vpns, vpn < nPages ∧ ¬ done vpn) (ran : copyPages mem target source vpns = .ok (0, mem', target')) :
    Space mem' target' foreign outside ∧ Copying start mem' target' source fun other => done other ∨ other ∈ vpns := by
  induction vpns generalizing mem target done with
  | nil =>
      simp only [copyPages, Except.ok.injEq, Prod.mk.injEq] at ran
      obtain ⟨_, rfl, rfl⟩ := ran
      exact ⟨space, copying_congr start mem target source done _ (fun vpn _ => by simp) copying⟩
  | cons vpn rest ih =>
      obtain ⟨notRest, distinctRest⟩ := List.nodup_cons.mp distinct
      obtain ⟨small, fresh⟩ := user vpn (by simp)
      rw [copyPages] at ran
      cases copied : copyPage mem target source (vpn * pgSize) with
      | error fault => simp [copied] at ran
      | ok result =>
          obtain ⟨ret, memC, targetC⟩ := result
          simp only [copied, ok_bind] at ran
          by_cases failed : ret ≠ 0
          · rw [if_pos failed] at ran
            simp only [pure_ok, Except.ok.injEq, Prod.mk.injEq] at ran
            exact absurd ran.1 failed
          · obtain rfl : ret = 0 := not_not.mp failed
            rw [if_neg failed] at ran
            have spaceC := (copy_page_spec mem target source foreign outside space vpn small 0 memC targetC copied).1
            have copyingC := copying_page start source frames foreign outside mem memC target targetC space done copying vpn small fresh copied
            obtain ⟨space', copying'⟩ := ih distinctRest memC targetC spaceC _ copyingC (fun other inside => by
              obtain ⟨bound, away⟩ := user other (by simp [inside])
              refine ⟨bound, ?_⟩
              rintro (early | rfl)
              · exact away early
              · exact notRest inside) ran
            refine ⟨space', copying_congr start mem' target' source _ _ (fun other _ => ?_) copying'⟩
            simp only [List.mem_cons]
            tauto

theorem dup_loop_copies (parent : List Vma) (areas : Areas parent) (vmas : List Vma) (mem mem' : Mem) (target target' : Mm)
    (space : Space mem target.pgdir foreign outside) (split : parent = vmas.reverse ++ target.mmapList)
    (copying : Copying start mem target.pgdir source fun vpn => target.HasArea (vpn * pgSize))
    (ran : dupMmapLoop mem target source vmas = .ok (0, mem', target')) : Space mem' target'.pgdir foreign outside ∧
      target'.mmapList = parent ∧ Copying start mem' target'.pgdir source fun vpn => target'.HasArea (vpn * pgSize) := by
  induction vmas generalizing mem target with
  | nil =>
      simp only [dupMmapLoop, Except.ok.injEq, Prod.mk.injEq] at ran
      obtain ⟨_, rfl, rfl⟩ := ran
      exact ⟨space, split.symm, copying⟩
  | cons vma rest ih =>
      have apart := areas.apart
      have fit := areas.fits vma (by simp [split])
      have ordered : ∀ next ∈ target.mmapList, vma.vmEnd ≤ next.vmStart := by
        rw [split, List.reverse_cons, List.append_assoc] at apart
        obtain ⟨_, tail, _⟩ := List.pairwise_append.mp apart
        exact (List.pairwise_cons.mp tail).1
      rw [dupMmapLoop] at ran
      cases inserted : insertVmaStruct target vma with
      | error fault => simp [inserted] at ran
      | ok targetI =>
          obtain ⟨list, pgdirI⟩ := insert_front target targetI vma
            (fun next inside => Nat.lt_of_lt_of_le fit.2.2.2.1 (ordered next inside)) inserted
          simp only [inserted, ok_bind, copy_range_pages] at ran
          have fine : vma.vmStart % pgSize = 0 ∧ vma.vmEnd % pgSize = 0 ∧ UserAccess vma.vmStart vma.vmEnd := fit
          rw [if_pos fine] at ran
          cases copied : copyPages mem targetI.pgdir source (pagesBetween vma.vmStart vma.vmEnd) with
          | error fault => simp [copied] at ran
          | ok result =>
              obtain ⟨ret, memC, pgdirC⟩ := result
              simp only [copied, ok_bind] at ran
              by_cases failed : ret ≠ 0
              · rw [if_pos failed] at ran
                simp only [pure_ok, Except.ok.injEq, Prod.mk.injEq] at ran
                exact absurd ran.1 (by simp [eNoMem])
              · obtain rfl : ret = 0 := not_not.mp failed
                rw [if_neg failed] at ran
                rw [pgdirI] at copied
                obtain ⟨spaceC, copyingC⟩ := copying_pages start source frames foreign outside
                  (pagesBetween vma.vmStart vma.vmEnd) List.nodup_range' mem memC target.pgdir
                  pgdirC space _ copying (fun vpn inside => by
                    have user := (range_pages vma.vmStart vma.vmEnd fit.1 fit.2.1 fit.2.2).2.2.2.2 vpn inside
                    refine ⟨by have page := user_page _ user; rwa [page_index] at page, ?_⟩
                    rintro ⟨next, listed, has⟩
                    have before := ((has_page vma fit vpn).mp inside).2
                    have after := has.1
                    have order := ordered next listed
                    omega) copied
                refine ih memC { targetI with pgdir := pgdirC } spaceC ?_ (copying_congr start memC pgdirC source _ _ (fun vpn _ => ?_)
                  copyingC) ran
                · simp [split, list]
                · rw [has_page vma fit vpn]
                  show _ ↔ ∃ other ∈ targetI.mmapList, other.Has (vpn * pgSize)
                  rw [list]
                  simp only [Mm.HasArea, List.mem_cons, exists_eq_or_imp]
                  exact or_comm

end Copy

-- A child whose memory is its own: the same areas, pages, permissions and bytes
-- as the parent, in frames that nobody else has. The pages in use before, those of
-- the parent among them, are as they were, and a store of one is not seen by the other.
structure Isolated (mem : Mem) (parent : Mm) (mem' : Mem) (child : Mm) : Prop where
  areas : child.mmapList = parent.mmapList
  mapped : ∀ vpn, vpn < nPages → ((child.pgdir.entry vpn).isSome ↔ (parent.pgdir.entry vpn).isSome)
  perms : ∀ vpn pte new, vpn < nPages → parent.pgdir.entry vpn = some pte → child.pgdir.entry vpn = some new →
    new.flags &&& userPerm = pte.flags &&& userPerm
  bytes : ∀ va, va / pgSize < nPages → userByte mem' child.pgdir va = userByte mem parent.pgdir va
  refs : ∀ vpn new, vpn < nPages → child.pgdir.entry vpn = some new → mem'.ref new.ppn = 1
  apart : ∀ v w new pte, v < nPages → w < nPages → child.pgdir.entry v = some new → parent.pgdir.entry w = some pte → new.ppn ≠ pte.ppn
  own : ∀ v w left right, v < nPages → w < nPages → child.pgdir.entry v = some left → child.pgdir.entry w = some right →
    left.ppn = right.ppn → v = w
  kept : ∀ page, mem.free page = false → mem'.free page = false ∧ mem'.ref page = mem.ref page
  phys : ∀ addr, mem.free (addr / pgSize) = false → mem'.phys addr = mem.phys addr
  childStore : ∀ va value wa, va / pgSize < nPages → wa / pgSize < nPages →
    userByte (storeByte mem' child.pgdir va value) parent.pgdir wa = userByte mem' parent.pgdir wa
  parentStore : ∀ va value wa, va / pgSize < nPages → wa / pgSize < nPages →
    userByte (storeByte mem' parent.pgdir va value) child.pgdir wa = userByte mem' child.pgdir wa

-- A store reaches only the frame that it names.
theorem store_other (mem : Mem) (writer reader : Pgdir) (va wa : Nat) (value : UInt8)
    (apart : ∀ pte other, writer.entry (va / pgSize) = some pte → reader.entry (wa / pgSize) = some other → pte.ppn ≠ other.ppn) :
    userByte (storeByte mem writer va value) reader wa = userByte mem reader wa := by
  unfold storeByte userByte
  cases written : writer.entry (va / pgSize) with
  | none => rfl
  | some pte =>
      cases read : reader.entry (wa / pgSize) with
      | none => rfl
      | some other =>
          have differ := apart pte other written read
          have positive : 0 < pgSize := by decide
          have elsewhere : other.ppn * pgSize + wa % pgSize ≠ pte.ppn * pgSize + va % pgSize := by
            intro same
            have pages := congrArg (· / pgSize) same
            simp only [page_byte other.ppn _ (Nat.mod_lt wa positive), page_byte pte.ppn _ (Nat.mod_lt va positive)] at pages
            exact differ pages.symm
          simp [Function.update_of_ne elsewhere]

theorem copied_perms (npage flags : Nat) : (pteCreate npage (pteV ||| (flags &&& pteUser))).flags &&& userPerm = flags &&& userPerm := by
  refine Nat.eq_of_testBit_eq fun i => ?_
  have valid : (pteV &&& userPerm).testBit i = false := by simp [pteV, userPerm, pteR, pteW, pteX, pteU]
  have inside : (pteUser &&& userPerm).testBit i = userPerm.testBit i := by simp [pteUser, userPerm, pteR, pteW, pteX, pteU]
  simp only [pteCreate, Nat.testBit_and, Nat.testBit_or] at valid inside ⊢
  cases bitV : pteV.testBit i <;> cases bitP : userPerm.testBit i <;> cases bitU : pteUser.testBit i <;> simp_all

theorem count_unique (pgdir : Pgdir) (page v w : Nat) (one : pgdir.count page ≤ 1) (boundV : v < nPages) (boundW : w < nPages)
    (left : pgdir.Maps page v) (right : pgdir.Maps page w) : v = w :=
  (Set.ncard_le_one (maps_finite pgdir page)).mp one v ⟨boundV, left⟩ w ⟨boundW, right⟩

theorem copying_isolated (mem mem' : Mem) (parent child : Mm) (foreign : Nat → Prop) (outside : Nat → Nat)
    (space : Space mem' child.pgdir foreign outside)
    (frames : ∀ vpn pte, vpn < nPages → parent.pgdir.entry vpn = some pte → mem.free pte.ppn = false) (covered : parent.Covered)
    (same : child.mmapList = parent.mmapList)
    (copying : Copying mem mem' child.pgdir parent.pgdir fun vpn => child.HasArea (vpn * pgSize)) : Isolated mem parent mem' child := by
  have areaOf : ∀ vpn pte, vpn < nPages → parent.pgdir.entry vpn = some pte → child.HasArea (vpn * pgSize) := by
    intro vpn pte bound entry
    obtain ⟨vma, listed, has⟩ := covered vpn bound (by simp [entry])
    exact ⟨vma, same ▸ listed, has⟩
  -- Each page of the child is the copy of a page of the parent.
  have source : ∀ vpn new, vpn < nPages → child.pgdir.entry vpn = some new →
      ∃ pte, parent.pgdir.entry vpn = some pte ∧ Copied mem mem' child.pgdir pte vpn new.ppn := by
    intro vpn new bound entry
    cases here : parent.pgdir.entry vpn with
    | none =>
        have absent := copying.absent vpn bound (.inr here)
        rw [entry] at absent
        cases absent
    | some pte =>
        obtain ⟨npage, copied⟩ := copying.copied vpn pte bound (areaOf vpn pte bound here) here
        have found := copied.entry
        rw [entry] at found
        obtain rfl := Option.some.inj found
        exact ⟨pte, rfl, copied⟩
  have apart : ∀ v w new pte, v < nPages → w < nPages → child.pgdir.entry v = some new → parent.pgdir.entry w = some pte →
      new.ppn ≠ pte.ppn := by
    intro v w new pte boundV boundW atV atW clash
    obtain ⟨_, _, copied⟩ := source v new boundV atV
    have fresh := copied.fresh
    rw [clash, frames w pte boundW atW] at fresh
    cases fresh
  refine ⟨same, fun vpn bound => ?_, fun vpn pte new bound atParent atChild => ?_, fun va bound => ?_, fun vpn new bound atChild => ?_,
    apart, fun v w left right boundV boundW atV atW clash => ?_, copying.kept, copying.phys, fun va value wa boundV boundW => ?_,
    fun va value wa boundV boundW => ?_⟩
  · constructor
    · intro mapped
      obtain ⟨new, atChild⟩ := Option.isSome_iff_exists.mp mapped
      obtain ⟨pte, here, _⟩ := source vpn new bound atChild
      simp [here]
    · intro mapped
      obtain ⟨pte, here⟩ := Option.isSome_iff_exists.mp mapped
      obtain ⟨npage, copied⟩ := copying.copied vpn pte bound (areaOf vpn pte bound here) here
      simp [copied.entry]
  · obtain ⟨npage, copied⟩ := copying.copied vpn pte bound (areaOf vpn pte bound atParent) atParent
    have found := copied.entry
    rw [atChild] at found
    obtain rfl := Option.some.inj found
    exact copied_perms npage pte.flags
  · have positive : 0 < pgSize := by decide
    unfold userByte
    cases here : parent.pgdir.entry (va / pgSize) with
    | none => rw [copying.absent _ bound (.inr here), Option.map_none, Option.map_none]
    | some pte =>
        obtain ⟨npage, copied⟩ := copying.copied _ pte bound (areaOf _ pte bound here) here
        rw [copied.entry, Option.map_some, Option.map_some]
        exact congrArg some (copied.bytes (frames _ pte bound here) _ (Nat.mod_lt va positive))
  · obtain ⟨_, _, copied⟩ := source vpn new bound atChild
    exact copied.ref
  · obtain ⟨_, _, copied⟩ := source v left boundV atV
    have mapsV : child.pgdir.Maps left.ppn v := by simp [Pgdir.Maps, atV]
    have mapsW : child.pgdir.Maps left.ppn w := by simp [Pgdir.Maps, atW, clash]
    have positive := (count_pos child.pgdir left.ppn).mpr ⟨v, boundV, mapsV⟩
    have noTable : ∀ a, child.pgdir.pageAt a ≠ some left.ppn := fun a at' => by
      have zero := (space.tables a left.ppn at').2.2.2
      omega
    have ref := space.refs left.ppn noTable (space.mapped left.ppn positive).2
    rw [copied.ref] at ref
    exact count_unique child.pgdir left.ppn v w (by omega) boundV boundW mapsV mapsW
  · exact store_other mem' child.pgdir parent.pgdir va wa value fun new pte atV atW => apart _ _ new pte boundV boundW atV atW
  · exact store_other mem' parent.pgdir child.pgdir va wa value fun pte new atV atW => (apart _ _ new pte boundW boundV atW atV).symm

variable {m : Nat}

theorem fork_isolation (mem : Mem) (boot : ∀ page, mem.free page = true → mem.ref page = 0) (spaceCalls : List (SpaceCall m))
    (spaces : Spaces m) (ran : run Spaces.step (Spaces.boot mem) spaceCalls = some spaces) (i j : Fin m) (fresh parent child : Mm)
    (mem' : Mem) (atFresh : spaces.mms i = some fresh) (new : fresh.mmapList = []) (atParent : spaces.mms j = some parent)
    (copied : dupMmap spaces.mem fresh parent = .ok (0, mem', child)) : Isolated spaces.mem parent mem' child := by
  have inv := Spaces.run_inv mem boot spaceCalls spaces ran
  have frames : ∀ vpn pte, vpn < nPages → parent.pgdir.entry vpn = some pte → spaces.mem.free pte.ppn = false := by
    intro vpn pte bound entry
    exact (inv.shared.mapped pte.ppn (mapped_total spaces.pgdirs j parent.pgdir (by simp [Spaces.pgdirs, atParent]) vpn bound pte entry)).1
  have unmapped : ∀ vpn, vpn < nPages → fresh.pgdir.entry vpn = none := by
    intro vpn bound
    by_contra mapped
    obtain ⟨vma, listed, _⟩ := inv.covered i fresh atFresh vpn bound mapped
    simp [new] at listed
  have start : Copying spaces.mem spaces.mem fresh.pgdir parent.pgdir fun vpn => fresh.HasArea (vpn * pgSize) :=
    ⟨fun page used => ⟨used, rfl⟩, fun _ _ => rfl, fun vpn pte _ area _ => (by simp [Mm.HasArea, new] at area),
      fun vpn bound _ => unmapped vpn bound⟩
  obtain ⟨space', same, copying⟩ := dup_loop_copies spaces.mem parent.pgdir frames _ _ parent.mmapList (inv.areas j parent atParent)
    parent.mmapList.reverse spaces.mem mem' fresh child (Spaces.mm_space _ spaces inv i fresh atFresh) (by simp [new]) start copied
  exact copying_isolated spaces.mem mem' parent child _ _ space' frames (inv.covered j parent atParent) same copying

-- Two areas, of which three pages are mapped, with different permissions.
def forkCalls : List (SpaceCall 2) :=
  [.create 0, .map 0 0x800000 0x3000 0, .map 0 0x40000000 0x1000 0, .alloc 0 0x800000 26, .alloc 0 0x802000 30, .alloc 0 0x40000000 22,
    .create 1]

-- The second space is new, and the first one can be copied into it.
def forks (spaces : Spaces 2) : Bool :=
  match spaces.mms 1, spaces.mms 0 with
  | some fresh, some parent =>
      match dupMmap spaces.mem fresh parent with
      | .ok (ret, _, _) => fresh.mmapList.isEmpty && ret == 0
      | .error _ => false
  | _, _ => false

theorem fork_isolation_three_pages : ∃ (spaces : Spaces 2) (parent child : Mm) (mem' : Mem),
    run Spaces.step (Spaces.boot Frames.smallMem) forkCalls = some spaces ∧ spaces.mms 0 = some parent ∧
      Isolated spaces.mem parent mem' child := by
  cases ran : run Spaces.step (Spaces.boot Frames.smallMem) forkCalls with
  | none =>
      have returns : (run Spaces.step (Spaces.boot Frames.smallMem) forkCalls).isSome := by decide +kernel
      simp [ran] at returns
  | some spaces =>
      have facts : (run Spaces.step (Spaces.boot Frames.smallMem) forkCalls).all forks = true := by decide +kernel
      rw [ran, Option.all_some, forks] at facts
      cases atFresh : spaces.mms 1 with
      | none => simp [atFresh] at facts
      | some fresh =>
          cases atParent : spaces.mms 0 with
          | none => simp [atFresh, atParent] at facts
          | some parent =>
              cases copied : dupMmap spaces.mem fresh parent with
              | error fault => simp [atFresh, atParent, copied] at facts
              | ok result =>
                  obtain ⟨ret, mem', child⟩ := result
                  simp only [atFresh, atParent, copied, Bool.and_eq_true, List.isEmpty_iff, beq_iff_eq] at facts
                  obtain ⟨new, rfl⟩ := facts
                  exact ⟨spaces, parent, child, mem', rfl, atParent, fork_isolation Frames.smallMem (fun _ _ => rfl) forkCalls spaces ran 1 0
                    fresh parent child mem' atFresh new atParent copied⟩

end Ucore.Vmm
