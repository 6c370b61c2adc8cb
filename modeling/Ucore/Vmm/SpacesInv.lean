import Ucore.Vmm.Spaces

set_option autoImplicit false

namespace Ucore.Vmm

open Ucore.Lib

theorem copy_pages_spec (target source : Pgdir) (foreign : Nat → Prop) (outside : Nat → Nat) (vpns : List Nat) (mem : Mem)
    (space : Space mem target foreign outside) (user : ∀ vpn ∈ vpns, vpn * pgSize < userTop) (ret : Int) (mem' : Mem) (target' : Pgdir)
    (ran : copyPages mem target source vpns = .ok (ret, mem', target')) : Space mem' target' foreign outside ∧
      ∀ vpn, vpn < nPages → vpn ∉ vpns → target'.entry vpn = target.entry vpn := by
  induction vpns generalizing mem target with
  | nil =>
      simp only [copyPages, Except.ok.injEq, Prod.mk.injEq] at ran
      obtain ⟨_, rfl, rfl⟩ := ran
      exact ⟨space, fun _ _ _ => rfl⟩
  | cons first rest ih =>
      have small : first < nPages := by
        have here := user_page (first * pgSize) (user first (by simp))
        rwa [page_index] at here
      rw [copyPages] at ran
      cases copied : copyPage mem target source (first * pgSize) with
      | error fault => simp [copied] at ran
      | ok result =>
          obtain ⟨retC, memC, targetC⟩ := result
          obtain ⟨spaceC, entries, _⟩ := copy_page_spec mem target source foreign outside space first small retC memC targetC copied
          simp only [copied, ok_bind] at ran
          by_cases failed : retC ≠ 0
          · rw [if_pos failed] at ran
            simp only [pure_ok, Except.ok.injEq, Prod.mk.injEq] at ran
            obtain ⟨_, rfl, rfl⟩ := ran
            exact ⟨spaceC, fun vpn bound away => entries vpn bound (by
              rintro rfl
              simp at away)⟩
          · rw [if_neg failed] at ran
            obtain ⟨space', later⟩ := ih targetC memC spaceC (fun vpn inside => user vpn (by simp [inside])) ran
            refine ⟨space', fun vpn bound away => ?_⟩
            have notFirst : vpn ≠ first := fun same => away (by simp [same])
            have notRest : vpn ∉ rest := fun inside => away (by simp [inside])
            rw [later vpn bound notRest, entries vpn bound notFirst]

theorem has_page (vma : Vma) (fits : vma.Fits) (vpn : Nat) :
    vpn ∈ pagesBetween vma.vmStart vma.vmEnd ↔ vma.Has (vpn * pgSize) := by
  obtain ⟨alignedStart, alignedStop, _, order, _⟩ := fits
  rw [pagesBetween, List.mem_range'_1, Vma.Has]
  simp only [pgSize] at alignedStart alignedStop ⊢
  omega

theorem has_round (vma : Vma) (fits : vma.Fits) (la : Nat) (has : vma.Has la) : vma.Has (la / pgSize * pgSize) ∧ la < userTop := by
  obtain ⟨alignedStart, alignedStop, _, order, high⟩ := fits
  obtain ⟨lower, upper⟩ := has
  rw [Vma.Has]
  simp only [pgSize] at alignedStart alignedStop ⊢
  omega

-- The walk over the areas of the source: the target keeps its shape and gets its
-- entries in the areas that it gets.
theorem dup_loop_inv (foreign : Nat → Prop) (outside : Nat → Nat) (source : Pgdir) (vmas : List Vma) (mem : Mem) (target : Mm)
    (space : Space mem target.pgdir foreign outside) (areas : Areas target.mmapList) (covered : target.Covered)
    (fits : ∀ vma ∈ vmas, vma.Fits) (ret : Int) (mem' : Mem) (target' : Mm)
    (ran : dupMmapLoop mem target source vmas = .ok (ret, mem', target')) :
    Space mem' target'.pgdir foreign outside ∧ Areas target'.mmapList ∧ target'.Covered := by
  induction vmas generalizing mem target with
  | nil =>
      simp only [dupMmapLoop, Except.ok.injEq, Prod.mk.injEq] at ran
      obtain ⟨_, rfl, rfl⟩ := ran
      exact ⟨space, areas, covered⟩
  | cons vma rest ih =>
      have fit := fits vma (by simp)
      rw [dupMmapLoop] at ran
      cases inserted : insertVmaStruct target vma with
      | error fault => simp [inserted] at ran
      | ok targetI =>
          obtain ⟨areasI, samePgdir, members⟩ := insert_vma_spec target targetI vma areas fit inserted
          simp only [inserted, ok_bind, copy_range_pages] at ran
          have fine : vma.vmStart % pgSize = 0 ∧ vma.vmEnd % pgSize = 0 ∧ UserAccess vma.vmStart vma.vmEnd := fit
          rw [if_pos fine] at ran
          cases copied : copyPages mem targetI.pgdir source (pagesBetween vma.vmStart vma.vmEnd) with
          | error fault => simp [copied] at ran
          | ok result =>
              obtain ⟨retC, memC, pgdirC⟩ := result
              obtain ⟨spaceC, entries⟩ := copy_pages_spec targetI.pgdir source foreign outside _ mem (by rwa [samePgdir])
                (range_pages vma.vmStart vma.vmEnd fit.1 fit.2.1 fit.2.2).2.2.2.2 retC memC pgdirC copied
              have coveredC : Mm.Covered { targetI with pgdir := pgdirC } := by
                intro vpn bound mapped
                by_cases inside : vpn ∈ pagesBetween vma.vmStart vma.vmEnd
                · exact ⟨vma, (members vma).mpr (.inl rfl), (has_page vma fit vpn).mp inside⟩
                · have before : target.pgdir.entry vpn ≠ none := by
                    rw [← samePgdir, ← entries vpn bound inside]
                    exact mapped
                  obtain ⟨other, listed, has⟩ := covered vpn bound before
                  exact ⟨other, (members other).mpr (.inr listed), has⟩
              simp only [copied, ok_bind] at ran
              by_cases failed : retC ≠ 0
              · rw [if_pos failed] at ran
                simp only [pure_ok, Except.ok.injEq, Prod.mk.injEq] at ran
                obtain ⟨_, rfl, rfl⟩ := ran
                exact ⟨spaceC, areasI, coveredC⟩
              · rw [if_neg failed] at ran
                exact ih memC { targetI with pgdir := pgdirC } spaceC areasI coveredC (fun other inside => fits other (by simp [inside])) ran

namespace Spaces

variable {m : Nat} (kernel : Nat → Prop) (spaces : Spaces m)

theorem set_mm_pgdirs (i : Fin m) (mem' : Mem) (mm' : Mm) :
    (spaces.setMm i mem' mm').pgdirs = Function.update spaces.pgdirs i (some mm'.pgdir) := by
  funext j
  by_cases same : j = i
  · subst same
    simp [pgdirs, setMm]
  · simp [pgdirs, setMm, same]

theorem set_mm_inv (inv : Inv kernel spaces) (i : Fin m) (mem' : Mem) (mm' : Mm)
    (space : Space mem' mm'.pgdir (foreignTo spaces.pgdirs kernel i) (outsideOf spaces.pgdirs i)) (areas : Areas mm'.mmapList)
    (covered : mm'.Covered) : Inv kernel (spaces.setMm i mem' mm') := by
  refine ⟨?_, fun j mm here => ?_, fun j mm here => ?_⟩
  · rw [set_mm_pgdirs]
    exact space_shared spaces.mem spaces.pgdirs kernel inv.shared i mem' mm'.pgdir space
  · by_cases same : j = i
    · subst same
      obtain rfl : mm' = mm := by simpa [setMm] using here
      exact areas
    · exact inv.areas j mm (by simpa [setMm, same] using here)
  · by_cases same : j = i
    · subst same
      obtain rfl : mm' = mm := by simpa [setMm] using here
      exact covered
    · exact inv.covered j mm (by simpa [setMm, same] using here)

theorem mm_space (inv : Inv kernel spaces) (i : Fin m) (mm : Mm) (here : spaces.mms i = some mm) :
    Space spaces.mem mm.pgdir (foreignTo spaces.pgdirs kernel i) (outsideOf spaces.pgdirs i) :=
  shared_space spaces.mem spaces.pgdirs kernel inv.shared i mm.pgdir (by simp [pgdirs, here])

theorem area_user (inv : Inv kernel spaces) (i : Fin m) (mm : Mm) (here : spaces.mms i = some mm) (la : Nat) (area : mm.HasArea la) :
    la / pgSize < nPages ∧ mm.HasArea (la / pgSize * pgSize) := by
  obtain ⟨vma, listed, has⟩ := area
  obtain ⟨round, user⟩ := has_round vma ((inv.areas i mm here).fits vma listed) la has
  exact ⟨user_page la user, vma, listed, round⟩

theorem map_areas (mm mm' : Mm) (areas : Areas mm.mmapList) (covered : mm.Covered) (addr len vmFlags : Nat) (ret : Int)
    (ran : mmMap mm addr len vmFlags = .ok (ret, mm')) : mm'.pgdir = mm.pgdir ∧ Areas mm'.mmapList ∧ mm'.Covered := by
  have keeps : ∀ cached : Mm, cached.mmapList = mm.mmapList → cached.pgdir = mm.pgdir → Areas cached.mmapList ∧ cached.Covered := by
    intro cached list pgdir
    refine ⟨list ▸ areas, fun vpn bound mapped => ?_⟩
    rw [pgdir] at mapped
    obtain ⟨vma, listed, has⟩ := covered vpn bound mapped
    exact ⟨vma, list ▸ listed, has⟩
  unfold mmMap at ran
  by_cases user : UserAccess (roundDown addr pgSize) (roundUp ((addr + len) % 2 ^ 64) pgSize)
  · simp only [user, not_true, if_false] at ran
    have found : ∀ start, (findVma mm start).2.mmapList = mm.mmapList ∧ (findVma mm start).2.pgdir = mm.pgdir := by
      intro start
      have stored : ∀ vma : Option Vma, (if vma.isSome then { mm with mmapCache := vma } else mm).mmapList = mm.mmapList ∧
          (if vma.isSome then { mm with mmapCache := vma } else mm).pgdir = mm.pgdir := by
        intro vma
        cases vma <;> exact ⟨rfl, rfl⟩
      exact stored _
    obtain ⟨list, pgdir⟩ := found (roundDown addr pgSize)
    generalize findVma mm (roundDown addr pgSize) = result at ran list pgdir
    obtain ⟨vma, cached⟩ := result
    simp only [] at ran list pgdir
    obtain ⟨areasC, coveredC⟩ := keeps cached list pgdir
    by_cases taken : vma.any fun vma => vma.vmStart < roundUp ((addr + len) % 2 ^ 64) pgSize
    · rw [if_pos taken] at ran
      simp only [Except.ok.injEq, Prod.mk.injEq] at ran
      obtain ⟨_, rfl⟩ := ran
      exact ⟨pgdir, areasC, coveredC⟩
    · rw [if_neg taken] at ran
      have fits : (Vma.mk (roundDown addr pgSize) (roundUp ((addr + len) % 2 ^ 64) pgSize) vmFlags).Fits :=
        ⟨Nat.mul_mod_left _ _, Nat.mul_mod_left _ _, user⟩
      cases inserted : insertVmaStruct cached ⟨roundDown addr pgSize, roundUp ((addr + len) % 2 ^ 64) pgSize, vmFlags⟩ with
      | error fault =>
          rw [inserted, error_bind] at ran
          cases ran
      | ok mmI =>
          obtain ⟨areasI, pgdirI, members⟩ := insert_vma_spec cached mmI _ areasC fits inserted
          simp only [inserted, ok_bind, pure_ok, Except.ok.injEq, Prod.mk.injEq] at ran
          obtain ⟨_, rfl⟩ := ran
          refine ⟨pgdirI.trans pgdir, areasI, fun vpn bound mapped => ?_⟩
          rw [pgdirI] at mapped
          obtain ⟨other, listed, has⟩ := coveredC vpn bound mapped
          exact ⟨other, (members other).mpr (.inr listed), has⟩
  · simp only [user, not_false_eq_true, if_true, Except.ok.injEq, Prod.mk.injEq] at ran
    obtain ⟨_, rfl⟩ := ran
    exact ⟨rfl, areas, covered⟩

theorem mapped_covered (mm : Mm) (pgdir' : Pgdir) (la : Nat) (covered : mm.Covered) (area : mm.HasArea (la / pgSize * pgSize))
    (entries : ∀ vpn, vpn < nPages → vpn ≠ la / pgSize → pgdir'.entry vpn = mm.pgdir.entry vpn) :
    Mm.Covered { mm with pgdir := pgdir' } := by
  intro vpn bound mapped
  by_cases here : vpn = la / pgSize
  · rw [here]
    exact area
  · exact covered vpn bound (by rwa [← entries vpn bound here])

theorem step_inv (inv : Inv kernel spaces) (spaceCall : SpaceCall m) (next : Spaces m) (taken : spaces.step spaceCall = some next) :
    Inv kernel next := by
  have ran : spaces.call spaceCall = .ok next := by
    unfold step at taken
    cases called : spaces.call spaceCall with
    | error fault => simp [called] at taken
    | ok reached => simpa [called] using taken
  cases spaceCall with
  | create i =>
      cases here : spaces.mms i with
      | some mm =>
          obtain rfl : spaces = next := by simpa [call, here] using ran
          exact inv
      | none =>
          cases made : mmCreate spaces.mem with
          | none =>
              obtain rfl : spaces = next := by simpa [call, here, made] using ran
              exact inv
          | some result =>
              obtain ⟨mm, mem'⟩ := result
              obtain rfl : spaces.setMm i mem' mm = next := by simpa [call, here, made] using ran
              unfold mmCreate at made
              obtain ⟨⟨page, memA⟩, got, built⟩ := Option.map_eq_some_iff.mp made
              simp only [Prod.mk.injEq] at built
              obtain ⟨rfl, rfl⟩ := built
              refine set_mm_inv kernel spaces inv i memA _ ?_ ⟨.nil, by simp⟩ fun vpn _ mapped => ?_
              · exact create_space spaces.mem spaces.pgdirs kernel inv.shared i (by simp [pgdirs, here]) page memA got
              · simp [Pgdir.entry, Pgdir.lookup] at mapped
  | map i addr len vmFlags =>
      cases here : spaces.mms i with
      | none =>
          obtain rfl : spaces = next := by simpa [call, here] using ran
          exact inv
      | some mm =>
          cases mapped : mmMap mm addr len vmFlags with
          | error fault => simp [call, here, mapped] at ran
          | ok result =>
              obtain ⟨ret, mm'⟩ := result
              obtain rfl : spaces.setMm i spaces.mem mm' = next := by simpa [call, here, mapped] using ran
              obtain ⟨pgdir, areas, covered⟩ :=
                map_areas mm mm' (inv.areas i mm here) (inv.covered i mm here) addr len vmFlags ret mapped
              have space := mm_space kernel spaces inv i mm here
              exact set_mm_inv kernel spaces inv i spaces.mem mm' (pgdir ▸ space) areas covered
  | alloc i la perm =>
      cases here : spaces.mms i with
      | none =>
          obtain rfl : spaces = next := by simpa [call, here] using ran
          exact inv
      | some mm =>
          by_cases area : mm.HasArea la
          · obtain ⟨small, round⟩ := area_user kernel spaces inv i mm here la area
            obtain ⟨page, mem', pgdir', done, space', entries, _⟩ :=
              pgdir_alloc_page_ok spaces.mem mm.pgdir _ _ (mm_space kernel spaces inv i mm here) la perm small
            obtain rfl : spaces.setMm i mem' { mm with pgdir := pgdir' } = next := by simpa [call, here, area, done] using ran
            refine set_mm_inv kernel spaces inv i mem' _ space' (inv.areas i mm here)
              (mapped_covered mm pgdir' la (inv.covered i mm here) round fun vpn bound away => ?_)
            rw [entries vpn bound, if_neg (by simp [away])]
          · obtain rfl : spaces = next := by simpa [call, here, area] using ran
            exact inv
  | share i la perm j lb =>
      cases here : spaces.mms i with
      | none =>
          obtain rfl : spaces = next := by simpa [call, here] using ran
          exact inv
      | some mm =>
          cases there : spaces.pgdirs j with
          | none =>
              obtain rfl : spaces = next := by simpa [call, here, there] using ran
              exact inv
          | some source =>
              cases entry : (source.lookup lb).join with
              | none =>
                  obtain rfl : spaces = next := by simpa [call, here, there, entry] using ran
                  exact inv
              | some pte =>
                  by_cases allowed : mm.HasArea la ∧ lb < userTop
                  · obtain ⟨small, round⟩ := area_user kernel spaces inv i mm here la allowed.1
                    have space := mm_space kernel spaces inv i mm here
                    have positive := mapped_total spaces.pgdirs j source there (lb / pgSize) (user_page lb allowed.2) pte
                      (by rw [← lookup_entry, entry])
                    obtain ⟨used, own⟩ := inv.shared.mapped pte.ppn positive
                    have noTable : ¬ IsTable spaces.pgdirs pte.ppn := fun table => by
                      have zero := (inv.shared.tables pte.ppn table).2.2
                      omega
                    have noTableHere : ∀ a, mm.pgdir.pageAt a ≠ some pte.ppn := fun a at' =>
                      noTable ⟨i, mm.pgdir, a, by simp [pgdirs, here], at'⟩
                    have noForeign : ¬ foreignTo spaces.pgdirs kernel i pte.ppn := fun foreign => by
                      rcases foreign_table spaces.pgdirs kernel i pte.ppn foreign with known | table
                      · exact own known
                      · exact noTable table
                    obtain ⟨ret, mem', pgdir', done, _⟩ :=
                      insert_step spaces.mem mm.pgdir _ _ space la small pte.ppn perm used noTableHere noForeign
                    obtain ⟨space', entries⟩ := page_insert_space spaces.mem mm.pgdir _ _ space pte.ppn la perm used small noTableHere
                      noForeign ret mem' pgdir' done
                    obtain rfl : spaces.setMm i mem' { mm with pgdir := pgdir' } = next := by
                      simpa [call, here, there, entry, allowed, done] using ran
                    refine set_mm_inv kernel spaces inv i mem' _ space' (inv.areas i mm here)
                      (mapped_covered mm pgdir' la (inv.covered i mm here) round fun vpn bound away => ?_)
                    rw [entries vpn bound, if_neg (by simp [away])]
                  · obtain rfl : spaces = next := by simpa [call, here, there, entry, allowed] using ran
                    exact inv
  | dup i j =>
      cases here : spaces.mms i with
      | none =>
          obtain rfl : spaces = next := by simpa [call, here] using ran
          exact inv
      | some target =>
          cases there : spaces.mms j with
          | none =>
              obtain rfl : spaces = next := by simpa [call, here, there] using ran
              exact inv
          | some source =>
              by_cases apart : i ≠ j
              · cases copied : dupMmap spaces.mem target source with
                | error fault => simp [call, here, there, apart, copied] at ran
                | ok result =>
                    obtain ⟨ret, mem', target'⟩ := result
                    obtain rfl : spaces.setMm i mem' target' = next := by simpa [call, here, there, apart, copied] using ran
                    obtain ⟨space', areas, covered⟩ := dup_loop_inv _ _ source.pgdir source.mmapList.reverse spaces.mem target
                      (mm_space kernel spaces inv i target here) (inv.areas i target here) (inv.covered i target here)
                      (fun vma inside => (inv.areas j source there).fits vma (by simpa using inside)) ret mem' target' copied
                    exact set_mm_inv kernel spaces inv i mem' target' space' areas covered
              · obtain rfl : spaces = next := by simpa [call, here, there, apart] using ran
                exact inv

theorem boot_inv (mem : Mem) (boot : ∀ page, mem.free page = true → mem.ref page = 0) :
    Inv (fun page => mem.free page = false) (Spaces.boot mem : Spaces m) :=
  ⟨boot_shared mem boot, by simp [Spaces.boot], by simp [Spaces.boot]⟩

theorem run_inv (mem : Mem) (boot : ∀ page, mem.free page = true → mem.ref page = 0) (spaceCalls : List (SpaceCall m))
    (final : Spaces m) (ran : run step (Spaces.boot mem) spaceCalls = some final) : Inv (fun page => mem.free page = false) final :=
  run_invariant step (fun _ _ => True) _ (fun here spaceCall next inv _ taken => step_inv _ here inv spaceCall next taken) spaceCalls
    (Spaces.boot mem) final (boot_inv mem boot) (throughout_trivial step _ (fun _ _ => trivial) spaceCalls _) ran

end Spaces

end Ucore.Vmm
