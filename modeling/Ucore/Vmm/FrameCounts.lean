import Ucore.Vmm.Frames

set_option autoImplicit false

namespace Ucore.Vmm

open Ucore.Lib

namespace Frames

variable {m : Nat}

-- What a step gives back: the frames whose last mapping it took, each once.
def Account (before after : Frames m) : Prop := ∃ log, after.mem.freed = log ++ before.mem.freed ∧
  Returned (total before.pgdirs) (total after.pgdirs) log

section Steps

variable (kernel : Nat → Prop) (frames : Frames m) (inv : Inv kernel frames) (i : Fin m)

include inv

-- A page that waits to be mapped is idle in every address space.
theorem held_idle (pgdir : Pgdir) (here : frames.pgdirs i = some pgdir) (page : Nat) (held : page ∈ frames.held) :
    Idle frames.mem pgdir page ∧ ¬ foreignTo frames.pgdirs kernel i page ∧ outsideOf frames.pgdirs i page = 0 := by
  obtain ⟨used, own, noTable, unmapped⟩ := inv.held page held
  rw [total_split frames.pgdirs i, here] at unmapped
  have split : pgdir.count page + outsideOf frames.pgdirs i page = 0 := unmapped
  refine ⟨⟨used, fun a at' => noTable ⟨i, pgdir, a, here, at'⟩, by omega⟩, fun foreign => ?_, by omega⟩
  rcases foreign_table frames.pgdirs kernel i page foreign with known | table
  · exact own known
  · exact noTable table

theorem space_step_inv (pgdir pgdir' : Pgdir) (mem' : Mem) (entering : Nat → Prop) (held' : List Nat) (here : frames.pgdirs i = some pgdir)
    (step : SpaceStep frames.mem mem' pgdir pgdir' (foreignTo frames.pgdirs kernel i) (outsideOf frames.pgdirs i) entering)
    (kept : ∀ page ∈ held', page ∈ frames.held ∧ ¬ entering page) :
    Inv kernel ⟨mem', Function.update frames.pgdirs i (some pgdir'), held'⟩ ∧
      Account frames ⟨mem', Function.update frames.pgdirs i (some pgdir'), held'⟩ := by
  have shared' := space_shared frames.mem frames.pgdirs kernel inv.shared i mem' pgdir' step.space
  refine ⟨⟨shared', fun page inside => ?_⟩, ?_⟩
  · obtain ⟨held, apart⟩ := kept page inside
    obtain ⟨idle, noForeign, noOutside⟩ := held_idle kernel frames inv i pgdir here page held
    obtain ⟨used, noTable, unmapped⟩ := step.idle page apart idle
    refine ⟨used, fun known => noForeign (.inl known), ?_, ?_⟩
    · rintro ⟨j, other, a, atJ, atA⟩
      simp only [] at atJ
      by_cases same : j = i
      · subst same
        rw [Function.update_self] at atJ
        obtain rfl := Option.some.inj atJ
        exact noTable a atA
      · rw [Function.update_of_ne same] at atJ
        exact noForeign (.inr ⟨j, other, a, same, atJ, atA⟩)
    · rw [total_update, unmapped, noOutside]
  · obtain ⟨log, freed, returned⟩ := step.returned
    refine ⟨log, freed, fun page => ?_⟩
    rw [total_update, total_split frames.pgdirs i, here]
    exact returned page

-- A call on one address space: no fault but an assertion, and a step of that
-- space when it succeeds.
theorem on_space_inv (call : Mem → Pgdir → Except Fault (Int × Mem × Pgdir)) (entering : Nat → Prop)
    (apart : ∀ page ∈ frames.held, ¬ entering page)
    (good : ∀ pgdir, frames.pgdirs i = some pgdir → match call frames.mem pgdir with
      | .error fault => fault = .assertFailed
      | .ok (ret, mem', pgdir') => ret = 0 →
          SpaceStep frames.mem mem' pgdir pgdir' (foreignTo frames.pgdirs kernel i) (outsideOf frames.pgdirs i) entering) :
    match frames.onSpace i call with
    | .error fault => fault = .assertFailed
    | .ok (ret, next) => ret = 0 → Inv kernel next ∧ Account frames next := by
  unfold onSpace
  cases here : frames.pgdirs i with
  | none => simp [eInval]
  | some pgdir =>
      have fine := good pgdir here
      simp only []
      cases ran : call frames.mem pgdir with
      | error fault =>
          simp only [ran] at fine
          exact fine
      | ok result =>
          obtain ⟨ret, mem', pgdir'⟩ := result
          simp only [ran] at fine
          intro succeeded
          exact space_step_inv kernel frames inv i pgdir pgdir' mem' entering frames.held here (fine succeeded)
            fun page inside => ⟨inside, apart page inside⟩

-- A frame that is mapped or held may be inserted anywhere.
theorem insert_good (page la perm : Nat) (user : la < userTop) (used : frames.mem.free page = false) (own : ¬ kernel page)
    (noTable : ¬ IsTable frames.pgdirs page) (pgdir : Pgdir) (here : frames.pgdirs i = some pgdir) :
    match pageInsert frames.mem pgdir page la perm with
    | .error fault => fault = .assertFailed
    | .ok (ret, mem', pgdir') => ret = 0 → SpaceStep frames.mem mem' pgdir pgdir' (foreignTo frames.pgdirs kernel i)
        (outsideOf frames.pgdirs i) fun other => other = page := by
  have space := shared_space frames.mem frames.pgdirs kernel inv.shared i pgdir here
  obtain ⟨ret, mem', pgdir', ran, step⟩ := insert_step frames.mem pgdir _ _ space la (user_page la user) page perm used
    (fun a at' => noTable ⟨i, pgdir, a, here, at'⟩) (fun foreign => by
      rcases foreign_table frames.pgdirs kernel i page foreign with known | table
      · exact own known
      · exact noTable table)
  rw [ran]
  exact fun _ => step

theorem alloc_shared (page : Nat) (mem' : Mem) (got : frames.mem.allocPage = some (page, mem')) :
    Shared mem' frames.pgdirs kernel ∧ frames.mem.free page = true ∧ mem'.free page = false ∧ mem'.freed = frames.mem.freed := by
  obtain ⟨free, rfl⟩ := alloc_page_spec frames.mem mem' page got
  have keep : ∀ other, frames.mem.free other = false → Function.update frames.mem.free page false other = false := by
    intro other used
    by_cases same : other = page
    · simp [same]
    · simp [same, used]
  have shared := inv.shared
  refine ⟨⟨shared.once, fun other table => ?_, fun other positive => ?_, shared.refs, fun other known => ?_⟩, free, by simp, rfl⟩
  · exact (shared.tables other table).imp_left (keep other)
  · exact (shared.mapped other positive).imp_left (keep other)
  · exact keep other (shared.kernelUsed other known)

theorem round_inv (round : Round m) : match frames.roundCall round with
    | .error fault => fault = .assertFailed
    | .ok (ret, next) => ret = 0 → Inv kernel next ∧ Account frames next := by
  cases round with
  | create i =>
      simp only [roundCall]
      cases here : frames.pgdirs i with
      | some pgdir => simp [eInval]
      | none =>
          cases got : frames.mem.allocPage with
          | none => simp [eNoMem]
          | some found =>
              obtain ⟨page, mem'⟩ := found
              obtain ⟨free, shape⟩ := alloc_page_spec frames.mem mem' page got
              have space := create_space frames.mem frames.pgdirs kernel inv.shared i here page mem' got
              have shared' := space_shared frames.mem frames.pgdirs kernel inv.shared i mem' _ space
              have unmapped : ∀ other, (Pgdir.mk page fun _ => none).count other = 0 := fun other => by
                by_contra some
                obtain ⟨vpn, _, maps⟩ := (count_pos _ other).mp (Nat.pos_of_ne_zero some)
                simp [Pgdir.Maps, Pgdir.entry, Pgdir.lookup] at maps
              have totals : ∀ other, total (Function.update frames.pgdirs i (some ⟨page, fun _ => none⟩)) other =
                  total frames.pgdirs other := by
                intro other
                rw [total_update, unmapped, total_split frames.pgdirs i, here]
                rfl
              simp only [Option.isSome_none, Bool.false_eq_true, if_false]
              refine fun _ => ⟨⟨shared', fun other held => ?_⟩, [], by rw [shape]; rfl, returned_nothing _ _ fun other positive => ?_⟩
              · obtain ⟨used, own, noTable, zero⟩ := inv.held other held
                have apart : other ≠ page := by
                  rintro rfl
                  rw [used] at free
                  cases free
                refine ⟨by simp [shape, apart, used], own, ?_, (totals other).trans zero⟩
                rintro ⟨j, pgdir, a, atJ, atA⟩
                simp only [] at atJ
                by_cases same : j = i
                · subst same
                  rw [Function.update_self] at atJ
                  obtain rfl := Option.some.inj atJ
                  cases a with
                  | root => exact apart (Option.some.inj atA).symm
                  | dir d1 => simp [Pgdir.pageAt] at atA
                  | table d1 d0 => simp [Pgdir.pageAt] at atA
                · rw [Function.update_of_ne same] at atJ
                  exact noTable ⟨j, pgdir, a, atJ, atA⟩
              · rwa [totals other]
  | obtain =>
      simp only [roundCall]
      cases got : frames.mem.allocPage with
      | none => simp [eNoMem]
      | some found =>
          obtain ⟨page, mem'⟩ := found
          obtain ⟨shared', free, used, freed⟩ := alloc_shared kernel frames inv page mem' got
          refine fun _ => ⟨⟨shared', fun other held => ?_⟩, [], freed, returned_nothing _ _ fun _ positive => positive⟩
          have notUsed : frames.mem.free page ≠ false := by simp [free]
          rcases List.mem_cons.mp held with rfl | old
          · refine ⟨used, fun known => notUsed (inv.shared.kernelUsed other known),
              fun table => notUsed (inv.shared.tables other table).1, ?_⟩
            by_contra some
            exact notUsed (inv.shared.mapped other (Nat.pos_of_ne_zero some)).1
          · obtain ⟨before, own, noTable, zero⟩ := inv.held other old
            obtain ⟨_, shape⟩ := alloc_page_spec frames.mem mem' page got
            have apart : other ≠ page := by
              rintro rfl
              exact notUsed before
            exact ⟨by simp [shape, apart, before], own, noTable, zero⟩
  | insert i page la perm =>
      simp only [roundCall]
      by_cases allowed : page ∈ frames.held ∧ la < userTop
      · rw [if_pos allowed]
        obtain ⟨used, own, noTable, _⟩ := inv.held page allowed.1
        unfold onSpace
        cases here : frames.pgdirs i with
        | none => simp [eInval]
        | some pgdir =>
            have good := insert_good kernel frames inv i page la perm allowed.2 used own noTable pgdir here
            cases ran : pageInsert frames.mem pgdir page la perm with
            | error fault =>
                simp only [ran] at good
                simpa [ran] using good
            | ok result =>
                obtain ⟨ret, mem', pgdir'⟩ := result
                simp only [ran] at good
                simp only [ran, ok_bind, pure_ok]
                intro success
                rw [if_pos success]
                refine space_step_inv kernel frames inv i pgdir pgdir' mem' _ _ here (good success) fun other inside => ?_
                obtain ⟨held, apart⟩ := List.mem_filter.mp inside
                exact ⟨held, by simpa using apart⟩
      · simp [allowed, eInval]
  | share i la perm j lb =>
      simp only [roundCall]
      cases source : frames.pgdirs j with
      | none => simp [eInval]
      | some from' =>
          cases entry : (from'.lookup lb).join with
          | none => simp [entry, eInval]
          | some pte =>
              by_cases user : la < userTop ∧ lb < userTop
              · simp only [Option.bind_some, entry, if_pos user]
                have positive := mapped_total frames.pgdirs j from' source (lb / pgSize) (user_page lb user.2) pte
                  (by rw [← lookup_entry, entry])
                obtain ⟨used, own⟩ := inv.shared.mapped pte.ppn positive
                have noTable : ¬ IsTable frames.pgdirs pte.ppn := fun table => by
                  have zero := (inv.shared.tables pte.ppn table).2.2
                  omega
                refine on_space_inv kernel frames inv i _ (fun other => other = pte.ppn) (fun page held => ?_) fun pgdir here =>
                  insert_good kernel frames inv i pte.ppn la perm user.1 used own noTable pgdir here
                rintro rfl
                have zero := (inv.held pte.ppn held).2.2.2
                omega
              · simp [entry, user, eInval]
  | remove i la =>
      simp only [roundCall]
      by_cases user : la < userTop
      · rw [if_pos user]
        refine on_space_inv kernel frames inv i _ (fun _ => False) (fun _ _ => id) fun pgdir here => ?_
        have space := shared_space frames.mem frames.pgdirs kernel inv.shared i pgdir here
        obtain ⟨mem', pgdir', ran, step⟩ := remove_step frames.mem pgdir _ _ space la (user_page la user)
        simp only [ran, ok_bind, pure_ok]
        exact fun _ => step
      · simp [user, eInval]
  | alloc i la perm =>
      simp only [roundCall]
      by_cases user : la < userTop
      · rw [if_pos user]
        refine on_space_inv kernel frames inv i _ (fun _ => False) (fun _ _ => id) fun pgdir here => ?_
        have space := shared_space frames.mem frames.pgdirs kernel inv.shared i pgdir here
        obtain ⟨result, mem', pgdir', ran, _⟩ := pgdir_alloc_page_ok frames.mem pgdir _ _ space la perm (user_page la user)
        simp only [ran, ok_bind, pure_ok]
        cases result with
        | none => simp [eNoMem]
        | some page => exact fun _ => alloc_step frames.mem pgdir _ _ space la (user_page la user) perm page mem' pgdir' ran
      · simp [user, eInval]
  | copyPage i j vpn =>
      simp only [roundCall]
      cases source : frames.pgdirs j with
      | none => simp [eInval]
      | some from' =>
          by_cases allowed : i ≠ j ∧ vpn * pgSize < userTop
          · simp only [if_pos allowed]
            have small : vpn < nPages := by
              have user := user_page (vpn * pgSize) allowed.2
              rwa [page_index] at user
            refine on_space_inv kernel frames inv i _ (fun _ => False) (fun _ _ => id) fun pgdir here => ?_
            have space := shared_space frames.mem frames.pgdirs kernel inv.shared i pgdir here
            cases ran : copyPage frames.mem pgdir from' (vpn * pgSize) with
            | error fault => exact copy_page_fault frames.mem pgdir from' _ _ space vpn small fault ran
            | ok result =>
                obtain ⟨ret, mem', pgdir'⟩ := result
                exact fun _ => copy_step frames.mem pgdir from' _ _ space vpn small ret mem' pgdir' ran
          · simp [allowed, eInval]

theorem round_step_inv (round : Round m) (next : Frames m) (taken : frames.roundStep round = some next) :
    Inv kernel next ∧ Account frames next := by
  have good := round_inv kernel frames inv round
  unfold roundStep at taken
  cases ran : frames.roundCall round with
  | error fault => simp [ran, succeeded] at taken
  | ok result =>
      obtain ⟨ret, reached⟩ := result
      simp only [ran] at good
      by_cases success : ret = 0
      · obtain rfl : reached = next := by simpa [ran, succeeded, success] using taken
        exact good success
      · simp [ran, succeeded, success] at taken

end Steps

section Rounds

theorem unmap_rounds (i : Fin m) (vpns : List Nat) (frames : Frames m) (pgdir pgdir' : Pgdir) (mem' : Mem)
    (here : frames.pgdirs i = some pgdir) (user : ∀ vpn ∈ vpns, vpn * pgSize < userTop)
    (ran : unmapPages frames.mem pgdir vpns = .ok (mem', pgdir')) :
    run roundStep frames (vpns.map fun vpn => .remove i (vpn * pgSize)) =
      some { frames with mem := mem', pgdirs := Function.update frames.pgdirs i (some pgdir') } := by
  induction vpns generalizing frames pgdir with
  | nil =>
      simp only [unmapPages, Except.ok.injEq, Prod.mk.injEq] at ran
      obtain ⟨rfl, rfl⟩ := ran
      rw [← here, Function.update_eq_self]
      rfl
  | cons vpn rest ih =>
      rw [unmapPages] at ran
      cases removed : pageRemovePte frames.mem pgdir (vpn * pgSize) with
      | error fault => simp [removed] at ran
      | ok result =>
          obtain ⟨memR, pgdirR⟩ := result
          simp only [removed, ok_bind] at ran
          have first : frames.roundStep (.remove i (vpn * pgSize)) =
              some { frames with mem := memR, pgdirs := Function.update frames.pgdirs i (some pgdirR) } := by
            simp [roundStep, roundCall, user vpn (by simp), onSpace, here, removed, succeeded]
          have later := ih { frames with mem := memR, pgdirs := Function.update frames.pgdirs i (some pgdirR) } pgdirR
            (Function.update_self ..) (fun other inside => user other (by simp [inside])) ran
          simpa [run, first] using later

theorem copy_rounds (i j : Fin m) (apart : i ≠ j) (source : Pgdir) (vpns : List Nat) (frames : Frames m) (pgdir pgdir' : Pgdir)
    (mem' : Mem) (here : frames.pgdirs i = some pgdir) (there : frames.pgdirs j = some source)
    (user : ∀ vpn ∈ vpns, vpn * pgSize < userTop) (ran : copyPages frames.mem pgdir source vpns = .ok (0, mem', pgdir')) :
    run roundStep frames (vpns.map fun vpn => .copyPage i j vpn) =
      some { frames with mem := mem', pgdirs := Function.update frames.pgdirs i (some pgdir') } := by
  induction vpns generalizing frames pgdir with
  | nil =>
      simp only [copyPages, Except.ok.injEq, Prod.mk.injEq] at ran
      obtain ⟨_, rfl, rfl⟩ := ran
      rw [← here, Function.update_eq_self]
      rfl
  | cons vpn rest ih =>
      rw [copyPages] at ran
      cases copied : copyPage frames.mem pgdir source (vpn * pgSize) with
      | error fault => simp [copied] at ran
      | ok result =>
          obtain ⟨ret, memC, pgdirC⟩ := result
          simp only [copied, ok_bind] at ran
          by_cases failed : ret ≠ 0
          · rw [if_pos failed] at ran
            simp only [pure_ok, Except.ok.injEq, Prod.mk.injEq] at ran
            exact absurd ran.1 failed
          · rw [if_neg failed] at ran
            have success : ret = 0 := not_not.mp failed
            have first : frames.roundStep (.copyPage i j vpn) =
                some { frames with mem := memC, pgdirs := Function.update frames.pgdirs i (some pgdirC) } := by
              simp [roundStep, roundCall, there, apart, user vpn (by simp), onSpace, here, copied, succeeded, success]
            have later := ih { frames with mem := memC, pgdirs := Function.update frames.pgdirs i (some pgdirC) } pgdirC
              (Function.update_self ..) (by simpa [Function.update_of_ne apart.symm] using there)
              (fun other inside => user other (by simp [inside])) ran
            simpa [run, first] using later

theorem step_rounds (frames next : Frames m) (frameCall : FrameCall m) (taken : frames.step frameCall = some next) :
    run roundStep frames frameCall.rounds = some next := by
  cases frameCall with
  | one round => simpa [FrameCall.rounds, run, step, call, roundStep] using taken
  | unmap i start stop =>
      cases here : frames.pgdirs i with
      | none => simp [step, call, onSpace, here, succeeded, eInval] at taken
      | some pgdir =>
          simp only [step, call, onSpace, here, unmap_range_pages] at taken
          by_cases fine : start % pgSize = 0 ∧ stop % pgSize = 0 ∧ UserAccess start stop
          · rw [if_pos fine] at taken
            cases ran : unmapPages frames.mem pgdir (pagesBetween start stop) with
            | error fault => simp [ran, succeeded] at taken
            | ok result =>
                obtain ⟨mem', pgdir'⟩ := result
                obtain rfl := by simpa [ran, succeeded] using taken
                exact unmap_rounds i _ frames pgdir pgdir' mem' here (range_pages start stop fine.1 fine.2.1 fine.2.2).2.2.2.2 ran
          · simp [fine, succeeded] at taken
  | copy i j start stop =>
      cases there : frames.pgdirs j with
      | none => simp [step, call, there, succeeded, eInval] at taken
      | some source =>
          by_cases apart : i ≠ j
          · cases here : frames.pgdirs i with
            | none => simp [step, call, there, apart, onSpace, here, succeeded, eInval] at taken
            | some pgdir =>
                simp only [step, call, there, if_pos apart, onSpace, here, copy_range_pages] at taken
                by_cases fine : start % pgSize = 0 ∧ stop % pgSize = 0 ∧ UserAccess start stop
                · rw [if_pos fine] at taken
                  cases ran : copyPages frames.mem pgdir source (pagesBetween start stop) with
                  | error fault => simp [ran, succeeded] at taken
                  | ok result =>
                      obtain ⟨ret, mem', pgdir'⟩ := result
                      by_cases success : ret = 0
                      · subst success
                        obtain rfl := by simpa [ran, succeeded] using taken
                        exact copy_rounds i j apart source _ frames pgdir pgdir' mem' here there
                          (range_pages start stop fine.1 fine.2.1 fine.2.2).2.2.2.2 ran
                      · simp [ran, succeeded, success] at taken
                · simp [fine, succeeded] at taken
          · simp [step, call, there, apart, succeeded, eInval] at taken

theorem run_rounds (frameCalls : List (FrameCall m)) (frames final : Frames m) (ran : run step frames frameCalls = some final) :
    run roundStep frames (frameCalls.flatMap FrameCall.rounds) = some final := by
  induction frameCalls generalizing frames with
  | nil => exact ran
  | cons first rest ih =>
      cases taken : frames.step first with
      | none => simp [run, taken] at ran
      | some next =>
          simp only [run, taken, Option.bind_some] at ran
          rw [List.flatMap_cons, run_append, step_rounds frames next first taken]
          exact ih next ran

theorem call_fault (kernel : Nat → Prop) (frames : Frames m) (inv : Inv kernel frames) (frameCall : FrameCall m) (fault : Fault)
    (ran : frames.call frameCall = .error fault) : fault = .assertFailed := by
  cases frameCall with
  | one round =>
      have good := round_inv kernel frames inv round
      rw [show frames.roundCall round = .error fault from ran] at good
      exact good
  | unmap i start stop =>
      cases here : frames.pgdirs i with
      | none => simp [call, onSpace, here] at ran
      | some pgdir =>
          have space := shared_space frames.mem frames.pgdirs kernel inv.shared i pgdir here
          simp only [call, onSpace, here, unmap_range_pages] at ran
          by_cases fine : start % pgSize = 0 ∧ stop % pgSize = 0 ∧ UserAccess start stop
          · obtain ⟨mem', pgdir', done, _⟩ := unmap_pages_spec _ _ (pagesBetween start stop) frames.mem pgdir space fun vpn inside => by
              have user := user_page _ ((range_pages start stop fine.1 fine.2.1 fine.2.2).2.2.2.2 vpn inside)
              rwa [page_index] at user
            simp [fine, done] at ran
          · simp only [if_neg fine, error_bind, Except.error.injEq] at ran
            exact ran.symm
  | copy i j start stop =>
      cases there : frames.pgdirs j with
      | none => simp [call, there] at ran
      | some source =>
          by_cases apart : i ≠ j
          · cases here : frames.pgdirs i with
            | none => simp [call, there, apart, onSpace, here] at ran
            | some pgdir =>
                have space := shared_space frames.mem frames.pgdirs kernel inv.shared i pgdir here
                simp only [call, there, if_pos apart, onSpace, here, copy_range_pages] at ran
                by_cases fine : start % pgSize = 0 ∧ stop % pgSize = 0 ∧ UserAccess start stop
                · rw [if_pos fine] at ran
                  cases done : copyPages frames.mem pgdir source (pagesBetween start stop) with
                  | error stopped =>
                      simp only [done, error_bind, Except.error.injEq] at ran
                      exact ran ▸ copy_pages_fault frames.mem pgdir source _ _ space _
                        (range_pages start stop fine.1 fine.2.1 fine.2.2).2.2.2.2 stopped done
                  | ok result => simp [done] at ran
                · simp only [if_neg fine, error_bind, Except.error.injEq] at ran
                  exact ran.symm
          · simp [call, there, apart] at ran

end Rounds

-- A frame for user mappings is one that the allocator had at boot and that is no
-- page table now. Its count is the number of entries that map it, and no free
-- frame is mapped.
structure Exact (kernel : Nat → Prop) (frames : Frames m) : Prop where
  refs : ∀ page, ¬ IsTable frames.pgdirs page → ¬ kernel page → frames.mem.ref page = total frames.pgdirs page
  unmapped : ∀ page, frames.mem.free page = true → total frames.pgdirs page = 0

theorem inv_exact (kernel : Nat → Prop) (frames : Frames m) (inv : Inv kernel frames) : Exact kernel frames := by
  refine ⟨inv.shared.refs, fun page free => ?_⟩
  by_contra some
  have used := (inv.shared.mapped page (Nat.pos_of_ne_zero some)).1
  rw [free] at used
  cases used

theorem boot_inv (mem : Mem) (boot : ∀ page, mem.free page = true → mem.ref page = 0) :
    Inv (fun page => mem.free page = false) (Frames.boot mem : Frames m) :=
  ⟨boot_shared mem boot, fun _ inside => absurd inside (by simp [Frames.boot])⟩

theorem reference_counts_exact (mem : Mem) (boot : ∀ page, mem.free page = true → mem.ref page = 0) (frameCalls : List (FrameCall m))
    (final : Frames m) (ran : run step (Frames.boot mem) frameCalls = some final) :
    run roundStep (Frames.boot mem) (frameCalls.flatMap FrameCall.rounds) = some final ∧
      ∀ earlier, earlier <+: frameCalls.flatMap FrameCall.rounds → ∀ reached, run roundStep (Frames.boot mem) earlier = some reached →
        Exact (fun page => mem.free page = false) reached ∧
          (∀ round next, reached.roundStep round = some next → Account reached next) ∧
          ∀ frameCall fault, reached.call frameCall = .error fault → fault = .assertFailed := by
  refine ⟨run_rounds frameCalls (Frames.boot mem) final ran, fun earlier _ reached ranRounds => ?_⟩
  have inv := run_invariant roundStep (fun _ _ => True) (Inv fun page => mem.free page = false)
    (fun frames round next here _ taken => (round_step_inv _ frames here round next taken).1) earlier (Frames.boot mem) reached
    (boot_inv mem boot) (throughout_trivial roundStep _ (fun _ _ => trivial) earlier (Frames.boot mem)) ranRounds
  exact ⟨inv_exact _ reached inv, fun round next taken => (round_step_inv _ reached inv round next taken).2,
    call_fault _ reached inv⟩

-- Pages 16 to 63 are free, and the lowest one is taken.
def smallMem : Mem := ⟨fun free => (List.range 64).find? free, fun page => decide (16 ≤ page ∧ page < 64), fun _ => 0, fun _ => 0, []⟩

def copyCalls : List (FrameCall 2) :=
  [.one (.create 0), .one (.create 1), .one (.alloc 0 0x800000 30), .one (.share 0 0x801000 30 0 0x800000), .copy 1 0 0x800000 0x802000,
    .unmap 0 0x800000 0x802000]

theorem reference_counts_exact_copy : ∃ final : Frames 2, run step (Frames.boot smallMem) copyCalls = some final ∧
    Exact (fun page => smallMem.free page = false) final := by
  cases ran : run step (Frames.boot smallMem) copyCalls with
  | none =>
      have returns : (run step (Frames.boot smallMem) copyCalls).isSome := by decide +kernel
      simp [ran] at returns
  | some final =>
      obtain ⟨rounds, always⟩ := reference_counts_exact smallMem (fun _ _ => rfl) copyCalls final ran
      exact ⟨final, rfl, (always _ (List.prefix_refl _) final rounds).1⟩

end Frames

end Ucore.Vmm
