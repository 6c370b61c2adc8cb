import Ucore.Pmm.BuddyTree

set_option autoImplicit false

namespace Ucore.Pmm.Buddy

open Ucore.Lib

-- At each order that the loop of buddy_free_pages comes to from the block at p,
-- find_buddy stays in the array; if the other half of the parent is free, it finds
-- that half with its flag set; if not, it finds no page that seems free.
def Coalesces (pages : FrameArray) (cut : List Block) (s : BuddyState) : Nat → Nat → Nat → Prop
  | 0, _, _ => True
  | fuel + 1, order, p =>
      order < maxOrder - 1 →
        p ^^^ 2 ^ order < pages.npage ∧
          match otherHalf cut p order with
          | none => isBuddyFree s (p ^^^ 2 ^ order) order = false
          | some half =>
              if half ∈ s.freeList order then
                p ^^^ 2 ^ order = half ∧ (s.page half).pgProperty = true ∧ Coalesces pages cut s fuel (order + 1) (min p half)
              else isBuddyFree s (p ^^^ 2 ^ order) order = false

instance decidableCoalesces (pages : FrameArray) (cut : List Block) (s : BuddyState) :
    (fuel order p : Nat) → Decidable (Coalesces pages cut s fuel order p)
  | 0, _, _ => inferInstanceAs (Decidable True)
  | fuel + 1, order, p => by
      unfold Coalesces
      have _ : ∀ half, Decidable (Coalesces pages cut s fuel (order + 1) (min p half)) := fun half => decidableCoalesces pages cut s fuel _ _
      cases otherHalf cut p order <;> infer_instance

section Merging

variable {base n p order : Nat} {held cut : List Block} {s first : BuddyState}

-- The lists that the loop still comes to, and the pages off the block in hand, are
-- as they were when it started.
structure Ahead (first s : BuddyState) (order p : Nat) : Prop where
  lists : ∀ other, order ≤ other → s.freeList other = first.freeList other
  pages : ∀ x, ¬ Block.Holds ⟨p, 2 ^ order⟩ x → s.page x = first.page x

theorem buddy_outside (p order : Nat) : ¬ Block.Holds ⟨p, 2 ^ order⟩ (p ^^^ 2 ^ order) := by
  have positive := Nat.two_pow_pos order
  have flipped := flipped_pair p order
  simp only [Block.Holds, Block.stop]
  omega

theorem Ahead.seems_free (ahead : Ahead first s order p) : isBuddyFree s (p ^^^ 2 ^ order) order = isBuddyFree first (p ^^^ 2 ^ order) order := by
  simp only [isBuddyFree, ahead.pages _ (buddy_outside p order)]

def merged (s : BuddyState) (order p : Nat) : BuddyState :=
  let next := taken s order (p ^^^ 2 ^ order)
  let low := min p (p ^^^ 2 ^ order)
  next.setPage low { next.page low with property := 2 ^ (order + 1) }

theorem Ahead.merge (ahead : Ahead first s order p) : Ahead first (merged s order p) (order + 1) (min p (p ^^^ 2 ^ order)) where
  lists := by
    intro other above
    have apart : other ≠ order := by omega
    simpa [merged, taken, BuddyState.setPage, apart] using ahead.lists other (by omega)
  pages := by
    intro x outside
    have positive := Nat.two_pow_pos order
    have double := two_pow_halves order
    have flipped := flipped_pair p order
    simp only [Block.Holds, Block.stop] at outside
    have notLow : x ≠ min p (p ^^^ 2 ^ order) := by omega
    have notBuddy : x ≠ p ^^^ 2 ^ order := by omega
    have before : ¬ Block.Holds ⟨p, 2 ^ order⟩ x := by
      simp only [Block.Holds, Block.stop]
      omega
    simpa [merged, taken, BuddyState.setPage, notLow, notBuddy] using ahead.pages x before

theorem low_if (p buddy : Nat) : (if buddy < p then buddy else p) = min p buddy := by
  split <;> omega

-- Under the condition the loop goes on as long as the other half is free, and the
-- block that it ends with is a part whose other half is not on the lists.
theorem merge_loop_coalesces (pages : FrameArray) (whole : Cut cut base n) (fuel : Nat) (low : nbase ≤ base)
    (inv : BuddyInv s base n [⟨p, 2 ^ order⟩] held) (small : order < maxOrder) (enough : maxOrder < order + fuel + 1)
    (ahead : Ahead first s order p) (part : ∃ root ∈ cut, Node root ⟨p, 2 ^ order⟩) (tree : TreeInv cut s.freeList held)
    (meets : Coalesces pages cut first fuel order p) :
    ∃ order' p' next, mergeLoop pages fuel order p s = .ok (order', p', next) ∧ TreeInv cut (next.addBlock order' p').freeList held := by
  induction fuel generalizing s p order with
  | zero => omega
  | succ fuel ih =>
      obtain ⟨root, member, node⟩ := part
      have holds := node_holds root p order node
      by_cases top : order < maxOrder - 1
      · obtain ⟨inside, place⟩ := meets top
        have region : base ≤ p := ((tiles_covers inv.tiles p).mp ⟨_, by simp, block_holds_first p order⟩).1
        have array := buddy_in_array p order (low.trans region) small
        have found : findBuddy pages p order = .ok (p ^^^ 2 ^ order) := by rw [find_buddy_eq, if_neg (by omega), if_neg (by omega)]
        -- The loop stops here when the buddy does not seem free.
        have stops : isBuddyFree first (p ^^^ 2 ^ order) order = false →
            (∀ half, otherHalf cut p order = some half → half ∉ s.freeList order ∧ half ≠ p) →
            ∃ order' p' next, mergeLoop pages (fuel + 1) order p s = .ok (order', p', next) ∧
              TreeInv cut (next.addBlock order' p').freeList held := by
          intro busy alone
          have busy' := ahead.seems_free.trans busy
          refine ⟨order, p, s, by simp [mergeLoop, top, found, busy'], ?_⟩
          exact tree.add whole small ⟨root, member, node⟩ alone
        cases other : otherHalf cut p order with
        | none =>
            simp only [other] at place
            exact stops place (by simp [other])
        | some half =>
            simp only [other] at place
            have apart : half ≠ p := by
              have positive := Nat.two_pow_pos order
              cases other_half_spec whole root member p order half node other with
              | inl isHigh => omega
              | inr isLow => omega
            by_cases listed : half ∈ first.freeList order
            · simp only [if_pos listed] at place
              obtain ⟨isHalf, flag, rest⟩ := place
              rw [← isHalf] at listed flag rest
              have listedNow : p ^^^ 2 ^ order ∈ s.freeList order := by rwa [ahead.lists order (le_refl _)]
              have sized := inv.sized order small _ listedNow
              have flagNow : (s.page (p ^^^ 2 ^ order)).pgProperty = true := by rwa [ahead.pages _ (buddy_outside p order)]
              have free : isBuddyFree s (p ^^^ 2 ^ order) order = true := by simp [isBuddyFree, flagNow, sized]
              obtain ⟨deleted, deletes, same⟩ := del_block_taken listedNow
              have next : BuddyInv (merged s order p) base n [⟨min p (p ^^^ 2 ^ order), 2 ^ (order + 1)⟩] held := by
                have joined := inv.merge (by omega) listedNow
                rw [low_if] at joined
                exact joined
              have nodeAbove : ∃ root ∈ cut, Node root ⟨min p (p ^^^ 2 ^ order), 2 ^ (order + 1)⟩ := by
                refine ⟨root, member, ?_⟩
                have positive := Nat.two_pow_pos order
                cases other_half_spec whole root member p order half node other with
                | inl isHigh =>
                    have isMin : min p (p ^^^ 2 ^ order) = p := by omega
                    exact isMin.symm ▸ isHigh.2
                | inr isLow =>
                    have isMin : min p (p ^^^ 2 ^ order) = half := by omega
                    exact isMin.symm ▸ isLow.2
              have treeNow : TreeInv cut (merged s order p).freeList held := by
                apply tree.fewer _ held
                · intro other _ q inList
                  by_cases here : other = order
                  · subst here
                    exact List.mem_of_mem_erase (by simpa [merged, taken, BuddyState.setPage] using inList)
                  · simpa [merged, taken, BuddyState.setPage, here] using inList
                · exact fun b live => tree.nodes b (List.mem_append_left _ live)
              obtain ⟨order', p', last, returns, kept⟩ := ih next (by omega) (by omega) ahead.merge nodeAbove treeNow rest
              refine ⟨order', p', last, ?_, kept⟩
              simp only [mergeLoop, if_pos top, found, ok_bind, if_pos free, deletes, same, low_if]
              exact returns
            · simp only [if_neg listed] at place
              apply stops place
              intro half' same
              obtain rfl := Option.some.inj (other.symm.trans same)
              exact ⟨by rwa [ahead.lists order (le_refl _)], apart⟩
      · refine ⟨order, p, s, by simp [mergeLoop, top], tree.add whole small ⟨root, member, node⟩ ?_⟩
        intro half other
        exfalso
        have bound : root.size < 2 ^ (order + 1) := by
          obtain ⟨rootOrder, rootSmall, size⟩ := whole.powers root member
          rw [size]
          exact Nat.pow_lt_pow_right (by omega) (by simp only [maxOrder] at *; omega)
        rw [otherHalf, find_root whole root member p holds, Option.bind_some, if_neg (by omega)] at other
        exact absurd other (by simp)

end Merging

namespace System

variable {pages : FrameArray}

-- The condition on a step, in terms of the state before it.
def Meets (pages : FrameArray) (cut : List Block) (s : System) : Call → Prop
  | .alloc _ => True
  | .free g => Coalesces pages cut s.buddy maxOrder (getOrder g.pages) g.page

instance (cut : List Block) (s : System) : (event : Call) → Decidable (s.Meets pages cut event)
  | .alloc _ => .isTrue trivial
  | .free g => inferInstanceAs (Decidable (Coalesces pages cut s.buddy maxOrder (getOrder g.pages) g.page))

def Coalescing (pages : FrameArray) (cut : List Block) (s : System) (event : Call) : Prop := s.Enabled event ∧ s.Meets pages cut event

instance (cut : List Block) (s : System) (event : Call) : Decidable (s.Coalescing pages cut event) := by
  unfold Coalescing
  infer_instance

-- No two halves of a block that was split are free, and with no live block the free
-- lists have the blocks that they had at the start.
structure Coalesced (start s : System) : Prop where
  halves : ∀ parent ∈ s.parents, ∀ order, parent.2 = order + 1 →
    ¬ (parent.1 ∈ s.buddy.freeList order ∧ parent.1 + 2 ^ order ∈ s.buddy.freeList order)
  restored : s.live = [] → ∀ order, order < maxOrder → ∀ p, p ∈ s.buddy.freeList order ↔ p ∈ start.buddy.freeList order

structure ForestInv (region : Region pages) (cut : List Block) (s : System) : Prop where
  inv : SystemInv region s
  tree : TreeInv cut s.buddy.freeList (s.live.map Grant.block)
  parents : ∀ parent ∈ s.parents, ∃ order, order < maxOrder ∧ parent.2 = order + 1 ∧ ∃ root ∈ cut, Node root ⟨parent.1, 2 ^ (order + 1)⟩

section Steps

variable {region : Region pages} {cut : List Block} {s : System} {held : List Block} {base n p : Nat}

-- Splitting keeps to parts, and leaves the lower halves off the lists.
theorem split_block_tree (whole : Cut cut base n) (target count : Nat) (buddy : BuddyState)
    (inv : BuddyInv buddy base n [⟨p, 2 ^ (target + count)⟩] held) (small : target + count < maxOrder) (clear : (buddy.page p).pgProperty = false)
    (part : ∃ root ∈ cut, Node root ⟨p, 2 ^ (target + count)⟩) (tree : TreeInv cut buddy.freeList held) :
    TreeInv cut (splitBlock p target count buddy).freeList held ∧ (∃ root ∈ cut, Node root ⟨p, 2 ^ target⟩) ∧
      ∀ order ∈ List.range' (target + 1) count, ∃ below, below < maxOrder ∧ order = below + 1 ∧ ∃ root ∈ cut, Node root ⟨p, 2 ^ (below + 1)⟩ := by
  induction count generalizing buddy with
  | zero => exact ⟨tree, part, by simp⟩
  | succ count ih =>
      have lower : target + count < maxOrder := by omega
      have next : BuddyInv (halved buddy (target + count) p) base n [⟨p, 2 ^ (target + count)⟩] held := inv.halve lower clear
      have positive := Nat.two_pow_pos (target + count)
      have apart : p ≠ p + 2 ^ (target + count) := by omega
      obtain ⟨root, member, node⟩ := part
      have double := two_pow_halves (target + count)
      have divides : 2 ^ (target + count) ∣ 2 ^ (target + count) + 2 ^ (target + count) := Dvd.intro_left 2 (by omega)
      have wide : Node root ⟨p, 2 ^ (target + count) + 2 ^ (target + count)⟩ := double ▸ node
      have lowPart := node_trans root _ _ wide (node_low p (2 ^ (target + count))) divides
      have highPart := node_trans root _ _ wide (node_high p (2 ^ (target + count))) divides
      have alone : ∀ half, otherHalf cut (p + 2 ^ (target + count)) (target + count) = some half →
          half ∉ buddy.freeList (target + count) ∧ half ≠ p + 2 ^ (target + count) := by
        intro half other
        have isLow := (other_half_pair whole root member p (target + count) node).2
        obtain rfl : p = half := Option.some.inj (isLow.symm.trans other)
        exact ⟨inv.cur_unlisted _ p (block_holds_first p _) lower, apart⟩
      have treeNow : TreeInv cut (halved buddy (target + count) p).freeList held := tree.add whole lower ⟨root, member, highPart⟩ alone
      have clearNow : ((halved buddy (target + count) p).page p).pgProperty = false := by
        simpa [halved, BuddyState.addBlock, BuddyState.setPage, apart] using clear
      obtain ⟨kept, part', orders⟩ := ih (halved buddy (target + count) p) next lower clearNow ⟨root, member, lowPart⟩ treeNow
      refine ⟨kept, part', ?_⟩
      intro order inRange
      rw [List.range'_concat, List.mem_append] at inRange
      cases inRange with
      | inl before => exact orders order before
      | inr last =>
          have isLast : order = target + count + 1 := by
            simp only [List.mem_singleton] at last
            omega
          exact ⟨target + count, lower, isLast, root, member, node⟩

theorem alloc_forest (whole : Cut cut region.base region.n) (forest : ForestInv region cut s) (asked : Nat) (positive : 0 < asked) :
    ∃ next, s.call pages (.alloc asked) = .ok next ∧ ForestInv region cut next := by
  obtain ⟨next, returns, inv⟩ := alloc_inv forest.inv asked positive
  refine ⟨next, returns, ?_⟩
  by_cases large : 2 ^ (maxOrder - 1) < asked
  · have same : s.call pages (.alloc asked) = .ok s := by
      simp only [call, buddyAllocPages, positive, decide_true, check_true, ok_bind, if_pos large, pure_ok]
    obtain rfl := Except.ok.inj (same.symm.trans returns)
    exact ⟨inv, forest.tree, forest.parents⟩
  · cases search : findOrder s.buddy (getOrder asked) with
    | none =>
        have same : s.call pages (.alloc asked) = .ok s := by
          simp only [call, buddyAllocPages, positive, decide_true, check_true, ok_bind, if_neg large, search, pure_ok]
        obtain rfl := Except.ok.inj (same.symm.trans returns)
        exact ⟨inv, forest.tree, forest.parents⟩
    | some found =>
        obtain ⟨above, smallFound, p, rest, list⟩ := find_order_spec forest.inv.buddy (getOrder asked) found search
        have member : p ∈ s.buddy.freeList found := by simp [list]
        obtain ⟨deleted, deletes, same⟩ := del_block_taken member
        have clear : ((taken s.buddy found p).page p).pgProperty = false := by simp [taken, BuddyState.setPage]
        have span : getOrder asked + (found - getOrder asked) = found := by omega
        have wide : BuddyInv (taken s.buddy found p) region.base region.n [⟨p, 2 ^ (getOrder asked + (found - getOrder asked))⟩]
            (s.live.map Grant.block) := by
          rw [span]
          exact forest.inv.buddy.take smallFound member
        have part : ∃ root ∈ cut, Node root ⟨p, 2 ^ (getOrder asked + (found - getOrder asked))⟩ := by
          rw [span]
          exact forest.tree.nodes _ (List.mem_append_right _ ((free_block s.buddy.freeList found p smallFound).mpr member))
        have treeNow : TreeInv cut (taken s.buddy found p).freeList (s.live.map Grant.block) := by
          apply forest.tree.fewer
          · intro other _ q inList
            by_cases here : other = found
            · subst here
              exact List.mem_of_mem_erase (by simpa [taken, BuddyState.setPage] using inList)
            · simpa [taken, BuddyState.setPage, here] using inList
          · exact fun b live => forest.tree.nodes b (List.mem_append_left _ live)
        obtain ⟨kept, ⟨root, rootMember, node⟩, orders⟩ :=
          split_block_tree whole (getOrder asked) (found - getOrder asked) _ wide (by omega) clear part treeNow
        have result : s.call pages (.alloc asked) = .ok
            ⟨(splitBlock p (getOrder asked) (found - getOrder asked) (taken s.buddy found p)).setPage p
              { (splitBlock p (getOrder asked) (found - getOrder asked) (taken s.buddy found p)).page p with
                property := 2 ^ getOrder asked, pgProperty := false },
            ⟨p, asked, 2 ^ getOrder asked⟩ :: s.live, ((splitOrders s.buddy asked).map fun order => (p, order)) ++ s.parents⟩ := by
          simp only [call, buddyAllocPages, positive, decide_true, check_true, ok_bind, if_neg large, search, list, deletes, same, pure_ok]
          simp [BuddyState.setPage]
        obtain rfl := Except.ok.inj (result.symm.trans returns)
        refine ⟨inv, ⟨?_, kept.noPair⟩, ?_⟩
        · intro b inSystem
          cases List.mem_cons.mp inSystem with
          | inl isNew => exact ⟨root, rootMember, by rw [isNew]; exact node⟩
          | inr before => exact kept.nodes b before
        · intro parent inParents
          cases List.mem_append.mp inParents with
          | inl fresh =>
              simp only [splitOrders, search] at fresh
              obtain ⟨order, inRange, isParent⟩ := List.mem_map.mp fresh
              subst isParent
              exact orders order inRange
          | inr before => exact forest.parents parent before

theorem free_forest (whole : Cut cut region.base region.n) (forest : ForestInv region cut s) (g : Grant) (live : g ∈ s.live)
    (meets : s.Meets pages cut (.free g)) : ∃ next, s.call pages (.free g) = .ok next ∧ ForestInv region cut next := by
  obtain ⟨order, small, size, _⟩ := forest.inv.granted g live
  have isBlock : g.block = ⟨g.page, 2 ^ order⟩ := by rw [Grant.block, size]
  have member : (⟨g.page, 2 ^ order⟩ : Block) ∈ s.live.map Grant.block := isBlock ▸ List.mem_map_of_mem live
  have given := forest.inv.buddy.giveBack member small
  have part := forest.tree.nodes _ (List.mem_append_left _ member)
  have treeNow : TreeInv cut s.buddy.freeList ((s.live.map Grant.block).erase ⟨g.page, 2 ^ order⟩) :=
    forest.tree.fewer _ _ (fun _ _ q listed => listed) fun b inside => forest.tree.nodes b (List.mem_append_left _ (List.mem_of_mem_erase inside))
  have ahead : Ahead s.buddy (s.buddy.setPage g.page { s.buddy.page g.page with property := 2 ^ order, pgProperty := true }) order g.page := by
    refine ⟨fun _ _ => rfl, fun x outside => ?_⟩
    have apart : x ≠ g.page := fun same => outside (same ▸ block_holds_first g.page order)
    simp [BuddyState.setPage, apart]
  have condition : Coalesces pages cut s.buddy maxOrder order g.page := by
    have unfolded : Coalesces pages cut s.buddy maxOrder (getOrder g.pages) g.page := meets
    rwa [size, get_order_pow order small] at unfolded
  obtain ⟨order', p', last, loops, kept⟩ :=
    merge_loop_coalesces pages whole maxOrder region.inside.1 given small (by omega) ahead part treeNow condition
  have returns : s.call pages (.free g) = .ok { s with buddy := last.addBlock order' p', live := s.live.erase g } := by
    simp only [call, size, free_unfolds pages forest.inv.buddy member small, loops]
    rfl
  have inv : SystemInv region { s with buddy := last.addBlock order' p', live := s.live.erase g } := by
    cases free_inv forest.inv g live with
    | inl panics => exact absurd (panics.symm.trans returns) (by simp)
    | inr ends =>
        obtain ⟨next, again, sound⟩ := ends
        obtain rfl := Except.ok.inj (again.symm.trans returns)
        exact sound
  refine ⟨_, returns, inv, ?_, forest.parents⟩
  apply kept.fewer _ _ fun _ _ q listed => listed
  intro b inLive
  obtain ⟨other, inSystem, same⟩ := List.mem_map.mp inLive
  exact forest.tree.nodes b (List.mem_append_left _ (List.mem_map.mpr ⟨other, List.mem_of_mem_erase inSystem, same⟩))

theorem call_forest (whole : Cut cut region.base region.n) (forest : ForestInv region cut s) (event : Call) (met : s.Coalescing pages cut event) :
    ∃ next, s.call pages event = .ok next ∧ ForestInv region cut next := by
  cases event with
  | alloc asked => exact alloc_forest whole forest asked met.1
  | free g => exact free_forest whole forest g met.1 met.2

theorem run_forest (whole : Cut cut region.base region.n) (events : List Call) (forest : ForestInv region cut s)
    (met : Throughout (step pages) (Coalescing pages cut) s events) :
    ∃ final, run (step pages) s events = some final ∧ ForestInv region cut final := by
  induction events generalizing s with
  | nil => exact ⟨s, rfl, forest⟩
  | cons event rest ih =>
      obtain ⟨next, returns, kept⟩ := call_forest whole forest event met.1
      have taken : s.step pages event = some next := by simp [step, returns]
      obtain ⟨final, ran, last⟩ := ih kept (met.2 next taken)
      exact ⟨final, by simp [run, taken, ran], last⟩

end Steps

theorem boot_forest (region : Region pages) : ∃ s, boot region = .ok s ∧ Cut (freeBlocks s.buddy.freeList) region.base region.n ∧
    ForestInv region (freeBlocks s.buddy.freeList) s := by
  obtain ⟨buddy, returns, inv⟩ := init_spec pages region.base region.n region.positive
  have whole : Cut (freeBlocks buddy.freeList) region.base region.n := ⟨inv.tiles, fun root member => inv.power root member⟩
  refine ⟨⟨buddy, [], []⟩, by simp [boot, returns], whole, ⟨inv, by simp⟩, ⟨?_, ?_⟩, by simp⟩
  · exact fun b member => ⟨b, member, node_refl b⟩
  · intro root member low order small node both
    have free := (free_block buddy.freeList order low small).mpr both.1
    have positive := Nat.two_pow_pos order
    have double := two_pow_halves order
    have above := node.above
    have inside := node.inside
    simp only [Block.stop] at above inside
    have holds : root.Holds low := by
      simp only [Block.Holds, Block.stop]
      omega
    have same := tiles_same inv.tiles _ root free member low (block_holds_first low order) holds
    rw [← same] at inside
    simp only at inside
    omega

-- Every run whose frees all meet the condition returns, with all free blocks
-- merged with their other halves.
theorem buddy_coalesces (region : Region pages) (start : System) (booted : boot region = .ok start) (events : List Call)
    (met : Throughout (step pages) (Coalescing pages (freeBlocks start.buddy.freeList)) start events) :
    ∃ final, run (step pages) start events = some final ∧ Coalesced start final := by
  obtain ⟨s, boots, whole, forest⟩ := boot_forest region
  obtain rfl := Except.ok.inj (boots.symm.trans booted)
  obtain ⟨final, ran, last⟩ := run_forest whole events forest met
  refine ⟨final, ran, ?_, ?_⟩
  · intro parent member order isOrder both
    obtain ⟨order', small, same, root, rootMember, node⟩ := last.parents parent member
    obtain rfl : order' = order := by omega
    exact last.tree.noPair root rootMember parent.1 order' small node both
  · intro none' order small p
    have tiles : Tiles (freeBlocks final.buddy.freeList) region.base region.n := by
      have all := last.inv.buddy.tiles
      simpa [none'] using all
    have tree : TreeInv (freeBlocks s.buddy.freeList) final.buddy.freeList [] := by
      have all := last.tree
      simpa [none'] using all
    constructor
    · intro listed
      exact (free_block s.buddy.freeList order p small).mp (tree.all_roots whole tiles order p listed small)
    · intro listed
      have root := (free_block s.buddy.freeList order p small).mpr listed
      have inRegion := (tiles_covers whole.tiles p).mp ⟨_, root, block_holds_first p order⟩
      obtain ⟨c, free, holds⟩ := (tiles_covers tiles p).mpr inRegion
      obtain ⟨other, smallOther, q, qListed, isC⟩ := (mem_free_blocks final.buddy.freeList c).mp free
      subst isC
      have isRoot := tree.all_roots whole tiles other q qListed smallOther
      have same := tiles_same whole.tiles _ _ isRoot root p holds (block_holds_first p order)
      exact (free_block final.buddy.freeList order p small).mp (same ▸ free)

-- Four pages that start on a multiple of four, and two that start on an odd page.
def fourPages : Region sixteenFrames := ⟨0x80004, 4, by decide, by decide⟩

def oddPages : Region sixteenFrames := ⟨0x80001, 2, by decide, by decide⟩

def fifteenFrames : FrameArray := ⟨0x8000f, sixteenFrames.page, by decide, sixteenFrames.reserved⟩

def lastPage : Region fifteenFrames := ⟨0x8000e, 1, by decide, by decide⟩

-- Every free here meets its buddy from below.
def fallingCalls : List Call :=
  [.alloc 1, .alloc 1, .alloc 1, .free ⟨0x80006, 1, 1⟩, .free ⟨0x80005, 1, 1⟩, .free ⟨0x80004, 1, 1⟩]

theorem buddy_coalesces_falling : ∃ start final, boot fourPages = .ok start ∧ run (step sixteenFrames) start fallingCalls = some final ∧
    Coalesced start final := by
  have boots : (boot fourPages).toOption.isSome = true := by decide +kernel
  cases booted : boot fourPages with
  | error fault => simp [booted, Except.toOption] at boots
  | ok start =>
      have checked : ((boot fourPages).toOption.map fun start =>
          decide (Throughout (step sixteenFrames) (Coalescing sixteenFrames (freeBlocks start.buddy.freeList)) start fallingCalls)) = some true := by
        decide +kernel
      rw [booted] at checked
      simp only [Except.toOption, Option.map_some, Option.some.injEq, decide_eq_true_eq] at checked
      obtain ⟨final, ran, coalesced⟩ := buddy_coalesces fourPages start booted fallingCalls checked
      exact ⟨start, final, rfl, ran, coalesced⟩

-- Single pages of the four, given back from the first to the last.
def risingCalls : List Call :=
  [.alloc 1, .alloc 1, .alloc 1, .alloc 1, .free ⟨0x80004, 1, 1⟩, .free ⟨0x80005, 1, 1⟩, .free ⟨0x80006, 1, 1⟩, .free ⟨0x80007, 1, 1⟩]

-- Two halves of a block that was split are free after the calls.
def HalvesFree {pages : FrameArray} (region : Region pages) (events : List Call) (parent order : Nat) : Prop :=
  ((boot region).toOption.bind fun start => (run (step pages) start events).map fun final =>
    decide ((parent, order + 1) ∈ final.parents ∧ parent ∈ final.buddy.freeList order ∧ parent + 2 ^ order ∈ final.buddy.freeList order)) = some true

theorem halves_free_start {pages : FrameArray} (region : Region pages) (events : List Call) (parent order : Nat)
    (free : HalvesFree region events parent order) :
    ∃ start final, boot region = .ok start ∧ run (step pages) start events = some final ∧ ¬ Coalesced start final := by
  unfold HalvesFree at free
  cases booted : boot region with
  | error fault => simp [booted, Except.toOption] at free
  | ok start =>
      simp only [booted, Except.toOption, Option.bind_some, Option.map_eq_some_iff, decide_eq_true_eq] at free
      obtain ⟨final, ran, split, low, high⟩ := free
      exact ⟨start, final, rfl, ran, fun coalesced => coalesced.halves _ split order rfl ⟨low, high⟩⟩

-- A merge with the lower buddy clears the flag of the merged block, so that both
-- halves of the four pages stay free. The two odd pages never merge, and the free
-- of the last page of the array panics.
theorem halves_left_free :
    (∃ start final, boot fourPages = .ok start ∧ run (step sixteenFrames) start risingCalls = some final ∧ ¬ Coalesced start final) ∧
    (∃ start final, boot oddPages = .ok start ∧
      run (step sixteenFrames) start [.alloc 1, .free ⟨0x80001, 1, 1⟩] = some final ∧ ¬ Coalesced start final) ∧
    (∃ start live, boot lastPage = .ok start ∧ start.call fifteenFrames (.alloc 1) = .ok live ∧ live.call fifteenFrames (.free ⟨0x8000e, 1, 1⟩) = .error .invalidPa) := by
  refine ⟨?_, ?_, ?_⟩
  · apply halves_free_start fourPages risingCalls 0x80004 1
    unfold HalvesFree
    decide +kernel
  · apply halves_free_start oddPages [.alloc 1, .free ⟨0x80001, 1, 1⟩] 0x80001 0
    unfold HalvesFree
    decide +kernel
  · have panics : ((boot lastPage).toOption.bind fun start => (start.call fifteenFrames (.alloc 1)).toOption.map fun live =>
        decide ((live.call fifteenFrames (.free ⟨0x8000e, 1, 1⟩)).map (fun _ => ()) = .error .invalidPa)) = some true := by decide +kernel
    cases booted : boot lastPage with
    | error fault => simp [booted, Except.toOption] at panics
    | ok start =>
        cases granted : start.call fifteenFrames (.alloc 1) with
        | error fault => simp [booted, granted, Except.toOption] at panics
        | ok live =>
            refine ⟨start, live, rfl, granted, ?_⟩
            simp only [booted, granted, Except.toOption, Option.bind_some, Option.map_some, Option.some.injEq, decide_eq_true_eq] at panics
            cases freed : live.call fifteenFrames (.free ⟨0x8000e, 1, 1⟩) with
            | error fault => simpa [freed, Except.map] using panics
            | ok next => simp [freed, Except.map] at panics

end System

end Ucore.Pmm.Buddy
