import Mathlib.Data.List.Nodup
import Ucore.Proc.Family

set_option autoImplicit false

namespace Ucore.Proc

open Ucore.Lib

variable {P : Type}

-- The optr chain from first on, with yptr going back and starting at younger.
def Chain (procs : Procs P) (younger : Option P) : Option P → List P → Prop
  | first, [] => first = none
  | first, proc :: rest => first = some proc ∧ (procs proc).yptr = younger ∧ Chain procs (some proc) (procs proc).optr rest

theorem chain_congr (procs procs' : Procs P) (chain : List P) (younger first : Option P)
    (same : ∀ proc ∈ chain, (procs' proc).yptr = (procs proc).yptr ∧ (procs' proc).optr = (procs proc).optr)
    (linked : Chain procs younger first chain) : Chain procs' younger first chain := by
  induction chain generalizing younger first with
  | nil => exact linked
  | cons proc rest ih =>
      obtain ⟨start, back, next⟩ := linked
      obtain ⟨yptr, optr⟩ := same proc List.mem_cons_self
      exact ⟨start, yptr.trans back, optr ▸ ih _ _ (fun other member => same other (List.mem_cons_of_mem _ member)) next⟩

theorem chain_first (procs : Procs P) (chain : List P) (younger first : Option P) (linked : Chain procs younger first chain) :
    first = chain.head? := by
  cases chain with
  | nil => exact linked
  | cons proc rest => exact linked.1

variable [DecidableEq P]

-- Another younger sibling for the first of the chain.
theorem chain_younger (procs procs' : Procs P) (chain : List P) (younger younger' first : Option P) (distinct : chain.Nodup)
    (yptr : ∀ proc ∈ chain, (procs' proc).yptr = if some proc = first then younger' else (procs proc).yptr)
    (optr : ∀ proc ∈ chain, (procs' proc).optr = (procs proc).optr)
    (linked : Chain procs younger first chain) : Chain procs' younger' first chain := by
  cases chain with
  | nil => exact linked
  | cons proc rest =>
      obtain ⟨start, back, next⟩ := linked
      have fresh := (List.nodup_cons.mp distinct).1
      refine ⟨start, ?_, ?_⟩
      · rw [yptr proc List.mem_cons_self, if_pos start.symm]
      · rw [optr proc List.mem_cons_self]
        apply chain_congr procs procs' rest (some proc) _ _ next
        intro other member
        have apart : some other ≠ first := by
          intro same
          obtain same := Option.some.inj (same.trans start)
          exact fresh (same ▸ member)
        exact ⟨(yptr other (List.mem_cons_of_mem _ member)).trans (if_neg apart), optr other (List.mem_cons_of_mem _ member)⟩

section Linking

theorem Procs.set_apply (procs : Procs P) (proc other : P) (entry : ProcStruct P) :
    procs.set proc entry other = if other = proc then entry else procs other := by
  simp [Procs.set, Function.update_apply]

-- The fields that linkChild changes, over all processes.
theorem link_child_apply (procs : Procs P) (parent proc other : P) (outside : (procs parent).cptr ≠ some proc) :
    linkChild procs parent proc other =
      { procs other with
        cptr := if other = parent then some proc else (procs other).cptr
        yptr := if some other = (procs parent).cptr then some proc else if other = proc then none else (procs other).yptr
        optr := if other = proc then (procs parent).cptr else (procs other).optr } := by
  cases first : (procs parent).cptr with
  | none =>
      simp only [linkChild, Procs.set_here, first, Procs.set_apply]
      by_cases isParent : other = parent
      · subst isParent
        by_cases isProc : other = proc <;> simp [isProc]
      · by_cases isProc : other = proc
        · subst isProc
          simp [isParent]
        · simp [isParent, isProc]
  | some older =>
      have apart : older ≠ proc := fun same => outside (first.trans (congrArg some same))
      simp only [linkChild, Procs.set_here, first, Procs.set_apply, if_neg apart]
      by_cases isParent : other = parent
      · subst isParent
        by_cases isProc : other = proc
        · subst isProc
          simp [apart.symm]
        · by_cases isOlder : other = older <;> simp [isProc, isOlder, apart]
      · by_cases isProc : other = proc
        · subst isProc
          simp [isParent, apart.symm]
        · by_cases isOlder : other = older
          · subst isOlder
            simp [isParent, isProc]
          · simp [isParent, isProc, isOlder]

theorem link_child_chain (procs : Procs P) (parent proc : P) (kids : List P) (distinct : kids.Nodup) (fresh : proc ∉ kids)
    (linked : Chain procs none (procs parent).cptr kids) :
    Chain (linkChild procs parent proc) none (linkChild procs parent proc parent).cptr (proc :: kids) := by
  have outside : (procs parent).cptr ≠ some proc := by
    rw [chain_first procs kids none _ linked]
    exact fun same => fresh (List.mem_of_mem_head? same)
  refine ⟨by simp [link_child_apply procs parent proc _ outside], ?_, ?_⟩
  · have other : ¬ some proc = (procs parent).cptr := fun same => outside same.symm
    simp [link_child_apply procs parent proc _ outside, other]
  · rw [link_child_apply procs parent proc proc outside]
    simp only [if_true]
    apply chain_younger procs _ kids none (some proc) _ distinct _ _ linked
    · intro other member
      have apart : other ≠ proc := fun same => fresh (same ▸ member)
      simp [link_child_apply procs parent proc other outside, apart]
    · intro other member
      have apart : other ≠ proc := fun same => fresh (same ▸ member)
      simp [link_child_apply procs parent proc other outside, apart]

theorem link_child_elsewhere (procs : Procs P) (parent proc : P) (kids chain : List P) (younger first : Option P) (fresh : proc ∉ kids)
    (linked : Chain procs none (procs parent).cptr kids) (apart : ∀ other ∈ chain, other ≠ proc ∧ other ∉ kids)
    (elsewhere : Chain procs younger first chain) : Chain (linkChild procs parent proc) younger first chain := by
  have head := chain_first procs kids none _ linked
  have outside : (procs parent).cptr ≠ some proc := by
    rw [head]
    exact fun same => fresh (List.mem_of_mem_head? same)
  apply chain_congr procs _ chain younger first _ elsewhere
  intro other member
  obtain ⟨notProc, notKid⟩ := apart other member
  have notFirst : ¬ some other = (procs parent).cptr := by
    rw [head]
    exact fun same => notKid (List.mem_of_mem_head? same.symm)
  simp [link_child_apply procs parent proc other outside, notProc, notFirst]

end Linking

section Unlinking

omit [DecidableEq P] in
theorem chain_yptr (procs : Procs P) (pre post : List P) (proc : P) (younger first : Option P)
    (linked : Chain procs younger first (pre ++ proc :: post)) : (procs proc).yptr = pre.getLast?.or younger := by
  induction pre generalizing younger first with
  | nil => exact linked.2.1
  | cons sibling rest ih =>
      rw [ih _ _ linked.2.2, List.getLast?_cons]
      cases rest.getLast? <;> rfl

omit [DecidableEq P] in
theorem chain_optr (procs : Procs P) (pre post : List P) (proc : P) (younger first : Option P)
    (linked : Chain procs younger first (pre ++ proc :: post)) : (procs proc).optr = post.head? := by
  induction pre generalizing younger first with
  | nil => exact chain_first procs post _ _ linked.2.2
  | cons sibling rest ih => exact ih _ _ linked.2.2

-- What is left of a process's fields when proc is taken out of its siblings.
def unlinkedFrom (procs : Procs P) (proc other : P) : ProcStruct P :=
  { procs other with
    cptr := if (procs proc).yptr = none ∧ some other = (procs proc).parent then (procs proc).optr else (procs other).cptr
    yptr := if some other = (procs proc).optr then (procs proc).yptr else (procs other).yptr
    optr := if some other = (procs proc).yptr then (procs proc).optr else (procs other).optr }

theorem unlink_child_ok (procs : Procs P) (proc parent : P) (ofParent : (procs proc).parent = some parent)
    (older : (procs proc).optr ≠ some proc) : unlinkChild procs proc = .ok (unlinkedFrom procs proc) := by
  unfold unlinkChild
  cases next : (procs proc).optr with
  | none =>
      cases back : (procs proc).yptr with
      | some younger =>
          simp only [next, back]
          refine congrArg Except.ok (funext fun other => ?_)
          by_cases same : other = younger <;> simp [unlinkedFrom, same, back, next]
      | none =>
          simp only [next, back, ofParent, deref, ok_bind, pure_ok]
          refine congrArg Except.ok (funext fun other => ?_)
          by_cases same : other = parent <;> simp [unlinkedFrom, same, back, next, ofParent]
  | some sibling =>
      have apart : proc ≠ sibling := fun same => older (next.trans (congrArg some same.symm))
      simp only [next, Procs.set_other _ _ _ _ apart]
      cases back : (procs proc).yptr with
      | some younger =>
          simp only
          refine congrArg Except.ok (funext fun other => ?_)
          by_cases same : other = younger
          · subst same
            by_cases first : other = sibling <;> simp [unlinkedFrom, first, back, next]
          · rw [Procs.set_other _ _ _ _ same]
            by_cases first : other = sibling
            · subst first
              simp [unlinkedFrom, same, back, next]
            · simp [unlinkedFrom, same, first, back, next]
      | none =>
          simp only [ofParent, deref, ok_bind, pure_ok]
          refine congrArg Except.ok (funext fun other => ?_)
          by_cases same : other = parent
          · subst same
            by_cases first : other = sibling <;> simp [unlinkedFrom, first, back, next, ofParent]
          · rw [Procs.set_other _ _ _ _ same]
            by_cases first : other = sibling
            · subst first
              simp [unlinkedFrom, same, back, next, ofParent]
            · simp [unlinkedFrom, same, first, back, next, ofParent]

theorem unlinked_chain (procs : Procs P) (pre post : List P) (proc : P) (younger first : Option P) (distinct : (pre ++ proc :: post).Nodup)
    (outside : ∀ other ∈ younger, other ∉ pre ++ proc :: post) (linked : Chain procs younger first (pre ++ proc :: post)) :
    Chain (unlinkedFrom procs proc) younger (if pre = [] then (procs proc).optr else first) (pre ++ post) := by
  have back := chain_yptr procs pre post proc younger first linked
  have next := chain_optr procs pre post proc younger first linked
  induction pre generalizing younger first with
  | nil =>
      simp only [if_true, List.nil_append] at linked distinct outside back ⊢
      have notYounger : ∀ other ∈ post, ¬ some other = younger := fun other member same =>
        outside other same.symm (List.mem_cons_of_mem _ member)
      apply chain_younger procs _ post (some proc) younger _ (List.nodup_cons.mp distinct).2 _ _ linked.2.2
      · intro other member
        simp [unlinkedFrom, back]
      · intro other member
        simp [unlinkedFrom, back, notYounger other member]
  | cons sibling rest ih =>
      obtain ⟨start, here, later⟩ := linked
      obtain ⟨fresh, distinct⟩ := List.nodup_cons.mp distinct
      have apart : ∀ other ∈ some sibling, other ∉ rest ++ proc :: post := by
        intro other same
        exact Option.some.inj same ▸ fresh
      have moved := ih (some sibling) (procs sibling).optr distinct apart later (chain_yptr procs rest post proc _ _ later)
      have notNext : ¬ some sibling = (procs proc).optr := by
        rw [next]
        intro same
        exact fresh (List.mem_append_right _ (List.mem_cons_of_mem _ (List.mem_of_mem_head? same.symm)))
      rw [if_neg (List.cons_ne_nil sibling rest)]
      refine ⟨start, by simp [unlinkedFrom, notNext, here], ?_⟩
      cases rest with
      | nil =>
          have last : some sibling = (procs proc).yptr := by simpa using back.symm
          simpa [unlinkedFrom, ← last] using moved
      | cons younger rest =>
          have notLast : ¬ some sibling = (procs proc).yptr := by
            rw [back, List.getLast?_cons_cons]
            cases last : (younger :: rest).getLast? with
            | none => simp at last
            | some tail =>
                intro same
                simp only [Option.some_or, Option.some.injEq] at same
                exact fresh (List.mem_append_left _ (same ▸ List.mem_of_getLast? last))
          simpa [unlinkedFrom, notLast] using moved

end Unlinking

-- The children of every process in use. While do_exit hands over the children of
-- a process, the first of them that is left has a stale yptr.
structure Chains (used : P → Prop) (procs : Procs P) (kids : P → List P) (loose : Option P) : Prop where
  chain : ∀ parent, used parent → ∃ younger, (loose ≠ some parent → younger = none) ∧ Chain procs younger (procs parent).cptr (kids parent)
  distinct : ∀ parent, used parent → (kids parent).Nodup
  apart : ∀ first second, used first → used second → first ≠ second → ∀ proc ∈ kids first, proc ∉ kids second

section Family

variable {used : P → Prop} {procs : Procs P} {kids : P → List P} {loose : Option P}

omit [DecidableEq P] in
theorem Chains.tight (chains : Chains used procs kids none) (parent : P) (inUse : used parent) :
    Chain procs none (procs parent).cptr (kids parent) := by
  obtain ⟨younger, closed, linked⟩ := chains.chain parent inUse
  exact closed (by simp) ▸ linked

omit [DecidableEq P] in
theorem Chains.congrUsed (chains : Chains used procs kids loose) (procs' : Procs P)
    (cptr : ∀ parent, used parent → (procs' parent).cptr = (procs parent).cptr)
    (links : ∀ parent, used parent → ∀ proc ∈ kids parent,
      (procs' proc).yptr = (procs proc).yptr ∧ (procs' proc).optr = (procs proc).optr) :
    Chains used procs' kids loose where
  chain := by
    intro parent inUse
    obtain ⟨younger, closed, linked⟩ := chains.chain parent inUse
    refine ⟨younger, closed, ?_⟩
    rw [cptr parent inUse]
    exact chain_congr procs procs' _ _ _ (links parent inUse) linked
  distinct := chains.distinct
  apart := chains.apart

omit [DecidableEq P] in
theorem Chains.congr (chains : Chains used procs kids loose) (procs' : Procs P)
    (same : ∀ proc, (procs' proc).cptr = (procs proc).cptr ∧ (procs' proc).yptr = (procs proc).yptr ∧ (procs' proc).optr = (procs proc).optr) :
    Chains used procs' kids loose :=
  chains.congrUsed procs' (fun parent _ => (same parent).1) (fun _ _ proc _ => (same proc).2)

theorem Chains.link (chains : Chains used procs kids loose) (parent proc : P) (inUse : used parent) (closed : loose ≠ some parent)
    (fresh : ∀ other, used other → proc ∉ kids other) :
    Chains used (linkChild procs parent proc) (Function.update kids parent (proc :: kids parent)) loose where
  chain := by
    intro other otherUsed
    obtain ⟨younger, tight, linked⟩ := chains.chain parent inUse
    obtain rfl := tight closed
    by_cases same : other = parent
    · subst same
      refine ⟨none, fun _ => rfl, ?_⟩
      rw [Function.update_self]
      exact link_child_chain procs other proc _ (chains.distinct other inUse) (fresh other inUse) linked
    · obtain ⟨start, tightOther, linkedOther⟩ := chains.chain other otherUsed
      refine ⟨start, tightOther, ?_⟩
      have outside : (procs parent).cptr ≠ some proc := by
        rw [chain_first procs _ none _ linked]
        exact fun same => fresh parent inUse (List.mem_of_mem_head? same)
      rw [Function.update_of_ne same, link_child_apply procs parent proc other outside]
      simp only [if_neg same]
      apply link_child_elsewhere procs parent proc (kids parent) _ _ _ (fresh parent inUse) linked _ linkedOther
      intro sibling member
      exact ⟨fun equal => fresh other otherUsed (equal ▸ member), chains.apart other parent otherUsed inUse same sibling member⟩
  distinct := by
    intro other otherUsed
    by_cases same : other = parent
    · subst same
      rw [Function.update_self]
      exact List.nodup_cons.mpr ⟨fresh other inUse, chains.distinct other inUse⟩
    · rw [Function.update_of_ne same]
      exact chains.distinct other otherUsed
  apart := by
    intro first second firstUsed secondUsed different sibling member
    by_cases isFirst : first = parent
    · have notSecond : second ≠ parent := fun same => different (isFirst.trans same.symm)
      rw [isFirst, Function.update_self] at member
      rw [Function.update_of_ne notSecond]
      cases List.mem_cons.mp member with
      | inl new => exact new ▸ fresh second secondUsed
      | inr old => exact chains.apart parent second inUse secondUsed (Ne.symm notSecond) sibling old
    · rw [Function.update_of_ne isFirst] at member
      by_cases isSecond : second = parent
      · rw [isSecond, Function.update_self]
        intro found
        cases List.mem_cons.mp found with
        | inl new => exact fresh first firstUsed (new ▸ member)
        | inr old => exact chains.apart first parent firstUsed inUse isFirst sibling member old
      · rw [Function.update_of_ne isSecond]
        exact chains.apart first second firstUsed secondUsed different sibling member

-- A sub-list of some children keeps what is said about their lists.
theorem Chains.fewer (chains : Chains used procs kids loose) (parent : P) (inUse : used parent) (rest : List P)
    (part : rest.Sublist (kids parent)) :
    (∀ other, used other → (Function.update kids parent rest other).Nodup) ∧
      ∀ first second, used first → used second → first ≠ second →
        ∀ proc ∈ Function.update kids parent rest first, proc ∉ Function.update kids parent rest second := by
  have smaller : ∀ other, (Function.update kids parent rest other).Sublist (kids other) := by
    intro other
    by_cases same : other = parent
    · subst same
      rwa [Function.update_self]
    · rw [Function.update_of_ne same]
  constructor
  · exact fun other otherUsed => (chains.distinct other otherUsed).sublist (smaller other)
  · intro first second firstUsed secondUsed different proc member found
    exact chains.apart first second firstUsed secondUsed different proc ((smaller first).subset member) ((smaller second).subset found)

theorem Chains.dropFirst (chains : Chains used procs kids loose) (current proc : P) (rest : List P) (inUse : used current)
    (only : loose = none ∨ loose = some current) (first : kids current = proc :: rest) :
    Chains used (procs.set current { procs current with cptr := (procs proc).optr }) (Function.update kids current rest) (some current) where
  chain := by
    have sameLinks : ∀ other, ((procs.set current { procs current with cptr := (procs proc).optr }) other).yptr = (procs other).yptr ∧
        ((procs.set current { procs current with cptr := (procs proc).optr }) other).optr = (procs other).optr := by
      intro other
      by_cases same : other = current <;> simp [same]
    intro other otherUsed
    by_cases same : other = current
    · subst same
      obtain ⟨younger, _, linked⟩ := chains.chain other inUse
      rw [first] at linked
      refine ⟨some proc, fun absurdity => absurd rfl absurdity, ?_⟩
      rw [Function.update_self, Procs.set_here]
      exact chain_congr procs _ rest _ _ (fun sibling _ => sameLinks sibling) linked.2.2
    · obtain ⟨younger, closed, linked⟩ := chains.chain other otherUsed
      have tight : younger = none := by
        apply closed
        cases only with
        | inl none => simp [none]
        | inr some => rw [some]; exact fun equal => same (Option.some.inj equal).symm
      refine ⟨younger, fun _ => tight, ?_⟩
      rw [Function.update_of_ne same, Procs.set_other _ _ _ _ same]
      exact chain_congr procs _ _ _ _ (fun sibling _ => sameLinks sibling) linked
  distinct := (chains.fewer current inUse rest (by simp [first])).1
  apart := (chains.fewer current inUse rest (by simp [first])).2

theorem Chains.close (current : P) (chains : Chains used procs kids (some current)) (empty : kids current = []) : Chains used procs kids none where
  chain := by
    intro parent inUse
    obtain ⟨younger, closed, linked⟩ := chains.chain parent inUse
    by_cases same : parent = current
    · subst same
      rw [empty] at linked ⊢
      exact ⟨none, fun _ => rfl, linked⟩
    · exact ⟨younger, fun _ => closed fun equal => same (Option.some.inj equal).symm, linked⟩
  distinct := chains.distinct
  apart := chains.apart

theorem Chains.unlink (chains : Chains used procs kids none) (parent proc : P) (pre post : List P) (inUse : used parent)
    (ofParent : (procs proc).parent = some parent) (split : kids parent = pre ++ proc :: post) :
    Chains used (unlinkedFrom procs proc) (Function.update kids parent (pre ++ post)) none where
  chain := by
    have linked := chains.tight parent inUse
    rw [split] at linked
    have back := chain_yptr procs pre post proc _ _ linked
    have next := chain_optr procs pre post proc _ _ linked
    intro other otherUsed
    refine ⟨none, fun _ => rfl, ?_⟩
    by_cases same : other = parent
    · subst same
      have distinct := chains.distinct other inUse
      rw [split] at distinct
      have moved := unlinked_chain procs pre post proc none _ distinct (by simp) linked
      rw [Function.update_self]
      have cptr : (unlinkedFrom procs proc other).cptr = if pre = [] then (procs proc).optr else (procs other).cptr := by
        cases pre with
        | nil => simp [unlinkedFrom, back, ofParent]
        | cons sibling rest => simp [unlinkedFrom, back, List.getLast?_cons]
      rw [cptr]
      exact moved
    · have notParent : ¬ some other = (procs proc).parent := by
        rw [ofParent]
        exact fun equal => same (Option.some.inj equal)
      have away : ∀ sibling ∈ kids other, sibling ∉ pre ++ proc :: post := by
        intro sibling member
        rw [← split]
        exact chains.apart other parent otherUsed inUse same sibling member
      have cptr : (unlinkedFrom procs proc other).cptr = (procs other).cptr := by simp [unlinkedFrom, notParent]
      rw [Function.update_of_ne same, cptr]
      apply chain_congr procs _ _ _ _ _ (chains.tight other otherUsed)
      intro sibling member
      have outside := away sibling member
      have notNext : ¬ some sibling = (procs proc).optr := by
        rw [next]
        intro equal
        exact outside (List.mem_append_right _ (List.mem_cons_of_mem _ (List.mem_of_mem_head? equal.symm)))
      have notBack : ¬ some sibling = (procs proc).yptr := by
        rw [back, Option.or_none]
        intro equal
        exact outside (List.mem_append_left _ (List.mem_of_getLast? equal.symm))
      simp [unlinkedFrom, notNext, notBack]
  distinct := (chains.fewer parent inUse (pre ++ post) (by rw [split]; simp)).1
  apart := (chains.fewer parent inUse (pre ++ post) (by rw [split]; simp)).2

omit [DecidableEq P] in
theorem Chains.mono (chains : Chains used procs kids loose) (used' : P → Prop) (fewer : ∀ proc, used' proc → used proc) :
    Chains used' procs kids loose where
  chain := fun parent inUse => chains.chain parent (fewer parent inUse)
  distinct := fun parent inUse => chains.distinct parent (fewer parent inUse)
  apart := fun first second firstUsed secondUsed => chains.apart first second (fewer first firstUsed) (fewer second secondUsed)

theorem Chains.grow (chains : Chains used procs kids loose) (procs' : Procs P) (fresh : P) (unused : ¬ used fresh)
    (outside : ∀ parent, used parent → fresh ∉ kids parent) (none : (procs' fresh).cptr = none)
    (same : ∀ proc, proc ≠ fresh →
      (procs' proc).cptr = (procs proc).cptr ∧ (procs' proc).yptr = (procs proc).yptr ∧ (procs' proc).optr = (procs proc).optr) :
    Chains (fun proc => used proc ∨ proc = fresh) procs' (Function.update kids fresh []) loose where
  chain := by
    intro parent inUse
    by_cases new : parent = fresh
    · subst new
      refine ⟨Option.none, fun _ => rfl, ?_⟩
      rw [Function.update_self]
      exact none
    · obtain ⟨younger, closed, linked⟩ := chains.chain parent (inUse.resolve_right new)
      refine ⟨younger, closed, ?_⟩
      rw [Function.update_of_ne new, (same parent new).1]
      apply chain_congr procs procs' _ _ _ _ linked
      intro sibling member
      have old : sibling ≠ fresh := fun equal => outside parent (inUse.resolve_right new) (equal ▸ member)
      exact (same sibling old).2
  distinct := by
    intro parent inUse
    by_cases new : parent = fresh
    · subst new
      simp
    · rw [Function.update_of_ne new]
      exact chains.distinct parent (inUse.resolve_right new)
  apart := by
    intro first second firstUsed secondUsed different proc member
    by_cases newFirst : first = fresh
    · subst newFirst
      simp at member
    · by_cases newSecond : second = fresh
      · subst newSecond
        simp
      · rw [Function.update_of_ne newFirst] at member
        rw [Function.update_of_ne newSecond]
        exact chains.apart first second (firstUsed.resolve_right newFirst) (secondUsed.resolve_right newSecond) different proc member

end Family

end Ucore.Proc
