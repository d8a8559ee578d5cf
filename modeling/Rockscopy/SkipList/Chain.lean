/-
# Rockscopy.SkipList.Chain — the lists the forward pointers form

`Chain s level o l`: following the forward pointers at `level` from the pointer
`o` visits the nodes `l`, in order, and reaches `nullptr`. A chain is unique,
repeats no node (so the pointers form no cycle along it), and is no longer than
the arena has nodes.

One turn of `Insert`'s linking loop, `link`, sets the new node's forward pointer
at level `i` to `prev_[i]`'s and then points `prev_[i]` at the new node.
`chain_link` says what that does to every chain at level `i`: the new node
appears right after `prev_[i]` wherever that node occurs (`linkAfter`). Chains
at the other levels are untouched (`chain_congr`).

`Good` is the representation invariant `Insert` keeps: every chain is finite,
every forward pointer names a node tall enough for its level, every `prev_[i]`
has a forward pointer at level `i`, and the level-0 chain from `head_` lists
every node once, sorted by key.
-/
import Rockscopy.SkipList.Basic
import Rockscopy.SkipList.SortedKeys
import Mathlib.Data.List.Perm.Basic

namespace Rockscopy.SkipList

set_option autoImplicit false
set_option linter.dupNamespace false
set_option linter.unusedSectionVars false

namespace SkipList

variable {Key : Type} [Inhabited Key]

/-- Following the forward pointers at `level` from `o` visits `l` and ends at `nullptr`. -/
inductive Chain (s : SkipList Key) (level : Nat) : Option Nat → List Nat → Prop
  | nil : Chain s level none []
  | cons {i : Nat} {l : List Nat} : i < s.nodes.length → Chain s level (s.next (.node i) level) l →
      Chain s level (some i) (i :: l)

namespace Chain

variable {s : SkipList Key} {level : Nat}

theorem unique {o : Option Nat} {l l' : List Nat} (chain : Chain s level o l) (chain' : Chain s level o l') :
    l = l' := by
  induction chain generalizing l' with
  | nil => cases chain'; rfl
  | cons _ _ ih => cases chain' with
    | cons _ tail' => rw [ih tail']

theorem start {o : Option Nat} {l : List Nat} (chain : Chain s level o l) : o = l.head? := by
  cases chain <;> rfl

theorem lt_length {o : Option Nat} {l : List Nat} (chain : Chain s level o l) {i : Nat} (member : i ∈ l) :
    i < s.nodes.length := by
  induction chain with
  | nil => exact absurd member (List.not_mem_nil _)
  | cons valid _ ih =>
      rcases List.mem_cons.mp member with rfl | later
      · exact valid
      · exact ih later

/-- What follows a node of a chain is the chain from that node's forward pointer. -/
theorem suffix {o : Option Nat} {pre post : List Nat} {i : Nat} (chain : Chain s level o (pre ++ i :: post)) :
    Chain s level (s.next (.node i) level) post := by
  induction pre generalizing o with
  | nil => cases chain with
    | cons _ tail => exact tail
  | cons a pre ih => cases chain with
    | cons _ tail => exact ih tail

theorem nodup {o : Option Nat} {l : List Nat} (chain : Chain s level o l) : l.Nodup := by
  induction chain with
  | nil => exact List.nodup_nil
  | @cons i l _ tail ih =>
      refine List.nodup_cons.mpr ⟨fun again => ?_, ih⟩
      obtain ⟨pre, post, rfl⟩ := List.append_of_mem again
      have longer := congrArg List.length (tail.suffix.unique tail)
      simp at longer
      omega

theorem length_le {o : Option Nat} {l : List Nat} (chain : Chain s level o l) : l.length ≤ s.nodes.length := by
  have within : l ⊆ List.range s.nodes.length := fun i member => List.mem_range.mpr (chain.lt_length member)
  simpa using (List.subperm_of_subset chain.nodup within).length_le

/-- A chain survives any change that keeps the forward pointers of its nodes at its level. -/
theorem congr {t : SkipList Key} {o : Option Nat} {l : List Nat} (chain : Chain s level o l)
    (same : ∀ i ∈ l, t.next (.node i) level = s.next (.node i) level) (grown : s.nodes.length ≤ t.nodes.length) :
    Chain t level o l := by
  induction chain with
  | nil => exact .nil
  | @cons i l valid _ ih =>
      refine .cons (Nat.lt_of_lt_of_le valid grown) ?_
      rw [same i (List.mem_cons_self _ _)]
      exact ih fun j member => same j (List.mem_cons_of_mem _ member)

/-- A node no forward pointer at `level` names is on no chain at `level` but its own. -/
theorem not_mem {o : Option Nat} {l : List Nat} (chain : Chain s level o l) {x : Nat}
    (unlinked : ∀ y, s.next y level ≠ some x) (away : o ≠ some x) : x ∉ l := by
  induction chain with
  | nil => exact List.not_mem_nil _
  | cons _ _ ih =>
      rw [List.mem_cons, not_or]
      exact ⟨fun same => away (by rw [same]), ih (unlinked _)⟩

end Chain

/-! ## One turn of the linking loop -/

/-- `l` with the node `x` put right after every occurrence of `p`. -/
def linkAfter (p : Ref) (x : Nat) : List Nat → List Nat
  | [] => []
  | i :: l => if p = .node i then i :: x :: linkAfter p x l else i :: linkAfter p x l

theorem linkAfter_head (x : Nat) (l : List Nat) : linkAfter .head x l = l := by
  induction l with
  | nil => rfl
  | cons i l ih => simp [linkAfter, ih]

theorem linkAfter_of_not_mem (q x : Nat) {l : List Nat} (absent : q ∉ l) : linkAfter (.node q) x l = l := by
  induction l with
  | nil => rfl
  | cons i l ih =>
      rw [List.mem_cons, not_or] at absent
      simp [linkAfter, absent.1, ih absent.2]

theorem linkAfter_split (q x : Nat) {pre post : List Nat} (notBefore : q ∉ pre) (notAfter : q ∉ post) :
    linkAfter (.node q) x (pre ++ q :: post) = pre ++ q :: x :: post := by
  induction pre with
  | nil => simp [linkAfter, linkAfter_of_not_mem q x notAfter]
  | cons i pre ih =>
      rw [List.mem_cons, not_or] at notBefore
      simp [linkAfter, notBefore.1, ih notBefore.2]

theorem mem_linkAfter (p : Ref) (x : Nat) {j : Nat} {l : List Nat} (member : j ∈ l) : j ∈ linkAfter p x l := by
  induction l with
  | nil => cases member
  | cons i l ih =>
      unfold linkAfter
      rcases List.mem_cons.mp member with rfl | later
      · split_ifs <;> exact List.mem_cons_self _ _
      · split_ifs
        · exact List.mem_cons_of_mem _ (List.mem_cons_of_mem _ (ih later))
        · exact List.mem_cons_of_mem _ (ih later)

/-- `x` is spliced in wherever `q` occurs. -/
theorem self_mem_linkAfter {q : Nat} (x : Nat) {l : List Nat} (member : q ∈ l) : x ∈ linkAfter (.node q) x l := by
  induction l with
  | nil => cases member
  | cons i l ih =>
      unfold linkAfter
      split_ifs with here
      · exact List.mem_cons_of_mem _ (List.mem_cons_self _ _)
      · rcases List.mem_cons.mp member with rfl | later
        · exact absurd rfl here
        · exact List.mem_cons_of_mem _ (ih later)

section Link

variable (s : SkipList Key) (x i : Nat)

@[simp] theorem nodes_length_link : (s.link x i).nodes.length = s.nodes.length := by
  simp [link]

@[simp] theorem slots_link (y : Ref) : (s.link x i).slots y = s.slots y := by
  simp [link]

@[simp] theorem keyOf_link (j : Nat) : (s.link x i).keyOf j = s.keyOf j := by
  simp [link]

@[simp] theorem prev_link : (s.link x i).prev = s.prev := by
  simp [link]

@[simp] theorem maxHeight_link : (s.link x i).maxHeight = s.maxHeight := by
  simp [link]

@[simp] theorem head_length_link : (s.link x i).head.length = s.head.length := by
  simp [link]

/-- `y->Next(level)` after one turn of the linking loop: `prev_[i]` now names `x`,
and `x` names what `prev_[i]` named. -/
theorem next_link (y : Ref) (level : Nat) :
    (s.link x i).next y level =
      if y = s.prev.getD i .head ∧ level = i ∧ i < s.slots (s.prev.getD i .head) then some x
      else if y = .node x ∧ level = i ∧ i < s.slots (.node x) then s.next (s.prev.getD i .head) i
      else s.next y level := by
  simp only [link, next_setNext, slots_setNext]

theorem next_link_of_ne (y : Ref) {level : Nat} (other : level ≠ i) : (s.link x i).next y level = s.next y level := by
  simp only [link]
  rw [next_setNext_of_ne _ _ _ _ _ _ (.inr other), next_setNext_of_ne _ _ _ _ _ _ (.inr other)]

theorem next_link_prev (slot : i < s.slots (s.prev.getD i .head)) :
    (s.link x i).next (s.prev.getD i .head) i = some x := by
  simp only [link]
  exact next_setNext_self _ _ _ _ (by simpa using slot)

theorem next_link_new (slot : i < s.slots (.node x)) (distinct : s.prev.getD i .head ≠ .node x) :
    (s.link x i).next (.node x) i = s.next (s.prev.getD i .head) i := by
  simp only [link]
  rw [next_setNext_of_ne _ _ _ _ _ _ (.inl (Ne.symm distinct)), next_setNext_self _ _ _ _ slot]

theorem next_link_other {y : Ref} (notPrev : y ≠ s.prev.getD i .head) (notNew : y ≠ .node x) :
    (s.link x i).next y i = s.next y i := by
  simp only [link]
  rw [next_setNext_of_ne _ _ _ _ _ _ (.inl notPrev), next_setNext_of_ne _ _ _ _ _ _ (.inl notNew)]

/-- **One turn of the linking loop.** Every chain at level `i` that does not pass
through the new node `x` gains `x` right after `prev_[i]`. -/
theorem chain_link (slotNew : i < s.slots (.node x)) (slotPrev : i < s.slots (s.prev.getD i .head))
    (distinct : s.prev.getD i .head ≠ .node x) {o : Option Nat} {l : List Nat} (chain : Chain s i o l)
    (fresh : x ∉ l) : Chain (s.link x i) i o (linkAfter (s.prev.getD i .head) x l) := by
  induction chain with
  | nil => exact .nil
  | @cons j l valid _ ih =>
      rw [List.mem_cons, not_or] at fresh
      simp only [linkAfter]
      split_ifs with here
      · refine .cons (by simpa using valid) ?_
        rw [← here, next_link_prev s x i slotPrev]
        refine .cons (by simpa using lt_length_of_slots s slotNew) ?_
        have tail := ih fresh.2
        rw [← here] at tail
        rwa [next_link_new s x i slotNew distinct]
      · refine .cons (by simpa using valid) ?_
        rw [next_link_other s x i (Ne.symm here) (fun same => fresh.1 (Ref.node.inj same).symm)]
        exact ih fresh.2

/-- The chain from `head_` after one turn of the linking loop: `x` first if
`prev_[i]` is `head_`, and after `prev_[i]` otherwise. -/
theorem chain_link_head (slotNew : i < s.slots (.node x)) (slotPrev : i < s.slots (s.prev.getD i .head))
    (distinct : s.prev.getD i .head ≠ .node x) {l : List Nat} (chain : Chain s i (s.next .head i) l)
    (fresh : x ∉ l) :
    Chain (s.link x i) i ((s.link x i).next .head i)
      (if s.prev.getD i .head = .head then x :: l else linkAfter (s.prev.getD i .head) x l) := by
  have linked := chain_link s x i slotNew slotPrev distinct chain fresh
  split_ifs with first
  · rw [first, linkAfter_head] at linked
    have points := next_link_prev s x i slotPrev
    rw [first] at points
    rw [points]
    refine .cons (by simpa using lt_length_of_slots s slotNew) ?_
    rwa [next_link_new s x i slotNew distinct, first]
  · rwa [next_link_other s x i (Ne.symm first) (fun same => nomatch same)]

/-- One turn of the linking loop keeps every chain at its level finite, provided no
forward pointer at that level named the new node before. -/
theorem finite_link (slotNew : i < s.slots (.node x)) (slotPrev : i < s.slots (s.prev.getD i .head))
    (distinct : s.prev.getD i .head ≠ .node x) (finite : ∀ y, ∃ l, Chain s i (s.next y i) l)
    (unlinked : ∀ y, s.next y i ≠ some x) (y : Ref) : ∃ l, Chain (s.link x i) i ((s.link x i).next y i) l := by
  obtain ⟨after, fromPrev⟩ := finite (s.prev.getD i .head)
  have linked := chain_link s x i slotNew slotPrev distinct fromPrev (fromPrev.not_mem unlinked (unlinked _))
  by_cases isPrev : y = s.prev.getD i .head
  · subst isPrev
    rw [next_link_prev s x i slotPrev]
    refine ⟨x :: linkAfter (s.prev.getD i .head) x after, .cons (by simpa using lt_length_of_slots s slotNew) ?_⟩
    rwa [next_link_new s x i slotNew distinct]
  · by_cases isNew : y = .node x
    · subst isNew
      exact ⟨linkAfter (s.prev.getD i .head) x after, by rwa [next_link_new s x i slotNew distinct]⟩
    · obtain ⟨l, chain⟩ := finite y
      rw [next_link_other s x i isPrev isNew]
      exact ⟨_, chain_link s x i slotNew slotPrev distinct chain (chain.not_mem unlinked (unlinked _))⟩

/-- One turn of the linking loop keeps every forward pointer naming a node tall
enough for its level. -/
theorem targets_link (slotNew : i < s.slots (.node x))
    (targets : ∀ y level j, s.next y level = some j → level < s.slots (.node j)) :
    ∀ y level j, (s.link x i).next y level = some j → level < (s.link x i).slots (.node j) := by
  intro y level j points
  rw [next_link] at points
  rw [slots_link]
  split_ifs at points with isPrev isNew
  · cases points; rw [isPrev.2.1]; exact slotNew
  · rw [isNew.2.1]; exact targets _ _ _ points
  · exact targets _ _ _ points

theorem linkAll_zero : s.linkAll x 0 = s := rfl

theorem linkAll_succ (height : Nat) : s.linkAll x (height + 1) = (s.linkAll x height).link x height := by
  simp [linkAll, List.range_succ, List.foldl_append]

@[simp] theorem nodes_length_linkAll (height : Nat) : (s.linkAll x height).nodes.length = s.nodes.length := by
  induction height with
  | zero => rfl
  | succ height ih => rw [linkAll_succ, nodes_length_link, ih]

@[simp] theorem slots_linkAll (height : Nat) (y : Ref) : (s.linkAll x height).slots y = s.slots y := by
  induction height with
  | zero => rfl
  | succ height ih => rw [linkAll_succ, slots_link, ih]

@[simp] theorem keyOf_linkAll (height j : Nat) : (s.linkAll x height).keyOf j = s.keyOf j := by
  induction height with
  | zero => rfl
  | succ height ih => rw [linkAll_succ, keyOf_link, ih]

@[simp] theorem prev_linkAll (height : Nat) : (s.linkAll x height).prev = s.prev := by
  induction height with
  | zero => rfl
  | succ height ih => rw [linkAll_succ, prev_link, ih]

@[simp] theorem maxHeight_linkAll (height : Nat) : (s.linkAll x height).maxHeight = s.maxHeight := by
  induction height with
  | zero => rfl
  | succ height ih => rw [linkAll_succ, maxHeight_link, ih]

@[simp] theorem head_length_linkAll (height : Nat) : (s.linkAll x height).head.length = s.head.length := by
  induction height with
  | zero => rfl
  | succ height ih => rw [linkAll_succ, head_length_link, ih]

/-- Each turn of the linking loop writes only its own level, so after the loop the
pointers at each level below `height` are those of that level's turn alone. -/
theorem next_linkAll (height : Nat) (y : Ref) (level : Nat) :
    (s.linkAll x height).next y level =
      if level < height then (s.link x level).next y level else s.next y level := by
  induction height generalizing y level with
  | zero => rfl
  | succ height ih =>
      have below : ∀ z, (s.linkAll x height).next z height = s.next z height := fun z => by
        rw [ih, if_neg (Nat.lt_irrefl _)]
      rw [linkAll_succ, next_link, prev_linkAll, slots_linkAll, slots_linkAll, below]
      by_cases same : level = height
      · subst same
        rw [if_pos (Nat.lt_succ_self _), next_link, below]
      · simp only [same, and_false, false_and, if_false, ih]
        by_cases lower : level < height
        · rw [if_pos lower, if_pos (Nat.lt_succ_of_lt lower)]
        · rw [if_neg lower, if_neg (by omega)]

theorem chain_linkAll {height level : Nat} (low : level < height) {o : Option Nat} {l : List Nat}
    (chain : Chain (s.link x level) level o l) : Chain (s.linkAll x height) level o l :=
  chain.congr (fun j _ => by rw [next_linkAll, if_pos low]) (by simp)

theorem chain_linkAll_above {height level : Nat} (high : height ≤ level) {o : Option Nat} {l : List Nat}
    (chain : Chain s level o l) : Chain (s.linkAll x height) level o l :=
  chain.congr (fun j _ => by rw [next_linkAll, if_neg (by omega)]) (by simp)

end Link

/-! ## The representation invariant -/

variable (cmp : Key → Key → Ordering)

/-- The invariant `Insert` keeps and every lookup relies on. -/
structure Good (s : SkipList Key) : Prop where
  headSlots : s.head.length = kMaxHeight
  targets : ∀ y level i, s.next y level = some i → level < s.slots (.node i)
  prevLength : s.prev.length = kMaxHeight
  prevSlots : ∀ level < kMaxHeight, level < s.slots (s.prev.getD level .head)
  maxHeightPos : 0 < s.maxHeight
  maxHeightLe : s.maxHeight ≤ kMaxHeight
  finite : ∀ y level, ∃ l, Chain s level (s.next y level) l
  level0 : ∃ l, Chain s 0 (s.next .head 0) l ∧ l.Perm (List.range s.nodes.length) ∧ Sorted cmp (l.map s.keyOf)

end SkipList

end Rockscopy.SkipList
