/-
# Rockscopy.SkipList.SortedKeys — what a skip list stands for

A skip list stands for the keys on its level-0 chain: a list sorted
non-decreasingly by the comparator (`Sorted`). `Insert(k)` puts `k` before the
first key that is not less than `k` (`insertKey`); that keeps the list sorted
and adds `k` once (`sorted_insertKey`, `insertKey_perm`). When only equal keys
compare equal, the list is determined by the keys inserted, in whatever order
(`insertKeys_eq_of_perm`).

The descents split a sorted list at `k`: the entries less than `k` come first
(`takeWhile` of `Before`), the rest after. `split_after` and `split_at_front`
locate the split from a node at which a descent stopped; `filter_before` and
`any_dropWhile` say that the split gives the last entry less than `k` and
decides whether some entry compares equal to `k`. The comparator is a total
preorder (`TransCmp`); entries are keyed by `key`, the nodes' keys at the pointer
level and the identity on keys.
-/
import Mathlib.Order.Defs.LinearOrder
import Mathlib.Data.List.Basic
import Mathlib.Data.List.Sort

namespace Rockscopy.SkipList

open Batteries

set_option autoImplicit false
set_option linter.unusedSectionVars false

variable {α β : Type} (cmp : α → α → Ordering)

/-- Sorted non-decreasingly by the comparator. -/
def Sorted (keys : List α) : Prop :=
  keys.Pairwise fun a b => cmp a b ≠ .gt

/-- `compare_(a, k) < 0`. -/
def Before (k a : α) : Bool :=
  cmp a k == .lt

/-- The keys after `Insert(k)`: `k` goes before the first key not less than it. -/
def insertKey (k : α) (keys : List α) : List α :=
  keys.takeWhile (Before cmp k) ++ k :: keys.dropWhile (Before cmp k)

/-- The keys after `Insert(k)` for each `k` of `ks` in turn. -/
def insertKeys (ks keys : List α) : List α :=
  ks.foldl (fun keys k => insertKey cmp k keys) keys

instance lawfulBEqOrdering : LawfulBEq Ordering where
  eq_of_beq {a b} same := by cases a <;> cases b <;> first | rfl | exact absurd same (by decide)
  rfl {a} := by cases a <;> rfl

theorem insertKey_perm (k : α) (keys : List α) : (insertKey cmp k keys).Perm (k :: keys) := by
  have middle : (keys.takeWhile (Before cmp k) ++ k :: keys.dropWhile (Before cmp k)).Perm
      (k :: (keys.takeWhile (Before cmp k) ++ keys.dropWhile (Before cmp k))) := List.perm_middle
  rwa [List.takeWhile_append_dropWhile] at middle

theorem insertKeys_perm (ks keys : List α) : (insertKeys cmp ks keys).Perm (keys ++ ks) := by
  induction ks generalizing keys with
  | nil => simp [insertKeys]
  | cons k ks ih => exact (ih _).trans (((insertKey_perm cmp k keys).append_right ks).trans List.perm_middle.symm)

@[simp] theorem before_iff (k a : α) : Before cmp k a = true ↔ cmp a k = .lt := by
  simp [Before]

variable {cmp} [TransCmp cmp]

/-- Past the first entry not less than `k`, no entry of a sorted list is less than `k`. -/
theorem not_before_of_mem_dropWhile (key : β → α) (k : α) {l : List β} (sorted : Sorted cmp (l.map key))
    {b : β} (member : b ∈ l.dropWhile fun j => Before cmp k (key j)) : cmp (key b) k ≠ .lt := by
  induction l with
  | nil => exact absurd member (List.not_mem_nil _)
  | cons a l ih =>
      simp only [Sorted, List.map_cons, List.pairwise_cons, List.mem_map] at sorted
      rw [List.dropWhile_cons] at member
      by_cases first : Before cmp k (key a) = true
      · rw [if_pos first] at member
        exact ih sorted.2 member
      · rw [if_neg first] at member
        have stays : cmp (key a) k ≠ .lt := by simpa using first
        rcases List.mem_cons.mp member with rfl | later
        · exact stays
        · exact TransCmp.ge_trans (OrientedCmp.cmp_ne_gt.mp (sorted.1 _ ⟨b, later, rfl⟩)) stays

theorem sorted_insertKey {k : α} {keys : List α} (sorted : Sorted cmp keys) :
    Sorted cmp (insertKey cmp k keys) := by
  have whole := sorted
  rw [Sorted, ← List.takeWhile_append_dropWhile (Before cmp k) keys, List.pairwise_append] at whole
  have rest : ∀ b ∈ keys.dropWhile (Before cmp k), cmp b k ≠ .lt :=
    fun b member => not_before_of_mem_dropWhile id k (by simpa using sorted) member
  refine List.pairwise_append.mpr ⟨whole.1, List.pairwise_cons.mpr ⟨fun b member => ?_, whole.2.1⟩,
    fun a early b late => ?_⟩
  · exact OrientedCmp.cmp_ne_gt.mpr (rest b member)
  · have less : cmp a k = .lt := by simpa using List.mem_takeWhile_imp early
    rcases List.mem_cons.mp late with rfl | late
    · simp [less]
    · exact whole.2.2 a early b late

theorem sorted_insertKeys (ks : List α) {keys : List α} (sorted : Sorted cmp keys) :
    Sorted cmp (insertKeys cmp ks keys) := by
  induction ks generalizing keys with
  | nil => exact sorted
  | cons k ks ih => exact ih (sorted_insertKey sorted)

/-- Under a comparator by which only equal keys compare equal, the sorted keys are
determined by the keys inserted, whatever order they came in. -/
theorem insertKeys_eq_of_perm (antisymm : ∀ a b, cmp a b = .eq → a = b) {ks ks' : List α}
    (perm : ks.Perm ks') : insertKeys cmp ks [] = insertKeys cmp ks' [] := by
  have : IsAntisymm α fun a b => cmp a b ≠ .gt := ⟨fun a b ab ba => antisymm a b (by
    cases order : cmp a b with
    | lt => exact absurd order (OrientedCmp.cmp_ne_gt.mp ba)
    | eq => rfl
    | gt => exact absurd order ab)⟩
  exact List.eq_of_perm_of_sorted ((insertKeys_perm cmp ks []).trans (perm.trans (insertKeys_perm cmp ks' []).symm))
    (sorted_insertKeys ks .nil) (sorted_insertKeys ks' .nil)

/-- A list whose first entry is not less than `k` splits at its front. -/
theorem split_at_front (key : β → α) (k : α) {l : List β} (stop : ∀ j ∈ l.head?, cmp (key j) k ≠ .lt) :
    l.takeWhile (fun j => Before cmp k (key j)) = [] ∧ l.dropWhile (fun j => Before cmp k (key j)) = l := by
  cases l with
  | nil => simp
  | cons j l =>
      have first : ¬ Before cmp k (key j) = true := by simpa using stop j rfl
      have take : (j :: l).takeWhile (fun j => Before cmp k (key j)) = [] := List.takeWhile_cons_of_neg first
      have drop : (j :: l).dropWhile (fun j => Before cmp k (key j)) = j :: l := List.dropWhile_cons_of_neg first
      exact ⟨take, drop⟩

/-- A sorted list split after a node `q` less than `k` whose successor is not less than `k`. -/
theorem split_after (key : β → α) (k : α) {pre post : List β} {q : β}
    (sorted : Sorted cmp ((pre ++ q :: post).map key)) (less : cmp (key q) k = .lt)
    (stop : ∀ j ∈ post.head?, cmp (key j) k ≠ .lt) :
    (pre ++ q :: post).takeWhile (fun j => Before cmp k (key j)) = pre ++ [q] ∧
      (pre ++ q :: post).dropWhile (fun j => Before cmp k (key j)) = post := by
  have early : ∀ a ∈ pre ++ [q], Before cmp k (key a) = true := by
    intro a member
    rw [before_iff]
    rcases List.mem_append.mp member with early | last
    · simp only [Sorted, List.map_append, List.map_cons, List.pairwise_append, List.pairwise_cons,
        List.mem_map] at sorted
      exact TransCmp.le_lt_trans (sorted.2.2 _ ⟨a, early, rfl⟩ _ (List.mem_cons_self _ _)) less
    · rw [List.mem_singleton.mp last]; exact less
  rw [show pre ++ q :: post = (pre ++ [q]) ++ post by simp, List.takeWhile_append_of_pos early,
    List.dropWhile_append_of_pos early]
  simpa using split_at_front key k stop

/-- In a sorted list the entries less than `k` are a prefix. -/
theorem filter_before (key : β → α) (k : α) {l : List β} (sorted : Sorted cmp (l.map key)) :
    l.filter (fun j => Before cmp k (key j)) = l.takeWhile (fun j => Before cmp k (key j)) := by
  conv => lhs; rw [← List.takeWhile_append_dropWhile (fun j => Before cmp k (key j)) l]
  rw [List.filter_append, List.filter_eq_self.mpr fun a member => by simpa using List.mem_takeWhile_imp member,
    List.filter_eq_nil_iff.mpr fun b member => by
      simpa using not_before_of_mem_dropWhile key k sorted member, List.append_nil]

/-- The first entry not less than `k` compares equal to `k` exactly when some entry does. -/
theorem any_dropWhile (key : β → α) (k : α) {l : List β} (sorted : Sorted cmp (l.map key)) :
    ((l.dropWhile fun j => Before cmp k (key j)).head?.any fun j => cmp k (key j) == .eq) =
      l.any fun j => cmp k (key j) == .eq := by
  have split := List.takeWhile_append_dropWhile (fun j => Before cmp k (key j)) l
  have early : ∀ j ∈ l.takeWhile (fun j => Before cmp k (key j)), cmp k (key j) ≠ .eq := by
    intro j member same
    have less : cmp (key j) k = .lt := by simpa using List.mem_takeWhile_imp member
    rw [OrientedCmp.cmp_eq_eq_symm.mp same] at less
    cases less
  cases rest : l.dropWhile (fun j => Before cmp k (key j)) with
  | nil =>
      rw [rest, List.append_nil] at split
      rw [← split]
      simpa using early
  | cons first others =>
      have atLeast : cmp (key first) k ≠ .lt :=
        not_before_of_mem_dropWhile key k sorted (by rw [rest]; exact List.mem_cons_self _ _)
      rw [rest] at split
      rw [← split, Sorted, List.map_append, List.pairwise_append, List.map_cons, List.pairwise_cons] at sorted
      simp only [List.head?_cons, Option.any_some]
      rw [Bool.eq_iff_iff, List.any_eq_true]
      constructor
      · intro same
        exact ⟨first, by rw [← split]; simp, same⟩
      · rintro ⟨j, member, equal⟩
        have same : cmp k (key j) = .eq := by simpa using equal
        rw [← split] at member
        rcases List.mem_append.mp member with member | member
        · exact absurd same (early j member)
        · have below : cmp (key first) (key j) ≠ .gt := by
            rcases List.mem_cons.mp member with rfl | later
            · simp [OrientedCmp.cmp_refl]
            · exact sorted.2.1.1 _ (List.mem_map_of_mem key later)
          rw [TransCmp.cmp_congr_right (OrientedCmp.cmp_eq_eq_symm.mp same)] at below
          have equalFirst : cmp (key first) k = .eq := by
            cases h : cmp (key first) k
            · exact absurd h atLeast
            · rfl
            · exact absurd h below
          simpa using OrientedCmp.cmp_eq_eq_symm.mp equalFirst

/-- `FindGreatOrEqual`'s answer is the first entry not less than `k`. -/
theorem find?_not_before (p : β → Bool) (l : List β) :
    l.find? (fun j => !p j) = (l.dropWhile p).head? := by
  induction l with
  | nil => rfl
  | cons a l ih => by_cases first : p a = true <;> simp [List.find?_cons, first, ih]

end Rockscopy.SkipList
