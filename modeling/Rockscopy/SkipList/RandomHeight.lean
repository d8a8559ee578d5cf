/-
# Rockscopy.SkipList.RandomHeight — the heights `Insert` draws

`RandomHeight()` starts at height 1 and adds a level while the height is below
`kMaxHeight` and `(rnd_.Next() & kBranching) == 0`. A run of the skip list takes
each insert's height as given (`Op.insert`); this module says which heights
those are. The draws are any sequence: the `i`-th call of `rnd_.Next()` returns
`draws i`.

* `randomHeight_eq`: the height is one more than the number of leading draws
  whose bit 2 is clear, capped at `kMaxHeight`. So it lies in
  `[1, kMaxHeight]`, and every height there is drawn by some sequence
  (`heightInRange_iff`): the heights `Op.HeightInRange` admits are exactly
  those `RandomHeight()` can return.
* `randomHeight_tests_bit_two`: the loop tests `d & 4`, bit 2 alone, where the
  spec's rule is `d % 4 == 0`. When every draw is `1`, the rule stops at height
  1 and `RandomHeight()` climbs to `kMaxHeight`. Bit 2 is clear for half of all
  draws and `d % 4 == 0` holds for a quarter (`and_four_eq_zero_iff`), so each
  extra level is kept with probability 1/2, not 1/4.
-/
import Rockscopy.SkipList.Basic
import Mathlib.Data.Nat.Bitwise

namespace Rockscopy.SkipList

set_option autoImplicit false

/-- `static const unsigned int kBranching = 4`. -/
def kBranching : Nat := 4

/-- The loop of `RandomHeight()` from `height`, with `fuel` turns left. The calls of
`rnd_.Next()` made so far number `height - 1`, so the next one returns `draws (height - 1)`;
`&&` draws only while `height < kMaxHeight`. -/
def randomHeightLoop (draws : Nat → BitVec 32) (height : Nat) : Nat → Nat
  | 0 => height
  | fuel + 1 =>
      if height < kMaxHeight ∧ draws (height - 1) &&& BitVec.ofNat 32 kBranching = 0 then
        randomHeightLoop draws (height + 1) fuel
      else height

/-- `RandomHeight()`. The loop adds at most `kMaxHeight - 1` levels, so `kMaxHeight`
turns are more than it takes (`randomHeight_eq`). -/
def randomHeight (draws : Nat → BitVec 32) : Nat :=
  randomHeightLoop draws 1 kMaxHeight

/-- How many of `draws start, draws (start + 1), …` satisfy `p` before the first that
does not, counting at most `n`. -/
def leading (p : BitVec 32 → Bool) (draws : Nat → BitVec 32) (start : Nat) : Nat → Nat
  | 0 => 0
  | n + 1 => if p (draws start) then leading p draws (start + 1) n + 1 else 0

/-- The height the spec describes: one more than the number of leading draws `d` with
`d % kBranching == 0`, capped at `kMaxHeight`. -/
def specHeight (draws : Nat → BitVec 32) : Nat :=
  min kMaxHeight (1 + leading (fun d => d.toNat % kBranching == 0) draws 0 kMaxHeight)

/-- The test `RandomHeight()` makes on a draw. -/
def keepsLevel (d : BitVec 32) : Bool :=
  d &&& BitVec.ofNat 32 kBranching == 0

/-! ## What the loop computes -/

theorem leading_le (p : BitVec 32 → Bool) (draws : Nat → BitVec 32) (start n : Nat) :
    leading p draws start n ≤ n := by
  induction n generalizing start with
  | zero => exact Nat.le_refl 0
  | succ n ih =>
      rw [leading]
      split_ifs
      · exact Nat.succ_le_succ (ih _)
      · exact Nat.zero_le _

/-- From `height`, with enough turns left to reach `kMaxHeight`, the loop adds one level
per leading draw that keeps one. -/
theorem randomHeightLoop_eq (draws : Nat → BitVec 32) (fuel : Nat) :
    ∀ height, 0 < height → height ≤ kMaxHeight → kMaxHeight ≤ height + fuel →
      randomHeightLoop draws height fuel = min kMaxHeight (height + leading keepsLevel draws (height - 1) fuel) := by
  induction fuel with
  | zero =>
      intro height _ _ enough
      rw [randomHeightLoop, leading]
      omega
  | succ fuel ih =>
      intro height low high enough
      rw [randomHeightLoop, leading]
      by_cases kept : keepsLevel (draws (height - 1)) = true
      · have test : draws (height - 1) &&& BitVec.ofNat 32 kBranching = 0 := by
          simpa [keepsLevel] using kept
        by_cases below : height < kMaxHeight
        · rw [if_pos ⟨below, test⟩, if_pos kept, ih (height + 1) (by omega) below (by omega),
            Nat.add_sub_cancel, show height - 1 + 1 = height by omega]
          omega
        · rw [if_neg (fun both => below both.1)]
          omega
      · have test : ¬ draws (height - 1) &&& BitVec.ofNat 32 kBranching = 0 := by
          simpa [keepsLevel] using kept
        rw [if_neg (fun both => test both.2), if_neg kept]
        omega

/-- **What `RandomHeight()` returns**, for every sequence of draws: one more than the
number of leading draws with bit 2 clear, capped at `kMaxHeight`. -/
theorem randomHeight_eq (draws : Nat → BitVec 32) :
    randomHeight draws = min kMaxHeight (1 + leading keepsLevel draws 0 kMaxHeight) :=
  randomHeightLoop_eq draws kMaxHeight 1 (by decide) (by decide) (by decide)

theorem randomHeight_pos (draws : Nat → BitVec 32) : 0 < randomHeight draws := by
  rw [randomHeight_eq]
  exact Nat.lt_min.mpr ⟨by decide, by omega⟩

theorem randomHeight_le (draws : Nat → BitVec 32) : randomHeight draws ≤ kMaxHeight := by
  rw [randomHeight_eq]
  exact Nat.min_le_left _ _

/-- `leading` counts exactly the draws before the first one that fails `p`. -/
theorem leading_of_first_fail (p : BitVec 32 → Bool) (draws : Nat → BitVec 32) (k : Nat) :
    ∀ start n, k ≤ n → (∀ i < k, p (draws (start + i)) = true) →
      (k < n → p (draws (start + k)) = false) → leading p draws start n = k := by
  induction k with
  | zero =>
      intro start n _ _ fails
      cases n with
      | zero => rfl
      | succ n => rw [leading, if_neg (by simpa using fails (Nat.succ_pos n))]
  | succ k ih =>
      intro start n fits passes fails
      obtain ⟨n, rfl⟩ : ∃ m, n = m + 1 := ⟨n - 1, by omega⟩
      have first : p (draws start) = true := passes 0 (Nat.succ_pos k)
      rw [leading, if_pos first, ih (start + 1) n (by omega)
        (fun i below => by rw [Nat.add_right_comm, Nat.add_assoc]; exact passes (i + 1) (by omega))
        (fun more => by rw [Nat.add_right_comm, Nat.add_assoc]; exact fails (by omega))]

/-- The draws that stop the loop at `height`: bit 2 clear for the first `height - 1`,
then set. -/
def drawsFor (height : Nat) (i : Nat) : BitVec 32 :=
  if i + 1 < height then 0 else BitVec.ofNat 32 kBranching

/-- **The heights an insert can draw** are exactly `[1, kMaxHeight]`, the heights
`Op.HeightInRange` admits. -/
theorem heightInRange_iff (height : Nat) :
    0 < height ∧ height ≤ kMaxHeight ↔ ∃ draws, randomHeight draws = height := by
  constructor
  · rintro ⟨low, high⟩
    refine ⟨drawsFor height, ?_⟩
    have count : leading keepsLevel (drawsFor height) 0 kMaxHeight = height - 1 :=
      leading_of_first_fail _ _ _ 0 kMaxHeight (by omega)
        (fun i below => by simp [keepsLevel, drawsFor, show i + 1 < height by omega])
        (fun _ => by simp [keepsLevel, drawsFor, show ¬ height - 1 + 1 < height by omega]; decide)
    rw [randomHeight_eq, count]
    omega
  · rintro ⟨draws, rfl⟩
    exact ⟨randomHeight_pos draws, randomHeight_le draws⟩

/-- Bit 2 of a draw is clear exactly when the draw is `0` to `3` modulo `8`: half of all
draws, where `d % 4 == 0` holds for a quarter. -/
theorem and_four_eq_zero_iff (d : BitVec 32) :
    d &&& BitVec.ofNat 32 kBranching = 0 ↔ d.toNat % 8 < 4 := by
  have low : d.toNat &&& 4 = (d.toNat / 4 % 2) * 4 := by
    rw [show (4 : Nat) = 2 ^ 2 from rfl, Nat.and_two_pow, Nat.testBit_to_div_mod, show (2 : Nat) ^ 2 = 4 from rfl]
    rcases Nat.mod_two_eq_zero_or_one (d.toNat / 4) with bit | bit <;> simp [bit]
  rw [BitVec.toNat_eq, BitVec.toNat_and, BitVec.toNat_ofNat, kBranching,
    Nat.mod_eq_of_lt (show 4 < 2 ^ 32 by decide), low]
  show _ = 0 % 2 ^ 32 ↔ _
  omega

/-! ## The spec's rule -/

/-- **`RandomHeight()` tests bit 2, not `% kBranching`.** For every sequence of draws the
height is one more than the number of leading draws with `d & 4 == 0`, capped at
`kMaxHeight`, and lies in `[1, kMaxHeight]`; but when every draw is `1` (`1 % 4 = 1`)
the spec's rule gives height 1, and `RandomHeight()` gives `kMaxHeight`. -/
theorem randomHeight_tests_bit_two :
    (∀ draws, randomHeight draws = min kMaxHeight (1 + leading keepsLevel draws 0 kMaxHeight) ∧
      0 < randomHeight draws ∧ randomHeight draws ≤ kMaxHeight) ∧
    specHeight (fun _ => 1) = 1 ∧ randomHeight (fun _ => 1) = kMaxHeight :=
  ⟨fun draws => ⟨randomHeight_eq draws, randomHeight_pos draws, randomHeight_le draws⟩, by decide, by decide⟩

end Rockscopy.SkipList
