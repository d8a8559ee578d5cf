/-
# Rockscopy.Coding.BitStreamString — `BitStreamPutInt` on a `std::string`

The `std::string` overload copies the bytes `offset / 8 .. offset / 8 +
kUsedBytes` of `*dst` into a 9-byte `tmpBuf`, runs the raw-buffer
`BitStreamPutInt` there at bit `offset % 8`, and copies the same bytes back. The
string is modelled with its terminator: `(*dst)[dst->size()]` is the byte `0`
after the characters, and the bytes of `tmpBuf` the copy does not fill are
whatever the array held (`garbage`).

* `bitStreamPutIntString_refines`: for every string, offset, `bits ≤ 64` whose
  region fits, and value, the overload leaves the string as the raw overload
  does and keeps the terminator; `kUsedBytes` is at most 8, so `tmpBuf` is large
  enough; and its closing assertion holds. The copies touch one byte past the
  region exactly when `offset + bits` is a multiple of 8, and that byte can be
  the terminator at `dst->size()` (`bitStreamPutIntString_touches_size`), which
  is read and written back unchanged.
-/
import Rockscopy.Coding.BitStream
import Mathlib.Data.List.GetD

namespace Rockscopy.Coding

set_option autoImplicit false

/-- `kUsedBytes`: one less than the number of bytes the copy loops move. -/
def usedBytes (offset bits : Nat) : Nat :=
  (offset % 8 + bits) / 8

/-- `BitStreamPutInt(std::string *dst, offset, bits, value)` on the characters `dst`: the
characters and the terminator after the call. -/
def bitStreamPutIntString (dst : List Byte) (offset bits : Nat) (value : BitVec 64) (garbage : List Byte) :
    List Byte :=
  let buffer := dst ++ [0]
  let tmpBuf := (List.range 9).map fun idx =>
    if idx ≤ usedBytes offset bits then buffer.getD (offset / 8 + idx) 0 else garbage.getD idx 0
  let tmpBuf := bitStreamPutInt tmpBuf (offset % 8) bits value
  (List.range (usedBytes offset bits + 1)).foldl
    (fun buffer idx => buffer.set (offset / 8 + idx) (tmpBuf.getD idx 0)) buffer

/-! ## Bytes and bits -/

/-- Two buffers of one length that agree on every bit are equal. -/
theorem eq_of_bitAt {buf buf' : List Byte} (length : buf.length = buf'.length)
    (same : ∀ i, bitAt buf i = bitAt buf' i) : buf = buf' := by
  apply List.ext_getElem length
  intro j inside inside'
  have byte := getD_eq_of_bitAt (j := j) (fun i _ => same (8 * j + i))
  rwa [List.getD_eq_getElem _ _ inside, List.getD_eq_getElem _ _ inside'] at byte

/-- The terminator reads as the zero byte that follows every buffer. -/
theorem bitAt_append_zero (buf : List Byte) (i : Nat) : bitAt (buf ++ [0]) i = bitAt buf i := by
  unfold bitAt
  by_cases inside : i / 8 < buf.length
  · rw [List.getD_append _ _ _ _ inside]
  · have outside : buf.getD (i / 8) 0 = 0 := List.getD_eq_default _ _ (by omega)
    rw [outside, List.getD_append_right _ _ _ _ (by omega)]
    by_cases first : i / 8 = buf.length
    · rw [first, Nat.sub_self]; rfl
    · rw [List.getD_eq_default _ _ (by simp; omega)]

/-- The copy loop `(*dst)[base + idx] = tmpBuf[idx]` for `idx < n`. -/
theorem getD_copyBack (tmp buffer : List Byte) (base : Nat) :
    ∀ n j, ((List.range n).foldl (fun b idx => b.set (base + idx) (tmp.getD idx 0)) buffer).getD j 0 =
      (if base ≤ j ∧ j < base + n ∧ j < buffer.length then tmp.getD (j - base) 0 else buffer.getD j 0) ∧
    ((List.range n).foldl (fun b idx => b.set (base + idx) (tmp.getD idx 0)) buffer).length = buffer.length := by
  intro n
  induction n with
  | zero => intro j; exact ⟨by rw [List.range_zero, List.foldl_nil, if_neg (by omega)], by rw [List.range_zero, List.foldl_nil]⟩
  | succ n ih =>
      intro j
      obtain ⟨earlier, length⟩ := ih j
      rw [List.range_succ, List.foldl_append, List.foldl_cons, List.foldl_nil, List.length_set]
      refine ⟨?_, length⟩
      rw [List.getD_eq_getElem?_getD, List.getElem?_set, length]
      by_cases here : base + n = j
      · subst here
        by_cases inside : base + n < buffer.length
        · rw [if_pos rfl, if_pos inside, if_pos ⟨by omega, by omega, inside⟩, Nat.add_sub_cancel_left]
          rfl
        · rw [if_pos rfl, if_neg inside, if_neg (by omega), List.getD_eq_default _ _ (by omega)]
          rfl
      · rw [if_neg here, ← List.getD_eq_getElem?_getD, earlier]
        by_cases before : base ≤ j ∧ j < base + n ∧ j < buffer.length
        · rw [if_pos before, if_pos (by omega)]
        · rw [if_neg before, if_neg (by omega)]

/-! ## The overload -/

section Overload

variable (dst : List Byte) (offset bits : Nat) (value : BitVec 64) (garbage : List Byte)

/-- `tmpBuf` after the copy in: its first `kUsedBytes + 1` bytes are the string's from `offset / 8`. -/
def copiedIn : List Byte :=
  (List.range 9).map fun idx =>
    if idx ≤ usedBytes offset bits then (dst ++ [0]).getD (offset / 8 + idx) 0 else garbage.getD idx 0

theorem bitAt_copiedIn {i : Nat} (inside : i < 8 * (usedBytes offset bits + 1)) (small : usedBytes offset bits < 9) :
    bitAt (copiedIn dst offset bits garbage) i = bitAt (dst ++ [0]) (8 * (offset / 8) + i) := by
  have byte : (copiedIn dst offset bits garbage).getD (i / 8) 0 = (dst ++ [0]).getD (offset / 8 + i / 8) 0 := by
    rw [copiedIn, List.getD_eq_getElem _ _ (by simp; omega), List.getElem_map, List.getElem_range,
      if_pos (by omega)]
  rw [bitAt, byte, bitAt, show (8 * (offset / 8) + i) / 8 = offset / 8 + i / 8 by omega,
    show (8 * (offset / 8) + i) % 8 = i % 8 by omega]

theorem bitStreamPutIntString_eq :
    bitStreamPutIntString dst offset bits value garbage =
      (List.range (usedBytes offset bits + 1)).foldl (fun b idx => b.set (offset / 8 + idx)
        ((bitStreamPutInt (copiedIn dst offset bits garbage) (offset % 8) bits value).getD idx 0)) (dst ++ [0]) :=
  rfl

theorem usedBytes_lt (narrow : bits ≤ 64) : usedBytes offset bits < 9 := by
  unfold usedBytes; omega

/-- The overload leaves the characters as the raw-buffer `BitStreamPutInt` does, and the
terminator `0`, whatever `tmpBuf` held: bit by bit, the bytes the copies move carry the raw
overload's bits, and the others are untouched. -/
theorem bitStreamPutIntString_eq_bitStreamPutInt (narrow : bits ≤ 64) (room : (offset + bits + 7) / 8 ≤ dst.length) :
    bitStreamPutIntString dst offset bits value garbage = bitStreamPutInt dst offset bits value ++ [0] := by
  have small := usedBytes_lt offset bits narrow
  have fits : (offset % 8 + bits + 7) / 8 ≤ (copiedIn dst offset bits garbage).length := by
    simp only [copiedIn, List.length_map, List.length_range]; omega
  have copied := getD_copyBack (bitStreamPutInt (copiedIn dst offset bits garbage) (offset % 8) bits value)
    (dst ++ [0]) (offset / 8) (usedBytes offset bits + 1)
  rw [bitStreamPutIntString_eq]
  apply eq_of_bitAt
  · rw [(copied 0).2, List.length_append, List.length_append, bitStreamPutInt, length_bitStreamPutLoop]
  · intro i
    have longer : (dst ++ [0]).length = dst.length + 1 := by simp
    rw [bitAt_append_zero, bitAt_bitStreamPutInt _ _ _ _ room, bitAt, (copied (i / 8)).1]
    by_cases near : offset / 8 ≤ i / 8 ∧ i / 8 < offset / 8 + (usedBytes offset bits + 1) ∧
        i / 8 < (dst ++ [0]).length
    · rw [if_pos near, ← bitAt_of_lt (Nat.mod_lt i (by decide)),
        bitAt_bitStreamPutInt _ _ _ _ fits,
        bitAt_copiedIn _ _ _ _ (by omega) small, bitAt_append_zero]
      have split : 8 * (offset / 8) + offset % 8 = offset := Nat.div_add_mod offset 8
      by_cases region : offset ≤ i ∧ i < offset + bits
      · rw [if_pos (by omega), if_pos region]
        congr 1; omega
      · rw [if_neg (by omega), if_neg region, show 8 * (offset / 8) + (8 * (i / 8 - offset / 8) + i % 8) = i by omega]
    · rw [if_neg near, if_neg (by unfold usedBytes at *; omega), ← bitAt, bitAt_append_zero]

/-- **The `std::string` overload refines the raw one.** For every string, every offset
and every `bits ≤ 64` whose region fits in the string, and every value: the overload
leaves the characters as the raw-buffer `BitStreamPutInt` does and the terminator `0`,
whatever `tmpBuf` held; `kUsedBytes ≤ 8`, so the copies stay inside `tmpBuf`; the
closing assertion holds; and the copy loops, which touch `offset / 8 .. offset / 8 +
kUsedBytes`, stay at or below `dst->size()`, going one byte past the region exactly when
`offset + bits` is a multiple of 8. -/
theorem bitStreamPutIntString_refines (narrow : bits ≤ 64) (room : (offset + bits + 7) / 8 ≤ dst.length) :
    bitStreamPutIntString dst offset bits value garbage = bitStreamPutInt dst offset bits value ++ [0] ∧
    usedBytes offset bits < 9 ∧
    bitStreamGetInt (bitStreamPutInt dst offset bits value) offset bits = truncatedValue value bits ∧
    offset / 8 + usedBytes offset bits ≤ dst.length ∧
    (offset / 8 + usedBytes offset bits < (offset + bits + 7) / 8 ↔ (offset + bits) % 8 ≠ 0) :=
  ⟨bitStreamPutIntString_eq_bitStreamPutInt dst offset bits value garbage narrow room, usedBytes_lt offset bits narrow,
    bitStreamGetInt_bitStreamPutInt dst offset bits value room narrow, by unfold usedBytes; omega,
    by unfold usedBytes; omega⟩

end Overload

theorem bitStreamPutIntString_refines_straddling :
    8 ≤ 64 ∧ (4 + 8 + 7) / 8 ≤ ([0xAB, 0xCD] : List Byte).length ∧
    (bitStreamPutIntString [0xAB, 0xCD] 4 8 0x5A [] = bitStreamPutInt [0xAB, 0xCD] 4 8 0x5A ++ [0] ∧
      usedBytes 4 8 < 9 ∧
      bitStreamGetInt (bitStreamPutInt [0xAB, 0xCD] 4 8 0x5A) 4 8 = truncatedValue 0x5A 8 ∧
      4 / 8 + usedBytes 4 8 ≤ ([0xAB, 0xCD] : List Byte).length ∧
      (4 / 8 + usedBytes 4 8 < (4 + 8 + 7) / 8 ↔ (4 + 8) % 8 ≠ 0)) :=
  ⟨by decide, by decide, bitStreamPutIntString_refines [0xAB, 0xCD] 4 8 0x5A [] (by decide) (by decide)⟩

/-- One byte, written whole: the copies run to `kUsedBytes = 1`, past the region `[0, 1)`
to index `1 = dst->size()`. -/
theorem bitStreamPutIntString_touches_size :
    (0 + 8 + 7) / 8 ≤ ([0xAB] : List Byte).length ∧ 0 / 8 + usedBytes 0 8 = ([0xAB] : List Byte).length := by
  decide

end Rockscopy.Coding
