/-
# Rockscopy.Coding.BitStream — bit-packed integers of `util/coding.cpp`

Bit `i` of a buffer is bit `i % 8` of byte `i / 8` (`bitAt`). `BitStreamPutInt`
stores the low `bits` bits of a value at bit `offset`; `BitStreamGetInt` reads
them back. Both walk the region byte by byte, `bitsToGet` bits at a time.

* `bitAt_bitStreamPutInt`: after a put, the bits of the region are the value's,
  every other bit is the old one;
* `getLsbD_bitStreamGetInt`: a get returns the region's bits, zero above `bits`;
* `bitStream_put_get`: together, get after put returns the value truncated to
  `bits` bits, the value the assertion in `BitStreamPutInt` compares against.

A store `ptr[byteOffset] = e` keeps the low 8 bits of `e`; every operation in
the source's `e` (`&`, `~`, `+`, `<<`) gives low 8 bits that depend only on the
low 8 bits of its operands, so the update is computed on `Byte` directly.
-/
import Rockscopy.Coding.Varint

namespace Rockscopy.Coding

set_option autoImplicit false

/-- Bit `i` of a buffer. -/
def bitAt (buf : List Byte) (i : Nat) : Bool :=
  (buf.getD (i / 8) 0).getLsbD (i % 8)

/-- `unsigned char mask = ((1 << bitsToGet) - 1)`. -/
def lowMask (bitsToGet : Nat) : Byte :=
  BitVec.ofNat 8 ((1 <<< bitsToGet) - 1)

/-- The loop of `BitStreamPutInt`, from `byteOffset` and `bitOffset`, with `bits` left to
store and `value` shifted past the bits already stored. -/
def bitStreamPutLoop (dst : List Byte) (byteOffset : Nat) (bitOffset : Fin 8) (bits : Nat)
    (value : BitVec 64) : List Byte :=
  if 0 < bits then
    let bitsToGet := min bits (8 - bitOffset)
    let mask := lowMask bitsToGet
    let byte := dst.getD byteOffset 0
    bitStreamPutLoop
      (dst.set byteOffset ((byte &&& ~~~(mask <<< bitOffset.val)) +
        ((value.setWidth 8 &&& mask) <<< bitOffset.val)))
      (byteOffset + 1) 0 (bits - bitsToGet) (value >>> bitsToGet)
  else dst
termination_by bits
decreasing_by omega

/-- `BitStreamPutInt(dst, dstlen, offset, bits, value)` on the buffer `dst` of `dstlen` bytes. -/
def bitStreamPutInt (dst : List Byte) (offset bits : Nat) (value : BitVec 64) : List Byte :=
  bitStreamPutLoop dst (offset / 8) ⟨offset % 8, Nat.mod_lt _ (by decide)⟩ bits value

/-- The loop of `BitStreamGetInt`, with `bits` left to read, the next at `shift` of `result`. -/
def bitStreamGetLoop (src : List Byte) (byteOffset : Nat) (bitOffset : Fin 8) (bits shift : Nat)
    (result : BitVec 64) : BitVec 64 :=
  if 0 < bits then
    let bitsToGet := min bits (8 - bitOffset)
    let mask := lowMask bitsToGet
    bitStreamGetLoop src (byteOffset + 1) 0 (bits - bitsToGet) (shift + bitsToGet)
      (result + ((src.getD byteOffset 0 >>> bitOffset.val &&& mask).setWidth 64 <<< shift))
  else result
termination_by bits
decreasing_by omega

/-- `BitStreamGetInt(src, srclen, offset, bits)` on the buffer `src` of `srclen` bytes. -/
def bitStreamGetInt (src : List Byte) (offset bits : Nat) : BitVec 64 :=
  bitStreamGetLoop src (offset / 8) ⟨offset % 8, Nat.mod_lt _ (by decide)⟩ bits 0 0

/-- `origValue`, the value the closing assertion of `BitStreamPutInt` expects back. -/
def truncatedValue (value : BitVec 64) (bits : Nat) : BitVec 64 :=
  if bits < 64 then value &&& ((1 : BitVec 64) <<< bits - 1) else value

/-! ## One byte -/

theorem getLsbD_lowMask {k : Nat} (narrow : k ≤ 8) (j : Nat) : (lowMask k).getLsbD j = decide (j < k) := by
  rw [lowMask, BitVec.getLsbD_ofNat, Nat.one_shiftLeft, Nat.testBit_two_pow_sub_one]
  by_cases small : j < k
  · simp [small, show j < 8 by omega]
  · simp [small]

theorem bitAt_of_lt {buf : List Byte} {byteOffset j : Nat} (inside : j < 8) :
    bitAt buf (8 * byteOffset + j) = (buf.getD byteOffset 0).getLsbD j := by
  rw [bitAt, show (8 * byteOffset + j) / 8 = byteOffset by omega,
    show (8 * byteOffset + j) % 8 = j by omega]

/-- The byte `BitStreamPutInt` stores: the `k` bits at `bitOffset` are the value's, the
others the old byte's. -/
theorem getLsbD_storedByte (old v : Byte) (bitOffset k : Nat) (fits : bitOffset + k ≤ 8) (j : Nat) :
    ((old &&& ~~~(lowMask k <<< bitOffset)) + ((v &&& lowMask k) <<< bitOffset)).getLsbD j =
      if bitOffset ≤ j ∧ j < bitOffset + k then v.getLsbD (j - bitOffset) else old.getLsbD j := by
  have disjoint : (old &&& ~~~(lowMask k <<< bitOffset)) &&& ((v &&& lowMask k) <<< bitOffset) = 0 := by
    ext t
    simp only [BitVec.getLsbD_and, BitVec.getLsbD_not, BitVec.getLsbD_shiftLeft,
      getLsbD_lowMask (show k ≤ 8 by omega), BitVec.getLsbD_zero]
    by_cases below : t.val < bitOffset <;> simp [below]
    exact fun _ far _ => far
  rw [BitVec.add_eq_or_of_and_eq_zero _ _ disjoint]
  simp only [BitVec.getLsbD_or, BitVec.getLsbD_and, BitVec.getLsbD_not, BitVec.getLsbD_shiftLeft,
    getLsbD_lowMask (show k ≤ 8 by omega)]
  by_cases wide : j < 8
  · by_cases region : bitOffset ≤ j ∧ j < bitOffset + k
    · simp [region, wide, show ¬ j < bitOffset by omega, show j - bitOffset < k by omega]
    · by_cases below : j < bitOffset
      · simp [region, wide, below]
      · simp [region, wide, below, show ¬ j - bitOffset < k by omega]
  · simp [wide, show ¬ (bitOffset ≤ j ∧ j < bitOffset + k) by omega,
      BitVec.getLsbD_ge old j (by omega)]

/-! ## The put loop -/

theorem bitAt_set {dst : List Byte} {byteOffset : Nat} (inside : byteOffset < dst.length) (b : Byte)
    (i : Nat) :
    bitAt (dst.set byteOffset b) i = if i / 8 = byteOffset then b.getLsbD (i % 8) else bitAt dst i := by
  simp only [bitAt, List.getD_eq_getElem?_getD, List.getElem?_set]
  by_cases same : i / 8 = byteOffset
  · simp [same, inside]
  · simp [same, Ne.symm same]

theorem length_bitStreamPutLoop (dst : List Byte) (byteOffset : Nat) (bitOffset : Fin 8) (bits : Nat)
    (value : BitVec 64) : (bitStreamPutLoop dst byteOffset bitOffset bits value).length = dst.length := by
  induction dst, byteOffset, bitOffset, bits, value using bitStreamPutLoop.induct with
  | case1 dst byteOffset bitOffset bits value more bitsToGet mask byte ih =>
      rw [bitStreamPutLoop, if_pos more]
      simp only [bitsToGet, mask, byte] at ih ⊢
      rw [ih, List.length_set]
  | case2 dst byteOffset bitOffset bits value done => rw [bitStreamPutLoop, if_neg done]

/-- The put loop from bit `p = 8 * byteOffset + bitOffset` stores the low `bits` bits of
`value` at `p` and leaves every other bit. -/
theorem bitAt_bitStreamPutLoop (dst : List Byte) (byteOffset : Nat) (bitOffset : Fin 8) (bits : Nat)
    (value : BitVec 64) (room : (8 * byteOffset + bitOffset + bits + 7) / 8 ≤ dst.length) (i : Nat) :
    bitAt (bitStreamPutLoop dst byteOffset bitOffset bits value) i =
      if 8 * byteOffset + bitOffset ≤ i ∧ i < 8 * byteOffset + bitOffset + bits then
        value.getLsbD (i - (8 * byteOffset + bitOffset))
      else bitAt dst i := by
  induction dst, byteOffset, bitOffset, bits, value using bitStreamPutLoop.induct with
  | case1 dst byteOffset bitOffset bits value more bitsToGet mask byte ih =>
      have bitOffsetLt := bitOffset.isLt
      rw [bitStreamPutLoop, if_pos more]
      simp only [bitsToGet, mask, byte, Fin.val_zero, Nat.add_zero] at ih ⊢
      rw [ih (by rw [List.length_set]; omega), bitAt_set (by omega),
        getLsbD_storedByte _ _ _ _ (by omega)]
      by_cases later : 8 * (byteOffset + 1) ≤ i ∧ i < 8 * (byteOffset + 1) + (bits - min bits (8 - bitOffset))
      · -- a later byte: the shifted value's bit
        rw [if_pos later, if_pos (by omega), BitVec.getLsbD_ushiftRight]
        congr 1; omega
      rw [if_neg later]
      by_cases here : i / 8 = byteOffset
      · -- this byte: the value's bit inside the region, the old bit outside
        rw [if_pos here]
        by_cases region : 8 * byteOffset + bitOffset ≤ i ∧ i < 8 * byteOffset + bitOffset + bits
        · rw [if_pos region, if_pos (by omega), BitVec.getLsbD_setWidth, decide_eq_true (by omega),
            Bool.true_and]
          congr 1; omega
        · rw [if_neg region, if_neg (by omega), bitAt, here]
      · -- another byte, outside the region
        rw [if_neg here, if_neg (by omega)]
  | case2 dst byteOffset bitOffset bits value done =>
      rw [bitStreamPutLoop, if_neg done, if_neg (by omega)]

/-- `bitStreamPutInt` stores the low `bits` bits of `value` at bit `offset`. -/
theorem bitAt_bitStreamPutInt (dst : List Byte) (offset bits : Nat) (value : BitVec 64)
    (room : (offset + bits + 7) / 8 ≤ dst.length) (i : Nat) :
    bitAt (bitStreamPutInt dst offset bits value) i =
      if offset ≤ i ∧ i < offset + bits then value.getLsbD (i - offset) else bitAt dst i := by
  have split : 8 * (offset / 8) + offset % 8 = offset := Nat.div_add_mod offset 8
  rw [bitStreamPutInt, bitAt_bitStreamPutLoop _ _ _ _ _ (by simp only [split]; exact room)]
  simp only [split]

/-! ## The get loop -/

/-- The group `((ptr[byteOffset] >> bitOffset) & mask)` widened to 64 bits. -/
theorem getLsbD_group (byte : Byte) (bitOffset k : Nat) (fits : bitOffset + k ≤ 8) (j : Nat) :
    (((byte >>> bitOffset) &&& lowMask k).setWidth 64).getLsbD j =
      (decide (j < k) && byte.getLsbD (bitOffset + j)) := by
  simp only [BitVec.getLsbD_setWidth, BitVec.getLsbD_and, BitVec.getLsbD_ushiftRight,
    getLsbD_lowMask (show k ≤ 8 by omega)]
  by_cases small : j < k
  · simp [small, show j < 64 by omega]
  · simp [small]

/-- One turn of the get loop: the group lands above the `shift` bits of `result`, which is
zero from `shift` on, so the sum is a disjoint union. -/
theorem getLsbD_add_group (result : BitVec 64) (shift : Nat) (low : ∀ t, shift ≤ t → result.getLsbD t = false)
    (byte : Byte) (bitOffset k : Nat) (fits : bitOffset + k ≤ 8) (j : Nat) :
    (result + ((byte >>> bitOffset &&& lowMask k).setWidth 64 <<< shift)).getLsbD j =
      if j < shift then result.getLsbD j
      else decide (j < 64) && (decide (j - shift < k) && byte.getLsbD (bitOffset + (j - shift))) := by
  have disjoint : result &&& ((byte >>> bitOffset &&& lowMask k).setWidth 64 <<< shift) = 0 := by
    ext i
    simp only [BitVec.getLsbD_and, BitVec.getLsbD_shiftLeft, BitVec.ofNat_eq_ofNat, BitVec.getLsbD_zero]
    by_cases below : i.val < shift
    · simp only [below, decide_True, Bool.not_true, Bool.and_false, Bool.false_and]
    · rw [low i (by omega), Bool.false_and]
  rw [BitVec.add_eq_or_of_and_eq_zero _ _ disjoint, BitVec.getLsbD_or, BitVec.getLsbD_shiftLeft,
    getLsbD_group _ _ _ fits]
  by_cases below : j < shift
  · rw [if_pos below]
    simp only [below, decide_True, Bool.not_true, Bool.and_false, Bool.false_and, Bool.or_false]
  · rw [if_neg below, low j (by omega), decide_eq_false below, Bool.not_false, Bool.and_true, Bool.false_or]

/-- The get loop from bit `p = 8 * byteOffset + bitOffset` puts the `bits` bits at `p`
above the `shift` bits already in `result`. -/
theorem getLsbD_bitStreamGetLoop (src : List Byte) (byteOffset : Nat) (bitOffset : Fin 8)
    (bits shift : Nat) (result : BitVec 64) (low : ∀ t, shift ≤ t → result.getLsbD t = false)
    (fits : shift + bits ≤ 64) (t : Nat) :
    (bitStreamGetLoop src byteOffset bitOffset bits shift result).getLsbD t =
      if t < shift then result.getLsbD t
      else decide (t < shift + bits) && bitAt src (8 * byteOffset + bitOffset + (t - shift)) := by
  induction byteOffset, bitOffset, bits, shift, result using bitStreamGetLoop.induct src with
  | case1 byteOffset bitOffset bits shift result more bitsToGet mask ih =>
      have bitOffsetLt := bitOffset.isLt
      have merged := getLsbD_add_group result shift low (src.getD byteOffset 0) bitOffset.val
        (min bits (8 - bitOffset.val)) (by omega)
      rw [bitStreamGetLoop, if_pos more]
      simp only [bitsToGet, mask] at ih ⊢
      rw [ih (fun j far => by
          rw [merged j, if_neg (by omega),
            decide_eq_false (show ¬ j - shift < min bits (8 - bitOffset.val) by omega),
            Bool.false_and, Bool.and_false]) (by omega), merged]
      simp only [Fin.val_zero, Nat.add_zero]
      by_cases below : t < shift
      · rw [if_pos (by omega), if_pos below, if_pos below]
      by_cases first : t < shift + min bits (8 - bitOffset.val)
      · rw [if_pos first, if_neg below, if_neg below, Nat.add_assoc, bitAt_of_lt (by omega)]
        rw [decide_eq_true (show t < 64 by omega),
          decide_eq_true (show t - shift < min bits (8 - bitOffset.val) by omega),
          decide_eq_true (show t < shift + bits by omega), Bool.true_and, Bool.true_and]
      · rw [if_neg first, if_neg below,
          show shift + min bits (8 - bitOffset.val) + (bits - min bits (8 - bitOffset.val)) = shift + bits by omega]
        by_cases inside : t < shift + bits
        · rw [show 8 * (byteOffset + 1) + (t - (shift + min bits (8 - bitOffset.val))) =
            8 * byteOffset + bitOffset + (t - shift) by omega]
        · rw [decide_eq_false inside, Bool.false_and, Bool.false_and]
  | case2 byteOffset bitOffset bits shift result done =>
      rw [bitStreamGetLoop, if_neg done]
      split_ifs with below
      · rfl
      · simp only [show bits = 0 by omega, Nat.add_zero, show ¬ t < shift by omega, decide_False,
          Bool.false_and, low t (by omega)]

/-- `bitStreamGetInt` reads the `bits` bits at `offset`, zero above them. -/
theorem getLsbD_bitStreamGetInt (src : List Byte) (offset bits : Nat) (narrow : bits ≤ 64) (t : Nat) :
    (bitStreamGetInt src offset bits).getLsbD t = (decide (t < bits) && bitAt src (offset + t)) := by
  rw [bitStreamGetInt, getLsbD_bitStreamGetLoop _ _ _ _ _ _ (fun t _ => by simp) (by omega)]
  simp only [Nat.not_lt_zero, if_false, Nat.zero_add, Nat.sub_zero, Nat.div_add_mod]

theorem getLsbD_truncatedValue (value : BitVec 64) (bits : Nat) (narrow : bits ≤ 64) (t : Nat) :
    (truncatedValue value bits).getLsbD t = (decide (t < bits) && value.getLsbD t) := by
  unfold truncatedValue
  split_ifs with below
  · have mask : (1 : BitVec 64) <<< bits - 1 = BitVec.ofNat 64 (2 ^ bits - 1) := by
      have pos : 1 ≤ 2 ^ bits := Nat.one_le_two_pow
      have small : 2 ^ bits < 2 ^ 64 := Nat.pow_lt_pow_right (by decide) below
      apply BitVec.eq_of_toNat_eq
      have one : (1 : BitVec 64).toNat = 1 := rfl
      simp only [BitVec.toNat_sub, BitVec.toNat_shiftLeft, BitVec.toNat_ofNat, one,
        Nat.one_shiftLeft, Nat.mod_eq_of_lt small]
      omega
    rw [mask, BitVec.getLsbD_and, BitVec.getLsbD_ofNat, Nat.testBit_two_pow_sub_one, Bool.and_comm]
    by_cases inside : t < bits
    · simp [inside, show t < 64 by omega]
    · simp [inside]
  · by_cases inside : t < 64
    · simp [inside, show t < bits by omega]
    · simp [inside, BitVec.getLsbD_ge value t (by omega)]

/-- A byte of a buffer is its eight bits. -/
theorem getD_eq_of_bitAt {buf buf' : List Byte} {j : Nat}
    (same : ∀ i < 8, bitAt buf (8 * j + i) = bitAt buf' (8 * j + i)) : buf.getD j 0 = buf'.getD j 0 := by
  ext i
  rw [← bitAt_of_lt i.isLt, ← bitAt_of_lt i.isLt]
  exact same i i.isLt

/-! ## Get after put -/

/-- Get after put returns the value truncated to `bits` bits: the assertion closing
`BitStreamPutInt` holds. -/
theorem bitStreamGetInt_bitStreamPutInt (dst : List Byte) (offset bits : Nat) (value : BitVec 64)
    (room : (offset + bits + 7) / 8 ≤ dst.length) (narrow : bits ≤ 64) :
    bitStreamGetInt (bitStreamPutInt dst offset bits value) offset bits = truncatedValue value bits := by
  ext t
  rw [getLsbD_bitStreamGetInt _ _ _ narrow, getLsbD_truncatedValue _ _ narrow,
    bitAt_bitStreamPutInt _ _ _ _ room]
  by_cases inside : t.val < bits
  · simp [inside]
  · simp [inside]

/-- A get reads only the bytes of its region. -/
theorem bitStreamGetInt_congr {src src' : List Byte} {offset bits : Nat} (narrow : bits ≤ 64)
    (same : ∀ j, offset / 8 ≤ j → j < (offset + bits + 7) / 8 → src'.getD j 0 = src.getD j 0) :
    bitStreamGetInt src' offset bits = bitStreamGetInt src offset bits := by
  ext t
  rw [getLsbD_bitStreamGetInt _ _ _ narrow, getLsbD_bitStreamGetInt _ _ _ narrow]
  by_cases inside : t.val < bits
  · simp only [inside, decide_True, Bool.true_and, bitAt,
      same ((offset + t) / 8) (by omega) (by omega)]
  · simp [inside]

/-- A put changes only the bytes of its region, and what it writes there depends only on
those bytes. -/
theorem getD_bitStreamPutInt (dst : List Byte) (offset bits : Nat) (value : BitVec 64)
    (room : (offset + bits + 7) / 8 ≤ dst.length) (j : Nat) :
    ((j < offset / 8 ∨ (offset + bits + 7) / 8 ≤ j) →
      (bitStreamPutInt dst offset bits value).getD j 0 = dst.getD j 0) ∧
    ∀ dst' : List Byte, dst'.length = dst.length → dst'.getD j 0 = dst.getD j 0 →
      (bitStreamPutInt dst' offset bits value).getD j 0 = (bitStreamPutInt dst offset bits value).getD j 0 := by
  constructor
  · intro outside
    apply getD_eq_of_bitAt
    intro i small
    rw [bitAt_bitStreamPutInt _ _ _ _ room, if_neg (by omega)]
  · intro dst' length same
    apply getD_eq_of_bitAt
    intro i small
    rw [bitAt_bitStreamPutInt _ _ _ _ room, bitAt_bitStreamPutInt _ _ _ _ (by omega)]
    split_ifs
    · rfl
    · rw [bitAt_of_lt small, bitAt_of_lt small, same]

theorem toNat_truncatedValue (value : BitVec 64) (bits : Nat) (narrow : bits ≤ 64) :
    (truncatedValue value bits).toNat = value.toNat % 2 ^ bits := by
  apply Nat.eq_of_testBit_eq
  intro t
  rw [← BitVec.getLsbD, getLsbD_truncatedValue _ _ narrow, Nat.testBit_mod_two_pow, BitVec.getLsbD]

/-- A put to one region never changes what a get returns for a disjoint region. -/
theorem bitStreamGetInt_bitStreamPutInt_apart (dst : List Byte) (offset bits : Nat) (value : BitVec 64)
    (room : (offset + bits + 7) / 8 ≤ dst.length) (offset' bits' : Nat) (narrow' : bits' ≤ 64)
    (apart : offset + bits ≤ offset' ∨ offset' + bits' ≤ offset) :
    bitStreamGetInt (bitStreamPutInt dst offset bits value) offset' bits' = bitStreamGetInt dst offset' bits' := by
  ext t
  rw [getLsbD_bitStreamGetInt _ _ _ narrow', getLsbD_bitStreamGetInt _ _ _ narrow']
  by_cases inside : t.val < bits'
  · rw [bitAt_bitStreamPutInt _ _ _ _ room, if_neg (by omega)]
  · simp [inside]

/-- **Bit-stream put and get are exact inverses with a bit-exact frame.** Get after put
returns the value truncated to `bits` bits (the assertion closing `BitStreamPutInt`);
every bit outside the region keeps its value; a put changes only the bytes
`[offset / 8, (offset + bits + 7) / 8)` and reads only those, a get reads only
those; a put never changes a get of a disjoint region. -/
theorem bitStream_put_get (dst : List Byte) (offset bits : Nat) (value : BitVec 64)
    (room : (offset + bits + 7) / 8 ≤ dst.length) (narrow : bits ≤ 64) :
    bitStreamGetInt (bitStreamPutInt dst offset bits value) offset bits = truncatedValue value bits ∧
    (bitStreamGetInt (bitStreamPutInt dst offset bits value) offset bits).toNat = value.toNat % 2 ^ bits ∧
    (∀ i, (i < offset ∨ offset + bits ≤ i) → bitAt (bitStreamPutInt dst offset bits value) i = bitAt dst i) ∧
    (bitStreamPutInt dst offset bits value).length = dst.length ∧
    (∀ j, (j < offset / 8 ∨ (offset + bits + 7) / 8 ≤ j) →
      (bitStreamPutInt dst offset bits value).getD j 0 = dst.getD j 0) ∧
    (∀ dst' : List Byte, dst'.length = dst.length →
      (∀ j, offset / 8 ≤ j → j < (offset + bits + 7) / 8 → dst'.getD j 0 = dst.getD j 0) →
      ∀ j, offset / 8 ≤ j → j < (offset + bits + 7) / 8 →
        (bitStreamPutInt dst' offset bits value).getD j 0 = (bitStreamPutInt dst offset bits value).getD j 0) ∧
    (∀ src src' : List Byte,
      (∀ j, offset / 8 ≤ j → j < (offset + bits + 7) / 8 → src'.getD j 0 = src.getD j 0) →
      bitStreamGetInt src' offset bits = bitStreamGetInt src offset bits) ∧
    (∀ offset' bits', bits' ≤ 64 → (offset + bits ≤ offset' ∨ offset' + bits' ≤ offset) →
      bitStreamGetInt (bitStreamPutInt dst offset bits value) offset' bits' = bitStreamGetInt dst offset' bits') := by
  have roundTrip := bitStreamGetInt_bitStreamPutInt dst offset bits value room narrow
  refine ⟨roundTrip, by rw [roundTrip, toNat_truncatedValue _ _ narrow], fun i outside => ?_,
    length_bitStreamPutLoop _ _ _ _ _, fun j outside => (getD_bitStreamPutInt dst offset bits value room j).1 outside,
    fun dst' length same j low high =>
      (getD_bitStreamPutInt dst offset bits value room j).2 dst' length (same j low high),
    fun _ _ same => bitStreamGetInt_congr narrow same,
    fun offset' bits' narrow' apart => bitStreamGetInt_bitStreamPutInt_apart dst offset bits value room offset' bits'
      narrow' apart⟩
  rw [bitAt_bitStreamPutInt _ _ _ _ room, if_neg (by omega)]

theorem bitStream_put_get_nine_bits :
    ((3 + 9 + 7) / 8 ≤ ([0xFF, 0x00] : List Byte).length ∧ 9 ≤ 64) ∧
    (bitStreamGetInt (bitStreamPutInt [0xFF, 0x00] 3 9 0x2AA) 3 9 = truncatedValue 0x2AA 9 ∧
    (bitStreamGetInt (bitStreamPutInt [0xFF, 0x00] 3 9 0x2AA) 3 9).toNat = (0x2AA : BitVec 64).toNat % 2 ^ 9 ∧
    (∀ i, (i < 3 ∨ 3 + 9 ≤ i) → bitAt (bitStreamPutInt [0xFF, 0x00] 3 9 0x2AA) i = bitAt [0xFF, 0x00] i) ∧
    (bitStreamPutInt [0xFF, 0x00] 3 9 0x2AA).length = ([0xFF, 0x00] : List Byte).length ∧
    (∀ j, (j < 3 / 8 ∨ (3 + 9 + 7) / 8 ≤ j) →
      (bitStreamPutInt [0xFF, 0x00] 3 9 0x2AA).getD j 0 = ([0xFF, 0x00] : List Byte).getD j 0) ∧
    (∀ dst' : List Byte, dst'.length = ([0xFF, 0x00] : List Byte).length →
      (∀ j, 3 / 8 ≤ j → j < (3 + 9 + 7) / 8 → dst'.getD j 0 = ([0xFF, 0x00] : List Byte).getD j 0) →
      ∀ j, 3 / 8 ≤ j → j < (3 + 9 + 7) / 8 →
        (bitStreamPutInt dst' 3 9 0x2AA).getD j 0 = (bitStreamPutInt [0xFF, 0x00] 3 9 0x2AA).getD j 0) ∧
    (∀ src src' : List Byte,
      (∀ j, 3 / 8 ≤ j → j < (3 + 9 + 7) / 8 → src'.getD j 0 = src.getD j 0) →
      bitStreamGetInt src' 3 9 = bitStreamGetInt src 3 9) ∧
    (∀ offset' bits', bits' ≤ 64 → (3 + 9 ≤ offset' ∨ offset' + bits' ≤ 3) →
      bitStreamGetInt (bitStreamPutInt [0xFF, 0x00] 3 9 0x2AA) offset' bits' =
        bitStreamGetInt [0xFF, 0x00] offset' bits')) :=
  ⟨⟨by decide, by decide⟩, bitStream_put_get [0xFF, 0x00] 3 9 0x2AA (by decide) (by decide)⟩

end Rockscopy.Coding
