/-
# Rockscopy.Coding.Varint — the varint codec of `util/coding.cpp`

`varint n` is the format of the spec: seven payload bits a byte, least
significant group first, the high bit of a byte set iff more bytes follow.
Against it:

* `encodeVarint64_eq_varint`, `encodeVarint32_eq_varint`: the loop encoder and
  the five-branch unrolled encoder both write exactly `varint v`;
* `varintLength_eq`: `VarintLength` counts those bytes, at most 10 for a
  `uint64_t` and 5 for a `uint32_t`;
* `getVarintLoop_varint`: the decoding loop shared by `GetVarint64Ptr` and
  `GetVarint32PtrFallback` reads `varint n` back from any buffer that starts
  with it, stopping right after it.

A `uint32_t` is a `BitVec 32`, a `uint64_t` a `BitVec 64`, a `char` a `Byte`.
A pointer-form decoder reads the bytes `[p, limit)` as a list and returns the
offset from `p` of the pointer it returns, with the value, or `none` for
`nullptr`. A `Slice` is the list of bytes it spans.
-/
import Mathlib.Data.Nat.Bitwise
import Mathlib.Tactic.Ring

namespace Rockscopy.Coding

set_option autoImplicit false

abbrev Byte := BitVec 8

/-! ## Machine words -/

theorem or_two_pow_of_lt {a k : Nat} (small : a < 2 ^ k) : a ||| 2 ^ k = a + 2 ^ k := by
  rw [Nat.add_comm, ← Nat.mul_one (2 ^ k), Nat.mul_add_lt_is_or small, Nat.lor_comm]

theorem or_two_pow_mod (a k : Nat) : (a ||| 2 ^ k) % 2 ^ (k + 1) = a % 2 ^ k + 2 ^ k := by
  rw [← or_two_pow_of_lt (Nat.mod_lt a (Nat.two_pow_pos k))]
  apply Nat.eq_of_testBit_eq
  intro i
  simp only [Nat.testBit_mod_two_pow, Nat.testBit_or, Nat.testBit_two_pow]
  rcases Nat.lt_trichotomy i k with below | rfl | above
  · simp [below, Nat.ne_of_gt below, show i < k + 1 by omega]
  · simp
  · simp [show ¬ i < k + 1 by omega, show ¬ i < k by omega, show k ≠ i by omega]

theorem toNat_128 {w : Nat} (wide : 8 ≤ w) : (128 : BitVec w).toNat = 2 ^ 7 :=
  Nat.mod_eq_of_lt (Nat.lt_of_lt_of_le (by decide) (Nat.pow_le_pow_right (by decide) wide))

theorem toNat_byte_setWidth {w : Nat} (b : Byte) (wide : 8 ≤ w) : (b.setWidth w).toNat = b.toNat := by
  rw [BitVec.toNat_setWidth]
  exact Nat.mod_eq_of_lt (Nat.lt_of_lt_of_le b.isLt (Nat.pow_le_pow_right (by decide) wide))

/-- The byte a store of `x | 128` into an `unsigned char` keeps. -/
theorem setWidth_or_128 {w : Nat} (x : BitVec w) (wide : 8 ≤ w) :
    (x ||| 128).setWidth 8 = BitVec.ofNat 8 (x.toNat % 128 + 128) := by
  apply BitVec.eq_of_toNat_eq
  rw [BitVec.toNat_setWidth, BitVec.toNat_or, toNat_128 wide, BitVec.toNat_ofNat,
    or_two_pow_mod x.toNat 7]
  omega

theorem setWidth_eq_ofNat {w : Nat} (x : BitVec w) : x.setWidth 8 = BitVec.ofNat 8 x.toNat :=
  BitVec.eq_of_toNat_eq (by rw [BitVec.toNat_setWidth, BitVec.toNat_ofNat])

theorem toNat_shiftRight_seven {w : Nat} (x : BitVec w) (k : Nat) :
    (x >>> k).toNat = x.toNat / 2 ^ k := by
  rw [BitVec.toNat_ushiftRight, Nat.shiftRight_eq_div_pow]

/-- The test `byte & 128` of a byte widened to `w` bits reads its high bit. -/
theorem msb_clear {w : Nat} (b : Byte) (wide : 8 ≤ w) :
    b.setWidth w &&& 128 = 0 ↔ b.toNat < 128 := by
  have seven : b.toNat.testBit 7 = decide (128 ≤ b.toNat) := by
    rw [Nat.testBit_to_div_mod]
    exact decide_eq_decide.mpr (by have := b.isLt; omega)
  rw [BitVec.toNat_eq, BitVec.toNat_and, toNat_byte_setWidth b wide, toNat_128 wide,
    Nat.and_two_pow, seven]
  by_cases high : 128 ≤ b.toNat <;> simp [high]
  omega

/-! ## The format -/

/-- The varint format of the spec, for a value `n`. -/
def varint (n : Nat) : List Byte :=
  if n < 128 then [BitVec.ofNat 8 n] else BitVec.ofNat 8 (n % 128 + 128) :: varint (n / 128)
termination_by n
decreasing_by omega

theorem varint_of_lt {n : Nat} (small : n < 128) : varint n = [BitVec.ofNat 8 n] := by
  rw [varint, if_pos small]

theorem varint_of_le {n : Nat} (big : 128 ≤ n) :
    varint n = BitVec.ofNat 8 (n % 128 + 128) :: varint (n / 128) := by
  rw [varint, if_neg (by omega)]

theorem varint_ne_nil (n : Nat) : varint n ≠ [] := by
  rw [varint]; split <;> simp

/-- The format byte by byte: byte `i` carries bits `7 * i` to `7 * i + 6` of `n`,
with the high bit set iff more bytes follow. -/
theorem toNat_varint_getElem (n : Nat) :
    ∀ (i : Nat) (inside : i < (varint n).length),
      ((varint n)[i]).toNat = n / 128 ^ i % 128 + if i + 1 < (varint n).length then 128 else 0 := by
  induction n using Nat.strong_induction_on with
  | _ n ih =>
    intro i inside
    by_cases big : 128 ≤ n
    · have more := varint_ne_nil (n / 128)
      have longer : 0 < (varint (n / 128)).length := List.length_pos.mpr more
      simp only [varint_of_le big, List.length_cons] at inside ⊢
      cases i with
      | zero => simp [BitVec.toNat_ofNat, longer]; omega
      | succ j =>
          simp only [List.getElem_cons_succ, ih (n / 128) (by omega) j (by omega),
            Nat.div_div_eq_div_mul, Nat.pow_succ']
          simp only [add_lt_add_iff_right]
    · simp only [varint_of_lt (show n < 128 by omega), List.length_singleton] at inside ⊢
      obtain rfl : i = 0 := by omega
      simp [BitVec.toNat_ofNat]; omega

/-- A value below `2 ^ (7 * (k + 1))` takes at most `k + 1` bytes. -/
theorem varint_length_le (k : Nat) : ∀ n, n < 2 ^ (7 * (k + 1)) → (varint n).length ≤ k + 1 := by
  induction k with
  | zero => intro n small; rw [varint_of_lt (by simpa using small)]; simp
  | succ k ih =>
      intro n small
      by_cases big : 128 ≤ n
      · have power : 2 ^ (7 * (k + 1 + 1)) = 2 ^ (7 * (k + 1)) * 128 := by
          rw [show 7 * (k + 1 + 1) = 7 * (k + 1) + 7 by omega, Nat.pow_add]
        rw [varint_of_le big, List.length_cons]
        have := ih (n / 128) (by rw [Nat.div_lt_iff_lt_mul (by decide)]; omega)
        omega
      · rw [varint_of_lt (by omega)]; simp

/-! ## Encoders -/

/-- `EncodeVarint32`: the bytes the five-branch unrolled encoder writes. -/
def encodeVarint32 (v : BitVec 32) : List Byte :=
  let B : BitVec 32 := 128
  if v.toNat < 1 <<< 7 then [v.setWidth 8]
  else if v.toNat < 1 <<< 14 then [(v ||| B).setWidth 8, (v >>> 7).setWidth 8]
  else if v.toNat < 1 <<< 21 then
    [(v ||| B).setWidth 8, (v >>> 7 ||| B).setWidth 8, (v >>> 14).setWidth 8]
  else if v.toNat < 1 <<< 28 then
    [(v ||| B).setWidth 8, (v >>> 7 ||| B).setWidth 8, (v >>> 14 ||| B).setWidth 8,
      (v >>> 21).setWidth 8]
  else
    [(v ||| B).setWidth 8, (v >>> 7 ||| B).setWidth 8, (v >>> 14 ||| B).setWidth 8,
      (v >>> 21 ||| B).setWidth 8, (v >>> 28).setWidth 8]

/-- `PutVarint32`: `dst` with the encoding appended. -/
def putVarint32 (dst : List Byte) (v : BitVec 32) : List Byte :=
  dst ++ encodeVarint32 v

/-- `EncodeVarint64`: the bytes the loop writes, one per round and the last after it. -/
def encodeVarint64 (v : BitVec 64) : List Byte :=
  if 128 ≤ v then ((v &&& 127) ||| 128).setWidth 8 :: encodeVarint64 (v >>> 7)
  else [v.setWidth 8]
termination_by v.toNat
decreasing_by
  rw [BitVec.le_def, toNat_128 (by decide)] at *
  rw [toNat_shiftRight_seven]
  omega

/-- `PutVarint64`: `dst` with the encoding appended. -/
def putVarint64 (dst : List Byte) (v : BitVec 64) : List Byte :=
  dst ++ encodeVarint64 v

/-- The loop of `VarintLength`, from the running count `len`. -/
def varintLengthLoop (v : BitVec 64) (len : Nat) : Nat :=
  if 128 ≤ v then varintLengthLoop (v >>> 7) (len + 1) else len
termination_by v.toNat
decreasing_by
  rw [BitVec.le_def, toNat_128 (by decide)] at *
  rw [toNat_shiftRight_seven]
  omega

/-- `VarintLength(v)`; a `uint32_t` argument arrives zero-extended. -/
def varintLength (v : BitVec 64) : Nat :=
  varintLengthLoop v 1

theorem le_128_iff {v : BitVec 64} : 128 ≤ v ↔ 128 ≤ v.toNat := by
  rw [BitVec.le_def, toNat_128 (by decide)]; exact Iff.rfl

theorem encodeVarint64_eq_varint (v : BitVec 64) : encodeVarint64 v = varint v.toNat := by
  induction v using encodeVarint64.induct with
  | case1 v big ih =>
      have low : ((v &&& 127).toNat) = v.toNat % 128 := by
        rw [BitVec.toNat_and]; exact Nat.and_pow_two_sub_one_eq_mod _ 7
      rw [encodeVarint64, if_pos big, ih, varint_of_le (le_128_iff.mp big),
        setWidth_or_128 _ (by decide), low, Nat.mod_mod, toNat_shiftRight_seven]
      rfl
  | case2 v small =>
      rw [encodeVarint64, if_neg small, varint_of_lt (by rw [le_128_iff] at small; omega),
        setWidth_eq_ofNat]

theorem encodeVarint32_eq_varint (v : BitVec 32) : encodeVarint32 v = varint v.toNat := by
  have below : v.toNat < 4294967296 := v.isLt
  simp only [encodeVarint32, Nat.one_shiftLeft, Nat.reducePow, setWidth_or_128 _ (show 8 ≤ 32 by decide),
    setWidth_eq_ofNat, toNat_shiftRight_seven]
  split_ifs <;>
    simp (disch := omega) only [varint_of_le, varint_of_lt, Nat.div_div_eq_div_mul, Nat.reducePow,
      Nat.reduceMul]

theorem varintLengthLoop_eq (v : BitVec 64) (len : Nat) :
    varintLengthLoop v len = len + (varint v.toNat).length - 1 := by
  induction v, len using varintLengthLoop.induct with
  | case1 v len big ih =>
      rw [varintLengthLoop, if_pos big, ih, varint_of_le (le_128_iff.mp big),
        toNat_shiftRight_seven, show (2 : Nat) ^ 7 = 128 from rfl, List.length_cons]
      omega
  | case2 v len small =>
      rw [varintLengthLoop, if_neg small, varint_of_lt (by rw [le_128_iff] at small; omega)]
      simp

/-- `VarintLength` counts the bytes of the encoding. -/
theorem varintLength_eq (v : BitVec 64) : varintLength v = (varint v.toNat).length := by
  rw [varintLength, varintLengthLoop_eq]; omega

/-! ## Decoders -/

/-- The loop shared by `GetVarint32PtrFallback` (`w = 32`, last shift 28) and
`GetVarint64Ptr` (`w = 64`, last shift 63), from `shift` and the partial `result`,
over the bytes left before `limit`. -/
def getVarintLoop (w lastShift shift : Nat) (result : BitVec w) (bytes : List Byte) :
    Option (Nat × BitVec w) :=
  if shift ≤ lastShift then
    match bytes with
    | [] => none
    | byte :: rest =>
        let b : BitVec w := byte.setWidth w
        if b &&& 128 ≠ 0 then
          (getVarintLoop w lastShift (shift + 7) (result ||| (b &&& 127) <<< shift) rest).map
            fun (read, value) => (read + 1, value)
        else some (1, result ||| b <<< shift)
  else none

/-- `GetVarint32PtrFallback(p, limit, &value)`. -/
def getVarint32PtrFallback (bytes : List Byte) : Option (Nat × BitVec 32) :=
  getVarintLoop 32 28 0 0 bytes

/-- `GetVarint32Ptr(p, limit, &value)`: the inline one-byte fast path, then the fallback. -/
def getVarint32Ptr (bytes : List Byte) : Option (Nat × BitVec 32) :=
  match bytes with
  | byte :: _ =>
      if byte.setWidth 32 &&& 128 = 0 then some (1, byte.setWidth 32)
      else getVarint32PtrFallback bytes
  | [] => getVarint32PtrFallback bytes

/-- `GetVarint64Ptr(p, limit, &value)`. -/
def getVarint64Ptr (bytes : List Byte) : Option (Nat × BitVec 64) :=
  getVarintLoop 64 63 0 0 bytes

/-- `GetVarint32(&input, &value)`: whether it succeeded, then `*input` and `*value` after it. -/
def getVarint32 (input : List Byte) (value : BitVec 32) : Bool × List Byte × BitVec 32 :=
  match getVarint32Ptr input with
  | none => (false, input, value)
  | some (read, v) => (true, input.drop read, v)

/-- `GetVarint64(&input, &value)`: whether it succeeded, then `*input` and `*value` after it. -/
def getVarint64 (input : List Byte) (value : BitVec 64) : Bool × List Byte × BitVec 64 :=
  match getVarint64Ptr input with
  | none => (false, input, value)
  | some (read, v) => (true, input.drop read, v)

/-- Or-ing a shifted group above a partial result whose bits lie below the shift adds it. -/
theorem toNat_or_shiftLeft {w : Nat} (result x : BitVec w) (shift : Nat)
    (low : result.toNat < 2 ^ shift) (fits : result.toNat + x.toNat * 2 ^ shift < 2 ^ w) :
    (result ||| x <<< shift).toNat = result.toNat + x.toNat * 2 ^ shift := by
  rw [BitVec.toNat_or, BitVec.toNat_shiftLeft, Nat.shiftLeft_eq, Nat.mod_eq_of_lt (by omega),
    Nat.lor_comm, Nat.mul_comm, ← Nat.mul_add_lt_is_or low]
  omega

/-- **The decoding loop reads the format back.** From `shift`, with the bits of
`result` below it, the loop reads `varint n` off the front of any buffer and
stops right after it, provided the value fits and the last group is read at a
shift the loop still allows. -/
theorem getVarintLoop_varint {w lastShift : Nat} (wide : 8 ≤ w) (n : Nat) (rest : List Byte) :
    ∀ (shift : Nat) (result : BitVec w), result.toNat < 2 ^ shift →
      result.toNat + n * 2 ^ shift < 2 ^ w → shift + 7 * ((varint n).length - 1) ≤ lastShift →
      getVarintLoop w lastShift shift result (varint n ++ rest) =
        some ((varint n).length, BitVec.ofNat w (result.toNat + n * 2 ^ shift)) := by
  induction n using Nat.strong_induction_on with
  | _ n ih =>
    intro shift result low fits room
    by_cases big : 128 ≤ n
    · rw [varint_of_le big] at room ⊢
      have more := varint_ne_nil (n / 128)
      have byte : (BitVec.ofNat 8 (n % 128 + 128)).toNat = n % 128 + 128 := by
        rw [BitVec.toNat_ofNat]; omega
      have group : ((BitVec.ofNat 8 (n % 128 + 128)).setWidth w &&& 127).toNat = n % 128 := by
        rw [BitVec.toNat_and, toNat_byte_setWidth _ wide, byte,
          show (127 : BitVec w).toNat = 2 ^ 7 - 1 from Nat.mod_eq_of_lt
            (Nat.lt_of_lt_of_le (by decide) (Nat.pow_le_pow_right (by decide) wide)),
          Nat.and_pow_two_sub_one_eq_mod]
        omega
      have below : n % 128 * 2 ^ shift ≤ 127 * 2 ^ shift := Nat.mul_le_mul_right _ (by omega)
      have whole : n * 2 ^ shift = n % 128 * 2 ^ shift + n / 128 * 2 ^ (shift + 7) := by
        calc n * 2 ^ shift = (n % 128 + 128 * (n / 128)) * 2 ^ shift := by rw [Nat.mod_add_div]
          _ = n % 128 * 2 ^ shift + n / 128 * 2 ^ (shift + 7) := by rw [Nat.pow_add]; ring
      have merged : (result ||| ((BitVec.ofNat 8 (n % 128 + 128)).setWidth w &&& 127) <<< shift).toNat =
          result.toNat + n % 128 * 2 ^ shift := by
        rw [toNat_or_shiftLeft _ _ _ low (by rw [group]; omega), group]
      have next := ih (n / 128) (by omega) (shift + 7)
        (result ||| ((BitVec.ofNat 8 (n % 128 + 128)).setWidth w &&& 127) <<< shift)
        (by rw [merged, Nat.pow_add]; omega) (by rw [merged]; omega)
        (by have := List.length_pos.mpr more; simp only [List.length_cons] at room; omega)
      rw [List.cons_append, getVarintLoop, if_pos (by omega)]
      simp only [ne_eq, msb_clear _ wide, byte, show ¬ n % 128 + 128 < 128 by omega, not_false_eq_true,
        if_true, next, Option.map_some', List.length_cons, merged, whole, Nat.add_assoc]
    · rw [varint_of_lt (by omega)] at room ⊢
      have byte : (BitVec.ofNat 8 n).toNat = n := by rw [BitVec.toNat_ofNat]; omega
      rw [List.singleton_append, getVarintLoop, if_pos (by simpa using room)]
      simp only [ne_eq, msb_clear _ wide, byte, show n < 128 by omega, not_true_eq_false, if_false,
        List.length_singleton]
      congr 2
      apply BitVec.eq_of_toNat_eq
      rw [toNat_or_shiftLeft _ _ _ low (by rw [toNat_byte_setWidth _ wide, byte]; omega),
        toNat_byte_setWidth _ wide, byte, BitVec.toNat_ofNat, Nat.mod_eq_of_lt fits]

theorem varint_length_le_ten (v : BitVec 64) : (varint v.toNat).length ≤ 10 :=
  varint_length_le 9 _ (Nat.lt_of_lt_of_le v.isLt (Nat.pow_le_pow_right (by decide) (by decide)))

theorem varint_length_le_five (v : BitVec 32) : (varint v.toNat).length ≤ 5 :=
  varint_length_le 4 _ (Nat.lt_of_lt_of_le v.isLt (Nat.pow_le_pow_right (by decide) (by decide)))

theorem getVarint64Ptr_encodeVarint64 (v : BitVec 64) (rest : List Byte) :
    getVarint64Ptr (encodeVarint64 v ++ rest) = some (varintLength v, v) := by
  have ten := varint_length_le_ten v
  rw [getVarint64Ptr, encodeVarint64_eq_varint, varintLength_eq,
    getVarintLoop_varint (by decide) _ _ 0 0 (by simp) (by simpa using v.isLt) (by omega)]
  simp

theorem getVarint32PtrFallback_encodeVarint32 (v : BitVec 32) (rest : List Byte) :
    getVarint32PtrFallback (encodeVarint32 v ++ rest) = some (varintLength (v.setWidth 64), v) := by
  have five := varint_length_le_five v
  rw [getVarint32PtrFallback, encodeVarint32_eq_varint, varintLength_eq,
    getVarintLoop_varint (by decide) _ _ 0 0 (by simp) (by simpa using v.isLt) (by omega)]
  have small : v.toNat % 2 ^ 64 = v.toNat := Nat.mod_eq_of_lt (Nat.lt_trans v.isLt (by decide))
  rw [BitVec.toNat_setWidth, small]
  simp

theorem getVarint32Ptr_encodeVarint32 (v : BitVec 32) (rest : List Byte) :
    getVarint32Ptr (encodeVarint32 v ++ rest) = some (varintLength (v.setWidth 64), v) := by
  rw [← getVarint32PtrFallback_encodeVarint32, encodeVarint32_eq_varint]
  by_cases big : 128 ≤ v.toNat
  · rw [varint_of_le big, List.cons_append, getVarint32Ptr, if_neg]
    rw [msb_clear _ (by decide), BitVec.toNat_ofNat]; omega
  · rw [varint_of_lt (by omega), List.singleton_append, getVarint32Ptr,
      if_pos ((msb_clear _ (by decide)).mpr (by rw [BitVec.toNat_ofNat]; omega)),
      ← List.singleton_append, ← varint_of_lt (by omega), ← encodeVarint32_eq_varint,
      getVarint32PtrFallback_encodeVarint32, varintLength_eq, BitVec.toNat_setWidth,
      varint_of_lt (by rw [Nat.mod_eq_of_lt (by omega)]; omega)]
    congr
    apply BitVec.eq_of_toNat_eq
    rw [toNat_byte_setWidth _ (by decide), BitVec.toNat_ofNat]; omega

theorem getVarint64_encodeVarint64 (v : BitVec 64) (rest : List Byte) (old : BitVec 64) :
    getVarint64 (encodeVarint64 v ++ rest) old = (true, rest, v) := by
  rw [getVarint64, getVarint64Ptr_encodeVarint64, varintLength_eq, ← encodeVarint64_eq_varint]
  simp

theorem getVarint32_encodeVarint32 (v : BitVec 32) (rest : List Byte) (old : BitVec 32) :
    getVarint32 (encodeVarint32 v ++ rest) old = (true, rest, v) := by
  rw [getVarint32, getVarint32Ptr_encodeVarint32, varintLength_eq, BitVec.toNat_setWidth,
    Nat.mod_eq_of_lt (Nat.lt_trans v.isLt (by decide)), ← encodeVarint32_eq_varint]
  simp

/-- **The varint codec meets the format, both widths.** Both encoders and both
`Put` forms write `varint v`, `VarintLength` counts it (at most 10 and 5 bytes),
and every decoder reads `v` back off the front of any buffer, stopping right
after it. -/
theorem varint_codec_meets_format :
    (∀ v : BitVec 64, encodeVarint64 v = varint v.toNat ∧
      varintLength v = (varint v.toNat).length ∧ varintLength v ≤ 10 ∧
      ∀ dst, putVarint64 dst v = dst ++ varint v.toNat) ∧
    (∀ v : BitVec 32, encodeVarint32 v = varint v.toNat ∧
      varintLength (v.setWidth 64) = (varint v.toNat).length ∧ varintLength (v.setWidth 64) ≤ 5 ∧
      ∀ dst, putVarint32 dst v = dst ++ varint v.toNat) ∧
    (∀ (v : BitVec 64) (rest : List Byte),
      getVarint64Ptr (encodeVarint64 v ++ rest) = some (varintLength v, v) ∧
      ∀ old, getVarint64 (encodeVarint64 v ++ rest) old = (true, rest, v)) ∧
    (∀ (v : BitVec 32) (rest : List Byte),
      getVarint32Ptr (encodeVarint32 v ++ rest) = some (varintLength (v.setWidth 64), v) ∧
      getVarint32PtrFallback (encodeVarint32 v ++ rest) = some (varintLength (v.setWidth 64), v) ∧
      ∀ old, getVarint32 (encodeVarint32 v ++ rest) old = (true, rest, v)) := by
  refine ⟨fun v => ?_, fun v => ?_, fun v rest => ?_, fun v rest => ?_⟩
  · refine ⟨encodeVarint64_eq_varint v, varintLength_eq v, ?_, fun dst => ?_⟩
    · rw [varintLength_eq]; exact varint_length_le_ten v
    · rw [putVarint64, encodeVarint64_eq_varint]
  · have same : (v.setWidth 64).toNat = v.toNat := by
      rw [BitVec.toNat_setWidth]; exact Nat.mod_eq_of_lt (Nat.lt_trans v.isLt (by decide))
    refine ⟨encodeVarint32_eq_varint v, by rw [varintLength_eq, same], ?_, fun dst => ?_⟩
    · rw [varintLength_eq, same]; exact varint_length_le_five v
    · rw [putVarint32, encodeVarint32_eq_varint]
  · exact ⟨getVarint64Ptr_encodeVarint64 v rest, getVarint64_encodeVarint64 v rest⟩
  · exact ⟨getVarint32Ptr_encodeVarint32 v rest, getVarint32PtrFallback_encodeVarint32 v rest,
      getVarint32_encodeVarint32 v rest⟩

example : encodeVarint32 300 = [0xAC, 0x02] := by decide

end Rockscopy.Coding
