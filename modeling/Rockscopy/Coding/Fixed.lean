/-
# Rockscopy.Coding.Fixed — fixed-width integers and the host's byte order

`EncodeFixed32` and `EncodeFixed64` `memcpy` the value into the buffer, so they
write the bytes in the host's order (`storeHost`); `PutFixed32` and
`PutFixed64` append those bytes to `*dst`. `DecodeFixed32` and `DecodeFixed64`
take their `memcpy` path, since `port::kLittleEndian` is hard-coded `true`, and
load the bytes in the host's order too. Their `else` branches, which this build
never takes, assemble the value from its bytes, least significant first,
whatever the host.

* `fixed_round_trip`: on every host, `PutFixed32` and `PutFixed64` append 4 and
  8 bytes, and `DecodeFixed32` and `DecodeFixed64` read the value back from
  them, whatever follows: both sides copy in the host's order.
* `decodeFixed_memcpy_matches_portable`: on a little-endian host the `memcpy`
  path of both decoders returns what their portable `else` branch returns, on
  every buffer of the width.
* `encodeFixed_little_endian_iff`: the encoders write the value least
  significant byte first, the layout `coding.h` documents, exactly on a
  little-endian host.
-/
import Rockscopy.Coding.Hash
import Rockscopy.Coding.VarintReading

namespace Rockscopy.Coding

set_option autoImplicit false

/-! ## Bytes in memory -/

/-- The low `n` bytes of `value`, least significant first. -/
def leBytes : Nat → Nat → List Byte
  | 0, _ => []
  | n + 1, value => BitVec.ofNat 8 value :: leBytes n (value / 2 ^ 8)

/-- `memcpy` out of an `n`-byte integer: its bytes in the host's order. -/
def storeHost (platform : Platform) (n value : Nat) : List Byte :=
  if platform.littleEndian then leBytes n value else (leBytes n value).reverse

/-- `memcpy` into an integer: the value the host reads from these bytes. -/
def loadHost (platform : Platform) (bytes : List Byte) : Nat :=
  if platform.littleEndian then littleEndian bytes else littleEndian bytes.reverse

@[simp] theorem length_leBytes (n value : Nat) : (leBytes n value).length = n := by
  induction n generalizing value with
  | zero => rfl
  | succ n ih => rw [leBytes, List.length_cons, ih]

@[simp] theorem length_storeHost (platform : Platform) (n value : Nat) : (storeHost platform n value).length = n := by
  unfold storeHost; split_ifs <;> simp

theorem littleEndian_leBytes (n : Nat) : ∀ value, littleEndian (leBytes n value) = value % 2 ^ (8 * n) := by
  induction n with
  | zero => intro value; rw [leBytes, littleEndian, Nat.mul_zero, Nat.pow_zero, Nat.mod_one]
  | succ n ih =>
      intro value
      rw [leBytes, littleEndian, ih, BitVec.toNat_ofNat, Nat.mul_succ, Nat.add_comm (8 * n), Nat.pow_add,
        Nat.mod_mul]

/-- What the host stores, the host loads back. -/
theorem loadHost_storeHost (platform : Platform) (n value : Nat) :
    loadHost platform (storeHost platform n value) = value % 2 ^ (8 * n) := by
  unfold loadHost storeHost
  cases platform.littleEndian <;> simp [littleEndian_leBytes]

/-! ## The source functions -/

/-- `EncodeFixed32(buf, value)`: the four bytes it writes at `buf`. -/
def encodeFixed32 (platform : Platform) (value : BitVec 32) : List Byte :=
  storeHost platform 4 value.toNat

/-- `EncodeFixed64(buf, value)`: the eight bytes it writes at `buf`. -/
def encodeFixed64 (platform : Platform) (value : BitVec 64) : List Byte :=
  storeHost platform 8 value.toNat

/-- `PutFixed32(dst, value)`: `*dst` after it. -/
def putFixed32 (platform : Platform) (dst : List Byte) (value : BitVec 32) : List Byte :=
  dst ++ encodeFixed32 platform value

/-- `PutFixed64(dst, value)`: `*dst` after it. -/
def putFixed64 (platform : Platform) (dst : List Byte) (value : BitVec 64) : List Byte :=
  dst ++ encodeFixed64 platform value

/-- `DecodeFixed64(ptr)` on the bytes from `ptr` on: `port::kLittleEndian` is `true`, so it
loads the eight bytes as a `uint64_t`, in the host's byte order. -/
def decodeFixed64 (platform : Platform) (ptr : List Byte) : BitVec 64 :=
  BitVec.ofNat 64 (loadHost platform (ptr.take 8))

/-- The `else` branch of `DecodeFixed32`: the four bytes, each widened from `unsigned char`,
shifted to their place, least significant first. -/
def decodeFixed32Portable (b0 b1 b2 b3 : Byte) : BitVec 32 :=
  b0.setWidth 32 ||| b1.setWidth 32 <<< 8 ||| b2.setWidth 32 <<< 16 ||| b3.setWidth 32 <<< 24

/-- The `else` branch of `DecodeFixed64`: `lo = DecodeFixed32(ptr)`, `hi = DecodeFixed32(ptr + 4)`,
and `(hi << 32) | lo`, where `DecodeFixed32` takes its own `else` branch. -/
def decodeFixed64Portable (ptr : List Byte) : BitVec 64 :=
  let lo : BitVec 64 := (decodeFixed32Portable (ptr.getD 0 0) (ptr.getD 1 0) (ptr.getD 2 0) (ptr.getD 3 0)).setWidth 64
  let hi : BitVec 64 := (decodeFixed32Portable (ptr.getD 4 0) (ptr.getD 5 0) (ptr.getD 6 0) (ptr.getD 7 0)).setWidth 64
  hi <<< 32 ||| lo

example : decodeFixed32Portable 0x78 0x56 0x34 0x12 = 0x12345678 := by decide

/-- `DecodeFixed32` loads its four bytes in the host's order. -/
theorem decodeFixed32_eq_loadHost (platform : Platform) (b0 b1 b2 b3 : Byte) :
    decodeFixed32 platform b0 b1 b2 b3 = BitVec.ofNat 32 (loadHost platform [b0, b1, b2, b3]) := by
  unfold decodeFixed32 loadHost
  cases platform.littleEndian <;> simp only [littleEndian, List.reverse_cons, List.reverse_nil, List.nil_append,
    List.cons_append, if_true, if_false, Bool.false_eq_true] <;> exact congrArg (BitVec.ofNat 32) (by ring)

/-! ## The round trip -/

/-- **Fixed-width round trip, on every host.** `PutFixed32` and `PutFixed64` append four and
eight bytes to `*dst`, and `DecodeFixed32` and `DecodeFixed64`, given those bytes and
whatever follows them, return the value: both sides copy in the host's byte order. -/
theorem fixed_round_trip (platform : Platform) (dst rest : List Byte) (v32 : BitVec 32) (v64 : BitVec 64) :
    (∃ b0 b1 b2 b3, (putFixed32 platform dst v32 ++ rest).drop dst.length = b0 :: b1 :: b2 :: b3 :: rest ∧
      decodeFixed32 platform b0 b1 b2 b3 = v32) ∧
    (putFixed64 platform dst v64).length = dst.length + 8 ∧
      decodeFixed64 platform ((putFixed64 platform dst v64 ++ rest).drop dst.length) = v64 := by
  have load32 := loadHost_storeHost platform 4 v32.toNat
  have load64 := loadHost_storeHost platform 8 v64.toNat
  refine ⟨?_, by simp [putFixed64, encodeFixed64], ?_⟩
  · obtain ⟨bytes, written⟩ : ∃ bytes, encodeFixed32 platform v32 = bytes := ⟨_, rfl⟩
    have four : bytes.length = 4 := by rw [← written, encodeFixed32, length_storeHost]
    match bytes, four with
    | [b0, b1, b2, b3], _ =>
        refine ⟨b0, b1, b2, b3, by rw [putFixed32, written, List.append_assoc, List.drop_left]; rfl, ?_⟩
        rw [decodeFixed32_eq_loadHost, ← written, encodeFixed32, load32, Nat.mod_eq_of_lt v32.isLt,
          BitVec.ofNat_toNat, BitVec.setWidth_eq]
  · have eight : (encodeFixed64 platform v64).length = 8 := length_storeHost _ _ _
    rw [putFixed64, List.append_assoc, List.drop_left, decodeFixed64, List.take_left' eight, encodeFixed64, load64,
      Nat.mod_eq_of_lt v64.isLt, BitVec.ofNat_toNat, BitVec.setWidth_eq]

/-! ## The portable branches -/

theorem littleEndian_lt (bytes : List Byte) : littleEndian bytes < 2 ^ (8 * bytes.length) := by
  induction bytes with
  | nil => exact Nat.one_pos
  | cons b rest ih =>
      have := b.isLt
      rw [littleEndian, List.length_cons, Nat.mul_succ, Nat.pow_add]
      omega

/-- Bytes stored after others are worth `2 ^ 8` per byte before them. -/
theorem littleEndian_append (first rest : List Byte) :
    littleEndian (first ++ rest) = littleEndian first + 2 ^ (8 * first.length) * littleEndian rest := by
  induction first with
  | nil => rw [List.nil_append, littleEndian, List.length_nil, Nat.mul_zero, Nat.pow_zero, Nat.one_mul, Nat.zero_add]
  | cons b first ih =>
      rw [List.cons_append, littleEndian, littleEndian, ih, List.length_cons, Nat.mul_succ, Nat.add_comm (8 * _),
        Nat.pow_add, Nat.mul_add, Nat.add_assoc, Nat.mul_assoc]

section Words

variable {word : List Byte} (four : word.length = 4)
include four

theorem littleEndian_word_lt : littleEndian word < 2 ^ 32 := by
  have bound := littleEndian_lt word
  rwa [four] at bound

theorem toNat_ofNat_word : (BitVec.ofNat 64 (littleEndian word)).toNat = littleEndian word := by
  rw [BitVec.toNat_ofNat, Nat.mod_eq_of_lt (Nat.lt_trans (littleEndian_word_lt four) (by decide))]

/-- A 32-bit word widened to 64 bits keeps its value. -/
theorem setWidth_ofNat_word : (BitVec.ofNat 32 (littleEndian word)).setWidth 64 = BitVec.ofNat 64 (littleEndian word) := by
  apply BitVec.eq_of_toNat_eq
  rw [BitVec.toNat_setWidth, BitVec.toNat_ofNat, toNat_ofNat_word four, Nat.mod_eq_of_lt (littleEndian_word_lt four),
    Nat.mod_eq_of_lt (Nat.lt_trans (littleEndian_word_lt four) (by decide))]

end Words

theorem setWidth_byte_eq_ofNat {w : Nat} (b : Byte) (wide : 8 ≤ w) : b.setWidth w = BitVec.ofNat w b.toNat := by
  apply BitVec.eq_of_toNat_eq
  rw [toNat_byte_setWidth b wide, BitVec.toNat_ofNat,
    Nat.mod_eq_of_lt (Nat.lt_of_lt_of_le b.isLt (Nat.pow_le_pow_right (by decide) wide))]

/-- OR-ing a byte shifted to `shift` above a value below `2 ^ shift` adds it. -/
theorem ofNat_or_byte_shiftLeft {w : Nat} (low : Nat) (b : Byte) (shift : Nat) (small : low < 2 ^ shift)
    (fits : shift + 8 ≤ w) :
    BitVec.ofNat w low ||| b.setWidth w <<< shift = BitVec.ofNat w (low + b.toNat * 2 ^ shift) := by
  have value : (BitVec.ofNat w low).toNat = low := by
    rw [BitVec.toNat_ofNat, Nat.mod_eq_of_lt (Nat.lt_of_lt_of_le small (Nat.pow_le_pow_right (by decide) (by omega)))]
  rw [or_shiftLeft_eq_ofNat _ _ _ (by rw [value]; exact small), value, toNat_byte_setWidth b (by omega)]

/-- The portable branch of `DecodeFixed32` reads its bytes least significant first. -/
theorem decodeFixed32Portable_eq (b0 b1 b2 b3 : Byte) :
    decodeFixed32Portable b0 b1 b2 b3 = BitVec.ofNat 32 (littleEndian [b0, b1, b2, b3]) := by
  have bound := fun b : Byte => b.isLt
  have lt0 := bound b0
  have lt1 := bound b1
  have lt2 := bound b2
  rw [decodeFixed32Portable, setWidth_byte_eq_ofNat b0 (by decide),
    ofNat_or_byte_shiftLeft _ b1 8 lt0 (by decide),
    ofNat_or_byte_shiftLeft _ b2 16 (by omega) (by decide),
    ofNat_or_byte_shiftLeft _ b3 24 (by omega) (by decide)]
  simp only [littleEndian]
  exact congrArg (BitVec.ofNat 32) (by ring)

/-- **The `memcpy` path agrees with the portable branch on a little-endian host.**
`DecodeFixed32` on every four bytes, and `DecodeFixed64` on every buffer of at least eight
bytes, return what their `else` branch returns. -/
theorem decodeFixed_memcpy_matches_portable (platform : Platform) (little : platform.littleEndian = true) :
    (∀ b0 b1 b2 b3, decodeFixed32 platform b0 b1 b2 b3 = decodeFixed32Portable b0 b1 b2 b3) ∧
    ∀ ptr : List Byte, 8 ≤ ptr.length → decodeFixed64 platform ptr = decodeFixed64Portable ptr := by
  have load : ∀ bytes, loadHost platform bytes = littleEndian bytes := fun bytes => by rw [loadHost, if_pos little]
  refine ⟨fun b0 b1 b2 b3 => by rw [decodeFixed32_eq_loadHost, load, decodeFixed32Portable_eq], fun ptr long => ?_⟩
  match ptr, long with
  | b0 :: b1 :: b2 :: b3 :: b4 :: b5 :: b6 :: b7 :: rest, _ =>
      have low : [b0, b1, b2, b3].length = 4 := rfl
      have high : [b4, b5, b6, b7].length = 4 := rfl
      simp only [decodeFixed64Portable, List.getD_cons_zero, List.getD_cons_succ, decodeFixed32Portable_eq]
      rw [setWidth_ofNat_word low, setWidth_ofNat_word high, BitVec.or_comm,
        or_shiftLeft_eq_ofNat _ _ _ (by rw [toNat_ofNat_word low]; exact littleEndian_word_lt low),
        toNat_ofNat_word low, toNat_ofNat_word high, decodeFixed64, load]
      show BitVec.ofNat 64 (littleEndian ([b0, b1, b2, b3] ++ [b4, b5, b6, b7])) = _
      rw [littleEndian_append, low, Nat.mul_comm (2 ^ _)]

theorem decodeFixed_memcpy_matches_portable_reference :
    referencePlatform.littleEndian = true ∧
    ((∀ b0 b1 b2 b3, decodeFixed32 referencePlatform b0 b1 b2 b3 = decodeFixed32Portable b0 b1 b2 b3) ∧
      ∀ ptr : List Byte, 8 ≤ ptr.length → decodeFixed64 referencePlatform ptr = decodeFixed64Portable ptr) :=
  ⟨rfl, decodeFixed_memcpy_matches_portable referencePlatform rfl⟩

/-! ## The documented layout -/

/-- **The encoders write the documented layout exactly on a little-endian host.**
`EncodeFixed32` and `EncodeFixed64` write every value least significant byte first, as
`coding.h` says fixed-length numbers are encoded, if and only if the host is
little-endian: on a big-endian host `memcpy` writes `1` as `00 .. 00 01`. -/
theorem encodeFixed_little_endian_iff (platform : Platform) :
    ((∀ v : BitVec 32, littleEndian (encodeFixed32 platform v) = v.toNat) ↔ platform.littleEndian = true) ∧
    ((∀ v : BitVec 64, littleEndian (encodeFixed64 platform v) = v.toNat) ↔ platform.littleEndian = true) := by
  cases little : platform.littleEndian with
  | false =>
      have one32 : littleEndian (encodeFixed32 platform 1) ≠ (1 : BitVec 32).toNat := by
        rw [encodeFixed32, storeHost, little]; decide
      have one64 : littleEndian (encodeFixed64 platform 1) ≠ (1 : BitVec 64).toNat := by
        rw [encodeFixed64, storeHost, little]; decide
      exact ⟨⟨fun encodes => absurd (encodes 1) one32, Bool.noConfusion⟩,
        ⟨fun encodes => absurd (encodes 1) one64, Bool.noConfusion⟩⟩
  | true =>
      have stored : ∀ n value, littleEndian (storeHost platform n value) = value % 2 ^ (8 * n) := fun n value => by
        rw [storeHost, little, if_pos rfl, littleEndian_leBytes]
      exact ⟨iff_of_true (fun v => by rw [encodeFixed32, stored, Nat.mod_eq_of_lt v.isLt]) rfl,
        iff_of_true (fun v => by rw [encodeFixed64, stored, Nat.mod_eq_of_lt v.isLt]) rfl⟩

end Rockscopy.Coding
