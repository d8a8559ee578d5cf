/-
# Rockscopy.Coding.Hash — the Murmur-style `Hash` of `util/hash.cpp`

`Hash(data, n, seed)` starts from `h = seed ^ (n * m)`, mixes four bytes at a
time, each group loaded with `DecodeFixed32`, and then adds the one to three
bytes left. Two of its reads depend on the target (`Platform`):

* `DecodeFixed32` takes its `memcpy` path because `port::kLittleEndian` is
  hard-coded `true`, so the four bytes are read as a `uint32_t` in the host's
  byte order;
* the tail adds `data[i] << 8 * i` with `data[i]` a plain `char`, which is
  negative for the bytes from `0x80` on where `char` is signed. The shift of a
  negative `int` is taken as two's complement, which is what compilers do and
  what C++20 defines.

`hashReference` is the spec's description, with little-endian words and
unsigned tail bytes.

* `hash_eq_reference`: on a little-endian host with unsigned `char`, `Hash`
  is the reference, for every byte string and seed.
* `hash_depends_on_platform`: on a signed-`char` target the one-byte string
  `{0x80}` hashes differently, and on a big-endian host so does `{1, 0, 0, 0}`.
* `hash_signedness_only_in_tail`: on a little-endian host the signedness of
  `char` changes no hash of a string whose last `n % 4` bytes are below `0x80`.
-/
import Rockscopy.Coding.Varint

namespace Rockscopy.Coding

set_option autoImplicit false

/-- What `Hash` reads differently from one target to another. -/
structure Platform where
  charSigned : Bool
  littleEndian : Bool
deriving DecidableEq, Repr

/-- `const uint32_t m = 0xc6a4a793`. -/
def hashMul : BitVec 32 := 0xc6a4a793

/-- `h *= m; h ^= (h >> shift)`. -/
def mix (h : BitVec 32) (shift : Nat) : BitVec 32 :=
  let h := h * hashMul
  h ^^^ h >>> shift

/-- `DecodeFixed32(ptr)`: the `memcpy` of the bytes `b0 b1 b2 b3` into a `uint32_t`,
read in the host's byte order. -/
def decodeFixed32 (platform : Platform) (b0 b1 b2 b3 : Byte) : BitVec 32 :=
  if platform.littleEndian then
    BitVec.ofNat 32 (b0.toNat + 2 ^ 8 * b1.toNat + 2 ^ 16 * b2.toNat + 2 ^ 24 * b3.toNat)
  else BitVec.ofNat 32 (b3.toNat + 2 ^ 8 * b2.toNat + 2 ^ 16 * b1.toNat + 2 ^ 24 * b0.toNat)

/-- A `char` promoted to `int`. -/
def charValue (platform : Platform) (b : Byte) : Int :=
  if platform.charSigned then b.toInt else b.toNat

/-- `while (data + 4 <= limit)`: `h` after the full groups, and the bytes left. -/
def hashGroups (platform : Platform) (h : BitVec 32) : List Byte → BitVec 32 × List Byte
  | b0 :: b1 :: b2 :: b3 :: rest => hashGroups platform (mix (h + decodeFixed32 platform b0 b1 b2 b3) 16) rest
  | rest => (h, rest)

/-- `switch (limit - data)`, each case falling through to the next; `r = 24`. -/
def hashTail (platform : Platform) (h : BitVec 32) : List Byte → BitVec 32
  | [b0, b1, b2] =>
      mix (h + BitVec.ofInt 32 (charValue platform b2 * 2 ^ 16) + BitVec.ofInt 32 (charValue platform b1 * 2 ^ 8) +
        BitVec.ofInt 32 (charValue platform b0)) 24
  | [b0, b1] => mix (h + BitVec.ofInt 32 (charValue platform b1 * 2 ^ 8) + BitVec.ofInt 32 (charValue platform b0)) 24
  | [b0] => mix (h + BitVec.ofInt 32 (charValue platform b0)) 24
  | _ => h

/-- `Hash(data, n, seed)`: `n * m` is a `size_t` product, truncated on the store into `h`. -/
def hash (platform : Platform) (data : List Byte) (seed : BitVec 32) : BitVec 32 :=
  let h := (seed.setWidth 64 ^^^ BitVec.ofNat 64 data.length * hashMul.setWidth 64).setWidth 32
  let (h, rest) := hashGroups platform h data
  hashTail platform h rest

/-! ## The reference -/

/-- The value of bytes read least significant first. -/
def littleEndian : List Byte → Nat
  | [] => 0
  | b :: rest => b.toNat + 2 ^ 8 * littleEndian rest

/-- The spec's hash from `h`: for each full group of four bytes, with `w` its little-endian
value, `h = (h + w) * m` and `h ^= h >> 16`; a tail of one to three bytes adds
`byte[2] << 16`, `byte[1] << 8` and `byte[0]`, each unsigned, then `h *= m` and
`h ^= h >> 24`. -/
def referenceFrom (h : BitVec 32) : List Byte → BitVec 32
  | b0 :: b1 :: b2 :: b3 :: rest =>
      let h := (h + BitVec.ofNat 32 (littleEndian [b0, b1, b2, b3])) * hashMul
      referenceFrom (h ^^^ h >>> 16) rest
  | [] => h
  | tail =>
      let h := (h + BitVec.ofNat 32 (littleEndian tail)) * hashMul
      h ^^^ h >>> 24

/-- The spec's hash: `h = seed ^ (n * m mod 2 ^ 32)`, then `referenceFrom`. -/
def hashReference (data : List Byte) (seed : BitVec 32) : BitVec 32 :=
  referenceFrom (seed ^^^ BitVec.ofNat 32 (data.length * 0xc6a4a793)) data

/-! ## On a little-endian host with unsigned `char` -/

/-- The target the reference describes. -/
def referencePlatform : Platform :=
  { charSigned := false, littleEndian := true }

/-- The empty string hashes to its seed, on every target. -/
theorem hash_nil (platform : Platform) (seed : BitVec 32) : hash platform [] seed = seed := by
  apply BitVec.eq_of_toNat_eq
  simp [hash, hashGroups, hashTail]

/-- `h = seed ^ (n * m)`: the `size_t` product keeps its low 32 bits on the store. -/
theorem hash_seed (seed : BitVec 32) (n : Nat) :
    (seed.setWidth 64 ^^^ BitVec.ofNat 64 n * hashMul.setWidth 64).setWidth 32 =
      seed ^^^ BitVec.ofNat 32 (n * 0xc6a4a793) := by
  rw [BitVec.setWidth_xor, BitVec.setWidth_setWidth_of_le _ (by decide), BitVec.setWidth_eq]
  congr 1
  apply BitVec.eq_of_toNat_eq
  have mul : (hashMul.setWidth 64).toNat = 0xc6a4a793 := rfl
  have low : n % 2 ^ 64 % 2 ^ 32 = n % 2 ^ 32 := Nat.mod_mod_of_dvd _ (by decide)
  rw [BitVec.toNat_setWidth, BitVec.toNat_mul, mul, BitVec.toNat_ofNat, BitVec.toNat_ofNat,
    Nat.mod_mod_of_dvd _ (by decide), Nat.mul_mod, low, ← Nat.mul_mod]

/-- An unsigned `char` shifted into an `int` adds its value. -/
theorem ofInt_charValue (b : Byte) (k : Nat) :
    BitVec.ofInt 32 (charValue referencePlatform b * 2 ^ k) = BitVec.ofNat 32 (b.toNat * 2 ^ k) := by
  rw [charValue, if_neg (by decide), ← BitVec.ofInt_natCast]
  push_cast
  rfl

theorem ofInt_charValue_zero (b : Byte) :
    BitVec.ofInt 32 (charValue referencePlatform b) = BitVec.ofNat 32 b.toNat := by
  simpa using ofInt_charValue b 0

/-- The tail adds the little-endian value of the bytes left. -/
theorem hashTail_reference (h : BitVec 32) :
    ∀ tail : List Byte, tail.length < 4 → hashTail referencePlatform h tail = referenceFrom h tail
  | [], _ => rfl
  | [b0], _ => by
      show mix _ 24 = mix _ 24
      rw [ofInt_charValue_zero]
      rfl
  | [b0, b1], _ => by
      show mix _ 24 = mix _ 24
      rw [ofInt_charValue_zero, ofInt_charValue]
      congr 1
      apply BitVec.eq_of_toNat_eq
      have := b0.isLt; have := b1.isLt
      simp only [BitVec.toNat_add, BitVec.toNat_ofNat, littleEndian]
      omega
  | [b0, b1, b2], _ => by
      show mix _ 24 = mix _ 24
      rw [ofInt_charValue_zero, ofInt_charValue, ofInt_charValue]
      congr 1
      apply BitVec.eq_of_toNat_eq
      have := b0.isLt; have := b1.isLt; have := b2.isLt
      simp only [BitVec.toNat_add, BitVec.toNat_ofNat, littleEndian]
      omega
  | _ :: _ :: _ :: _ :: _, short => by simp only [List.length_cons] at short; omega

/-- The groups and the tail together are the reference, from any `h`. -/
theorem hashGroups_reference (h : BitVec 32) :
    ∀ data : List Byte,
      hashTail referencePlatform (hashGroups referencePlatform h data).1 (hashGroups referencePlatform h data).2 =
        referenceFrom h data
  | b0 :: b1 :: b2 :: b3 :: rest => by
      have word : decodeFixed32 referencePlatform b0 b1 b2 b3 = BitVec.ofNat 32 (littleEndian [b0, b1, b2, b3]) := by
        rw [decodeFixed32, if_pos (show referencePlatform.littleEndian = true from rfl)]
        congr 1
        simp only [littleEndian]
        omega
      show hashTail referencePlatform (hashGroups referencePlatform _ rest).1 (hashGroups referencePlatform _ rest).2 = _
      rw [hashGroups_reference _ rest, word]
      rfl
  | [] => rfl
  | [b0] => hashTail_reference h [b0] (by simp)
  | [b0, b1] => hashTail_reference h [b0, b1] (by simp)
  | [b0, b1, b2] => hashTail_reference h [b0, b1, b2] (by simp)

/-- **`Hash` is the reference** on a little-endian host with unsigned `char`, for every
byte string and every seed. -/
theorem hash_eq_reference (data : List Byte) (seed : BitVec 32) :
    hash referencePlatform data seed = hashReference data seed := by
  rw [hash, hash_seed]
  exact hashGroups_reference _ data

/-! ## On other targets -/

/-- **`Hash` depends on the target.** It is the spec's reference on a little-endian host
with unsigned `char`, for every byte string and seed; but where `char` is signed the tail
byte `0x80` is added as `-128`, and on a big-endian host the group `{1, 0, 0, 0}` is
loaded as `2 ^ 24`, and both change the hash. -/
theorem hash_depends_on_platform :
    (∀ data seed, hash referencePlatform data seed = hashReference data seed) ∧
    hash { charSigned := true, littleEndian := true } [0x80] 0 ≠ hashReference [0x80] 0 ∧
    hash { charSigned := false, littleEndian := false } [1, 0, 0, 0] 0 ≠ hashReference [1, 0, 0, 0] 0 :=
  ⟨hash_eq_reference, by decide, by decide⟩

/-! ## Where the signedness of `char` shows -/

/-- A byte below `0x80` is the same `int` whether `char` is signed or not. -/
theorem charValue_of_lt (platform : Platform) {b : Byte} (small : b.toNat < 128) :
    charValue platform b = charValue referencePlatform b := by
  rw [charValue, charValue, if_neg (show ¬ referencePlatform.charSigned = true by decide)]
  split_ifs
  · rw [BitVec.toInt_eq_toNat_cond, if_pos (by omega)]
  · rfl

/-- The groups are loaded alike on every little-endian host. -/
theorem hashGroups_littleEndian (platform : Platform) (little : platform.littleEndian = true) (h : BitVec 32) :
    ∀ data : List Byte, hashGroups platform h data = hashGroups referencePlatform h data
  | b0 :: b1 :: b2 :: b3 :: rest => by
      have word : decodeFixed32 platform b0 b1 b2 b3 = decodeFixed32 referencePlatform b0 b1 b2 b3 := by
        rw [decodeFixed32, decodeFixed32, little]; rfl
      rw [hashGroups, hashGroups, word]
      exact hashGroups_littleEndian platform little _ rest
  | [] => rfl
  | [_] => rfl
  | [_, _] => rfl
  | [_, _, _] => rfl

/-- What the groups leave is the last `n % 4` bytes. -/
theorem hashGroups_snd (platform : Platform) (h : BitVec 32) :
    ∀ data : List Byte, (hashGroups platform h data).2 = data.drop (data.length / 4 * 4)
  | b0 :: b1 :: b2 :: b3 :: rest => by
      rw [hashGroups, hashGroups_snd platform _ rest, List.length_cons, List.length_cons, List.length_cons,
        List.length_cons, show (rest.length + 1 + 1 + 1 + 1) / 4 * 4 = rest.length / 4 * 4 + 4 by omega]
      rfl
  | [] => rfl
  | [a] => by show [a] = _; simp
  | [a, b] => by show [a, b] = _; simp
  | [a, b, c] => by show [a, b, c] = _; simp

/-- A tail of bytes below `0x80` is added alike whether `char` is signed or not. -/
theorem hashTail_of_small (platform : Platform) (h : BitVec 32) :
    ∀ tail : List Byte, (∀ b ∈ tail, b.toNat < 128) → hashTail platform h tail = hashTail referencePlatform h tail
  | [b0, b1, b2], small => by
      simp only [hashTail, charValue_of_lt platform (small b0 (by simp)), charValue_of_lt platform (small b1 (by simp)),
        charValue_of_lt platform (small b2 (by simp))]
  | [b0, b1], small => by
      simp only [hashTail, charValue_of_lt platform (small b0 (by simp)), charValue_of_lt platform (small b1 (by simp))]
  | [b0], small => by simp only [hashTail, charValue_of_lt platform (small b0 (by simp))]
  | [], _ => rfl
  | _ :: _ :: _ :: _ :: _, _ => rfl

/-- **Where signed `char` shows.** On every little-endian host, whether `char` is signed or
not, `Hash` is the spec's reference on every byte string whose last `n % 4` bytes, the ones
the tail switch adds one by one, are all below `0x80`, for every seed. The groups of four are
loaded as unsigned words, so only a tail byte from `0x80` on can tell the targets apart. -/
theorem hash_signedness_only_in_tail (platform : Platform) (little : platform.littleEndian = true)
    (data : List Byte) (seed : BitVec 32) (tailLow : ∀ b ∈ data.drop (data.length / 4 * 4), b.toNat < 128) :
    hash platform data seed = hashReference data seed := by
  rw [← hash_eq_reference, hash, hash, hashGroups_littleEndian platform little]
  exact hashTail_of_small platform _ _ (by rw [hashGroups_snd]; exact tailLow)

theorem hash_signedness_only_in_tail_signed :
    ({ charSigned := true, littleEndian := true } : Platform).littleEndian = true ∧
    (∀ b ∈ ([0x80, 0xff, 0x90, 0xa0, 0x41] : List Byte).drop (5 / 4 * 4), b.toNat < 128) ∧
    hash { charSigned := true, littleEndian := true } [0x80, 0xff, 0x90, 0xa0, 0x41] 7 =
      hashReference [0x80, 0xff, 0x90, 0xa0, 0x41] 7 :=
  ⟨rfl, by decide, hash_signedness_only_in_tail _ rfl _ 7 (by decide)⟩

end Rockscopy.Coding
