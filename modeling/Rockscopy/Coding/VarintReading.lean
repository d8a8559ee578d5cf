/-
# Rockscopy.Coding.VarintReading — what the varint decoders read from any buffer

`Rockscopy.Coding.Varint` shows the decoders read back what the encoders
write. A decoder is also handed bytes no encoder wrote: a corrupted or hostile
buffer, or an encoding padded with `0x80` bytes. This module says what each
decoder returns on every buffer.

`varintReading w maxBytes` is the reference reading. It takes the bytes up to
and including the first one below `128` (`varintPrefix`), fails if there is
none or if there are more than `maxBytes` of them, and otherwise returns their
count and the low `w` bits of the base-128 value they carry (`payload`).

* `getVarintLoop_eq`: the loop shared by `GetVarint32PtrFallback` and
  `GetVarint64Ptr`, from any shift and any partial result whose bits from that
  shift on are clear.
* `varint_decoders_read_every_buffer`: `GetVarint32Ptr` (inline path or
  fallback), `GetVarint32PtrFallback` and `GetVarint64Ptr` are the reference
  reading on every buffer, with 5 bytes and 32 bits, or 10 bytes and 64 bits.
  So non-canonical encodings are accepted, and payload bits beyond the width,
  in the fifth byte of a varint32 or the tenth of a varint64, are dropped
  without an error.
* `varint_encoders_write_shortest`: what the encoders write is still the shortest
  encoding the decoders accept, and, below the last byte a width allows, the
  only one of that length.
* `varint_widths_interoperate`: `GetVarint64Ptr` reads what `EncodeVarint32`
  writes; `GetVarint32Ptr` reads what `EncodeVarint64` writes for a value below
  `2 ^ 35` as its low 32 bits, dropping the rest without an error, and fails
  from `2 ^ 35` on.
-/
import Rockscopy.Coding.Varint

namespace Rockscopy.Coding

set_option autoImplicit false

/-- The value a run of varint bytes carries: seven bits a byte, least significant group first. -/
def payload : List Byte → Nat
  | [] => 0
  | b :: rest => b.toNat % 128 + 128 * payload rest

/-- The bytes up to and including the first one below `128`, if one occurs. -/
def varintPrefix : List Byte → Option (List Byte)
  | [] => none
  | b :: rest => if b.toNat < 128 then some [b] else (varintPrefix rest).map (b :: ·)

/-- The reference reading of a varint of `w` bits and at most `maxBytes` bytes: how many
bytes it spans and the low `w` bits of what they carry. -/
def varintReading (w maxBytes : Nat) (bytes : List Byte) : Option (Nat × BitVec w) :=
  (varintPrefix bytes).bind fun pre =>
    if pre.length ≤ maxBytes then some (pre.length, BitVec.ofNat w (payload pre)) else none

example : varintReading 32 5 [0x80, 0x00, 0x41] = some (2, 0) := by decide

theorem varintPrefix_length_pos {bytes pre : List Byte} (found : varintPrefix bytes = some pre) : 0 < pre.length := by
  induction bytes generalizing pre with
  | nil => cases found
  | cons b rest ih =>
      unfold varintPrefix at found
      split_ifs at found
      · cases found; exact Nat.one_pos
      · obtain ⟨pre', -, rfl⟩ := Option.map_eq_some'.mp found
        exact Nat.succ_pos _

/-- `n` bytes carry less than `2 ^ (7 * n)`. -/
theorem payload_lt (pre : List Byte) : payload pre < 2 ^ (7 * pre.length) := by
  induction pre with
  | nil => exact Nat.one_pos
  | cons b rest ih =>
      rw [payload, List.length_cons, Nat.mul_succ, Nat.pow_add]
      have := b.toNat.mod_lt (show 0 < 128 by decide)
      change _ < _ * 128
      omega

theorem varintPrefix_take {bytes pre : List Byte} (found : varintPrefix bytes = some pre) :
    bytes.take pre.length = pre := by
  induction bytes generalizing pre with
  | nil => cases found
  | cons b rest ih =>
      unfold varintPrefix at found
      split_ifs at found
      · cases found; rfl
      · obtain ⟨pre', found', rfl⟩ := Option.map_eq_some'.mp found
        rw [List.length_cons, List.take_succ_cons, ih found']

/-- A run of varint bytes as long as the format's bytes for what it carries is those bytes:
the format writes no byte the value does not need, and each byte's group and high bit
are fixed by the value. -/
theorem varintPrefix_varint {bytes pre : List Byte} (found : varintPrefix bytes = some pre)
    (same : (varint (payload pre)).length = pre.length) : pre = varint (payload pre) := by
  induction bytes generalizing pre with
  | nil => cases found
  | cons b rest ih =>
      have byte := b.isLt
      unfold varintPrefix at found
      split_ifs at found with stop
      · cases found
        rw [payload, payload, Nat.mod_eq_of_lt stop, Nat.mul_zero, Nat.add_zero, varint_of_lt stop,
          BitVec.ofNat_toNat, BitVec.setWidth_eq]
      · obtain ⟨pre', found', rfl⟩ := Option.map_eq_some'.mp found
        have long := varintPrefix_length_pos found'
        have big : 128 ≤ payload (b :: pre') := by
          by_contra small
          rw [varint_of_lt (by omega), List.length_singleton, List.length_cons] at same
          omega
        have group : payload (b :: pre') % 128 = b.toNat % 128 := by rw [payload]; omega
        have high : payload (b :: pre') / 128 = payload pre' := by rw [payload]; omega
        rw [varint_of_le big, group, high] at same ⊢
        simp only [List.length_cons] at same
        have first : BitVec.ofNat 8 (b.toNat % 128 + 128) = b := by
          apply BitVec.eq_of_toNat_eq
          rw [BitVec.toNat_ofNat]
          omega
        rw [first, ← ih found' (Nat.succ.inj same)]

/-- OR-ing `x << shift` into a `result` whose bits from `shift` on are clear adds
`x * 2 ^ shift`, modulo `2 ^ w`: what is shifted past the top is lost. -/
theorem or_shiftLeft_eq_ofNat {w : Nat} (result x : BitVec w) (shift : Nat) (low : result.toNat < 2 ^ shift) :
    result ||| x <<< shift = BitVec.ofNat w (result.toNat + x.toNat * 2 ^ shift) := by
  have disjoint : result &&& x <<< shift = 0 := by
    ext j
    simp only [BitVec.getLsbD_and, BitVec.getLsbD_shiftLeft, BitVec.getLsbD_zero]
    by_cases below : j.val < shift
    · simp [below]
    · have clear : result.getLsbD j = false :=
        Nat.testBit_eq_false_of_lt (Nat.lt_of_lt_of_le low (Nat.pow_le_pow_right (by decide) (by omega)))
      simp [clear]
  rw [← BitVec.add_eq_or_of_and_eq_zero _ _ disjoint]
  apply BitVec.eq_of_toNat_eq
  rw [BitVec.toNat_add, BitVec.toNat_shiftLeft, BitVec.toNat_ofNat, Nat.shiftLeft_eq, Nat.add_mod_mod]

/-- A byte's low seven bits, widened to `w ≥ 8` bits. -/
theorem toNat_group {w : Nat} (b : Byte) (wide : 8 ≤ w) : (b.setWidth w &&& 127).toNat = b.toNat % 128 := by
  have mask : (127 : BitVec w).toNat = 2 ^ 7 - 1 :=
    Nat.mod_eq_of_lt (Nat.lt_of_lt_of_le (by decide) (Nat.pow_le_pow_right (by decide) wide))
  rw [BitVec.toNat_and, toNat_byte_setWidth b wide, mask]
  exact Nat.and_pow_two_sub_one_eq_mod _ 7

/-- A group added at `shift` to a result below `2 ^ shift` leaves it below `2 ^ (shift + 7)`. -/
theorem add_group_lt {w shift r g : Nat} (low : r < 2 ^ shift) (group : g < 128) :
    (r + g * 2 ^ shift) % 2 ^ w < 2 ^ (shift + 7) := by
  have scaled : g * 2 ^ shift ≤ 127 * 2 ^ shift := Nat.mul_le_mul_right _ (by omega)
  calc (r + g * 2 ^ shift) % 2 ^ w
      ≤ r + g * 2 ^ shift := Nat.mod_le _ _
    _ < 2 ^ shift * 2 ^ 7 := by omega
    _ = 2 ^ (shift + 7) := (Nat.pow_add 2 shift 7).symm

/-- Folding the later groups in after this one, modulo `2 ^ w`. -/
theorem ofNat_add_group {w shift : Nat} (r g p : Nat) :
    BitVec.ofNat w ((r + g * 2 ^ shift) % 2 ^ w + p * 2 ^ (shift + 7)) =
      BitVec.ofNat w (r + (g + 128 * p) * 2 ^ shift) := by
  apply BitVec.eq_of_toNat_eq
  rw [BitVec.toNat_ofNat, BitVec.toNat_ofNat, Nat.mod_add_mod, Nat.pow_add]
  exact congrArg (· % 2 ^ w) (by ring)

/-- **The decoding loop on every buffer.** From `shift`, with the bits of `result` from
`shift` on clear, the loop reads up to the first byte below `128`, fails when there is none
or when the last group would be read past `lastShift`, and otherwise adds what the bytes
carry at `shift`, modulo `2 ^ w`. -/
theorem getVarintLoop_eq {w lastShift : Nat} (wide : 8 ≤ w) (bytes : List Byte) :
    ∀ shift (result : BitVec w), result.toNat < 2 ^ shift →
      getVarintLoop w lastShift shift result bytes =
        (varintPrefix bytes).bind fun pre =>
          if shift + 7 * (pre.length - 1) ≤ lastShift then
            some (pre.length, BitVec.ofNat w (result.toNat + payload pre * 2 ^ shift))
          else none := by
  induction bytes with
  | nil => intro shift result _; unfold getVarintLoop; split_ifs <;> rfl
  | cons b rest ih =>
      intro shift result low
      unfold getVarintLoop varintPrefix
      dsimp only
      by_cases allowed : shift ≤ lastShift
      · rw [if_pos allowed]
        by_cases stop : b.toNat < 128
        · have clear : ¬ (b.setWidth w &&& 128 ≠ 0) := fun more => more ((msb_clear b wide).mpr stop)
          rw [if_neg clear, if_pos stop]
          simp only [Option.some_bind, List.length_singleton, Nat.sub_self, Nat.mul_zero, Nat.add_zero,
            if_pos allowed, payload, Nat.mod_eq_of_lt stop, or_shiftLeft_eq_ofNat _ _ _ low, toNat_byte_setWidth b wide]
        · have more : b.setWidth w &&& 128 ≠ 0 := fun clear => stop ((msb_clear b wide).mp clear)
          have step := or_shiftLeft_eq_ofNat result (b.setWidth w &&& 127) shift low
          rw [toNat_group b wide] at step
          have below : (result ||| (b.setWidth w &&& 127) <<< shift).toNat < 2 ^ (shift + 7) := by
            rw [step, BitVec.toNat_ofNat]
            exact add_group_lt low (b.toNat.mod_lt (by decide))
          rw [if_pos more, if_neg stop, ih _ _ below]
          cases found : varintPrefix rest with
          | none => rfl
          | some pre =>
              have long := varintPrefix_length_pos found
              simp only [Option.some_bind, Option.map_some', List.length_cons]
              rw [show shift + 7 + 7 * (pre.length - 1) = shift + 7 * (pre.length + 1 - 1) by omega]
              split_ifs
              · rw [step, BitVec.toNat_ofNat, Option.map_some', ofNat_add_group]
                rfl
              · rfl
      · rw [if_neg allowed]
        cases found : (if b.toNat < 128 then some [b] else (varintPrefix rest).map (b :: ·)) with
        | none => rfl
        | some pre =>
            simp only [Option.some_bind]
            rw [if_neg (by omega)]

/-- From the start, the loop is the reference reading of `lastShift / 7 + 1` bytes. -/
theorem getVarintLoop_zero_eq {w lastShift : Nat} (wide : 8 ≤ w) (bytes : List Byte) :
    getVarintLoop w lastShift 0 0 bytes = varintReading w (lastShift / 7 + 1) bytes := by
  rw [getVarintLoop_eq wide bytes 0 0 (by simp), varintReading]
  congr 1
  funext pre
  have start : (0 : BitVec w).toNat + payload pre * 2 ^ 0 = payload pre := by simp
  rw [start]
  by_cases fits : pre.length ≤ lastShift / 7 + 1
  · rw [if_pos (by omega), if_pos fits]
  · rw [if_neg (by omega), if_neg fits]

/-- `GetVarint32Ptr`'s inline path reads a one-byte varint as the fallback would. -/
theorem getVarint32Ptr_eq_varintReading (bytes : List Byte) : getVarint32Ptr bytes = varintReading 32 5 bytes := by
  have fallback : getVarint32PtrFallback bytes = varintReading 32 5 bytes := getVarintLoop_zero_eq (by decide) bytes
  unfold getVarint32Ptr
  split
  · rename_i b rest
    split_ifs with fast
    · have stop := (msb_clear b (by decide)).mp fast
      rw [varintReading, varintPrefix, if_pos stop]
      have value : b.setWidth 32 = BitVec.ofNat 32 (payload [b]) := by
        apply BitVec.eq_of_toNat_eq
        rw [toNat_byte_setWidth b (by decide), BitVec.toNat_ofNat, payload, payload, Nat.mod_eq_of_lt stop]
        omega
      rw [value]
      rfl
    · exact fallback
  · exact fallback

/-- **The varint decoders on every buffer.** `GetVarint32Ptr`, through its inline path or
its fallback, and `GetVarint32PtrFallback` return the reference reading of at most 5 bytes
and 32 bits, and `GetVarint64Ptr` the reference reading of at most 10 bytes and 64 bits,
whatever the buffer holds: canonical or padded encodings, overflowing payloads, or no
terminating byte. -/
theorem varint_decoders_read_every_buffer (bytes : List Byte) :
    getVarint32Ptr bytes = varintReading 32 5 bytes ∧
    getVarint32PtrFallback bytes = varintReading 32 5 bytes ∧
    getVarint64Ptr bytes = varintReading 64 10 bytes :=
  ⟨getVarint32Ptr_eq_varintReading bytes, getVarintLoop_zero_eq (by decide) bytes,
    getVarintLoop_zero_eq (by decide) bytes⟩

/-- A reading of `v` spans at least as many bytes as the format writes for `v`; when the
bytes it spans carry at most `w` bits, one of exactly that many bytes is the format's. -/
theorem varintReading_shortest {w maxBytes n : Nat} {bytes : List Byte} {v : BitVec w}
    (read : varintReading w maxBytes bytes = some (n, v)) :
    (varint v.toNat).length ≤ n ∧ ((varint v.toNat).length = n → 7 * n ≤ w → bytes.take n = varint v.toNat) := by
  obtain ⟨pre, found, accepted⟩ := Option.bind_eq_some.mp read
  split_ifs at accepted
  cases accepted
  have long := varintPrefix_length_pos found
  have bound := payload_lt pre
  have small : (BitVec.ofNat w (payload pre)).toNat < 2 ^ (7 * (pre.length - 1 + 1)) := by
    rw [Nat.sub_add_cancel long, BitVec.toNat_ofNat]
    exact Nat.lt_of_le_of_lt (Nat.mod_le _ _) bound
  refine ⟨by have := varint_length_le _ _ small; omega, fun same fits => ?_⟩
  have exact : (BitVec.ofNat w (payload pre)).toNat = payload pre :=
    Nat.mod_eq_of_lt (Nat.lt_of_lt_of_le bound (Nat.pow_le_pow_right (by decide) fits))
  rw [exact] at same ⊢
  rw [varintPrefix_take found, ← varintPrefix_varint found same]

/-- **The encoders write the shortest encoding.** Whatever buffer a decoder reads `v` from,
it spans at least `VarintLength(v)` bytes, what `EncodeVarint64` and `EncodeVarint32` write
for `v`; and a reading of exactly that many bytes, short of the tenth byte of a varint64 or
the fifth of a varint32, spans the encoder's bytes. Only in that last byte can other bytes
of the same length read as `v`, their payload bits beyond the width being dropped. -/
theorem varint_encoders_write_shortest (bytes : List Byte) :
    (∀ n v, getVarint64Ptr bytes = some (n, v) →
      varintLength v ≤ n ∧ (varintLength v = n → n < 10 → bytes.take n = encodeVarint64 v)) ∧
    (∀ n v, getVarint32Ptr bytes = some (n, v) →
      (encodeVarint32 v).length ≤ n ∧ ((encodeVarint32 v).length = n → n < 5 → bytes.take n = encodeVarint32 v)) := by
  refine ⟨fun n v read => ?_, fun n v read => ?_⟩
  · rw [getVarint64Ptr, getVarintLoop_zero_eq (by decide)] at read
    rw [varintLength_eq, encodeVarint64_eq_varint]
    obtain ⟨shortest, unique⟩ := varintReading_shortest read
    exact ⟨shortest, fun same below => unique same (by omega)⟩
  · rw [getVarint32Ptr_eq_varintReading] at read
    rw [encodeVarint32_eq_varint]
    obtain ⟨shortest, unique⟩ := varintReading_shortest read
    exact ⟨shortest, fun same below => unique same (by omega)⟩

/-! ## Reading the other width -/

theorem varintPrefix_varint_append (n : Nat) (rest : List Byte) : varintPrefix (varint n ++ rest) = some (varint n) := by
  induction n using Nat.strong_induction_on with
  | _ n ih =>
    by_cases big : 128 ≤ n
    · have byte : (BitVec.ofNat 8 (n % 128 + 128)).toNat = n % 128 + 128 := by rw [BitVec.toNat_ofNat]; omega
      rw [varint_of_le big, List.cons_append, varintPrefix, byte, if_neg (by omega), ih (n / 128) (by omega),
        Option.map_some']
    · have byte : (BitVec.ofNat 8 n).toNat = n := by rw [BitVec.toNat_ofNat]; omega
      rw [varint_of_lt (by omega), List.singleton_append, varintPrefix, byte, if_pos (by omega)]

theorem payload_varint (n : Nat) : payload (varint n) = n := by
  induction n using Nat.strong_induction_on with
  | _ n ih =>
    by_cases big : 128 ≤ n
    · rw [varint_of_le big, payload, ih (n / 128) (by omega), BitVec.toNat_ofNat]; omega
    · rw [varint_of_lt (by omega), payload, payload, BitVec.toNat_ofNat]; omega

/-- A value whose varint takes at most `k + 1` bytes is below `2 ^ (7 * (k + 1))`. -/
theorem lt_of_varint_length_le (k : Nat) : ∀ n, (varint n).length ≤ k + 1 → n < 2 ^ (7 * (k + 1)) := by
  induction k with
  | zero =>
      intro n short
      show n < 128
      by_contra big
      rw [varint_of_le (by omega), List.length_cons] at short
      have := List.length_pos.mpr (varint_ne_nil (n / 128))
      omega
  | succ k ih =>
      intro n short
      have power : 2 ^ (7 * (k + 1 + 1)) = 2 ^ (7 * (k + 1)) * 128 := by
        rw [show 7 * (k + 1 + 1) = 7 * (k + 1) + 7 by omega, Nat.pow_add]
      by_cases big : 128 ≤ n
      · rw [varint_of_le big, List.length_cons] at short
        have := ih (n / 128) (by omega)
        omega
      · have : 1 ≤ 2 ^ (7 * (k + 1)) := Nat.one_le_two_pow
        omega

/-- The reference reading of the format's bytes for `n`: all of them, and the low `w` bits of
`n`, if they fit in `maxBytes`. -/
theorem varintReading_varint (w maxBytes n : Nat) (rest : List Byte) :
    varintReading w maxBytes (varint n ++ rest) =
      if (varint n).length ≤ maxBytes then some ((varint n).length, BitVec.ofNat w n) else none := by
  rw [varintReading, varintPrefix_varint_append, Option.some_bind, payload_varint]

/-- **The two widths read each other's varints.** `GetVarint64Ptr` reads what
`EncodeVarint32` writes as the same value. `GetVarint32Ptr` reads what `EncodeVarint64`
writes for a value below `2 ^ 35`, five bytes at most, as the value's low 32 bits: bits 32 to
34 are dropped without an error. From `2 ^ 35` on the encoding is longer than five bytes, and
`GetVarint32Ptr` fails. -/
theorem varint_widths_interoperate (v32 : BitVec 32) (v64 : BitVec 64) (rest : List Byte) :
    getVarint64Ptr (encodeVarint32 v32 ++ rest) = some ((encodeVarint32 v32).length, v32.setWidth 64) ∧
    (v64.toNat < 2 ^ 35 → getVarint32Ptr (encodeVarint64 v64 ++ rest) = some (varintLength v64, v64.setWidth 32)) ∧
    (2 ^ 35 ≤ v64.toNat → getVarint32Ptr (encodeVarint64 v64 ++ rest) = none) := by
  have five := varint_length_le_five v32
  rw [getVarint64Ptr, getVarintLoop_zero_eq (by decide), getVarint32Ptr_eq_varintReading, encodeVarint32_eq_varint,
    encodeVarint64_eq_varint, varintReading_varint, varintReading_varint, if_pos (by omega), varintLength_eq,
    BitVec.ofNat_toNat]
  refine ⟨rfl, fun small => ?_, fun large => ?_⟩
  · rw [if_pos (varint_length_le 4 _ small), BitVec.ofNat_toNat]
  · rw [if_neg fun short => by have := lt_of_varint_length_le 4 _ short; omega]

end Rockscopy.Coding
