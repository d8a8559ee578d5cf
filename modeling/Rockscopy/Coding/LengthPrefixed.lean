/-
# Rockscopy.Coding.LengthPrefixed — length-prefixed slices and decode failures

`PutLengthPrefixedSlice` writes `varint32(|s|)` then `s`; the two
`GetLengthPrefixedSlice` forms read it back.

* `lengthPrefixed_round_trip`: below `2 ^ 32` bytes, both forms give back `s`
  and stop at the first byte after it. At `2 ^ 32` bytes the prefix wraps to
  `0` and both forms return the empty string (`lengthPrefixed_wraps`), though the
  format's comment promises strings prefixed by their length.
* `getVarint32_failed`, `getVarint64_failed`: a failing varint decode leaves
  `*input` and `*value` as they were; a succeeding one advances `*input` by the
  bytes it read (`getVarint32_advances`).
* `getLengthPrefixedSlice_false_advanced`: the Slice form consumes the prefix
  through `GetVarint32` before it checks the size, so whenever the prefix
  decodes but declares more bytes than remain, it fails with `*input` already
  past the prefix.
* `decoders_read_within_bound`: on every byte range `[p, limit)`, the varint
  decoders and the pointer form of `GetLengthPrefixedSlice` decide from the
  bytes before the pointer they return (at most 5 for a varint32, 10 for a
  varint64), and that pointer is past `p` and at most `limit`. The pointer form
  fails exactly when the prefix is unterminated within 5 bytes, or declares
  more bytes than remain.
* `getLengthPrefixedSlice_forms_agree`: on every buffer the two forms succeed
  together, and the Slice form then returns the pointer form's slice and moves
  `*input` to the pointer the pointer form returns.
-/
import Rockscopy.Coding.Varint

namespace Rockscopy.Coding

set_option autoImplicit false

/-- A `Slice` into the bytes `[p, limit)` a pointer-form decoder reads: the offset of
its data from `p`, and its size. -/
structure Span where
  start : Nat
  size : Nat
deriving DecidableEq, Repr

/-- The bytes a `Span` of `[p, limit)` covers. -/
def Span.read (bytes : List Byte) (span : Span) : List Byte :=
  (bytes.drop span.start).take span.size

/-- `PutLengthPrefixedSlice(dst, value)`: `value.size()` reaches `PutVarint32` as a `uint32_t`. -/
def putLengthPrefixedSlice (dst value : List Byte) : List Byte :=
  putVarint32 dst (BitVec.ofNat 32 value.length) ++ value

/-- The pointer form `GetLengthPrefixedSlice(p, limit, &result)`: the offset of the
pointer it returns and `*result`. -/
def getLengthPrefixedSlicePtr (bytes : List Byte) : Option (Nat × Span) :=
  match getVarint32Ptr bytes with
  | none => none
  | some (p, len) =>
      if p + len.toNat > bytes.length then none
      else some (p + len.toNat, ⟨p, len.toNat⟩)

/-- The Slice form `GetLengthPrefixedSlice(&input, &result)`: whether it succeeded,
then `*input` and `*result` after it. The local `len` is written by `GetVarint32`
before it is read. -/
def getLengthPrefixedSlice (input result : List Byte) : Bool × List Byte × List Byte :=
  match getVarint32 input 0 with
  | (true, input, len) =>
      if input.length ≥ len.toNat then (true, input.drop len.toNat, input.take len.toNat)
      else (false, input, result)
  | (false, input, _) => (false, input, result)

/-! ## Varint decodes -/

theorem getVarint32_failed {input : List Byte} {value : BitVec 32}
    (failed : (getVarint32 input value).1 = false) : getVarint32 input value = (false, input, value) := by
  unfold getVarint32 at failed ⊢
  split <;> simp_all

theorem getVarint64_failed {input : List Byte} {value : BitVec 64}
    (failed : (getVarint64 input value).1 = false) : getVarint64 input value = (false, input, value) := by
  unfold getVarint64 at failed ⊢
  split <;> simp_all

theorem getVarint32_advances {input : List Byte} {value : BitVec 32}
    (succeeded : (getVarint32 input value).1 = true) :
    ∃ read v, getVarint32Ptr input = some (read, v) ∧
      getVarint32 input value = (true, input.drop read, v) := by
  unfold getVarint32 at succeeded ⊢
  split <;> simp_all

theorem getVarint64_advances {input : List Byte} {value : BitVec 64}
    (succeeded : (getVarint64 input value).1 = true) :
    ∃ read v, getVarint64Ptr input = some (read, v) ∧
      getVarint64 input value = (true, input.drop read, v) := by
  unfold getVarint64 at succeeded ⊢
  split <;> simp_all

/-! ## Length-prefixed slices -/

theorem putLengthPrefixedSlice_eq (dst value : List Byte) :
    putLengthPrefixedSlice dst value = dst ++ varint (value.length % 2 ^ 32) ++ value := by
  rw [putLengthPrefixedSlice, putVarint32, encodeVarint32_eq_varint, BitVec.toNat_ofNat]

/-- The Slice form on a buffer whose prefix decodes to `len` after `read` bytes. -/
theorem getLengthPrefixedSlice_of_decoded {input : List Byte} {read : Nat} {len : BitVec 32}
    (result : List Byte) (decoded : getVarint32Ptr input = some (read, len)) :
    getLengthPrefixedSlice input result =
      if (input.drop read).length ≥ len.toNat then
        (true, (input.drop read).drop len.toNat, (input.drop read).take len.toNat)
      else (false, input.drop read, result) := by
  simp only [getLengthPrefixedSlice, getVarint32, decoded]

/-- **Length-prefixed round trip, below `2 ^ 32` bytes.** -/
theorem lengthPrefixed_round_trip (value rest dst old : List Byte) (fits : value.length < 2 ^ 32) :
    putLengthPrefixedSlice dst value = dst ++ varint value.length ++ value ∧
    getLengthPrefixedSlice (putLengthPrefixedSlice [] value ++ rest) old = (true, rest, value) ∧
    ∃ span, getLengthPrefixedSlicePtr (putLengthPrefixedSlice [] value ++ rest) =
        some ((putLengthPrefixedSlice [] value).length, span) ∧
      span.read (putLengthPrefixedSlice [] value ++ rest) = value := by
  have small : value.length % 2 ^ 32 = value.length := Nat.mod_eq_of_lt fits
  have decoded : getVarint32Ptr (putLengthPrefixedSlice [] value ++ rest) =
      some ((varint value.length).length, BitVec.ofNat 32 value.length) := by
    rw [putLengthPrefixedSlice, putVarint32, List.nil_append, List.append_assoc,
      getVarint32Ptr_encodeVarint32, varintLength_eq, BitVec.toNat_setWidth, BitVec.toNat_ofNat,
      small, Nat.mod_eq_of_lt (Nat.lt_trans fits (by decide))]
  have layout : putLengthPrefixedSlice [] value ++ rest = varint value.length ++ (value ++ rest) := by
    rw [putLengthPrefixedSlice_eq, small]; simp
  have len : (BitVec.ofNat 32 value.length).toNat = value.length := by
    rw [BitVec.toNat_ofNat, small]
  refine ⟨by rw [putLengthPrefixedSlice_eq, small], ?_, ⟨(varint value.length).length, value.length⟩, ?_, ?_⟩
  · rw [getLengthPrefixedSlice_of_decoded old decoded, len, layout, List.drop_left]
    simp
  · simp only [getLengthPrefixedSlicePtr, decoded, len]
    rw [layout, putLengthPrefixedSlice_eq, small]
    simp
  · rw [layout, Span.read, List.drop_left]
    simp

/-- A string whose length is a multiple of `2 ^ 32` gets the prefix `0`: the Slice
form succeeds with an empty `*result` and leaves the whole string in `*input`, and the
pointer form returns an empty slice and a pointer to the string's first byte. -/
theorem getLengthPrefixedSlice_wrapped (value : List Byte) (wraps : value.length % 2 ^ 32 = 0) :
    putLengthPrefixedSlice [] value = BitVec.ofNat 8 0 :: value ∧
      getLengthPrefixedSlice (putLengthPrefixedSlice [] value) [] = (true, value, []) ∧
      getLengthPrefixedSlicePtr (putLengthPrefixedSlice [] value) = some (1, ⟨1, 0⟩) := by
  have prefixed : putLengthPrefixedSlice [] value = BitVec.ofNat 8 0 :: value := by
    rw [putLengthPrefixedSlice_eq, wraps, varint_of_lt (by decide)]; rfl
  have decoded : getVarint32Ptr (BitVec.ofNat 8 0 :: value) = some (1, 0) := by
    rw [getVarint32Ptr, if_pos (by decide)]; rfl
  refine ⟨prefixed, ?_, ?_⟩
  · rw [prefixed, getLengthPrefixedSlice_of_decoded [] decoded]
    simp
  · simp [prefixed, getLengthPrefixedSlicePtr, decoded]

/-- **The prefix wraps at `2 ^ 32` bytes.** For a string of `2 ^ 32` bytes the prefix is
the one byte `0`, and both forms succeed with the empty string, the Slice form leaving
all `2 ^ 32` bytes in `*input`. -/
theorem lengthPrefixed_wraps :
    putLengthPrefixedSlice [] (List.replicate (2 ^ 32) 0) = BitVec.ofNat 8 0 :: List.replicate (2 ^ 32) 0 ∧
      getLengthPrefixedSlice (putLengthPrefixedSlice [] (List.replicate (2 ^ 32) 0)) [] =
        (true, List.replicate (2 ^ 32) 0, []) ∧
      getLengthPrefixedSlicePtr (putLengthPrefixedSlice [] (List.replicate (2 ^ 32) 0)) = some (1, ⟨1, 0⟩) :=
  getLengthPrefixedSlice_wrapped _ (by rw [List.length_replicate, Nat.mod_self])

/-! ## Decode failures -/

/-- A decode that succeeds has read at least one byte, and no byte past `limit`. -/
theorem getVarintLoop_read_bounds {w lastShift shift : Nat} {result : BitVec w} {bytes : List Byte}
    {read : Nat} {v : BitVec w} (decoded : getVarintLoop w lastShift shift result bytes = some (read, v)) :
    1 ≤ read ∧ read ≤ bytes.length := by
  induction bytes generalizing shift result read with
  | nil => simp [getVarintLoop] at decoded
  | cons byte rest ih =>
      simp only [getVarintLoop] at decoded
      split_ifs at decoded
      · obtain ⟨⟨read', v'⟩, inner, same⟩ := Option.map_eq_some'.mp decoded
        cases same
        have := ih inner
        simp only [List.length_cons]; omega
      · cases decoded; simp

theorem getVarint32Ptr_read_bounds {bytes : List Byte} {read : Nat} {v : BitVec 32}
    (decoded : getVarint32Ptr bytes = some (read, v)) : 1 ≤ read ∧ read ≤ bytes.length := by
  unfold getVarint32Ptr getVarint32PtrFallback at decoded
  split at decoded
  · split_ifs at decoded
    · cases decoded; simp
    · exact getVarintLoop_read_bounds decoded
  · exact getVarintLoop_read_bounds decoded

theorem getLengthPrefixedSlice_of_none {input : List Byte} (result : List Byte)
    (malformed : getVarint32Ptr input = none) :
    getLengthPrefixedSlice input result = (false, input, result) := by
  simp only [getLengthPrefixedSlice, getVarint32, malformed]

/-- A prefix that decodes but declares more bytes than remain fails with `*input`
already advanced past the prefix, and so changed. -/
theorem getLengthPrefixedSlice_false_advanced {input : List Byte} {read : Nat} {len : BitVec 32}
    (result : List Byte) (decoded : getVarint32Ptr input = some (read, len))
    (short : (input.drop read).length < len.toNat) :
    getLengthPrefixedSlice input result = (false, input.drop read, result) ∧ input.drop read ≠ input := by
  refine ⟨by rw [getLengthPrefixedSlice_of_decoded result decoded, if_neg (by omega)], fun same => ?_⟩
  have lengths := congrArg List.length same
  have bounds := getVarint32Ptr_read_bounds decoded
  simp only [List.length_drop] at lengths short
  omega

/-- The prefix `5` before a single byte: `GetLengthPrefixedSlice` fails with `*input`
moved past the prefix. -/
theorem getLengthPrefixedSlice_short_moves_input :
    getLengthPrefixedSlice [5, 0x41] [] = (false, [0x41], []) := by
  decide

/-! ## Reading inside the bound -/

/-- A decode that succeeds took one shift per byte it read, and read nothing past the
byte that ends it: it decodes the same from the bytes it read alone. -/
theorem getVarintLoop_within {w lastShift shift : Nat} {result : BitVec w} {bytes : List Byte} {read : Nat}
    {v : BitVec w} (decoded : getVarintLoop w lastShift shift result bytes = some (read, v)) :
    shift + 7 * (read - 1) ≤ lastShift ∧ getVarintLoop w lastShift shift result (bytes.take read) = some (read, v) := by
  induction bytes generalizing shift result read with
  | nil => simp [getVarintLoop] at decoded
  | cons byte rest ih =>
      simp only [getVarintLoop] at decoded
      split_ifs at decoded with allowed more
      · obtain ⟨⟨read', v'⟩, inner, same⟩ := Option.map_eq_some'.mp decoded
        cases same
        obtain ⟨bound, taken⟩ := ih inner
        have least := (getVarintLoop_read_bounds inner).1
        refine ⟨by omega, ?_⟩
        rw [List.take_succ_cons]
        unfold getVarintLoop
        simp only [if_pos allowed, if_pos more, taken, Option.map_some']
      · cases decoded
        refine ⟨by omega, ?_⟩
        rw [List.take_succ_cons, List.take_zero]
        unfold getVarintLoop
        simp only [if_pos allowed, if_neg more]

/-- The loop fails exactly when every byte it may read, one per shift it allows, has the
high bit set: the varint is truncated, or runs past the last shift. -/
theorem getVarintLoop_eq_none_iff {w lastShift : Nat} (wide : 8 ≤ w) (bytes : List Byte) :
    ∀ shift (result : BitVec w), shift ≤ lastShift →
      (getVarintLoop w lastShift shift result bytes = none ↔
        ∀ b ∈ bytes.take ((lastShift - shift) / 7 + 1), 128 ≤ b.toNat) := by
  induction bytes with
  | nil => intro _ _ _; simp [getVarintLoop]
  | cons byte rest ih =>
      intro shift result allowed
      unfold getVarintLoop
      simp only [if_pos allowed, List.take_succ_cons, List.forall_mem_cons]
      by_cases high : 128 ≤ byte.toNat
      · have more : (byte.setWidth w &&& 128 : BitVec w) ≠ 0 := fun low => by
          have := (msb_clear byte wide).mp low; omega
        rw [if_pos more, Option.map_eq_none', and_iff_right high]
        by_cases further : shift + 7 ≤ lastShift
        · rw [ih (shift + 7) _ further, show (lastShift - shift) / 7 = (lastShift - (shift + 7)) / 7 + 1 by omega]
        · unfold getVarintLoop
          rw [if_neg further, show (lastShift - shift) / 7 = 0 by omega]
          simp
      · have stops : ¬ (byte.setWidth w &&& 128 : BitVec w) ≠ 0 := fun more =>
          more ((msb_clear byte wide).mpr (by omega))
        rw [if_neg stops]
        simp [high]

theorem getVarint32Ptr_within {bytes : List Byte} {read : Nat} {v : BitVec 32}
    (decoded : getVarint32Ptr bytes = some (read, v)) :
    read ≤ 5 ∧ getVarint32Ptr (bytes.take read) = some (read, v) := by
  have bounds := getVarint32Ptr_read_bounds decoded
  unfold getVarint32Ptr at decoded ⊢
  split at decoded
  · rename_i byte rest
    split_ifs at decoded with fast
    · cases decoded
      rw [List.take_succ_cons, List.take_zero]
      simp only [if_pos fast, and_true]
      decide
    · obtain ⟨bound, taken⟩ := getVarintLoop_within decoded
      obtain ⟨k, rfl⟩ : ∃ k, read = k + 1 := ⟨read - 1, by omega⟩
      rw [List.take_succ_cons] at taken ⊢
      exact ⟨by omega, by simp only [if_neg fast]; exact taken⟩
  · simp at bounds; omega

theorem getVarint32Ptr_eq_none_iff (bytes : List Byte) :
    getVarint32Ptr bytes = none ↔ ∀ b ∈ bytes.take 5, 128 ≤ b.toNat := by
  have fallback := @getVarintLoop_eq_none_iff 32 28 (by decide) bytes 0 0 (by decide)
  unfold getVarint32Ptr getVarint32PtrFallback
  split
  · rename_i byte rest
    split_ifs with fast
    · have low := (msb_clear byte (by decide)).mp fast
      simp only [reduceCtorEq, false_iff, List.take_succ_cons, List.forall_mem_cons, not_and]
      omega
    · exact fallback
  · exact fallback

/-- **Decoders never read past their bound.** A pointer-form decoder is given the bytes
`[p, limit)` as its list, of any length, and reads a byte only after testing `p < limit`
(the match on the empty list). `GetVarint32Ptr`, `GetVarint32PtrFallback` and
`GetVarint64Ptr` return `nullptr` or a pointer `q` with `p < q ≤ limit`, at most 5, 5 and
10 bytes on, having read only the bytes before `q`: they decode the same from `[p, q)`
alone. `GetVarint32Ptr` returns `nullptr` exactly when its first five bytes, or all of
them if fewer, have the high bit set. The pointer form of `GetLengthPrefixedSlice` returns
a slice inside `[p, limit)` ending at the pointer it returns, and fails exactly when its
prefix is truncated or longer than five bytes, or declares more bytes than remain. -/
theorem decoders_read_within_bound (bytes : List Byte) :
    (∀ q v, getVarint32Ptr bytes = some (q, v) →
      0 < q ∧ q ≤ bytes.length ∧ q ≤ 5 ∧ getVarint32Ptr (bytes.take q) = some (q, v)) ∧
    (∀ q v, getVarint32PtrFallback bytes = some (q, v) →
      0 < q ∧ q ≤ bytes.length ∧ q ≤ 5 ∧ getVarint32PtrFallback (bytes.take q) = some (q, v)) ∧
    (∀ q v, getVarint64Ptr bytes = some (q, v) →
      0 < q ∧ q ≤ bytes.length ∧ q ≤ 10 ∧ getVarint64Ptr (bytes.take q) = some (q, v)) ∧
    (getVarint32Ptr bytes = none ↔ ∀ b ∈ bytes.take 5, 128 ≤ b.toNat) ∧
    (∀ q span, getLengthPrefixedSlicePtr bytes = some (q, span) →
      0 < span.start ∧ span.start + span.size = q ∧ q ≤ bytes.length) ∧
    (getLengthPrefixedSlicePtr bytes = none ↔
      (∀ b ∈ bytes.take 5, 128 ≤ b.toNat) ∨
        ∃ read len, getVarint32Ptr bytes = some (read, len) ∧ bytes.length < read + len.toNat) := by
  have loop : ∀ {w lastShift q : Nat} {v : BitVec w}, getVarintLoop w lastShift 0 0 bytes = some (q, v) →
      0 < q ∧ q ≤ bytes.length ∧ q ≤ lastShift / 7 + 1 ∧ getVarintLoop w lastShift 0 0 (bytes.take q) = some (q, v) :=
    fun decoded => by
      have within := getVarintLoop_within decoded
      exact ⟨(getVarintLoop_read_bounds decoded).1, (getVarintLoop_read_bounds decoded).2, by omega, within.2⟩
  refine ⟨fun q v decoded => ⟨(getVarint32Ptr_read_bounds decoded).1, (getVarint32Ptr_read_bounds decoded).2,
    getVarint32Ptr_within decoded⟩, fun q v => loop, fun q v => loop, getVarint32Ptr_eq_none_iff bytes,
    fun q span found => ?_, ?_⟩
  · unfold getLengthPrefixedSlicePtr at found
    split at found
    · cases found
    · rename_i p len decoded
      split_ifs at found with past
      cases found
      exact ⟨(getVarint32Ptr_read_bounds decoded).1, rfl, by omega⟩
  · rw [← getVarint32Ptr_eq_none_iff]
    unfold getLengthPrefixedSlicePtr
    split
    · rename_i malformed
      simp [malformed]
    · rename_i p len decoded
      have decodes : getVarint32Ptr bytes ≠ none := by rw [decoded]; exact Option.some_ne_none _
      split_ifs with past
      · exact iff_of_true rfl (.inr ⟨p, len, decoded, past⟩)
      · refine iff_of_false (fun found => nomatch found) ?_
        rintro (malformed | ⟨read, len', again, short⟩)
        · exact decodes malformed
        · rw [decoded] at again
          cases again
          omega

/-! ## The two forms -/

/-- **The two forms of `GetLengthPrefixedSlice` agree.** On every buffer the Slice form
succeeds exactly when the pointer form does; and then its `*result` holds the bytes of the
pointer form's `*result`, and its `*input` starts at the pointer the pointer form returns. -/
theorem getLengthPrefixedSlice_forms_agree (input result : List Byte) :
    ((getLengthPrefixedSlice input result).1 = true ↔ (getLengthPrefixedSlicePtr input).isSome) ∧
    ∀ q span, getLengthPrefixedSlicePtr input = some (q, span) →
      getLengthPrefixedSlice input result = (true, input.drop q, span.read input) := by
  cases decoded : getVarint32Ptr input with
  | none =>
      have none : getLengthPrefixedSlicePtr input = none := by simp only [getLengthPrefixedSlicePtr, decoded]
      rw [getLengthPrefixedSlice_of_none result decoded, none]
      exact ⟨by simp, fun _ _ never => by cases never⟩
  | some decode =>
      obtain ⟨read, len⟩ := decode
      have bounds := getVarint32Ptr_read_bounds decoded
      rw [getLengthPrefixedSlice_of_decoded result decoded]
      simp only [getLengthPrefixedSlicePtr, decoded, List.length_drop]
      by_cases fits : read + len.toNat ≤ input.length
      · rw [if_pos (by omega), if_neg (by omega)]
        refine ⟨by simp, fun q span found => ?_⟩
        cases found
        rw [List.drop_drop, Span.read]
      · rw [if_neg (by omega), if_pos (by omega)]
        exact ⟨by simp, fun _ _ never => by cases never⟩

end Rockscopy.Coding
