/-
# Rockscopy.Coding.Records — a record of several fields, written and read back

The `Put...` routines append to one `std::string`, and the `Get...` routines
parse a value from the front of a `Slice` and advance it past what they read
(`coding.h`). A record is written by consecutive `Put` calls; a reader that
knows the kinds of its fields reads it back with the matching `Get` calls, each
from where the last one left `*input`.

* `putFields_eq_append`: `Put` calls only append, so a record written after
  other bytes is those bytes followed by the record.
* `getField_putField`: one `Get` call reads back what the matching `Put` call
  wrote and stops right after it, whatever follows.
* `getFields_putFields`: for every list of fields whose slices are shorter than
  `2 ^ 32` bytes, and every buffer that follows the record, the `Get` calls
  read every field back in order and leave `*input` at the first byte after the
  record.

A record can also pack fields at bit offsets of one buffer with
`BitStreamPutInt`, each field a range of bits.

* `bitStreamGetInt_bitStreamPutFields`: for every list of fields, each at most
  64 bits wide, inside the buffer, and no two overlapping, consecutive
  `BitStreamPutInt` calls in any order leave every field readable by
  `BitStreamGetInt`, which returns its value truncated to its width; the buffer
  keeps its length and every bit outside the fields.
-/
import Rockscopy.Coding.LengthPrefixed
import Rockscopy.Coding.BitStream

namespace Rockscopy.Coding

set_option autoImplicit false

/-- A field of a record, as one `Put...` call writes it. -/
inductive Field where
  | varint32 (value : BitVec 32)
  | varint64 (value : BitVec 64)
  | slice (value : List Byte)
deriving DecidableEq, Repr

/-- The `Get...` routine a reader calls for a field. -/
inductive Kind where
  | varint32
  | varint64
  | slice
deriving DecidableEq, Repr

def Field.kind : Field → Kind
  | .varint32 _ => .varint32
  | .varint64 _ => .varint64
  | .slice _ => .slice

/-- The size of a slice field fits the `uint32_t` its prefix holds. -/
def Field.Fits : Field → Prop
  | .varint32 _ => True
  | .varint64 _ => True
  | .slice value => value.length < 2 ^ 32

instance : DecidablePred Field.Fits
  | .varint32 _ => isTrue trivial
  | .varint64 _ => isTrue trivial
  | .slice value => inferInstanceAs (Decidable (value.length < 2 ^ 32))

/-- The `Put...` call that writes a field: `*dst` after it. -/
def putField (dst : List Byte) : Field → List Byte
  | .varint32 value => putVarint32 dst value
  | .varint64 value => putVarint64 dst value
  | .slice value => putLengthPrefixedSlice dst value

/-- Consecutive `Put...` calls on one `*dst`. -/
def putFields (dst : List Byte) (fields : List Field) : List Byte :=
  fields.foldl putField dst

/-- The `Get...` call for a field of this kind: the field and `*input` after it, or `none`
when the call returns `false`. -/
def getField (input : List Byte) : Kind → Option (Field × List Byte)
  | .varint32 =>
      match getVarint32 input 0 with
      | (true, input, value) => some (.varint32 value, input)
      | (false, _, _) => none
  | .varint64 =>
      match getVarint64 input 0 with
      | (true, input, value) => some (.varint64 value, input)
      | (false, _, _) => none
  | .slice =>
      match getLengthPrefixedSlice input [] with
      | (true, input, value) => some (.slice value, input)
      | (false, _, _) => none

/-- Consecutive `Get...` calls, one for each kind, each from where the last left `*input`;
the first that returns `false` stops the reader. -/
def getFields (input : List Byte) : List Kind → Option (List Field × List Byte)
  | [] => some ([], input)
  | kind :: kinds => do
      let (field, input) ← getField input kind
      let (fields, input) ← getFields input kinds
      pure (field :: fields, input)

example : getFields (putFields [] [.varint32 300, .slice [7, 8]] ++ [9]) [.varint32, .slice] =
    some ([.varint32 300, .slice [7, 8]], [9]) := by decide

/-! ## Writing -/

theorem putField_eq_append (dst : List Byte) (field : Field) : putField dst field = dst ++ putField [] field := by
  cases field <;> simp [putField, putVarint32, putVarint64, putLengthPrefixedSlice]

/-- `Put` calls only append. -/
theorem putFields_eq_append (fields : List Field) : ∀ dst, putFields dst fields = dst ++ putFields [] fields := by
  induction fields with
  | nil => intro dst; rw [putFields, putFields, List.foldl_nil, List.foldl_nil, List.append_nil]
  | cons field fields ih =>
      intro dst
      rw [putFields, putFields, List.foldl_cons, List.foldl_cons, ← putFields, ← putFields, ih, ih (putField [] field),
        putField_eq_append dst field, List.append_assoc]

/-! ## Reading back -/

/-- The Slice form of `GetLengthPrefixedSlice` on a slice `PutLengthPrefixedSlice` wrote. -/
theorem getLengthPrefixedSlice_putLengthPrefixedSlice (value rest old : List Byte) (fits : value.length < 2 ^ 32) :
    getLengthPrefixedSlice (putLengthPrefixedSlice [] value ++ rest) old = (true, rest, value) := by
  have len : (BitVec.ofNat 32 value.length).toNat = value.length := by
    rw [BitVec.toNat_ofNat, Nat.mod_eq_of_lt fits]
  rw [putLengthPrefixedSlice, putVarint32, List.nil_append, List.append_assoc, getLengthPrefixedSlice,
    getVarint32_encodeVarint32]
  dsimp only
  rw [len, if_pos (by simp), List.drop_left, List.take_left]

/-- One `Get` call reads back what the matching `Put` call wrote, and stops right after it. -/
theorem getField_putField (field : Field) (fits : field.Fits) (rest : List Byte) :
    getField (putField [] field ++ rest) field.kind = some (field, rest) := by
  cases field with
  | varint32 value => simp only [putField, putVarint32, List.nil_append, Field.kind, getField, getVarint32_encodeVarint32]
  | varint64 value => simp only [putField, putVarint64, List.nil_append, Field.kind, getField, getVarint64_encodeVarint64]
  | slice value =>
      simp only [putField, Field.kind, getField, getLengthPrefixedSlice_putLengthPrefixedSlice value rest [] fits]

/-- **A record reads back field by field.** For every list of fields whose slices are shorter
than `2 ^ 32` bytes, written by consecutive `Put` calls after any bytes `dst`, the `Put` calls
append the record to `dst`; and the matching `Get` calls, from the start of the record and
whatever follows it, read every field back in order and leave `*input` at the first byte after
the record. -/
theorem getFields_putFields (fields : List Field) (fits : ∀ field ∈ fields, field.Fits) (dst rest : List Byte) :
    putFields dst fields = dst ++ putFields [] fields ∧
    getFields (putFields [] fields ++ rest) (fields.map Field.kind) = some (fields, rest) := by
  refine ⟨putFields_eq_append fields dst, ?_⟩
  induction fields with
  | nil => rfl
  | cons field fields ih =>
      have later := ih (fun field member => fits field (List.mem_cons_of_mem _ member))
      rw [putFields, List.foldl_cons, ← putFields, putFields_eq_append, List.append_assoc, List.map_cons, getFields,
        getField_putField field (fits field (List.mem_cons_self _ _))]
      simp [later]

theorem getFields_putFields_mixed :
    (∀ field ∈ [.varint32 300, .slice [7, 8], .varint64 1], Field.Fits field) ∧
    (putFields [1] [.varint32 300, .slice [7, 8], .varint64 1] = [1] ++ putFields [] [.varint32 300, .slice [7, 8],
        .varint64 1] ∧
      getFields (putFields [] [.varint32 300, .slice [7, 8], .varint64 1] ++ [9]) ([.varint32 300, .slice [7, 8],
        .varint64 1].map Field.kind) = some ([.varint32 300, .slice [7, 8], .varint64 1], [9])) :=
  ⟨by decide, getFields_putFields [.varint32 300, .slice [7, 8], .varint64 1] (by decide) [1] [9]⟩

/-! ## Bit-packed fields -/

/-- A field packed at a bit offset: `BitStreamPutInt(dst, dstlen, offset, bits, value)`. -/
structure BitField where
  offset : Nat
  bits : Nat
  value : BitVec 64
deriving DecidableEq, Repr

/-- The assertions `BitStreamPutInt` opens with, in a buffer of `dstlen` bytes. -/
def BitField.Fits (dstlen : Nat) (field : BitField) : Prop :=
  (field.offset + field.bits + 7) / 8 ≤ dstlen ∧ field.bits ≤ 64

instance (dstlen : Nat) : DecidablePred (BitField.Fits dstlen) :=
  fun _ => inferInstanceAs (Decidable (_ ∧ _))

/-- The bit ranges of two fields do not overlap. -/
def BitField.Apart (field field' : BitField) : Prop :=
  field.offset + field.bits ≤ field'.offset ∨ field'.offset + field'.bits ≤ field.offset

instance : DecidableRel BitField.Apart :=
  fun _ _ => inferInstanceAs (Decidable (_ ∨ _))

/-- Consecutive `BitStreamPutInt` calls on one buffer. -/
def bitStreamPutFields (dst : List Byte) (fields : List BitField) : List Byte :=
  fields.foldl (fun dst field => bitStreamPutInt dst field.offset field.bits field.value) dst

theorem bitStreamPutFields_cons (dst : List Byte) (field : BitField) (fields : List BitField) :
    bitStreamPutFields dst (field :: fields) =
      bitStreamPutFields (bitStreamPutInt dst field.offset field.bits field.value) fields := rfl

@[simp] theorem length_bitStreamPutFields (fields : List BitField) :
    ∀ dst, (bitStreamPutFields dst fields).length = dst.length := by
  induction fields with
  | nil => intro dst; rfl
  | cons field fields ih =>
      intro dst
      rw [bitStreamPutFields_cons, ih, bitStreamPutInt, length_bitStreamPutLoop]

section Packing

variable (fields : List BitField)

/-- Puts of fields that fit leave every bit outside them as it was. -/
theorem bitAt_bitStreamPutFields_outside :
    ∀ dst : List Byte, (∀ field ∈ fields, field.Fits dst.length) → ∀ i,
      (∀ field ∈ fields, i < field.offset ∨ field.offset + field.bits ≤ i) →
        bitAt (bitStreamPutFields dst fields) i = bitAt dst i := by
  induction fields with
  | nil => intro dst _ i _; rfl
  | cons field fields ih =>
      intro dst fit i outside
      have fits := fit field (List.mem_cons_self _ _)
      rw [bitStreamPutFields_cons, ih _ (fun g member => by
          rw [bitStreamPutInt, length_bitStreamPutLoop]; exact fit g (List.mem_cons_of_mem _ member)) i
          (fun g member => outside g (List.mem_cons_of_mem _ member)),
        bitAt_bitStreamPutInt _ _ _ _ fits.1, if_neg]
      rcases outside field (List.mem_cons_self _ _) with before | after <;> omega

/-- Puts of fields apart from a region never change what a get of that region returns. -/
theorem bitStreamGetInt_bitStreamPutFields_apart (region : BitField) (narrow : region.bits ≤ 64) :
    ∀ dst : List Byte, (∀ field ∈ fields, field.Fits dst.length) → (∀ field ∈ fields, field.Apart region) →
      bitStreamGetInt (bitStreamPutFields dst fields) region.offset region.bits =
        bitStreamGetInt dst region.offset region.bits := by
  induction fields with
  | nil => intro dst _ _; rfl
  | cons field fields ih =>
      intro dst fit apart
      rw [bitStreamPutFields_cons, ih _ (fun g member => by
          rw [bitStreamPutInt, length_bitStreamPutLoop]; exact fit g (List.mem_cons_of_mem _ member))
          (fun g member => apart g (List.mem_cons_of_mem _ member)),
        bitStreamGetInt_bitStreamPutInt_apart _ _ _ _ (fit field (List.mem_cons_self _ _)).1 _ _ narrow
          (apart field (List.mem_cons_self _ _))]

end Packing

/-- **Bit-packed fields read back.** For every list of fields, each inside the buffer and at
most 64 bits wide, as `BitStreamPutInt` asserts, and no two overlapping, consecutive
`BitStreamPutInt` calls, in any order, leave the buffer's length as it was; `BitStreamGetInt`
of each field returns its value truncated to its width, the value the closing assertion of
its put expects; and every bit outside the fields keeps its value. -/
theorem bitStreamGetInt_bitStreamPutFields (dst : List Byte) (fields : List BitField)
    (fit : ∀ field ∈ fields, field.Fits dst.length) (apart : fields.Pairwise BitField.Apart) :
    (bitStreamPutFields dst fields).length = dst.length ∧
    (∀ field ∈ fields, bitStreamGetInt (bitStreamPutFields dst fields) field.offset field.bits =
      truncatedValue field.value field.bits) ∧
    ∀ i, (∀ field ∈ fields, i < field.offset ∨ field.offset + field.bits ≤ i) →
      bitAt (bitStreamPutFields dst fields) i = bitAt dst i := by
  refine ⟨length_bitStreamPutFields fields dst, ?_, bitAt_bitStreamPutFields_outside fields dst fit⟩
  induction fields generalizing dst with
  | nil => intro _ member; cases member
  | cons field fields ih =>
      obtain ⟨fromField, apart⟩ := List.pairwise_cons.mp apart
      have fits := fit field (List.mem_cons_self _ _)
      have later : ∀ g ∈ fields, g.Fits (bitStreamPutInt dst field.offset field.bits field.value).length :=
        fun g member => by rw [bitStreamPutInt, length_bitStreamPutLoop]; exact fit g (List.mem_cons_of_mem _ member)
      intro g member
      rw [bitStreamPutFields_cons]
      rcases List.mem_cons.mp member with rfl | member
      · rw [bitStreamGetInt_bitStreamPutFields_apart fields g fits.2 _ later
          (fun h within => Or.symm (fromField h within)),
          bitStreamGetInt_bitStreamPutInt _ _ _ _ fits.1 fits.2]
      · exact ih _ later apart g member

theorem bitStreamGetInt_bitStreamPutFields_three :
    (∀ field ∈ [⟨0, 3, 5⟩, ⟨3, 10, 1000⟩, ⟨13, 64, 0xFFFF⟩], BitField.Fits ([0, 0, 0, 0, 0, 0, 0, 0, 0, 0] :
        List Byte).length field) ∧
    [(⟨0, 3, 5⟩ : BitField), ⟨3, 10, 1000⟩, ⟨13, 64, 0xFFFF⟩].Pairwise BitField.Apart ∧
    ((bitStreamPutFields [0, 0, 0, 0, 0, 0, 0, 0, 0, 0] [⟨0, 3, 5⟩, ⟨3, 10, 1000⟩, ⟨13, 64, 0xFFFF⟩]).length =
        ([0, 0, 0, 0, 0, 0, 0, 0, 0, 0] : List Byte).length ∧
      (∀ field ∈ [(⟨0, 3, 5⟩ : BitField), ⟨3, 10, 1000⟩, ⟨13, 64, 0xFFFF⟩],
        bitStreamGetInt (bitStreamPutFields [0, 0, 0, 0, 0, 0, 0, 0, 0, 0] [⟨0, 3, 5⟩, ⟨3, 10, 1000⟩,
          ⟨13, 64, 0xFFFF⟩]) field.offset field.bits = truncatedValue field.value field.bits) ∧
      ∀ i, (∀ field ∈ [(⟨0, 3, 5⟩ : BitField), ⟨3, 10, 1000⟩, ⟨13, 64, 0xFFFF⟩],
          i < field.offset ∨ field.offset + field.bits ≤ i) →
        bitAt (bitStreamPutFields [0, 0, 0, 0, 0, 0, 0, 0, 0, 0] [⟨0, 3, 5⟩, ⟨3, 10, 1000⟩, ⟨13, 64, 0xFFFF⟩]) i =
          bitAt [0, 0, 0, 0, 0, 0, 0, 0, 0, 0] i) :=
  ⟨by decide, by decide, bitStreamGetInt_bitStreamPutFields _ _ (by decide) (by decide)⟩

end Rockscopy.Coding
