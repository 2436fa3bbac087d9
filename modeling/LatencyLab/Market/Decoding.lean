import LatencyLab.Market.Wire

/-! Reading a buffer loses nothing: whatever 64 bytes arrive, the message read from
them has these bytes as its image. Messages and blocks of 64 bytes are thus the same
thing, and a list of bytes is the stream of a list of messages exactly when its length
is a multiple of 64, and then of one list only. -/

namespace LatencyLab.MarketMessage

open Bytes

variable {bs : List UInt8} {offset : ℕ}

/-! ### Fields read and written again -/

theorem ofNat_field_uint64 (h : offset + 8 ≤ bs.length) :
    ofNat 8 (UInt64.ofNat (toNat (field bs offset 8))).toNat = field bs offset 8 := by
  have hlt := toNat_lt (field bs offset 8)
  rw [length_field h] at hlt
  rw [UInt64.toNat_ofNat_of_lt' (hlt.trans_le (by norm_num))]
  exact ofNat_toNat (length_field h)

theorem ofNat_field_uint32 (h : offset + 4 ≤ bs.length) :
    ofNat 4 (UInt32.ofNat (toNat (field bs offset 4))).toNat = field bs offset 4 := by
  have hlt := toNat_lt (field bs offset 4)
  rw [length_field h] at hlt
  rw [UInt32.toNat_ofNat_of_lt' (hlt.trans_le (by norm_num))]
  exact ofNat_toNat (length_field h)

theorem headD_field (h : offset + 1 ≤ bs.length) : [(field bs offset 1).headD 0] = field bs offset 1 := by
  obtain ⟨b, hb⟩ := List.length_eq_one_iff.mp (length_field h)
  rw [hb, List.headD_cons]

theorem toList_chars {width : ℕ} (h : offset + width ≤ bs.length) :
    (chars bs offset width).toList = field bs offset width := by
  have hlength := length_field h
  apply List.ext_getElem
  · rw [Vector.length_toList, hlength]
  · intro i hi hi'
    simp [chars, List.getElem?_eq_getElem hi']

/-! ### Blocks -/

theorem fields_ofImage (h : bs.length = size) : (ofImage bs).fields =
    [field bs 0 8, field bs 8 8, field bs 16 8, field bs 24 8, field bs 32 4, field bs 36 1, field bs 37 1,
      field bs 38 8, field bs 46 18] := by
  rw [size] at h
  simp only [fields, ofImage, UInt64.toUInt64_toInt64]
  rw [ofNat_field_uint64 (by omega), ofNat_field_uint64 (by omega), ofNat_field_uint64 (by omega),
    ofNat_field_uint64 (by omega), ofNat_field_uint32 (by omega), headD_field (by omega), headD_field (by omega),
    toList_chars (by omega), toList_chars (by omega)]

/-- **Round trip**: a block is written back from the message read from it. -/
theorem image_ofImage (h : bs.length = size) : (ofImage bs).image = bs := by
  have hwhole : field bs 0 64 = bs := by
    rw [field, List.drop_zero, List.take_of_length_le (by rw [h, size])]
  rw [image, fields_ofImage h]
  -- the fields lie next to each other, from the first byte to the last
  have hjoin : ∀ width width' rest, field bs 0 width ++ (field bs width width' ++ rest) =
      field bs 0 (width + width') ++ rest := by
    intro width width' rest
    rw [← List.append_assoc, ← field_append_field bs 0 width width', Nat.zero_add]
  simp only [List.flatten_cons, List.flatten_nil, hjoin, Nat.reduceAdd]
  rw [List.append_nil, hwhole]

theorem image_injective : Function.Injective image := by
  intro m m' h
  rw [← ofImage_image m, h, ofImage_image]

/-! ### Streams -/

theorem exists_image (bs : List UInt8) (h : bs.length = size) : ∃ m : MarketMessage, m.image = bs :=
  ⟨ofImage bs, image_ofImage h⟩

/-- Messages are the blocks of 64 bytes, and lists of messages the lists of bytes that
divide into such blocks. -/
structure WireFormat : Prop where
  message : ∀ m : MarketMessage, m.image.length = size ∧ ofImage m.image = m
  block : ∀ bs : List UInt8, bs.length = size → (ofImage bs).image = bs
  streams : ∀ bs : List UInt8, (∃! messages : List MarketMessage, stream image messages = bs) ↔ size ∣ bs.length
  /-- A stream that breaks off inside a message can be read in one way as well. -/
  brokenOff : ∀ (messages messages' : List MarketMessage) (rest rest' : List UInt8),
    stream image messages ++ rest = stream image messages' ++ rest' → rest.length < size → rest'.length < size →
      messages = messages' ∧ rest = rest'

theorem wireFormat : WireFormat where
  message m := ⟨m.length_image, m.ofImage_image⟩
  block _ := image_ofImage
  streams := existsUnique_stream_iff image_injective length_image (by decide) exists_image
  brokenOff _ _ _ _ := stream_append_inj image_injective length_image

end LatencyLab.MarketMessage
