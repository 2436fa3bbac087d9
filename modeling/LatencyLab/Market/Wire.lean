import LatencyLab.Bytes.Layout
import LatencyLab.Market.Message

/-! The memory image of a `MarketMessage`, which the feeds send and receive as it
is: 64 bytes in declaration order without gaps, numbers in little-endian order. -/

namespace LatencyLab.MarketMessage

open Bytes

/-- `sizeof(MarketMessage)`. -/
def size : ℕ := 64

def fields (m : MarketMessage) : List (List UInt8) :=
  [ofNat 8 m.sequenceNumber.toNat, ofNat 8 m.exchangeTimestampNs.toNat, ofNat 8 m.orderId.toNat,
    ofNat 8 m.price.toUInt64.toNat, ofNat 4 m.quantity.toNat, [m.side.byte], [m.type.byte], m.symbol.toList,
    m.padding.toList]

def image (m : MarketMessage) : List UInt8 := m.fields.flatten

/-- `width` bytes of a buffer as an array; bytes past its end read as zero. -/
def chars (bs : List UInt8) (offset width : ℕ) : Vector UInt8 width :=
  Vector.ofFn fun i => (field bs offset width).getD i 0

/-- The message that the bytes of a buffer are. -/
def ofImage (bs : List UInt8) : MarketMessage where
  sequenceNumber := UInt64.ofNat (toNat (field bs 0 8))
  exchangeTimestampNs := UInt64.ofNat (toNat (field bs 8 8))
  orderId := UInt64.ofNat (toNat (field bs 16 8))
  price := (UInt64.ofNat (toNat (field bs 24 8))).toInt64
  quantity := UInt32.ofNat (toNat (field bs 32 4))
  side := ⟨(field bs 36 1).headD 0⟩
  type := ⟨(field bs 37 1).headD 0⟩
  symbol := chars bs 38 8
  padding := chars bs 46 18

@[simp] theorem length_image (m : MarketMessage) : m.image.length = size := by
  simp [image, fields, size]

theorem ofNat_toNat_uint64 (x : UInt64) : UInt64.ofNat (toNat (ofNat 8 x.toNat)) = x := by
  rw [toNat_ofNat_of_lt (x.toNat_lt.trans_le (by norm_num)), UInt64.ofNat_toNat]

theorem ofNat_toNat_uint32 (x : UInt32) : UInt32.ofNat (toNat (ofNat 4 x.toNat)) = x := by
  rw [toNat_ofNat_of_lt (x.toNat_lt.trans_le (by norm_num)), UInt32.ofNat_toNat]

theorem chars_eq {bs : List UInt8} {offset width : ℕ} {v : Vector UInt8 width}
    (h : field bs offset width = v.toList) : chars bs offset width = v := by
  ext i hi
  simp [chars, h]

/-- The field after the first `n`. -/
theorem field_image (m : MarketMessage) {x : List UInt8} (n : ℕ) (hx : m.fields.drop n = x :: m.fields.drop (n + 1))
    {offset width : ℕ} (hoffset : (m.fields.take n).flatten.length = offset) (hwidth : x.length = width) :
    field m.image offset width = x := by
  rw [image, ← List.take_append_drop n m.fields, hx]
  exact field_flatten hoffset hwidth

/-- **Round trip**: a message is read back from its image. -/
theorem ofImage_image (m : MarketMessage) : ofImage m.image = m := by
  have h0 : field m.image 0 8 = _ := m.field_image 0 rfl rfl (length_ofNat 8 _)
  have h1 : field m.image 8 8 = _ := m.field_image 1 rfl (by simp [fields]) (length_ofNat 8 _)
  have h2 : field m.image 16 8 = _ := m.field_image 2 rfl (by simp [fields]) (length_ofNat 8 _)
  have h3 : field m.image 24 8 = _ := m.field_image 3 rfl (by simp [fields]) (length_ofNat 8 _)
  have h4 : field m.image 32 4 = _ := m.field_image 4 rfl (by simp [fields]) (length_ofNat 4 _)
  have h5 : field m.image 36 1 = _ := m.field_image 5 rfl (by simp [fields]) rfl
  have h6 : field m.image 37 1 = _ := m.field_image 6 rfl (by simp [fields]) rfl
  have h7 : field m.image 38 8 = _ := m.field_image 7 rfl (by simp [fields]) (by simp)
  have h8 : field m.image 46 18 = _ := m.field_image 8 rfl (by simp [fields]) (by simp)
  rw [ofImage, chars_eq h7, chars_eq h8, h0, h1, h2, h3, h4, h5, h6, ofNat_toNat_uint64, ofNat_toNat_uint64,
    ofNat_toNat_uint64, ofNat_toNat_uint64, ofNat_toNat_uint32]
  rfl

end LatencyLab.MarketMessage
