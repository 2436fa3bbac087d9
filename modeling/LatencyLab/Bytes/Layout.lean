import Mathlib.Data.List.Basic
import Mathlib.Data.UInt
import Mathlib.Tactic.Ring

/-! Byte images. Numbers are stored in little-endian order in a fixed number of
bytes, records as the concatenation of their fields, and a field is read back by
offset and width. -/

namespace LatencyLab.Bytes

/-! ### Little-endian numbers -/

/-- The `width` low bytes of `n`, least significant first. -/
def ofNat : ℕ → ℕ → List UInt8
  | 0, _ => []
  | width + 1, n => UInt8.ofNat n :: ofNat width (n / 256)

def toNat : List UInt8 → ℕ
  | [] => 0
  | b :: bs => b.toNat + 256 * toNat bs

@[simp] theorem length_ofNat (width n : ℕ) : (ofNat width n).length = width := by
  induction width generalizing n with
  | zero => rfl
  | succ width ih => simp [ofNat, ih]

theorem toNat_ofNat (width n : ℕ) : toNat (ofNat width n) = n % 256 ^ width := by
  induction width generalizing n with
  | zero => simp [ofNat, toNat, Nat.mod_one]
  | succ width ih =>
    rw [ofNat, toNat, ih, pow_succ', Nat.mod_mul, UInt8.toNat_ofNat']

/-- A number read back where it was stored in enough bytes. -/
theorem toNat_ofNat_of_lt {width n : ℕ} (h : n < 256 ^ width) : toNat (ofNat width n) = n := by
  rw [toNat_ofNat, Nat.mod_eq_of_lt h]

/-- Bytes written again as the number that they are. -/
theorem ofNat_toNat {bs : List UInt8} {width : ℕ} (h : bs.length = width) : ofNat width (toNat bs) = bs := by
  subst h
  induction bs with
  | nil => rfl
  | cons b bs ih =>
    have hb := b.toNat_lt
    have hrest : (b.toNat + 256 * toNat bs) / 256 = toNat bs := by omega
    have hlow : UInt8.ofNat (b.toNat + 256 * toNat bs) = b := by
      rw [← UInt8.toNat_inj, UInt8.toNat_ofNat']
      omega
    rw [List.length_cons, toNat, ofNat, hlow, hrest, ih]

theorem toNat_lt (bs : List UInt8) : toNat bs < 256 ^ bs.length := by
  induction bs with
  | nil => exact Nat.one_pos
  | cons b bs ih =>
    have hb := b.toNat_lt
    rw [toNat, List.length_cons, pow_succ]
    omega

/-! ### Fields of a record -/

/-- The `width` bytes at an offset. -/
def field (bs : List UInt8) (offset width : ℕ) : List UInt8 := (bs.drop offset).take width

/-- A field lies behind the fields before it. -/
theorem field_flatten {before : List (List UInt8)} {x : List UInt8} {after : List (List UInt8)} {offset width : ℕ}
    (hoffset : before.flatten.length = offset) (hwidth : x.length = width) :
    field (before ++ x :: after).flatten offset width = x := by
  rw [field, List.flatten_append, List.flatten_cons, ← hoffset, List.drop_left, ← hwidth, List.take_left]

theorem length_field {bs : List UInt8} {offset width : ℕ} (h : offset + width ≤ bs.length) :
    (field bs offset width).length = width := by
  rw [field, List.length_take, List.length_drop]
  omega

/-- Two fields next to each other. -/
theorem field_append_field (bs : List UInt8) (offset width width' : ℕ) :
    field bs offset width ++ field bs (offset + width) width' = field bs offset (width + width') := by
  rw [field, field, field, List.take_add, List.drop_drop]

/-! ### Writing into a buffer -/

/-- Overwrite the bytes of a buffer from an offset on. -/
def writeAt (buffer : List UInt8) (offset : ℕ) (bs : List UInt8) : List UInt8 :=
  buffer.take offset ++ bs ++ buffer.drop (offset + bs.length)

theorem length_writeAt {buffer bs : List UInt8} {offset : ℕ} (h : offset + bs.length ≤ buffer.length) :
    (writeAt buffer offset bs).length = buffer.length := by
  simp only [writeAt, List.length_append, List.length_take, List.length_drop]
  omega

/-- The bytes up to the end of what was written. -/
theorem take_writeAt {buffer : List UInt8} (bs : List UInt8) {offset : ℕ} (h : offset ≤ buffer.length) :
    (writeAt buffer offset bs).take (offset + bs.length) = buffer.take offset ++ bs := by
  have hlen : (buffer.take offset ++ bs).length = offset + bs.length := by
    rw [List.length_append, List.length_take, Nat.min_eq_left h]
  rw [writeAt, ← hlen, List.take_left]

/-- A buffer that is overwritten whole. -/
theorem writeAt_whole {buffer bs : List UInt8} (h : bs.length = buffer.length) : writeAt buffer 0 bs = bs := by
  rw [writeAt, h, List.take_zero, List.nil_append, Nat.zero_add, List.drop_length, List.append_nil]

/-! ### Records of one size in a stream -/

section Records

variable {α : Type*} {image : α → List UInt8} {size : ℕ}

/-- The stream of some records. -/
def stream (image : α → List UInt8) (l : List α) : List UInt8 := l.flatMap image

@[simp] theorem stream_nil : stream image [] = [] := rfl

theorem stream_append (l l' : List α) : stream image (l ++ l') = stream image l ++ stream image l' :=
  List.flatMap_append

theorem stream_snoc (l : List α) (a : α) : stream image (l ++ [a]) = stream image l ++ image a := by
  simp [stream]

theorem length_stream (hsize : ∀ a, (image a).length = size) (l : List α) :
    (stream image l).length = l.length * size := by
  induction l with
  | nil => simp
  | cons a l ih =>
    rw [stream, List.flatMap_cons, List.length_append, ← stream, ih, hsize, List.length_cons,
      Nat.succ_mul, Nat.add_comm]

/-- Behind some records of a stream, as many bytes as a record has are the next record. -/
theorem next_record (hsize : ∀ a, (image a).length = size) (hpos : 0 < size) {l l' : List α}
    {block rest : List UInt8} (hl : l <+: l') (hblock : block.length = size)
    (h : stream image l ++ block ++ rest <+: stream image l') :
    ∃ a, l ++ [a] <+: l' ∧ image a = block := by
  obtain ⟨more, rfl⟩ := hl
  rw [stream_append, List.append_assoc, List.prefix_append_right_inj] at h
  cases more with
  | nil =>
    have hle := h.length_le
    rw [stream_nil, List.length_append, List.length_nil] at hle
    omega
  | cons a more =>
    refine ⟨a, ⟨more, by simp⟩, ?_⟩
    rw [stream, List.flatMap_cons] at h
    have hblock' : block <+: image a ++ more.flatMap image := (List.prefix_append block rest).trans h
    have heq := List.prefix_of_prefix_length_le hblock' (List.prefix_append (image a) _)
      (by rw [hblock, hsize])
    exact (heq.eq_of_length (by rw [hblock, hsize])).symm

/-- A stream with part of a record behind it can be read in one way. -/
theorem stream_append_inj (hinj : Function.Injective image) (hsize : ∀ a, (image a).length = size) {l l' : List α}
    {rest rest' : List UInt8} (h : stream image l ++ rest = stream image l' ++ rest') (hrest : rest.length < size)
    (hrest' : rest'.length < size) : l = l' ∧ rest = rest' := by
  induction l generalizing l' with
  | nil =>
    cases l' with
    | nil => exact ⟨rfl, h⟩
    | cons b l' =>
      have hlength := congrArg List.length h
      rw [stream_nil, List.nil_append, List.length_append, length_stream hsize, List.length_cons,
        Nat.succ_mul] at hlength
      omega
  | cons a l ih =>
    cases l' with
    | nil =>
      have hlength := congrArg List.length h
      rw [stream_nil, List.nil_append, List.length_append, length_stream hsize, List.length_cons,
        Nat.succ_mul] at hlength
      omega
    | cons b l' =>
      rw [stream, stream, List.flatMap_cons, List.flatMap_cons, List.append_assoc, List.append_assoc] at h
      obtain ⟨hhead, htail⟩ := List.append_inj h (by rw [hsize, hsize])
      obtain ⟨rfl, rfl⟩ := ih htail
      exact ⟨by rw [hinj hhead], rfl⟩

theorem stream_injective (hinj : Function.Injective image) (hsize : ∀ a, (image a).length = size)
    (hpos : 0 < size) : Function.Injective (stream image) := by
  intro l l' h
  exact (stream_append_inj hinj hsize (congrArg (· ++ []) h) hpos hpos).1

/-- Where every block of the size of a record is one, the streams are the lists of
bytes that divide into records, each of one list of records. -/
theorem existsUnique_stream_iff (hinj : Function.Injective image) (hsize : ∀ a, (image a).length = size)
    (hpos : 0 < size) (hblock : ∀ bs, bs.length = size → ∃ a, image a = bs) (bs : List UInt8) :
    (∃! l, stream image l = bs) ↔ size ∣ bs.length := by
  constructor
  · rintro ⟨l, rfl, -⟩
    exact ⟨l.length, by rw [length_stream hsize, Nat.mul_comm]⟩
  · rintro ⟨n, hn⟩
    have hexists : ∃ l, stream image l = bs := by
      induction n generalizing bs with
      | zero => exact ⟨[], (List.length_eq_zero_iff.mp hn).symm⟩
      | succ n ih =>
        rw [Nat.mul_succ] at hn
        obtain ⟨a, ha⟩ := hblock (bs.take size) (by rw [List.length_take]; omega)
        obtain ⟨l, hl⟩ := ih (bs.drop size) (by rw [List.length_drop]; omega)
        refine ⟨a :: l, ?_⟩
        rw [stream, List.flatMap_cons, ← stream, hl, ha, List.take_append_drop]
    obtain ⟨l, hl⟩ := hexists
    exact ⟨l, hl, fun l' hl' => stream_injective hinj hsize hpos (hl'.trans hl.symm)⟩

end Records

end LatencyLab.Bytes
