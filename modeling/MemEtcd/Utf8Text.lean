import MemEtcd.Keys

/-! What `from_utf8_lossy` makes of bytes that are UTF-8: the text they encode. -/
namespace MemEtcd

/-! ### Bytes as numbers -/

theorem isContinuation_iff (b : UInt8) :
    isContinuation b = true ↔ 128 ≤ b.toNat ∧ b.toNat < 192 := by
  unfold isContinuation
  rw [Bool.and_eq_true, decide_eq_true_iff, decide_eq_true_iff, UInt8.le_iff_toNat_le,
    UInt8.lt_iff_toNat_lt]
  rfl

theorem beq_iff_toNat (b c : UInt8) : (b == c) = true ↔ b.toNat = c.toNat := by
  rw [beq_iff_eq, UInt8.toNat_inj]

theorem secondOfThree_iff (b0 b1 : UInt8) : secondOfThree b0 b1 = true ↔
    224 ≤ b0.toNat ∧ b0.toNat ≤ 239 ∧ 128 ≤ b1.toNat ∧ b1.toNat < 192 ∧
      (b0.toNat = 224 → 160 ≤ b1.toNat) ∧ (b0.toNat = 237 → b1.toNat < 160) := by
  unfold secondOfThree
  simp only [Bool.or_eq_true, Bool.and_eq_true, decide_eq_true_iff, isContinuation_iff,
    beq_iff_toNat, UInt8.le_iff_toNat_le, UInt8.lt_iff_toNat_lt, UInt8.reduceToNat]
  omega

theorem secondOfFour_iff (b0 b1 : UInt8) : secondOfFour b0 b1 = true ↔
    240 ≤ b0.toNat ∧ b0.toNat ≤ 244 ∧ 128 ≤ b1.toNat ∧ b1.toNat < 192 ∧
      (b0.toNat = 240 → 144 ≤ b1.toNat) ∧ (b0.toNat = 244 → b1.toNat < 144) := by
  unfold secondOfFour
  simp only [Bool.or_eq_true, Bool.and_eq_true, decide_eq_true_iff, isContinuation_iff,
    beq_iff_toNat, UInt8.le_iff_toNat_le, UInt8.lt_iff_toNat_lt, UInt8.reduceToNat]
  omega

/-! ### Reading one character -/

section Decode

variable {b0 b1 b2 b3 : UInt8} (s : Bytes)

theorem ascii_iff (b : UInt8) : b < 128 ↔ b.toNat < 128 := UInt8.lt_iff_toNat_lt

theorem leadOfTwo_iff (b : UInt8) :
    (decide (194 ≤ b) && decide (b ≤ 223)) = true ↔ 194 ≤ b.toNat ∧ b.toNat ≤ 223 := by
  simp only [Bool.and_eq_true, decide_eq_true_iff, UInt8.le_iff_toNat_le, UInt8.reduceToNat]

theorem fromUtf8Lossy_one (h : b0.toNat < 128) :
    fromUtf8Lossy (b0 :: s) = Char.ofNat b0.toNat :: fromUtf8Lossy s := by
  rw [fromUtf8Lossy.eq_def]
  dsimp only
  rw [if_pos ((ascii_iff b0).mpr h)]

theorem fromUtf8Lossy_two (h : 194 ≤ b0.toNat) (h' : b0.toNat ≤ 223) (h1 : isContinuation b1) :
    fromUtf8Lossy (b0 :: b1 :: s) = utf8Char (b0.toNat - 192) [b1] :: fromUtf8Lossy s := by
  have hascii : ¬b0 < 128 := by
    rw [ascii_iff]
    omega
  rw [fromUtf8Lossy.eq_def]
  dsimp only
  rw [if_neg hascii, if_pos ((leadOfTwo_iff b0).mpr ⟨h, h'⟩), if_pos h1]

theorem fromUtf8Lossy_three (h1 : secondOfThree b0 b1) (h2 : isContinuation b2) :
    fromUtf8Lossy (b0 :: b1 :: b2 :: s) =
      utf8Char (b0.toNat - 224) [b1, b2] :: fromUtf8Lossy s := by
  have hrange := (secondOfThree_iff b0 b1).mp h1
  have hascii : ¬b0 < 128 := by
    rw [ascii_iff]
    omega
  have hlead : ¬(decide (194 ≤ b0) && decide (b0 ≤ 223)) = true := by
    rw [leadOfTwo_iff]
    omega
  rw [fromUtf8Lossy.eq_def]
  dsimp only
  rw [if_neg hascii, if_neg hlead, if_pos h1, if_pos h2]

theorem fromUtf8Lossy_four (h1 : secondOfFour b0 b1) (h2 : isContinuation b2)
    (h3 : isContinuation b3) :
    fromUtf8Lossy (b0 :: b1 :: b2 :: b3 :: s) =
      utf8Char (b0.toNat - 240) [b1, b2, b3] :: fromUtf8Lossy s := by
  have hrange := (secondOfFour_iff b0 b1).mp h1
  have hascii : ¬b0 < 128 := by
    rw [ascii_iff]
    omega
  have hlead : ¬(decide (194 ≤ b0) && decide (b0 ≤ 223)) = true := by
    rw [leadOfTwo_iff]
    omega
  have hthree : ¬secondOfThree b0 b1 = true := by
    rw [secondOfThree_iff]
    omega
  rw [fromUtf8Lossy.eq_def]
  dsimp only
  rw [if_neg hascii, if_neg hlead, if_neg hthree, if_pos h1, if_pos h2, if_pos h3]

end Decode

/-! ### Code points by the number of their bytes -/

theorem toNat_ofNat_byte {n : ℕ} (h : n < 256) : (UInt8.ofNat n).toNat = n :=
  UInt8.toNat_ofNat_of_lt' h

/-- The last six bits of a number in a continuation byte. -/
theorem toNat_continuation (n : ℕ) : (UInt8.ofNat (n % 64 + 128)).toNat = n % 64 + 128 :=
  toNat_ofNat_byte (by omega)

theorem isContinuation_ofNat (n : ℕ) : isContinuation (UInt8.ofNat (n % 64 + 128)) := by
  rw [isContinuation_iff, toNat_continuation]
  omega

section CodePoint

variable {v : ℕ} (s : Bytes)

theorem fromUtf8Lossy_ofNat_one (h : v ≤ 127) :
    fromUtf8Lossy (UInt8.ofNat v :: s) = Char.ofNat v :: fromUtf8Lossy s := by
  have hb0 := @toNat_ofNat_byte v (by omega)
  rw [fromUtf8Lossy_one s (by omega), hb0]

theorem fromUtf8Lossy_ofNat_two (h : 127 < v) (h' : v ≤ 2047) :
    fromUtf8Lossy (UInt8.ofNat (v / 64 % 32 + 192) :: UInt8.ofNat (v % 64 + 128) :: s) =
      Char.ofNat v :: fromUtf8Lossy s := by
  have hb0 := @toNat_ofNat_byte (v / 64 % 32 + 192) (by omega)
  have hv : (v / 64 % 32 + 192 - 192) * 64 + (v % 64 + 128 - 128) = v := by omega
  rw [fromUtf8Lossy_two s (by omega) (by omega) (isContinuation_ofNat v)]
  unfold utf8Char
  simp only [List.foldl_cons, List.foldl_nil, hb0, toNat_continuation]
  rw [hv]

/-- The surrogates are what the bounds on the second byte leave out. -/
theorem fromUtf8Lossy_ofNat_three (h : 2047 < v) (h' : v ≤ 65535)
    (hs : v < 55296 ∨ 57343 < v) :
    fromUtf8Lossy (UInt8.ofNat (v / 4096 % 16 + 224) :: UInt8.ofNat (v / 64 % 64 + 128) ::
      UInt8.ofNat (v % 64 + 128) :: s) = Char.ofNat v :: fromUtf8Lossy s := by
  have hb0 := @toNat_ofNat_byte (v / 4096 % 16 + 224) (by omega)
  have hsecond : secondOfThree (UInt8.ofNat (v / 4096 % 16 + 224))
      (UInt8.ofNat (v / 64 % 64 + 128)) := by
    rw [secondOfThree_iff, hb0, toNat_continuation]
    omega
  have hv : ((v / 4096 % 16 + 224 - 224) * 64 + (v / 64 % 64 + 128 - 128)) * 64 +
      (v % 64 + 128 - 128) = v := by omega
  rw [fromUtf8Lossy_three s hsecond (isContinuation_ofNat v)]
  unfold utf8Char
  simp only [List.foldl_cons, List.foldl_nil, hb0, toNat_continuation]
  rw [hv]

theorem fromUtf8Lossy_ofNat_four (h : 65535 < v) (h' : v < 1114112) :
    fromUtf8Lossy (UInt8.ofNat (v / 262144 % 8 + 240) :: UInt8.ofNat (v / 4096 % 64 + 128) ::
      UInt8.ofNat (v / 64 % 64 + 128) :: UInt8.ofNat (v % 64 + 128) :: s) =
        Char.ofNat v :: fromUtf8Lossy s := by
  have hb0 := @toNat_ofNat_byte (v / 262144 % 8 + 240) (by omega)
  have hsecond : secondOfFour (UInt8.ofNat (v / 262144 % 8 + 240))
      (UInt8.ofNat (v / 4096 % 64 + 128)) := by
    rw [secondOfFour_iff, hb0, toNat_continuation]
    omega
  have hv : (((v / 262144 % 8 + 240 - 240) * 64 + (v / 4096 % 64 + 128 - 128)) * 64 +
      (v / 64 % 64 + 128 - 128)) * 64 + (v % 64 + 128 - 128) = v := by omega
  rw [fromUtf8Lossy_four s hsecond (isContinuation_ofNat (v / 64)) (isContinuation_ofNat v)]
  unfold utf8Char
  simp only [List.foldl_cons, List.foldl_nil, hb0, toNat_continuation]
  rw [hv]

end CodePoint

/-! ### Texts -/

/-- A character is not a surrogate and lies in the code space. -/
theorem char_bounds (c : Char) :
    c.val.toNat < 55296 ∨ 57343 < c.val.toNat ∧ c.val.toNat < 1114112 := c.valid

/-- The bytes of a character are read as that character. -/
theorem fromUtf8Lossy_utf8EncodeChar (c : Char) (s : Bytes) :
    fromUtf8Lossy (String.utf8EncodeChar c ++ s) = c :: fromUtf8Lossy s := by
  have hbounds := char_bounds c
  have hc : Char.ofNat c.val.toNat = c := Char.ofNat_toNat c
  unfold String.utf8EncodeChar
  dsimp only
  generalize c.val.toNat = v at hbounds hc ⊢
  rw [← hc]
  split_ifs with h1 h2 h3
  · exact fromUtf8Lossy_ofNat_one s h1
  · exact fromUtf8Lossy_ofNat_two s (by omega) h2
  · exact fromUtf8Lossy_ofNat_three s (by omega) h3 (by omega)
  · exact fromUtf8Lossy_ofNat_four s (by omega) (by omega)

/-- The bytes of a text are read as that text. -/
theorem fromUtf8Lossy_utf8Bytes (text : List Char) : fromUtf8Lossy (utf8Bytes text) = text := by
  unfold utf8Bytes
  induction text with
  | nil => rw [List.flatMap_nil, fromUtf8Lossy]
  | cons c text ih => rw [List.flatMap_cons, fromUtf8Lossy_utf8EncodeChar, ih]

def IsUtf8 (bytes : Bytes) : Prop := ∃ text, bytes = utf8Bytes text

theorem IsUtf8.lossless {bytes : Bytes} (h : IsUtf8 bytes) :
    utf8Bytes (fromUtf8Lossy bytes) = bytes := by
  obtain ⟨text, rfl⟩ := h
  rw [fromUtf8Lossy_utf8Bytes]

end MemEtcd
