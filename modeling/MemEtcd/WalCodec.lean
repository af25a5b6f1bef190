import MemEtcd.Wal

/-! Records that the WAL writes are read back unchanged, whatever follows them
in the file. -/
namespace MemEtcd

open LittleEndian (leBytes leNat length_leBytes leNat_leBytes_of_lt)

structure WalRecord.Valid (rec : WalRecord) : Prop where
  rev_lower : -(2 ^ 63 : ℤ) ≤ rec.rev
  rev_upper : rec.rev < 2 ^ 63
  key_length : rec.key.length < 2 ^ 32
  value_length : ∀ v ∈ rec.value, v.length < 2 ^ 32 - 1

/-- A record as it is read, with nobody waiting for it. -/
def WalRecord.stored (rec : WalRecord) : WalRecord := { rec with writtenNotify := false }

theorem readExact_append {n : ℕ} {bytes : Bytes} (h : bytes.length = n) (rest : Bytes) :
    readExact n (bytes ++ rest) = some (bytes, rest) := by
  unfold readExact
  rw [if_pos (by rw [List.length_append]; omega), List.take_left' h, List.drop_left' h]

def WalRecord.header (rec : WalRecord) : Bytes :=
  leBytes 8 (rec.rev % 2 ^ 64).toNat ++ leBytes 4 (rec.key.length % 2 ^ 32) ++
    leBytes 4 ((rec.value.map (fun v => v.length % 2 ^ 32)).getD deleteMarker)

theorem WalRecord.encode_eq (rec : WalRecord) :
    rec.encode = rec.header ++ (rec.key ++ rec.value.getD []) := by
  unfold encode header
  simp only [List.append_assoc]

theorem WalRecord.length_header (rec : WalRecord) : rec.header.length = 16 := by
  unfold header
  simp only [List.length_append, length_leBytes]

theorem WalRecord.length_encode (rec : WalRecord) : 16 ≤ rec.encode.length := by
  rw [encode_eq, List.length_append, length_header]
  omega

theorem WalRecord.header_fields {rec : WalRecord} (h : rec.Valid) :
    (leNat (rec.header.take 8) : ℤ).bmod (2 ^ 64) = rec.rev ∧
      leNat ((rec.header.drop 8).take 4) = rec.key.length ∧
      leNat ((rec.header.drop 12).take 4) =
        (rec.value.map List.length).getD deleteMarker := by
  have h8 : (leBytes 8 (rec.rev % 2 ^ 64).toNat).length = 8 := length_leBytes _ _
  have h4 : (leBytes 4 (rec.key.length % 2 ^ 32)).length = 4 := length_leBytes _ _
  have h12 : (leBytes 8 (rec.rev % 2 ^ 64).toNat ++
      leBytes 4 (rec.key.length % 2 ^ 32)).length = 12 := by
    rw [List.length_append, h8, h4]
  refine ⟨?_, ?_, ?_⟩
  · have hlt : (rec.rev % 2 ^ 64).toNat < 256 ^ 8 := by
      have := Int.emod_lt_of_pos rec.rev (show (0 : ℤ) < 2 ^ 64 by norm_num)
      omega
    unfold header
    rw [List.append_assoc, List.take_left' h8, leNat_leBytes_of_lt hlt]
    exact LittleEndian.bmod_toNat_emod (b := 63) h.rev_lower h.rev_upper
  · have hk := h.key_length
    unfold header
    rw [List.append_assoc, List.drop_left' h8, List.take_left' h4,
      Nat.mod_eq_of_lt hk, leNat_leBytes_of_lt (by omega)]
  · unfold header
    rw [List.drop_left' h12, List.take_of_length_le (by rw [length_leBytes])]
    have hv := h.value_length
    cases hval : rec.value with
    | none => exact leNat_leBytes_of_lt (by decide)
    | some v =>
      have hl := hv v hval
      rw [Option.map_some, Option.map_some, Option.getD_some, Option.getD_some,
        Nat.mod_eq_of_lt (by omega), leNat_leBytes_of_lt (by omega)]

/-- What was written is read back, and the rest of the file stays. -/
theorem WalRecord.readFrom_encode {rec : WalRecord} (h : rec.Valid) (rest : Bytes) :
    readFrom (rec.encode ++ rest) = (.ok (some rec.stored), rest) := by
  obtain ⟨hrev, hkey, hvalue⟩ := header_fields h
  have hv := h.value_length
  unfold readFrom
  rw [encode_eq, List.append_assoc, readExact_append rec.length_header]
  dsimp only
  rw [hrev, hkey, hvalue, List.append_assoc, readExact_append rfl]
  dsimp only
  unfold stored
  cases hval : rec.value with
  | none => simp
  | some v =>
    have hl := hv v hval
    have hne : v.length ≠ deleteMarker := by
      unfold deleteMarker
      omega
    rw [Option.map_some, Option.getD_some, if_neg hne, Option.getD_some, readExact_append rfl]

theorem length_flatMap_encode (recs : List WalRecord) :
    recs.length ≤ (recs.flatMap WalRecord.encode).length := by
  induction recs with
  | nil => exact Nat.zero_le _
  | cons rec recs ih =>
    have := rec.length_encode
    rw [List.flatMap_cons, List.length_append, List.length_cons]
    omega

end MemEtcd
