import MemEtcd.WalTail

/-! A WAL file that was recovered is opened again in append mode. An incomplete
header at its end, which reading ignores, stays in front of what is appended. -/
namespace MemEtcd

open Framing (Outcome)

namespace WalRecord

def encodeAll (rs : List WalRecord) : Bytes := rs.flatMap encode

/-- Reading the file `f` with the records `rs` appended gives the records of `f` and
then `rs`. -/
def ReadsBack (f : Bytes) (o : Outcome UInt8 WalRecord ReadError) (rs : List WalRecord) : Prop :=
  ∃ left, readRecords (f ++ encodeAll rs) = some ⟨o.records ++ rs.map stored, left, .ok ()⟩

theorem encodeAll_stored (rs : List WalRecord) : encodeAll (rs.map stored) = encodeAll rs := by
  unfold encodeAll
  rw [List.flatMap_map]
  rfl

/-- A file that ends without an error has at most an incomplete header left. -/
theorem leftover_short {f : Bytes} {o : Outcome UInt8 WalRecord ReadError}
    (h : readRecords f = some o) (hok : o.result = .ok ()) : o.leftover.length < 16 := by
  have hlast := (Framing.readAll_split encode_of_readFrom h).2
  rw [hok] at hlast
  exact readFrom_end_iff.mp hlast

/-- The appended records are read back exactly if the leftover of the file could
as well have been moved behind them. -/
theorem readsBack_iff {f : Bytes} {o : Outcome UInt8 WalRecord ReadError}
    (h : readRecords f = some o) (hok : o.result = .ok ()) {rs : List WalRecord}
    (hv : ∀ rec ∈ rs, rec.Valid) :
    ReadsBack f o rs ↔ encodeAll rs <+: o.leftover ++ encodeAll rs := by
  have hshort := leftover_short h hok
  obtain ⟨o', ho'⟩ := readRecords_isSome (o.leftover ++ encodeAll rs)
  have hread := readRecords_append h hok ho'
  unfold ReadsBack
  rw [hread]
  constructor
  · intro hback
    obtain ⟨left, he⟩ := hback
    have hrecords : o'.records = rs.map stored := by
      have := congrArg Outcome.records (Option.some.inj he)
      exact List.append_cancel_left this
    -- all that was read is the encoding of what came out
    have hsplit := (Framing.readAll_split encode_of_readFrom ho').1
    have hencoded : o'.records.flatMap encode = encodeAll rs := by
      rw [hrecords]
      exact encodeAll_stored rs
    rw [hencoded] at hsplit
    exact ⟨o'.leftover, hsplit.symm⟩
  · intro hprefix
    obtain ⟨tail, htail⟩ := hprefix
    have hlen : tail.length = o.leftover.length := by
      have := congrArg List.length htail
      rw [List.length_append, List.length_append] at this
      omega
    have hmoved := readRecords_encode hv (readRecords_short (hlen.trans_lt hshort))
    change readRecords (encodeAll rs ++ tail) = _ at hmoved
    rw [htail, ho', List.append_nil] at hmoved
    cases hmoved
    exact ⟨tail, rfl⟩

def zeroRecord : WalRecord := ⟨0, [], none, false⟩

theorem zeroRecord_valid : zeroRecord.Valid := by
  refine ⟨by norm_num [zeroRecord], by norm_num [zeroRecord], by norm_num [zeroRecord], ?_⟩
  intro v hv
  contradiction

/-- No part of this record's header repeats. -/
theorem not_shifted {left : Bytes} (hpos : left ≠ []) (hlt : left.length < 16) :
    ¬encodeAll [zeroRecord] <+: left ++ encodeAll [zeroRecord] := by
  intro hprefix
  have hapart : ∀ m < 16, 0 < m → (encodeAll [zeroRecord]).drop m ≠
      (encodeAll [zeroRecord]).take (16 - m) := by decide
  apply hapart left.length hlt (List.length_pos_of_ne_nil hpos)
  have htake := List.prefix_iff_eq_take.mp hprefix
  have hlen : (encodeAll [zeroRecord]).length = 16 := rfl
  rw [hlen] at htake
  calc (encodeAll [zeroRecord]).drop left.length
      = ((left ++ encodeAll [zeroRecord]).take 16).drop left.length := by rw [← htake]
    _ = ((left ++ encodeAll [zeroRecord]).drop left.length).take (16 - left.length) :=
      List.drop_take
    _ = (encodeAll [zeroRecord]).take (16 - left.length) := by rw [List.drop_left]

/-- Whatever is appended to a recovered file is read back, exactly if the file ends
behind a record. -/
theorem append_after_recovery_iff {f : Bytes} {o : Outcome UInt8 WalRecord ReadError}
    (h : readRecords f = some o) (hok : o.result = .ok ()) :
    (∀ rs : List WalRecord, (∀ rec ∈ rs, rec.Valid) →
      (ReadsBack f o rs ↔ encodeAll rs <+: o.leftover ++ encodeAll rs)) ∧
    ((∀ rs : List WalRecord, (∀ rec ∈ rs, rec.Valid) → ReadsBack f o rs) ↔ o.leftover = []) := by
  refine ⟨fun rs hv => readsBack_iff h hok hv, ?_⟩
  constructor
  · intro hall
    by_contra hpos
    have hone : ∀ rec ∈ [zeroRecord], rec.Valid := by
      intro rec hr
      rw [List.mem_singleton.mp hr]
      exact zeroRecord_valid
    have hback := (readsBack_iff h hok hone).mp (hall [zeroRecord] hone)
    exact not_shifted hpos (leftover_short h hok) hback
  · intro hnil rs hv
    apply (readsBack_iff h hok hv).mpr
    rw [hnil]
    exact List.prefix_refl _

def oneRecordFile : Bytes := encodeAll [⟨1, [97], some [1], false⟩]

theorem append_after_recovery_of_whole_record :
    ∃ o, readRecords oneRecordFile = some o ∧ o.result = .ok () ∧
      ∀ rs : List WalRecord, (∀ rec ∈ rs, rec.Valid) → ReadsBack oneRecordFile o rs := by
  have hv : ∀ rec ∈ [WalRecord.mk 1 [97] (some [1]) false], rec.Valid := by
    intro rec hr
    rw [List.mem_singleton.mp hr]
    refine ⟨by norm_num, by norm_num, by norm_num, ?_⟩
    intro v hv
    cases hv
    norm_num
  have hread := readRecords_encode hv (@readRecords_short [] (by decide))
  rw [List.append_nil] at hread
  exact ⟨_, hread, rfl, (append_after_recovery_iff hread rfl).2.mpr rfl⟩

/-- A crash has left one byte of a header. A record is appended to it, and then the
file cannot be loaded any more. -/
theorem append_after_torn_header_fails :
    readRecords (oneRecordFile.take 1) = some ⟨[], oneRecordFile.take 1, .ok ()⟩ ∧
      (readRecords (oneRecordFile.take 1 ++ encodeAll [⟨2, [98], some [2], false⟩])).map
        (fun o => (o.records, o.result)) = some ([], .error .unexpectedEof) ∧
      ¬ReadsBack (oneRecordFile.take 1) ⟨[], oneRecordFile.take 1, .ok ()⟩
        [⟨2, [98], some [2], false⟩] := by
  have hfail : (readRecords (oneRecordFile.take 1 ++ encodeAll [⟨2, [98], some [2], false⟩])).map
      (fun o => (o.records, o.result)) = some ([], .error .unexpectedEof) := rfl
  refine ⟨rfl, hfail, ?_⟩
  intro hback
  obtain ⟨left, he⟩ := hback
  rw [he] at hfail
  cases hfail

end WalRecord
end MemEtcd
