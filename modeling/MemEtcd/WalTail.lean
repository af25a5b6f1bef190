import MemEtcd.Framing
import MemEtcd.WalCodec

/-! The end of a WAL file. A crash may cut the file anywhere in its last record,
and a file that is opened again is appended to as it is. `read_from` takes the end
of the file for the end of the records only while it reads a header. -/
namespace MemEtcd

open LittleEndian (leBytes leNat leBytes_leNat leNat_lt emod_bmod_toNat)
open Framing (Outcome readAll complete tornLength)

namespace WalRecord

/-! ### What `read_from` takes from a file -/

theorem readExact_eq_some {n : ℕ} {reader bytes rest : Bytes}
    (h : readExact n reader = some (bytes, rest)) : reader = bytes ++ rest ∧ bytes.length = n := by
  unfold readExact at h
  split_ifs at h with hn
  obtain ⟨rfl, rfl⟩ := Prod.mk.inj (Option.some.inj h)
  exact ⟨(List.take_append_drop n reader).symm, List.length_take_of_le hn⟩

theorem readExact_eq_none {n : ℕ} {reader : Bytes} : readExact n reader = none ↔
    reader.length < n := by
  unfold readExact
  split_ifs with hn
  · exact iff_of_false (by simp) (Nat.not_lt.mpr hn)
  · exact iff_of_true rfl (Nat.lt_of_not_le hn)

/-- The header that `read_from` has decoded is the header of its record. -/
theorem header_eq {header : Bytes} (hlen : header.length = 16) {rec : WalRecord}
    (hrev : rec.rev = (leNat (header.take 8) : ℤ).bmod (2 ^ 64))
    (hkey : rec.key.length = leNat ((header.drop 8).take 4))
    (hvalue : (rec.value.map List.length).getD deleteMarker = leNat ((header.drop 12).take 4)) :
    rec.header = header := by
  have h8 : (header.take 8).length = 8 := by rw [List.length_take, hlen]; rfl
  have h4 : ((header.drop 8).take 4).length = 4 := by
    rw [List.length_take, List.length_drop, hlen]; rfl
  have h4' : ((header.drop 12).take 4).length = 4 := by
    rw [List.length_take, List.length_drop, hlen]; rfl
  have hr : leBytes 8 (rec.rev % 2 ^ 64).toNat = header.take 8 := by
    have hlt := leNat_lt (header.take 8)
    have hback := leBytes_leNat (header.take 8)
    rw [h8] at hlt hback
    rw [hrev, emod_bmod_toNat (b := 64) hlt, hback]
  have hfour {field : Bytes} (hf : field.length = 4) : leNat field < 2 ^ 32 ∧
      leBytes 4 (leNat field) = field := by
    have hlt := leNat_lt field
    have hback := leBytes_leNat field
    rw [hf] at hlt hback
    exact ⟨hlt, hback⟩
  have hk : leBytes 4 (rec.key.length % 2 ^ 32) = (header.drop 8).take 4 := by
    rw [hkey, Nat.mod_eq_of_lt (hfour h4).1, (hfour h4).2]
  have hv : leBytes 4 ((rec.value.map (fun v => v.length % 2 ^ 32)).getD deleteMarker) =
      (header.drop 12).take 4 := by
    have hlt := (hfour h4').1
    rw [← (hfour h4').2, ← hvalue]
    rw [← hvalue] at hlt
    cases hval : rec.value with
    | none => rfl
    | some v =>
      rw [hval, Option.map_some, Option.getD_some] at hlt
      rw [Option.map_some, Option.map_some, Option.getD_some, Option.getD_some,
        Nat.mod_eq_of_lt hlt]
  have hlast : (header.drop 12).take 4 = header.drop 12 := by
    apply List.take_of_length_le
    rw [List.length_drop, hlen]
  have hmid : (header.drop 8).drop 4 = header.drop 12 := List.drop_drop
  calc rec.header = header.take 8 ++ (header.drop 8).take 4 ++ header.drop 12 := by
        rw [WalRecord.header, hr, hk, hv, hlast]
    _ = header.take 8 ++ ((header.drop 8).take 4 ++ (header.drop 8).drop 4) := by
        rw [hmid, List.append_assoc]
    _ = header := by rw [List.take_append_drop, List.take_append_drop]

/-- The ways out of `read_from`: the header is incomplete, the rest of the record
is, or the record is there. -/
theorem readFrom_cases (reader : Bytes) :
    (reader.length < 16 ∧ readFrom reader = (.ok none, [])) ∨
      (16 ≤ reader.length ∧ readFrom reader = (.error .unexpectedEof, [])) ∨
      ∃ rec rest, reader = rec.encode ++ rest ∧ readFrom reader = (.ok (some rec), rest) := by
  unfold readFrom
  cases hh : readExact 16 reader with
  | none => exact Or.inl ⟨readExact_eq_none.mp hh, rfl⟩
  | some p =>
    obtain ⟨header, body⟩ := p
    obtain ⟨hreader, hlen⟩ := readExact_eq_some hh
    have hlong : 16 ≤ reader.length := by
      rw [hreader, List.length_append, hlen]
      omega
    dsimp only
    generalize hrev : (leNat (header.take 8) : ℤ).bmod (2 ^ 64) = rev
    cases hk : readExact (leNat ((header.drop 8).take 4)) body with
    | none => exact Or.inr (Or.inl ⟨hlong, rfl⟩)
    | some p =>
      obtain ⟨key, body'⟩ := p
      obtain ⟨hbody, hkey⟩ := readExact_eq_some hk
      dsimp only
      by_cases hm : leNat ((header.drop 12).take 4) = deleteMarker
      · rw [if_pos hm]
        have hheader : (WalRecord.mk rev key none false).header = header :=
          header_eq hlen hrev.symm hkey hm.symm
        refine Or.inr (Or.inr ⟨_, body', ?_, rfl⟩)
        rw [encode_eq, hheader, hreader, hbody]
        simp only [Option.getD_none, List.append_nil, List.append_assoc]
      · rw [if_neg hm]
        cases hv : readExact (leNat ((header.drop 12).take 4)) body' with
        | none => exact Or.inr (Or.inl ⟨hlong, rfl⟩)
        | some p =>
          obtain ⟨v, rest⟩ := p
          obtain ⟨hbody', hvalue⟩ := readExact_eq_some hv
          have hheader : (WalRecord.mk rev key (some v) false).header = header :=
            header_eq hlen hrev.symm hkey hvalue
          refine Or.inr (Or.inr ⟨_, rest, ?_, rfl⟩)
          rw [encode_eq, hheader, hreader, hbody, hbody']
          simp only [Option.getD_some, List.append_assoc]

/-- What `read_from` takes from a file is the encoding of the record it returns. -/
theorem encode_of_readFrom {reader rest : Bytes} {rec : WalRecord}
    (h : readFrom reader = (.ok (some rec), rest)) : reader = rec.encode ++ rest := by
  rcases readFrom_cases reader with ⟨_, he⟩ | ⟨_, he⟩ | ⟨rec', rest', hsplit, he⟩
  · rw [h] at he
    cases he
  · rw [h] at he
    cases he
  · rw [h] at he
    cases he
    exact hsplit

theorem readExact_more {n : ℕ} {reader bytes rest : Bytes}
    (h : readExact n reader = some (bytes, rest)) (more : Bytes) :
    readExact n (reader ++ more) = some (bytes, rest ++ more) := by
  obtain ⟨rfl, hlen⟩ := readExact_eq_some h
  rw [List.append_assoc, readExact_append hlen]

/-- A record is read the same when the file goes on. -/
theorem readFrom_more {reader rest : Bytes} {rec : WalRecord}
    (h : readFrom reader = (.ok (some rec), rest)) (more : Bytes) :
    readFrom (reader ++ more) = (.ok (some rec), rest ++ more) := by
  unfold readFrom at h ⊢
  cases hh : readExact 16 reader with
  | none => simp [hh] at h
  | some p =>
    obtain ⟨header, body⟩ := p
    rw [hh] at h
    rw [readExact_more hh]
    dsimp only at h ⊢
    cases hk : readExact (leNat ((header.drop 8).take 4)) body with
    | none => simp [hk] at h
    | some p =>
      obtain ⟨key, body'⟩ := p
      rw [hk] at h
      rw [readExact_more hk]
      dsimp only at h ⊢
      split_ifs at h ⊢ with hm
      · obtain ⟨hrec, rfl⟩ := Prod.mk.inj h
        rw [hrec]
      · cases hv : readExact (leNat ((header.drop 12).take 4)) body' with
        | none => simp [hv] at h
        | some p =>
          obtain ⟨v, body''⟩ := p
          rw [hv] at h
          rw [readExact_more hv]
          obtain ⟨hrec, rfl⟩ := Prod.mk.inj h
          rw [← hrec]

/-- Only an incomplete header ends the records of a file. -/
theorem readFrom_end_iff {reader : Bytes} :
    (readFrom reader).1 = .ok none ↔ reader.length < 16 := by
  rcases readFrom_cases reader with ⟨hlt, he⟩ | ⟨hle, he⟩ | ⟨rec, rest, hsplit, he⟩
  · rw [he]
    exact iff_of_true rfl hlt
  · rw [he]
    exact iff_of_false (by simp) (Nat.not_lt.mpr hle)
  · have hlen := rec.length_encode
    rw [he]
    refine iff_of_false (by simp) ?_
    rw [hsplit, List.length_append]
    omega

/-- A record that is cut after its header is an error. -/
theorem readFrom_torn {rec : WalRecord} (hv : rec.Valid) {torn : Bytes} (hp : torn <+: rec.encode)
    (hlt : torn.length < rec.encode.length) (hlen : 16 ≤ torn.length) :
    readFrom torn = (.error .unexpectedEof, []) := by
  obtain ⟨_, hkey, hvalue⟩ := header_fields hv
  have hvl := hv.value_length
  -- the header is complete, so a part of key and value is left
  obtain ⟨part, rfl⟩ : ∃ part, torn = rec.header ++ part := by
    rw [encode_eq] at hp
    have hhead := List.prefix_of_prefix_length_le (List.prefix_append rec.header _) hp
      (by rw [length_header]; exact hlen)
    exact hhead.imp (fun _ he => he.symm)
  rw [encode_eq, List.prefix_append_right_inj] at hp
  rw [encode_eq, List.length_append, List.length_append] at hlt
  have hpart : part.length < (rec.key ++ rec.value.getD []).length := by omega
  unfold readFrom
  rw [readExact_append rec.length_header]
  dsimp only
  rw [hkey, hvalue]
  by_cases hshort : part.length < rec.key.length
  · rw [readExact_eq_none.mpr hshort]
  · -- the key is complete, so the value is not
    obtain ⟨part', rfl⟩ : ∃ part', part = rec.key ++ part' := by
      have hhead := List.prefix_of_prefix_length_le (List.prefix_append rec.key _) hp
        (Nat.le_of_not_lt hshort)
      exact hhead.imp (fun _ he => he.symm)
    rw [readExact_append rfl]
    dsimp only
    rw [List.length_append, List.length_append] at hpart
    cases hval : rec.value with
    | none =>
      rw [hval, Option.getD_none, List.length_nil] at hpart
      omega
    | some v =>
      have hne : v.length ≠ deleteMarker := by
        have := hvl v hval
        unfold deleteMarker
        omega
      rw [hval, Option.getD_some] at hpart
      have hshort' : part'.length < v.length := by omega
      rw [Option.map_some, Option.getD_some, if_neg hne, readExact_eq_none.mpr hshort']

/-! ### Reading a file to its end -/

/-- `read_from`, called until it returns no record. A record takes 16 bytes at
least, so the length of the file bounds the number of calls. -/
def readRecords (bytes : Bytes) : Option (Outcome UInt8 WalRecord ReadError) :=
  readAll readFrom (bytes.length + 1) bytes

theorem readFrom_shortens {reader rest : Bytes} {rec : WalRecord}
    (h : readFrom reader = (.ok (some rec), rest)) : rest.length < reader.length := by
  have hlen := rec.length_encode
  rw [encode_of_readFrom h, List.length_append]
  omega

theorem readRecords_isSome (bytes : Bytes) : ∃ o, readRecords bytes = some o :=
  Option.isSome_iff_exists.mp
    (Framing.readAll_isSome readFrom_shortens (Nat.lt_succ_self bytes.length))

theorem readRecords_of_readAll {fuel : ℕ} {bytes : Bytes}
    {o : Outcome UInt8 WalRecord ReadError} (h : readAll readFrom fuel bytes = some o) :
    readRecords bytes = some o := by
  obtain ⟨o', ho'⟩ := readRecords_isSome bytes
  rw [Framing.readAll_unique h ho']
  exact ho'

theorem readRecords_encode {rs : List WalRecord} (hv : ∀ rec ∈ rs, rec.Valid) {tail : Bytes}
    {o : Outcome UInt8 WalRecord ReadError} (h : readRecords tail = some o) :
    readRecords (rs.flatMap encode ++ tail) =
      some ⟨rs.map stored ++ o.records, o.leftover, o.result⟩ := by
  apply readRecords_of_readAll
  rw [Framing.readAll_encode (fun rec hr => readFrom_encode (hv rec hr)), ← readRecords, h]
  rfl

theorem readRecords_append {f : Bytes} {o : Outcome UInt8 WalRecord ReadError}
    (h : readRecords f = some o) (hok : o.result = .ok ()) {more : Bytes}
    {o' : Outcome UInt8 WalRecord ReadError} (h' : readRecords (o.leftover ++ more) = some o') :
    readRecords (f ++ more) = some ⟨o.records ++ o'.records, o'.leftover, o'.result⟩ := by
  apply readRecords_of_readAll
  rw [Framing.readAll_append readFrom_more h hok, ← readRecords, h']
  rfl

theorem readRecords_short {bytes : Bytes} (h : bytes.length < 16) :
    readRecords bytes = some ⟨[], bytes, .ok ()⟩ := by
  have hread : readFrom bytes = (.ok none, (readFrom bytes).2) :=
    Prod.ext (readFrom_end_iff.mpr h) rfl
  exact Framing.readAll_of_end hread bytes.length

/-- A file of whole records is read to its end. -/
theorem readRecords_whole {rs : List WalRecord} (hv : ∀ rec ∈ rs, rec.Valid) :
    readRecords (rs.flatMap encode) = some ⟨rs.map stored, [], .ok ()⟩ := by
  have hend : ([] : Bytes).length < 16 := Nat.zero_lt_succ 15
  have hread := readRecords_encode hv (readRecords_short hend)
  rwa [List.append_nil, List.append_nil] at hread

/-- A file that is cut anywhere gives its complete records. The end of the file is
an error exactly if the torn record has its header. -/
theorem readRecords_cut {rs : List WalRecord} (hv : ∀ rec ∈ rs, rec.Valid) {n : ℕ}
    (hn : n ≤ (rs.flatMap encode).length) :
    ∃ torn, readRecords ((rs.flatMap encode).take n) =
      some ⟨(complete encode n rs).map stored, torn,
        if tornLength encode n rs < 16 then .ok () else .error .unexpectedEof⟩ := by
  obtain ⟨torn, htake, hlen, htorn⟩ := Framing.take_flatMap hn
  have hcomplete : ∀ rec ∈ complete encode n rs, rec.Valid :=
    fun rec hr => hv rec (Framing.complete_subset n rs hr)
  have hread : readRecords torn = some ⟨[], torn,
      if tornLength encode n rs < 16 then .ok () else .error .unexpectedEof⟩ := by
    by_cases hshort : tornLength encode n rs < 16
    · rw [if_pos hshort]
      exact readRecords_short (hlen.trans_lt hshort)
    · rw [if_neg hshort]
      rcases htorn with rfl | ⟨rec, hmem, hlt, hpart⟩
      · exact absurd (hlen ▸ Nat.zero_lt_succ 15) hshort
      · have herror := readFrom_torn (hv rec hmem) hpart hlt (by omega)
        exact Framing.readAll_of_error herror torn.length
  refine ⟨torn, ?_⟩
  rw [htake, readRecords_encode hcomplete hread, List.append_nil]

/-- What a record says: its revision, its key, and its value unless it is a
deletion. -/
def change (rec : WalRecord) : ℤ × Bytes × Option Bytes := (rec.rev, rec.key, rec.value)

/-- The records of a file, in whatever batches they were written, are read back one
after the other, and then the file is at its end. -/
theorem readRecords_batches {batches : List (List WalRecord)}
    (hv : ∀ batch ∈ batches, ∀ rec ∈ batch, rec.Valid) :
    ∃ o, readRecords (batches.flatMap (fun batch => batch.flatMap encode)) = some o ∧
      o.records.map change = batches.flatten.map change ∧ o.result = .ok () ∧
      o.leftover = [] ∧ (readFrom o.leftover).1 = .ok none := by
  have hvalid : ∀ rec ∈ batches.flatten, rec.Valid := by
    intro rec hr
    obtain ⟨batch, hb, hr⟩ := List.mem_flatten.mp hr
    exact hv batch hb rec hr
  have hfile : batches.flatMap (fun batch => batch.flatMap encode) =
      batches.flatten.flatMap encode := by
    rw [← List.flatMap_id (L := batches), List.flatMap_assoc]
    rfl
  rw [hfile]
  refine ⟨_, readRecords_whole hvalid, ?_, rfl, rfl, readFrom_end_iff.mpr (Nat.zero_lt_succ 15)⟩
  rw [List.map_map]
  rfl

/-- Two batches with an empty value, a deletion and a negative revision. -/
theorem readRecords_batches_deletion :
    ∃ o, readRecords ([[⟨7, [97], some [], true⟩, ⟨8, [97], none, true⟩],
        [⟨-1, [], some [1, 2], false⟩]].flatMap (fun batch => batch.flatMap encode)) = some o ∧
      o.records.map change = [(7, [97], some []), (8, [97], none), (-1, [], some [1, 2])] ∧
      o.result = .ok () ∧ o.leftover = [] ∧ (readFrom o.leftover).1 = .ok none := by
  have hv : ∀ batch ∈ [[⟨7, [97], some [], true⟩, ⟨8, [97], none, true⟩],
      [(⟨-1, [], some [1, 2], false⟩ : WalRecord)]], ∀ rec ∈ batch, rec.Valid := by
    intro batch hb rec hr
    simp only [List.mem_cons, List.not_mem_nil, or_false] at hb
    rcases hb with rfl | rfl <;> simp only [List.mem_cons, List.not_mem_nil, or_false] at hr
    · rcases hr with rfl | rfl <;> exact ⟨by decide, by decide, by decide, by decide⟩
    · subst hr
      exact ⟨by decide, by decide, by decide, by decide⟩
  exact readRecords_batches hv

end WalRecord
end MemEtcd
