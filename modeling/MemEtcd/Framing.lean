import Mathlib.Tactic

/-! Streams of self-delimiting records. A reader is called again and again until
it reports the end of the stream or fails; what the last call found in front of
it is the leftover of the stream. -/
namespace Framing

variable {β ρ ε : Type*}

structure Outcome (β ρ ε : Type*) where
  records : List ρ
  leftover : List β
  result : Except ε Unit

def Outcome.cons (r : ρ) (o : Outcome β ρ ε) : Outcome β ρ ε :=
  ⟨r :: o.records, o.leftover, o.result⟩

/-- Calls `read` at most `fuel` times. -/
def readAll (read : List β → Except ε (Option ρ) × List β) :
    ℕ → List β → Option (Outcome β ρ ε)
  | 0, _ => none
  | fuel + 1, stream =>
    match read stream with
    | (.error e, _) => some ⟨[], stream, .error e⟩
    | (.ok none, _) => some ⟨[], stream, .ok ()⟩
    | (.ok (some r), rest) => (readAll read fuel rest).map (Outcome.cons r)

variable {read : List β → Except ε (Option ρ) × List β}

theorem readAll_of_record {stream rest : List β} {r : ρ}
    (h : read stream = (.ok (some r), rest)) (fuel : ℕ) :
    readAll read (fuel + 1) stream = (readAll read fuel rest).map (Outcome.cons r) := by
  rw [readAll, h]

theorem readAll_of_end {stream rest : List β} (h : read stream = (.ok none, rest)) (fuel : ℕ) :
    readAll read (fuel + 1) stream = some ⟨[], stream, .ok ()⟩ := by
  rw [readAll, h]

theorem readAll_of_error {stream rest : List β} {e : ε} (h : read stream = (.error e, rest))
    (fuel : ℕ) : readAll read (fuel + 1) stream = some ⟨[], stream, .error e⟩ := by
  rw [readAll, h]

/-- A finished reading needs no more calls. -/
theorem readAll_mono {fuel : ℕ} {stream : List β} {o : Outcome β ρ ε}
    (h : readAll read fuel stream = some o) {more : ℕ} (hm : fuel ≤ more) :
    readAll read more stream = some o := by
  induction fuel generalizing stream o more with
  | zero => contradiction
  | succ fuel ih =>
    obtain ⟨more, rfl⟩ := Nat.exists_eq_add_of_le' hm
    have hle : fuel ≤ more + fuel := Nat.le_add_left fuel more
    rcases hr : read stream with ⟨res, rest⟩
    rcases res with e | found
    · rw [readAll_of_error hr] at h
      exact (readAll_of_error hr (more + fuel)).trans h
    · rcases found with _ | r
      · rw [readAll_of_end hr] at h
        exact (readAll_of_end hr (more + fuel)).trans h
      · rw [readAll_of_record hr] at h
        obtain ⟨o', ho', rfl⟩ := Option.map_eq_some_iff.mp h
        have hmore : readAll read (more + (fuel + 1)) stream = _ :=
          readAll_of_record hr (more + fuel)
        rw [hmore, ih ho' hle]
        rfl

/-- A reader that uses up the stream comes to an end. -/
theorem readAll_isSome
    (hread : ∀ {stream rest : List β} {r : ρ}, read stream = (.ok (some r), rest) →
      rest.length < stream.length)
    {fuel : ℕ} {stream : List β} (h : stream.length < fuel) :
    (readAll read fuel stream).isSome := by
  induction fuel generalizing stream with
  | zero => omega
  | succ fuel ih =>
    rcases hr : read stream with ⟨res, rest⟩
    rcases res with e | found
    · rw [readAll_of_error hr]
      rfl
    · rcases found with _ | r
      · rw [readAll_of_end hr]
        rfl
      · have hshort := hread hr
        rw [readAll_of_record hr, Option.isSome_map]
        apply ih
        omega

/-- The number of calls does not show in the outcome. -/
theorem readAll_unique {fuel fuel' : ℕ} {stream : List β} {o o' : Outcome β ρ ε}
    (h : readAll read fuel stream = some o) (h' : readAll read fuel' stream = some o') :
    o = o' := by
  have hmax := readAll_mono h (le_max_left fuel fuel')
  rw [readAll_mono h' (le_max_right fuel fuel')] at hmax
  exact (Option.some.inj hmax).symm

/-! ### Encoded records -/

variable {encode : ρ → List β} {stored : ρ → ρ}

/-- Encoded records in front of a stream are read first. -/
theorem readAll_encode {rs : List ρ}
    (hread : ∀ r ∈ rs, ∀ rest, read (encode r ++ rest) = (.ok (some (stored r)), rest))
    (fuel : ℕ) (tail : List β) :
    readAll read (rs.length + fuel) (rs.flatMap encode ++ tail) =
      (readAll read fuel tail).map
        (fun o => ⟨rs.map stored ++ o.records, o.leftover, o.result⟩) := by
  induction rs with
  | nil =>
    rw [List.length_nil, Nat.zero_add]
    exact Option.map_id'.symm
  | cons r rs ih =>
    have hhead := hread r List.mem_cons_self (rs.flatMap encode ++ tail)
    have hrest := ih (fun r' hr' => hread r' (List.mem_cons_of_mem r hr'))
    rw [List.flatMap_cons, List.append_assoc, List.length_cons, Nat.add_right_comm,
      readAll_of_record hhead, hrest, Option.map_map]
    rfl

/-- A reader that takes nothing but encodings splits the stream into the
encodings of what it has read and the leftover. -/
theorem readAll_split
    (hexact : ∀ {stream rest : List β} {r : ρ}, read stream = (.ok (some r), rest) →
      stream = encode r ++ rest)
    {fuel : ℕ} {stream : List β} {o : Outcome β ρ ε} (h : readAll read fuel stream = some o) :
    stream = o.records.flatMap encode ++ o.leftover ∧
      (read o.leftover).1 = o.result.map (fun _ => none) := by
  induction fuel generalizing stream o with
  | zero => contradiction
  | succ fuel ih =>
    rcases hr : read stream with ⟨res, rest⟩
    rcases res with e | found
    · rw [readAll_of_error hr] at h
      cases h
      exact ⟨rfl, congrArg Prod.fst hr⟩
    · rcases found with _ | r
      · rw [readAll_of_end hr] at h
        cases h
        exact ⟨rfl, congrArg Prod.fst hr⟩
      · rw [readAll_of_record hr] at h
        obtain ⟨o', ho', rfl⟩ := Option.map_eq_some_iff.mp h
        obtain ⟨hsplit, hlast⟩ := ih ho'
        refine ⟨?_, hlast⟩
        calc stream = encode r ++ rest := hexact hr
          _ = encode r ++ (o'.records.flatMap encode ++ o'.leftover) := by rw [← hsplit]
          _ = (r :: o'.records).flatMap encode ++ o'.leftover := by
            rw [List.flatMap_cons, List.append_assoc]

/-- What is appended to a stream that ended without a failure is read behind its
leftover. -/
theorem readAll_append
    (hstable : ∀ {stream rest : List β} {r : ρ}, read stream = (.ok (some r), rest) →
      ∀ more, read (stream ++ more) = (.ok (some r), rest ++ more))
    {fuel : ℕ} {stream : List β} {o : Outcome β ρ ε} (h : readAll read fuel stream = some o)
    (hok : o.result = .ok ()) (fuel' : ℕ) (more : List β) :
    readAll read (o.records.length + fuel') (stream ++ more) =
      (readAll read fuel' (o.leftover ++ more)).map
        (fun o' => ⟨o.records ++ o'.records, o'.leftover, o'.result⟩) := by
  induction fuel generalizing stream o with
  | zero => contradiction
  | succ fuel ih =>
    rcases hr : read stream with ⟨res, rest⟩
    rcases res with e | found
    · rw [readAll_of_error hr] at h
      cases h
      contradiction
    · rcases found with _ | r
      · rw [readAll_of_end hr] at h
        cases h
        rw [List.length_nil, Nat.zero_add]
        exact Option.map_id'.symm
      · rw [readAll_of_record hr] at h
        obtain ⟨o', ho', rfl⟩ := Option.map_eq_some_iff.mp h
        have hlen : (o'.cons r).records.length + fuel' = o'.records.length + fuel' + 1 :=
          Nat.add_right_comm _ 1 fuel'
        rw [hlen, readAll_of_record (hstable hr more), ih ho' hok, Option.map_map]
        rfl

/-! ### Cut streams -/

variable (encode)

/-- The records that lie completely within the first `n` items of their encoding. -/
def complete : ℕ → List ρ → List ρ
  | _, [] => []
  | n, r :: rs =>
    if (encode r).length ≤ n then r :: complete (n - (encode r).length) rs else []

/-- How far a cut after `n` items reaches into the record that it tears. -/
def tornLength : ℕ → List ρ → ℕ
  | n, [] => n
  | n, r :: rs =>
    if (encode r).length ≤ n then tornLength (n - (encode r).length) rs else n

variable {encode}

theorem complete_subset (n : ℕ) (rs : List ρ) : complete encode n rs ⊆ rs := by
  induction rs generalizing n with
  | nil => exact List.Subset.refl []
  | cons r rs ih =>
    rw [complete]
    split_ifs
    · exact List.cons_subset_cons r (ih _)
    · exact List.nil_subset _

theorem complete_prefix (n : ℕ) (rs : List ρ) : complete encode n rs <+: rs := by
  induction rs generalizing n with
  | nil => exact List.prefix_rfl
  | cons r rs ih =>
    rw [complete]
    split_ifs
    · exact List.cons_prefix_cons.mpr ⟨rfl, ih _⟩
    · exact List.nil_prefix

/-- A cut before the end of the encoding loses a record. -/
theorem length_complete_lt {n : ℕ} {rs : List ρ} (h : n < (rs.flatMap encode).length) :
    (complete encode n rs).length < rs.length := by
  induction rs generalizing n with
  | nil => contradiction
  | cons r rs ih =>
    rw [List.flatMap_cons, List.length_append] at h
    rw [complete]
    split_ifs with hr
    · have := @ih (n - (encode r).length) (by omega)
      rw [List.length_cons, List.length_cons]
      omega
    · exact Nat.zero_lt_succ _

/-- A cut stream is the complete records and a proper part of the next one. -/
theorem take_flatMap {n : ℕ} {rs : List ρ} (h : n ≤ (rs.flatMap encode).length) :
    ∃ torn, (rs.flatMap encode).take n = (complete encode n rs).flatMap encode ++ torn ∧
      torn.length = tornLength encode n rs ∧
      (torn = [] ∨ ∃ r ∈ rs, torn.length < (encode r).length ∧ torn <+: encode r) := by
  induction rs generalizing n with
  | nil =>
    have hn : n = 0 := Nat.le_zero.mp h
    refine ⟨[], ?_, ?_, Or.inl rfl⟩
    · rw [hn]
      rfl
    · rw [hn]
      rfl
  | cons r rs ih =>
    rw [List.flatMap_cons, List.length_append] at h
    rw [List.flatMap_cons, complete, tornLength]
    by_cases hle : (encode r).length ≤ n
    · rw [if_pos hle, if_pos hle]
      obtain ⟨torn, htake, hlen, htorn⟩ := ih (n := n - (encode r).length) (by omega)
      refine ⟨torn, ?_, hlen, ?_⟩
      · rw [List.take_append, List.take_of_length_le hle, htake, List.flatMap_cons,
          List.append_assoc]
      · rcases htorn with hnil | ⟨r', hmem, hpart⟩
        · exact Or.inl hnil
        · exact Or.inr ⟨r', List.mem_cons_of_mem r hmem, hpart⟩
    · rw [if_neg hle, if_neg hle]
      have hlt : n < (encode r).length := Nat.lt_of_not_le hle
      have hlen : ((encode r).take n).length = n := List.length_take_of_le hlt.le
      refine ⟨(encode r).take n, ?_, hlen, ?_⟩
      · rw [List.take_append_of_le_length hlt.le]
        rfl
      · exact Or.inr ⟨r, List.mem_cons_self, hlen.trans_lt hlt, List.take_prefix n _⟩

end Framing
