import MemEtcd.TextTrim

/-! The peer list of the command line, `1@host:port,2@host:port`. The parser accepts one
language: comma-separated pieces, each blank or a peer, with white space around every part.
The first piece that is neither decides about the error. -/
namespace MemEtcd.Peers

open TextTrim (trim Tight Padded)

abbrev NodeName := ℕ
abbrev Address := List Char

/-- `char::is_whitespace`, the Unicode property `White_Space`. -/
def isWhitespace (c : Char) : Bool :=
  let n := c.toNat
  (9 ≤ n && n ≤ 13) || n == 32 || n == 133 || n == 160 || n == 5760 || (8192 ≤ n && n ≤ 8202) ||
    n == 8232 || n == 8233 || n == 8239 || n == 8287 || n == 12288

/-- The kinds of `ParseIntError` that `u64::from_str` has. -/
inductive ParseIntError where
  | empty
  | invalidDigit
  | posOverflow
  deriving DecidableEq, Repr

def digitValue (c : Char) : ℕ := c.toNat - 48

/-- The loop of `from_str_radix`: an overflow is noticed where it happens, a bad digit
before the overflow of its own place. -/
def parseDigits (acc : ℕ) : List Char → Except ParseIntError ℕ
  | [] => .ok acc
  | c :: cs =>
    if c.isDigit then
      if acc * 10 < 2 ^ 64 then
        if acc * 10 + digitValue c < 2 ^ 64 then parseDigits (acc * 10 + digitValue c) cs
        else .error .posOverflow
      else .error .posOverflow
    else .error .invalidDigit

/-- `u64::from_str`. -/
def parseU64 : List Char → Except ParseIntError ℕ
  | [] => .error .empty
  | ['+'] => .error .invalidDigit
  | ['-'] => .error .invalidDigit
  | '+' :: digits => parseDigits 0 digits
  | digits => parseDigits 0 digits

inductive PeerError where
  | invalidEntry (entry : List Char)
  | badId (e : ParseIntError)
  deriving DecidableEq, Repr

/-- `entry.splitn(2, '@')`, if there are two parts. -/
def splitAt (entry : List Char) : Option (List Char × List Char) :=
  match entry.dropWhile (· != '@') with
  | [] => none
  | _ :: addr => some (entry.takeWhile (· != '@'), addr)

/-- The body of the loop of `parse_peers`: nothing for a blank entry. -/
def parseEntry (entry : List Char) : Except PeerError (Option (NodeName × Address)) :=
  let entry := trim isWhitespace entry
  if entry.isEmpty then .ok none
  else match splitAt entry with
    | none => .error (.invalidEntry entry)
    | some (idText, addrText) =>
      match parseU64 (trim isWhitespace idText) with
      | .error e => .error (.badId e)
      | .ok id => .ok (some (id, trim isWhitespace addrText))

def parseEntries (peers : List (NodeName × Address)) :
    List (List Char) → Except PeerError (List (NodeName × Address))
  | [] => .ok peers
  | entry :: entries =>
    match parseEntry entry with
    | .error e => .error e
    | .ok none => parseEntries peers entries
    | .ok (some peer) => parseEntries (peers ++ [peer]) entries

def parsePeers (peersStr : List Char) : Except PeerError (List (NodeName × Address)) :=
  parseEntries [] (peersStr.splitOn ',')

/-! ### The language -/

/-- The text is a decimal numeral: digits, with a plus sign in front or without. -/
structure Numeral (text : List Char) (n : ℕ) : Prop where
  small : n < 2 ^ 64
  digits : ∃ ds : List Char, ds ≠ [] ∧ (∀ c ∈ ds, c.isDigit = true) ∧
    n = ds.foldl (fun acc c => acc * 10 + digitValue c) 0 ∧ (text = ds ∨ text = '+' :: ds)

/-- A piece of text that writes a peer. -/
structure Writes (text : List Char) (peer : NodeName × Address) : Prop where
  tight : Tight isWhitespace peer.2
  parts : ∃ idText addrText numeral : List Char, text = idText ++ '@' :: addrText ∧
    Numeral numeral peer.1 ∧ Padded isWhitespace idText numeral ∧
    Padded isWhitespace addrText peer.2

/-- A piece of text that is neither blank nor a peer, and what is wrong with it. -/
inductive Refused : List Char → PeerError → Prop
  | noAt {text : List Char} : trim isWhitespace text ≠ [] → '@' ∉ text →
      Refused text (.invalidEntry (trim isWhitespace text))
  | badId {idText addrText : List Char} {e : ParseIntError} : '@' ∉ idText →
      parseU64 (trim isWhitespace idText) = .error e →
      Refused (idText ++ '@' :: addrText) (.badId e)

/-- Pieces of text, each of them blank or a peer. -/
inductive Lists : List (List Char) → List (NodeName × Address) → Prop
  | nil : Lists [] []
  | blank {text : List Char} {texts : List (List Char)} {peers : List (NodeName × Address)} :
      (∀ c ∈ text, isWhitespace c = true) → Lists texts peers → Lists (text :: texts) peers
  | peer {text : List Char} {texts : List (List Char)} {p : NodeName × Address}
      {peers : List (NodeName × Address)} :
      Writes text p → Lists texts peers → Lists (text :: texts) (p :: peers)

/-! ### Numerals -/

theorem le_foldl_digits (acc : ℕ) (ds : List Char) :
    acc ≤ ds.foldl (fun acc c => acc * 10 + digitValue c) acc := by
  induction ds generalizing acc with
  | nil => exact le_refl _
  | cons c ds ih =>
    have := ih (acc * 10 + digitValue c)
    rw [List.foldl_cons]
    omega

theorem parseDigits_eq_ok_iff {acc n : ℕ} {ds : List Char} (hacc : acc < 2 ^ 64) :
    parseDigits acc ds = .ok n ↔ (∀ c ∈ ds, c.isDigit = true) ∧
      n = ds.foldl (fun acc c => acc * 10 + digitValue c) acc ∧ n < 2 ^ 64 := by
  induction ds generalizing acc with
  | nil =>
    unfold parseDigits
    constructor
    · intro h
      cases h
      exact ⟨fun c hc => (List.not_mem_nil hc).elim, rfl, hacc⟩
    · rintro ⟨-, rfl, -⟩
      rfl
  | cons c ds ih =>
    unfold parseDigits
    rw [List.foldl_cons]
    have hle := le_foldl_digits (acc * 10 + digitValue c) ds
    split_ifs with hdigit hmul hadd
    · rw [ih hadd]
      simp only [List.forall_mem_cons, hdigit, true_and]
    · refine iff_of_false (fun h => nomatch h) ?_
      rintro ⟨-, rfl, hn⟩
      omega
    · refine iff_of_false (fun h => nomatch h) ?_
      rintro ⟨-, rfl, hn⟩
      omega
    · refine iff_of_false (fun h => nomatch h) ?_
      rintro ⟨hall, -⟩
      exact hdigit (hall c List.mem_cons_self)

theorem parseU64_eq_ok_iff {text : List Char} {n : ℕ} :
    parseU64 text = .ok n ↔ Numeral text n := by
  have hplus : Char.isDigit '+' = false := by decide
  have hminus : Char.isDigit '-' = false := by decide
  have hplain {ds : List Char} (hne : ds ≠ []) :
      parseDigits 0 ds = .ok n ↔ (∀ c ∈ ds, c.isDigit = true) ∧
        n = ds.foldl (fun acc c => acc * 10 + digitValue c) 0 ∧ n < 2 ^ 64 :=
    parseDigits_eq_ok_iff (by decide)
  constructor
  · intro h
    unfold parseU64 at h
    split at h
    · contradiction
    · contradiction
    · contradiction
    · rename_i digits hne
      have hds : digits ≠ [] := by
        rintro rfl
        exact hne rfl
      obtain ⟨hall, hn, hsmall⟩ := (hplain hds).mp h
      exact ⟨hsmall, digits, hds, hall, hn, Or.inr rfl⟩
    · rename_i hnil _ _ _
      obtain ⟨hall, hn, hsmall⟩ := (hplain hnil).mp h
      exact ⟨hsmall, text, hnil, hall, hn, Or.inl rfl⟩
  · rintro ⟨hsmall, ds, hds, hall, hn, rfl | rfl⟩
    · have hparse := (hplain hds).mpr ⟨hall, hn, hsmall⟩
      unfold parseU64
      split
      · exact absurd rfl hds
      · exact absurd (hall '+' List.mem_cons_self) (by rw [hplus]; exact Bool.false_ne_true)
      · exact absurd (hall '-' List.mem_cons_self) (by rw [hminus]; exact Bool.false_ne_true)
      · exact absurd (hall '+' List.mem_cons_self) (by rw [hplus]; exact Bool.false_ne_true)
      · exact hparse
    · have hparse := (hplain hds).mpr ⟨hall, hn, hsmall⟩
      unfold parseU64
      split
      · contradiction
      · rename_i heq
        exact absurd (List.cons.inj heq).2 hds
      · rename_i heq
        exact absurd (List.cons.inj heq).1 (by decide)
      · rename_i heq
        rw [← (List.cons.inj heq).2]
        exact hparse
      · rename_i hno
        exact absurd rfl (hno ds)

theorem not_isWhitespace_of_isDigit {c : Char} (h : c.isDigit = true) : isWhitespace c = false := by
  have hc : 48 ≤ c.toNat ∧ c.toNat ≤ 57 := by
    unfold Char.isDigit at h
    rw [Bool.and_eq_true, decide_eq_true_eq, decide_eq_true_eq] at h
    exact h
  unfold isWhitespace
  simp only [Bool.or_eq_false_iff, Bool.and_eq_false_iff, decide_eq_false_iff_not, beq_eq_false_iff_ne]
  omega

theorem Numeral.not_mem_at {text : List Char} {n : ℕ} (h : Numeral text n) : '@' ∉ text := by
  obtain ⟨-, ds, -, hall, -, htext⟩ := h
  have hds : '@' ∉ ds := fun hmem => absurd (hall _ hmem) (by decide)
  rcases htext with rfl | rfl
  · exact hds
  · simpa using hds

theorem Numeral.not_whitespace {text : List Char} {n : ℕ} (h : Numeral text n) :
    ∀ c ∈ text, isWhitespace c = false := by
  obtain ⟨-, ds, -, hall, -, htext⟩ := h
  have hds : ∀ c ∈ ds, isWhitespace c = false :=
    fun c hc => not_isWhitespace_of_isDigit (hall c hc)
  rcases htext with rfl | rfl
  · exact hds
  · rw [List.forall_mem_cons]
    exact ⟨by decide, hds⟩

theorem Numeral.tight {text : List Char} {n : ℕ} (h : Numeral text n) :
    Tight isWhitespace text :=
  ⟨fun c hc => h.not_whitespace c (List.mem_of_mem_head? hc),
    fun c hc => h.not_whitespace c (List.mem_of_mem_getLast? hc)⟩

/-! ### Entries -/

theorem splitAt_eq_some_iff {entry idText addrText : List Char} :
    splitAt entry = some (idText, addrText) ↔
      entry = idText ++ '@' :: addrText ∧ '@' ∉ idText := by
  unfold splitAt
  constructor
  · intro h
    have htake := List.takeWhile_append_dropWhile (p := (· != '@')) (l := entry)
    cases hd : entry.dropWhile (· != '@') with
    | nil =>
      rw [hd] at h
      contradiction
    | cons c rest =>
      rw [hd] at h htake
      cases h
      have hc : c = '@' := by
        have hnot := List.head?_dropWhile_not (· != '@') entry
        rw [hd] at hnot
        simpa using hnot
      subst hc
      refine ⟨htake.symm, ?_⟩
      intro hmem
      have := List.mem_takeWhile_imp hmem
      simp at this
  · rintro ⟨rfl, hno⟩
    have hall : ∀ c ∈ idText, (c != '@') = true := by
      intro c hc
      simp only [bne_iff_ne]
      rintro rfl
      exact hno hc
    rw [TextTrim.dropWhile_append_of_all hall (by simp), List.takeWhile_append_of_pos hall]
    simp

theorem splitAt_eq_none_iff {entry : List Char} : splitAt entry = none ↔ '@' ∉ entry := by
  constructor
  · intro h hmem
    obtain ⟨front, back, he, hno⟩ := List.eq_append_cons_of_mem hmem
    rw [(splitAt_eq_some_iff).mpr ⟨he, hno⟩] at h
    contradiction
  · intro h
    cases hs : splitAt entry with
    | none => rfl
    | some parts =>
      obtain ⟨he, -⟩ := splitAt_eq_some_iff.mp hs
      rw [he] at h
      exact absurd (List.mem_append_right _ List.mem_cons_self) h

/-- White space around a text does not matter. -/
theorem trim_append (before text after : List Char) (hb : ∀ c ∈ before, isWhitespace c = true)
    (ha : ∀ c ∈ after, isWhitespace c = true) :
    trim isWhitespace (before ++ text ++ after) = trim isWhitespace text := by
  rw [TextTrim.trim_eq_iff]
  obtain ⟨before', after', htext, hb', ha'⟩ := TextTrim.trim_padded (p := isWhitespace) text
  refine ⟨TextTrim.trim_tight text, before ++ before', after' ++ after, ?_, ?_, ?_⟩
  · conv_lhs => rw [htext]
    simp only [List.append_assoc]
  · intro c hc
    exact (List.mem_append.mp hc).elim (hb c) (hb' c)
  · intro c hc
    exact (List.mem_append.mp hc).elim (ha' c) (ha c)

theorem at_not_whitespace : isWhitespace '@' = false := by decide

theorem mem_trim_at {text : List Char} : '@' ∈ trim isWhitespace text ↔ '@' ∈ text := by
  obtain ⟨before, after, htext, hb, ha⟩ := TextTrim.trim_padded (p := isWhitespace) text
  constructor
  · intro h
    rw [htext]
    exact List.mem_append_left _ (List.mem_append_right _ h)
  · intro h
    rw [htext] at h
    rcases List.mem_append.mp h with h | h
    · rcases List.mem_append.mp h with h | h
      · have := hb _ h
        rw [at_not_whitespace] at this
        contradiction
      · exact h
    · have := ha _ h
      rw [at_not_whitespace] at this
      contradiction

/-- The parts of a trimmed entry are those of the entry, up to white space. -/
theorem trim_split {idText : List Char} (addrText : List Char) (hno : '@' ∉ idText) :
    ∃ idText' addrText', splitAt (trim isWhitespace (idText ++ '@' :: addrText)) =
        some (idText', addrText') ∧
      trim isWhitespace idText' = trim isWhitespace idText ∧
      trim isWhitespace addrText' = trim isWhitespace addrText := by
  obtain ⟨before, after, htext, hb, ha⟩ :=
    TextTrim.trim_padded (p := isWhitespace) (idText ++ '@' :: addrText)
  have hmem : '@' ∈ trim isWhitespace (idText ++ '@' :: addrText) :=
    mem_trim_at.mpr (List.mem_append_right _ List.mem_cons_self)
  obtain ⟨idText', addrText', hcore, hno'⟩ := List.eq_append_cons_of_mem hmem
  refine ⟨idText', addrText', splitAt_eq_some_iff.mpr ⟨hcore, hno'⟩, ?_⟩
  have hbefore : '@' ∉ before := by
    intro h
    have := hb _ h
    rw [at_not_whitespace] at this
    contradiction
  have heq : splitAt (idText ++ '@' :: addrText) =
      some (before ++ idText', addrText' ++ after) := by
    rw [splitAt_eq_some_iff]
    refine ⟨?_, ?_⟩
    · conv_lhs => rw [htext, hcore]
      simp only [List.append_assoc, List.cons_append]
    · intro h
      exact (List.mem_append.mp h).elim hbefore hno'
  rw [splitAt_eq_some_iff.mpr ⟨rfl, hno⟩] at heq
  obtain ⟨rfl, rfl⟩ := Prod.mk.inj (Option.some.inj heq)
  have hid := trim_append before idText' [] hb (by simp)
  have haddr := trim_append [] addrText' after (by simp) ha
  rw [List.append_nil] at hid
  rw [List.nil_append] at haddr
  exact ⟨hid.symm, haddr.symm⟩

theorem parseEntry_blank {text : List Char} (h : ∀ c ∈ text, isWhitespace c = true) :
    parseEntry text = .ok none := by
  unfold parseEntry
  rw [TextTrim.trim_eq_nil_iff.mpr h]
  rfl

/-- An entry with an `@` is read part by part. -/
theorem parseEntry_parts {idText addrText : List Char} (hno : '@' ∉ idText) :
    parseEntry (idText ++ '@' :: addrText) = match parseU64 (trim isWhitespace idText) with
      | .error e => .error (.badId e)
      | .ok id => .ok (some (id, trim isWhitespace addrText)) := by
  obtain ⟨idText', addrText', hsplit, hid, haddr⟩ := trim_split addrText hno
  have hne : (trim isWhitespace (idText ++ '@' :: addrText)).isEmpty = false := by
    have hmem : '@' ∈ trim isWhitespace (idText ++ '@' :: addrText) :=
      mem_trim_at.mpr (List.mem_append_right _ List.mem_cons_self)
    cases hcore : trim isWhitespace (idText ++ '@' :: addrText) with
    | nil =>
      rw [hcore] at hmem
      contradiction
    | cons c cs => rfl
  unfold parseEntry
  simp only [hne, hsplit, hid, haddr, Bool.false_eq_true, if_false]

theorem parseEntry_noAt {text : List Char} (hne : trim isWhitespace text ≠ [])
    (hno : '@' ∉ text) :
    parseEntry text = .error (.invalidEntry (trim isWhitespace text)) := by
  have hsplit : splitAt (trim isWhitespace text) = none :=
    splitAt_eq_none_iff.mpr (fun h => hno (mem_trim_at.mp h))
  have hempty : (trim isWhitespace text).isEmpty = false := by
    cases htrim : trim isWhitespace text with
    | nil => exact absurd htrim hne
    | cons c cs => rfl
  unfold parseEntry
  simp only [hempty, hsplit, Bool.false_eq_true, if_false]

/-- Every piece of text is blank, without `@`, or has a first `@`. -/
theorem entry_cases (text : List Char) :
    (∀ c ∈ text, isWhitespace c = true) ∨
    (trim isWhitespace text ≠ [] ∧ '@' ∉ text) ∨
    ∃ idText addrText, text = idText ++ '@' :: addrText ∧ '@' ∉ idText := by
  by_cases hmem : '@' ∈ text
  · obtain ⟨front, back, he, hno⟩ := List.eq_append_cons_of_mem hmem
    exact Or.inr (Or.inr ⟨front, back, he, hno⟩)
  · by_cases hnil : trim isWhitespace text = []
    · exact Or.inl (TextTrim.trim_eq_nil_iff.mp hnil)
    · exact Or.inr (Or.inl ⟨hnil, hmem⟩)

theorem Padded.not_mem_at {text : List Char} {numeral : List Char} {n : ℕ}
    (hn : Numeral numeral n) (h : Padded isWhitespace text numeral) : '@' ∉ text := by
  obtain ⟨before, after, rfl, hb, ha⟩ := h
  have hspace {l : List Char} (hl : ∀ c ∈ l, isWhitespace c = true) : '@' ∉ l := by
    intro hmem
    have := hl _ hmem
    rw [at_not_whitespace] at this
    contradiction
  rw [List.mem_append, List.mem_append, not_or, not_or]
  exact ⟨⟨hspace hb, hn.not_mem_at⟩, hspace ha⟩

theorem parseEntry_eq_some_iff {text : List Char} {peer : NodeName × Address} :
    parseEntry text = .ok (some peer) ↔ Writes text peer := by
  constructor
  · intro h
    rcases entry_cases text with hblank | ⟨hne, hno⟩ | ⟨idText, addrText, rfl, hno⟩
    · rw [parseEntry_blank hblank] at h
      cases h
    · rw [parseEntry_noAt hne hno] at h
      contradiction
    · rw [parseEntry_parts hno] at h
      split at h
      · contradiction
      · rename_i id hid
        cases h
        exact ⟨TextTrim.trim_tight _, idText, addrText, _, rfl, parseU64_eq_ok_iff.mp hid,
          TextTrim.trim_padded idText, TextTrim.trim_padded addrText⟩
  · rintro ⟨htight, idText, addrText, numeral, rfl, hnum, hid, haddr⟩
    rw [parseEntry_parts (Padded.not_mem_at hnum hid),
      TextTrim.trim_eq_iff.mpr ⟨hnum.tight, hid⟩, TextTrim.trim_eq_iff.mpr ⟨htight, haddr⟩,
      parseU64_eq_ok_iff.mpr hnum]

theorem parseEntry_eq_none_iff {text : List Char} :
    parseEntry text = .ok none ↔ ∀ c ∈ text, isWhitespace c = true := by
  constructor
  · intro h
    rcases entry_cases text with hblank | ⟨hne, hno⟩ | ⟨idText, addrText, rfl, hno⟩
    · exact hblank
    · rw [parseEntry_noAt hne hno] at h
      contradiction
    · rw [parseEntry_parts hno] at h
      split at h <;> cases h
  · exact parseEntry_blank

theorem parseEntry_eq_error_iff {text : List Char} {e : PeerError} :
    parseEntry text = .error e ↔ Refused text e := by
  constructor
  · intro h
    rcases entry_cases text with hblank | ⟨hne, hno⟩ | ⟨idText, addrText, rfl, hno⟩
    · rw [parseEntry_blank hblank] at h
      contradiction
    · rw [parseEntry_noAt hne hno] at h
      cases h
      exact .noAt hne hno
    · rw [parseEntry_parts hno] at h
      split at h
      · rename_i hid
        cases h
        exact .badId hno hid
      · contradiction
  · intro h
    cases h with
    | noAt hne hno => exact parseEntry_noAt hne hno
    | badId hno hid => rw [parseEntry_parts hno, hid]

/-! ### The whole list -/

theorem parseEntries_eq_ok_iff {texts : List (List Char)}
    {acc peers : List (NodeName × Address)} :
    parseEntries acc texts = .ok peers ↔ ∃ rest, peers = acc ++ rest ∧ Lists texts rest := by
  induction texts generalizing acc with
  | nil =>
    unfold parseEntries
    constructor
    · intro h
      cases h
      exact ⟨[], (List.append_nil _).symm, .nil⟩
    · rintro ⟨rest, rfl, hlists⟩
      cases hlists
      rw [List.append_nil]
  | cons text texts ih =>
    unfold parseEntries
    constructor
    · intro h
      split at h
      · contradiction
      · rename_i hentry
        obtain ⟨rest, hrest, hlists⟩ := ih.mp h
        exact ⟨rest, hrest, .blank (parseEntry_eq_none_iff.mp hentry) hlists⟩
      · rename_i peer hentry
        obtain ⟨rest, hrest, hlists⟩ := ih.mp h
        refine ⟨peer :: rest, ?_, .peer (parseEntry_eq_some_iff.mp hentry) hlists⟩
        rw [hrest, List.append_assoc]
        rfl
    · rintro ⟨rest, hrest, hlists⟩
      cases hlists with
      | blank hblank hlists =>
        rw [parseEntry_eq_none_iff.mpr hblank]
        exact ih.mpr ⟨rest, hrest, hlists⟩
      | @peer _ _ peer rest hpeer hlists =>
        rw [parseEntry_eq_some_iff.mpr hpeer]
        refine ih.mpr ⟨rest, ?_, hlists⟩
        rw [hrest, List.append_assoc]
        rfl

theorem parseEntries_eq_error_iff {texts : List (List Char)} {acc : List (NodeName × Address)}
    {e : PeerError} :
    parseEntries acc texts = .error e ↔
      ∃ front text back peers, texts = front ++ text :: back ∧ Lists front peers ∧
        Refused text e := by
  induction texts generalizing acc with
  | nil =>
    unfold parseEntries
    refine iff_of_false (fun h => nomatch h) ?_
    rintro ⟨front, text, back, peers, htexts, -⟩
    exact absurd htexts.symm (by simp)
  | cons text texts ih =>
    unfold parseEntries
    constructor
    · intro h
      split at h
      · rename_i hentry
        cases h
        exact ⟨[], text, texts, [], rfl, .nil, parseEntry_eq_error_iff.mp hentry⟩
      · rename_i hentry
        obtain ⟨front, bad, back, peers, rfl, hlists, hbad⟩ := ih.mp h
        exact ⟨text :: front, bad, back, peers, rfl,
          .blank (parseEntry_eq_none_iff.mp hentry) hlists, hbad⟩
      · rename_i peer hentry
        obtain ⟨front, bad, back, peers, rfl, hlists, hbad⟩ := ih.mp h
        exact ⟨text :: front, bad, back, peer :: peers, rfl,
          .peer (parseEntry_eq_some_iff.mp hentry) hlists, hbad⟩
    · rintro ⟨front, bad, back, peers, htexts, hlists, hbad⟩
      cases hlists with
      | nil =>
        cases htexts
        rw [parseEntry_eq_error_iff.mpr hbad]
      | blank hblank hlists =>
        obtain ⟨rfl, rfl⟩ := List.cons.inj htexts
        rw [parseEntry_eq_none_iff.mpr hblank]
        exact ih.mpr ⟨_, bad, back, _, rfl, hlists, hbad⟩
      | peer hpeer hlists =>
        obtain ⟨rfl, rfl⟩ := List.cons.inj htexts
        rw [parseEntry_eq_some_iff.mpr hpeer]
        exact ih.mpr ⟨_, bad, back, _, rfl, hlists, hbad⟩

theorem not_mem_splitOn {text : List Char} : ∀ piece ∈ text.splitOn ',', ',' ∉ piece := by
  induction text with
  | nil => simp [List.splitOn]
  | cons c text ih =>
    unfold List.splitOn at ih ⊢
    rw [List.splitOnP_cons_eq_if_modifyHead]
    split_ifs with hc
    · rw [List.forall_mem_cons]
      exact ⟨List.not_mem_nil, ih⟩
    · cases hs : List.splitOnP (· == ',') text with
      | nil => exact absurd hs (List.splitOnP_ne_nil _ _)
      | cons first rest =>
        rw [hs, List.forall_mem_cons] at ih
        rw [List.modifyHead_cons, List.forall_mem_cons, List.mem_cons, not_or]
        refine ⟨⟨?_, ih.1⟩, ih.2⟩
        rintro rfl
        exact hc rfl

/-- `parse_peers` accepts the comma-separated lists of peers and blanks, with the peers as
its result; any other text it refuses for the first piece that is neither. -/
theorem parsePeers_exact (text : List Char) :
    (∀ peers, parsePeers text = .ok peers ↔
      ∃ pieces : List (List Char), pieces ≠ [] ∧ (∀ piece ∈ pieces, ',' ∉ piece) ∧
        text = [','].intercalate pieces ∧ Lists pieces peers) ∧
    ∀ e, parsePeers text = .error e ↔
      ∃ (front : List (List Char)) (piece : List Char) (back : List (List Char)) (peers : _),
        (∀ p ∈ front ++ piece :: back, ',' ∉ p) ∧
        text = [','].intercalate (front ++ piece :: back) ∧ Lists front peers ∧
        Refused piece e := by
  have hjoin := @List.intercalate_splitOn _ text _ _ ','
  have hne : text.splitOn ',' ≠ [] := List.splitOnP_ne_nil _ _
  constructor
  · intro peers
    unfold parsePeers
    rw [parseEntries_eq_ok_iff]
    constructor
    · rintro ⟨rest, rfl, hlists⟩
      exact ⟨_, hne, not_mem_splitOn, hjoin.symm, hlists⟩
    · rintro ⟨pieces, hpieces, hcomma, rfl, hlists⟩
      rw [List.splitOn_intercalate ',' hcomma hpieces]
      exact ⟨peers, rfl, hlists⟩
  · intro e
    unfold parsePeers
    rw [parseEntries_eq_error_iff]
    constructor
    · rintro ⟨front, piece, back, peers, htexts, hlists, hbad⟩
      refine ⟨front, piece, back, peers, ?_, ?_, hlists, hbad⟩
      · rw [← htexts]
        exact not_mem_splitOn
      · rw [← htexts, hjoin]
    · rintro ⟨front, piece, back, peers, hcomma, rfl, hlists, hbad⟩
      rw [List.splitOn_intercalate ',' hcomma (by simp)]
      exact ⟨front, piece, back, peers, rfl, hlists, hbad⟩

example : parsePeers " 1@a:1, +02 @ b ,,".toList =
    .ok [(1, "a:1".toList), (2, "b".toList)] := by decide

end MemEtcd.Peers
