import MemEtcd.Types

/-! Keys are grouped into buckets by a prefix, so that a list request of one
resource stays in one bucket. This module splits keys and turns the start and
end key of a request into a bucket and bounds in it. -/
namespace MemEtcd

/-- `/registry/` -/
def registryRoot : Bytes := [47, 114, 101, 103, 105, 115, 116, 114, 121, 47]

/-- `slice::splitn` at the byte `sep`: at most `n` pieces, the last one unsplit. -/
def splitn (sep : UInt8) : ℕ → Bytes → List Bytes
  | 0, _ => []
  | 1, s => [s]
  | n + 2, s =>
    match s.dropWhile (· != sep) with
    | [] => [s]
    | _ :: rest => s.takeWhile (· != sep) :: splitn sep (n + 1) rest

/-- The position in the split string of its piece number `i`. -/
def pieceOffset (pieces : List Bytes) (i : ℕ) : ℕ :=
  ((pieces.take i).map (fun p => p.length + 1)).sum

/-- The end of the prefix: three segments under `/registry/` when the second
segment has a period, otherwise two, and none for any other key. -/
def prefixEnd (key : Bytes) : ℕ :=
  if registryRoot.isPrefixOf key = false then 0
  else
    let segments := splitn 47 5 key
    if segments.length = 1 then 0
    else
      let lastSegment := min (segments.length - 1)
        (if registryRoot.isPrefixOf key && (segments.getD 2 []).contains 46 then 4 else 3)
      pieceOffset segments lastSegment

def prefixSplit (key : Bytes) : Bytes × Bytes :=
  (key.take (prefixEnd key), key.drop (prefixEnd key))

theorem prefixSplit_append (key : Bytes) : (prefixSplit key).1 ++ (prefixSplit key).2 = key :=
  List.take_append_drop _ _

theorem prefixSplit_injective {a b : Bytes} (h : prefixSplit a = prefixSplit b) : a = b := by
  rw [← prefixSplit_append a, ← prefixSplit_append b, h]

def isContinuation (b : UInt8) : Bool := 128 ≤ b && b < 192

def secondOfThree (b0 b1 : UInt8) : Bool :=
  (b0 == 224 && 160 ≤ b1 && b1 < 192) || (225 ≤ b0 && b0 ≤ 236 && isContinuation b1) ||
    (b0 == 237 && 128 ≤ b1 && b1 < 160) || (238 ≤ b0 && b0 ≤ 239 && isContinuation b1)

def secondOfFour (b0 b1 : UInt8) : Bool :=
  (b0 == 240 && 144 ≤ b1 && b1 < 192) || (241 ≤ b0 && b0 ≤ 243 && isContinuation b1) ||
    (b0 == 244 && 128 ≤ b1 && b1 < 144)

def utf8Char (lead : ℕ) (rest : List UInt8) : Char :=
  Char.ofNat (rest.foldl (fun n b => n * 64 + (b.toNat - 128)) lead)

def replacementChar : Char := Char.ofNat 65533

/-- `String::from_utf8_lossy`: every maximal invalid sequence becomes one
replacement character. -/
def fromUtf8Lossy : Bytes → List Char
  | [] => []
  | b0 :: s0 =>
    if b0 < 128 then Char.ofNat b0.toNat :: fromUtf8Lossy s0
    else match s0 with
    | [] => [replacementChar]
    | b1 :: s1 =>
      if 194 ≤ b0 && b0 ≤ 223 then
        if isContinuation b1 then utf8Char (b0.toNat - 192) [b1] :: fromUtf8Lossy s1
        else replacementChar :: fromUtf8Lossy (b1 :: s1)
      else if secondOfThree b0 b1 then
        match s1 with
        | [] => [replacementChar]
        | b2 :: s2 =>
          if isContinuation b2 then utf8Char (b0.toNat - 224) [b1, b2] :: fromUtf8Lossy s2
          else replacementChar :: fromUtf8Lossy (b2 :: s2)
      else if secondOfFour b0 b1 then
        match s1 with
        | [] => [replacementChar]
        | b2 :: s2 =>
          if isContinuation b2 then
            match s2 with
            | [] => [replacementChar]
            | b3 :: s3 =>
              if isContinuation b3 then utf8Char (b0.toNat - 240) [b1, b2, b3] :: fromUtf8Lossy s3
              else replacementChar :: fromUtf8Lossy (b3 :: s3)
          else replacementChar :: fromUtf8Lossy (b2 :: s2)
      else replacementChar :: fromUtf8Lossy (b1 :: s1)

/-- `str::as_bytes` of a string. -/
def utf8Bytes (s : List Char) : Bytes := s.flatMap String.utf8EncodeChar

def prefixMismatch (startPrefix endPrefix : Bytes) : Status :=
  Status.invalidArgument ("Keys must be in the same prefix: start: " ++
    String.ofList (fromUtf8Lossy startPrefix) ++ ", end: " ++
    String.ofList (fromUtf8Lossy endPrefix))

/-- `Store::prefix_and_range_of_key`: the bucket of a request and its bounds. -/
def prefixAndRangeOfKey (start endKey : Bytes) :
    Except Status (Bytes × Bound Bytes × Bound Bytes) :=
  let (startPrefix, startSuffix) := prefixSplit start
  if endKey.isEmpty then
    .ok (startPrefix, .included startSuffix, .included startSuffix)
  else if endKey = [0] then
    .ok (startPrefix, .included startSuffix, .unbounded)
  else
    let (endPrefix, endSuffix) := prefixSplit endKey
    if startPrefix ≠ endPrefix then
      if endSuffix.isEmpty = false then
        -- `/a/b/c/` up to `/a/b/c0` is the whole bucket `/a/b/c/`
        if (endSuffix.getLast? = some 48 ∨ endSuffix.getLast? = some 0) ∧
            startPrefix = endPrefix ++ endSuffix.dropLast ++ [47] then
          .ok (startPrefix, .included startSuffix, .unbounded)
        else .error (prefixMismatch startPrefix endPrefix)
      else .error (prefixMismatch startPrefix endPrefix)
    else if endSuffix.getLast? = some 0 ∧ endSuffix.dropLast = startSuffix then
      -- an end key that appends a zero byte to the start key
      .ok (startPrefix, .included startSuffix, .unbounded)
    else .ok (startPrefix, .included startSuffix, .excluded endSuffix)

end MemEtcd
