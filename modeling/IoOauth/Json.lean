import IoOauth.FormUrlencoded

/-! `serde_json` as the crate calls it: the compact writer behind `to_string` and the parser
behind `from_slice`, at the byte level. The parser is `deserialize_any`: it builds the value
tree of any text, members in the order they were read; a number with a fraction or an exponent,
or an integer out of the 64-bit ranges, is kept as its text. The path into a struct, which skips
the members that name no field, is built on it in `JsonStruct`. -/
namespace IoOauth.Json

open FormUrlencoded (hexValue)

/-- `serde_json::error::ErrorCode`: the syntax errors of the parser. -/
inductive ErrorCode
  | eofWhileParsingList
  | eofWhileParsingObject
  | eofWhileParsingString
  | eofWhileParsingValue
  | expectedColon
  | expectedListCommaOrEnd
  | expectedObjectCommaOrEnd
  | expectedSomeIdent
  | expectedSomeValue
  | invalidEscape
  | invalidNumber
  | invalidUnicodeCodePoint
  | controlCharacterWhileParsingString
  | keyMustBeAString
  | loneLeadingSurrogateInHexEscape
  | trailingComma
  | trailingCharacters
  | unexpectedEndOfHexEscape
  | recursionLimitExceeded
  deriving DecidableEq, Repr

/-- A JSON value as the parser reads it. -/
inductive Value
  | null
  | bool (b : Bool)
  | posInt (n : Nat)
  | negInt (n : Int)
  | float (text : List UInt8)
  | string (s : Str)
  | array (vs : List Value)
  | object (members : List (Str × Value))

/-- serde's `Unexpected`: what a type error says it found. -/
inductive Unexpected
  | bool (b : Bool)
  | unsigned (n : Nat)
  | signed (n : Int)
  | float
  | str (s : Str)
  | unit
  | seq
  | map
  deriving DecidableEq

def Value.unexpected : Value → Unexpected
  | .null => .unit
  | .bool b => .bool b
  | .posInt n => .unsigned n
  | .negInt n => .signed n
  | .float _ => .float
  | .string s => .str s
  | .array _ => .seq
  | .object _ => .map

/-- `serde_json::Error`: a syntax error, or one that a `Serialize` or `Deserialize` impl raises
through serde's `Error` trait. The position and the rendered message are left out. -/
inductive Error
  | malformed (code : ErrorCode)
  | invalidType (unexp : Unexpected) (exp : String)
  | invalidValue (unexp : Unexpected) (exp : String)
  | invalidLength (len : Nat) (exp : String)
  | unknownVariant (variant : Str) (expected : List String)
  | unknownField (field : Str) (expected : List String)
  | missingField (field : String)
  | duplicateField (field : String)
  | custom (msg : String)
  deriving DecidableEq

/-! ## The compact writer -/

/-- `HEX`, the lower-case digits of a `\u00XX` escape. -/
def hexLower (n : Nat) : UInt8 := if n < 10 then (0x30 + n).toUInt8 else (0x57 + n).toUInt8

/-- `format_escaped_str_contents`, one byte: the `ESCAPE` table. -/
def escapeByte (b : UInt8) : List UInt8 :=
  if b = 0x22 then [0x5C, 0x22]
  else if b = 0x5C then [0x5C, 0x5C]
  else if b = 0x08 then [0x5C, 0x62]
  else if b = 0x0C then [0x5C, 0x66]
  else if b = 0x0A then [0x5C, 0x6E]
  else if b = 0x0D then [0x5C, 0x72]
  else if b = 0x09 then [0x5C, 0x74]
  else if b < 0x20 then [0x5C, 0x75, 0x30, 0x30, hexLower (b.toNat / 16), hexLower (b.toNat % 16)]
  else [b]

/-- `format_escaped_str`. -/
def writeStr (bs : List UInt8) : List UInt8 := 0x22 :: bs.flatMap escapeByte ++ [0x22]

/-- `itoa`: the decimal digits of `n`, most significant first. -/
def decimal (n : Nat) : List UInt8 :=
  if n = 0 then [0x30] else (Nat.digits 10 n).reverse.map fun d => (0x30 + d).toUInt8

mutual
/-- `to_string` with the `CompactFormatter`. A float is written as the text it was read from:
the crate's `Serialize` impls never write one. -/
def Value.write : Value → List UInt8
  | .null => utf8 "null"
  | .bool true => utf8 "true"
  | .bool false => utf8 "false"
  | .posInt n => decimal n
  | .negInt n => 0x2D :: decimal n.natAbs
  | .float text => text
  | .string s => writeStr s.bytes
  | .array [] => [0x5B, 0x5D]
  | .array (v :: vs) => 0x5B :: v.write ++ writeElems vs
  | .object [] => [0x7B, 0x7D]
  | .object ((k, v) :: ms) => 0x7B :: writeStr k.bytes ++ 0x3A :: v.write ++ writeMembers ms

/-- The elements after the first, each after a comma, then the closing bracket. -/
def writeElems : List Value → List UInt8
  | [] => [0x5D]
  | v :: vs => 0x2C :: v.write ++ writeElems vs

/-- The members after the first, each after a comma, then the closing brace. -/
def writeMembers : List (Str × Value) → List UInt8
  | [] => [0x7D]
  | (k, v) :: ms => 0x2C :: writeStr k.bytes ++ 0x3A :: v.write ++ writeMembers ms
end

/-! ## The parser -/

/-- JSON whitespace: space, line feed, tab and carriage return. -/
def isWs (b : UInt8) : Bool := b = 0x20 || b = 0x0A || b = 0x09 || b = 0x0D

/-- `parse_whitespace`. -/
def skipWs (bs : List UInt8) : List UInt8 := bs.dropWhile isWs

def isDigit (b : UInt8) : Bool := 0x30 ≤ b && b ≤ 0x39

/-- `parse_ident`: the bytes after the first one of `null`, `true` or `false`. -/
def parseIdent : List UInt8 → List UInt8 → Except Error (List UInt8)
  | [], bs => .ok bs
  | _ :: _, [] => .error (.malformed .eofWhileParsingValue)
  | c :: cs, b :: bs => if b = c then parseIdent cs bs else .error (.malformed .expectedSomeIdent)

/-- `decode_hex_escape`: four hexadecimal digits. -/
def decodeHexEscape : List UInt8 → Except Error (Nat × List UInt8)
  | a :: b :: c :: d :: rest =>
    match hexValue a, hexValue b, hexValue c, hexValue d with
    | some a, some b, some c, some d => .ok (((a * 16 + b) * 16 + c) * 16 + d, rest)
    | _, _, _, _ => .error (.malformed .invalidEscape)
  | _ => .error (.malformed .eofWhileParsingString)

/-- The UTF-8 bytes of the scalar value `n`, as `push_wtf8_codepoint` writes them. -/
def codePoint (n : Nat) : List UInt8 := String.utf8EncodeChar (Char.ofNat n)

/-- `parse_unicode_escape` as `parse_str` calls it (validating), after `\u`: a surrogate must
come as a leading one escaped right before a trailing one. -/
def parseUnicodeEscape (bs : List UInt8) : Except Error (List UInt8 × List UInt8) := do
  let (n, rest) ← decodeHexEscape bs
  if 0xDC00 ≤ n ∧ n ≤ 0xDFFF then throw (.malformed .loneLeadingSurrogateInHexEscape)
  else if n < 0xD800 ∨ 0xDBFF < n then pure (codePoint n, rest)
  else match rest with
    | b :: u :: rest =>
      if b ≠ 0x5C ∨ u ≠ 0x75 then throw (.malformed .unexpectedEndOfHexEscape)
      else do
        let (n2, rest) ← decodeHexEscape rest
        if n2 < 0xDC00 ∨ 0xDFFF < n2 then throw (.malformed .loneLeadingSurrogateInHexEscape)
        else pure (codePoint ((n - 0xD800) * 0x400 + (n2 - 0xDC00) + 0x10000), rest)
    | [b] => throw (.malformed (if b = 0x5C then .eofWhileParsingString else .unexpectedEndOfHexEscape))
    | [] => throw (.malformed .eofWhileParsingString)

/-- `parse_escape`, after the backslash: the bytes the escape stands for. -/
def parseEscape : List UInt8 → Except Error (List UInt8 × List UInt8)
  | [] => .error (.malformed .eofWhileParsingString)
  | b :: rest =>
    if b = 0x22 then .ok ([0x22], rest)
    else if b = 0x5C then .ok ([0x5C], rest)
    else if b = 0x2F then .ok ([0x2F], rest)
    else if b = 0x62 then .ok ([0x08], rest)
    else if b = 0x66 then .ok ([0x0C], rest)
    else if b = 0x6E then .ok ([0x0A], rest)
    else if b = 0x72 then .ok ([0x0D], rest)
    else if b = 0x74 then .ok ([0x09], rest)
    else if b = 0x75 then parseUnicodeEscape rest
    else .error (.malformed .invalidEscape)

theorem length_of_decodeHexEscape {bs r : List UInt8} {n : Nat}
    (h : decodeHexEscape bs = .ok (n, r)) : r.length + 4 = bs.length := by
  match bs, h with
  | _ :: _ :: _ :: _ :: rest, h =>
    simp only [decodeHexEscape] at h
    split at h
    · cases h; rfl
    · cases h
  | [], h | [_], h | [_, _], h | [_, _, _], h => simp [decodeHexEscape] at h

theorem length_lt_of_parseUnicodeEscape {bs r out : List UInt8}
    (h : parseUnicodeEscape bs = .ok (out, r)) : r.length < bs.length := by
  unfold parseUnicodeEscape at h
  cases hd : decodeHexEscape bs with
  | error e => simp [hd, bind, Except.bind] at h
  | ok p =>
    obtain ⟨n, rest⟩ := p
    have h1 := length_of_decodeHexEscape hd
    simp only [hd, bind, Except.bind] at h
    split_ifs at h
    · cases h; omega
    · rcases rest with _ | ⟨b, _ | ⟨u, rest'⟩⟩
      · cases h
      · cases h
      · dsimp only at h
        split_ifs at h
        split at h
        · simp at h
        · rename_i hd2
          split_ifs at h
          simp only [pure, Except.pure, Except.ok.injEq, Prod.mk.injEq] at h
          rw [← h.2]
          have := length_of_decodeHexEscape hd2
          simp only [List.length_cons] at h1
          omega

/-- An escape other than `\u` takes one byte. -/
theorem parseEscape_cons_ok {b : UInt8} {rest r out : List UInt8}
    (h : parseEscape (b :: rest) = .ok (out, r)) :
    r = rest ∨ parseUnicodeEscape rest = .ok (out, r) := by
  simp only [parseEscape, ite_eq_iff, Except.ok.injEq, Prod.mk.injEq, reduceCtorEq, and_false,
    or_false] at h
  tauto

theorem length_lt_of_parseEscape {bs r out : List UInt8} (h : parseEscape bs = .ok (out, r)) :
    r.length < bs.length := by
  match bs, h with
  | b :: rest, h =>
    rcases parseEscape_cons_ok h with rfl | h
    · exact Nat.lt_succ_self _
    · exact Nat.lt_succ_of_lt (length_lt_of_parseUnicodeEscape h)

/-- `parse_str` after the opening quote, the bytes read so far in `scratch`: they are checked
to be UTF-8 once the closing quote is read. -/
def parseStr (scratch : List UInt8) : List UInt8 → Except Error (Str × List UInt8)
  | [] => .error (.malformed .eofWhileParsingString)
  | b :: rest =>
    if b = 0x22 then
      if h : Utf8.fromUtf8Lossy scratch = scratch then
        .ok (⟨scratch, h ▸ Utf8.valid_fromUtf8Lossy scratch⟩, rest)
      else .error (.malformed .invalidUnicodeCodePoint)
    else if b = 0x5C then
      match h : parseEscape rest with
      | .ok (out, rest') =>
        have := length_lt_of_parseEscape h
        parseStr (scratch ++ out) rest'
      | .error e => .error e
    else if b < 0x20 then .error (.malformed .controlCharacterWhileParsingString)
    else parseStr (scratch ++ [b]) rest
termination_by bs => bs.length

/-- The value of a run of decimal digits. -/
def digitsValue (ds : List UInt8) : Nat := ds.foldl (fun n d => 10 * n + (d.toNat - 0x30)) 0

/-- `parse_exponent`, after `e` or `E`: an optional sign, then at least one digit. The bytes
taken, and the rest. -/
def scanExponent (bs : List UInt8) : Except Error (List UInt8 × List UInt8) :=
  let (sign, bs) := match bs with
    | b :: rest => if b = 0x2B ∨ b = 0x2D then ([b], rest) else ([], b :: rest)
    | [] => ([], [])
  match bs with
  | [] => .error (.malformed .eofWhileParsingValue)
  | b :: rest =>
    if isDigit b then .ok (sign ++ b :: rest.takeWhile isDigit, rest.dropWhile isDigit)
    else .error (.malformed .invalidNumber)

/-- `parse_decimal`, after the `.`: at least one digit, then an optional exponent. -/
def scanFraction : List UInt8 → Except Error (List UInt8 × List UInt8)
  | [] => .error (.malformed .eofWhileParsingValue)
  | b :: rest =>
    if isDigit b then
      let ds := b :: rest.takeWhile isDigit
      match rest.dropWhile isDigit with
      | e :: r =>
        if e = 0x65 ∨ e = 0x45 then (scanExponent r).map fun (t, r) => (ds ++ e :: t, r)
        else .ok (ds, e :: r)
      | [] => .ok (ds, [])
    else .error (.malformed .invalidNumber)

/-- The end of `parse_number` for an integer: `u64` when positive and in range, `i64` when
negative and in range (not `-0`), else `f64`, kept as its text. -/
def integer (positive : Bool) (ds : List UInt8) : Value :=
  if positive then
    if digitsValue ds < 2 ^ 64 then .posInt (digitsValue ds) else .float ds
  else if 0 < digitsValue ds ∧ digitsValue ds ≤ 2 ^ 63 then .negInt (-(digitsValue ds : Int))
  else .float (0x2D :: ds)

/-- `parse_integer` and `parse_number`, after an optional `-`: one leading `0` or a run of
digits, then a fraction, an exponent, or nothing. -/
def parseNumber (positive : Bool) : List UInt8 → Except Error (Value × List UInt8)
  | [] => .error (.malformed .eofWhileParsingValue)
  | b :: rest =>
    if ¬ isDigit b ∨ (b = 0x30 ∧ rest.head?.any isDigit) then .error (.malformed .invalidNumber)
    else
      let ds := b :: rest.takeWhile isDigit
      let text := if positive then ds else 0x2D :: ds
      match rest.dropWhile isDigit with
      | c :: r =>
        if c = 0x2E then (scanFraction r).map fun (t, r) => (.float (text ++ c :: t), r)
        else if c = 0x65 ∨ c = 0x45 then
          (scanExponent r).map fun (t, r) => (.float (text ++ c :: t), r)
        else .ok (integer positive ds, c :: r)
      | [] => .ok (integer positive ds, [])

mutual
/-- `deserialize_any` into a `Value`, at the remaining depth `depth` (`128` at the top). Every
call spends one of `fuel`, which `fromSlice` makes larger than the input. -/
def parseValue : Nat → Nat → List UInt8 → Except Error (Value × List UInt8)
  | 0, _, _ => .error (.malformed .recursionLimitExceeded)
  | fuel + 1, depth, bs =>
    match skipWs bs with
    | [] => .error (.malformed .eofWhileParsingValue)
    | b :: rest =>
      if b = 0x6E then (parseIdent (utf8 "ull") rest).map (.null, ·)
      else if b = 0x74 then (parseIdent (utf8 "rue") rest).map (.bool true, ·)
      else if b = 0x66 then (parseIdent (utf8 "alse") rest).map (.bool false, ·)
      else if b = 0x2D then parseNumber false rest
      else if isDigit b then parseNumber true (b :: rest)
      else if b = 0x22 then (parseStr [] rest).map fun (s, r) => (.string s, r)
      else if b = 0x5B then
        if depth ≤ 1 then .error (.malformed .recursionLimitExceeded)
        else parseSeq fuel (depth - 1) true [] rest
      else if b = 0x7B then
        if depth ≤ 1 then .error (.malformed .recursionLimitExceeded)
        else parseMap fuel (depth - 1) true [] rest
      else .error (.malformed .expectedSomeValue)

/-- `SeqAccess` as the `Value` visitor drives it: elements up to the closing bracket. -/
def parseSeq : Nat → Nat → Bool → List Value → List UInt8 → Except Error (Value × List UInt8)
  | 0, _, _, _, _ => .error (.malformed .recursionLimitExceeded)
  | fuel + 1, depth, first, acc, bs =>
    match skipWs bs with
    | [] => .error (.malformed .eofWhileParsingList)
    | b :: rest =>
      if b = 0x5D then .ok (.array acc, rest)
      else if ¬ first ∧ b ≠ 0x2C then .error (.malformed .expectedListCommaOrEnd)
      else
        match if first then b :: rest else skipWs rest with
        | [] => .error (.malformed .eofWhileParsingValue)
        | c :: r =>
          if c = 0x5D then .error (.malformed .trailingComma)
          else do
            let (v, r) ← parseValue fuel depth (c :: r)
            parseSeq fuel depth false (acc ++ [v]) r

/-- `MapAccess` as the `Value` visitor drives it: a string key, a colon and a value, up to the
closing brace. -/
def parseMap : Nat → Nat → Bool → List (Str × Value) → List UInt8 →
    Except Error (Value × List UInt8)
  | 0, _, _, _, _ => .error (.malformed .recursionLimitExceeded)
  | fuel + 1, depth, first, acc, bs =>
    match skipWs bs with
    | [] => .error (.malformed .eofWhileParsingObject)
    | b :: rest =>
      if b = 0x7D then .ok (.object acc, rest)
      else if ¬ first ∧ b ≠ 0x2C then .error (.malformed .expectedObjectCommaOrEnd)
      else
        match if first then b :: rest else skipWs rest with
        | [] => .error (.malformed .eofWhileParsingValue)
        | c :: r =>
          if c = 0x22 then do
            let (k, r) ← parseStr [] r
            match skipWs r with
            | [] => .error (.malformed .eofWhileParsingObject)
            | d :: r =>
              if d ≠ 0x3A then .error (.malformed .expectedColon)
              else do
                let (v, r) ← parseValue fuel depth r
                parseMap fuel depth false (acc ++ [(k, v)]) r
          else if c = 0x7D then .error (.malformed .trailingComma)
          else .error (.malformed .keyMustBeAString)
end

/-- `from_slice` into a `Value`: one value, then whitespace only. -/
def fromSlice (bs : List UInt8) : Except Error Value := do
  let (v, rest) ← parseValue (bs.length + 1) 128 bs
  if skipWs rest = [] then pure v else throw (.malformed .trailingCharacters)

end IoOauth.Json
