import IoOauth.Utf8

/-! `url::form_urlencoded` at the byte level: `byte_serialize`, the `Serializer` the request
builders fill, and `parse` as a server reads the result. The round trip `parse_appendPairs`
is what every request body and query of the crate rests on. -/
namespace IoOauth.FormUrlencoded

/-- `byte_serialized_unchanged`: `*`, `-`, `.`, `0-9`, `A-Z`, `_` and `a-z`. -/
def byteSerializedUnchanged (b : UInt8) : Bool :=
  b = 0x2A || b = 0x2D || b = 0x2E || (0x30 ≤ b && b ≤ 0x39) || (0x41 ≤ b && b ≤ 0x5A) ||
    b = 0x5F || (0x61 ≤ b && b ≤ 0x7A)

/-- An upper-case hexadecimal digit of `percent_encode_byte`'s table. -/
def hexDigit (n : Nat) : UInt8 := if n < 10 then (0x30 + n).toUInt8 else (0x37 + n).toUInt8

/-- `percent_encode_byte`: `%XX`, upper case. -/
def percentEncodeByte (b : UInt8) : List UInt8 :=
  [0x25, hexDigit (b.toNat / 16), hexDigit (b.toNat % 16)]

/-- One byte as `ByteSerialize` writes it: unchanged, `+` for a space, `%XX` otherwise. -/
def serializeByte (b : UInt8) : List UInt8 :=
  if byteSerializedUnchanged b then [b] else if b = 0x20 then [0x2B] else percentEncodeByte b

/-- `byte_serialize`. The iterator yields runs of unchanged bytes and single escapes; what
`append_encoded` extends the target with is their concatenation. -/
def byteSerialize (input : List UInt8) : List UInt8 := input.flatMap serializeByte

/-- `char::from(b).to_digit(16)`. -/
def hexValue (b : UInt8) : Option Nat :=
  if 0x30 ≤ b ∧ b ≤ 0x39 then some (b.toNat - 0x30)
  else if 0x41 ≤ b ∧ b ≤ 0x46 then some (b.toNat - 0x37)
  else if 0x61 ≤ b ∧ b ≤ 0x66 then some (b.toNat - 0x57)
  else none

/-- `percent_decode`: `%` and two hexadecimal digits spell one byte; every other byte, a lone
`%` included, stands for itself. -/
def percentDecode : List UInt8 → List UInt8
  | b :: h :: l :: rest =>
    if b = 0x25 then
      match hexValue h, hexValue l with
      | some hv, some lv => (hv * 16 + lv).toUInt8 :: percentDecode rest
      | _, _ => b :: percentDecode (h :: l :: rest)
    else b :: percentDecode (h :: l :: rest)
  | b :: rest => b :: percentDecode rest
  | [] => []

/-- `replace_plus`: every `+` becomes a space. -/
def replacePlus (input : List UInt8) : List UInt8 :=
  input.map fun b => if b = 0x2B then 0x20 else b

/-- `decode`: `+` to space, percent-decoding, then `decode_utf8_lossy`. -/
def decode (input : List UInt8) : Str := Str.fromUtf8Lossy (percentDecode (replacePlus input))

/-- `parse`: the sequences between `&`s, empty ones skipped, each split at its first `=`
(a sequence without one is a name with an empty value). -/
def parse (input : List UInt8) : List (Str × Str) :=
  (input.splitOn 0x26).filterMap fun sequence =>
    if sequence.isEmpty then none
    else some (decode (sequence.takeWhile (· != 0x3D)),
      decode ((sequence.dropWhile (· != 0x3D)).drop 1))

/-- `form_urlencoded::Serializer` over a `String` target. -/
structure Serializer where
  target : List UInt8
  startPosition : Nat
  deriving DecidableEq, Repr

/-- `Serializer::new` is `for_suffix(target, 0)`: pairs are counted from the target's start. -/
def Serializer.new (target : List UInt8) : Serializer := ⟨target, 0⟩

/-- `append_pair`: a `&` if something was appended since `new`, then `name=value`. -/
def Serializer.appendPair (s : Serializer) (name value : List UInt8) : Serializer :=
  let target := if s.target.length > s.startPosition then s.target ++ [0x26] else s.target
  { s with target := target ++ byteSerialize name ++ 0x3D :: byteSerialize value }

/-- `finish`: the target. -/
def Serializer.finish (s : Serializer) : List UInt8 := s.target

/-- `append_pair` for each pair in turn. -/
def Serializer.appendPairs (s : Serializer) (pairs : List (List UInt8 × List UInt8)) :
    Serializer :=
  pairs.foldl (fun s p => s.appendPair p.1 p.2) s

/-- The bytes `append_pair` writes for one pair, separator aside. -/
def encodedPair (p : List UInt8 × List UInt8) : List UInt8 :=
  byteSerialize p.1 ++ 0x3D :: byteSerialize p.2

/-! ### Bytes of the encoding -/

theorem byteSerializedUnchanged_ne {b : UInt8} (h : byteSerializedUnchanged b) :
    b ≠ 0x26 ∧ b ≠ 0x3D ∧ b ≠ 0x25 ∧ b ≠ 0x2B ∧ b < 0x80 := by
  simp only [byteSerializedUnchanged, Bool.or_eq_true, decide_eq_true_eq, Bool.and_eq_true] at h
  simp only [ne_eq, byte_eq_iff, byte_le_iff, byte_lt_iff, UInt8.toNat_ofNat, UInt8.size,
    Nat.reduceMod] at h ⊢
  omega

theorem hexDigit_spec : ∀ d, d < 16 → hexValue (hexDigit d) = some d ∧ hexDigit d ≠ 0x26 ∧
    hexDigit d ≠ 0x3D ∧ hexDigit d ≠ 0x2B ∧ hexDigit d < 0x80 := by
  decide

@[simp] theorem percentDecode_nil : percentDecode [] = [] := rfl

theorem percentDecode_cons_of_ne {b : UInt8} (h : b ≠ 0x25) (rest : List UInt8) :
    percentDecode (b :: rest) = b :: percentDecode rest := by
  match rest with
  | [] => rfl
  | [_] => rfl
  | _ :: _ :: _ => simp [percentDecode, h]

@[simp] theorem replacePlus_append (a b : List UInt8) :
    replacePlus (a ++ b) = replacePlus a ++ replacePlus b := List.map_append ..

/-- One serialized byte reads back as itself. A `+` is written only for a space, so `%2B`
survives the `+`-to-space pass that comes before percent-decoding. -/
theorem percentDecode_serializeByte (b : UInt8) (rest : List UInt8) :
    percentDecode (replacePlus (serializeByte b) ++ rest) = b :: percentDecode rest := by
  unfold serializeByte
  split_ifs with hu hs
  · obtain ⟨-, -, hp, hplus, -⟩ := byteSerializedUnchanged_ne hu
    simp [replacePlus, hplus, percentDecode_cons_of_ne hp]
  · subst hs
    exact percentDecode_cons_of_ne (by decide) rest
  · have hb := b.toNat_lt
    obtain ⟨hhi, -, -, hhip, -⟩ := hexDigit_spec (b.toNat / 16) (by omega)
    obtain ⟨hlo, -, -, hlop, -⟩ := hexDigit_spec (b.toNat % 16) (by omega)
    simp only [percentEncodeByte, replacePlus, List.map_cons, List.map_nil, if_neg hhip,
      if_neg hlop, if_neg (show (0x25 : UInt8) ≠ 0x2B by decide), List.cons_append,
      List.nil_append, percentDecode, if_pos, hhi, hlo]
    congr
    rw [byte_eq_iff, Nat.toUInt8, UInt8.toNat_ofNat_of_lt (by simp only [UInt8.size]; omega)]
    omega

theorem percentDecode_byteSerialize (x rest : List UInt8) :
    percentDecode (replacePlus (byteSerialize x) ++ rest) = x ++ percentDecode rest := by
  induction x with
  | nil => rfl
  | cons b x ih =>
    rw [byteSerialize, List.flatMap_cons, ← byteSerialize, replacePlus_append,
      List.append_assoc, percentDecode_serializeByte, ih, List.cons_append]

@[simp] theorem decode_byteSerialize (x : List UInt8) :
    decode (byteSerialize x) = Str.fromUtf8Lossy x := by
  simpa [decode] using congrArg Str.fromUtf8Lossy (percentDecode_byteSerialize x [])

/-- No encoded byte is a separator, and all are ASCII. -/
theorem mem_byteSerialize {x : List UInt8} {c : UInt8} (h : c ∈ byteSerialize x) :
    c ≠ 0x26 ∧ c ≠ 0x3D ∧ c < 0x80 := by
  obtain ⟨b, -, hc⟩ := List.mem_flatMap.mp h
  have hb := b.toNat_lt
  unfold serializeByte at hc
  split_ifs at hc with hu hs
  · obtain ⟨h1, h2, -, -, h5⟩ := byteSerializedUnchanged_ne hu
    simp only [List.mem_singleton] at hc
    exact hc ▸ ⟨h1, h2, h5⟩
  · simp only [List.mem_singleton] at hc
    subst hc
    decide
  · obtain ⟨-, h1, h2, -, h3⟩ := hexDigit_spec (b.toNat / 16) (by omega)
    obtain ⟨-, h4, h5, -, h6⟩ := hexDigit_spec (b.toNat % 16) (by omega)
    simp only [percentEncodeByte, List.mem_cons, List.mem_singleton, List.not_mem_nil,
      or_false] at hc
    rcases hc with rfl | rfl | rfl
    · decide
    · exact ⟨h1, h2, h3⟩
    · exact ⟨h4, h5, h6⟩

/-! ### The serializer -/

@[simp] theorem appendPair_startPosition (s : Serializer) (name value : List UInt8) :
    (s.appendPair name value).startPosition = s.startPosition := rfl

theorem appendPair_target_of_lt {s : Serializer} (h : s.startPosition < s.target.length)
    (name value : List UInt8) :
    (s.appendPair name value).target = s.target ++ 0x26 :: encodedPair (name, value) := by
  simp [Serializer.appendPair, h, encodedPair]

theorem appendPairs_append (s : Serializer) (xs ys : List (List UInt8 × List UInt8)) :
    s.appendPairs (xs ++ ys) = (s.appendPairs xs).appendPairs ys := List.foldl_append ..

theorem appendPairs_cons (s : Serializer) (p : List UInt8 × List UInt8) (ps) :
    s.appendPairs (p :: ps) = (s.appendPair p.1 p.2).appendPairs ps := rfl

/-- Once a pair is written, each later one is preceded by `&`. -/
theorem appendPairs_target_of_lt {s : Serializer} (h : s.startPosition < s.target.length)
    (pairs : List (List UInt8 × List UInt8)) :
    (s.appendPairs pairs).target = s.target ++ pairs.flatMap (0x26 :: encodedPair ·) := by
  induction pairs generalizing s with
  | nil => simp [Serializer.appendPairs]
  | cons p ps ih =>
    have h' : (s.appendPair p.1 p.2).startPosition < (s.appendPair p.1 p.2).target.length := by
      simp [appendPair_target_of_lt h]; omega
    rw [appendPairs_cons, ih h', appendPair_target_of_lt h]
    simp

theorem intercalate_cons_eq (x : UInt8) (a : List UInt8) (as : List (List UInt8)) :
    [x].intercalate (a :: as) = a ++ as.flatMap (x :: ·) := by
  induction as generalizing a with
  | nil => simp [List.intercalate]
  | cons b bs ih =>
    simp only [List.intercalate, List.intersperse_cons_cons, List.flatten_cons] at ih ⊢
    rw [ih]
    simp

/-- A fresh serializer's target: the encoded pairs joined by `&`. -/
theorem new_appendPairs_target (pairs : List (List UInt8 × List UInt8)) :
    ((Serializer.new []).appendPairs pairs).target = [0x26].intercalate (pairs.map encodedPair) := by
  cases pairs with
  | nil => rfl
  | cons p ps =>
    have h : (Serializer.new [] |>.appendPair p.1 p.2).target = encodedPair p := by
      simp [Serializer.appendPair, Serializer.new, encodedPair]
    rw [appendPairs_cons, appendPairs_target_of_lt (by
        rw [appendPair_startPosition, h]; simp [Serializer.new, encodedPair]), h,
      List.map_cons, intercalate_cons_eq, List.flatMap_map]

/-! ### Reading the serializer's output back -/

theorem parse_encodedPair (p : List UInt8 × List UInt8) :
    (if (encodedPair p).isEmpty then none
      else some (decode ((encodedPair p).takeWhile (· != 0x3D)),
        decode (((encodedPair p).dropWhile (· != 0x3D)).drop 1))) =
      some (Str.fromUtf8Lossy p.1, Str.fromUtf8Lossy p.2) := by
  have hn : ∀ c ∈ byteSerialize p.1, (c != 0x3D) = true := fun c hc => by
    simpa using (mem_byteSerialize hc).2.1
  simp [encodedPair, List.takeWhile_append_of_pos hn, List.dropWhile_append_of_pos hn]

/-- The form-urlencoded round trip: `parse` gives back every pair `append_pair` wrote, in
order, each name and value as `from_utf8_lossy` reads its bytes. -/
theorem parse_appendPairs (pairs : List (List UInt8 × List UInt8)) :
    parse ((Serializer.new []).appendPairs pairs).finish =
      pairs.map fun p => (Str.fromUtf8Lossy p.1, Str.fromUtf8Lossy p.2) := by
  rw [Serializer.finish, new_appendPairs_target]
  cases pairs with
  | nil => rfl
  | cons p ps =>
    have hsep : ∀ q ∈ (p :: ps).map encodedPair, (0x26 : UInt8) ∉ q := by
      simp only [List.mem_map]
      rintro _ ⟨r, -, rfl⟩ hr
      simp only [encodedPair, List.mem_append, List.mem_cons] at hr
      rcases hr with hr | hr | hr
      · exact (mem_byteSerialize hr).1 rfl
      · exact absurd hr (by decide)
      · exact (mem_byteSerialize hr).1 rfl
    rw [parse, List.splitOn_intercalate _ _ hsep (by simp), List.filterMap_map]
    exact (List.filterMap_congr fun q _ => parse_encodedPair q).trans
      (congrFun (List.filterMap_eq_map _) _)

/-- Looking an ASCII name up in what `parse` read is looking its bytes up in what was written. -/
theorem lookup_map_fromUtf8Lossy (l : List (List UInt8 × List UInt8)) {s : String}
    (h : ∀ b ∈ utf8 s, b < 0x80) :
    (l.map fun p => (Str.fromUtf8Lossy p.1, Str.fromUtf8Lossy p.2)).lookup (Str.lit s) =
      (l.lookup (utf8 s)).map Str.fromUtf8Lossy := by
  induction l with
  | nil => rfl
  | cons p l ih =>
    obtain ⟨n, v⟩ := p
    have hk := Str.fromUtf8Lossy_eq_lit_iff n h
    by_cases hn : n = utf8 s
    · subst hn
      have e : (Str.lit s == Str.fromUtf8Lossy (utf8 s)) = true := beq_iff_eq.mpr (hk.mpr rfl).symm
      simp only [List.map_cons, List.lookup, e, beq_self_eq_true, Option.map_some']
    · have e : (Str.lit s == Str.fromUtf8Lossy n) = false :=
        beq_false_of_ne fun he => hn (hk.mp he.symm)
      have e' : (utf8 s == n) = false := beq_false_of_ne fun he => hn he.symm
      simp only [List.map_cons, List.lookup, e, e', ih]

end IoOauth.FormUrlencoded
