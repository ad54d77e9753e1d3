import IoOauth.Utf8

/-! The `base64` crate's `URL_SAFE_NO_PAD` engine: three bytes to four symbols of
`A-Z a-z 0-9 - _`, a last group of one or two bytes to two or three symbols, no `=`.
`decode` is the matching decoder, without padding, against which the encoder is checked. -/
namespace IoOauth.Base64

/-- The symbol for a six-bit value in the URL-safe alphabet. -/
def symbol (i : Nat) : UInt8 :=
  if i < 26 then (0x41 + i).toUInt8 else if i < 52 then (0x47 + i).toUInt8
  else if i < 62 then (i - 4).toUInt8 else if i = 62 then 0x2D else 0x5F

/-- The six-bit value of a URL-safe symbol. -/
def symbolValue (c : UInt8) : Option Nat :=
  if 0x41 ≤ c ∧ c ≤ 0x5A then some (c.toNat - 0x41)
  else if 0x61 ≤ c ∧ c ≤ 0x7A then some (c.toNat - 0x47)
  else if 0x30 ≤ c ∧ c ≤ 0x39 then some (c.toNat + 4)
  else if c = 0x2D then some 62 else if c = 0x5F then some 63 else none

/-- `URL_SAFE_NO_PAD.encode`. -/
def encode : List UInt8 → List UInt8
  | a :: b :: c :: rest =>
    let n := a.toNat * 0x10000 + b.toNat * 0x100 + c.toNat
    [symbol (n / 0x40000), symbol (n / 0x1000 % 64), symbol (n / 64 % 64), symbol (n % 64)] ++
      encode rest
  | [a, b] =>
    let n := a.toNat * 0x100 + b.toNat
    [symbol (n / 0x400), symbol (n / 16 % 64), symbol (n % 16 * 4)]
  | [a] => [symbol (a.toNat / 4), symbol (a.toNat % 4 * 16)]
  | [] => []

/-- Base64url decoding without padding; the bits past the last whole byte must be zero. -/
def decode : List UInt8 → Option (List UInt8)
  | a :: b :: c :: d :: rest => do
    let n := (← symbolValue a) * 0x40000 + (← symbolValue b) * 0x1000 +
      (← symbolValue c) * 64 + (← symbolValue d)
    let tail ← decode rest
    pure ((n / 0x10000).toUInt8 :: (n / 0x100 % 0x100).toUInt8 :: (n % 0x100).toUInt8 :: tail)
  | [a, b, c] => do
    let n := (← symbolValue a) * 0x1000 + (← symbolValue b) * 64 + (← symbolValue c)
    if n % 4 = 0 then pure [(n / 0x400).toUInt8, (n / 4 % 0x100).toUInt8] else none
  | [a, b] => do
    let n := (← symbolValue a) * 64 + (← symbolValue b)
    if n % 16 = 0 then pure [(n / 16).toUInt8] else none
  | [_] => none
  | [] => some []

theorem symbolValue_symbol : ∀ i, i < 64 → symbolValue (symbol i) = some i := by decide

/-- A symbol of the URL-safe alphabet: `A-Z`, `a-z`, `0-9`, `-` or `_`. -/
def isUrlSafe (c : UInt8) : Bool :=
  (0x41 ≤ c && c ≤ 0x5A) || (0x61 ≤ c && c ≤ 0x7A) || (0x30 ≤ c && c ≤ 0x39) || c = 0x2D ||
    c = 0x5F

theorem isUrlSafe_symbol (i : Nat) : isUrlSafe (symbol i) := by
  unfold symbol
  split_ifs <;> first | decide | (simp only [isUrlSafe, Bool.or_eq_true, Bool.and_eq_true,
    decide_eq_true_eq, byte_le_iff, toNat_toUInt8, UInt8.toNat_ofNat, UInt8.size]; omega)

theorem decode_encode (xs : List UInt8) : decode (encode xs) = some xs := by
  induction xs using encode.induct with
  | case1 a b c rest ih =>
    have ha := a.toNat_lt; have hb := b.toNat_lt; have hc := c.toNat_lt
    simp (disch := omega) only [encode, List.cons_append, List.nil_append, List.append_eq, decode,
      symbolValue_symbol, ih, Option.bind_eq_bind, Option.some_bind, Option.pure_def, Option.some.injEq,
      List.cons.injEq, byte_eq_iff, toNat_toUInt8, and_true]
    refine ⟨?_, ?_, ?_⟩ <;> omega
  | case2 a b =>
    have ha := a.toNat_lt; have hb := b.toNat_lt
    simp (disch := omega) only [encode, decode, symbolValue_symbol, Option.bind_eq_bind, Option.some_bind,
      Option.pure_def]
    rw [if_pos (by omega)]
    simp only [Option.some.injEq, List.cons.injEq, byte_eq_iff, toNat_toUInt8, and_true]
    try refine ⟨?_, ?_⟩
    all_goals omega
  | case3 a =>
    have ha := a.toNat_lt
    simp (disch := omega) only [encode, decode, symbolValue_symbol, Option.bind_eq_bind, Option.some_bind,
      Option.pure_def]
    rw [if_pos (by omega)]
    simp only [Option.some.injEq, List.cons.injEq, byte_eq_iff, toNat_toUInt8, and_true]
    try refine ⟨?_, ?_⟩
    all_goals omega
  | case4 => rfl

theorem length_encode (xs : List UInt8) : (encode xs).length = (4 * xs.length + 2) / 3 := by
  induction xs using encode.induct with
  | case1 a b c rest ih => simp only [encode, List.length_append, List.length_cons, List.length_nil, ih]; omega
  | _ => simp [encode]

/-- Every encoded byte is a symbol of the alphabet: no `=`, no `+` or `/`. -/
theorem isUrlSafe_of_mem_encode {xs : List UInt8} {c : UInt8} (h : c ∈ encode xs) :
    isUrlSafe c := by
  induction xs using encode.induct with
  | case1 a b c' rest ih =>
    simp only [encode, List.cons_append, List.mem_cons, List.nil_append] at h
    rcases h with rfl | rfl | rfl | rfl | h
    all_goals first | exact ih h | exact isUrlSafe_symbol _
  | _ =>
    simp only [encode, List.mem_cons, List.mem_singleton, List.not_mem_nil, or_false] at h <;>
      rcases h with rfl | rfl | rfl <;> exact isUrlSafe_symbol _

theorem lt_of_isUrlSafe {c : UInt8} (h : isUrlSafe c) : c < 0x80 := by
  simp only [isUrlSafe, Bool.or_eq_true, Bool.and_eq_true, decide_eq_true_eq, byte_le_iff,
    byte_eq_iff, byte_lt_iff, UInt8.toNat_ofNat, UInt8.size] at h ⊢
  omega

end IoOauth.Base64
