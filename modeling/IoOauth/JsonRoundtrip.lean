import IoOauth.Json

/-! The parser reads back what the writer writes: `fromSlice v.write = .ok v` for every value
within the depth limit whose integers are in range. One lemma per kind of token and per step of
the sequence and map loops, then an induction over the value. -/
namespace IoOauth.Json
open FormUrlencoded (hexValue)

theorem except_bind_eq_ok {ε α β : Type} {e : Except ε α} {f : α → Except ε β} {b : β} :
    e >>= f = .ok b ↔ ∃ a, e = .ok a ∧ f a = .ok b := by
  cases e <;> simp [bind, Except.bind]

theorem except_map_eq_ok {ε α β : Type} {f : α → β} {e : Except ε α} {b : β} :
    e.map f = .ok b ↔ ∃ a, e = .ok a ∧ f a = b := by
  cases e <;> simp [Except.map]

theorem hexValue_hexLower : ∀ d < 16, hexValue (hexLower d) = some d := by decide

theorem codePoint_of_lt : ∀ n < 0x80, codePoint n = [n.toUInt8] := by decide

theorem toUInt8_toNat (b : UInt8) : b.toNat.toUInt8 = b := by
  rw [byte_eq_iff, toNat_toUInt8]; exact Nat.mod_eq_of_lt b.toNat_lt

theorem parseUnicodeEscape_control {b : UInt8} (h : b < 0x20) (rest : List UInt8) :
    parseUnicodeEscape (0x30 :: 0x30 :: hexLower (b.toNat / 16) :: hexLower (b.toNat % 16) :: rest) =
      .ok ([b], rest) := by
  simp only [byte_lt_iff, UInt8.toNat_ofNat, UInt8.size, Nat.reduceMod] at h
  have h0 : hexValue 0x30 = some 0 := rfl
  have h1 := hexValue_hexLower (b.toNat / 16) (by omega)
  have h2 := hexValue_hexLower (b.toNat % 16) (by omega)
  have hn : ((0 * 16 + 0) * 16 + b.toNat / 16) * 16 + b.toNat % 16 = b.toNat := by omega
  have hc : codePoint b.toNat = [b] := by rw [codePoint_of_lt _ (by omega), toUInt8_toNat]
  simp only [parseUnicodeEscape, decodeHexEscape, h0, h1, h2, hn, bind, Except.bind]
  rw [if_neg (by omega), if_pos (by omega), hc]
  rfl

theorem parseStr_backslash {scratch rest out r : List UInt8} (h : parseEscape rest = .ok (out, r)) :
    parseStr scratch (0x5C :: rest) = parseStr (scratch ++ out) r := by
  rw [parseStr.eq_2, if_neg (by decide), if_pos rfl]
  split <;> rename_i heq <;> rw [h] at heq <;> cases heq
  rfl

theorem parseStr_plain {b : UInt8} (h : ¬ b < 0x20) (h1 : b ≠ 0x22) (h2 : b ≠ 0x5C)
    (scratch rest : List UInt8) : parseStr scratch (b :: rest) = parseStr (scratch ++ [b]) rest := by
  rw [parseStr.eq_2, if_neg h1, if_neg h2, if_neg h]

/-- Every byte is read back from its escaped form. -/
theorem parseStr_escapeByte (scratch rest : List UInt8) (b : UInt8) :
    parseStr scratch (escapeByte b ++ rest) = parseStr (scratch ++ [b]) rest := by
  have short : ∀ {c : UInt8}, parseEscape (c :: rest) = .ok ([b], rest) →
      parseStr scratch (0x5C :: c :: rest) = parseStr (scratch ++ [b]) rest :=
    parseStr_backslash
  unfold escapeByte
  by_cases h1 : b = 0x22; · subst h1; exact short rfl
  by_cases h2 : b = 0x5C; · subst h2; exact short rfl
  by_cases h3 : b = 0x08; · subst h3; exact short rfl
  by_cases h4 : b = 0x0C; · subst h4; exact short rfl
  by_cases h5 : b = 0x0A; · subst h5; exact short rfl
  by_cases h6 : b = 0x0D; · subst h6; exact short rfl
  by_cases h7 : b = 0x09; · subst h7; exact short rfl
  rw [if_neg h1, if_neg h2, if_neg h3, if_neg h4, if_neg h5, if_neg h6, if_neg h7]
  split
  · refine parseStr_backslash ?_
    simp [parseEscape, parseUnicodeEscape_control ‹_›]
  · exact parseStr_plain ‹_› h1 h2 _ _

theorem parseStr_flatMap_escapeByte (scratch rest bs : List UInt8) :
    parseStr scratch (bs.flatMap escapeByte ++ rest) = parseStr (scratch ++ bs) rest := by
  induction bs generalizing scratch with
  | nil => simp
  | cons b bs ih =>
    rw [List.flatMap_cons, List.append_assoc, parseStr_escapeByte, ih, List.append_assoc]
    rfl

theorem parseStr_quote (s : Str) (rest : List UInt8) :
    parseStr s.bytes (0x22 :: rest) = .ok (s, rest) := by
  rw [parseStr.eq_2, if_pos rfl, dif_pos (Utf8.fromUtf8Lossy_of_valid s.valid)]

/-- A string is read back from its escaped form, whatever follows the closing quote. -/
theorem parseStr_escaped (s : Str) (rest : List UInt8) :
    parseStr [] (s.bytes.flatMap escapeByte ++ 0x22 :: rest) = .ok (s, rest) := by
  rw [parseStr_flatMap_escapeByte, List.nil_append, parseStr_quote]

/-! ### Numbers -/

theorem isDigit_iff {b : UInt8} : isDigit b = true ↔ 0x30 ≤ b.toNat ∧ b.toNat ≤ 0x39 := by
  simp [isDigit, byte_le_iff, UInt8.size]

/-- What may follow a number without extending it: nothing, or a byte other than a digit, `.`,
`e` and `E`. -/
def NumberEnd (rest : List UInt8) : Prop :=
  ∀ b ∈ rest.head?, isDigit b = false ∧ b ≠ 0x2E ∧ b ≠ 0x65 ∧ b ≠ 0x45

theorem isDigit_of_mem_decimal {n : Nat} {b : UInt8} (h : b ∈ decimal n) : isDigit b := by
  unfold decimal at h
  split_ifs at h
  · rw [List.mem_singleton.mp h]; rfl
  · obtain ⟨d, hd, rfl⟩ := List.mem_map.mp h
    have := Nat.digits_lt_base (by norm_num) (List.mem_reverse.mp hd)
    rw [isDigit_iff, toNat_toUInt8]
    omega

theorem foldr_digitsValue (l : List Nat) (h : ∀ d ∈ l, d < 10) :
    l.foldr (fun d n => 10 * n + ((0x30 + d).toUInt8.toNat - 0x30)) 0 = Nat.ofDigits 10 l := by
  induction l with
  | nil => rfl
  | cons d l ih =>
    rw [List.foldr_cons, ih (fun x hx => h x (List.mem_cons_of_mem d hx)), Nat.ofDigits_cons,
      toNat_toUInt8]
    have := h d (List.mem_cons_self d l)
    omega

theorem digitsValue_decimal (n : Nat) : digitsValue (decimal n) = n := by
  unfold decimal digitsValue
  split_ifs with h
  · subst h; rfl
  · simp only [List.foldl_map, List.foldl_reverse]
    rw [foldr_digitsValue _ (fun d hd => Nat.digits_lt_base (by norm_num) hd), Nat.ofDigits_digits]

/-- Only `0` is written with a leading zero. -/
theorem decimal_eq_cons (n : Nat) : ∃ b ds, decimal n = b :: ds ∧ (b = 0x30 → n = 0 ∧ ds = []) := by
  unfold decimal
  split_ifs with h
  · exact ⟨_, _, rfl, fun _ => ⟨h, rfl⟩⟩
  · have hne : Nat.digits 10 n ≠ [] := Nat.digits_ne_nil_iff_ne_zero.mpr h
    obtain ⟨ds, d, hds⟩ : ∃ ds d, Nat.digits 10 n = ds ++ [d] :=
      ⟨_, _, (List.dropLast_append_getLast hne).symm⟩
    have hd0 : d ≠ 0 := by simpa [hds] using Nat.getLast_digit_ne_zero 10 h
    have hmem : d ∈ Nat.digits 10 n := by simp [hds]
    have hlt : d < 10 := Nat.digits_lt_base (by norm_num) hmem
    refine ⟨(0x30 + d).toUInt8, ds.reverse.map fun d => (0x30 + d).toUInt8, by simp [hds],
      fun h0 => ?_⟩
    rw [byte_eq_iff, toNat_toUInt8] at h0
    simp [UInt8.size] at h0
    omega

/-- Digits, then a rest that does not start with one: the run of digits is the digits. -/
theorem takeWhile_isDigit_append {ds rest : List UInt8} (hds : ∀ x ∈ ds, isDigit x)
    (hr : ∀ y ∈ rest.head?, isDigit y = false) :
    (ds ++ rest).takeWhile isDigit = ds ∧ (ds ++ rest).dropWhile isDigit = rest := by
  rw [List.takeWhile_append_of_pos hds, List.dropWhile_append_of_pos hds]
  cases rest with
  | nil => simp
  | cons c r => simp [hr c rfl]

/-- The guard of `parse_integer` passes a digit and the digits after it, a leading `0` alone. -/
theorem parseNumber_guard {b : UInt8} {ds rest : List UInt8} (hb : isDigit b)
    (hr : ∀ y ∈ rest.head?, isDigit y = false) (h0 : b = 0x30 → ds = []) :
    ¬ (¬ isDigit b ∨ (b = 0x30 ∧ (ds ++ rest).head?.any isDigit)) := by
  rintro (h | ⟨rfl, h⟩)
  · exact h hb
  · rw [h0 rfl, List.nil_append] at h
    cases rest with
    | nil => cases h
    | cons c r => simp [hr c rfl] at h

/-- `parse_number` reads a digit and the digits after it, a leading `0` alone, as an integer
before anything that does not extend a number. -/
theorem parseNumber_integer (positive : Bool) {b : UInt8} {ds rest : List UInt8} (hb : isDigit b)
    (hds : ∀ x ∈ ds, isDigit x) (h0 : b = 0x30 → ds = []) (hr : NumberEnd rest) :
    parseNumber positive (b :: ds ++ rest) = .ok (integer positive (b :: ds), rest) := by
  have hr' : ∀ y ∈ rest.head?, isDigit y = false := fun y hy => (hr y hy).1
  obtain ⟨ht, hd⟩ := takeWhile_isDigit_append hds hr'
  rw [List.cons_append, parseNumber, if_neg (parseNumber_guard hb hr' h0)]
  simp only [ht, hd]
  cases rest with
  | nil => rfl
  | cons c r => obtain ⟨-, h1, h2, h3⟩ := hr c rfl; simp [h1, h2, h3]

theorem parseNumber_decimal (positive : Bool) (n : Nat) {rest : List UInt8} (hr : NumberEnd rest) :
    parseNumber positive (decimal n ++ rest) = .ok (integer positive (decimal n), rest) := by
  obtain ⟨b, ds, hbd, h0⟩ := decimal_eq_cons n
  rw [hbd]
  exact parseNumber_integer positive (isDigit_of_mem_decimal (hbd ▸ List.mem_cons_self b ds))
    (fun x hx => isDigit_of_mem_decimal (hbd ▸ List.mem_cons_of_mem b hx)) (fun h => (h0 h).2) hr

/-! ### Values -/

theorem skipWs_cons {b : UInt8} (h : isWs b = false) (rest : List UInt8) :
    skipWs (b :: rest) = b :: rest := by
  simp [skipWs, List.dropWhile, h]

theorem parseIdent_append (cs rest : List UInt8) : parseIdent cs (cs ++ rest) = .ok rest := by
  induction cs with
  | nil => rfl
  | cons c cs ih => simp [parseIdent, ih]

theorem parseValue_null (fuel d : Nat) (rest : List UInt8) :
    parseValue (fuel + 1) d (Value.null.write ++ rest) = .ok (.null, rest) := by
  have : Value.null.write = 0x6E :: utf8 "ull" := rfl
  simp only [this, List.cons_append, parseValue, skipWs_cons (by decide : isWs 0x6E = false),
    if_pos, parseIdent_append]
  rfl

theorem parseValue_bool (fuel d : Nat) (b : Bool) (rest : List UInt8) :
    parseValue (fuel + 1) d ((Value.bool b).write ++ rest) = .ok (.bool b, rest) := by
  cases b
  · have : (Value.bool false).write = 0x66 :: utf8 "alse" := rfl
    simp only [this, List.cons_append, parseValue, skipWs_cons (by decide : isWs 0x66 = false),
      parseIdent_append]
    rfl
  · have : (Value.bool true).write = 0x74 :: utf8 "rue" := rfl
    simp only [this, List.cons_append, parseValue, skipWs_cons (by decide : isWs 0x74 = false),
      parseIdent_append]
    rfl

theorem parseValue_string (fuel d : Nat) (s : Str) (rest : List UInt8) :
    parseValue (fuel + 1) d ((Value.string s).write ++ rest) = .ok (.string s, rest) := by
  simp only [Value.write, writeStr, List.cons_append, List.append_assoc, List.singleton_append,
    parseValue, skipWs_cons (by decide : isWs 0x22 = false), parseStr_escaped]
  rfl

theorem parseValue_digit {b : UInt8} (hb : isDigit b) (fuel d : Nat) (rest : List UInt8) :
    parseValue (fuel + 1) d (b :: rest) = parseNumber true (b :: rest) := by
  have h := isDigit_iff.mp hb
  have hws : isWs b = false := by simp [isWs, byte_eq_iff, UInt8.size]; omega
  simp only [parseValue, skipWs_cons hws]
  rw [if_neg, if_neg, if_neg, if_neg, if_pos hb] <;> simp [byte_eq_iff, UInt8.size] <;> omega

theorem parseValue_posInt (fuel d : Nat) {n : Nat} (h : n < 2 ^ 64) {rest : List UInt8}
    (hr : NumberEnd rest) :
    parseValue (fuel + 1) d ((Value.posInt n).write ++ rest) = .ok (.posInt n, rest) := by
  obtain ⟨b, ds, hbd, -⟩ := decimal_eq_cons n
  have hb := isDigit_of_mem_decimal (hbd ▸ List.mem_cons_self b ds)
  rw [Value.write, hbd, List.cons_append, parseValue_digit hb, ← List.cons_append, ← hbd,
    parseNumber_decimal _ _ hr]
  simpa [integer, digitsValue_decimal] using h

theorem parseValue_minus (fuel d : Nat) (rest : List UInt8) :
    parseValue (fuel + 1) d (0x2D :: rest) = parseNumber false rest := by
  simp only [parseValue, skipWs_cons (by decide : isWs 0x2D = false)]
  rw [if_neg (by decide), if_neg (by decide), if_neg (by decide), if_pos trivial]

theorem parseValue_negInt (fuel d : Nat) {n : Int} (h : -2 ^ 63 ≤ n) (h' : n < 0)
    {rest : List UInt8} (hr : NumberEnd rest) :
    parseValue (fuel + 1) d ((Value.negInt n).write ++ rest) = .ok (.negInt n, rest) := by
  rw [Value.write, List.cons_append, parseValue_minus, parseNumber_decimal _ _ hr]
  have hm : 0 < n.natAbs ∧ n.natAbs ≤ 2 ^ 63 := by omega
  simp only [integer, digitsValue_decimal, Bool.false_eq_true, ite_false, if_pos hm]
  congr
  omega

/-- `v` is read back from its text at the remaining depth `d`, given fuel beyond the length of
the text and a continuation that does not extend a number. -/
def ReadsBack (d : Nat) (v : Value) : Prop :=
  ∀ fuel rest, v.write.length < fuel → NumberEnd rest →
    parseValue fuel d (v.write ++ rest) = .ok (v, rest)

/-- Fuel beyond the length of a text is at least one, so one step of the parser is all there is
to check. -/
theorem ReadsBack.of_succ {d : Nat} {v : Value}
    (h : ∀ fuel rest, v.write.length ≤ fuel → NumberEnd rest →
      parseValue (fuel + 1) d (v.write ++ rest) = .ok (v, rest)) : ReadsBack d v
  | 0, _, hf, _ => absurd hf (Nat.not_lt_zero _)
  | fuel + 1, rest, hf, hr => h fuel rest (Nat.lt_succ_iff.mp hf) hr

/-- The values the writer and the parser agree on, nested within the remaining depth `d`:
integers in the parser's ranges, and no float. -/
inductive Printable : Nat → Value → Prop
  | null {d} : Printable d .null
  | bool {d} (b : Bool) : Printable d (.bool b)
  | posInt {d n} (h : n < 2 ^ 64) : Printable d (.posInt n)
  | negInt {d n} (h : -2 ^ 63 ≤ n) (h' : n < 0) : Printable d (.negInt n)
  | string {d} (s : Str) : Printable d (.string s)
  | array {d vs} (hd : 2 ≤ d) (h : ∀ v ∈ vs, Printable (d - 1) v) : Printable d (.array vs)
  | object {d ms} (hd : 2 ≤ d) (h : ∀ m ∈ ms, Printable (d - 1) m.2) : Printable d (.object ms)

/-- What the parser gives, nested within the remaining depth `d`: the printable values, and the
numbers it keeps as their text, which starts with a digit or `-` and reads back as itself. -/
inductive Accepted : Nat → Value → Prop
  | null {d} : Accepted d .null
  | bool {d} (b : Bool) : Accepted d (.bool b)
  | posInt {d n} (h : n < 2 ^ 64) : Accepted d (.posInt n)
  | negInt {d n} (h : -2 ^ 63 ≤ n) (h' : n < 0) : Accepted d (.negInt n)
  | float {d c t} (hc : isDigit c ∨ c = 0x2D) (h : ReadsBack d (.float (c :: t))) :
      Accepted d (.float (c :: t))
  | string {d} (s : Str) : Accepted d (.string s)
  | array {d vs} (hd : 2 ≤ d) (h : ∀ v ∈ vs, Accepted (d - 1) v) : Accepted d (.array vs)
  | object {d ms} (hd : 2 ≤ d) (h : ∀ m ∈ ms, Accepted (d - 1) m.2) : Accepted d (.object ms)

theorem Printable.accepted {d : Nat} {v : Value} (hv : Printable d v) : Accepted d v := by
  induction hv with
  | null => exact .null
  | bool b => exact .bool b
  | posInt h => exact .posInt h
  | negInt h h' => exact .negInt h h'
  | string s => exact .string s
  | array hd _ ih => exact .array hd ih
  | object hd _ ih => exact .object hd ih

/-- An accepted value is written starting with a byte that is neither whitespace nor a closing
bracket or brace. -/
theorem write_eq_cons {d : Nat} {v : Value} (hv : Accepted d v) :
    ∃ c r, v.write = c :: r ∧ isWs c = false ∧ c ≠ 0x5D ∧ c ≠ 0x7D := by
  cases hv with
  | null => exact ⟨_, _, rfl, by decide, by decide, by decide⟩
  | bool b => cases b <;> exact ⟨_, _, rfl, by decide, by decide, by decide⟩
  | @posInt _ n _ =>
    obtain ⟨b, ds, hbd, -⟩ := decimal_eq_cons n
    have h := isDigit_iff.mp (isDigit_of_mem_decimal (hbd ▸ List.mem_cons_self b ds))
    refine ⟨b, ds, hbd, ?_, ?_, ?_⟩ <;> simp [isWs, byte_eq_iff, UInt8.size] <;> omega
  | negInt => exact ⟨_, _, rfl, by decide, by decide, by decide⟩
  | @float _ c t hc _ =>
    refine ⟨c, t, rfl, ?_⟩
    rcases hc with hc | rfl
    · have h := isDigit_iff.mp hc
      refine ⟨?_, ?_, ?_⟩ <;> simp [isWs, byte_eq_iff, UInt8.size] <;> omega
    · decide
  | string s => exact ⟨_, _, rfl, by decide, by decide, by decide⟩
  | @array _ vs _ _ => cases vs <;> exact ⟨_, _, rfl, by decide, by decide, by decide⟩
  | @object _ ms _ _ =>
    rcases ms with _ | ⟨⟨k, v⟩, ms⟩ <;> exact ⟨_, _, rfl, by decide, by decide, by decide⟩

theorem parseSeq_close (fuel d : Nat) (first : Bool) (acc : List Value) (rest : List UInt8) :
    parseSeq (fuel + 1) d first acc (0x5D :: rest) = .ok (.array acc, rest) := by
  simp [parseSeq, skipWs_cons (by decide : isWs 0x5D = false)]

theorem parseSeq_comma {fuel d : Nat} {acc : List Value} {c : UInt8} {r tail : List UInt8}
    {v : Value} (hws : isWs c = false) (hc : c ≠ 0x5D)
    (hv : parseValue fuel d (c :: r) = .ok (v, tail)) :
    parseSeq (fuel + 1) d false acc (0x2C :: c :: r) = parseSeq fuel d false (acc ++ [v]) tail := by
  simp [parseSeq, skipWs_cons (by decide : isWs 0x2C = false), skipWs_cons hws, hc, hv, bind,
    Except.bind]

theorem parseSeq_first {fuel d : Nat} {acc : List Value} {c : UInt8} {r : List UInt8}
    (hws : isWs c = false) (hc : c ≠ 0x5D) :
    parseSeq (fuel + 1) d true acc (c :: r) = parseSeq (fuel + 1) d false acc (0x2C :: c :: r) := by
  simp [parseSeq, skipWs_cons (by decide : isWs 0x2C = false), skipWs_cons hws, hc]

theorem parseMap_close (fuel d : Nat) (first : Bool) (acc : List (Str × Value))
    (rest : List UInt8) : parseMap (fuel + 1) d first acc (0x7D :: rest) = .ok (.object acc, rest) := by
  simp [parseMap, skipWs_cons (by decide : isWs 0x7D = false)]

theorem parseMap_comma {fuel d : Nat} {acc : List (Str × Value)} {k : Str} {r tail : List UInt8}
    {v : Value} (hv : parseValue fuel d r = .ok (v, tail)) :
    parseMap (fuel + 1) d false acc (0x2C :: (writeStr k.bytes ++ 0x3A :: r)) =
      parseMap fuel d false (acc ++ [(k, v)]) tail := by
  simp [writeStr, parseMap, skipWs_cons (by decide : isWs 0x2C = false),
    skipWs_cons (by decide : isWs 0x22 = false), skipWs_cons (by decide : isWs 0x3A = false),
    parseStr_escaped, bind, Except.bind, hv]

theorem parseMap_first {fuel d : Nat} {acc : List (Str × Value)} {r : List UInt8} :
    parseMap (fuel + 1) d true acc (0x22 :: r) = parseMap (fuel + 1) d false acc (0x2C :: 0x22 :: r) := by
  simp [parseMap, skipWs_cons (by decide : isWs 0x2C = false),
    skipWs_cons (by decide : isWs 0x22 = false)]

theorem parseValue_open {fuel d : Nat} (hd : 2 ≤ d) (rest : List UInt8) :
    parseValue (fuel + 1) d (0x5B :: rest) = parseSeq fuel (d - 1) true [] rest ∧
      parseValue (fuel + 1) d (0x7B :: rest) = parseMap fuel (d - 1) true [] rest := by
  constructor <;>
  simp [parseValue, skipWs_cons (by decide : isWs 0x5B = false),
    skipWs_cons (by decide : isWs 0x7B = false), (by decide : isDigit 0x5B = false),
    (by decide : isDigit 0x7B = false), show ¬ d ≤ 1 by omega]

theorem numberEnd_writeElems (vs : List Value) (rest : List UInt8) :
    NumberEnd (writeElems vs ++ rest) := by
  cases vs <;> simp [NumberEnd, writeElems] <;> decide

theorem numberEnd_writeMembers (ms : List (Str × Value)) (rest : List UInt8) :
    NumberEnd (writeMembers ms ++ rest) := by
  rcases ms with _ | ⟨⟨k, v⟩, ms⟩ <;> simp [NumberEnd, writeMembers] <;> decide

theorem parseSeq_writeElems {d : Nat} {vs : List Value} (hp : ∀ v ∈ vs, Accepted d v)
    (h : ∀ v ∈ vs, ReadsBack d v) (fuel : Nat) (acc : List Value) (rest : List UInt8)
    (hf : (writeElems vs).length ≤ fuel) :
    parseSeq fuel d false acc (writeElems vs ++ rest) = .ok (.array (acc ++ vs), rest) := by
  induction vs generalizing fuel acc with
  | nil =>
    obtain ⟨f, rfl⟩ : ∃ f, fuel = f + 1 := ⟨fuel - 1, by simp [writeElems] at hf; omega⟩
    simpa using parseSeq_close f d false acc rest
  | cons v vs ih =>
    obtain ⟨c, r, hcr, hws, hc, -⟩ := write_eq_cons (hp v (List.mem_cons_self v vs))
    have hpos : 0 < (writeElems vs).length := by cases vs <;> simp [writeElems]
    simp only [writeElems, List.length_cons, List.length_append] at hf
    obtain ⟨f, rfl⟩ : ∃ f, fuel = f + 1 := ⟨fuel - 1, by omega⟩
    have hv := h v (List.mem_cons_self v vs) f (writeElems vs ++ rest) (by omega)
      (numberEnd_writeElems vs rest)
    rw [hcr, List.cons_append] at hv
    rw [writeElems, hcr]
    simp only [List.cons_append, List.append_assoc]
    rw [parseSeq_comma hws hc hv, ih (fun w hw => hp w (List.mem_cons_of_mem v hw))
        (fun w hw => h w (List.mem_cons_of_mem v hw)) f _ (by omega)]
    simp

theorem parseMap_writeMembers {d : Nat} {ms : List (Str × Value)} (h : ∀ m ∈ ms, ReadsBack d m.2)
    (fuel : Nat) (acc : List (Str × Value)) (rest : List UInt8)
    (hf : (writeMembers ms).length ≤ fuel) :
    parseMap fuel d false acc (writeMembers ms ++ rest) = .ok (.object (acc ++ ms), rest) := by
  induction ms generalizing fuel acc with
  | nil =>
    obtain ⟨f, rfl⟩ : ∃ f, fuel = f + 1 := ⟨fuel - 1, by simp [writeMembers] at hf; omega⟩
    simpa using parseMap_close f d false acc rest
  | cons m ms ih =>
    obtain ⟨k, v⟩ := m
    have hpos : 0 < (writeMembers ms).length := by
      rcases ms with _ | ⟨⟨k, v⟩, ms⟩ <;> simp [writeMembers]
    simp only [writeMembers, List.length_cons, List.length_append] at hf
    obtain ⟨f, rfl⟩ : ∃ f, fuel = f + 1 := ⟨fuel - 1, by omega⟩
    have hv : parseValue f d (v.write ++ (writeMembers ms ++ rest)) = .ok (v, writeMembers ms ++ rest) :=
      h (k, v) (List.mem_cons_self _ _) f _ (by dsimp only; omega) (numberEnd_writeMembers ms rest)
    rw [writeMembers]
    simp only [List.cons_append, List.append_assoc]
    rw [parseMap_comma hv, ih (fun w hw => h w (List.mem_cons_of_mem _ hw)) f _ (by omega)]
    simp

theorem readsBack_of_accepted {d : Nat} {v : Value} (hv : Accepted d v) : ReadsBack d v := by
  induction hv with
  | null => exact .of_succ fun f rest _ _ => parseValue_null f _ rest
  | bool b => exact .of_succ fun f rest _ _ => parseValue_bool f _ b rest
  | posInt h => exact .of_succ fun f _ _ hr => parseValue_posInt f _ h hr
  | negInt h h' => exact .of_succ fun f _ _ hr => parseValue_negInt f _ h h' hr
  | float _ h => exact h
  | string s => exact .of_succ fun f rest _ _ => parseValue_string f _ s rest
  | @array d vs hd hp ih =>
    refine .of_succ fun f rest hf _ => ?_
    obtain ⟨g, rfl⟩ : ∃ g, f = g + 1 := ⟨f - 1, by cases vs <;> simp [Value.write] at hf <;> omega⟩
    cases vs with
    | nil => exact (parseValue_open hd _).1.trans (parseSeq_close g _ true [] rest)
    | cons v vs =>
      obtain ⟨c, r, hcr, hws, hc, -⟩ := write_eq_cons (hp v (List.mem_cons_self v vs))
      have hloop := parseSeq_writeElems hp ih (g + 1) [] rest
        (by simp only [Value.write, List.length_cons, List.length_append] at hf
            simp only [writeElems, List.length_cons, List.length_append]; omega)
      rw [writeElems, hcr] at hloop
      rw [Value.write, hcr]
      simp only [List.cons_append, List.append_assoc] at hloop ⊢
      rw [(parseValue_open hd _).1, parseSeq_first hws hc, hloop, List.nil_append]
  | @object d ms hd hp ih =>
    refine .of_succ fun f rest hf _ => ?_
    obtain ⟨g, rfl⟩ : ∃ g, f = g + 1 := ⟨f - 1, by
      rcases ms with _ | ⟨⟨k, v⟩, ms⟩ <;> simp [Value.write, writeStr] at hf <;> omega⟩
    rcases ms with _ | ⟨⟨k, v⟩, ms⟩
    · exact (parseValue_open hd _).2.trans (parseMap_close g _ true [] rest)
    · have hloop := parseMap_writeMembers ih (g + 1) [] rest
        (by simp only [Value.write, List.length_cons, List.length_append] at hf
            simp only [writeMembers, List.length_cons, List.length_append]; omega)
      rw [writeMembers] at hloop
      rw [Value.write]
      simp only [writeStr, List.cons_append, List.append_assoc] at hloop ⊢
      rw [(parseValue_open hd _).2, parseMap_first, hloop, List.nil_append]

/-- `from_slice` reads back every accepted value from what `to_string` writes. -/
theorem fromSlice_write {v : Value} (hv : Accepted 128 v) : fromSlice v.write = .ok v := by
  have h := readsBack_of_accepted hv (v.write.length + 1) [] (Nat.lt_succ_self _)
    (by simp [NumberEnd])
  rw [List.append_nil] at h
  simp [fromSlice, h, bind, Except.bind, skipWs]
  rfl

/-- A value starts where the whitespace before it ends. -/
theorem parseValue_ws_append (fuel d : Nat) {pre : List UInt8} (hpre : ∀ b ∈ pre, isWs b)
    (bs : List UInt8) : parseValue fuel d (pre ++ bs) = parseValue fuel d bs := by
  cases fuel with
  | zero => simp only [parseValue]
  | succ fuel => simp only [parseValue, skipWs, List.dropWhile_append_of_pos hpre]

end IoOauth.Json
