import IoOauth.JsonRoundtrip

/-! What the parser reads is well formed: its integers are in range, its other numbers are
texts that read back as themselves, and it nests within the depth limit. Each number scanner is
shown to take a prefix that reads the same before anything that does not extend a number; the
loops of the parser then by induction on the fuel, one step of each loop at a time. -/
namespace IoOauth.Json

/-- Every list is the run of digits it starts with, then a rest that does not start with one. -/
theorem exists_digits_append (cs : List UInt8) : ∃ ds rest, cs = ds ++ rest ∧
    (∀ x ∈ ds, isDigit x) ∧ ∀ y ∈ rest.head?, isDigit y = false := by
  refine ⟨_, _, (List.takeWhile_append_dropWhile isDigit cs).symm, fun _ => List.mem_takeWhile_imp,
    fun y hy => ?_⟩
  have := List.head?_dropWhile_not isDigit cs
  rwa [Option.mem_def.mp hy] at this

theorem not_sign_of_isDigit {c : UInt8} (hc : isDigit c) : ¬ (c = 0x2B ∨ c = 0x2D) := by
  have := isDigit_iff.mp hc
  simp only [byte_eq_iff, UInt8.toNat_ofNat, UInt8.size, Nat.reduceMod]
  omega

/-- `parse_exponent` takes an optional sign, a digit and the digits after it. -/
theorem scanExponent_eq_ok {bs t r : List UInt8} (h : scanExponent bs = .ok (t, r)) :
    ∃ sign c cs, bs = sign ++ c :: cs ∧ (sign = [] ∨ ∃ s, sign = [s] ∧ (s = 0x2B ∨ s = 0x2D)) ∧
      isDigit c ∧ t = sign ++ c :: cs.takeWhile isDigit ∧ r = cs.dropWhile isDigit := by
  match bs, h with
  | b :: bs, h =>
    by_cases hs : b = 0x2B ∨ b = 0x2D
    · match bs, h with
      | c :: cs, h =>
        by_cases hc : isDigit c
        · simp [scanExponent, hs, hc] at h
          exact ⟨[b], c, cs, rfl, .inr ⟨b, rfl, hs⟩, hc, by simp [h.1], h.2.symm⟩
        · simp [scanExponent, hs, hc] at h
      | [], h => simp [scanExponent, hs] at h
    · by_cases hb : isDigit b
      · simp [scanExponent, hs, hb] at h
        exact ⟨[], b, bs, rfl, .inl rfl, hb, by simp [h.1], h.2.symm⟩
      · simp [scanExponent, hs, hb] at h
  | [], h => simp [scanExponent] at h

theorem scanExponent_sign_digit {sign : List UInt8} {c : UInt8} (cs : List UInt8)
    (hs : sign = [] ∨ ∃ s, sign = [s] ∧ (s = 0x2B ∨ s = 0x2D)) (hc : isDigit c) :
    scanExponent (sign ++ c :: cs) = .ok (sign ++ c :: cs.takeWhile isDigit, cs.dropWhile isDigit) := by
  rcases hs with rfl | ⟨s, rfl, hs⟩
  · simp [scanExponent, not_sign_of_isDigit hc, hc]
  · simp [scanExponent, hs, hc]

/-- What `parse_exponent` took reads the same before anything that does not extend a number. -/
theorem scanExponent_sound {bs t r : List UInt8} (h : scanExponent bs = .ok (t, r)) :
    bs = t ++ r ∧ ∀ rest, NumberEnd rest → scanExponent (t ++ rest) = .ok (t, rest) := by
  obtain ⟨sign, c, cs, rfl, hs, hc, rfl, rfl⟩ := scanExponent_eq_ok h
  refine ⟨by simp, fun rest hr => ?_⟩
  have hds : ∀ x ∈ cs.takeWhile isDigit, isDigit x := fun _ => List.mem_takeWhile_imp
  obtain ⟨ht, hd⟩ := takeWhile_isDigit_append hds fun y hy => (hr y hy).1
  rw [List.append_assoc, List.cons_append, scanExponent_sign_digit _ hs hc, ht, hd]

theorem scanFraction_digits {b : UInt8} {ds rest : List UInt8} (hb : isDigit b)
    (hds : ∀ x ∈ ds, isDigit x) (hr : ∀ y ∈ rest.head?, isDigit y = false ∧ y ≠ 0x65 ∧ y ≠ 0x45) :
    scanFraction (b :: ds ++ rest) = .ok (b :: ds, rest) := by
  obtain ⟨ht, hd⟩ := takeWhile_isDigit_append hds fun y hy => (hr y hy).1
  rw [List.cons_append, scanFraction, if_pos hb]
  simp only [ht, hd]
  cases rest with
  | nil => rfl
  | cons e r => obtain ⟨-, h1, h2⟩ := hr e rfl; simp [h1, h2]

theorem scanFraction_exponent {b e : UInt8} {ds x : List UInt8} (hb : isDigit b)
    (hds : ∀ x ∈ ds, isDigit x) (he : e = 0x65 ∨ e = 0x45) :
    scanFraction (b :: ds ++ e :: x) = (scanExponent x).map fun (t, r) => (b :: ds ++ e :: t, r) := by
  have hr : ∀ y ∈ (e :: x).head?, isDigit y = false := by
    rintro y ⟨⟩; rcases he with rfl | rfl <;> rfl
  obtain ⟨ht, hd⟩ := takeWhile_isDigit_append hds hr
  rw [List.cons_append, scanFraction, if_pos hb]
  simp only [ht, hd, if_pos he]

/-- What `parse_decimal` took reads the same before anything that does not extend a number. -/
theorem scanFraction_sound {bs t r : List UInt8} (h : scanFraction bs = .ok (t, r)) :
    bs = t ++ r ∧ ∀ rest, NumberEnd rest → scanFraction (t ++ rest) = .ok (t, rest) := by
  match bs, h with
  | [], h => cases h
  | b :: cs, h =>
    have hb : isDigit b := by by_contra hb; simp [scanFraction, hb] at h
    obtain ⟨ds, rest, rfl, hds, hr⟩ := exists_digits_append cs
    rw [← List.cons_append] at h
    by_cases he : ∃ e x, rest = e :: x ∧ (e = 0x65 ∨ e = 0x45)
    · obtain ⟨e, x, rfl, he⟩ := he
      rw [scanFraction_exponent hb hds he, except_map_eq_ok] at h
      obtain ⟨⟨te, r1⟩, hte, ⟨⟩⟩ := h
      obtain ⟨rfl, hre⟩ := scanExponent_sound hte
      refine ⟨by simp, fun rest hr => ?_⟩
      rw [show b :: ds ++ e :: te ++ rest = b :: ds ++ e :: (te ++ rest) by simp,
        scanFraction_exponent hb hds he, hre rest hr]
      rfl
    · have hr' : ∀ y ∈ rest.head?, isDigit y = false ∧ y ≠ 0x65 ∧ y ≠ 0x45 := fun y hy => by
        obtain ⟨x, rfl⟩ := List.head?_eq_some_iff.mp hy
        exact ⟨hr y rfl, fun h => he ⟨y, x, rfl, .inl h⟩, fun h => he ⟨y, x, rfl, .inr h⟩⟩
      rw [scanFraction_digits hb hds hr'] at h
      cases h
      exact ⟨rfl, fun rest hr => scanFraction_digits hb hds fun y hy => ⟨(hr y hy).1, (hr y hy).2.2⟩⟩

/-- After the digits, a `.` or an exponent mark hands the rest to `parse_decimal` or
`parse_exponent`, and the number is the text taken. -/
theorem parseNumber_fraction (positive : Bool) {b c : UInt8} {ds x : List UInt8} (hb : isDigit b)
    (hds : ∀ x ∈ ds, isDigit x) (h0 : b = 0x30 → ds = []) (hc : c = 0x2E ∨ c = 0x65 ∨ c = 0x45) :
    parseNumber positive (b :: ds ++ c :: x) =
      (if c = 0x2E then scanFraction x else scanExponent x).map fun (t, r) =>
        (.float ((if positive then b :: ds else 0x2D :: b :: ds) ++ c :: t), r) := by
  have hr : ∀ y ∈ (c :: x).head?, isDigit y = false := by
    rintro y ⟨⟩; rcases hc with rfl | rfl | rfl <;> rfl
  obtain ⟨ht, hd⟩ := takeWhile_isDigit_append hds hr
  rw [List.cons_append, parseNumber, if_neg (parseNumber_guard hb hr h0)]
  simp only [ht, hd]
  rcases hc with rfl | rfl | rfl <;> rfl

/-- `parse_number` takes a digit and what follows it of the number. Read again before anything
that does not extend a number, what it took gives the same value: the integer of its digits, or
the text it took, as a float. -/
theorem parseNumber_sound {positive : Bool} {bs : List UInt8} {v : Value} {r : List UInt8}
    (h : parseNumber positive bs = .ok (v, r)) :
    ∃ c t, bs = c :: t ++ r ∧ isDigit c ∧
      (∀ rest, NumberEnd rest → parseNumber positive (c :: t ++ rest) = .ok (v, rest)) ∧
      (v = integer positive (c :: t) ∨ v = .float (if positive then c :: t else 0x2D :: c :: t)) := by
  match bs, h with
  | [], h => cases h
  | b :: cs, h =>
    have hz : ¬ (¬ isDigit b ∨ (b = 0x30 ∧ cs.head?.any isDigit)) := fun hz => by
      rw [parseNumber, if_pos hz] at h; cases h
    have hb : isDigit b := by by_contra hb; exact hz (.inl hb)
    obtain ⟨ds, rest, rfl, hds, hr⟩ := exists_digits_append cs
    rw [← List.cons_append] at h
    -- a leading `0` stands alone
    have h0 : b = 0x30 → ds = [] := by
      rintro rfl
      cases ds with
      | nil => rfl
      | cons y ds => simp [hds y (List.mem_cons_self y ds)] at hz
    by_cases hc : ∃ c x, rest = c :: x ∧ (c = 0x2E ∨ c = 0x65 ∨ c = 0x45)
    · obtain ⟨c, x, rfl, hc⟩ := hc
      rw [parseNumber_fraction positive hb hds h0 hc, except_map_eq_ok] at h
      obtain ⟨⟨t, r1⟩, ht, ⟨⟩⟩ := h
      have hsc : x = t ++ r ∧ ∀ rest, NumberEnd rest →
          (if c = 0x2E then scanFraction (t ++ rest) else scanExponent (t ++ rest)) = .ok (t, rest) := by
        split_ifs at ht ⊢
        exacts [scanFraction_sound ht, scanExponent_sound ht]
      obtain ⟨rfl, hre⟩ := hsc
      refine ⟨b, ds ++ c :: t, by simp, hb, fun rest hr => ?_, .inr (by cases positive <;> rfl)⟩
      rw [show b :: (ds ++ c :: t) ++ rest = b :: ds ++ c :: (t ++ rest) by simp,
        parseNumber_fraction positive hb hds h0 hc, hre rest hr]
      rfl
    · have he : NumberEnd rest := fun y hy => by
        obtain ⟨x, rfl⟩ := List.head?_eq_some_iff.mp hy
        exact ⟨hr y rfl, fun h => hc ⟨y, x, rfl, .inl h⟩, fun h => hc ⟨y, x, rfl, .inr (.inl h)⟩,
          fun h => hc ⟨y, x, rfl, .inr (.inr h)⟩⟩
      rw [parseNumber_integer positive hb hds h0 he] at h
      cases h
      exact ⟨b, ds, rfl, hb, fun _ => parseNumber_integer positive hb hds h0, .inl rfl⟩

/-- Every number `parse_number` gives is accepted: an integer in its type's range, or a text
that reads back as itself. -/
theorem accepted_of_parseNumber {positive : Bool} {bs : List UInt8} {v : Value} {r : List UInt8}
    (h : parseNumber positive bs = .ok (v, r)) (d : Nat) : Accepted d v := by
  obtain ⟨c, t, -, hc, hre, hv⟩ := parseNumber_sound h
  have float : v = .float (if positive then c :: t else 0x2D :: c :: t) → Accepted d v := by
    rintro rfl
    cases positive
    · exact .float (.inr rfl) (.of_succ fun f rest _ hr => (parseValue_minus f d _).trans (hre rest hr))
    · exact .float (.inl hc) (.of_succ fun f rest _ hr => (parseValue_digit hc f d _).trans (hre rest hr))
  rcases hv with rfl | hf
  · cases positive
    · by_cases hn : 0 < digitsValue (c :: t) ∧ digitsValue (c :: t) ≤ 2 ^ 63
      · rw [integer, if_neg Bool.false_ne_true, if_pos hn]; exact .negInt (by omega) (by omega)
      · exact float (by rw [integer, if_neg Bool.false_ne_true, if_neg hn]; rfl)
    · by_cases hn : digitsValue (c :: t) < 2 ^ 64
      · rw [integer, if_pos rfl, if_pos hn]; exact .posInt hn
      · exact float (by rw [integer, if_pos rfl, if_neg hn]; rfl)
  · exact float hf

/-! ### The loops, one step at a time -/

theorem start_of_ne {first : Bool} {bs rest cs : List UInt8} {b : UInt8}
    (hb : skipWs bs = b :: rest) (h2 : ¬ (¬ first = true ∧ b ≠ 0x2C))
    (hcs : (if first = true then b :: rest else skipWs rest) = cs) :
    first = true ∧ skipWs bs = cs ∨
      first = false ∧ ∃ rest, skipWs bs = 0x2C :: rest ∧ skipWs rest = cs := by
  cases first
  · obtain rfl : b = 0x2C := by simpa using h2
    exact .inr ⟨rfl, rest, hb, hcs⟩
  · exact .inl ⟨rfl, hb.trans hcs⟩

/-- One step of the sequence loop that does not fail: the closing bracket, or an element, after
a comma unless it is the first. -/
theorem parseSeq_eq_ok {fuel d : Nat} {first : Bool} {acc : List Value} {bs r : List UInt8}
    {v : Value} (h : parseSeq (fuel + 1) d first acc bs = .ok (v, r)) :
    (∃ rest, skipWs bs = 0x5D :: rest ∧ v = .array acc ∧ r = rest) ∨
      ∃ c r' x r1, (first = true ∧ skipWs bs = c :: r' ∨
          first = false ∧ ∃ rest, skipWs bs = 0x2C :: rest ∧ skipWs rest = c :: r') ∧
        c ≠ 0x5D ∧ parseValue fuel d (c :: r') = .ok (x, r1) ∧
        parseSeq fuel d false (acc ++ [x]) r1 = .ok (v, r) := by
  rw [parseSeq] at h
  split at h
  · cases h
  rename_i b rest hb
  by_cases h1 : b = 0x5D
  · rw [if_pos h1] at h
    cases h
    exact .inl ⟨_, h1 ▸ hb, rfl, rfl⟩
  rw [if_neg h1] at h
  by_cases h2 : ¬ first = true ∧ b ≠ 0x2C
  · rw [if_pos h2] at h; cases h
  rw [if_neg h2] at h
  generalize hcs : (if first = true then b :: rest else skipWs rest) = cs at h
  match cs, h with
  | c :: r', h =>
    dsimp only at h
    by_cases h3 : c = 0x5D
    · rw [if_pos h3] at h; cases h
    rw [if_neg h3] at h
    obtain ⟨⟨x, r1⟩, hx, h⟩ := except_bind_eq_ok.mp h
    exact .inr ⟨c, r', x, r1, start_of_ne hb h2 hcs, h3, hx, h⟩

/-- One step of the map loop that does not fail: the closing brace, or a key, a colon and a
value, after a comma unless it is the first member. -/
theorem parseMap_eq_ok {fuel d : Nat} {first : Bool} {acc : List (Str × Value)}
    {bs r : List UInt8} {v : Value} (h : parseMap (fuel + 1) d first acc bs = .ok (v, r)) :
    (∃ rest, skipWs bs = 0x7D :: rest ∧ v = .object acc ∧ r = rest) ∨
      ∃ r' k r1 r2 x r3, (first = true ∧ skipWs bs = 0x22 :: r' ∨
          first = false ∧ ∃ rest, skipWs bs = 0x2C :: rest ∧ skipWs rest = 0x22 :: r') ∧
        parseStr [] r' = .ok (k, r1) ∧ skipWs r1 = 0x3A :: r2 ∧
        parseValue fuel d r2 = .ok (x, r3) ∧ parseMap fuel d false (acc ++ [(k, x)]) r3 = .ok (v, r) := by
  rw [parseMap] at h
  split at h
  · cases h
  rename_i b rest hb
  by_cases h1 : b = 0x7D
  · rw [if_pos h1] at h
    cases h
    exact .inl ⟨_, h1 ▸ hb, rfl, rfl⟩
  rw [if_neg h1] at h
  by_cases h2 : ¬ first = true ∧ b ≠ 0x2C
  · rw [if_pos h2] at h; cases h
  rw [if_neg h2] at h
  generalize hcs : (if first = true then b :: rest else skipWs rest) = cs at h
  match cs, h with
  | c :: r', h =>
    dsimp only at h
    by_cases h3 : c = 0x22
    · rw [if_pos h3] at h
      obtain ⟨⟨k, r1⟩, hk, h⟩ := except_bind_eq_ok.mp h
      match hd : skipWs r1, h with
      | dd :: r2, h =>
        dsimp only at h
        by_cases h4 : dd = 0x3A
        · rw [if_neg (not_not.mpr h4)] at h
          obtain ⟨⟨x, r3⟩, hx, h⟩ := except_bind_eq_ok.mp h
          subst h3 h4
          exact .inr ⟨r', k, r1, r2, x, r3, start_of_ne hb h2 hcs, hk, hd, hx, h⟩
        · rw [if_pos h4] at h; cases h
    · rw [if_neg h3] at h; split_ifs at h

/-- One call of `deserialize_any` that does not fail: the first byte after the whitespace picks
a literal, a number, a string, or one level of a sequence or a map, which needs depth to spare. -/
theorem parseValue_eq_ok {fuel d : Nat} {bs r : List UInt8} {v : Value}
    (h : parseValue (fuel + 1) d bs = .ok (v, r)) : ∃ b rest, skipWs bs = b :: rest ∧
      (b = 0x6E ∧ v = .null ∧ parseIdent (utf8 "ull") rest = .ok r ∨
        b = 0x74 ∧ v = .bool true ∧ parseIdent (utf8 "rue") rest = .ok r ∨
        b = 0x66 ∧ v = .bool false ∧ parseIdent (utf8 "alse") rest = .ok r ∨
        b = 0x2D ∧ parseNumber false rest = .ok (v, r) ∨
        isDigit b ∧ parseNumber true (b :: rest) = .ok (v, r) ∨
        b = 0x22 ∧ (∃ s, v = .string s ∧ parseStr [] rest = .ok (s, r)) ∨
        b = 0x5B ∧ 2 ≤ d ∧ parseSeq fuel (d - 1) true [] rest = .ok (v, r) ∨
        b = 0x7B ∧ 2 ≤ d ∧ parseMap fuel (d - 1) true [] rest = .ok (v, r)) := by
  rw [parseValue] at h
  split at h
  · cases h
  rename_i b rest hb
  refine ⟨b, rest, hb, ?_⟩
  simp only [ite_eq_iff, except_map_eq_ok, Prod.mk.injEq, reduceCtorEq, and_false, false_and,
    or_false, false_or] at h
  rcases h with ⟨h1, _, h, rfl, rfl⟩ | ⟨-, ⟨h1, _, h, rfl, rfl⟩ | ⟨-, ⟨h1, _, h, rfl, rfl⟩ |
    ⟨-, ⟨h1, h⟩ | ⟨-, ⟨h1, h⟩ | ⟨-, ⟨h1, ⟨s, _⟩, h, rfl, rfl⟩ | ⟨-, ⟨h1, hd, h⟩ | ⟨-, h1, hd, h⟩⟩⟩⟩⟩⟩⟩
  · exact .inl ⟨h1, rfl, h⟩
  · exact .inr (.inl ⟨h1, rfl, h⟩)
  · exact .inr (.inr (.inl ⟨h1, rfl, h⟩))
  · exact .inr (.inr (.inr (.inl ⟨h1, h⟩)))
  · exact .inr (.inr (.inr (.inr (.inl ⟨h1, h⟩))))
  · exact .inr (.inr (.inr (.inr (.inr (.inl ⟨h1, s, rfl, h⟩)))))
  · exact .inr (.inr (.inr (.inr (.inr (.inr (.inl ⟨h1, by omega, h⟩))))))
  · exact .inr (.inr (.inr (.inr (.inr (.inr (.inr ⟨h1, by omega, h⟩))))))

/-- What the parser gives at the remaining depth `d` is accepted there; the sequence and map
loops end in an array or an object of the accepted elements they were given and read. -/
theorem accepted_of_parse : ∀ fuel,
    (∀ {d bs v r}, parseValue fuel d bs = .ok (v, r) → Accepted d v) ∧
    (∀ {d first acc bs v r}, parseSeq fuel d first acc bs = .ok (v, r) →
      (∀ x ∈ acc, Accepted d x) → ∃ vs, v = .array vs ∧ ∀ x ∈ vs, Accepted d x) ∧
    (∀ {d first acc bs v r}, parseMap fuel d first acc bs = .ok (v, r) →
      (∀ m ∈ acc, Accepted d m.2) → ∃ ms, v = .object ms ∧ ∀ m ∈ ms, Accepted d m.2)
  | 0 => ⟨nofun, nofun, nofun⟩
  | fuel + 1 => by
    obtain ⟨ihv, ihs, ihm⟩ := accepted_of_parse fuel
    refine ⟨fun {d bs v r} h => ?_, fun {d first acc bs v r} h hacc => ?_,
      fun {d first acc bs v r} h hacc => ?_⟩
    · obtain ⟨b, rest, -, h⟩ := parseValue_eq_ok h
      -- one case per branch of the dispatch on the first byte
      rcases h with ⟨-, rfl, -⟩ | ⟨-, rfl, -⟩ | ⟨-, rfl, -⟩ | ⟨-, h⟩ | ⟨-, h⟩ | ⟨-, _, rfl, -⟩ |
        ⟨-, hd, h⟩ | ⟨-, hd, h⟩
      · exact .null
      · exact .bool true
      · exact .bool false
      · exact accepted_of_parseNumber h d
      · exact accepted_of_parseNumber h d
      · exact .string _
      · obtain ⟨vs, rfl, hvs⟩ := ihs h (by simp); exact .array (by omega) hvs
      · obtain ⟨ms, rfl, hms⟩ := ihm h (by simp); exact .object (by omega) hms
    · rcases parseSeq_eq_ok h with ⟨-, -, rfl, -⟩ | ⟨_, _, x, _, -, -, hx, h⟩
      · exact ⟨acc, rfl, hacc⟩
      exact ihs h fun y hy =>
        (List.mem_append.mp hy).elim (hacc y) fun hy => List.mem_singleton.mp hy ▸ ihv hx
    · rcases parseMap_eq_ok h with ⟨-, -, rfl, -⟩ | ⟨_, k, _, _, x, _, -, -, -, hx, h⟩
      · exact ⟨acc, rfl, hacc⟩
      exact ihm h fun m hm =>
        (List.mem_append.mp hm).elim (hacc m) fun hm => List.mem_singleton.mp hm ▸ ihv hx

end IoOauth.Json
