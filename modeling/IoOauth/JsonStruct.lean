import IoOauth.JsonAccepted

/-! `from_slice` into a struct with a derived `Deserialize`, as the crate reads the token
endpoint's responses. `deserialize_struct` drives the derived `visit_map` over the text: a member
whose key names a field is read into the tree, and any other is skipped by `ignore_value`. That
loop checks only the syntax of what it skips: its strings are not checked for UTF-8 or
surrogates, its numbers have no range, and it keeps its frames on a stack, with no depth limit.
Skipping a value the parser reads takes exactly the bytes the parser took, so the struct parser
reads any text the parser reads, as the same value less its unknown members. -/
namespace IoOauth.Json

theorem length_dropWhile_le (p : UInt8 → Bool) (l : List UInt8) :
    (l.dropWhile p).length ≤ l.length :=
  (List.dropWhile_suffix p).length_le

theorem length_lt_of_skipWs {bs rest : List UInt8} {b : UInt8} (h : skipWs bs = b :: rest) :
    rest.length < bs.length := by
  have := length_dropWhile_le isWs bs
  rw [← skipWs, h, List.length_cons] at this
  omega

theorem skipWs_skipWs (bs : List UInt8) : skipWs (skipWs bs) = skipWs bs :=
  List.dropWhile_idempotent _ _

theorem length_le_of_parseIdent {cs bs r : List UInt8} (h : parseIdent cs bs = .ok r) :
    r.length ≤ bs.length := by
  induction cs generalizing bs with
  | nil => cases h; exact le_refl _
  | cons c cs ih =>
    match bs, h with
    | b :: bs, h =>
      rw [parseIdent] at h
      split_ifs at h
      exact Nat.le_succ_of_le (ih h)

/-! ## Skipping a value -/

/-- `ignore_escape`, after the backslash: a `\u` escape is four hexadecimal digits, whatever
they name. -/
def ignoreEscape : List UInt8 → Except Error (List UInt8)
  | [] => .error (.malformed .eofWhileParsingString)
  | b :: rest =>
    if b = 0x22 ∨ b = 0x5C ∨ b = 0x2F ∨ b = 0x62 ∨ b = 0x66 ∨ b = 0x6E ∨ b = 0x72 ∨ b = 0x74 then
      .ok rest
    else if b = 0x75 then Prod.snd <$> decodeHexEscape rest
    else .error (.malformed .invalidEscape)

theorem length_lt_of_ignoreEscape {bs r : List UInt8} (h : ignoreEscape bs = .ok r) :
    r.length < bs.length := by
  match bs, h with
  | b :: rest, h =>
    rw [ignoreEscape] at h
    split_ifs at h
    · cases h; exact Nat.lt_succ_self _
    · obtain ⟨⟨n, r'⟩, hd, rfl⟩ := except_map_eq_ok.mp h
      have := length_of_decodeHexEscape hd
      simp only [List.length_cons]
      omega

/-- `ignore_str`, after the opening quote: the bytes after the closing one. Escapes are checked
for their syntax, and the bytes between only for control characters. -/
def ignoreStr : List UInt8 → Except Error (List UInt8)
  | [] => .error (.malformed .eofWhileParsingString)
  | b :: rest =>
    if b = 0x22 then .ok rest
    else if b = 0x5C then
      match h : ignoreEscape rest with
      | .ok r =>
        have := length_lt_of_ignoreEscape h
        ignoreStr r
      | .error e => .error e
    else if b < 0x20 then .error (.malformed .controlCharacterWhileParsingString)
    else ignoreStr rest
termination_by bs => bs.length

/-- `ignore_exponent`, after `e` or `E`: an optional sign, then at least one digit. -/
def ignoreExponent (bs : List UInt8) : Except Error (List UInt8) :=
  let bs := match bs with
    | b :: rest => if b = 0x2B ∨ b = 0x2D then rest else b :: rest
    | [] => []
  match bs with
  | b :: rest => if isDigit b then .ok (rest.dropWhile isDigit) else .error (.malformed .invalidNumber)
  | [] => .error (.malformed .invalidNumber)

/-- `ignore_decimal`, after the `.`: at least one digit, then an optional exponent. -/
def ignoreDecimal : List UInt8 → Except Error (List UInt8)
  | [] => .error (.malformed .invalidNumber)
  | b :: rest =>
    if isDigit b then
      match rest.dropWhile isDigit with
      | e :: r => if e = 0x65 ∨ e = 0x45 then ignoreExponent r else .ok (e :: r)
      | [] => .ok []
    else .error (.malformed .invalidNumber)

/-- `ignore_integer`: one leading `0` or a run of digits, then a fraction, an exponent, or
nothing. The digits are not read as a number. -/
def ignoreInteger : List UInt8 → Except Error (List UInt8)
  | [] => .error (.malformed .invalidNumber)
  | b :: rest =>
    if ¬ isDigit b ∨ (b = 0x30 ∧ rest.head?.any isDigit) then .error (.malformed .invalidNumber)
    else
      match rest.dropWhile isDigit with
      | c :: r =>
        if c = 0x2E then ignoreDecimal r
        else if c = 0x65 ∨ c = 0x45 then ignoreExponent r
        else .ok (c :: r)
      | [] => .ok []

/-- What the top of `ignore_value`'s loop skips for a value starting with `b` other than an array
or an object: the bytes after it. -/
def ignoreScalar (b : UInt8) (rest : List UInt8) : Except Error (List UInt8) :=
  if b = 0x6E then parseIdent (utf8 "ull") rest
  else if b = 0x74 then parseIdent (utf8 "rue") rest
  else if b = 0x66 then parseIdent (utf8 "alse") rest
  else if b = 0x2D then ignoreInteger rest
  else if isDigit b then ignoreInteger (b :: rest)
  else if b = 0x22 then ignoreStr rest
  else .error (.malformed .expectedSomeValue)

/-- A digit is none of the bytes `ignore_value` tests before it. -/
theorem ignoreScalar_of_isDigit {b : UInt8} (hb : isDigit b) (rest : List UInt8) :
    ignoreScalar b rest = ignoreInteger (b :: rest) := by
  have ne : ∀ c : UInt8, isDigit c = false → b ≠ c := fun _ hc e => absurd (e ▸ hb) (by simp [hc])
  rw [ignoreScalar, if_neg (ne 0x6E rfl), if_neg (ne 0x74 rfl), if_neg (ne 0x66 rfl),
    if_neg (ne 0x2D rfl), if_pos hb]

theorem length_lt_of_ignoreExponent {bs r : List UInt8} (h : ignoreExponent bs = .ok r) :
    r.length < bs.length := by
  rcases bs with _ | ⟨b, rest⟩
  · cases h
  simp only [ignoreExponent] at h
  split at h
  · rename_i c cs heq
    split_ifs at h with hc
    cases h
    have := length_dropWhile_le isDigit cs
    split_ifs at heq <;> cases heq <;> simp <;> omega
  · cases h

theorem length_lt_of_ignoreDecimal {bs r : List UInt8} (h : ignoreDecimal bs = .ok r) :
    r.length < bs.length := by
  match bs, h with
  | b :: rest, h =>
    rw [ignoreDecimal] at h
    split_ifs at h
    have := length_dropWhile_le isDigit rest
    split at h
    · rename_i e r' heq
      rw [heq] at this
      split_ifs at h
      · have := length_lt_of_ignoreExponent h
        simp only [List.length_cons] at *
        omega
      · cases h; simp only [List.length_cons] at *; omega
    · cases h; simp

theorem length_lt_of_ignoreInteger {bs r : List UInt8} (h : ignoreInteger bs = .ok r) :
    r.length < bs.length := by
  match bs, h with
  | b :: rest, h =>
    rw [ignoreInteger] at h
    split_ifs at h
    have := length_dropWhile_le isDigit rest
    split at h
    · rename_i e r' heq
      rw [heq] at this
      split_ifs at h
      · have := length_lt_of_ignoreDecimal h
        simp only [List.length_cons] at *
        omega
      · have := length_lt_of_ignoreExponent h
        simp only [List.length_cons] at *
        omega
      · cases h; simp only [List.length_cons] at *; omega
    · cases h; simp

theorem length_lt_of_ignoreStr {bs r : List UInt8} (h : ignoreStr bs = .ok r) :
    r.length < bs.length := by
  match bs, h with
  | [], h => rw [ignoreStr] at h; cases h
  | b :: rest, h =>
    rw [ignoreStr] at h
    split_ifs at h
    · cases h; exact Nat.lt_succ_self _
    · split at h
      · rename_i r' he
        have h1 := length_lt_of_ignoreEscape he
        have h2 := length_lt_of_ignoreStr h
        simp only [List.length_cons]; omega
      · cases h
    · exact Nat.lt_succ_of_lt (length_lt_of_ignoreStr h)
termination_by bs.length
decreasing_by all_goals (simp only [List.length_cons] at *; omega)

theorem length_le_of_ignoreScalar {b : UInt8} {rest r : List UInt8}
    (h : ignoreScalar b rest = .ok r) : r.length ≤ rest.length := by
  unfold ignoreScalar at h
  split_ifs at h
  any_goals exact length_le_of_parseIdent h
  · exact (length_lt_of_ignoreInteger h).le
  · exact Nat.lt_succ_iff.mp (length_lt_of_ignoreInteger h)
  · exact (length_lt_of_ignoreStr h).le

mutual
/-- The top of `ignore_value`'s loop: a value is skipped, and an array or an object pushes its
frame, the byte that opened it, on `stack`, the innermost first. -/
def ignoreValue (stack bs : List UInt8) : Except Error (List UInt8) :=
  match h : skipWs bs with
  | [] => .error (.malformed .eofWhileParsingValue)
  | b :: rest =>
    if b = 0x5B ∨ b = 0x7B then ignoreClose (b :: stack) false rest
    else
      match hs : ignoreScalar b rest with
      | .ok r => ignoreClose stack true r
      | .error e => .error e
termination_by 3 * bs.length
decreasing_by
  all_goals simp_wf
  · have := length_lt_of_skipWs h; omega
  · have := length_lt_of_skipWs h; have := length_le_of_ignoreScalar hs; omega

/-- The inner loop of `ignore_value`, in the frame on top of `stack`, after a value or, when
`acceptComma` is false, right after the frame was opened: a comma goes on to the next element,
the frame's closing byte pops it, and the loop ends when the stack is empty. -/
def ignoreClose (stack : List UInt8) (acceptComma : Bool) (bs : List UInt8) :
    Except Error (List UInt8) :=
  match stack with
  | [] => .ok bs
  | frame :: outer =>
    match h : skipWs bs with
    | [] => .error (.malformed
        (if frame = 0x5B then .eofWhileParsingList else .eofWhileParsingObject))
    | c :: rest =>
      if c = 0x2C ∧ acceptComma then ignoreElement (frame :: outer) rest
      else if c = 0x5D ∧ frame = 0x5B ∨ c = 0x7D ∧ frame = 0x7B then ignoreClose outer true rest
      else if acceptComma then .error (.malformed
        (if frame = 0x5B then .expectedListCommaOrEnd else .expectedObjectCommaOrEnd))
      else ignoreElement (frame :: outer) (c :: rest)
termination_by 3 * bs.length + 2
decreasing_by all_goals simp_wf; have := length_lt_of_skipWs h; omega

/-- The end of `ignore_value`'s loop before the next value: in an object, its key and colon. -/
def ignoreElement (stack bs : List UInt8) : Except Error (List UInt8) :=
  if stack.head? = some 0x7B then
    match h : skipWs bs with
    | [] => .error (.malformed .eofWhileParsingObject)
    | c :: rest =>
      if c ≠ 0x22 then .error (.malformed .keyMustBeAString)
      else
        match hk : ignoreStr rest with
        | .error e => .error e
        | .ok r =>
          match hc : skipWs r with
          | [] => .error (.malformed .eofWhileParsingObject)
          | d :: r' => if d = 0x3A then ignoreValue stack r' else .error (.malformed .expectedColon)
  else ignoreValue stack bs
termination_by 3 * bs.length + 1
decreasing_by
  all_goals simp_wf
  · have := length_lt_of_skipWs h
    have := length_lt_of_ignoreStr hk
    have := length_lt_of_skipWs hc
    omega
end


theorem ignoreValue_of_skipWs {stack bs rest : List UInt8} {b : UInt8}
    (h : skipWs bs = b :: rest) : ignoreValue stack bs =
      if b = 0x5B ∨ b = 0x7B then ignoreClose (b :: stack) false rest
      else ignoreScalar b rest >>= ignoreClose stack true := by
  rw [ignoreValue]
  split
  · rename_i heq; rw [h] at heq; cases heq
  · rename_i b' rest' heq
    rw [h] at heq
    cases heq
    split_ifs
    · rfl
    · split <;> rename_i heq <;> rw [heq] <;> rfl

theorem ignoreValue_of_skipWs_nil {stack bs : List UInt8} (h : skipWs bs = []) :
    ignoreValue stack bs = .error (.malformed .eofWhileParsingValue) := by
  rw [ignoreValue]
  split
  · rfl
  · rename_i heq; rw [h] at heq; cases heq

theorem ignoreValue_skipWs (stack bs : List UInt8) :
    ignoreValue stack (skipWs bs) = ignoreValue stack bs := by
  cases h : skipWs bs with
  | nil =>
    rw [← h, ignoreValue_of_skipWs_nil h, ignoreValue_of_skipWs_nil (by rw [skipWs_skipWs, h])]
  | cons b rest =>
    rw [ignoreValue_of_skipWs h, ← h, ignoreValue_of_skipWs (by rw [skipWs_skipWs, h])]

@[simp] theorem ignoreClose_nil (acceptComma : Bool) (bs : List UInt8) :
    ignoreClose [] acceptComma bs = .ok bs := by
  rw [ignoreClose]

theorem ignoreClose_of_skipWs {frame : UInt8} {outer bs rest : List UInt8} {c : UInt8}
    {acceptComma : Bool} (h : skipWs bs = c :: rest) :
    ignoreClose (frame :: outer) acceptComma bs =
      if c = 0x2C ∧ acceptComma then ignoreElement (frame :: outer) rest
      else if c = 0x5D ∧ frame = 0x5B ∨ c = 0x7D ∧ frame = 0x7B then ignoreClose outer true rest
      else if acceptComma then .error (.malformed
        (if frame = 0x5B then .expectedListCommaOrEnd else .expectedObjectCommaOrEnd))
      else ignoreElement (frame :: outer) (c :: rest) := by
  rw [ignoreClose]
  split
  · rename_i heq; rw [h] at heq; cases heq
  · rename_i heq; rw [h] at heq; cases heq; rfl

theorem ignoreElement_of_ne {frame : UInt8} {outer : List UInt8} (hf : frame ≠ 0x7B)
    (bs : List UInt8) : ignoreElement (frame :: outer) bs = ignoreValue (frame :: outer) bs := by
  rw [ignoreElement, if_neg (by simpa using hf)]

theorem ignoreElement_key {outer bs rest r r' : List UInt8} (h : skipWs bs = 0x22 :: rest)
    (hk : ignoreStr rest = .ok r) (hc : skipWs r = 0x3A :: r') :
    ignoreElement (0x7B :: outer) bs = ignoreValue (0x7B :: outer) r' := by
  rw [ignoreElement, if_pos (by rfl)]
  split
  · rename_i heq; rw [h] at heq; cases heq
  · rename_i heq
    rw [h] at heq
    cases heq
    rw [if_neg (not_not.mpr rfl)]
    split
    · rename_i heq; rw [hk] at heq; cases heq
    · rename_i heq
      rw [hk] at heq
      cases heq
      split
      · rename_i heq; rw [hc] at heq; cases heq
      · rename_i heq; rw [hc] at heq; cases heq; rfl


/-! ## Skipping what the parser reads -/

theorem ignoreStr_backslash {rest r : List UInt8} (h : ignoreEscape rest = .ok r) :
    ignoreStr (0x5C :: rest) = ignoreStr r := by
  rw [ignoreStr, if_neg (by decide), if_pos rfl]
  split
  · rename_i heq; rw [h] at heq; cases heq; rfl
  · rename_i heq; rw [h] at heq; cases heq

theorem ignoreEscape_hex {rest r : List UInt8} {n : Nat} (h : decodeHexEscape rest = .ok (n, r)) :
    ignoreEscape (0x75 :: rest) = .ok r := by
  rw [ignoreEscape, if_neg (by decide), if_pos rfl, h]
  rfl

/-- A `\u` escape the parser reads, alone or as a surrogate pair, is skipped as one or two
escapes. -/
theorem ignoreStr_of_parseUnicodeEscape {rest out r : List UInt8}
    (h : parseUnicodeEscape rest = .ok (out, r)) :
    ignoreStr (0x5C :: 0x75 :: rest) = ignoreStr r := by
  unfold parseUnicodeEscape at h
  cases hd : decodeHexEscape rest with
  | error e => simp [hd, bind, Except.bind] at h
  | ok p =>
    obtain ⟨n, rest1⟩ := p
    rw [ignoreStr_backslash (ignoreEscape_hex hd)]
    simp only [hd, bind, Except.bind] at h
    split_ifs at h
    · cases h; rfl
    · rcases rest1 with _ | ⟨b, _ | ⟨u, rest2⟩⟩
      · cases h
      · cases h
      · dsimp only at h
        split_ifs at h with hbu
        obtain ⟨rfl, rfl⟩ : b = 0x5C ∧ u = 0x75 := by tauto
        rcases hd2 : decodeHexEscape rest2 with _ | ⟨n2, rest3⟩
        · rw [hd2] at h; cases h
        · rw [ignoreStr_backslash (ignoreEscape_hex hd2)]
          rw [hd2] at h
          dsimp only at h
          split_ifs at h
          simp only [pure, Except.pure, Except.ok.injEq, Prod.mk.injEq] at h
          rw [h.2]

theorem ignoreStr_of_parseEscape {rest out r : List UInt8} (h : parseEscape rest = .ok (out, r)) :
    ignoreStr (0x5C :: rest) = ignoreStr r := by
  match rest, h with
  | b :: rest, h =>
    rw [parseEscape] at h
    simp only [ite_eq_iff, Except.ok.injEq, Prod.mk.injEq, reduceCtorEq, and_false, or_false] at h
    -- the eight one-byte escapes, then `\u`
    rcases h with ⟨rfl, -, rfl⟩ | ⟨-, ⟨rfl, -, rfl⟩ | ⟨-, ⟨rfl, -, rfl⟩ | ⟨-, ⟨rfl, -, rfl⟩ |
      ⟨-, ⟨rfl, -, rfl⟩ | ⟨-, ⟨rfl, -, rfl⟩ | ⟨-, ⟨rfl, -, rfl⟩ | ⟨-, ⟨rfl, -, rfl⟩ |
      ⟨-, rfl, h⟩⟩⟩⟩⟩⟩⟩⟩
    iterate 8 exact ignoreStr_backslash rfl
    exact ignoreStr_of_parseUnicodeEscape h

/-- `ignore_str` skips what `parse_str` reads. -/
theorem ignoreStr_of_parseStr {scratch bs r : List UInt8} {s : Str}
    (h : parseStr scratch bs = .ok (s, r)) : ignoreStr bs = .ok r := by
  match bs, h with
  | [], h => rw [parseStr] at h; cases h
  | b :: rest, h =>
    rw [parseStr] at h
    split_ifs at h with h1 h2 h3 h4
    · cases h
      subst h1
      rw [ignoreStr, if_pos rfl]
    · subst h3
      split at h
      · rename_i out rest' hpe
        have := length_lt_of_parseEscape hpe
        rw [ignoreStr_of_parseEscape hpe]
        exact ignoreStr_of_parseStr h
      · cases h
    · rw [ignoreStr, if_neg h1, if_neg h3, if_neg h4]
      exact ignoreStr_of_parseStr h
termination_by bs.length
decreasing_by all_goals (simp only [List.length_cons] at *; omega)

theorem ignoreExponent_of_scanExponent {bs t r : List UInt8} (h : scanExponent bs = .ok (t, r)) :
    ignoreExponent bs = .ok r := by
  obtain ⟨sign, c, cs, rfl, hs, hc, -, rfl⟩ := scanExponent_eq_ok h
  rcases hs with rfl | ⟨s, rfl, hs⟩
  · simp [ignoreExponent, not_sign_of_isDigit hc, hc]
  · simp [ignoreExponent, hs, hc]

theorem ignoreDecimal_of_scanFraction {bs t r : List UInt8} (h : scanFraction bs = .ok (t, r)) :
    ignoreDecimal bs = .ok r := by
  match bs, h with
  | b :: rest, h =>
    rw [scanFraction] at h
    rw [ignoreDecimal]
    split_ifs at h ⊢ with hb
    dsimp only at h
    rcases hd : rest.dropWhile isDigit with _ | ⟨e, r'⟩ <;> simp only [hd] at h ⊢
    · cases h; rfl
    · split_ifs at h ⊢
      · obtain ⟨⟨t', r1⟩, ht, ⟨⟩⟩ := except_map_eq_ok.mp h
        exact ignoreExponent_of_scanExponent ht
      · cases h; rfl

theorem ignoreInteger_of_parseNumber {positive : Bool} {bs r : List UInt8} {v : Value}
    (h : parseNumber positive bs = .ok (v, r)) : ignoreInteger bs = .ok r := by
  match bs, h with
  | b :: rest, h =>
    rw [parseNumber] at h
    rw [ignoreInteger]
    by_cases hz : ¬ isDigit b ∨ (b = 0x30 ∧ rest.head?.any isDigit)
    · rw [if_pos hz] at h; cases h
    rw [if_neg hz] at h ⊢
    dsimp only at h
    rcases hd : rest.dropWhile isDigit with _ | ⟨c, r'⟩ <;> simp only [hd] at h ⊢
    · cases h; rfl
    · by_cases hc : c = 0x2E
      · rw [if_pos hc] at h ⊢
        obtain ⟨⟨t', r1⟩, ht, ⟨⟩⟩ := except_map_eq_ok.mp h
        exact ignoreDecimal_of_scanFraction ht
      rw [if_neg hc] at h ⊢
      by_cases he : c = 0x65 ∨ c = 0x45
      · rw [if_pos he] at h ⊢
        obtain ⟨⟨t', r1⟩, ht, ⟨⟩⟩ := except_map_eq_ok.mp h
        exact ignoreExponent_of_scanExponent ht
      rw [if_neg he] at h ⊢
      cases h; rfl


theorem ignoreValue_scalar {stack bs rest r : List UInt8} {b : UInt8} (h : skipWs bs = b :: rest)
    (hb : ¬ (b = 0x5B ∨ b = 0x7B)) (hs : ignoreScalar b rest = .ok r) :
    ignoreValue stack bs = ignoreClose stack true r := by
  rw [ignoreValue_of_skipWs h, if_neg hb, hs]
  rfl

/-- `ignore_value` skips exactly what the parser reads: a value, and the rest of an array or an
object, whose frame is then on the stack. -/
theorem ignore_of_parse : ∀ fuel,
    (∀ {d bs v r}, parseValue fuel d bs = .ok (v, r) → ∀ stack,
      ignoreValue stack bs = ignoreClose stack true r) ∧
    (∀ {d first acc bs v r}, parseSeq fuel d first acc bs = .ok (v, r) → ∀ stack,
      ignoreClose (0x5B :: stack) (!first) bs = ignoreClose stack true r) ∧
    (∀ {d first acc bs v r}, parseMap fuel d first acc bs = .ok (v, r) → ∀ stack,
      ignoreClose (0x7B :: stack) (!first) bs = ignoreClose stack true r)
  | 0 => ⟨nofun, nofun, nofun⟩
  | fuel + 1 => by
    obtain ⟨ihv, ihs, ihm⟩ := ignore_of_parse fuel
    refine ⟨fun {d bs v r} h stack => ?_, fun {d first acc bs v r} h stack => ?_,
      fun {d first acc bs v r} h stack => ?_⟩
    · obtain ⟨b, rest, hb, h⟩ := parseValue_eq_ok h
      -- one case per branch of the dispatch on the first byte; `ignoreScalar` takes the same one
      rcases h with ⟨rfl, -, hp⟩ | ⟨rfl, -, hp⟩ | ⟨rfl, -, hp⟩ | ⟨rfl, h⟩ | ⟨hd, h⟩ |
        ⟨rfl, s, -, hp⟩ | ⟨rfl, -, h⟩ | ⟨rfl, -, h⟩
      · exact ignoreValue_scalar hb (by decide) hp
      · exact ignoreValue_scalar hb (by decide) hp
      · exact ignoreValue_scalar hb (by decide) hp
      · exact ignoreValue_scalar hb (by decide) (ignoreInteger_of_parseNumber h)
      · refine ignoreValue_scalar hb (by rintro (rfl | rfl) <;> exact absurd hd (by decide)) ?_
        rw [ignoreScalar_of_isDigit hd]
        exact ignoreInteger_of_parseNumber h
      · exact ignoreValue_scalar hb (by decide) (ignoreStr_of_parseStr hp)
      · rw [ignoreValue_of_skipWs hb, if_pos (.inl rfl)]
        exact ihs h stack
      · rw [ignoreValue_of_skipWs hb, if_pos (.inr rfl)]
        exact ihm h stack
    · rcases parseSeq_eq_ok h with ⟨rest, hb, rfl, rfl⟩ | ⟨c, r', x, r1, hstart, hc, hx, h⟩
      · rw [ignoreClose_of_skipWs hb, if_neg (fun h => absurd h.1 (by decide)),
          if_pos (.inl ⟨rfl, rfl⟩)]
      rw [← ihs h stack, Bool.not_false, ← ihv hx]
      rcases hstart with ⟨rfl, hb⟩ | ⟨rfl, rest, hb, hr⟩
      · rw [ignoreClose_of_skipWs hb]
        simp [hc, ignoreElement_of_ne (show (0x5B : UInt8) ≠ 0x7B by decide)]
      · rw [ignoreClose_of_skipWs hb, if_pos ⟨rfl, rfl⟩, ignoreElement_of_ne (by decide), ← hr,
          ignoreValue_skipWs]
    · rcases parseMap_eq_ok h with ⟨rest, hb, rfl, rfl⟩ |
        ⟨r', k, r1, r2, x, r3, hstart, hk, hd, hx, h⟩
      · rw [ignoreClose_of_skipWs hb, if_neg (fun h => absurd h.1 (by decide)),
          if_pos (.inr ⟨rfl, rfl⟩)]
      rw [← ihm h stack, Bool.not_false, ← ihv hx]
      have hkey : ∀ {bs'}, skipWs bs' = 0x22 :: r' →
          ignoreElement (0x7B :: stack) bs' = ignoreValue (0x7B :: stack) r2 :=
        fun h' => ignoreElement_key h' (ignoreStr_of_parseStr hk) hd
      rcases hstart with ⟨rfl, hb⟩ | ⟨rfl, rest, hb, hr⟩
      · rw [ignoreClose_of_skipWs hb, if_neg (by decide), if_neg (by decide), if_neg (by decide)]
        exact hkey (skipWs_cons (by decide) r')
      · rw [ignoreClose_of_skipWs hb, if_pos ⟨rfl, rfl⟩]
        exact hkey hr


/-! ## The struct parser -/

/-- The derived `visit_map` of a struct whose fields `isField` names, as far as the text goes:
`MapAccess` reads each key, a member whose key names a field is read into the tree at the
remaining depth `depth`, and any other member's value is skipped by `ignore_value`. -/
def parseFields (isField : Str → Bool) : Nat → Nat → Bool → List (Str × Value) → List UInt8 →
    Except Error (Value × List UInt8)
  | 0, _, _, _, _ => .error (.malformed .recursionLimitExceeded)
  | fuel + 1, depth, first, acc, bs =>
    match skipWs bs with
    | [] => .error (.malformed .eofWhileParsingObject)
    | b :: rest =>
      if b = 0x7D then .ok (.object acc, rest)
      else if ¬ first ∧ b ≠ 0x2C then .error (.malformed .expectedObjectCommaOrEnd)
      else
        match if first then b :: rest else skipWs rest with
        | [] => .error (.malformed .eofWhileParsingValue)
        | c :: r =>
          if c = 0x22 then do
            let (k, r) ← parseStr [] r
            match skipWs r with
            | [] => .error (.malformed .eofWhileParsingObject)
            | d :: r =>
              if d ≠ 0x3A then .error (.malformed .expectedColon)
              else if isField k then do
                let (v, r) ← parseValue fuel depth r
                parseFields isField fuel depth false (acc ++ [(k, v)]) r
              else do
                let r ← ignoreValue [] r
                parseFields isField fuel depth false acc r
          else if c = 0x7D then .error (.malformed .trailingComma)
          else .error (.malformed .keyMustBeAString)

/-- `deserialize_struct` of a struct with a derived `Deserialize` whose fields `isField`
names: a map is read with `parseFields`, anything else as a `Value`, for `visit_seq` or a type
error. -/
def deserializeStruct (isField : Str → Bool) (fuel : Nat) (bs : List UInt8) :
    Except Error (Value × List UInt8) :=
  match skipWs bs with
  | b :: rest =>
    if b = 0x7B then parseFields isField fuel 127 true [] rest else parseValue (fuel + 1) 128 bs
  | [] => parseValue (fuel + 1) 128 bs

/-- `from_slice` into such a struct: `deserialize_struct`, then only whitespace may follow. -/
def fromSliceStruct (isField : Str → Bool) (bs : List UInt8) : Except Error Value := do
  let (v, rest) ← deserializeStruct isField bs.length bs
  if skipWs rest = [] then pure v else throw (.malformed .trailingCharacters)

/-- What `parseFields` keeps of a map: the members whose keys name fields. -/
def Value.onlyFields (isField : Str → Bool) : Value → Value
  | .object ms => .object (ms.filter fun m => isField m.1)
  | v => v

section parseFields

variable {isField : Str → Bool}

theorem parseFields_close {fuel d : Nat} {first : Bool} {acc : List (Str × Value)}
    {bs rest : List UInt8} (hb : skipWs bs = 0x7D :: rest) :
    parseFields isField (fuel + 1) d first acc bs = .ok (.object acc, rest) := by
  rw [parseFields, hb]
  rfl

theorem parseFields_member {fuel d : Nat} {first : Bool} {acc : List (Str × Value)}
    {bs r' r1 r2 : List UInt8} {k : Str}
    (hstart : first = true ∧ skipWs bs = 0x22 :: r' ∨
      first = false ∧ ∃ rest, skipWs bs = 0x2C :: rest ∧ skipWs rest = 0x22 :: r')
    (hk : parseStr [] r' = .ok (k, r1)) (hd : skipWs r1 = 0x3A :: r2) :
    parseFields isField (fuel + 1) d first acc bs =
      if isField k then parseValue fuel d r2 >>= fun (x, r) =>
        parseFields isField fuel d false (acc ++ [(k, x)]) r
      else ignoreValue [] r2 >>= parseFields isField fuel d false acc := by
  rcases hstart with ⟨rfl, hb⟩ | ⟨rfl, rest, hb, hr⟩
  · simp [parseFields, hb, hk, hd, bind, Except.bind]
  · simp [parseFields, hb, hr, hk, hd, bind, Except.bind]


/-- The struct parser reads a map as the parser does, less its members naming no field: it
reads the others as the parser does, and skips these where the parser reads them. -/
theorem parseFields_of_parseMap : ∀ {fuel d first acc bs v r},
    parseMap fuel d first acc bs = .ok (v, r) →
      parseFields isField fuel d first (acc.filter fun m => isField m.1) bs =
        .ok (v.onlyFields isField, r)
  | 0, _, _, _, _, _, _, h => nomatch h
  | fuel + 1, d, first, acc, bs, v, r, h => by
    rcases parseMap_eq_ok h with ⟨rest, hb, rfl, rfl⟩ |
      ⟨r', k, r1, r2, x, r3, hstart, hk, hd, hx, h⟩
    · exact parseFields_close hb
    have ih := parseFields_of_parseMap h
    rw [parseFields_member hstart hk hd]
    by_cases hf : isField k
    · rw [if_pos hf, hx]
      simpa [hf, List.filter_append] using ih
    · rw [if_neg hf, (ignore_of_parse fuel).1 hx [], ignoreClose_nil]
      simpa [hf, List.filter_append] using ih

theorem integer_ne_object (positive : Bool) (ds : List UInt8) (ms : List (Str × Value)) :
    integer positive ds ≠ .object ms := by
  unfold integer
  split_ifs <;> nofun

/-- Only a text that starts with `{` is read as a map. -/
theorem skipWs_of_parseValue_object {fuel d : Nat} {bs r : List UInt8} {ms : List (Str × Value)}
    (h : parseValue fuel d bs = .ok (.object ms, r)) : ∃ rest, skipWs bs = 0x7B :: rest := by
  match fuel, h with
  | fuel + 1, h =>
    obtain ⟨b, rest, hb, h⟩ := parseValue_eq_ok h
    have number : ∀ {positive cs}, parseNumber positive cs ≠ .ok (.object ms, r) := fun hn => by
      obtain ⟨_, _, -, -, -, hv | hv⟩ := parseNumber_sound hn
      exacts [integer_ne_object _ _ _ hv.symm, nomatch hv]
    refine ⟨rest, hb.trans ?_⟩
    rcases h with ⟨-, ⟨⟩, -⟩ | ⟨-, ⟨⟩, -⟩ | ⟨-, ⟨⟩, -⟩ | ⟨-, h⟩ | ⟨-, h⟩ | ⟨-, _, ⟨⟩, -⟩ |
      ⟨-, -, h⟩ | ⟨rfl, -⟩
    · exact absurd h number
    · exact absurd h number
    · obtain ⟨_, ⟨⟩, -⟩ := (accepted_of_parse fuel).2.1 h (by simp)
    · rfl

theorem parseValue_skipWs (fuel d : Nat) (bs : List UInt8) :
    parseValue fuel d (skipWs bs) = parseValue fuel d bs := by
  conv_rhs => rw [← List.takeWhile_append_dropWhile isWs bs]
  exact (parseValue_ws_append fuel d (fun _ => List.mem_takeWhile_imp) _).symm

theorem onlyFields_of_parseValue {fuel d : Nat} {bs r : List UInt8} {v : Value}
    (h : parseValue fuel d bs = .ok (v, r)) (hb : ∀ rest, skipWs bs ≠ 0x7B :: rest) :
    v.onlyFields isField = v := by
  cases v
  case object ms => exact absurd (skipWs_of_parseValue_object h) fun ⟨rest, h'⟩ => hb rest h'
  all_goals rfl

/-- `deserialize_struct` reads every text the parser reads, as that value less the members of
a top-level map that name no field. -/
theorem deserializeStruct_of_parseValue {bs rest : List UInt8} {v : Value}
    (hv : parseValue (bs.length + 1) 128 bs = .ok (v, rest)) :
    deserializeStruct isField bs.length bs = .ok (v.onlyFields isField, rest) := by
  rw [deserializeStruct]
  split
  · rename_i b rest0 hb
    split_ifs with hb'
    · subst hb'
      rw [← parseValue_skipWs, hb, (parseValue_open (by norm_num) rest0).2] at hv
      exact parseFields_of_parseMap hv
    · rw [hv, onlyFields_of_parseValue hv fun _ h => hb' (List.cons.inj (hb.symm.trans h)).1]
  · rename_i hb
    rw [hv, onlyFields_of_parseValue hv fun _ h => nomatch hb.symm.trans h]

/-- The struct parser reads every text `from_slice` reads into a `Value`, as that value less
the members of a top-level map that name no field. -/
theorem fromSliceStruct_of_fromSlice {bs : List UInt8} {v : Value} (h : fromSlice bs = .ok v) :
    fromSliceStruct isField bs = .ok (v.onlyFields isField) := by
  obtain ⟨⟨v', rest⟩, hv, h⟩ := except_bind_eq_ok.mp h
  dsimp only at h
  split_ifs at h with hr
  cases h
  simp [fromSliceStruct, deserializeStruct_of_parseValue hv, hr, bind, Except.bind, pure,
    Except.pure]

end parseFields

end IoOauth.Json
