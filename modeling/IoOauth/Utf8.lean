import Mathlib

/-! UTF-8 as Rust's `str` holds it, and `String::from_utf8_lossy`, which walks the bytes as
`core::str::lossy::Utf8Chunks` does and puts one U+FFFD for each maximal invalid subpart.
`Str` is a byte string with its well-formedness proof, so no ill-formed `&str` can be built. -/
namespace IoOauth

/-! Bytes compare as their values; these turn byte facts into goals for `omega`. -/

theorem byte_eq_iff {a b : UInt8} : a = b ↔ a.toNat = b.toNat := ⟨congrArg _, UInt8.toNat.inj⟩

theorem byte_le_iff {a b : UInt8} : a ≤ b ↔ a.toNat ≤ b.toNat := Iff.rfl

theorem byte_lt_iff {a b : UInt8} : a < b ↔ a.toNat < b.toNat := Iff.rfl

@[simp] theorem toNat_toUInt8 (n : Nat) : n.toUInt8.toNat = n % 256 := BitVec.toNat_ofNat n 8

end IoOauth

namespace IoOauth.Utf8

/-- A continuation byte, `%x80-BF` (`Utf8Chunks` tests `(byte as i8) < -64`). -/
def isCont (b : UInt8) : Bool := 0x80 ≤ b && b ≤ 0xBF

/-- `utf8_char_width`: the length a leading byte announces, `0` for one that announces none. -/
def utf8CharWidth (b : UInt8) : Nat :=
  if b < 0x80 then 1 else if b < 0xC2 then 0 else if b < 0xE0 then 2
  else if b < 0xF0 then 3 else if b < 0xF5 then 4 else 0

/-- The byte after a three-byte lead, as `Utf8Chunks` matches the pair. -/
def secondOfThree (b c : UInt8) : Bool :=
  if b = 0xE0 then 0xA0 ≤ c && c ≤ 0xBF
  else if b = 0xED then 0x80 ≤ c && c ≤ 0x9F
  else isCont c

/-- The byte after a four-byte lead. -/
def secondOfFour (b c : UInt8) : Bool :=
  if b = 0xF0 then 0x90 ≤ c && c ≤ 0xBF
  else if b = 0xF4 then 0x80 ≤ c && c ≤ 0x8F
  else isCont c

/-- What `Utf8Chunks::next` finds after a leading byte: a well-formed character that takes
`k` more bytes, or an invalid maximal subpart that takes `k` more. -/
inductive Head where
  | char (k : Nat)
  | invalid (k : Nat)
  deriving DecidableEq, Repr

/-- One character of `Utf8Chunks::next`. `safe_get` reads `0` past the end, which no check
accepts, so a truncated character is invalid. -/
def head (b : UInt8) (rest : List UInt8) : Head :=
  match utf8CharWidth b with
  | 1 => .char 0
  | 2 => if isCont (rest.getD 0 0) then .char 1 else .invalid 0
  | 3 =>
    if !secondOfThree b (rest.getD 0 0) then .invalid 0
    else if !isCont (rest.getD 1 0) then .invalid 1 else .char 2
  | 4 =>
    if !secondOfFour b (rest.getD 0 0) then .invalid 0
    else if !isCont (rest.getD 1 0) then .invalid 1
    else if !isCont (rest.getD 2 0) then .invalid 2 else .char 3
  | _ => .invalid 0

/-- U+FFFD, `REPLACEMENT_CHARACTER`, in UTF-8. -/
def replacementCharacter : List UInt8 := [0xEF, 0xBF, 0xBD]

/-- `String::from_utf8_lossy`: each maximal invalid subpart becomes one U+FFFD. -/
def fromUtf8Lossy : List UInt8 → List UInt8
  | [] => []
  | b :: rest =>
    match head b rest with
    | .char k => b :: rest.take k ++ fromUtf8Lossy (rest.drop k)
    | .invalid k => replacementCharacter ++ fromUtf8Lossy (rest.drop k)
termination_by bs => bs.length
decreasing_by all_goals simp only [List.length_drop, List.length_cons]; omega

/-- Well-formed UTF-8: `Utf8Chunks` finds a character at every step. -/
inductive Valid : List UInt8 → Prop
  | nil : Valid []
  | cons {b : UInt8} {rest : List UInt8} {k : Nat} :
      head b rest = .char k → Valid (rest.drop k) → Valid (b :: rest)

theorem fromUtf8Lossy_of_valid {bs : List UInt8} (h : Valid bs) : fromUtf8Lossy bs = bs := by
  induction h with
  | nil => simp [fromUtf8Lossy]
  | cons hk _ ih => rw [fromUtf8Lossy, hk]; simp [ih]

@[simp] theorem isCont_zero : isCont 0 = false := rfl

@[simp] theorem secondOfThree_zero (b : UInt8) : secondOfThree b 0 = false := by
  unfold secondOfThree; split_ifs <;> rfl

@[simp] theorem secondOfFour_zero (b : UInt8) : secondOfFour b 0 = false := by
  unfold secondOfFour; split_ifs <;> rfl

/-- A character's bytes are there, a truncated one being invalid, and its decoding reads only
them. -/
theorem head_char {b : UInt8} {rest : List UInt8} {k : Nat} (h : head b rest = .char k) :
    k ≤ rest.length ∧ ∀ ys, head b (rest.take k ++ ys) = .char k := by
  unfold head at h ⊢
  split at h
  · cases h; simp [*]
  · rcases rest with _ | ⟨c, tail⟩ <;> split_ifs at h <;> cases h <;> simp_all
  · rcases rest with _ | ⟨c, _ | ⟨d, tail⟩⟩ <;> split_ifs at h <;> cases h <;> simp_all
  · rcases rest with _ | ⟨c, _ | ⟨d, _ | ⟨e, tail⟩⟩⟩ <;> split_ifs at h <;> cases h <;> simp_all
  · cases h

theorem valid_replacementCharacter_append {ys : List UInt8} (h : Valid ys) :
    Valid (replacementCharacter ++ ys) :=
  .cons (k := 2) (by rfl) (by simpa using h)

theorem valid_fromUtf8Lossy (bs : List UInt8) : Valid (fromUtf8Lossy bs) := by
  induction bs using fromUtf8Lossy.induct with
  | case1 => simp only [fromUtf8Lossy]; exact .nil
  | case2 b rest k hk ih =>
    simp only [fromUtf8Lossy, hk, List.cons_append]
    have hlen : (rest.take k).length = k := List.length_take_of_le (head_char hk).1
    exact .cons ((head_char hk).2 _) (by simpa [List.drop_append_eq_append_drop, hlen] using ih)
  | case3 b rest k hk ih =>
    simp only [fromUtf8Lossy, hk]
    exact valid_replacementCharacter_append ih

theorem valid_of_ascii {bs : List UInt8} (h : ∀ b ∈ bs, b < 0x80) : Valid bs := by
  induction bs with
  | nil => exact .nil
  | cons b rest ih =>
    exact .cons (k := 0) (by simp [head, utf8CharWidth, h b (by simp)])
      (ih fun x hx => h x (by simp [hx]))

theorem head_of_lt {b : UInt8} (h : b < 0x80) (rest : List UInt8) : head b rest = .char 0 := by
  simp [head, utf8CharWidth, h]

/-- When the lossy reading is all ASCII, there was nothing to replace. -/
theorem fromUtf8Lossy_eq_self_of_ascii {bs : List UInt8}
    (h : ∀ b ∈ fromUtf8Lossy bs, b < 0x80) : fromUtf8Lossy bs = bs := by
  induction bs using fromUtf8Lossy.induct with
  | case1 => simp only [fromUtf8Lossy]
  | case2 b rest k hk ih =>
    simp only [fromUtf8Lossy, hk, List.cons_append] at h ⊢
    have hb := h b (List.mem_cons_self _ _)
    rw [head_of_lt hb] at hk
    cases hk
    simp only [List.take_zero, List.drop_zero, List.nil_append] at h ih ⊢
    rw [ih fun x hx => h x (List.mem_cons_of_mem _ hx)]
  | case3 b rest k hk ih =>
    simp only [fromUtf8Lossy, hk] at h
    exact absurd (h 0xEF (by simp [replacementCharacter])) (by decide)

theorem Valid.append {xs ys : List UInt8} (hx : Valid xs) (hy : Valid ys) : Valid (xs ++ ys) := by
  induction hx with
  | nil => exact hy
  | @cons b rest k hk _ ih =>
    obtain ⟨hle, htake⟩ := head_char hk
    have hrest : rest ++ ys = rest.take k ++ (rest.drop k ++ ys) := by
      rw [← List.append_assoc, List.take_append_drop]
    show Valid (b :: (rest ++ ys))
    refine .cons (k := k) ?_ ?_
    · rw [hrest]; exact htake _
    · rwa [List.drop_append_of_le_length hle]

end IoOauth.Utf8

namespace IoOauth

/-- Rust's `str`: well-formed UTF-8 bytes. -/
@[ext] structure Str where
  bytes : List UInt8
  valid : Utf8.Valid bytes

instance : DecidableEq Str := fun a b => decidable_of_iff (a.bytes = b.bytes) Str.ext_iff.symm

/-- `String::from_utf8_lossy`. -/
def Str.fromUtf8Lossy (bs : List UInt8) : Str := ⟨Utf8.fromUtf8Lossy bs, Utf8.valid_fromUtf8Lossy bs⟩

@[simp] theorem Str.fromUtf8Lossy_bytes (s : Str) : Str.fromUtf8Lossy s.bytes = s :=
  Str.ext (Utf8.fromUtf8Lossy_of_valid s.valid)

theorem Str.fromUtf8Lossy_of_ascii {bs : List UInt8} (h : ∀ b ∈ bs, b < 0x80) :
    (Str.fromUtf8Lossy bs).bytes = bs :=
  Utf8.fromUtf8Lossy_of_valid (Utf8.valid_of_ascii h)

/-- The UTF-8 bytes of a Lean string. -/
def utf8 (s : String) : List UInt8 := s.data.flatMap String.utf8EncodeChar

/-- The `&str` of a string literal. The literals of the source are ASCII, valid as they are;
any other is read by `from_utf8_lossy`, which leaves well-formed UTF-8 alone. -/
def Str.lit (s : String) : Str :=
  if h : ∀ b ∈ utf8 s, b < 0x80 then ⟨utf8 s, Utf8.valid_of_ascii h⟩ else Str.fromUtf8Lossy (utf8 s)

/-- A byte string reads as an ASCII literal exactly when it is that literal's bytes. -/
theorem Str.fromUtf8Lossy_eq_lit_iff (bs : List UInt8) {s : String} (h : ∀ b ∈ utf8 s, b < 0x80) :
    Str.fromUtf8Lossy bs = Str.lit s ↔ bs = utf8 s := by
  rw [Str.lit, dif_pos h, Str.ext_iff]
  constructor
  · intro he
    change Utf8.fromUtf8Lossy bs = utf8 s at he
    rw [← he]
    exact (Utf8.fromUtf8Lossy_eq_self_of_ascii (he ▸ h)).symm
  · rintro rfl
    exact Str.fromUtf8Lossy_of_ascii h

theorem Str.fromUtf8Lossy_utf8 (s : String) (h : ∀ b ∈ utf8 s, b < 0x80) :
    Str.fromUtf8Lossy (utf8 s) = Str.lit s := by
  rw [Str.lit, dif_pos h]
  exact Str.ext (Str.fromUtf8Lossy_of_ascii h)

end IoOauth
