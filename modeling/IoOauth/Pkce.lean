import IoOauth.Base64
import IoOauth.Rand

/-! `pkce.rs`: the code verifier, its three constructors and the challenge derived from it.
Every constructor draws or checks its bytes against `UNRESERVED`, so `PkceCodeVerifier` carries
that as a field; the length is another matter (`fromStr` checks none). SHA-256 is the `sha2`
crate's, a parameter here: only its 32-byte output is used. -/
namespace IoOauth

open Rand

/-- `UNRESERVED`: `unreserved = ALPHA / DIGIT / "-" / "." / "_" / "~"`. -/
def unreserved : List UInt8 :=
  [0x41, 0x42, 0x43, 0x44, 0x45, 0x46, 0x47, 0x48, 0x49, 0x4A, 0x4B, 0x4C, 0x4D, 0x4E, 0x4F, 0x50,
    0x51, 0x52, 0x53, 0x54, 0x55, 0x56, 0x57, 0x58, 0x59, 0x5A, 0x61, 0x62, 0x63, 0x64, 0x65, 0x66,
    0x67, 0x68, 0x69, 0x6A, 0x6B, 0x6C, 0x6D, 0x6E, 0x6F, 0x70, 0x71, 0x72, 0x73, 0x74, 0x75, 0x76,
    0x77, 0x78, 0x79, 0x7A, 0x30, 0x31, 0x32, 0x33, 0x34, 0x35, 0x36, 0x37, 0x38, 0x39, 0x2D, 0x2E,
    0x5F, 0x7E]

theorem length_unreserved : unreserved.length = 66 := rfl

theorem lt_of_mem_unreserved : ∀ b ∈ unreserved, b < 0x80 := by decide

theorem nodup_unreserved : unreserved.Nodup := List.Nodup.of_map UInt8.toNat (by decide)

/-- `PkceCodeVerifier`, a secret byte string whose bytes are all in `UNRESERVED`. -/
structure PkceCodeVerifier where
  bytes : List UInt8
  mem_unreserved : ∀ b ∈ bytes, b ∈ unreserved

namespace PkceCodeVerifier

/-- `expose`. -/
def expose (v : PkceCodeVerifier) : List UInt8 := v.bytes

/-- `new`: `size` clamped to `43..=128`, then that many symbols drawn from `UNRESERVED`. -/
def new (size : UInt8) (rng : Rng) : PkceCodeVerifier :=
  let size := min (max size.toNat 43) 128
  ⟨chooseMultiple rng unreserved size, fun _ h => mem_of_mem_chooseMultiple h⟩

theorem chooseMultipleArray_unreserved (rng : Rng) :
    ∃ l, chooseMultipleArray rng unreserved 43 = some l ∧ l.length = 43 ∧
      ∀ b ∈ l, b ∈ unreserved :=
  chooseMultipleArray_spec rng (by rw [length_unreserved]; omega)

/-- `default`: 43 symbols drawn by `choose_multiple_array`, whose `unwrap` cannot fail. -/
def default (rng : Rng) : PkceCodeVerifier :=
  have h := chooseMultipleArray_unreserved rng
  ⟨(chooseMultipleArray rng unreserved 43).get (by obtain ⟨l, hl, -⟩ := h; simp [hl]),
    by obtain ⟨l, hl, -, hmem⟩ := h; simpa [hl] using hmem⟩

/-- The loop of `from_str`: the first byte outside `UNRESERVED` is the error. -/
def checkBytes : List UInt8 → Except UInt8 Unit
  | [] => .ok ()
  | b :: bs => if b ∈ unreserved then checkBytes bs else .error b

theorem mem_unreserved_of_checkBytes {bs : List UInt8} (h : checkBytes bs = .ok ()) :
    ∀ b ∈ bs, b ∈ unreserved := by
  induction bs with
  | nil => simp
  | cons b bs ih =>
    unfold checkBytes at h
    split_ifs at h with hb
    · exact List.forall_mem_cons.mpr ⟨hb, ih h⟩

/-- `from_str`. -/
def fromStr (s : Str) : Except UInt8 PkceCodeVerifier :=
  match h : checkBytes s.bytes with
  | .error b => .error b
  | .ok () => .ok ⟨s.bytes, mem_unreserved_of_checkBytes h⟩

theorem ascii (v : PkceCodeVerifier) : ∀ b ∈ v.expose, b < 0x80 :=
  fun b hb => lt_of_mem_unreserved b (v.mem_unreserved b hb)

/-! ### Lengths -/

/-- `new` gives the clamped size, cut to the 66 symbols there are to choose from. -/
theorem length_new (size : UInt8) (rng : Rng) :
    (new size rng).expose.length = min (min (max size.toNat 43) 128) 66 :=
  length_chooseMultiple rng unreserved _

theorem new_128_expose_length (rng : Rng) : (new 128 rng).expose.length = 66 := by
  rw [length_new]; rfl

/-- Both ways of drawing a verifier, `new` and `default`, draw without replacement: no symbol
occurs twice in a verifier they make. -/
theorem nodup_new_and_default (size : UInt8) (rng : Rng) :
    (new size rng).expose.Nodup ∧ (default rng).expose.Nodup := by
  obtain ⟨l, hl, -, -⟩ := chooseMultipleArray_unreserved rng
  refine ⟨nodup_chooseMultiple rng nodup_unreserved _, ?_⟩
  simpa [default, expose, hl] using nodup_chooseMultipleArray rng nodup_unreserved hl

/-! ### `from_str` -/

theorem checkBytes_eq_ok {bs : List UInt8} : checkBytes bs = .ok () ↔ ∀ b ∈ bs, b ∈ unreserved := by
  induction bs with
  | nil => simp [checkBytes]
  | cons b bs ih => by_cases hb : b ∈ unreserved <;> simp [checkBytes, hb, ih]

theorem checkBytes_eq_error {bs : List UInt8} {b : UInt8} : checkBytes bs = .error b ↔
    ∃ pre post, bs = pre ++ b :: post ∧ (∀ x ∈ pre, x ∈ unreserved) ∧ b ∉ unreserved := by
  induction bs with
  | nil => simp [checkBytes]
  | cons c bs ih =>
    by_cases hc : c ∈ unreserved
    · simp only [checkBytes, if_pos hc, ih]
      constructor
      · rintro ⟨pre, post, rfl, hpre, hb⟩
        exact ⟨c :: pre, post, rfl, List.forall_mem_cons.mpr ⟨hc, hpre⟩, hb⟩
      · rintro ⟨_ | ⟨x, pre⟩, post, heq, hpre, hb⟩
        · cases heq; exact absurd hc hb
        · cases heq; exact ⟨pre, post, rfl, fun y hy => hpre y (by simp [hy]), hb⟩
    · simp only [checkBytes, if_neg hc, Except.error.injEq]
      constructor
      · rintro rfl; exact ⟨[], bs, rfl, by simp, hc⟩
      · rintro ⟨_ | ⟨x, pre⟩, post, heq, hpre, hb⟩
        · cases heq; rfl
        · cases heq; exact absurd (hpre c (by simp)) hc

theorem fromStr_eq_error {s : Str} {b : UInt8} : fromStr s = .error b ↔ checkBytes s.bytes = .error b := by
  unfold fromStr; split <;> simp_all

theorem fromStr_eq_ok {s : Str} {v : PkceCodeVerifier} :
    fromStr s = .ok v ↔ checkBytes s.bytes = .ok () ∧ v.expose = s.bytes := by
  unfold fromStr; split
  · simp_all
  · rename_i h; simp only [h, true_and, Except.ok.injEq]
    constructor
    · rintro rfl; rfl
    · intro he; cases v; cases he; rfl

/-- `from_str` fails on the first byte outside `UNRESERVED`, and otherwise keeps the string's
bytes as they are. -/
theorem fromStr_spec (s : Str) :
    (∀ b, fromStr s = .error b ↔
      ∃ pre post, s.bytes = pre ++ b :: post ∧ (∀ x ∈ pre, x ∈ unreserved) ∧ b ∉ unreserved) ∧
    ((∃ v, fromStr s = .ok v) ↔ ∀ x ∈ s.bytes, x ∈ unreserved) ∧
    ∀ v, fromStr s = .ok v → v.expose = s.bytes :=
  ⟨fun _ => fromStr_eq_error.trans checkBytes_eq_error,
    ⟨fun ⟨_, h⟩ => checkBytes_eq_ok.mp (fromStr_eq_ok.mp h).1,
      fun h => ⟨⟨s.bytes, h⟩, fromStr_eq_ok.mpr ⟨checkBytes_eq_ok.mpr h, rfl⟩⟩⟩,
    fun _ h => (fromStr_eq_ok.mp h).2⟩

/-- Every verifier is one `from_str` gives, whatever its length. -/
theorem exists_fromStr (v : PkceCodeVerifier) : ∃ s, fromStr s = .ok v :=
  ⟨⟨v.bytes, Utf8.valid_of_ascii v.ascii⟩,
    fromStr_eq_ok.mpr ⟨checkBytes_eq_ok.mpr v.mem_unreserved, rfl⟩⟩

theorem fromStr_empty : ∃ v, fromStr (Str.lit "") = .ok v ∧ v.expose = [] := by
  have h : (Str.lit "").bytes = [] := by simp [Str.lit, Str.fromUtf8Lossy, utf8, Utf8.fromUtf8Lossy]
  exact ⟨⟨[], by simp⟩, fromStr_eq_ok.mpr ⟨by rw [h]; rfl, h.symm⟩, rfl⟩

end PkceCodeVerifier

/-- A SHA-256 digest, `GenericArray<u8, U32>`. -/
structure Sha256Digest where
  bytes : List UInt8
  length_bytes : bytes.length = 32

/-- `PkceCodeChallengeMethod`; `Sha256` is the default. -/
inductive PkceCodeChallengeMethod where
  | plain
  | sha256
  deriving DecidableEq, Repr

instance : Inhabited PkceCodeChallengeMethod := ⟨.sha256⟩

/-- `as_str`. -/
def PkceCodeChallengeMethod.asStr : PkceCodeChallengeMethod → String
  | .plain => "plain"
  | .sha256 => "S256"

theorem PkceCodeChallengeMethod.fromUtf8Lossy_asStr (m : PkceCodeChallengeMethod) :
    Str.fromUtf8Lossy (utf8 m.asStr) = Str.lit m.asStr := by
  cases m <;> exact Str.fromUtf8Lossy_utf8 _ (by decide)

/-- `PkceCodeChallenge`. -/
structure PkceCodeChallenge where
  method : PkceCodeChallengeMethod
  verifier : PkceCodeVerifier

section Encode

variable (sha256 : List UInt8 → Sha256Digest)

theorem ascii_base64 (d : Sha256Digest) : ∀ c ∈ Base64.encode d.bytes, c < 0x80 :=
  fun _ hc => Base64.lt_of_isUrlSafe (Base64.isUrlSafe_of_mem_encode hc)

/-- `encode`: the verifier read as UTF-8 for `plain`, base64url without padding of its SHA-256
digest for `S256`. -/
def PkceCodeChallenge.encode (c : PkceCodeChallenge) : Str :=
  match c.method with
  | .plain => Str.fromUtf8Lossy c.verifier.expose
  | .sha256 =>
    ⟨Base64.encode (sha256 c.verifier.expose).bytes, Utf8.valid_of_ascii (ascii_base64 _)⟩

theorem encode_plain (v : PkceCodeVerifier) :
    (PkceCodeChallenge.encode sha256 ⟨.plain, v⟩).bytes = v.expose :=
  Str.fromUtf8Lossy_of_ascii v.ascii

/-- The `S256` challenge is 43 symbols of the URL-safe alphabet that decode to the digest. -/
theorem encode_sha256 (v : PkceCodeVerifier) :
    let e := PkceCodeChallenge.encode sha256 ⟨.sha256, v⟩
    e.bytes.length = 43 ∧ (∀ c ∈ e.bytes, Base64.isUrlSafe c) ∧
      Base64.decode e.bytes = some (sha256 v.expose).bytes := by
  refine ⟨?_, fun _ hc => Base64.isUrlSafe_of_mem_encode hc, Base64.decode_encode _⟩
  simp [PkceCodeChallenge.encode, Base64.length_encode, (sha256 v.expose).length_bytes]

end Encode

end IoOauth
