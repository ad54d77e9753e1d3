import IoOauth.AuthorizationRequest
import IoOauth.AccessTokenRequest

/-! PKCE across the two requests: the challenge the authorization query carries and the verifier
the token body carries, as the servers decode them, agree: the challenge is the verifier
transformed by the method the query names, for either method and every verifier the API can
make. -/
namespace IoOauth

open FormUrlencoded

variable (sha256 : List UInt8 → Sha256Digest)

theorem lookup_authorization_pairs (p : AuthorizationRequestParams) (c : PkceCodeChallenge) :
    ({ p with pkceCodeChallenge := some c }.pairs sha256).lookup (utf8 "code_challenge") =
        some (c.encode sha256).bytes ∧
      ({ p with pkceCodeChallenge := some c }.pairs sha256).lookup
        (utf8 "code_challenge_method") = some (utf8 c.method.asStr) := by
  rcases p with ⟨i, r, sc, st, pk⟩
  unfold AuthorizationRequestParams.pairs
  cases st <;> cases r <;> cases sc.isEmpty <;> exact ⟨rfl, rfl⟩

theorem lookup_access_token_pairs (p : AccessTokenRequestParams) (v : PkceCodeVerifier) :
    { p with pkceCodeVerifier := some v }.pairs.lookup (utf8 "code_verifier") =
      some (Str.fromUtf8Lossy v.expose).bytes := by
  rcases p with ⟨c, r, i, pk⟩
  cases r <;> rfl

/-- What the servers decode of PKCE from the two requests. -/
theorem pkce_lookups (ap : AuthorizationRequestParams) (tp : AccessTokenRequestParams)
    (c : PkceCodeChallenge) :
    let query := parse ({ ap with pkceCodeChallenge := some c }.toFormUrlEncodedString sha256)
    let body := parse { tp with pkceCodeVerifier := some c.verifier }.toString
    query.lookup (Str.lit "code_challenge") = some (c.encode sha256) ∧
      query.lookup (Str.lit "code_challenge_method") = some (Str.lit c.method.asStr) ∧
      body.lookup (Str.lit "code_verifier") = some (Str.fromUtf8Lossy c.verifier.expose) := by
  intro query body
  obtain ⟨hc, hm⟩ := lookup_authorization_pairs sha256 ap c
  have hq : ∀ {s : String}, (∀ b ∈ utf8 s, b < 0x80) → query.lookup (Str.lit s) =
      (({ ap with pkceCodeChallenge := some c }.pairs sha256).lookup (utf8 s)).map
        Str.fromUtf8Lossy := fun h => by
    rw [← lookup_map_fromUtf8Lossy _ h, ← parse_appendPairs,
      ← AuthorizationRequestParams.toFormUrlEncodedSerializer_eq]; rfl
  refine ⟨by rw [hq (by decide), hc, Option.map_some', Str.fromUtf8Lossy_bytes],
    by rw [hq (by decide), hm, Option.map_some', c.method.fromUtf8Lossy_asStr], ?_⟩
  rw [← (Str.fromUtf8Lossy c.verifier.expose).fromUtf8Lossy_bytes, ← Option.map_some',
    ← lookup_access_token_pairs tp c.verifier, ← lookup_map_fromUtf8Lossy _ (by decide),
    ← parse_appendPairs, ← AccessTokenRequestParams.toFormUrlEncodedSerializer_eq]; rfl

/-- The PKCE binding: decoded, the authorization query names the method and carries a challenge
that is the token body's verifier for `plain`, and its SHA-256 in base64url for `S256`. -/
theorem pkce_challenge_matches_verifier (ap : AuthorizationRequestParams)
    (tp : AccessTokenRequestParams) (v : PkceCodeVerifier) (m : PkceCodeChallengeMethod) :
    let query := parse ({ ap with pkceCodeChallenge := some ⟨m, v⟩ }.toFormUrlEncodedString sha256)
    let body := parse { tp with pkceCodeVerifier := some v }.toString
    ∃ challenge verifier,
      query.lookup (Str.lit "code_challenge") = some challenge ∧
      body.lookup (Str.lit "code_verifier") = some verifier ∧
      (m = .plain → query.lookup (Str.lit "code_challenge_method") = some (Str.lit "plain") ∧
        challenge = verifier) ∧
      (m = .sha256 → query.lookup (Str.lit "code_challenge_method") = some (Str.lit "S256") ∧
        challenge.bytes = Base64.encode (sha256 verifier.bytes).bytes) := by
  obtain ⟨hc, hm, hv⟩ := pkce_lookups sha256 ap tp ⟨m, v⟩
  refine ⟨_, _, hc, hv, ?_, ?_⟩ <;> cases m <;> intro h <;> cases h
  · exact ⟨hm, rfl⟩
  · exact ⟨hm, by simp [PkceCodeChallenge.encode, Str.fromUtf8Lossy_of_ascii v.ascii]⟩

end IoOauth
