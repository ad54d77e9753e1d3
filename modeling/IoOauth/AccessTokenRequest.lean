import IoOauth.FormUrlencoded
import IoOauth.Pkce

/-! `access-token-request.rs`: the body of the authorization-code grant, read back by `parse` as
the token endpoint reads it. -/
namespace IoOauth

open FormUrlencoded

/-- `AccessTokenRequestParams`, with the `pkce` feature on. -/
structure AccessTokenRequestParams where
  code : Str
  redirectUri : Option Str
  clientId : Str
  pkceCodeVerifier : Option PkceCodeVerifier

namespace AccessTokenRequestParams

/-- `to_form_url_encoded_serializer`. -/
def toFormUrlEncodedSerializer (p : AccessTokenRequestParams) : Serializer :=
  let serializer := (Serializer.new []).appendPair (utf8 "grant_type") (utf8 "authorization_code")
  let serializer := serializer.appendPair (utf8 "code") p.code.bytes
  let serializer := match p.redirectUri with
    | some uri => serializer.appendPair (utf8 "redirect_uri") uri.bytes
    | none => serializer
  let serializer := serializer.appendPair (utf8 "client_id") p.clientId.bytes
  match p.pkceCodeVerifier with
  | some verifier =>
    serializer.appendPair (utf8 "code_verifier") (Str.fromUtf8Lossy verifier.expose).bytes
  | none => serializer

/-- `to_string`. -/
def toString (p : AccessTokenRequestParams) : List UInt8 := p.toFormUrlEncodedSerializer.finish

/-- The pairs the serializer appends, in order. -/
def pairs (p : AccessTokenRequestParams) : List (List UInt8 × List UInt8) :=
  [(utf8 "grant_type", utf8 "authorization_code"), (utf8 "code", p.code.bytes)] ++
    (p.redirectUri.map fun r => (utf8 "redirect_uri", r.bytes)).toList ++
    [(utf8 "client_id", p.clientId.bytes)] ++
    (p.pkceCodeVerifier.map fun v => (utf8 "code_verifier", (Str.fromUtf8Lossy v.expose).bytes)).toList

theorem toFormUrlEncodedSerializer_eq (p : AccessTokenRequestParams) :
    p.toFormUrlEncodedSerializer = (Serializer.new []).appendPairs p.pairs := by
  rcases p with ⟨c, r, i, v⟩
  simp only [toFormUrlEncodedSerializer, pairs, appendPairs_append]
  cases r <;> cases v <;> rfl

/-- The access-token request body round-trips: grant type and code, the redirect URI when
there is one, the client id, then the verifier's very bytes when there is one; nothing else. -/
theorem parse_toString_eq_access_token_pairs (p : AccessTokenRequestParams) :
    ∃ pkcePairs : List (Str × Str),
      parse p.toString =
        [(Str.lit "grant_type", Str.lit "authorization_code"), (Str.lit "code", p.code)] ++
          (p.redirectUri.map fun r => (Str.lit "redirect_uri", r)).toList ++
          [(Str.lit "client_id", p.clientId)] ++ pkcePairs ∧
      (p.pkceCodeVerifier = none → pkcePairs = []) ∧
      ∀ v, p.pkceCodeVerifier = some v →
        ∃ t, pkcePairs = [(Str.lit "code_verifier", t)] ∧ t.bytes = v.expose := by
  refine ⟨(p.pkceCodeVerifier.map fun v => (Str.lit "code_verifier", Str.fromUtf8Lossy v.expose)).toList,
    ?_, fun h => by simp [h], fun v h => ⟨_, by simp [h], Str.fromUtf8Lossy_of_ascii v.ascii⟩⟩
  rw [toString, toFormUrlEncodedSerializer_eq, parse_appendPairs]
  rcases p with ⟨c, r, i, v⟩
  cases r <;> cases v <;> simp (disch := decide) [pairs, Str.fromUtf8Lossy_utf8]

end AccessTokenRequestParams

end IoOauth
