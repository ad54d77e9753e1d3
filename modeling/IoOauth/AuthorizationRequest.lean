import IoOauth.Pkce
import IoOauth.Scope

/-! `authorization-request.rs`: the query string for the authorization endpoint, read back by
`parse` as the authorization server reads it. -/
namespace IoOauth

open FormUrlencoded

/-- Modelled from the spec: `state.rs` is not among the sources. The anti-CSRF state is an
opaque byte string, and `expose` gives its bytes. -/
structure State where
  bytes : List UInt8

/-- `State::expose`. -/
def State.expose (s : State) : List UInt8 := s.bytes

/-- `AuthorizationRequestParams`, with the `pkce` feature on. -/
structure AuthorizationRequestParams where
  clientId : Str
  redirectUri : Option Str
  scope : HashSet Str
  state : Option State
  pkceCodeChallenge : Option PkceCodeChallenge

namespace AuthorizationRequestParams

variable (sha256 : List UInt8 → Sha256Digest)

/-- `to_form_url_encoded_serializer`. -/
def toFormUrlEncodedSerializer (p : AuthorizationRequestParams) : Serializer :=
  let serializer := (Serializer.new []).appendPair (utf8 "response_type") (utf8 "code")
  let serializer := serializer.appendPair (utf8 "client_id") p.clientId.bytes
  let serializer := match p.state with
    | some state => serializer.appendPair (utf8 "state") (Str.fromUtf8Lossy state.expose).bytes
    | none => serializer
  let serializer := match p.redirectUri with
    | some uri => serializer.appendPair (utf8 "redirect_uri") uri.bytes
    | none => serializer
  let serializer :=
    if !p.scope.isEmpty then serializer.appendPair (utf8 "scope") (joinScope p.scope.elems)
    else serializer
  match p.pkceCodeChallenge with
  | some challenge =>
    (serializer.appendPair (utf8 "code_challenge") (challenge.encode sha256).bytes).appendPair
      (utf8 "code_challenge_method") (utf8 challenge.method.asStr)
  | none => serializer

/-- `to_form_url_encoded_string`. -/
def toFormUrlEncodedString (p : AuthorizationRequestParams) : List UInt8 :=
  (p.toFormUrlEncodedSerializer sha256).finish

/-- The pairs the serializer appends, in order. -/
def pairs (p : AuthorizationRequestParams) : List (List UInt8 × List UInt8) :=
  [(utf8 "response_type", utf8 "code"), (utf8 "client_id", p.clientId.bytes)] ++
    (p.state.map fun st => (utf8 "state", (Str.fromUtf8Lossy st.expose).bytes)).toList ++
    (p.redirectUri.map fun r => (utf8 "redirect_uri", r.bytes)).toList ++
    (if p.scope.isEmpty then [] else [(utf8 "scope", joinScope p.scope.elems)]) ++
    (p.pkceCodeChallenge.map fun c => [(utf8 "code_challenge", (c.encode sha256).bytes),
      (utf8 "code_challenge_method", utf8 c.method.asStr)]).getD []

theorem toFormUrlEncodedSerializer_eq (p : AuthorizationRequestParams) :
    p.toFormUrlEncodedSerializer sha256 = (Serializer.new []).appendPairs (p.pairs sha256) := by
  rcases p with ⟨c, r, sc, st, pk⟩
  simp only [toFormUrlEncodedSerializer, pairs, appendPairs_append]
  cases st <;> cases r <;> cases pk <;> cases sc.isEmpty <;> rfl

/-- The authorization request round-trips: the query reads back as `response_type=code`, the
client id, the state as text, the redirect URI, one scope pair whose space-separated tokens are
the scope set exactly, and the PKCE challenge and method, each present exactly when the
parameters have it, in this order and nothing else. -/
theorem parse_toFormUrlEncodedString (p : AuthorizationRequestParams)
    (hscope : ∀ t ∈ p.scope, (0x20 : UInt8) ∉ t.bytes) :
    ∃ scopePairs : List (Str × Str),
      parse (p.toFormUrlEncodedString sha256) =
        [(Str.lit "response_type", Str.lit "code"), (Str.lit "client_id", p.clientId)] ++
          (p.state.map fun st => (Str.lit "state", Str.fromUtf8Lossy st.expose)).toList ++
          (p.redirectUri.map fun r => (Str.lit "redirect_uri", r)).toList ++ scopePairs ++
          (p.pkceCodeChallenge.map fun c => [(Str.lit "code_challenge", c.encode sha256),
            (Str.lit "code_challenge_method", Str.lit c.method.asStr)]).getD [] ∧
      (p.scope.elems = [] → scopePairs = []) ∧
      (p.scope.elems ≠ [] → ∃ s, scopePairs = [(Str.lit "scope", s)] ∧
        (s.bytes.splitOn 0x20).Nodup ∧ ∀ x, x ∈ s.bytes.splitOn 0x20 ↔ ∃ t ∈ p.scope, t.bytes = x) := by
  refine ⟨if p.scope.isEmpty then [] else [(Str.lit "scope", Str.fromUtf8Lossy (joinScope p.scope.elems))],
    ?_, fun h => by simp [HashSet.isEmpty, h], fun h => ?_⟩
  · rw [toFormUrlEncodedString, toFormUrlEncodedSerializer_eq, parse_appendPairs]
    rcases p with ⟨c, r, sc, st, pk⟩
    cases st <;> cases r <;> cases pk <;> by_cases h : sc.isEmpty <;>
      simp (disch := decide) [pairs, Str.fromUtf8Lossy_utf8, h,
        PkceCodeChallengeMethod.fromUtf8Lossy_asStr]
  · exact ⟨_, by simp [HashSet.isEmpty, h], splitOn_joinScope hscope h⟩

/-- The request of the spec's scenario A: client `cid`, scope `{read, write}`, state `s1`. -/
theorem parse_scenario_a :
    let sha256 : List UInt8 → Sha256Digest := fun _ => ⟨List.replicate 32 0, rfl⟩
    let p : AuthorizationRequestParams :=
      ⟨Str.lit "cid", none, ⟨[Str.lit "read", Str.lit "write"], by decide⟩, some ⟨utf8 "s1"⟩, none⟩
    (∀ t ∈ p.scope, (0x20 : UInt8) ∉ t.bytes) ∧
    ∃ scopePairs : List (Str × Str),
      parse (p.toFormUrlEncodedString sha256) =
        [(Str.lit "response_type", Str.lit "code"), (Str.lit "client_id", p.clientId)] ++
          (p.state.map fun st => (Str.lit "state", Str.fromUtf8Lossy st.expose)).toList ++
          (p.redirectUri.map fun r => (Str.lit "redirect_uri", r)).toList ++ scopePairs ++
          (p.pkceCodeChallenge.map fun c => [(Str.lit "code_challenge", c.encode sha256),
            (Str.lit "code_challenge_method", Str.lit c.method.asStr)]).getD [] ∧
      (p.scope.elems = [] → scopePairs = []) ∧
      (p.scope.elems ≠ [] → ∃ s, scopePairs = [(Str.lit "scope", s)] ∧
        (s.bytes.splitOn 0x20).Nodup ∧ ∀ x, x ∈ s.bytes.splitOn 0x20 ↔ ∃ t ∈ p.scope, t.bytes = x) :=
  have h : ∀ t ∈ (⟨[Str.lit "read", Str.lit "write"], by decide⟩ : HashSet Str),
      (0x20 : UInt8) ∉ t.bytes := by
    simp only [HashSet.mem_iff, List.mem_cons, List.mem_singleton, List.not_mem_nil, or_false]
    rintro t (rfl | rfl) <;> decide
  ⟨h, parse_toFormUrlEncodedString _ _ h⟩

end AuthorizationRequestParams

end IoOauth
