import IoOauth.Scope
import IoOauth.IssueAccessToken

/-! `refresh-access-token.rs`: the body of the refresh grant, read back by `parse`. Its scope
loop is the one of the authorization request, `joinScope`. -/
namespace IoOauth

open FormUrlencoded

/-- `RefreshAccessTokenParams`. -/
structure RefreshAccessTokenParams where
  clientId : Str
  refreshToken : SecretString
  scopes : HashSet Str

namespace RefreshAccessTokenParams

/-- `new`: no scope. -/
def new (clientId : Str) (refreshToken : SecretString) : RefreshAccessTokenParams :=
  ⟨clientId, refreshToken, ⟨[], .nil⟩⟩

/-- `to_serializer`. -/
def toSerializer (p : RefreshAccessTokenParams) : Serializer :=
  let serializer := (Serializer.new []).appendPair (utf8 "grant_type") (utf8 "refresh_token")
  let serializer := serializer.appendPair (utf8 "client_id") p.clientId.bytes
  let serializer := serializer.appendPair (utf8 "refresh_token") p.refreshToken.exposeSecret.bytes
  if !p.scopes.isEmpty then serializer.appendPair (utf8 "scope") (joinScope p.scopes.elems)
  else serializer

/-- `to_string`. -/
def toString (p : RefreshAccessTokenParams) : List UInt8 := p.toSerializer.finish

/-- The pairs the serializer appends, in order. -/
def pairs (p : RefreshAccessTokenParams) : List (List UInt8 × List UInt8) :=
  [(utf8 "grant_type", utf8 "refresh_token"), (utf8 "client_id", p.clientId.bytes),
    (utf8 "refresh_token", p.refreshToken.exposeSecret.bytes)] ++
    if p.scopes.isEmpty then [] else [(utf8 "scope", joinScope p.scopes.elems)]

theorem toSerializer_eq (p : RefreshAccessTokenParams) :
    p.toSerializer = (Serializer.new []).appendPairs p.pairs := by
  rcases p with ⟨c, r, sc⟩
  simp only [toSerializer, pairs, appendPairs_append]
  cases sc.isEmpty <;> rfl

/-- The refresh body round-trips: grant type, client id and the exposed refresh token, then one
scope pair exactly when there are scopes, whose space-separated tokens are the scope set. -/
theorem parse_toString_eq_refresh_pairs (p : RefreshAccessTokenParams)
    (hscope : ∀ t ∈ p.scopes, (0x20 : UInt8) ∉ t.bytes) :
    ∃ scopePairs : List (Str × Str),
      parse p.toString =
        [(Str.lit "grant_type", Str.lit "refresh_token"), (Str.lit "client_id", p.clientId),
          (Str.lit "refresh_token", p.refreshToken.exposeSecret)] ++ scopePairs ∧
      (p.scopes.elems = [] → scopePairs = []) ∧
      (p.scopes.elems ≠ [] → ∃ s, scopePairs = [(Str.lit "scope", s)] ∧
        (s.bytes.splitOn 0x20).Nodup ∧ ∀ x, x ∈ s.bytes.splitOn 0x20 ↔ ∃ t ∈ p.scopes, t.bytes = x) := by
  refine ⟨if p.scopes.isEmpty then [] else
      [(Str.lit "scope", Str.fromUtf8Lossy (joinScope p.scopes.elems))],
    ?_, fun h => by simp [HashSet.isEmpty, h], fun h => ?_⟩
  · rw [toString, toSerializer_eq, parse_appendPairs]
    by_cases h : p.scopes.isEmpty <;> simp (disch := decide) [pairs, Str.fromUtf8Lossy_utf8, h]
  · exact ⟨_, by simp [HashSet.isEmpty, h], splitOn_joinScope hscope h⟩

/-- A refresh with the scopes `{read, write}`. -/
theorem parse_refresh_read_write :
    let p : RefreshAccessTokenParams :=
      ⟨Str.lit "cid", ⟨Str.lit "rt"⟩, ⟨[Str.lit "read", Str.lit "write"], by decide⟩⟩
    (∀ t ∈ p.scopes, (0x20 : UInt8) ∉ t.bytes) ∧
    ∃ scopePairs : List (Str × Str),
      parse p.toString =
        [(Str.lit "grant_type", Str.lit "refresh_token"), (Str.lit "client_id", p.clientId),
          (Str.lit "refresh_token", p.refreshToken.exposeSecret)] ++ scopePairs ∧
      (p.scopes.elems = [] → scopePairs = []) ∧
      (p.scopes.elems ≠ [] → ∃ s, scopePairs = [(Str.lit "scope", s)] ∧
        (s.bytes.splitOn 0x20).Nodup ∧ ∀ x, x ∈ s.bytes.splitOn 0x20 ↔ ∃ t ∈ p.scopes, t.bytes = x) :=
  have h : ∀ t ∈ (⟨[Str.lit "read", Str.lit "write"], by decide⟩ : HashSet Str),
      (0x20 : UInt8) ∉ t.bytes := by
    simp only [HashSet.mem_iff, List.mem_cons, List.mem_singleton, List.not_mem_nil, or_false]
    rintro t (rfl | rfl) <;> decide
  ⟨h, parse_toString_eq_refresh_pairs _ h⟩

end RefreshAccessTokenParams

end IoOauth
