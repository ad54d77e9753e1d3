import IoOauth.AccessTokenRequest
import IoOauth.RefreshAccessToken
import IoOauth.VisitMap

/-! The two coroutines that talk to the token endpoint, `SendAccessTokenRequest` and
`RefreshAccessToken`. Each wraps the `Send` coroutine of `io-http` around a form-urlencoded
request and reads what it answers as an `AccessTokenResponse`. `Send` is a parameter: a state,
its `new`, and a `resume` that asks for I/O or answers with the response. -/
namespace IoOauth

open FormUrlencoded Json

/-- An HTTP response as `Send` answers with it: the status code and the body. -/
structure Response where
  status : Nat
  body : List UInt8

/-- `StatusCode::is_success`. -/
def Response.isSuccess (r : Response) : Bool := 200 ≤ r.status && r.status < 300

/-- `http::Request`, as far as the coroutines build it: the headers in order, and the body. -/
structure Request where
  headers : List (Str × Str)
  body : List UInt8

/-- `http::Error`, which a builder carries from an earlier call; what it says is left out. -/
structure HttpError where

/-- `request::Builder`: the headers set so far, or the error an earlier call left in it. -/
abbrev RequestBuilder := Except HttpError (List (Str × Str))

/-- The `Send` coroutine of `io-http` on the state `σ`, asking for the I/O `Io`. -/
structure Send (σ Io : Type) where
  new : Request → σ
  resume : σ → Option Io → σ × Except Io Response

variable {σ Io : Type}

/-! ## What the two coroutines share -/

/-- `new` of both: the `Content-Type` header, then the body. -/
def tokenRequest (request : RequestBuilder) (body : List UInt8) : Except HttpError Request :=
  request.map fun headers =>
    ⟨headers ++ [(Str.lit "content-type", Str.lit "application/x-www-form-urlencoded")], body⟩

/-- The request `new` of both builds: the builder's headers, then the content type, with `body`
as the body; a builder that carries an error fails with it. -/
theorem tokenRequest_eq_ok_iff {request : RequestBuilder} {body : List UInt8} {r : Request} :
    tokenRequest request body = .ok r ↔ ∃ headers, request = .ok headers ∧
      r = ⟨headers ++ [(Str.lit "content-type", Str.lit "application/x-www-form-urlencoded")], body⟩ := by
  cases request <;> simp [tokenRequest, Functor.map, Except.map, eq_comm]

/-- What `resume` of both makes of a response: the success params from a `2xx` body, the error
params from any other; `now` is what `SystemTime::now()` reads. -/
def readResponse (now : SystemTime) (r : Response) : Except Error AccessTokenResponse :=
  if r.isSuccess then .ok <$> IssueAccessTokenSuccessParams.tryFrom now r.body
  else .error <$> IssueAccessTokenErrorParams.tryFrom r.body

/-- `resume` of both: the I/O `Send` asks for, or the response it answers with, read. -/
def tokenResume (S : Send σ Io) (now : SystemTime) (s : σ) (input : Option Io) :
    σ × Except Io (Except Error AccessTokenResponse) :=
  let (s, r) := S.resume s input
  (s, (readResponse now) <$> r)

/-- A `2xx` response carrying a token as the crate stores it is read as that token, whatever the
clock reads. -/
theorem readResponse_toJson (now : SystemTime) {p : IssueAccessTokenSuccessParams}
    {json : List UInt8} (hj : p.toJson = .ok json) {status : Nat}
    (hs : 200 ≤ status ∧ status < 300) : readResponse now ⟨status, json⟩ = .ok (.ok p) := by
  obtain ⟨v, hv, rfl⟩ : ∃ v, p.serialize = .ok v ∧ v.write = json := by
    unfold IssueAccessTokenSuccessParams.toJson at hj
    cases h : p.serialize <;> simp [h, Functor.map, Except.map] at hj
    exact ⟨_, rfl, hj⟩
  obtain ⟨hp, hd⟩ := IssueAccessTokenSuccessParams.deserialize_serialize now hv
  simp [readResponse, Response.isSuccess, hs,
    IssueAccessTokenSuccessParams.tryFrom_of_fromSlice now (fromSlice_write hp.accepted), hd,
    Functor.map, Except.map]

/-- A token issued at the epoch with no lifetime, stored and answered in a `200` response. -/
theorem readResponse_toJson_at_epoch :
    let p : IssueAccessTokenSuccessParams :=
      ⟨⟨Str.lit "AT"⟩, Str.lit "Bearer", none, none, none, unixEpoch⟩
    ∃ json, p.toJson = .ok json ∧ (200 ≤ 200 ∧ 200 < 300) ∧
      readResponse unixEpoch ⟨200, json⟩ = .ok (.ok p) :=
  ⟨_, rfl, by decide, readResponse_toJson _ (by exact rfl) (by decide)⟩

/-- Any other response whose body `from_slice` reads as a map holding, in any order, the members
of an error as RFC 6749 §5.2 lays them out, is read as that error: whatever the whitespace, and
whatever members naming no field it skipped. -/
theorem readResponse_server_error (now : SystemTime) {p : IssueAccessTokenErrorParams}
    {body : List UInt8} {ms : List (Str × Value)}
    (hb : fromSliceStruct (fun k => (ErrorField.ofKey k).isSome) body = .ok (.object ms))
    (hperm : ms.Perm p.rfcMembers) {status : Nat} (hs : ¬ (200 ≤ status ∧ status < 300)) :
    readResponse now ⟨status, body⟩ = .ok (.error p) := by
  simp [readResponse, Response.isSuccess, hs, IssueAccessTokenErrorParams.tryFrom, hb, bind,
    Except.bind, IssueAccessTokenErrorParams.deserialize_perm_rfcMembers hperm, Functor.map,
    Except.map]

/-- An `invalid_scope` error in a `401` response that writes its description first, with a
member naming no field between. -/
theorem readResponse_server_error_invalid_scope :
    let p : IssueAccessTokenErrorParams := ⟨.invalidScope, some (Str.lit "bad scope"), none⟩
    let body := (Value.object [(Str.lit "error_description", .string (Str.lit "bad scope")),
      (Str.lit "status", .posInt 401), (Str.lit "error", .string (Str.lit "invalid_scope"))]).write
    let ms : List (Str × Value) := [(Str.lit "error_description", .string (Str.lit "bad scope")),
      (Str.lit "error", .string (Str.lit "invalid_scope"))]
    fromSliceStruct (fun k => (ErrorField.ofKey k).isSome) body = .ok (.object ms) ∧
      ms.Perm p.rfcMembers ∧ ¬ (200 ≤ 401 ∧ 401 < 300) ∧
      readResponse unixEpoch ⟨401, body⟩ = .ok (.error p) :=
  have hp : Printable 128 (.object [(Str.lit "error_description", .string (Str.lit "bad scope")),
      (Str.lit "status", .posInt 401), (Str.lit "error", .string (Str.lit "invalid_scope"))]) :=
    .object (by norm_num) fun m hm => by
      simp only [List.mem_cons, List.mem_singleton, List.not_mem_nil, or_false] at hm
      rcases hm with rfl | rfl | rfl
      exacts [.string _, .posInt (by norm_num), .string _]
  have hb : fromSliceStruct (fun k => (ErrorField.ofKey k).isSome)
      (Value.object [(Str.lit "error_description", .string (Str.lit "bad scope")),
        (Str.lit "status", .posInt 401), (Str.lit "error", .string (Str.lit "invalid_scope"))]).write =
      .ok (.object [(Str.lit "error_description", .string (Str.lit "bad scope")),
        (Str.lit "error", .string (Str.lit "invalid_scope"))]) :=
    fromSliceStruct_of_fromSlice (fromSlice_write hp.accepted)
  have hperm := List.Perm.swap (α := (Str × Value)) _ _ []
  ⟨hb, hperm, by decide, readResponse_server_error _ hb (by exact hperm) (by decide)⟩

/-- A `2xx` response whose body `from_slice` reads as a map holding, in any order, the members of
a token as RFC 6749 §5.1 lays them out, is read as that token issued at the reading of the
clock: whatever the whitespace, and whatever members naming no field it skipped. -/
theorem readResponse_server_token (now : SystemTime) {p : IssueAccessTokenSuccessParams}
    {body : List UInt8} {ms : List (Str × Value)}
    (hb : fromSliceStruct (fun k => (SuccessField.ofKey k).isSome) body = .ok (.object ms))
    (hperm : ms.Perm p.rfcMembers) {status : Nat} (hs : 200 ≤ status ∧ status < 300) :
    readResponse now ⟨status, body⟩ = .ok (.ok { p with issuedAt := now }) := by
  simp [readResponse, Response.isSuccess, hs, IssueAccessTokenSuccessParams.tryFrom, hb, bind,
    Except.bind, IssueAccessTokenSuccessParams.deserialize_perm_rfcMembers now hperm, Functor.map,
    Except.map]

/-- A one-hour bearer token in a `200` response that writes its members in reverse order, with
an `id_token` among them. -/
theorem readResponse_server_token_id_token :
    let p : IssueAccessTokenSuccessParams :=
      ⟨⟨Str.lit "AT"⟩, Str.lit "Bearer", some 3600, none, none, unixEpoch⟩
    let body := (Value.object [(Str.lit "expires_in", .posInt 3600),
      (Str.lit "id_token", .string (Str.lit "ID")), (Str.lit "token_type", .string (Str.lit "Bearer")),
      (Str.lit "access_token", .string (Str.lit "AT"))]).write
    let ms : List (Str × Value) := [(Str.lit "expires_in", .posInt 3600),
      (Str.lit "token_type", .string (Str.lit "Bearer")),
      (Str.lit "access_token", .string (Str.lit "AT"))]
    fromSliceStruct (fun k => (SuccessField.ofKey k).isSome) body = .ok (.object ms) ∧
      ms.Perm p.rfcMembers ∧ (200 ≤ 200 ∧ 200 < 300) ∧
      readResponse unixEpoch ⟨200, body⟩ = .ok (.ok { p with issuedAt := unixEpoch }) :=
  have hp : Printable 128 (.object [(Str.lit "expires_in", .posInt 3600),
      (Str.lit "id_token", .string (Str.lit "ID")), (Str.lit "token_type", .string (Str.lit "Bearer")),
      (Str.lit "access_token", .string (Str.lit "AT"))]) :=
    .object (by norm_num) fun m hm => by
      simp only [List.mem_cons, List.mem_singleton, List.not_mem_nil, or_false] at hm
      rcases hm with rfl | rfl | rfl | rfl
      exacts [.posInt (by norm_num), .string _, .string _, .string _]
  have hb : fromSliceStruct (fun k => (SuccessField.ofKey k).isSome)
      (Value.object [(Str.lit "expires_in", .posInt 3600),
        (Str.lit "id_token", .string (Str.lit "ID")), (Str.lit "token_type", .string (Str.lit "Bearer")),
        (Str.lit "access_token", .string (Str.lit "AT"))]).write =
      .ok (.object [(Str.lit "expires_in", .posInt 3600),
        (Str.lit "token_type", .string (Str.lit "Bearer")),
        (Str.lit "access_token", .string (Str.lit "AT"))]) :=
    fromSliceStruct_of_fromSlice (fromSlice_write hp.accepted)
  have hperm := List.reverse_perm
    (IssueAccessTokenSuccessParams.rfcMembers ⟨⟨Str.lit "AT"⟩, Str.lit "Bearer", some 3600, none, none,
      unixEpoch⟩)
  ⟨hb, by exact hperm, by decide, readResponse_server_token _ hb (by exact hperm) (by decide)⟩

/-- `SendAccessTokenRequest`. -/
structure SendAccessTokenRequest (σ : Type) where
  send : σ

def SendAccessTokenRequest.new (S : Send σ Io) (request : RequestBuilder)
    (body : AccessTokenRequestParams) : Except HttpError (SendAccessTokenRequest σ) :=
  (fun r => ⟨S.new r⟩) <$> tokenRequest request body.toString

/-- `new` wraps `Send` around the form-urlencoded params. -/
theorem SendAccessTokenRequest.new_eq_ok_iff (S : Send σ Io) {request : RequestBuilder}
    {body : AccessTokenRequestParams} {c : SendAccessTokenRequest σ} :
    SendAccessTokenRequest.new S request body = .ok c ↔ ∃ headers, request = .ok headers ∧
      c = ⟨S.new ⟨headers ++ [(Str.lit "content-type", Str.lit "application/x-www-form-urlencoded")],
        body.toString⟩⟩ := by
  simp only [SendAccessTokenRequest.new, Functor.map, except_map_eq_ok, tokenRequest_eq_ok_iff]
  aesop

def SendAccessTokenRequest.resume (S : Send σ Io) (now : SystemTime) (c : SendAccessTokenRequest σ)
    (input : Option Io) :
    SendAccessTokenRequest σ × Except Io (Except Error AccessTokenResponse) :=
  let (s, r) := tokenResume S now c.send input
  (⟨s⟩, r)

/-- `RefreshAccessToken`. -/
structure RefreshAccessToken (σ : Type) where
  send : σ

def RefreshAccessToken.new (S : Send σ Io) (request : RequestBuilder)
    (body : RefreshAccessTokenParams) : Except HttpError (RefreshAccessToken σ) :=
  (fun r => ⟨S.new r⟩) <$> tokenRequest request body.toString

/-- `new` wraps `Send` around the form-urlencoded params. -/
theorem RefreshAccessToken.new_eq_ok_iff (S : Send σ Io) {request : RequestBuilder}
    {body : RefreshAccessTokenParams} {c : RefreshAccessToken σ} :
    RefreshAccessToken.new S request body = .ok c ↔ ∃ headers, request = .ok headers ∧
      c = ⟨S.new ⟨headers ++ [(Str.lit "content-type", Str.lit "application/x-www-form-urlencoded")],
        body.toString⟩⟩ := by
  simp only [RefreshAccessToken.new, Functor.map, except_map_eq_ok, tokenRequest_eq_ok_iff]
  aesop

def RefreshAccessToken.resume (S : Send σ Io) (now : SystemTime) (c : RefreshAccessToken σ)
    (input : Option Io) : RefreshAccessToken σ × Except Io (Except Error AccessTokenResponse) :=
  let (s, r) := tokenResume S now c.send input
  (⟨s⟩, r)

end IoOauth
