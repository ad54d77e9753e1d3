import IoOauth.Utf8

/-! `issue-access-token.rs`: the token endpoint's answers and the expiry bookkeeping. The clock
is an input: `syncExpiresIn now` is `sync_expires_in` run when `SystemTime::now()` reads `now`.
`usize` is 64 bits wide, as on the targets the crate is built for. -/
namespace IoOauth

/-- `Duration`, in nanoseconds. -/
structure Duration where
  nanos : Nat
  deriving DecidableEq, Repr

/-- `Duration::as_secs`: the whole seconds. -/
def Duration.asSecs (d : Duration) : Nat := d.nanos / 10 ^ 9

/-- `SystemTime` on a 64-bit Unix target, in nanoseconds from `UNIX_EPOCH`: the seconds fit an
`i64` and the nanoseconds stay below a second. -/
structure SystemTime where
  nanos : Int
  ge_min : -(2 ^ 63 * 10 ^ 9) ≤ nanos
  lt_max : nanos < 2 ^ 63 * 10 ^ 9

/-- `SystemTime::duration_since`: how far `earlier` is behind, or, as the error, ahead. -/
def SystemTime.durationSince (self earlier : SystemTime) : Except Duration Duration :=
  if earlier.nanos ≤ self.nanos then .ok ⟨(self.nanos - earlier.nanos).toNat⟩
  else .error ⟨(earlier.nanos - self.nanos).toNat⟩

/-- `SystemTime::elapsed` when the clock reads `now`. -/
def SystemTime.elapsed (self now : SystemTime) : Except Duration Duration :=
  now.durationSince self

/-- `SecretString`: a string reachable only through `expose_secret`. -/
structure SecretString where
  secret : Str

/-- `expose_secret`. -/
def SecretString.exposeSecret (s : SecretString) : Str := s.secret

/-- `IssueAccessTokenSuccessParams`. -/
structure IssueAccessTokenSuccessParams where
  accessToken : SecretString
  tokenType : Str
  expiresIn : Option (Fin (2 ^ 64))
  refreshToken : Option SecretString
  scope : Option Str
  issuedAt : SystemTime

/-- `sync_expires_in`: take the whole seconds elapsed since `issued_at` off `expires_in`,
stopping at zero; nothing when there is no `expires_in` or `issued_at` is ahead of the clock. -/
def IssueAccessTokenSuccessParams.syncExpiresIn (now : SystemTime)
    (p : IssueAccessTokenSuccessParams) : IssueAccessTokenSuccessParams :=
  match p.expiresIn with
  | none => p
  | some expiresIn =>
    match p.issuedAt.elapsed now with
    | .error _ => p
    | .ok elapsed =>
      let elapsed := elapsed.asSecs
      { p with expiresIn := some ⟨expiresIn.val - min elapsed expiresIn.val, by omega⟩ }

namespace IssueAccessTokenSuccessParams

/-- The whole seconds `sync_expires_in` takes off at the reading `now`: none when `issued_at` is
ahead of it. -/
def elapsedSecs (issuedAt now : SystemTime) : Nat :=
  if issuedAt.nanos ≤ now.nanos then (now.nanos - issuedAt.nanos).toNat / 10 ^ 9 else 0

/-- `sync_expires_in` called at each reading in turn. -/
def syncRun (readings : List SystemTime) (p : IssueAccessTokenSuccessParams) :
    IssueAccessTokenSuccessParams :=
  readings.foldl (fun p now => p.syncExpiresIn now) p

/-- `sync_expires_in` changes `expires_in` only. -/
theorem syncExpiresIn_frame (now : SystemTime) (p : IssueAccessTokenSuccessParams) :
    { p.syncExpiresIn now with expiresIn := p.expiresIn } = p := by
  unfold syncExpiresIn
  split
  · rfl
  · split <;> rfl

theorem syncExpiresIn_expiresIn (now : SystemTime) (p : IssueAccessTokenSuccessParams) :
    (p.syncExpiresIn now).expiresIn.map Fin.val =
      p.expiresIn.map fun e => e.val - min (elapsedSecs p.issuedAt now) e.val := by
  rcases p with ⟨a, t, _ | e, r, sc, ia⟩
  · rfl
  · by_cases h : ia.nanos ≤ now.nanos <;> simp only [syncExpiresIn, SystemTime.elapsed,
      SystemTime.durationSince, elapsedSecs, h, if_true, if_false, Option.map_some',
      Duration.asSecs, Nat.zero_min, Nat.sub_zero]

@[simp] theorem syncExpiresIn_issuedAt (now : SystemTime) (p : IssueAccessTokenSuccessParams) :
    (p.syncExpiresIn now).issuedAt = p.issuedAt := by
  have h := congrArg IssueAccessTokenSuccessParams.issuedAt (syncExpiresIn_frame now p)
  exact h

/-- Over a run, `issued_at` stays put, so every call takes off the whole time elapsed since
it again: the seconds add up. -/
theorem syncRun_expiresIn (readings : List SystemTime) (p : IssueAccessTokenSuccessParams) :
    (p.syncRun readings).issuedAt = p.issuedAt ∧
      (p.syncRun readings).expiresIn.map Fin.val = p.expiresIn.map fun e =>
        e.val - min (readings.map (elapsedSecs p.issuedAt)).sum e.val := by
  induction readings generalizing p with
  | nil => simp [syncRun]
  | cons now rs ih =>
    rw [syncRun, List.foldl_cons, ← syncRun, (ih _).1, (ih _).2, syncExpiresIn_issuedAt]
    refine ⟨rfl, ?_⟩
    have h := congrArg (Option.map fun n => n - min (rs.map (elapsedSecs p.issuedAt)).sum n)
      (syncExpiresIn_expiresIn now p)
    simp only [Option.map_map, Function.comp_def] at h
    rw [h]
    cases p.expiresIn <;> simp only [Option.map_none', Option.map_some', List.map_cons,
      List.sum_cons, Option.some.injEq]
    omega

/-- Ten seconds after issue, a second call at the same reading takes ten more seconds off. -/
theorem syncExpiresIn_twice_same_reading :
    let t0 : SystemTime := ⟨0, by norm_num, by norm_num⟩
    let t : SystemTime := ⟨10 * 10 ^ 9, by norm_num, by norm_num⟩
    let p : IssueAccessTokenSuccessParams :=
      ⟨⟨Str.lit "AT"⟩, Str.lit "Bearer", some 3600, none, none, t0⟩
    (p.syncExpiresIn t).expiresIn = some 3590 ∧
      ((p.syncExpiresIn t).syncExpiresIn t).expiresIn = some 3580 := by
  decide

end IssueAccessTokenSuccessParams

/-- `IssueAccessTokenErrorCode`. -/
inductive IssueAccessTokenErrorCode where
  | invalidClient
  | invalidGrant
  | invalidRequest
  | invalidScope
  | unauthorizedClient
  | unsupportedGrantType
  deriving DecidableEq, Repr

/-- `IssueAccessTokenErrorParams`. -/
structure IssueAccessTokenErrorParams where
  error : IssueAccessTokenErrorCode
  errorDescription : Option Str
  errorUri : Option Str

/-- `AccessTokenResponse`. -/
abbrev AccessTokenResponse := Except IssueAccessTokenErrorParams IssueAccessTokenSuccessParams

end IoOauth
