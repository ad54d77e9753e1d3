import IoOauth.IssueAccessToken
import IoOauth.JsonStruct

/-! `issue-access-token.rs` through `serde_json`: the derived `Serialize` and `Deserialize` of
the success params, with `serialize_secret_string` for the secrets and `SystemTime::now` as the
default issue time, serde's impls for `SystemTime`, and the derived `Deserialize` of the error
params. The derived visitors read a value tree, as `Json.fromSliceStruct` builds it, the
members that name no field skipped. -/
namespace IoOauth

open Json

/-! ## What every derived visitor shares -/

/-- The `Deserialize` of `String`, and of `SecretString` through it. -/
def deserializeString : Value → Except Error Str
  | .string s => .ok s
  | v => .error (.invalidType v.unexpected "a string")

/-- serde's visitor for the unsigned type `name`, below `2 ^ bits`. -/
def deserializeUnsigned (bits : Nat) (name : String) : Value → Except Error (Fin (2 ^ bits))
  | .posInt n => if h : n < 2 ^ bits then .ok ⟨n, h⟩ else .error (.invalidValue (.unsigned n) name)
  | .negInt n => .error (.invalidValue (.signed n) name)
  | v => .error (.invalidType v.unexpected name)

/-- `deserialize_option`: `null` is `None`. -/
def deserializeOption {α : Type} (f : Value → Except Error α) : Value → Except Error (Option α)
  | .null => .ok none
  | v => some <$> f v

/-- One field of a derived `visit_map`: an error if it was read before, else its value. -/
def readField {α β : Type} (name : String) (seen : Bool) (read : Except Error α) (set : α → β) :
    Except Error β :=
  if seen then .error (.duplicateField name) else set <$> read

/-- `SeqAccess::next_element`: the next element as `f` reads it, `none` at the end. -/
def nextElement {α : Type} (f : Value → Except Error α) :
    List Value → Except Error (Option α × List Value)
  | [] => .ok (none, [])
  | v :: vs => (fun a => (some a, vs)) <$> f v

/-- What `next_element` gives is what `f` read from an element. -/
theorem exists_of_nextElement {α : Type} {f : Value → Except Error α} {vs : List Value}
    {x : Option α × List Value} (h : nextElement f vs = .ok x) : ∀ a ∈ x.1, ∃ v, f v = .ok a := by
  cases vs with
  | nil => cases h; intro a ha; cases ha
  | cons v vs =>
    simp only [nextElement, Functor.map, Except.map] at h
    split at h
    · cases h
    · cases h; intro a ha; cases ha; exact ⟨v, ‹_›⟩

theorem readField_eq_ok {α β : Type} {name : String} {seen : Bool} {read : Except Error α}
    {set : α → β} {b : β} :
    readField name seen read set = .ok b ↔ seen = false ∧ ∃ a, read = .ok a ∧ set a = b := by
  cases seen <;> cases read <;> simp [readField, Functor.map, Except.map]

/-- One key of a derived `visit_map`: the field `ofKey` names it, read by `read`, or `__ignore`
for a key that names no field. -/
def visitMember {φ σ : Type} (ofKey : Str → Option φ) (read : φ → σ → Value → Except Error σ)
    (acc : σ) : Str × Value → Except Error σ
  | (k, v) =>
    match ofKey k with
    | some f => read f acc v
    | none => .ok acc

/-- Reads of two different fields commute: each sets its own field. -/
def ReadsCommute {φ σ : Type} (read : φ → σ → Value → Except Error σ) : Prop :=
  ∀ (f g : φ) (acc a1 a2 : σ) (x y : Value), f ≠ g → read g acc y = .ok a1 →
    read f a1 x = .ok a2 → ∃ b, read f acc x = .ok b ∧ read g b y = .ok a2

section visitMember

variable {φ σ : Type} {ofKey : Str → Option φ} {read : φ → σ → Value → Except Error σ}

/-- The derived `visit_map` skips every key that names no field. -/
theorem foldlM_visitMember_filter (acc : σ) (ms : List (Str × Value)) :
    ms.foldlM (visitMember ofKey read) acc =
      (ms.filter fun m => (ofKey m.1).isSome).foldlM (visitMember ofKey read) acc := by
  induction ms generalizing acc with
  | nil => rfl
  | cons m ms ih =>
    rcases m with ⟨k, v⟩
    cases hk : ofKey k with
    | none => simp [List.filter, hk, visitMember, ih, bind, Except.bind]
    | some f => simp [List.filter, hk, ih]

/-- Two members naming different fields are read the same in either order, when both are. -/
theorem visitMember_comm (hc : ReadsCommute read) {acc a1 a2 : σ} {x y : Str × Value}
    (hxy : ofKey x.1 ≠ ofKey y.1) (h1 : visitMember ofKey read acc y = .ok a1)
    (h2 : visitMember ofKey read a1 x = .ok a2) :
    ∃ b, visitMember ofKey read acc x = .ok b ∧ visitMember ofKey read b y = .ok a2 := by
  obtain ⟨kx, vx⟩ := x
  obtain ⟨ky, vy⟩ := y
  cases hx : ofKey kx with
  | none =>
    simp only [visitMember, hx, Except.ok.injEq] at h2 ⊢
    exact ⟨acc, rfl, h2 ▸ h1⟩
  | some fx =>
    cases hy : ofKey ky with
    | none =>
      simp only [visitMember, hy, Except.ok.injEq] at h1
      subst h1
      exact ⟨a2, h2, by simp only [visitMember, hy]⟩
    | some fy =>
      simp only [visitMember, hx, hy] at h1 h2 ⊢
      exact hc _ _ _ _ _ _ _ (fun h => hxy (by rw [hx, hy, h])) h1 h2

/-- The derived `visit_map` reads members naming distinct fields the same in any order. -/
theorem foldlM_visitMember_perm (hc : ReadsCommute read) {l l' : List (Str × Value)}
    (hperm : l.Perm l') (hnd : (l.map fun m => ofKey m.1).Nodup) {acc r : σ}
    (h : l.foldlM (visitMember ofKey read) acc = .ok r) :
    l'.foldlM (visitMember ofKey read) acc = .ok r := by
  induction hperm generalizing acc with
  | nil => exact h
  | cons x _ ih =>
    rw [List.map_cons, List.nodup_cons] at hnd
    rw [List.foldlM_cons, except_bind_eq_ok] at h ⊢
    obtain ⟨a, ha, h⟩ := h
    exact ⟨a, ha, ih hnd.2 h⟩
  | swap x y l =>
    simp only [List.map_cons, List.nodup_cons, List.mem_cons, not_or] at hnd
    simp only [List.foldlM_cons, except_bind_eq_ok] at h ⊢
    obtain ⟨a1, h1, a2, h2, h⟩ := h
    obtain ⟨b, hb1, hb2⟩ := visitMember_comm hc (Ne.symm hnd.1.1) h1 h2
    exact ⟨b, hb1, a2, hb2, h⟩
  | trans h12 _ ih12 ih23 => exact ih23 ((h12.map _).nodup_iff.mp hnd) (ih12 hnd h)

/-- So the derived `visit_map` reads a map as it reads the members of it that name fields, taken
in any order. -/
theorem foldlM_visitMember_of_perm (hc : ReadsCommute read) {ms l : List (Str × Value)}
    (hperm : (ms.filter fun m => (ofKey m.1).isSome).Perm l)
    (hnd : (l.map fun m => ofKey m.1).Nodup) {acc r : σ}
    (h : l.foldlM (visitMember ofKey read) acc = .ok r) :
    ms.foldlM (visitMember ofKey read) acc = .ok r := by
  rw [foldlM_visitMember_filter]
  exact foldlM_visitMember_perm hc hperm.symm hnd h

end visitMember

/-- An optional string written as itself or `null` reads back. -/
@[simp] theorem deserializeOption_map_string {α : Type} (o : Option α) (f : α → Str) :
    deserializeOption deserializeString ((o.map fun a => .string (f a)).getD .null) =
      .ok (o.map f) := by
  cases o <;> rfl

@[simp] theorem deserializeOption_string (o : Option Str) :
    deserializeOption deserializeString ((o.map .string).getD .null) = .ok o := by
  simpa using deserializeOption_map_string o id

/-- An optional number below `2 ^ bits` written as itself or `null` reads back. -/
@[simp] theorem deserializeOption_unsigned {bits : Nat} (name : String) (o : Option (Fin (2 ^ bits))) :
    deserializeOption (deserializeUnsigned bits name) ((o.map fun n => .posInt n.val).getD .null) =
      .ok o := by
  rcases o with _ | ⟨n, hn⟩
  · rfl
  · simp [deserializeOption, deserializeUnsigned, hn, Functor.map, Except.map]

/-! ## `SystemTime` -/

def unixEpoch : SystemTime := ⟨0, by norm_num, by norm_num⟩

/-- `Duration::subsec_nanos`. -/
def Duration.subsecNanos (d : Duration) : Nat := d.nanos % 10 ^ 9

/-- The fields of serde's `SystemTime` struct. -/
inductive SystemTimeField
  | secs
  | nanos
  deriving DecidableEq

def SystemTimeField.name : SystemTimeField → String
  | .secs => "secs_since_epoch"
  | .nanos => "nanos_since_epoch"

/-- `FIELDS`. -/
def systemTimeFields : List SystemTimeField := [.secs, .nanos]

/-- The field visitor's `visit_str`. -/
def SystemTimeField.ofKey (k : Str) : Option SystemTimeField :=
  systemTimeFields.find? fun f => k.bytes = utf8 f.name

@[simp] theorem SystemTimeField.ofKey_name (f : SystemTimeField) :
    SystemTimeField.ofKey (Str.lit f.name) = some f := by
  cases f <;> decide

/-- serde's `Serialize for SystemTime`: the time since `UNIX_EPOCH` as a struct of two fields,
and an error before it. -/
def SystemTime.serialize (t : SystemTime) : Except Error Value :=
  match t.durationSince unixEpoch with
  | .error _ => .error (.custom "SystemTime must be later than UNIX_EPOCH")
  | .ok d => .ok (.object [(Str.lit SystemTimeField.secs.name, .posInt d.asSecs),
      (Str.lit SystemTimeField.nanos.name, .posInt d.subsecNanos)])

/-- One key of serde's `visit_map` for `SystemTime`; an unknown key is an error. -/
def visitSystemTimeMember (acc : Option (Fin (2 ^ 64)) × Option (Fin (2 ^ 32))) :
    Str × Value → Except Error (Option (Fin (2 ^ 64)) × Option (Fin (2 ^ 32)))
  | (k, v) =>
    match SystemTimeField.ofKey k with
    | some .secs =>
      readField SystemTimeField.secs.name acc.1.isSome (deserializeUnsigned 64 "u64" v) (·, acc.2)
    | some .nanos =>
      readField SystemTimeField.nanos.name acc.2.isSome (deserializeUnsigned 32 "u32" v) (acc.1, ·)
    | none => .error (.unknownField k (systemTimeFields.map SystemTimeField.name))

/-- `check_overflow`: the seconds and the whole seconds of the nanoseconds add up within `u64`. -/
def checkOverflow (secs nanos : Nat) : Except Error Unit :=
  if 2 ^ 64 ≤ secs + nanos / 10 ^ 9 then
    .error (.custom "overflow deserializing SystemTime epoch offset")
  else .ok ()

/-- `UNIX_EPOCH.checked_add(Duration::new(secs, nanos))`. -/
def SystemTime.ofEpoch (secs nanos : Nat) : Except Error SystemTime :=
  if h : secs * 10 ^ 9 + nanos < 2 ^ 63 * 10 ^ 9 then
    .ok ⟨secs * 10 ^ 9 + nanos, by omega, by omega⟩
  else .error (.custom "overflow deserializing SystemTime")

/-- serde's `Deserialize for SystemTime`, from a map or a sequence of the two fields. -/
def SystemTime.deserialize : Value → Except Error SystemTime
  | .object ms => do
    let (secs, nanos) ← ms.foldlM visitSystemTimeMember (none, none)
    let some secs := secs | throw (.missingField SystemTimeField.secs.name)
    let some nanos := nanos | throw (.missingField SystemTimeField.nanos.name)
    checkOverflow secs nanos
    SystemTime.ofEpoch secs nanos
  | .array vs => do
    let (some secs, vs) ← nextElement (deserializeUnsigned 64 "u64") vs
      | throw (.invalidLength 0 "struct SystemTime")
    let (some nanos, vs) ← nextElement (deserializeUnsigned 32 "u32") vs
      | throw (.invalidLength 1 "struct SystemTime")
    checkOverflow secs nanos
    if !vs.isEmpty then throw (.malformed .trailingCharacters)
    SystemTime.ofEpoch secs nanos
  | v => .error (.invalidType v.unexpected "struct SystemTime")

/-- A time not before the epoch is written as its seconds and nanoseconds since then. -/
theorem SystemTime.serialize_of_nonneg {t : SystemTime} (h : 0 ≤ t.nanos) :
    t.serialize = .ok (.object [(Str.lit SystemTimeField.secs.name, .posInt (t.nanos.toNat / 10 ^ 9)),
      (Str.lit SystemTimeField.nanos.name, .posInt (t.nanos.toNat % 10 ^ 9))]) := by
  simp [SystemTime.serialize, SystemTime.durationSince, unixEpoch, h, Duration.asSecs,
    Duration.subsecNanos]

theorem SystemTime.deserialize_epoch {s n : Nat} (hs : s < 2 ^ 64) (hn : n < 10 ^ 9) :
    SystemTime.deserialize (.object [(Str.lit SystemTimeField.secs.name, .posInt s),
      (Str.lit SystemTimeField.nanos.name, .posInt n)]) = SystemTime.ofEpoch s n := by
  have hs' : s < 18446744073709551616 := hs
  have hn9 : n < 1000000000 := hn
  have hn' : n < 4294967296 := by omega
  have hc : ¬ 18446744073709551616 ≤ s + n / 1000000000 := by omega
  simp [SystemTime.deserialize, List.foldlM, visitSystemTimeMember, readField, deserializeUnsigned,
    hs', hn', checkOverflow, hc, bind, Except.bind, pure, Except.pure]

theorem SystemTime.ofEpoch_toNat {t : SystemTime} (h : 0 ≤ t.nanos) :
    SystemTime.ofEpoch (t.nanos.toNat / 10 ^ 9) (t.nanos.toNat % 10 ^ 9) = .ok t := by
  obtain ⟨n, h1, h2⟩ := t
  dsimp only at h ⊢
  rw [SystemTime.ofEpoch, dif_pos (by omega)]
  simp only [Except.ok.injEq, SystemTime.mk.injEq]
  omega

/-- A time not before the epoch is written as a printable value that reads back as itself. -/
theorem SystemTime.deserialize_serialize {t : SystemTime} (h : 0 ≤ t.nanos) :
    ∃ v, t.serialize = .ok v ∧ Printable 127 v ∧ SystemTime.deserialize v = .ok t := by
  have hlt := t.lt_max
  have hs : t.nanos.toNat / 10 ^ 9 < 2 ^ 64 := by omega
  refine ⟨_, SystemTime.serialize_of_nonneg h, .object (by norm_num) ?_, ?_⟩
  · simp only [List.mem_cons, List.mem_singleton, List.not_mem_nil, or_false]
    rintro _ (rfl | rfl)
    · exact .posInt hs
    · exact .posInt (by omega)
  · rw [SystemTime.deserialize_epoch hs (Nat.mod_lt _ (by norm_num)), SystemTime.ofEpoch_toNat h]

/-- Whatever it reads, `Deserialize for SystemTime` gives a time not before the epoch: both of
its forms end in `UNIX_EPOCH.checked_add`. -/
theorem SystemTime.nonneg_of_deserialize {v : Value} {t : SystemTime}
    (h : SystemTime.deserialize v = .ok t) : 0 ≤ t.nanos := by
  have hof : ∀ {s n}, SystemTime.ofEpoch s n = .ok t → 0 ≤ t.nanos := fun h => by
    unfold SystemTime.ofEpoch at h
    split_ifs at h
    cases h
    exact Int.natCast_nonneg _
  unfold SystemTime.deserialize at h
  split at h
  any_goals simp only [bind, Except.bind] at h; repeat' split at h
  all_goals first | exact hof h | cases h

/-! ## The success params -/

/-- The derived `__Field` of the success params, `__ignore` apart. -/
inductive SuccessField
  | accessToken
  | tokenType
  | expiresIn
  | refreshToken
  | scope
  | issuedAt
  deriving DecidableEq

def SuccessField.name : SuccessField → String
  | .accessToken => "access_token"
  | .tokenType => "token_type"
  | .expiresIn => "expires_in"
  | .refreshToken => "refresh_token"
  | .scope => "scope"
  | .issuedAt => "issued_at"

def successFields : List SuccessField :=
  [.accessToken, .tokenType, .expiresIn, .refreshToken, .scope, .issuedAt]

/-- The field visitor's `visit_str`: `none` is `__ignore`. -/
def SuccessField.ofKey (k : Str) : Option SuccessField :=
  successFields.find? fun f => k.bytes = utf8 f.name

@[simp] theorem SuccessField.ofKey_name (f : SuccessField) :
    SuccessField.ofKey (Str.lit f.name) = some f := by
  cases f <;> decide

/-- The fields the derived `visit_map` has read so far. -/
structure SuccessFields where
  accessToken : Option SecretString := none
  tokenType : Option Str := none
  expiresIn : Option (Option (Fin (2 ^ 64))) := none
  refreshToken : Option (Option SecretString) := none
  scope : Option (Option Str) := none
  issuedAt : Option SystemTime := none

/-- How the derived `visit_map` reads each field of the success params: once, by its type's
`Deserialize`. -/
def readSuccessField : SuccessField → SuccessFields → Value → Except Error SuccessFields
  | .accessToken, acc, v =>
    readField SuccessField.accessToken.name acc.accessToken.isSome (deserializeString v)
      fun x => { acc with accessToken := some ⟨x⟩ }
  | .tokenType, acc, v =>
    readField SuccessField.tokenType.name acc.tokenType.isSome (deserializeString v)
      fun x => { acc with tokenType := some x }
  | .expiresIn, acc, v =>
    readField SuccessField.expiresIn.name acc.expiresIn.isSome
      (deserializeOption (deserializeUnsigned 64 "usize") v) fun x => { acc with expiresIn := some x }
  | .refreshToken, acc, v =>
    readField SuccessField.refreshToken.name acc.refreshToken.isSome
      (deserializeOption deserializeString v)
      fun x => { acc with refreshToken := some (x.map SecretString.mk) }
  | .scope, acc, v =>
    readField SuccessField.scope.name acc.scope.isSome (deserializeOption deserializeString v)
      fun x => { acc with scope := some x }
  | .issuedAt, acc, v =>
    readField SuccessField.issuedAt.name acc.issuedAt.isSome (SystemTime.deserialize v)
      fun x => { acc with issuedAt := some x }

/-- One key of the derived `visit_map` of the success params. -/
def visitSuccessMember : SuccessFields → Str × Value → Except Error SuccessFields :=
  visitMember SuccessField.ofKey readSuccessField

@[simp] theorem SecretString.mk_exposeSecret (s : SecretString) : SecretString.mk s.exposeSecret = s :=
  rfl

namespace IssueAccessTokenSuccessParams

/-- The derived `Serialize`, the secrets written through `serialize_secret_string`. -/
def serialize (p : IssueAccessTokenSuccessParams) : Except Error Value := do
  let issuedAt ← p.issuedAt.serialize
  pure (.object [(Str.lit SuccessField.accessToken.name, .string p.accessToken.exposeSecret),
    (Str.lit SuccessField.tokenType.name, .string p.tokenType),
    (Str.lit SuccessField.expiresIn.name, (p.expiresIn.map fun n => .posInt n.val).getD .null),
    (Str.lit SuccessField.refreshToken.name,
      (p.refreshToken.map fun s => .string s.exposeSecret).getD .null),
    (Str.lit SuccessField.scope.name, (p.scope.map .string).getD .null),
    (Str.lit SuccessField.issuedAt.name, issuedAt)])

/-- The derived `Deserialize`, `now` being what `SystemTime::now()` reads when `issued_at` is
missing. -/
def deserialize (now : SystemTime) : Value → Except Error IssueAccessTokenSuccessParams
  | .object ms => do
    let f ← ms.foldlM visitSuccessMember {}
    let some accessToken := f.accessToken | throw (.missingField SuccessField.accessToken.name)
    let some tokenType := f.tokenType | throw (.missingField SuccessField.tokenType.name)
    pure ⟨accessToken, tokenType, f.expiresIn.getD none, f.refreshToken.getD none,
      f.scope.getD none, f.issuedAt.getD now⟩
  | .array vs => do
    let exp := "struct IssueAccessTokenSuccessParams with 6 elements"
    let (some accessToken, vs) ← nextElement deserializeString vs | throw (.invalidLength 0 exp)
    let (some tokenType, vs) ← nextElement deserializeString vs | throw (.invalidLength 1 exp)
    let (some expiresIn, vs) ← nextElement (deserializeOption (deserializeUnsigned 64 "usize")) vs
      | throw (.invalidLength 2 exp)
    let (some refreshToken, vs) ← nextElement (deserializeOption deserializeString) vs
      | throw (.invalidLength 3 exp)
    let (some scope, vs) ← nextElement (deserializeOption deserializeString) vs
      | throw (.invalidLength 4 exp)
    let (issuedAt, vs) ← nextElement SystemTime.deserialize vs
    if !vs.isEmpty then throw (.malformed .trailingCharacters)
    pure ⟨⟨accessToken⟩, tokenType, expiresIn, refreshToken.map SecretString.mk, scope,
      issuedAt.getD now⟩
  | v => .error (.invalidType v.unexpected "struct IssueAccessTokenSuccessParams")

/-- `TryFrom<&IssueAccessTokenSuccessParams> for String`: `serde_json::to_string`. -/
def toJson (p : IssueAccessTokenSuccessParams) : Except Error (List UInt8) :=
  Value.write <$> p.serialize

/-- `TryFrom<&[u8]> for IssueAccessTokenSuccessParams`: `serde_json::from_slice`. -/
def tryFrom (now : SystemTime) (bytes : List UInt8) : Except Error IssueAccessTokenSuccessParams :=
  fromSliceStruct (fun k => (SuccessField.ofKey k).isSome) bytes >>= deserialize now

/-- The derived `visit_map` skips the members that name no field, so leaving them out of the
tree changes nothing. -/
theorem deserialize_onlyFields (now : SystemTime) (v : Value) :
    deserialize now (v.onlyFields fun k => (SuccessField.ofKey k).isSome) = deserialize now v := by
  cases v
  case object ms => simp only [Value.onlyFields, deserialize, visitSuccessMember,
    ← foldlM_visitMember_filter]
  all_goals rfl

/-- A text `from_slice` reads into a `Value` is read as the derived `Deserialize` reads that
value. -/
theorem tryFrom_of_fromSlice (now : SystemTime) {bytes : List UInt8} {v : Value}
    (h : fromSlice bytes = .ok v) : tryFrom now bytes = deserialize now v := by
  rw [tryFrom, fromSliceStruct_of_fromSlice h]
  exact deserialize_onlyFields now v

theorem deserialize_serialize (now : SystemTime) {p : IssueAccessTokenSuccessParams} {v : Value}
    (h : p.serialize = .ok v) : Printable 128 v ∧ deserialize now v = .ok p := by
  have hn : 0 ≤ p.issuedAt.nanos := by
    by_contra hneg
    simp [serialize, SystemTime.serialize, SystemTime.durationSince, unixEpoch, hneg, bind,
      Except.bind] at h
  obtain ⟨tv, htv, hpt, hdt⟩ := SystemTime.deserialize_serialize hn
  simp only [serialize, htv, bind, Except.bind, pure, Except.pure, Except.ok.injEq] at h
  subst h
  constructor
  · refine .object (by norm_num) ?_
    simp only [List.mem_cons, List.mem_singleton, List.not_mem_nil, or_false]
    rintro _ (rfl | rfl | rfl | rfl | rfl | rfl)
    · exact .string _
    · exact .string _
    · cases p.expiresIn with
      | none => exact .null
      | some n => exact .posInt n.isLt
    · cases p.refreshToken <;> first | exact .null | exact .string _
    · cases p.scope <;> first | exact .null | exact .string _
    · exact hpt
  · simp only [deserialize, List.foldlM, visitSuccessMember, visitMember, SuccessField.ofKey_name,
      readSuccessField, readField,
      deserializeString, deserializeOption_unsigned, deserializeOption_map_string,
      deserializeOption_string, hdt]
    simp [bind, Except.bind, pure, Except.pure, Functor.map, Except.map, Function.comp_def]

/-- A token not issued before the epoch is stored, and read back as it was at every reading of
the clock. -/
theorem toJson_tryFrom {p : IssueAccessTokenSuccessParams} (h : 0 ≤ p.issuedAt.nanos) :
    ∃ json, p.toJson = .ok json ∧ ∀ now, tryFrom now json = .ok p := by
  obtain ⟨tv, htv, -, -⟩ := SystemTime.deserialize_serialize h
  obtain ⟨v, hv⟩ : ∃ v, p.serialize = .ok v := by
    simp [serialize, htv, bind, Except.bind, pure, Except.pure]
  refine ⟨v.write, by simp [toJson, hv, Functor.map, Except.map], fun now => ?_⟩
  obtain ⟨hp, hd⟩ := deserialize_serialize now hv
  rw [tryFrom_of_fromSlice now (fromSlice_write hp.accepted), hd]

/-- A token not issued before the epoch is stored and read back as it was, whatever the clock
reads when it is read back. -/
theorem tryFrom_toJson (now : SystemTime) (p : IssueAccessTokenSuccessParams)
    (h : 0 ≤ p.issuedAt.nanos) : ∃ json, p.toJson = .ok json ∧ tryFrom now json = .ok p :=
  let ⟨json, hj, ht⟩ := toJson_tryFrom h
  ⟨json, hj, ht now⟩

/-- A one-hour token issued at the epoch, read back at the epoch. -/
theorem tryFrom_toJson_at_epoch :
    let p : IssueAccessTokenSuccessParams :=
      ⟨⟨Str.lit "AT"⟩, Str.lit "Bearer", some 3600, none, none, unixEpoch⟩
    0 ≤ p.issuedAt.nanos ∧ ∃ json, p.toJson = .ok json ∧ tryFrom unixEpoch json = .ok p :=
  ⟨by decide, tryFrom_toJson _ _ (by decide)⟩

/-! ### A server's response -/

/-- A successful response as RFC 6749 §5.1 lays it out: the token and its type, then the
lifetime, the refresh token and the scope when there are. It carries no issue time. -/
def rfcMembers (p : IssueAccessTokenSuccessParams) : List (Str × Value) :=
  [(Str.lit SuccessField.accessToken.name, .string p.accessToken.exposeSecret),
    (Str.lit SuccessField.tokenType.name, .string p.tokenType)] ++
    (p.expiresIn.map fun n => (Str.lit SuccessField.expiresIn.name, .posInt n.val)).toList ++
    (p.refreshToken.map fun s =>
      (Str.lit SuccessField.refreshToken.name, .string s.exposeSecret)).toList ++
    (p.scope.map fun s => (Str.lit SuccessField.scope.name, .string s)).toList

/-- The response is read as the token it carries, issued at the reading of the clock. -/
theorem deserialize_rfcMembers (now : SystemTime) (p : IssueAccessTokenSuccessParams) :
    deserialize now (.object p.rfcMembers) = .ok { p with issuedAt := now } := by
  obtain ⟨a, t, e, r, s, i⟩ := p
  cases e <;> cases r <;> cases s <;>
    simp [deserialize, rfcMembers, List.foldlM, visitSuccessMember, visitMember, readSuccessField,
      readField, deserializeString,
      deserializeOption, deserializeUnsigned, bind, Except.bind, pure, Except.pure, Functor.map,
      Except.map]

/-- The RFC layout names each field once. -/
theorem nodup_rfcMembers (p : IssueAccessTokenSuccessParams) :
    (p.rfcMembers.map fun m => SuccessField.ofKey m.1).Nodup := by
  obtain ⟨a, t, e, r, s, i⟩ := p
  cases e <;> cases r <;> cases s <;> simp [rfcMembers]

/-! ### Every token read -/

theorem getD_now_or_nonneg (now : SystemTime) {o : Option SystemTime}
    (h : ∀ t ∈ o, 0 ≤ t.nanos) : o.getD now = now ∨ 0 ≤ (o.getD now).nanos := by
  rcases o with _ | t
  · exact .inl rfl
  · exact .inr (h t rfl)

/-- One key of the derived `visit_map` keeps `issued_at` unread or not before the epoch. -/
theorem visitSuccessMember_issuedAt {acc a : SuccessFields} {m : Str × Value}
    (h : visitSuccessMember acc m = .ok a) (hacc : ∀ t ∈ acc.issuedAt, 0 ≤ t.nanos) :
    ∀ t ∈ a.issuedAt, 0 ≤ t.nanos := by
  obtain ⟨k, v⟩ := m
  cases hk : SuccessField.ofKey k with
  | none =>
    simp only [visitSuccessMember, visitMember, hk, Except.ok.injEq] at h
    exact h ▸ hacc
  | some f =>
    cases f <;> simp only [visitSuccessMember, visitMember, hk, readSuccessField, readField_eq_ok] at h <;>
      obtain ⟨-, x, hx, rfl⟩ := h
    all_goals first
      | exact hacc
      | intro t ht; cases ht; exact SystemTime.nonneg_of_deserialize hx

/-- So does the whole `visit_map`. -/
theorem foldlM_visitSuccessMember_issuedAt {ms : List (Str × Value)} {acc r : SuccessFields}
    (h : ms.foldlM visitSuccessMember acc = .ok r) (hacc : ∀ t ∈ acc.issuedAt, 0 ≤ t.nanos) :
    ∀ t ∈ r.issuedAt, 0 ≤ t.nanos := by
  induction ms generalizing acc with
  | nil => cases h; exact hacc
  | cons m ms ih =>
    rw [List.foldlM_cons, except_bind_eq_ok] at h
    obtain ⟨a, ha, h⟩ := h
    exact ih h (visitSuccessMember_issuedAt ha hacc)

/-- Every token the derived `Deserialize` reads, from a map or a sequence, was issued at the
reading of the clock, when it carries no `issued_at`, or not before the epoch. -/
theorem issuedAt_of_deserialize {now : SystemTime} {v : Value} {p : IssueAccessTokenSuccessParams}
    (h : deserialize now v = .ok p) : p.issuedAt = now ∨ 0 ≤ p.issuedAt.nanos := by
  unfold deserialize at h
  split at h
  · rw [except_bind_eq_ok] at h
    obtain ⟨f, hf, h⟩ := h
    have hi := foldlM_visitSuccessMember_issuedAt hf (by simp)
    repeat' split at h
    all_goals try cases h
    exact getD_now_or_nonneg now hi
  · have key : ∀ {vs : List Value} {x : Option SystemTime × List Value},
        nextElement SystemTime.deserialize vs = .ok x →
          x.1.getD now = now ∨ 0 ≤ (x.1.getD now).nanos := fun hx =>
      getD_now_or_nonneg now fun t ht =>
        let ⟨_, hv⟩ := exists_of_nextElement hx t ht
        SystemTime.nonneg_of_deserialize hv
    simp only [bind, Except.bind] at h
    repeat' split at h
    all_goals try cases h
    exact key ‹_›
  · cases h

/-- Storing a token read at a reading of the clock not before the epoch never fails, and reads
back as that token at every later reading: `TryFrom<&[u8]>`, then
`TryFrom<&IssueAccessTokenSuccessParams> for String`, then `TryFrom<&[u8]>` again. -/
theorem toJson_tryFrom_of_tryFrom {now : SystemTime} {bytes : List UInt8}
    {p : IssueAccessTokenSuccessParams} (h : tryFrom now bytes = .ok p) (hnow : 0 ≤ now.nanos) :
    ∃ json, p.toJson = .ok json ∧ ∀ now', tryFrom now' json = .ok p := by
  rw [tryFrom, except_bind_eq_ok] at h
  obtain ⟨v, -, h⟩ := h
  refine toJson_tryFrom ?_
  rcases issuedAt_of_deserialize h with h | h
  · exact h ▸ hnow
  · exact h

/-- A one-hour bearer token answered at the epoch, stored and read back. -/
theorem toJson_tryFrom_of_tryFrom_at_epoch :
    let p : IssueAccessTokenSuccessParams :=
      ⟨⟨Str.lit "AT"⟩, Str.lit "Bearer", some 3600, none, none, unixEpoch⟩
    tryFrom unixEpoch (Value.object p.rfcMembers).write = .ok p ∧ 0 ≤ unixEpoch.nanos ∧
      ∃ json, p.toJson = .ok json ∧ ∀ now', tryFrom now' json = .ok p := by
  intro p
  have hp : Printable 128 (.object p.rfcMembers) := .object (by norm_num) fun m hm => by
    simp only [p, rfcMembers, Option.map_some', Option.toList_some, Option.map_none',
      Option.toList_none, List.append_nil, List.cons_append, List.nil_append, List.mem_cons,
      List.mem_singleton, List.not_mem_nil, or_false] at hm
    rcases hm with rfl | rfl | rfl
    exacts [.string _, .string _, .posInt (Fin.isLt _)]
  have h : tryFrom unixEpoch (Value.object p.rfcMembers).write = .ok p := by
    rw [tryFrom_of_fromSlice _ (fromSlice_write hp.accepted), deserialize_rfcMembers]
  exact ⟨h, le_refl _, toJson_tryFrom_of_tryFrom h (le_refl _)⟩

end IssueAccessTokenSuccessParams

/-! ## The error params -/

/-- The variant names, by `rename_all = "snake_case"`. -/
def IssueAccessTokenErrorCode.name : IssueAccessTokenErrorCode → String
  | .invalidClient => "invalid_client"
  | .invalidGrant => "invalid_grant"
  | .invalidRequest => "invalid_request"
  | .invalidScope => "invalid_scope"
  | .unauthorizedClient => "unauthorized_client"
  | .unsupportedGrantType => "unsupported_grant_type"

/-- `VARIANTS`. -/
def errorCodes : List IssueAccessTokenErrorCode :=
  [.invalidClient, .invalidGrant, .invalidRequest, .invalidScope, .unauthorizedClient,
    .unsupportedGrantType]

/-- The variant visitor's `visit_str`: an unknown name is an error. -/
def IssueAccessTokenErrorCode.ofName (k : Str) : Except Error IssueAccessTokenErrorCode :=
  match errorCodes.find? fun c => k.bytes = utf8 c.name with
  | some c => .ok c
  | none => .error (.unknownVariant k (errorCodes.map IssueAccessTokenErrorCode.name))

@[simp] theorem IssueAccessTokenErrorCode.ofName_name (c : IssueAccessTokenErrorCode) :
    IssueAccessTokenErrorCode.ofName (Str.lit c.name) = .ok c := by
  cases c <;> rfl

/-- The derived `Deserialize` through `deserialize_enum`: a variant's name, or a map of one
member from it to the unit `null`. -/
def IssueAccessTokenErrorCode.deserialize : Value → Except Error IssueAccessTokenErrorCode
  | .string s => ofName s
  | .object ((k, v) :: rest) => do
    let c ← ofName k
    match v with
    | .null => if rest.isEmpty then pure c else throw (.malformed .expectedSomeValue)
    | v => throw (.invalidType v.unexpected "unit")
  | _ => .error (.malformed .expectedSomeValue)

/-- The derived `__Field` of the error params, `__ignore` apart. -/
inductive ErrorField
  | error
  | errorDescription
  | errorUri
  deriving DecidableEq

def ErrorField.name : ErrorField → String
  | .error => "error"
  | .errorDescription => "error_description"
  | .errorUri => "error_uri"

def errorFields : List ErrorField := [.error, .errorDescription, .errorUri]

/-- The field visitor's `visit_str`: `none` is `__ignore`. -/
def ErrorField.ofKey (k : Str) : Option ErrorField :=
  errorFields.find? fun f => k.bytes = utf8 f.name

@[simp] theorem ErrorField.ofKey_name (f : ErrorField) : ErrorField.ofKey (Str.lit f.name) = some f := by
  cases f <;> decide

/-- The fields the derived `visit_map` has read so far. -/
structure ErrorFields where
  error : Option IssueAccessTokenErrorCode := none
  errorDescription : Option (Option Str) := none
  errorUri : Option (Option Str) := none

/-- How the derived `visit_map` reads each field of the error params: once, by its type's
`Deserialize`. -/
def readErrorField : ErrorField → ErrorFields → Value → Except Error ErrorFields
  | .error, acc, v =>
    readField ErrorField.error.name acc.error.isSome (IssueAccessTokenErrorCode.deserialize v)
      fun x => { acc with error := some x }
  | .errorDescription, acc, v =>
    readField ErrorField.errorDescription.name acc.errorDescription.isSome
      (deserializeOption deserializeString v) fun x => { acc with errorDescription := some x }
  | .errorUri, acc, v =>
    readField ErrorField.errorUri.name acc.errorUri.isSome (deserializeOption deserializeString v)
      fun x => { acc with errorUri := some x }

/-- One key of the derived `visit_map` of the error params. -/
def visitErrorMember : ErrorFields → Str × Value → Except Error ErrorFields :=
  visitMember ErrorField.ofKey readErrorField

namespace IssueAccessTokenErrorParams

/-- The derived `Deserialize`. -/
def deserialize : Value → Except Error IssueAccessTokenErrorParams
  | .object ms => do
    let f ← ms.foldlM visitErrorMember {}
    let some error := f.error | throw (.missingField ErrorField.error.name)
    pure ⟨error, f.errorDescription.getD none, f.errorUri.getD none⟩
  | .array vs => do
    let exp := "struct IssueAccessTokenErrorParams with 3 elements"
    let (some error, vs) ← nextElement IssueAccessTokenErrorCode.deserialize vs
      | throw (.invalidLength 0 exp)
    let (some errorDescription, vs) ← nextElement (deserializeOption deserializeString) vs
      | throw (.invalidLength 1 exp)
    let (some errorUri, vs) ← nextElement (deserializeOption deserializeString) vs
      | throw (.invalidLength 2 exp)
    if !vs.isEmpty then throw (.malformed .trailingCharacters)
    pure ⟨error, errorDescription, errorUri⟩
  | v => .error (.invalidType v.unexpected "struct IssueAccessTokenErrorParams")

/-- `TryFrom<&[u8]> for IssueAccessTokenErrorParams`: `serde_json::from_slice`. -/
def tryFrom (bytes : List UInt8) : Except Error IssueAccessTokenErrorParams :=
  fromSliceStruct (fun k => (ErrorField.ofKey k).isSome) bytes >>= deserialize

/-- The derived `visit_map` skips the members that name no field. -/
theorem deserialize_onlyFields (v : Value) :
    deserialize (v.onlyFields fun k => (ErrorField.ofKey k).isSome) = deserialize v := by
  cases v
  case object ms => simp only [Value.onlyFields, deserialize, visitErrorMember,
    ← foldlM_visitMember_filter]
  all_goals rfl

/-- An error response as RFC 6749 §5.2 lays it out: the code by its name, then the description
and the URI when there are. -/
def rfcMembers (p : IssueAccessTokenErrorParams) : List (Str × Value) :=
  [(Str.lit ErrorField.error.name, .string (Str.lit p.error.name))] ++
    (p.errorDescription.map fun d => (Str.lit ErrorField.errorDescription.name, .string d)).toList ++
    (p.errorUri.map fun u => (Str.lit ErrorField.errorUri.name, .string u)).toList

/-- The response is read as the error it carries. -/
theorem deserialize_rfcMembers (p : IssueAccessTokenErrorParams) :
    deserialize (.object p.rfcMembers) = .ok p := by
  obtain ⟨c, d, u⟩ := p
  cases d <;> cases u <;>
    simp [rfcMembers, deserialize, List.foldlM, visitErrorMember, visitMember, readErrorField,
      readField, IssueAccessTokenErrorCode.deserialize, deserializeOption, deserializeString,
      bind, Except.bind, pure, Except.pure]

/-- The RFC layout names each field once. -/
theorem nodup_rfcMembers (p : IssueAccessTokenErrorParams) :
    (p.rfcMembers.map fun m => ErrorField.ofKey m.1).Nodup := by
  obtain ⟨c, d, u⟩ := p
  cases d <;> cases u <;> simp [rfcMembers]

end IssueAccessTokenErrorParams

end IoOauth
