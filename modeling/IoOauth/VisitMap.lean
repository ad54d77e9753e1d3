import IoOauth.IssueAccessTokenJson

/-! Which maps the derived `Deserialize`s read, field by field. The laws a derived `visit_map`
keeps are stated once (`Fields`), the slot each field leaves after a whole run is derived from
them by induction on the members, and each params struct supplies its slots. -/
namespace IoOauth

open Json

/-- The members of `ms` that name the field `f`. -/
def named {φ : Type} [DecidableEq φ] (ofKey : Str → Option φ) (f : φ) (ms : List (Str × Value)) :
    List (Str × Value) :=
  ms.filter fun m => ofKey m.1 = some f

/-- How a derived `visit_map` keeps its fields: a slot per field `f`, of the field's type, that
`get` shows and `dec` fills. Reading a field fills its slot, only when it is empty and the value
reads as the field's type, and leaves the other slots; an accumulator is its slots. -/
structure Fields (φ σ : Type) (read : φ → σ → Value → Except Error σ) : Type 1 where
  type : φ → Type
  get : (f : φ) → σ → Option (type f)
  dec : (f : φ) → Value → Except Error (type f)
  own : ∀ f acc v acc', read f acc v = .ok acc' →
    get f acc = none ∧ ∃ a, dec f v = .ok a ∧ get f acc' = some a
  other : ∀ f g acc v acc', g ≠ f → read f acc v = .ok acc' → get g acc' = get g acc
  total : ∀ f acc v a, get f acc = none → dec f v = .ok a → ∃ acc', read f acc v = .ok acc'
  ext : ∀ acc acc', (∀ f, get f acc = get f acc') → acc = acc'

namespace Fields

variable {φ σ : Type} [DecidableEq φ] {ofKey : Str → Option φ}
  {read : φ → σ → Value → Except Error σ} (F : Fields φ σ read)

theorem named_cons (f : φ) (k : Str) (v : Value) (ms : List (Str × Value)) :
    named ofKey f ((k, v) :: ms) = if ofKey k = some f then (k, v) :: named ofKey f ms
      else named ofKey f ms := by
  by_cases h : ofKey k = some f <;> simp [named, List.filter_cons, h]

/-- What a run of the derived `visit_map` leaves in the slot of `f`: what was there, when no
member names `f`, or else, from an empty slot, the reading of the one member naming it. -/
theorem foldlM_slot (f : φ) {ms : List (Str × Value)} {acc acc' : σ}
    (h : ms.foldlM (visitMember ofKey read) acc = .ok acc') :
    (named ofKey f ms = [] ∧ F.get f acc' = F.get f acc) ∨
      (F.get f acc = none ∧ ∃ a, F.get f acc' = some a ∧
        (named ofKey f ms).map (F.dec f ·.2) = [.ok a]) := by
  induction ms generalizing acc with
  | nil => cases h; exact .inl ⟨rfl, rfl⟩
  | cons m ms ih =>
    obtain ⟨k, v⟩ := m
    rw [List.foldlM_cons, except_bind_eq_ok] at h
    obtain ⟨a1, h1, h⟩ := h
    rw [named_cons]
    cases hk : ofKey k with
    | none =>
      simp only [visitMember, hk, Except.ok.injEq] at h1
      subst h1
      simpa using ih h
    | some g =>
      simp only [visitMember, hk] at h1
      by_cases hg : g = f
      · subst hg
        obtain ⟨h0, a, ha, hf⟩ := F.own g _ _ _ h1
        rcases ih h with ⟨hn, hget⟩ | ⟨hnone, -⟩
        · exact .inr ⟨h0, a, hget.trans hf, by simp [hn, ha]⟩
        · rw [hf] at hnone; cases hnone
      · have hkeep := F.other g f _ _ _ (Ne.symm hg) h1
        simpa [hg, hkeep] using ih h

omit [DecidableEq φ] in
/-- From slots empty for the fields its members name, the derived `visit_map` runs through every
map that names each field at most once and whose members naming a field read as its type. -/
theorem foldlM_ok {ms : List (Str × Value)} (hnd : (ms.filterMap fun m => ofKey m.1).Nodup)
    (hr : ∀ m ∈ ms, ∀ f, ofKey m.1 = some f → ∃ a, F.dec f m.2 = .ok a)
    {acc : σ} (hs : ∀ m ∈ ms, ∀ f, ofKey m.1 = some f → F.get f acc = none) :
    ∃ acc', ms.foldlM (visitMember ofKey read) acc = .ok acc' := by
  induction ms generalizing acc with
  | nil => exact ⟨acc, rfl⟩
  | cons m ms ih =>
    obtain ⟨k, v⟩ := m
    simp only [List.foldlM_cons, except_bind_eq_ok]
    cases hk : ofKey k with
    | none =>
      simp only [List.filterMap_cons, hk] at hnd
      obtain ⟨acc', h⟩ := ih hnd (fun m hm => hr m (.tail _ hm)) fun m hm => hs m (.tail _ hm)
      exact ⟨acc', acc, by simp only [visitMember, hk], h⟩
    | some f =>
      simp only [List.filterMap_cons, hk, List.nodup_cons, List.mem_filterMap] at hnd
      obtain ⟨a, ha⟩ := hr _ (.head _) f hk
      obtain ⟨a1, h1⟩ := F.total f acc v a (hs _ (.head _) f hk) ha
      obtain ⟨acc', h⟩ := ih hnd.2 (fun m hm => hr m (.tail _ hm)) fun m hm g hg => by
        have hgf : g ≠ f := fun e => hnd.1 ⟨m, hm, e ▸ hg⟩
        rw [F.other f g _ _ _ hgf h1]
        exact hs m (.tail _ hm) g hg
      exact ⟨acc', a1, by simpa only [visitMember, hk] using h1, h⟩

theorem count_filterMap (f : φ) (ms : List (Str × Value)) :
    (ms.filterMap fun m => ofKey m.1).count f = (named ofKey f ms).length := by
  induction ms with
  | nil => rfl
  | cons m ms ih =>
    obtain ⟨k, v⟩ := m
    rw [named_cons]
    cases hk : ofKey k with
    | none => simp [hk, ih]
    | some g => by_cases hg : g = f <;> simp [hk, hg, ih, List.count_cons]

include F in
/-- Reads of two different fields commute: each fills its own slot and leaves the others. -/
theorem readsCommute : ReadsCommute read := by
  intro f g acc a1 a2 x y hfg h1 h2
  obtain ⟨hg0, ag, hag, hg1⟩ := F.own g acc y a1 h1
  obtain ⟨hf1, af, haf, hf2⟩ := F.own f a1 x a2 h2
  obtain ⟨b, hb⟩ := F.total f acc x af ((F.other g f acc y a1 hfg h1).symm.trans hf1) haf
  obtain ⟨c, hc⟩ := F.total g b y ag ((F.other f g acc x b hfg.symm hb).trans hg0) hag
  refine ⟨b, hb, hc.trans (congrArg _ (F.ext c a2 fun k => ?_))⟩
  by_cases hkg : k = g
  · subst hkg
    obtain ⟨-, a, ha, hc'⟩ := F.own k b y c hc
    obtain rfl := Except.ok.inj (ha.symm.trans hag)
    rw [hc', F.other f k a1 x a2 hfg.symm h2, hg1]
  by_cases hkf : k = f
  · subst hkf
    obtain ⟨-, a, ha, hb'⟩ := F.own k acc x b hb
    obtain rfl := Except.ok.inj (ha.symm.trans haf)
    rw [F.other g k b y c hfg hc, hb', hf2]
  rw [F.other g k b y c hkg hc, F.other f k acc x b hkf hb, F.other f k a1 x a2 hkf h2,
    F.other g k acc y a1 hkg h1]

theorem toList_map_ok_inj {ε α : Type} {o o' : Option α}
    (h : (o.map (Except.ok (ε := ε))).toList = (o'.map .ok).toList) : o = o' := by
  cases o <;> cases o' <;> simp_all

variable (ofKey) in
/-- From an accumulator with every slot empty, the derived `visit_map` reads a map into `acc`
exactly when each slot of `acc` holds the reading of the members naming its field: none of them
for an empty slot, one for a full one. -/
theorem foldlM_eq_ok_iff {acc₀ : σ} (h₀ : ∀ f, F.get f acc₀ = none) (ms : List (Str × Value))
    (acc : σ) :
    ms.foldlM (visitMember ofKey read) acc₀ = .ok acc ↔
      ∀ f, (named ofKey f ms).map (F.dec f ·.2) = ((F.get f acc).map .ok).toList := by
  have slot : ∀ {acc}, ms.foldlM (visitMember ofKey read) acc₀ = .ok acc → ∀ f,
      (named ofKey f ms).map (F.dec f ·.2) = ((F.get f acc).map .ok).toList := fun h f => by
    rcases F.foldlM_slot f h with ⟨hn, hget⟩ | ⟨-, a, ha, hmap⟩
    · rw [hn, hget, h₀]; rfl
    · rw [hmap, ha]; rfl
  refine ⟨slot, fun h => ?_⟩
  have hnd : (ms.filterMap fun m => ofKey m.1).Nodup := by
    refine List.nodup_iff_count_le_one.mpr fun f => ?_
    rw [count_filterMap, ← List.length_map _ (F.dec f ·.2), h f]
    cases F.get f acc <;> simp
  have hr : ∀ m ∈ ms, ∀ f, ofKey m.1 = some f → ∃ a, F.dec f m.2 = .ok a := fun m hm f hf => by
    have hm' := List.mem_map_of_mem (F.dec f ·.2)
      (show m ∈ named ofKey f ms from List.mem_filter.mpr ⟨hm, decide_eq_true hf⟩)
    rw [h f] at hm'
    cases hx : F.get f acc <;> simp only [hx, Option.map_none', Option.map_some', Option.toList_none,
      Option.toList_some, List.not_mem_nil, List.mem_singleton] at hm'
    exact ⟨_, hm'⟩
  obtain ⟨acc', h'⟩ := F.foldlM_ok hnd hr fun _ _ f _ => h₀ f
  rw [h', F.ext acc' acc fun f => toList_map_ok_inj ((slot h' f).symm.trans (h f))]

end Fields

/-! ## The success params -/

/-- The type each field of the success params reads as. -/
def SuccessField.type : SuccessField → Type
  | .accessToken => Str
  | .tokenType => Str
  | .expiresIn => Option (Fin (2 ^ 64))
  | .refreshToken => Option Str
  | .scope => Option Str
  | .issuedAt => SystemTime

/-- The slots of the derived `visit_map` of the success params, the secrets shown exposed. -/
def successSlots : Fields SuccessField SuccessFields readSuccessField where
  type := SuccessField.type
  get
    | .accessToken, acc => acc.accessToken.map SecretString.exposeSecret
    | .tokenType, acc => acc.tokenType
    | .expiresIn, acc => acc.expiresIn
    | .refreshToken, acc => acc.refreshToken.map (Option.map SecretString.exposeSecret)
    | .scope, acc => acc.scope
    | .issuedAt, acc => acc.issuedAt
  dec
    | .accessToken => deserializeString
    | .tokenType => deserializeString
    | .expiresIn => deserializeOption (deserializeUnsigned 64 "usize")
    | .refreshToken => deserializeOption deserializeString
    | .scope => deserializeOption deserializeString
    | .issuedAt => SystemTime.deserialize
  own := by
    intro f acc v acc' h
    cases f <;> simp only [readSuccessField, readField_eq_ok] at h <;> obtain ⟨hs, a, ha, rfl⟩ := h <;>
      refine ⟨by simpa using hs, a, ha, ?_⟩
    all_goals first | rfl | cases a <;> rfl
  other := by
    intro f g acc v acc' hgf h
    cases f <;> simp only [readSuccessField, readField_eq_ok] at h <;> obtain ⟨-, a, -, rfl⟩ := h <;>
      cases g <;> first | rfl | exact absurd rfl hgf
  total := by
    intro f acc v a hs ha
    cases f <;> dsimp only at hs ha <;> (try simp only [Option.map_eq_none'] at hs) <;>
      exact ⟨_, by simp only [readSuccessField, readField, hs, Option.isSome_none, Bool.false_eq_true,
        if_false, ha]; rfl⟩
  ext := by
    rintro ⟨a, t, e, r, s, i⟩ ⟨a', t', e', r', s', i'⟩ h
    have hinj : Function.Injective SecretString.exposeSecret := fun ⟨_⟩ ⟨_⟩ h => congrArg _ h
    simp only [SuccessFields.mk.injEq]
    exact ⟨Option.map_injective hinj (h .accessToken), h .tokenType, h .expiresIn,
      Option.map_injective (Option.map_injective hinj) (h .refreshToken), h .scope, h .issuedAt⟩

namespace IssueAccessTokenSuccessParams

/-- A server's successful response is read whatever the order of its members: as the token it
carries, issued at the reading of the clock. -/
theorem deserialize_perm_rfcMembers (now : SystemTime) {p : IssueAccessTokenSuccessParams}
    {ms : List (Str × Value)} (hperm : ms.Perm p.rfcMembers) :
    deserialize now (.object ms) = .ok { p with issuedAt := now } := by
  obtain ⟨r, hr, -⟩ := except_bind_eq_ok.mp (deserialize_rfcMembers now p)
  have hms : ms.foldlM visitSuccessMember {} = .ok r :=
    foldlM_visitMember_perm successSlots.readsCommute hperm.symm (nodup_rfcMembers p) hr
  rw [← deserialize_rfcMembers now p, deserialize, deserialize, hr, hms]

/-- The derived `Deserialize` reads a map as the params its `visit_map` leaves: the required
fields read, the others or their defaults. -/
theorem deserialize_object_eq_ok {now : SystemTime} {ms : List (Str × Value)}
    {p : IssueAccessTokenSuccessParams} :
    deserialize now (.object ms) = .ok p ↔ ∃ acc, ms.foldlM visitSuccessMember {} = .ok acc ∧
      acc.accessToken = some p.accessToken ∧ acc.tokenType = some p.tokenType ∧
      acc.expiresIn.getD none = p.expiresIn ∧ acc.refreshToken.getD none = p.refreshToken ∧
      acc.scope.getD none = p.scope ∧ acc.issuedAt.getD now = p.issuedAt := by
  simp only [deserialize, except_bind_eq_ok]
  refine exists_congr fun acc => and_congr_right fun _ => ?_
  rcases acc with ⟨_ | a, _ | t, e, r, s, i⟩ <;>
    simp only [reduceCtorEq, false_and, and_false, throw, throwThe, MonadExceptOf.throw,
      Option.some.injEq, pure, Except.pure, Except.ok.injEq]
  rcases p with ⟨a', t', e', r', s', i'⟩
  simp only [mk.injEq]

/-- The derived `Deserialize` on a map, field by field: it reads the params `p` exactly when
the members naming `access_token` and `token_type` are one each and read as `p`'s, and the
members naming each other field are none, `p` holding the default (`None`, or the clock's
reading for `issued_at`), or one, read as `p`'s. Members naming no field are skipped. -/
theorem deserialize_success_object_eq_ok_iff (now : SystemTime) (ms : List (Str × Value))
    (p : IssueAccessTokenSuccessParams) :
    deserialize now (.object ms) = .ok p ↔
      (named SuccessField.ofKey .accessToken ms).map (deserializeString ·.2) =
          [.ok p.accessToken.exposeSecret] ∧
        (named SuccessField.ofKey .tokenType ms).map (deserializeString ·.2) = [.ok p.tokenType] ∧
        ∃ (e : Option (Option (Fin (2 ^ 64)))) (r s : Option (Option Str)) (i : Option SystemTime),
          (named SuccessField.ofKey .expiresIn ms).map
              (deserializeOption (deserializeUnsigned 64 "usize") ·.2) = (e.map .ok).toList ∧
            (named SuccessField.ofKey .refreshToken ms).map
              (deserializeOption deserializeString ·.2) = (r.map .ok).toList ∧
            (named SuccessField.ofKey .scope ms).map (deserializeOption deserializeString ·.2) =
              (s.map .ok).toList ∧
            (named SuccessField.ofKey .issuedAt ms).map (SystemTime.deserialize ·.2) =
              (i.map .ok).toList ∧
            p.expiresIn = e.getD none ∧ p.refreshToken = (r.getD none).map SecretString.mk ∧
            p.scope = s.getD none ∧ p.issuedAt = i.getD now := by
  have hfold := successSlots.foldlM_eq_ok_iff SuccessField.ofKey
    (show ∀ f, successSlots.get f ({} : SuccessFields) = none from fun f => by cases f <;> rfl) ms
  rw [deserialize_object_eq_ok]
  constructor
  · rintro ⟨acc, hf, ha, ht, he, hr, hs, hi⟩
    have H := (hfold acc).mp hf
    refine ⟨by simpa [successSlots, ha] using H .accessToken,
      by simpa [successSlots, ht] using H .tokenType, acc.expiresIn,
      acc.refreshToken.map (Option.map SecretString.exposeSecret), acc.scope, acc.issuedAt,
      H .expiresIn, H .refreshToken, H .scope, H .issuedAt, he.symm, ?_, hs.symm, hi.symm⟩
    rw [← hr]
    rcases acc.refreshToken with _ | _ | _ <;> rfl
  · rintro ⟨ha, ht, e, r, s, i, he, hr, hs, hi, he', hr', hs', hi'⟩
    refine ⟨⟨some p.accessToken, some p.tokenType, e, r.map (Option.map SecretString.mk), s, i⟩,
      (hfold _).mpr fun f => ?_, rfl, rfl, he'.symm, ?_, hs'.symm, hi'.symm⟩
    · cases f
      case accessToken => simpa [successSlots] using ha
      case tokenType => simpa [successSlots] using ht
      case refreshToken => rcases r with _ | _ | _ <;> exact hr
      all_goals assumption
    · rw [hr']
      rcases r with _ | _ | _ <;> rfl

end IssueAccessTokenSuccessParams

/-! ## The error params -/

/-- The type each field of the error params reads as. -/
def ErrorField.type : ErrorField → Type
  | .error => IssueAccessTokenErrorCode
  | .errorDescription => Option Str
  | .errorUri => Option Str

/-- The slots of the derived `visit_map` of the error params. -/
def errorSlots : Fields ErrorField ErrorFields readErrorField where
  type := ErrorField.type
  get
    | .error, acc => acc.error
    | .errorDescription, acc => acc.errorDescription
    | .errorUri, acc => acc.errorUri
  dec
    | .error => IssueAccessTokenErrorCode.deserialize
    | .errorDescription => deserializeOption deserializeString
    | .errorUri => deserializeOption deserializeString
  own := by
    intro f acc v acc' h
    cases f <;> simp only [readErrorField, readField_eq_ok] at h <;> obtain ⟨hs, a, ha, rfl⟩ := h <;>
      exact ⟨by simpa using hs, a, ha, rfl⟩
  other := by
    intro f g acc v acc' hgf h
    cases f <;> simp only [readErrorField, readField_eq_ok] at h <;> obtain ⟨-, a, -, rfl⟩ := h <;>
      cases g <;> first | rfl | exact absurd rfl hgf
  total := by
    intro f acc v a hs ha
    cases f <;> dsimp only at hs ha <;>
      exact ⟨_, by simp only [readErrorField, readField, hs, Option.isSome_none, Bool.false_eq_true,
        if_false, ha]; rfl⟩
  ext := by
    rintro ⟨e, d, u⟩ ⟨e', d', u'⟩ h
    simp only [ErrorFields.mk.injEq]
    exact ⟨h .error, h .errorDescription, h .errorUri⟩

namespace IssueAccessTokenErrorParams

/-- A server's error response is read whatever the order of its members: as the error it
carries. -/
theorem deserialize_perm_rfcMembers {p : IssueAccessTokenErrorParams} {ms : List (Str × Value)}
    (hperm : ms.Perm p.rfcMembers) : deserialize (.object ms) = .ok p := by
  obtain ⟨r, hr, -⟩ := except_bind_eq_ok.mp (deserialize_rfcMembers p)
  have hms : ms.foldlM visitErrorMember {} = .ok r :=
    foldlM_visitMember_perm errorSlots.readsCommute hperm.symm (nodup_rfcMembers p) hr
  rw [← deserialize_rfcMembers p, deserialize, deserialize, hr, hms]

/-- The derived `Deserialize` on a map, field by field: it reads the params `p` exactly when the
members naming `error` are one, read as `p`'s code, and the members naming `error_description`
or `error_uri` are none, `p` holding `None`, or one, read as `p`'s. -/
theorem deserialize_error_object_eq_ok_iff (ms : List (Str × Value)) (p : IssueAccessTokenErrorParams) :
    deserialize (.object ms) = .ok p ↔
      (named ErrorField.ofKey .error ms).map (IssueAccessTokenErrorCode.deserialize ·.2) =
          [.ok p.error] ∧
        ∃ d u : Option (Option Str),
          (named ErrorField.ofKey .errorDescription ms).map
              (deserializeOption deserializeString ·.2) = (d.map .ok).toList ∧
            (named ErrorField.ofKey .errorUri ms).map (deserializeOption deserializeString ·.2) =
              (u.map .ok).toList ∧
            p.errorDescription = d.getD none ∧ p.errorUri = u.getD none := by
  have hfold := errorSlots.foldlM_eq_ok_iff ErrorField.ofKey
    (show ∀ f, errorSlots.get f ({} : ErrorFields) = none from fun f => by cases f <;> rfl) ms
  simp only [deserialize, except_bind_eq_ok]
  constructor
  · rintro ⟨acc, hf, h⟩
    have H := (hfold acc).mp hf
    rcases acc with ⟨_ | c, d, u⟩
    · cases h
    · cases h
      exact ⟨H .error, d, u, H .errorDescription, H .errorUri, rfl, rfl⟩
  · rintro ⟨hc, d, u, hd, hu, hd', hu'⟩
    refine ⟨⟨some p.error, d, u⟩, (hfold _).mpr fun f => ?_, ?_⟩
    · cases f <;> assumption
    · rw [← hd', ← hu']
      rfl

end IssueAccessTokenErrorParams

end IoOauth
