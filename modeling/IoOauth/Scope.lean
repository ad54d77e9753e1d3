import IoOauth.FormUrlencoded

/-! The scope set of the authorization and refresh requests, and the loop that both inline to
join its tokens with single spaces. A `HashSet` iterates in an order the model leaves open: a
list without repetition, so every result here holds for every order. -/
namespace IoOauth

/-- `HashSet`, by the order it iterates in. -/
structure HashSet (α : Type) where
  elems : List α
  nodup : elems.Nodup

instance {α : Type} : Membership α (HashSet α) := ⟨fun s a => a ∈ s.elems⟩

@[simp] theorem HashSet.mem_iff {α : Type} {s : HashSet α} {a : α} : a ∈ s ↔ a ∈ s.elems :=
  Iff.rfl

/-- `is_empty`. -/
def HashSet.isEmpty {α : Type} (s : HashSet α) : Bool := s.elems.isEmpty

/-- One turn of the glue loop on `(scope, glue)`: push the glue, push the token, and the glue
is `" "` from then on. -/
def glueStep (acc : List UInt8 × List UInt8) (token : Str) : List UInt8 × List UInt8 :=
  (acc.1 ++ acc.2 ++ token.bytes, utf8 " ")

/-- The scope value both request builders write: the loop run from an empty string and glue. -/
def joinScope (tokens : List Str) : List UInt8 := (tokens.foldl glueStep ([], [])).1

theorem foldl_glueStep (tokens : List Str) (acc : List UInt8) :
    (tokens.foldl glueStep (acc, [0x20])).1 = acc ++ tokens.flatMap (0x20 :: ·.bytes) := by
  induction tokens generalizing acc with
  | nil => simp
  | cons t ts ih =>
    rw [List.foldl_cons, show glueStep (acc, [0x20]) t = (acc ++ [0x20] ++ t.bytes, [0x20]) from rfl,
      ih]
    simp

theorem joinScope_cons (t : Str) (ts : List Str) :
    joinScope (t :: ts) = t.bytes ++ ts.flatMap (0x20 :: ·.bytes) :=
  foldl_glueStep ts t.bytes

/-- The loop writes the tokens with one space between each two. -/
theorem joinScope_eq (tokens : List Str) :
    joinScope tokens = [0x20].intercalate (tokens.map Str.bytes) := by
  cases tokens with
  | nil => rfl
  | cons t ts =>
    rw [joinScope_cons, List.map_cons, FormUrlencoded.intercalate_cons_eq, List.flatMap_map]

theorem valid_joinScope (tokens : List Str) : Utf8.Valid (joinScope tokens) := by
  cases tokens with
  | nil => exact .nil
  | cons t ts =>
    rw [joinScope_cons]
    refine t.valid.append ?_
    induction ts with
    | nil => exact .nil
    | cons u us ih =>
      rw [List.flatMap_cons, List.cons_append, ← List.singleton_append]
      exact (Utf8.valid_of_ascii (by decide)).append (u.valid.append ih)

/-- Split on spaces, a scope value without spaces in its tokens gives back the tokens, each
once. -/
theorem splitOn_joinScope {s : HashSet Str} (hs : ∀ t ∈ s, (0x20 : UInt8) ∉ t.bytes)
    (hne : s.elems ≠ []) :
    let v := Str.fromUtf8Lossy (joinScope s.elems)
    (v.bytes.splitOn 0x20).Nodup ∧ ∀ x, x ∈ v.bytes.splitOn 0x20 ↔ ∃ t ∈ s, t.bytes = x := by
  have hv : (Str.fromUtf8Lossy (joinScope s.elems)).bytes = joinScope s.elems :=
    Utf8.fromUtf8Lossy_of_valid (valid_joinScope _)
  have hsplit : (joinScope s.elems).splitOn 0x20 = s.elems.map Str.bytes := by
    rw [joinScope_eq]
    exact List.splitOn_intercalate _ _ (by simpa using hs) (by simpa using hne)
  simp only [hv, hsplit, List.mem_map, HashSet.mem_iff]
  exact ⟨s.nodup.map fun _ _ h => Str.ext h, fun _ => trivial⟩

end IoOauth
