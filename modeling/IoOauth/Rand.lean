import Mathlib

/-! The part of `rand` 0.9 that `PkceCodeVerifier` draws with. A random source is seen through
what `Rng::random_range` answers: at its `k`-th call on `lo..hi` it gives `lo + draws k % (hi - lo)`.
Each function `draws` is one outcome, and every sequence of in-range answers is one of them. -/
namespace IoOauth.Rand

/-- A random source, by the answers it gives. -/
abbrev Rng := Nat → Nat

/-- Step `i` of `index::sample_inplace` on the index vector, read as a function: positions `i`
and `j` are swapped, for `j` drawn from `i..length`. -/
def swapStep (rng : Rng) (length : Nat) (indices : Nat → Nat) (i : Nat) : Nat → Nat :=
  indices ∘ Equiv.swap i (i + rng i % (length - i))

/-- `index::sample_inplace`: a partial Fisher–Yates shuffle of `0..length`, of which the first
`amount` positions are kept. -/
def sampleInplace (rng : Rng) (length amount : Nat) : List Nat :=
  (List.range amount).map ((List.range amount).foldl (swapStep rng length) id)

/-- `IndexedRandom::choose_multiple`: `amount` is cut to the slice's length, then the slice is
read at `index::sample`'s indices. On the one call of this crate, 66 symbols and 43 to 66
indices, `index::sample` runs `sample_inplace`. -/
def chooseMultiple {α : Type} [Inhabited α] (rng : Rng) (slice : List α) (amount : Nat) :
    List α :=
  let amount := min amount slice.length
  (sampleInplace rng slice.length amount).map (slice.getD · default)

/-- Step `i` of Floyd's algorithm, for `j = start + i`. -/
def floydStep (rng : Rng) (start : Nat) (indices : List Nat) (i : Nat) : List Nat :=
  let j := start + i
  let t := rng i % (j + 1)
  (if t ∈ indices then indices.set (indices.indexOf t) j else indices) ++ [t]

/-- `index::sample_array`, Floyd's combination algorithm: for `j` from `len - n` up, `t` is
drawn from `0..=j`; a `t` already taken has its place given to `j`, then `t` is pushed. -/
def sampleArray (rng : Rng) (len n : Nat) : Option (List Nat) :=
  if n > len then none else some ((List.range n).foldl (floydStep rng (len - n)) [])

/-- `IndexedRandom::choose_multiple_array`. -/
def chooseMultipleArray {α : Type} [Inhabited α] (rng : Rng) (slice : List α) (n : Nat) :
    Option (List α) :=
  (sampleArray rng slice.length n).map (·.map (slice.getD · default))

/-! ### Sampling without replacement -/

/-- The partial shuffle keeps positions below `length` below `length`. -/
theorem foldl_swapStep_lt {rng : Rng} {length : Nat} {l : List Nat} (hl : ∀ i ∈ l, i < length) :
    ∀ (f : Nat → Nat), (∀ k < length, f k < length) →
      ∀ k < length, l.foldl (swapStep rng length) f k < length := by
  induction l with
  | nil => exact fun f hf => hf
  | cons i l ih =>
    intro f hf
    have hi := hl i (by simp)
    refine ih (fun j hj => hl j (by simp [hj])) _ fun k hk => hf _ ?_
    have hr : rng i % (length - i) < length - i := Nat.mod_lt _ (by omega)
    rw [Equiv.swap_apply_def]
    split_ifs <;> omega

theorem foldl_swapStep_injective (rng : Rng) (length : Nat) (l : List Nat) :
    ∀ (f : Nat → Nat), Function.Injective f →
      Function.Injective (l.foldl (swapStep rng length) f) := by
  induction l with
  | nil => exact fun f hf => hf
  | cons i l ih => exact fun f hf => ih _ (hf.comp (Equiv.injective _))

@[simp] theorem length_sampleInplace (rng : Rng) (length amount : Nat) :
    (sampleInplace rng length amount).length = amount := by
  simp [sampleInplace]

theorem lt_of_mem_sampleInplace {rng : Rng} {length amount i : Nat} (h : amount ≤ length)
    (hi : i ∈ sampleInplace rng length amount) : i < length := by
  obtain ⟨k, hk, rfl⟩ := List.mem_map.mp hi
  have hk' := List.mem_range.mp hk
  exact foldl_swapStep_lt (fun j hj => by have := List.mem_range.mp hj; omega) id
    (fun _ h => h) k (by omega)

/-- No index is drawn twice. -/
theorem nodup_sampleInplace (rng : Rng) (length amount : Nat) :
    (sampleInplace rng length amount).Nodup :=
  (List.nodup_range amount).map (foldl_swapStep_injective rng length _ id Function.injective_id)

theorem length_chooseMultiple {α : Type} [Inhabited α] (rng : Rng) (slice : List α) (amount : Nat) :
    (chooseMultiple rng slice amount).length = min amount slice.length := by
  simp [chooseMultiple]

theorem mem_of_mem_chooseMultiple {α : Type} [Inhabited α] {rng : Rng} {slice : List α}
    {amount : Nat} {x : α} (h : x ∈ chooseMultiple rng slice amount) : x ∈ slice := by
  obtain ⟨i, hi, rfl⟩ := List.mem_map.mp h
  have := lt_of_mem_sampleInplace (min_le_right _ _) hi
  rw [List.getD_eq_getElem _ _ this]
  exact List.getElem_mem this

/-- Sampling without replacement: from a slice without repetition, no element is chosen
twice. -/
theorem nodup_chooseMultiple {α : Type} [Inhabited α] (rng : Rng) {slice : List α}
    (h : slice.Nodup) (amount : Nat) : (chooseMultiple rng slice amount).Nodup := by
  have hlt : ∀ i ∈ sampleInplace rng slice.length (min amount slice.length), i < slice.length :=
    fun i hi => lt_of_mem_sampleInplace (min_le_right _ _) hi
  refine (nodup_sampleInplace rng _ _).map_on fun i hi j hj hij => ?_
  rw [List.getD_eq_getElem _ _ (hlt i hi), List.getD_eq_getElem _ _ (hlt j hj)] at hij
  exact h.getElem_inj_iff.mp hij

theorem length_floydStep (rng : Rng) (start : Nat) (acc : List Nat) (i : Nat) :
    (floydStep rng start acc i).length = acc.length + 1 := by
  unfold floydStep
  dsimp only
  split_ifs <;> simp

/-- A step of Floyd's loop keeps the indices it had, but for the one whose place goes to
`start + i`, and pushes one drawn from `0..=start + i`. -/
theorem mem_floydStep {rng : Rng} {start i x : Nat} {acc : List Nat}
    (hx : x ∈ floydStep rng start acc i) : x ∈ acc ∨ x < start + i + 1 := by
  unfold floydStep at hx
  rcases List.mem_append.mp hx with hx | hx
  · split_ifs at hx
    · rcases List.mem_or_eq_of_mem_set hx with hx | rfl
      · exact .inl hx
      · exact .inr (Nat.lt_succ_self _)
    · exact .inl hx
  · exact .inr (List.mem_singleton.mp hx ▸ Nat.mod_lt _ (Nat.succ_pos _))

theorem foldl_floydStep (rng : Rng) (start : Nat) (l : List Nat) (acc : List Nat) (bound : Nat)
    (hl : ∀ i ∈ l, start + i < bound) (hacc : ∀ x ∈ acc, x < bound) :
    (l.foldl (floydStep rng start) acc).length = acc.length + l.length ∧
      ∀ x ∈ l.foldl (floydStep rng start) acc, x < bound := by
  induction l generalizing acc with
  | nil => simpa using hacc
  | cons i l ih =>
    have hi := hl i (List.mem_cons_self i l)
    obtain ⟨h1, h2⟩ := ih _ (fun j hj => hl j (List.mem_cons_of_mem i hj))
      fun x hx => (mem_floydStep hx).elim (hacc x) fun h => Nat.lt_of_lt_of_le h hi
    rw [List.foldl_cons]
    exact ⟨by rw [h1, length_floydStep, List.length_cons]; omega, h2⟩

/-- Taking `t`'s place away from the only `t` of a list leaves no `t`. -/
theorem not_mem_set_indexOf {l : List Nat} (hn : l.Nodup) {t j : Nat} (hj : j ≠ t) :
    t ∉ l.set (l.indexOf t) j := by
  intro h
  obtain ⟨k, hk, hkt⟩ := List.getElem_of_mem h
  rw [List.getElem_set] at hkt
  split_ifs at hkt with hki
  · exact hj hkt
  · have hidx : l.indexOf t < l.length := List.indexOf_lt_length.mpr (hkt ▸ List.getElem_mem _)
    exact hki (hn.getElem_inj_iff.mp ((List.getElem_indexOf hidx).trans hkt.symm))

/-- Step `i` of Floyd's algorithm keeps the indices distinct, all of them below `j + 1` where
they were below `j`. -/
theorem floydStep_nodup {rng : Rng} {start i : Nat} {acc : List Nat} (hn : acc.Nodup)
    (hlt : ∀ x ∈ acc, x < start + i) :
    (floydStep rng start acc i).Nodup ∧ ∀ x ∈ floydStep rng start acc i, x < start + i + 1 := by
  refine ⟨?_, fun x hx => (mem_floydStep hx).elim (fun h => Nat.lt_succ_of_lt (hlt x h)) id⟩
  have hj : start + i ∉ acc := fun h => Nat.lt_irrefl _ (hlt _ h)
  unfold floydStep
  dsimp only
  split_ifs with hmem
  · exact (hn.set hj).append (List.nodup_singleton _)
      (List.disjoint_singleton.mpr (not_mem_set_indexOf hn (Nat.ne_of_gt (hlt _ hmem))))
  · exact hn.append (List.nodup_singleton _) (List.disjoint_singleton.mpr hmem)

/-- Floyd's algorithm draws without replacement. -/
theorem nodup_foldl_floydStep (rng : Rng) (start n : Nat) :
    ((List.range n).foldl (floydStep rng start) []).Nodup ∧
      ∀ x ∈ (List.range n).foldl (floydStep rng start) [], x < start + n := by
  induction n with
  | zero => simp
  | succ n ih =>
    rw [List.range_succ, List.foldl_append, List.foldl_cons, List.foldl_nil]
    exact floydStep_nodup ih.1 ih.2

/-- `sample_array` answers when `n ≤ len`, with `n` indices below `len`. -/
theorem sampleArray_spec (rng : Rng) {len n : Nat} (h : n ≤ len) :
    ∃ l, sampleArray rng len n = some l ∧ l.length = n ∧ ∀ x ∈ l, x < len := by
  obtain ⟨h1, h2⟩ := foldl_floydStep rng (len - n) (List.range n) [] len
    (fun i hi => by have := List.mem_range.mp hi; omega) (by simp)
  exact ⟨_, if_neg (by omega), by simpa using h1, h2⟩

theorem chooseMultipleArray_spec {α : Type} [Inhabited α] (rng : Rng) {slice : List α} {n : Nat}
    (h : n ≤ slice.length) :
    ∃ l, chooseMultipleArray rng slice n = some l ∧ l.length = n ∧ ∀ x ∈ l, x ∈ slice := by
  obtain ⟨l, hl, hlen, hlt⟩ := sampleArray_spec rng h
  refine ⟨_, by rw [chooseMultipleArray, hl]; rfl, by simpa using hlen, fun x hx => ?_⟩
  obtain ⟨i, hi, rfl⟩ := List.mem_map.mp hx
  rw [List.getD_eq_getElem _ _ (hlt i hi)]
  exact List.getElem_mem _

/-- From a slice without repetition, `choose_multiple_array` chooses no element twice. -/
theorem nodup_chooseMultipleArray {α : Type} [Inhabited α] (rng : Rng) {slice : List α}
    (hs : slice.Nodup) {n : Nat} {l : List α} (h : chooseMultipleArray rng slice n = some l) :
    l.Nodup := by
  unfold chooseMultipleArray sampleArray at h
  split_ifs at h with hn
  · cases h
  obtain ⟨hnd, hlt⟩ := nodup_foldl_floydStep rng (slice.length - n) n
  rw [Option.map_some', Option.some.injEq] at h
  subst h
  refine hnd.map_on fun i hi j hj hij => ?_
  have hi' := hlt i hi; have hj' := hlt j hj
  rw [List.getD_eq_getElem _ _ (by omega), List.getD_eq_getElem _ _ (by omega)] at hij
  exact hs.getElem_inj_iff.mp hij

end IoOauth.Rand
