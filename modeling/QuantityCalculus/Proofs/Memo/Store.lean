import Mathlib.Data.List.Nodup
import QuantityCalculus.Memo

/-! A memo as a bounded map. An insertion is refused exactly if its key is absent and the memo is full.
Otherwise it makes the unit that of its key and leaves all other keys alone. Keys stay distinct, there
are never more of them than the capacity, and only a full memo is saturated. -/

namespace QuantityCalculus.Memo

variable {m : Memo} {key k : String} {unit : CompoundUnit}

/-- The keys in the order in which they were stored. -/
def keys (m : Memo) : List String := m.entries.map Prod.fst

theorem length_keys (m : Memo) : m.keys.length = m.size := List.length_map _

theorem contains_iff : m.contains k = true ↔ k ∈ m.keys := by
  obtain ⟨entries, capacity, saturated⟩ := m
  show (entries.lookup k).isSome = true ↔ k ∈ entries.map Prod.fst
  simp

/-! ### Replacing or appending an entry -/

theorem lookup_put (key k : String) (unit : CompoundUnit) (entries : List (String × CompoundUnit)) :
    (put key unit entries).lookup k = if k = key then some unit else entries.lookup k := by
  induction entries with
  | nil => grind [put]
  | cons e entries ih => grind [put]

theorem keys_put (key : String) (unit : CompoundUnit) (entries : List (String × CompoundUnit)) :
    (put key unit entries).map Prod.fst =
      if key ∈ entries.map Prod.fst then entries.map Prod.fst
      else entries.map Prod.fst ++ [key] := by
  induction entries with
  | nil => rfl
  | cons e entries ih =>
    obtain ⟨k, u⟩ := e
    by_cases hk : k = key
    · simp [put, hk]
    · have hne : key ≠ k := fun h => hk h.symm
      rw [put, if_neg hk, List.map_cons, ih]
      by_cases hmem : key ∈ entries.map Prod.fst
      · simp [hmem]
      · rw [if_neg hmem, if_neg (by simp [hne, hmem])]
        rfl

/-! ### Insertions -/

/-- Everything that an insertion can do. -/
theorem insert_cases (m : Memo) (key : String) (unit : CompoundUnit) :
    m.contains key = false ∧ m.capacity ≤ m.size ∧
        m.insert key unit = (false, { m with saturated := true }) ∨
      (m.contains key = true ∨ m.size < m.capacity) ∧
        m.insert key unit = (true, { m with entries := put key unit m.entries }) := by
  unfold insert
  split_ifs with h
  · exact .inl ⟨h.2, h.1, rfl⟩
  · refine .inr ⟨?_, rfl⟩
    cases hc : m.contains key with
    | true => exact .inl rfl
    | false => exact .inr (Nat.not_le.1 fun hle => h ⟨hle, hc⟩)

/-- The law of a single insertion. -/
structure InsertionLaw (m : Memo) (key : String) (unit : CompoundUnit) : Prop where
  isStored_iff : (m.insert key unit).1 = true ↔ m.contains key = true ∨ m.size < m.capacity
  stored : (m.insert key unit).1 = true →
    (m.insert key unit).2.get? key = some unit ∧
      ∀ k, k ≠ key → (m.insert key unit).2.get? k = m.get? k
  refused : (m.insert key unit).1 = false → ∀ k, (m.insert key unit).2.get? k = m.get? k

theorem insertionLaw (m : Memo) (key : String) (unit : CompoundUnit) :
    InsertionLaw m key unit := by
  rcases insert_cases m key unit with ⟨hc, hfull, h⟩ | ⟨hroom, h⟩
  · constructor <;> rw [h]
    · simp [hc, hfull]
    · exact fun hf => by cases hf
    · exact fun _ _ => rfl
  · constructor <;> rw [h]
    · exact ⟨fun _ => hroom, fun _ => rfl⟩
    · exact fun _ => ⟨by rw [get?, lookup_put, if_pos rfl],
        fun k hk => by rw [get?, lookup_put, if_neg hk, get?]⟩
    · exact fun hf => by cases hf

theorem isRefused_iff : (m.insert key unit).1 = false ↔
    m.contains key = false ∧ m.capacity ≤ m.size := by
  rw [← Bool.not_eq_true, (insertionLaw m key unit).isStored_iff, not_or, Nat.not_lt, Bool.not_eq_true]

/-- Keys are distinct and at most as many as the capacity, and only a full memo is saturated. -/
structure Sound (m : Memo) : Prop where
  nodup_keys : m.keys.Nodup
  size_le : m.size ≤ m.capacity
  full : m.saturated = true → m.size = m.capacity

theorem sound_empty (capacity : ℕ) : Sound (empty capacity) :=
  ⟨List.nodup_nil, Nat.zero_le _, fun h => by cases h⟩

theorem Sound.insert (h : Sound m) (key : String) (unit : CompoundUnit) :
    Sound (m.insert key unit).2 := by
  rcases insert_cases m key unit with ⟨-, hfull, hi⟩ | ⟨hroom, hi⟩ <;> rw [hi]
  · exact ⟨h.nodup_keys, h.size_le, fun _ => Nat.le_antisymm h.size_le hfull⟩
  · have hkeys := keys_put key unit m.entries
    have hsize : (put key unit m.entries).length =
        if key ∈ m.keys then m.size else m.size + 1 := by
      rw [← List.length_map (f := Prod.fst), hkeys]
      split_ifs with hmem hmem' hmem'
      · exact length_keys m
      · exact absurd hmem hmem'
      · exact absurd hmem' hmem
      · rw [List.length_append, List.length_singleton]
        exact congrArg (· + 1) (length_keys m)
    rw [contains_iff] at hroom
    have hle := h.size_le
    have hfull := h.full
    refine ⟨?_, ?_, ?_⟩
    · show ((put key unit m.entries).map Prod.fst).Nodup
      rw [hkeys]
      split_ifs with hmem
      · exact h.nodup_keys
      · rw [← List.concat_eq_append]
        exact h.nodup_keys.concat hmem
    · show (put key unit m.entries).length ≤ m.capacity
      rw [hsize]
      split_ifs with hmem
      · exact hle
      · exact hroom.resolve_left hmem
    · intro hs
      have hfull := hfull hs
      show (put key unit m.entries).length = m.capacity
      rw [hsize, if_pos (hroom.resolve_right (by omega)), hfull]

@[simp] theorem capacity_insert : (m.insert key unit).2.capacity = m.capacity := by
  rcases insert_cases m key unit with ⟨-, -, h⟩ | ⟨-, h⟩ <;> rw [h]

/-- A memo becomes saturated when it refuses an insertion. -/
theorem saturated_insert : (m.insert key unit).2.saturated = true ↔
    m.saturated = true ∨ (m.insert key unit).1 = false := by
  rcases insert_cases m key unit with ⟨-, -, h⟩ | ⟨-, h⟩ <;> rw [h] <;> simp

/-- Nothing is ever dropped. -/
theorem contains_insert (h : m.contains k = true) : (m.insert key unit).2.contains k = true := by
  rcases insert_cases m key unit with ⟨-, -, hi⟩ | ⟨-, hi⟩ <;> rw [hi]
  · exact h
  · rw [contains, get?, lookup_put]
    split_ifs
    · rfl
    · exact h

end QuantityCalculus.Memo
