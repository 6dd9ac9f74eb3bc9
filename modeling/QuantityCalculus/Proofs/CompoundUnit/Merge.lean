import Mathlib.Algebra.BigOperators.Group.List.Basic
import QuantityCalculus.Proofs.Exponent.Exact
import QuantityCalculus.CompoundUnit.Powers

/-! Merging one power into a product of powers. A product is sound if its names are distinct and its
exponents are representable. Merging keeps a product sound, adds to the exponent of one name and to
nothing else, and fails exactly if the sum is not representable. -/

namespace QuantityCalculus.Powers

/-- The names of a product, in order. -/
def names (ps : Powers) : List String := ps.map Prod.fst

/-- The sum of the exponents, each multiplied by the weight of its name. -/
def weigh (weight : String → ℚ) (ps : Powers) : ℚ :=
  (ps.map fun q => q.2.val * weight q.1).sum

/-- Names are distinct and exponents can be negated. -/
structure Sound (ps : Powers) : Prop where
  nodup : ps.names.Nodup
  representable : ∀ q ∈ ps, Representable q.2.val

@[simp] theorem names_nil : names [] = [] := rfl

@[simp] theorem names_cons (q : String × Exponent) (ps : Powers) :
    names (q :: ps) = q.1 :: names ps := rfl

@[simp] theorem names_append (ps qs : Powers) : names (ps ++ qs) = names ps ++ names qs :=
  List.map_append

@[simp] theorem weigh_nil (weight : String → ℚ) : weigh weight [] = 0 := rfl

@[simp] theorem weigh_cons (weight : String → ℚ) (q : String × Exponent) (ps : Powers) :
    weigh weight (q :: ps) = q.2.val * weight q.1 + weigh weight ps := by
  simp [weigh]

@[simp] theorem weigh_append (weight : String → ℚ) (ps qs : Powers) :
    weigh weight (ps ++ qs) = weigh weight ps + weigh weight qs := by
  simp [weigh]

theorem weigh_perm {ps qs : Powers} (weight : String → ℚ) (h : List.Perm ps qs) :
    weigh weight ps = weigh weight qs := by
  unfold weigh
  exact (h.map _).sum_eq

theorem sound_nil : Sound [] := ⟨List.nodup_nil, by simp⟩

theorem sound_cons_iff {q : String × Exponent} {ps : Powers} :
    Sound (q :: ps) ↔ q.1 ∉ ps.names ∧ Representable q.2.val ∧ Sound ps := by
  constructor
  · rintro ⟨hn, hr⟩
    rw [names_cons, List.nodup_cons] at hn
    rw [List.forall_mem_cons] at hr
    exact ⟨hn.1, hr.1, hn.2, hr.2⟩
  · rintro ⟨hq, hx, hn, hr⟩
    exact ⟨List.nodup_cons.2 ⟨hq, hn⟩, List.forall_mem_cons.2 ⟨hx, hr⟩⟩

/-! ### The exponent of a name -/

theorem powerOf_of_notMem {ps : Powers} {name : String} (h : name ∉ ps.names) :
    ps.powerOf name = 0 := by
  induction ps with
  | nil => rfl
  | cons q ps ih =>
    rw [names_cons, List.mem_cons, not_or] at h
    rw [powerOf_cons, if_neg h.1, ih h.2]

theorem notMem_names_of_nodup {ps qs : Powers} {q : String × Exponent}
    (h : (names (ps ++ q :: qs)).Nodup) : q.1 ∉ names ps := by
  rw [names_append, names_cons] at h
  intro hmem
  exact (List.nodup_append.1 h).2.2 _ hmem _ List.mem_cons_self rfl

theorem powerOf_of_mem {ps : Powers} (hd : ps.names.Nodup) {q : String × Exponent} (h : q ∈ ps) :
    ps.powerOf q.1 = q.2 := by
  induction ps with
  | nil => cases h
  | cons p ps ih =>
    rw [names_cons, List.nodup_cons] at hd
    rw [powerOf_cons]
    rcases List.mem_cons.1 h with rfl | h
    · rw [if_pos rfl]
    · have hne : q.1 ≠ p.1 := fun he => hd.1 (he ▸ List.mem_map_of_mem h)
      rw [if_neg hne, ih hd.2 h]

theorem mem_of_powerOf_ne_zero {ps : Powers} {name : String} (h : ps.powerOf name ≠ 0) :
    (name, ps.powerOf name) ∈ ps := by
  induction ps with
  | nil => exact absurd rfl h
  | cons q ps ih =>
    rw [powerOf_cons] at h ⊢
    split_ifs with hn
    · subst hn
      exact List.mem_cons_self
    · rw [if_neg hn] at h
      exact List.mem_cons_of_mem _ (ih h)

theorem Sound.representable_powerOf {ps : Powers} (h : Sound ps) (name : String) :
    Representable (ps.powerOf name).val := by
  by_cases h0 : ps.powerOf name = 0
  · rw [h0]
    exact representable_zero
  · exact h.representable _ (mem_of_powerOf_ne_zero h0)

/-! ### Merging one name -/

theorem merge_cons_self (name : String) (y x : Exponent) (ps : Powers) :
    merge ((name, y) :: ps) name x = (y.add x).map fun sum => (name, sum) :: ps := by
  rw [merge, if_pos rfl]
  rfl

theorem merge_cons_of_ne {n name : String} (h : n ≠ name) (y x : Exponent) (ps : Powers) :
    merge ((n, y) :: ps) name x = (merge ps name x).map fun merged => (n, y) :: merged := by
  rw [merge, if_neg h]
  rfl

/-- A new name is put behind the others. -/
theorem merge_of_notMem {ps : Powers} {name : String} {x : Exponent} (h : name ∉ names ps) :
    merge ps name x = .ok (ps ++ [(name, x)]) := by
  induction ps with
  | nil => rfl
  | cons q ps ih =>
    rw [names_cons, List.mem_cons, not_or] at h
    rw [merge_cons_of_ne (Ne.symm h.1), ih h.2]
    rfl

/-- Merging either puts a new name behind the others or adds to the exponent that is there. -/
theorem merge_cases {ps qs : Powers} {name : String} {x : Exponent}
    (h : merge ps name x = .ok qs) :
    (name ∉ names ps ∧ qs = ps ++ [(name, x)]) ∨
      ∃ front y back sum, ps = front ++ (name, y) :: back ∧ y.add x = .ok sum ∧
        qs = front ++ (name, sum) :: back := by
  induction ps generalizing qs with
  | nil =>
    rw [merge, Except.ok.injEq] at h
    exact .inl ⟨List.not_mem_nil, h.symm⟩
  | cons q ps ih =>
    obtain ⟨n, y⟩ := q
    by_cases hn : n = name
    · subst hn
      rw [merge_cons_self, map_eq_ok_iff] at h
      obtain ⟨sum, hs, rfl⟩ := h
      exact .inr ⟨[], y, ps, sum, rfl, hs, rfl⟩
    · rw [merge_cons_of_ne hn, map_eq_ok_iff] at h
      obtain ⟨rs, hr, rfl⟩ := h
      rcases ih hr with ⟨hm, rfl⟩ | ⟨front, z, back, sum, rfl, hs, rfl⟩
      · exact .inl ⟨by simp [Ne.symm hn, hm], rfl⟩
      · exact .inr ⟨(n, y) :: front, z, back, sum, rfl, hs, rfl⟩

section MergeOne

variable {ps qs : Powers} {name : String} {x : Exponent}

theorem mem_names_merge (h : merge ps name x = .ok qs) (n : String) :
    n ∈ qs.names ↔ n ∈ ps.names ∨ n = name := by
  rcases merge_cases h with ⟨-, rfl⟩ | ⟨front, y, back, sum, rfl, -, rfl⟩
  · simp
  · simp only [names_append, names_cons, List.mem_append, List.mem_cons]
    tauto

theorem Sound.merge (hp : Sound ps) (hx : Representable x.val) (h : merge ps name x = .ok qs) :
    Sound qs := by
  rcases merge_cases h with ⟨hn, rfl⟩ | ⟨front, y, back, sum, rfl, hs, rfl⟩
  · constructor
    · rw [names_append, List.nodup_append]
      refine ⟨hp.nodup, by simp, ?_⟩
      rintro a ha b hb rfl
      rw [List.mem_singleton.1 hb] at ha
      exact hn ha
    · intro q hq
      rcases List.mem_append.1 hq with hq | hq
      · exact hp.representable q hq
      · rw [List.mem_singleton.1 hq]
        exact hx
  · have hr := hp.representable
    constructor
    · simpa using hp.nodup
    · intro q hq
      rcases List.mem_append.1 hq with hq | hq
      · exact hr q (List.mem_append_left _ hq)
      · rcases List.mem_cons.1 hq with rfl | hq
        · obtain ⟨hrep, hval⟩ := Exponent.add_eq_ok_iff.1 hs
          exact hval ▸ hrep
        · exact hr q (List.mem_append_right _ (List.mem_cons_of_mem _ hq))

theorem weigh_merge (weight : String → ℚ) (h : merge ps name x = .ok qs) :
    weigh weight qs = weigh weight ps + x.val * weight name := by
  rcases merge_cases h with ⟨-, rfl⟩ | ⟨front, y, back, sum, rfl, hs, rfl⟩
  · simp
  · simp only [weigh_append, weigh_cons, (Exponent.add_eq_ok_iff.1 hs).2]
    ring

/-- Merging fails exactly if the sum is not representable. -/
theorem merge_isOk_iff (hx : Representable x.val) :
    (∃ qs, merge ps name x = .ok qs) ↔ Representable ((powerOf ps name).val + x.val) := by
  induction ps with
  | nil => simpa [Powers.merge] using hx
  | cons q ps ih =>
    obtain ⟨n, y⟩ := q
    rw [powerOf_cons]
    by_cases hn : n = name
    · subst hn
      rw [if_pos rfl, ← (Exponent.add_yields y x).isOk_iff]
      simp only [merge_cons_self, map_eq_ok_iff]
      constructor
      · rintro ⟨_, sum, hs, -⟩
        exact ⟨sum, hs⟩
      · rintro ⟨sum, hs⟩
        exact ⟨_, sum, hs, rfl⟩
    · simp only [merge_cons_of_ne hn, map_eq_ok_iff, if_neg (Ne.symm hn)]
      rw [← ih]
      constructor
      · rintro ⟨_, rs, hr, -⟩
        exact ⟨rs, hr⟩
      · rintro ⟨rs, hr⟩
        exact ⟨_, rs, hr, rfl⟩

end MergeOne

end QuantityCalculus.Powers
