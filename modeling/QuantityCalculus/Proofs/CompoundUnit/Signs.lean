import QuantityCalculus.Proofs.CompoundUnit.OperandText

/-! Positive and negative powers. The canonical text of a unit separates the two kinds and writes the
negative ones with the opposite sign. Subtracting the opposites of names that are new puts these
names behind the others, with the powers they had. -/

namespace QuantityCalculus.Powers

/-- The powers above zero. -/
def positives (ps : Powers) : Powers := ps.filter fun q => 0 < q.2.num

/-- The powers below zero. -/
def negatives (ps : Powers) : Powers := ps.filter fun q => q.2.num < 0

/-- A name with the opposite power. A power without an opposite is kept. -/
def opposite (q : String × Exponent) : String × Exponent :=
  (q.1, q.2.neg.toOption.getD q.2)

variable {ps qs : Powers} {q : String × Exponent}

theorem mem_positives : q ∈ positives ps ↔ q ∈ ps ∧ 0 < q.2.val := by
  rw [positives, List.mem_filter, decide_eq_true_iff, Exponent.num, Rat.num_pos]

theorem mem_negatives : q ∈ negatives ps ↔ q ∈ ps ∧ q.2.val < 0 := by
  rw [negatives, List.mem_filter, decide_eq_true_iff, Exponent.num, Rat.num_neg]

theorem neg_opposite (h : Representable q.2.val) :
    (opposite q).2.val = -q.2.val ∧ (opposite q).2.neg = .ok q.2 := by
  obtain ⟨y, hy, hv⟩ := Exponent.exists_neg h
  have ho : (opposite q).2 = y := by simp [opposite, hy, Except.toOption]
  rw [ho]
  refine ⟨hv, Exponent.neg_eq_ok_iff.2 ⟨?_, ?_⟩⟩
  · rwa [hv, neg_neg]
  · rw [hv, neg_neg]

theorem opposite_ne_zero (h : Representable q.2.val) (h0 : q.2 ≠ 0) : (opposite q).2 ≠ 0 := by
  intro hzero
  have hv := (neg_opposite h).1
  rw [hzero, Exponent.zero_val, eq_comm, neg_eq_zero] at hv
  exact h0 (Exponent.ext hv)

theorem names_map_opposite (ps : Powers) : names (ps.map opposite) = names ps := by
  simp [names, opposite]

theorem weigh_map_opposite (weight : String → ℚ) (h : ∀ q ∈ ps, Representable q.2.val) :
    weigh weight (ps.map opposite) = -weigh weight ps := by
  induction ps with
  | nil => rfl
  | cons q ps ih =>
    rw [List.forall_mem_cons] at h
    rw [List.map_cons, weigh_cons, weigh_cons, ih h.2, (neg_opposite h.1).1]
    show -q.2.val * weight q.1 + _ = _
    ring

/-- Subtracting the opposites of further names puts these names behind the others. -/
theorem mergeAllNeg_opposite (h : ∀ q ∈ qs, Representable q.2.val)
    (hn : (names (ps ++ qs)).Nodup) : mergeAllNeg ps (qs.map opposite) = .ok (ps ++ qs) := by
  induction qs generalizing ps with
  | nil =>
    rw [List.append_nil]
    rfl
  | cons q qs ih =>
    rw [List.forall_mem_cons] at h
    have happ : ps ++ q :: qs = ps ++ [q] ++ qs := by simp
    have hname := notMem_names_of_nodup hn
    rw [happ] at hn ⊢
    rw [List.map_cons, mergeAllNeg_eq, mergeThrough_cons, (neg_opposite h.1).2]
    show (merge ps q.1 q.2 >>= _) = _
    rw [merge_of_notMem hname]
    exact ih h.2 hn

theorem numerator_eq (ps : Powers) :
    numerator ps = (positives ps).map CompoundUnit.factorText := rfl

theorem denominator_eq (h : ∀ q ∈ ps, Representable q.2.val) :
    denominator ps = ((negatives ps).map opposite).map CompoundUnit.factorText := by
  rw [List.map_map]
  apply List.map_congr_left
  intro q hq
  show factorChars q.1 (-q.2.val) = factorChars q.1 (opposite q).2.val
  rw [(neg_opposite (h q (mem_negatives.1 hq).1)).1]

theorem denominator_eq_nil_iff : denominator ps = [] ↔ negatives ps = [] :=
  List.map_eq_nil_iff

/-- The names with positive and those with negative powers are all there are. -/
theorem positives_append_negatives (h : ∀ q ∈ ps, q.2 ≠ 0) :
    List.Perm (positives ps ++ negatives ps) ps := by
  have hneg : negatives ps = ps.filter fun q => !decide (0 < q.2.num) := by
    apply List.filter_congr
    intro q hq
    have hne : q.2.num ≠ 0 := fun h0 => h q hq (Exponent.ext (Rat.num_eq_zero.1 h0))
    simp only [← decide_not, decide_eq_decide]
    omega
  rw [hneg]
  exact List.filter_append_perm _ ps

@[simp] theorem positives_append (ps qs : Powers) :
    positives (ps ++ qs) = positives ps ++ positives qs := List.filter_append ps qs

@[simp] theorem negatives_append (ps qs : Powers) :
    negatives (ps ++ qs) = negatives ps ++ negatives qs := List.filter_append ps qs

@[simp] theorem positives_positives (ps : Powers) : positives (positives ps) = positives ps := by
  simp [positives]

@[simp] theorem negatives_negatives (ps : Powers) : negatives (negatives ps) = negatives ps := by
  simp [negatives]

@[simp] theorem positives_negatives (ps : Powers) : positives (negatives ps) = [] := by
  apply List.eq_nil_iff_forall_not_mem.2
  intro q hq
  obtain ⟨hmem, hpos⟩ := mem_positives.1 hq
  exact lt_asymm hpos (mem_negatives.1 hmem).2

@[simp] theorem negatives_positives (ps : Powers) : negatives (positives ps) = [] := by
  apply List.eq_nil_iff_forall_not_mem.2
  intro q hq
  obtain ⟨hmem, hneg⟩ := mem_negatives.1 hq
  exact lt_asymm hneg (mem_positives.1 hmem).2

/-- The canonical text does not depend on how positive and negative powers are mixed. -/
theorem render_append (ps : Powers) (x : Float) :
    render (positives ps ++ negatives ps) x = render ps x := by
  have hnum : numerator (positives ps ++ negatives ps) = numerator ps := by
    rw [numerator_eq, numerator_eq]
    simp
  have hden : denominator (positives ps ++ negatives ps) = denominator ps := by
    show (negatives _).map _ = (negatives ps).map _
    simp
  rw [render, hnum, hden, ← render]

end QuantityCalculus.Powers
