import QuantityCalculus.Proofs.CompoundUnit.Merge

/-! Merging and scaling whole products of powers. Merging a second product adds exponents name by name
and fails exactly if a sum is not representable; the order of the names never matters for this.
Scaling multiplies every exponent, and leaving out zeros changes none. -/

namespace QuantityCalculus.Powers

/-- Merges the names of a second product one after the other, each exponent taken through `f`. -/
def mergeThrough (f : Exponent → Except ExponentError Exponent) (ps qs : Powers) :
    Except ExponentError Powers :=
  qs.foldlM (fun acc q => do merge acc q.1 (← f q.2)) ps

theorem mergeAllNeg_eq (ps qs : Powers) : mergeAllNeg ps qs = mergeThrough Exponent.neg ps qs := rfl

theorem mergeThrough_cons (f : Exponent → Except ExponentError Exponent) (ps qs : Powers)
    (q : String × Exponent) :
    mergeThrough f ps (q :: qs) =
      (f q.2 >>= fun y => merge ps q.1 y) >>= fun merged => mergeThrough f merged qs := rfl

/-- `f` multiplies every representable exponent by `s`. -/
def Multiplies (s : ℚ) (f : Exponent → Except ExponentError Exponent) : Prop :=
  ∀ x, Representable x.val → ∃ y, f x = .ok y ∧ Representable y.val ∧ y.val = s * x.val

theorem multiplies_ok : Multiplies 1 .ok :=
  fun x hx => ⟨x, rfl, hx, (one_mul _).symm⟩

theorem multiplies_neg : Multiplies (-1) Exponent.neg := by
  intro x hx
  obtain ⟨y, hy, hv⟩ := Exponent.exists_neg hx
  exact ⟨y, hy, hv ▸ hx.neg, by rw [hv, neg_one_mul]⟩

/-- What a merger of `ps` with `s` times `qs` looks like. -/
structure Merged (s : ℚ) (ps qs rs : Powers) : Prop where
  sound : Sound rs
  mem_names : ∀ n, n ∈ names rs ↔ n ∈ names ps ∨ n ∈ names qs
  powerOf : ∀ n, (powerOf rs n).val = (powerOf ps n).val + s * (powerOf qs n).val
  weigh : ∀ weight, weigh weight rs = weigh weight ps + s * weigh weight qs

theorem powerOf_merge_of_ne {ps qs : Powers} {name other : String} {x : Exponent}
    (h : merge ps name x = .ok qs) (hne : other ≠ name) :
    (powerOf qs other).val = (powerOf ps other).val := by
  rw [powerOf_merge h, if_neg hne]

variable {s : ℚ} {f : Exponent → Except ExponentError Exponent} {ps qs rs : Powers}

theorem mergeThrough_merged (hf : Multiplies s f) (hp : Sound ps) (hq : Sound qs)
    (h : mergeThrough f ps qs = .ok rs) : Merged s ps qs rs := by
  induction qs generalizing ps with
  | nil =>
    cases h
    exact ⟨hp, by simp, by simp, by simp⟩
  | cons q qs ih =>
    obtain ⟨hn, hx, hq⟩ := sound_cons_iff.1 hq
    obtain ⟨y, hy, hr, hv⟩ := hf q.2 hx
    rw [mergeThrough_cons, hy, bind_eq_ok_iff] at h
    obtain ⟨ms, hm, h⟩ := h
    have hm : merge ps q.1 y = .ok ms := hm
    have ht := ih (hp.merge hr hm) hq h
    refine ⟨ht.sound, fun n => ?_, fun n => ?_, fun weight => ?_⟩
    · rw [ht.mem_names, mem_names_merge hm, names_cons, List.mem_cons, or_assoc]
    · rw [ht.powerOf, powerOf_merge hm, powerOf_cons]
      split_ifs with he
      · subst he
        rw [powerOf_of_notMem hn, hv, Exponent.zero_val, mul_zero, add_zero]
      · rfl
    · rw [ht.weigh, weigh_merge weight hm, weigh_cons, hv]
      ring

/-- A merger fails exactly if the sum of some name is not representable. -/
theorem mergeThrough_isOk_iff (hf : Multiplies s f) (hp : Sound ps) (hq : Sound qs) :
    (∃ rs, mergeThrough f ps qs = .ok rs) ↔
      ∀ n, Representable ((powerOf ps n).val + s * (powerOf qs n).val) := by
  constructor
  · rintro ⟨rs, h⟩ n
    have hm := mergeThrough_merged hf hp hq h
    rw [← hm.powerOf]
    exact hm.sound.representable_powerOf n
  · intro h
    induction qs generalizing ps with
    | nil => exact ⟨ps, rfl⟩
    | cons q qs ih =>
      obtain ⟨hn, hx, hq⟩ := sound_cons_iff.1 hq
      obtain ⟨y, hy, hr, hv⟩ := hf q.2 hx
      have hhead : Representable ((powerOf ps q.1).val + y.val) := by
        have := h q.1
        rwa [powerOf_cons, if_pos rfl, ← hv] at this
      obtain ⟨ms, hm⟩ := (merge_isOk_iff hr).2 hhead
      rw [mergeThrough_cons, hy]
      show ∃ rs, (merge ps q.1 y >>= fun merged => mergeThrough f merged qs) = .ok rs
      rw [hm]
      apply ih (hp.merge hr hm) hq
      intro n
      by_cases he : n = q.1
      · subst he
        rw [powerOf_of_notMem hn, Exponent.zero_val, mul_zero, add_zero, powerOf_merge hm,
          if_pos rfl]
        exact hhead
      · have := h n
        rwa [powerOf_cons, if_neg he, ← powerOf_merge_of_ne hm he] at this

/-! ### Scaling and leaving out zeros -/

theorem scale_cons (q : String × Exponent) (ps : Powers) (x : Exponent) :
    scale (q :: ps) x =
      q.2.mul x >>= fun y => (scale ps x).map fun rest => (q.1, y) :: rest := by
  simp only [scale, List.mapM_cons]
  cases q.2.mul x with
  | error _ => rfl
  | ok y => cases ps.mapM (fun q => do pure (q.1, ← q.2.mul x)) <;> rfl

/-- What a product looks like when it is scaled by `x`. -/
structure Scaled (x : ℚ) (ps rs : Powers) : Prop where
  names_eq : names rs = names ps
  representable : ∀ q ∈ rs, Representable q.2.val
  powerOf : ∀ n, (powerOf rs n).val = (powerOf ps n).val * x
  weigh : ∀ weight, weigh weight rs = weigh weight ps * x

theorem scale_scaled {x : Exponent} (h : scale ps x = .ok rs) : Scaled x.val ps rs := by
  induction ps generalizing rs with
  | nil =>
    cases h
    exact ⟨rfl, by simp, by simp, by simp⟩
  | cons q ps ih =>
    rw [scale_cons, bind_eq_ok_iff] at h
    obtain ⟨y, hy, h⟩ := h
    obtain ⟨rest, hs, rfl⟩ := map_eq_ok_iff.1 h
    obtain ⟨hr, hv⟩ := Exponent.mul_eq_ok_iff.1 hy
    have ht := ih hs
    refine ⟨?_, ?_, fun n => ?_, fun weight => ?_⟩
    · rw [names_cons, names_cons, ht.names_eq]
    · exact List.forall_mem_cons.2 ⟨hv ▸ hr, ht.representable⟩
    · rw [powerOf_cons, powerOf_cons]
      split_ifs
      · exact hv
      · exact ht.powerOf n
    · rw [weigh_cons, weigh_cons, ht.weigh, hv]
      ring

/-- Scaling fails exactly if the multiple of some exponent is not representable. -/
theorem scale_isOk_iff (hp : Sound ps) (x : Exponent) :
    (∃ rs, scale ps x = .ok rs) ↔ ∀ n, Representable ((powerOf ps n).val * x.val) := by
  constructor
  · rintro ⟨rs, h⟩ n
    have hs := scale_scaled h
    have hr : Sound rs := ⟨hs.names_eq ▸ hp.nodup, hs.representable⟩
    rw [← hs.powerOf]
    exact hr.representable_powerOf n
  · intro h
    induction ps with
    | nil => exact ⟨[], rfl⟩
    | cons q ps ih =>
      obtain ⟨hn, hx, hp⟩ := sound_cons_iff.1 hp
      have hq := h q.1
      rw [powerOf_cons, if_pos rfl] at hq
      obtain ⟨y, hy⟩ := (Exponent.mul_yields q.2 x).isOk_iff.2 hq
      obtain ⟨rest, hs⟩ := ih hp fun n => by
        by_cases he : n = q.1
        · subst he
          rw [powerOf_of_notMem hn, Exponent.zero_val, zero_mul]
          exact representable_zero
        · have := h n
          rwa [powerOf_cons, if_neg he] at this
      exact ⟨(q.1, y) :: rest, by rw [scale_cons, hy, hs]; rfl⟩

theorem Sound.dropZeros (h : Sound ps) : Sound ps.dropZeros :=
  ⟨h.nodup.sublist (List.filter_sublist.map _),
    fun q hq => h.representable q (List.mem_of_mem_filter hq)⟩

theorem dropZeros_cons_zero (name : String) (ps : Powers) :
    dropZeros ((name, 0) :: ps) = dropZeros ps := by
  simp [dropZeros]

theorem dropZeros_cons_of_ne {q : String × Exponent} (h : q.2 ≠ 0) (ps : Powers) :
    dropZeros (q :: ps) = q :: dropZeros ps := by
  simp [dropZeros, h]

theorem dropZeros_eq_self (h : ∀ q ∈ ps, q.2 ≠ 0) : ps.dropZeros = ps :=
  List.filter_eq_self.2 fun q hq => bne_iff_ne.2 (h q hq)

theorem weigh_dropZeros (weight : String → ℚ) (ps : Powers) :
    weigh weight ps.dropZeros = weigh weight ps := by
  induction ps with
  | nil => rfl
  | cons q ps ih =>
    by_cases h : q.2 = 0
    · rw [show q = (q.1, 0) from Prod.ext rfl h, dropZeros_cons_zero, ih, weigh_cons,
        Exponent.zero_val, zero_mul, zero_add]
    · rw [dropZeros_cons_of_ne h, weigh_cons, weigh_cons, ih]

/-- Leaving out a zero changes no exponent, because its name occurs once. -/
theorem powerOf_dropZeros (hd : (names ps).Nodup) (name : String) :
    powerOf ps.dropZeros name = powerOf ps name := by
  induction ps with
  | nil => rfl
  | cons q ps ih =>
    obtain ⟨n, y⟩ := q
    rw [names_cons, List.nodup_cons] at hd
    rw [powerOf_cons, ← ih hd.2]
    by_cases h : y = 0
    · subst h
      rw [dropZeros_cons_zero]
      split_ifs with he
      · subst he
        rw [ih hd.2, powerOf_of_notMem hd.1]
      · rfl
    · rw [dropZeros_cons_of_ne h, powerOf_cons]

end QuantityCalculus.Powers
