import QuantityCalculus.Proofs.Quantity.Outcome

/-! Results of operations that succeed. Two quantities that were combined were not rows of different
lengths, and the result has the shape of a row among them; if they were added or subtracted, the
second could be converted to the unit of the first. Operations on one quantity keep its shape. -/

namespace QuantityCalculus.Quantity

open Magnitude

variable {q r p : Quantity}

/-- Two quantities can be combined value by value, and a third one has the shape of what they
combine to. -/
structure Combines (q r p : Quantity) : Prop where
  not_clash : ¬ Clash q.magnitude r.magnitude
  shape : p.magnitude.shape = commonShape q.magnitude.shape r.magnitude.shape

theorem combines_of_zipWith {f : Float → Float → Float} {m : Magnitude Float} {u : CompoundUnit}
    (h : q.magnitude.zipWith f r.magnitude = .ok m) : Combines q r ⟨m, u⟩ :=
  ⟨not_clash_of_zipWith h, shape_zipWith h⟩

/-! ### Sums -/

theorem combines_of_broughtTogether {e : Error} {f : Float → Float → Float}
    (h : (broughtTogether e q r >>= fun s =>
      liftShape (q.magnitude.zipWith f s.magnitude) >>= fun m => pure ⟨m, q.unit⟩) = .ok p) :
    Combines q r p ∧ ∃ s, r.inUnit q.unit = .ok s := by
  simp only [bind_eq_ok_iff, liftShape_eq_ok_iff] at h
  obtain ⟨s, hs, m, hm, h⟩ := h
  cases h
  unfold broughtTogether at hs
  split at hs
  · obtain ⟨g, rfl⟩ := inUnit_cases hs
    have hc : Combines q ⟨r.magnitude.map g, q.unit⟩ ⟨m, q.unit⟩ := combines_of_zipWith hm
    refine ⟨⟨?_, ?_⟩, _, hs⟩
    · exact mt (clash_congr rfl (shape_map g r.magnitude)).2 hc.not_clash
    · rw [hc.shape, shape_map]
  · cases hs

theorem combines_of_add (h : q.add r = .ok p) :
    Combines q r p ∧ ∃ s, r.inUnit q.unit = .ok s :=
  combines_of_broughtTogether (add_eq q r ▸ h)

theorem combines_of_sub (h : q.sub r = .ok p) :
    Combines q r p ∧ ∃ s, r.inUnit q.unit = .ok s :=
  combines_of_broughtTogether (sub_eq q r ▸ h)

/-! ### Products -/

/-- An operation on the units and the magnitudes apart. -/
theorem combines_of_product {units : Except Error CompoundUnit} {f : Float → Float → Float}
    (h : (units >>= fun u =>
      liftShape (q.magnitude.zipWith f r.magnitude) >>= fun m => pure ⟨m, u⟩) = .ok p) :
    Combines q r p := by
  simp only [bind_eq_ok_iff, liftShape_eq_ok_iff] at h
  obtain ⟨u, -, m, hm, h⟩ := h
  cases h
  exact combines_of_zipWith hm

/-! ### Operations on one quantity -/

/-- An operation on one quantity that first checks it, or computes another unit. -/
theorem shape_of_map {α : Type} {check : Except Error α} {f : Float → Float}
    {unit : α → CompoundUnit}
    (h : (check >>= fun a => pure ⟨q.magnitude.map f, unit a⟩) = .ok p) :
    p.magnitude.shape = q.magnitude.shape := by
  obtain ⟨a, -, h⟩ := bind_eq_ok_iff.1 h
  cases h
  exact shape_map f q.magnitude

end QuantityCalculus.Quantity
