import QuantityCalculus.Proofs.CompoundUnit.WellFormed
import QuantityCalculus.Quantity.Basic

/-! Conversion succeeds within a dimension. The names of a well-formed unit are known, so the unit has
a factor in coherent units; a quantity can then be converted to every unit of its dimension and to
no other. Conversion changes the values one by one and keeps the shape. -/

namespace QuantityCalculus

/-- A computation along a list succeeds if each of its steps does. -/
theorem exists_foldlM {ε α β : Type} {step : β → α → Except ε β} {as : List α}
    (h : ∀ a ∈ as, ∀ b, ∃ c, step b a = .ok c) (b : β) : ∃ c, as.foldlM step b = .ok c := by
  induction as generalizing b with
  | nil => exact ⟨b, rfl⟩
  | cons a as ih =>
    obtain ⟨ha, has⟩ := List.forall_mem_cons.1 h
    obtain ⟨c, hc⟩ := ha b
    rw [List.foldlM_cons, hc]
    exact ih has c

/-- A computation along a list whose steps all succeed is a plain fold. -/
theorem foldlM_eq_foldl {ε α β : Type} {step : β → α → Except ε β} {f : β → α → β} {as : List α}
    (h : ∀ a ∈ as, ∀ b, step b a = .ok (f b a)) (b : β) :
    as.foldlM step b = .ok (as.foldl f b) := by
  induction as generalizing b with
  | nil => rfl
  | cons a as ih =>
    obtain ⟨ha, has⟩ := List.forall_mem_cons.1 h
    rw [List.foldlM_cons, ha, List.foldl_cons]
    exact ih has _

namespace CompoundUnit

variable {u v : CompoundUnit}

theorem WellFormed.exists_coherentFactor (h : WellFormed u) : ∃ x, u.coherentFactor = .ok x := by
  refine exists_foldlM (fun q hq acc => ?_) u.scale
  obtain ⟨-, unit, hu⟩ := h.agrees.known q.1 (List.mem_map_of_mem hq)
  exact ⟨acc * q.2.raise unit.factor, by rw [Table.lookup_eq_ok_iff.2 hu]; rfl⟩

theorem WellFormed.exists_conversionFactor (hu : WellFormed u) (hv : WellFormed v)
    (hd : u.dimension = v.dimension) : ∃ x, u.conversionFactor v = .ok x := by
  obtain ⟨x, hx⟩ := hu.exists_coherentFactor
  obtain ⟨y, hy⟩ := hv.exists_coherentFactor
  exact ⟨x / y, by rw [conversionFactor, if_neg (not_not_intro hd), hx, hy]; rfl⟩

theorem exists_coherentFactor_of_temperatureScale {a : AtomicUnit}
    (h : u.temperatureScale? = some a) : ∃ x, u.coherentFactor = .ok x := by
  unfold temperatureScale? at h
  split at h
  · rename_i name x hc
    split_ifs at h
    have ha := (Option.filter_eq_some_iff.1 h).1
    refine ⟨u.scale * x.raise a.factor, ?_⟩
    rw [coherentFactor, hc, List.foldlM_cons, Table.lookup_eq_ok_iff.2 ha]
    rfl
  · cases h

theorem isCompatibleWith_iff : u.isCompatibleWith v = true ↔ u.dimension = v.dimension :=
  decide_eq_true_iff

end CompoundUnit

namespace Quantity

variable {q p : Quantity} {t : CompoundUnit}

/-- What a quantity is converted to. -/
theorem inUnit_cases (h : q.inUnit t = .ok p) :
    ∃ f : Float → Float, p = ⟨q.magnitude.map f, t⟩ := by
  unfold inUnit at h
  split at h
  · split at h
    · cases h
      exact ⟨_, rfl⟩
    · obtain ⟨x, -, h⟩ := bind_eq_ok_iff.1 h
      cases h
      exact ⟨_, rfl⟩
  · cases h

theorem inUnit_of_eq (hq : q.unit.WellFormed) (ht : t.WellFormed)
    (hd : q.unit.dimension = t.dimension) :
    ∃ f : Float → Float, q.inUnit t = .ok ⟨q.magnitude.map f, t⟩ := by
  unfold inUnit
  rw [if_pos (CompoundUnit.isCompatibleWith_iff.2 hd)]
  split
  · exact ⟨_, rfl⟩
  · obtain ⟨x, hx⟩ := hq.exists_conversionFactor ht hd
    exact ⟨(· * x), by rw [hx]; rfl⟩

theorem inUnit_of_ne (hd : q.unit.dimension ≠ t.dimension) :
    q.inUnit t = .error (q.unit.incompatible t) := by
  unfold inUnit
  rw [if_neg fun h => hd (CompoundUnit.isCompatibleWith_iff.1 h)]

/-- Whatever unit a quantity is converted to, there is a factor between the units, although two
temperature scales do without it. -/
theorem exists_conversionFactor (h : q.inUnit t = .ok p) :
    ∃ x, q.unit.conversionFactor t = .ok x := by
  unfold inUnit at h
  split at h
  · rename_i hd
    have hd := CompoundUnit.isCompatibleWith_iff.1 hd
    split at h
    · rename_i hq ht
      obtain ⟨x, hx⟩ := CompoundUnit.exists_coherentFactor_of_temperatureScale hq
      obtain ⟨y, hy⟩ := CompoundUnit.exists_coherentFactor_of_temperatureScale ht
      refine ⟨x / y, ?_⟩
      rw [CompoundUnit.conversionFactor, if_neg (not_not_intro hd), hx, hy]
      rfl
    · obtain ⟨x, hx, -⟩ := bind_eq_ok_iff.1 h
      exact ⟨x, hx⟩
  · cases h

end Quantity

end QuantityCalculus
