import QuantityCalculus.Proofs.Binary64.Within
import QuantityCalculus.Proofs.Quantity.Converted
import QuantityCalculus.Proofs.Table.Names

/-! Units of moderate size. The factors in the table are at most 63 binary places away from one, and
those of the prefixes at most 80. Powers multiply the places and products add them up, so a unit of
a few whole powers is worth a number that can be divided by. -/

namespace QuantityCalculus

open Binary64

/-! ### Factors of the table -/

namespace Table

theorem within_entries : ∀ e ∈ entries, Within 63 e.2.factor := by
  decide +kernel

theorem within_prefixes : ∀ p ∈ SiPrefix.all, Within 80 p.factor := by
  decide +kernel

theorem within_lookup {name : String} {unit : AtomicUnit} (h : lookup? name = some unit) :
    Within 143 unit.factor := by
  rcases lookup?_cases h with he | ⟨p, hp, n, base, -, he, -, rfl⟩
  · exact (within_entries _ (mem_entries_of_entry he)).mono (by omega)
  · exact (within_entries _ (mem_entries_of_entry he)).mul (within_prefixes p hp) (by omega)

end Table

/-- A whole power that leaves a number in range is a product. -/
theorem Exponent.within_raise {k : ℕ} {f : Float} {x : Exponent} (hx : x.isInteger = true)
    (hf : Within k f) (hk : 0 < k) (h : k * x.num.natAbs ≤ 1023) :
    Within (k * x.num.natAbs) (x.raise f) := by
  have hshort : x.num.natAbs ≤ 1023 := (Nat.le_mul_of_pos_left _ hk).trans h
  have hint : x.toShortInt? = some x.num := by
    rw [toShortInt?, toInt?, if_pos hx]
    exact Option.filter_some_pos (decide_eq_true (by omega))
  rw [raise, hint]
  exact hf.powInt h

namespace CompoundUnit

variable {u : CompoundUnit} {j : ℕ}

/-- What a power of an atomic unit contributes to the worth of a unit. -/
def powerWorth (c : String × Exponent) : Float :=
  match Table.lookup? c.1 with
  | some unit => c.2.raise unit.factor
  | none => 0.0

theorem WellFormed.worth_eq (hu : u.WellFormed) :
    u.worth = (u.components.map powerWorth).foldl (· * ·) u.scale := by
  have hsteps : ∀ c ∈ u.components, ∀ acc : Float, (do
      let unit ← Table.lookup c.1
      pure (acc * c.2.raise unit.factor) : Except Error Float) = .ok (acc * powerWorth c) := by
    intro c hc acc
    obtain ⟨-, unit, hunit⟩ := hu.agrees.known c.1 (List.mem_map_of_mem hc)
    rw [Table.lookup_eq_ok_iff.2 hunit, powerWorth, hunit]
    rfl
  rw [worth, coherentFactor, foldlM_eq_foldl hsteps, List.foldl_map]

/-- How often atomic units are multiplied by or divided by. -/
def degree (u : CompoundUnit) : ℕ := (u.components.map fun c => c.2.num.natAbs).sum

/-- A unit of whole powers of low degree, with a scale of at most `j` binary places. -/
structure Moderate (j : ℕ) (u : CompoundUnit) : Prop where
  whole : ∀ c ∈ u.components, c.2.isInteger = true
  scale : Within j u.scale
  degree_le : j + 143 * u.degree ≤ 1023

instance (j : ℕ) (u : CompoundUnit) : Decidable (u.Moderate j) :=
  decidable_of_iff ((∀ c ∈ u.components, c.2.isInteger = true) ∧ Within j u.scale ∧
    j + 143 * u.degree ≤ 1023)
    ⟨fun ⟨hwhole, hscale, hdegree⟩ => ⟨hwhole, hscale, hdegree⟩,
      fun ⟨hwhole, hscale, hdegree⟩ => ⟨hwhole, hscale, hdegree⟩⟩

theorem Moderate.within_worth (h : u.Moderate j) (hu : u.WellFormed) :
    Within (j + 143 * u.degree) u.worth := by
  have hsum : 143 * u.degree = (u.components.map fun c => 143 * c.2.num.natAbs).sum :=
    (List.sum_map_mul_left ..).symm
  rw [hu.worth_eq]
  have hbound := h.degree_le
  rw [hsum] at hbound ⊢
  refine within_foldl h.scale (fun c hc => ?_) hbound
  obtain ⟨-, unit, hunit⟩ := hu.agrees.known c.1 (List.mem_map_of_mem hc)
  have hle : 143 * c.2.num.natAbs ≤ (u.components.map fun c => 143 * c.2.num.natAbs).sum :=
    List.le_sum_of_mem (List.mem_map_of_mem hc)
  rw [powerWorth, hunit]
  exact Exponent.within_raise (h.whole c hc) (Table.within_lookup hunit) (by omega) (by omega)

end CompoundUnit

end QuantityCalculus
