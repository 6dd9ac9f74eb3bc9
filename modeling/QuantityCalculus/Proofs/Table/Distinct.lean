import Mathlib.Data.List.Nodup
import Mathlib.Data.Nat.Bitwise
import QuantityCalculus.Table.Lookup

/-! No name stands in the table twice. Names are told apart by numbers that are computed from their
characters, and the numbers met so far are kept as the bits of one number; so every name is looked at
once, and not compared to every other one. -/

namespace QuantityCalculus.Table

/-- A number below `2 ^ 16` that is computed from the characters of a name. -/
def residue (name : String) : Nat :=
  name.toList.foldl (fun n c => (37 * n + c.toNat) % 0x10000) 0

/-- Whether numbers are distinct and none of them is a bit of `met`. -/
def distinctFrom : (met : Nat) → List Nat → Bool
  | _, [] => true
  | met, n :: ns => !met.testBit n && distinctFrom (met ||| 2 ^ n) ns

theorem nodup_of_distinctFrom {met : Nat} {ns : List Nat} (h : distinctFrom met ns = true) :
    (∀ n ∈ ns, met.testBit n = false) ∧ ns.Nodup := by
  induction ns generalizing met with
  | nil => simp
  | cons n ns ih =>
    simp only [distinctFrom, Bool.and_eq_true, Bool.not_eq_true'] at h
    obtain ⟨hnew, hnodup⟩ := ih h.2
    simp only [Nat.testBit_or, Nat.testBit_two_pow, Bool.or_eq_false_iff, decide_eq_false_iff_not]
      at hnew
    refine ⟨List.forall_mem_cons.2 ⟨h.1, fun m hm => (hnew m hm).1⟩, ?_⟩
    exact List.nodup_cons.2 ⟨fun hmem => (hnew n hmem).2 rfl, hnodup⟩

theorem distinct_entries : distinctFrom 0 (entries.map fun e => residue e.1) = true := by
  decide +kernel

theorem nodup_names : names.Nodup := by
  have hentries : ((entries.map Prod.fst).map residue).Nodup := by
    rw [List.map_map]
    exact (nodup_of_distinctFrom distinct_entries).2
  exact ((List.mergeSort_perm _ _).nodup_iff).2 hentries.of_map

/-- The names of the table are those that have an entry. -/
theorem mem_names_iff {name : String} : name ∈ names ↔ ∃ unit, entry? name = some unit := by
  rw [names, List.mem_mergeSort, ← Option.isSome_iff_exists, entry?]
  simp

end QuantityCalculus.Table
