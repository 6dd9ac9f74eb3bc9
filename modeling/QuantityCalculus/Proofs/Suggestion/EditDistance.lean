import Mathlib.Data.List.Induction
import QuantityCalculus.Proofs.Suggestion.EditScript
import QuantityCalculus.Suggestion.EditDistance

/-! The rows hold distances. After each character the row holds the distances of the beginning that
has been read to all beginnings of the second text. This carries the induction on the first text, both
for rows that are built anew and for two rows that are written over in turn; in the latter, nothing is
known of the row to be written over, and nothing has to be. -/

namespace QuantityCalculus

namespace EditDistance

variable {cs ds : List Char}

/-! ### Rows built anew -/

/-- The distances of a text to the beginnings of another one that are longer than `front`. -/
def distancesAfter (cs : List Char) : (front ds : List Char) → List Nat
  | _, [] => []
  | front, d :: ds => distance cs (front ++ [d]) :: distancesAfter cs (front ++ [d]) ds

/-- The distances of a text to all beginnings of another one. -/
def distances (cs ds : List Char) : List Nat := distance cs [] :: distancesAfter cs [] ds

theorem getLastD_distancesAfter (cs front ds : List Char) (a : Nat) :
    (distance cs front :: distancesAfter cs front ds).getLastD a = distance cs (front ++ ds) := by
  induction ds generalizing front a with
  | nil => simp [distancesAfter]
  | cons d ds ih =>
    rw [distancesAfter, List.getLastD_cons, ih, List.append_assoc]
    rfl

theorem distancesAfter_nil (front ds : List Char) :
    distancesAfter [] front ds = List.range' (front.length + 1) ds.length := by
  induction ds generalizing front with
  | nil => rfl
  | cons d ds ih => simp [distancesAfter, ih, List.range'_succ]

theorem firstRow_eq (ds : List Char) : firstRow ds = distances [] ds := by
  rw [firstRow, List.range_eq_range', List.range'_succ, distances, distancesAfter_nil]
  simp

theorem continueRow_eq (cs front ds : List Char) (c : Char) :
    continueRow c (distance cs front) (distance (cs ++ [c]) front) ds (distancesAfter cs front ds) =
      distancesAfter (cs ++ [c]) front ds := by
  induction ds generalizing front with
  | nil => rfl
  | cons d ds ih =>
    have hentry := distance_concat_concat cs front c d
    rw [cost] at hentry
    simp only [distancesAfter, continueRow]
    rw [← hentry, ih]

theorem nextRow_eq (cs ds : List Char) (c : Char) :
    nextRow c ds (distances cs ds) = distances (cs ++ [c]) ds := by
  have hfirst : distance cs [] + 1 = distance (cs ++ [c]) [] := by simp
  rw [distances, distances, nextRow, hfirst, continueRow_eq]

theorem lastRow_eq (cs ds : List Char) : lastRow cs ds = distances cs ds := by
  unfold lastRow
  induction cs using List.reverseRecOn with
  | nil => exact firstRow_eq ds
  | append_singleton cs c ih =>
    rw [List.foldl_append, ih]
    exact nextRow_eq cs ds c

end EditDistance

open EditDistance

theorem editDistance_eq (cs ds : List Char) : editDistance cs ds = distance cs ds := by
  rw [editDistance, lastRow_eq, distances, getLastD_distancesAfter, List.nil_append]

namespace EditDistance

/-! ### Rows that take turns -/

namespace Rows

variable {n k : Nat} {rows : Rows n} {cs : List Char} {ds : Vector Char n} {c : Char}

/-- The entries of a row up to column `k` are the distances to the beginnings up to there. -/
def Holds (cs : List Char) (ds : Vector Char n) (row : Vector Nat (n + 1)) (k : Nat) : Prop :=
  ∀ j (h : j < n + 1), j ≤ k → row[j] = distance cs (ds.toList.take j)

theorem holds_start (ds : Vector Char n) : Holds [] ds (start n).previous n := by
  intro j h hj
  simp [start]
  omega

/-- Writing leaves the previous row alone, and an entry is found from the three around it. -/
theorem write_holds (h : k < n) (hp : Holds cs ds rows.previous n)
    (hc : Holds (cs ++ [c]) ds rows.current k) :
    (rows.write c ds[k] ⟨k, h⟩).previous = rows.previous ∧
      Holds (cs ++ [c]) ds (rows.write c ds[k] ⟨k, h⟩).current (k + 1) := by
  refine ⟨rfl, fun j hj hjk => ?_⟩
  rcases Nat.le_succ_iff.1 hjk with hle | rfl
  · have hold := hc j hj hle
    simpa [write, Vector.getElem_set, show k + 1 ≠ j by omega] using hold
  · have htake : ds.toList.take (k + 1) = ds.toList.take k ++ [ds[k]] := by
      simp [List.take_add_one, h]
    have hentry := distance_concat_concat cs (ds.toList.take k) c ds[k]
    rw [← htake, cost] at hentry
    rw [hentry, ← hp (k + 1) (by omega) (by omega), ← hp k (by omega) (by omega),
      ← hc k (by omega) le_rfl]
    simp [write]

theorem fill_holds (rows : Rows n) (hk : k ≤ n) (hp : Holds cs ds rows.previous n)
    (hc : Holds (cs ++ [c]) ds rows.current 0) :
    (fill ds c rows k hk).previous = rows.previous ∧
      Holds (cs ++ [c]) ds (fill ds c rows k hk).current k := by
  induction k with
  | zero => exact ⟨rfl, hc⟩
  | succ k ih =>
    obtain ⟨hprevious, hcurrent⟩ := ih (Nat.le_of_succ_le hk)
    have h := write_holds hk (hprevious ▸ hp) hcurrent
    exact ⟨h.1.trans hprevious, h.2⟩

/-- One character of the first text. Its index is the length of what was read before. -/
theorem advance_holds (hp : Holds cs ds rows.previous n) :
    Holds (cs ++ [c]) ds (rows.advance ds (c, cs.length)).previous n := by
  have hfirst : Holds (cs ++ [c]) ds (rows.current.set 0 (cs.length + 1)) 0 := by
    intro j hj hj0
    obtain rfl := Nat.le_zero.1 hj0
    simp
  exact (fill_holds ⟨rows.previous, rows.current.set 0 (cs.length + 1)⟩ le_rfl hp hfirst).2

theorem foldl_advance_holds (cs : List Char) (ds : Vector Char n) :
    Holds cs ds (cs.zipIdx.foldl (advance ds) (start n)).previous n := by
  induction cs using List.reverseRecOn with
  | nil => exact holds_start ds
  | append_singleton cs c ih => simpa [List.zipIdx_append] using advance_holds ih

end Rows

theorem inTwoRows_eq (cs ds : List Char) : inTwoRows cs ds = distance cs ds := by
  unfold inTwoRows
  split
  · rename_i h
    simp [List.isEmpty_iff.1 h]
  · split
    · rename_i h
      simp [List.isEmpty_iff.1 h]
    · have hlast := Rows.foldl_advance_holds cs (⟨ds.toArray, rfl⟩ : Vector Char ds.length)
        ds.length (Nat.lt_succ_self _) le_rfl
      simpa using hlast

end EditDistance

/-! ### The law -/

/-- The edit distance as the least number of edits, as a metric, and as found in two rows. -/
structure EditDistanceLaw (s t : String) : Prop where
  least : IsLeast {n | Edits n s.toList t.toList} (editDistance s.toList t.toList)
  symm : editDistance t.toList s.toList = editDistance s.toList t.toList
  zero_iff : editDistance s.toList t.toList = 0 ↔ s = t
  triangle : ∀ w : String, editDistance s.toList w.toList ≤
    editDistance s.toList t.toList + editDistance t.toList w.toList
  inTwoRows : inTwoRows s.toList t.toList = editDistance s.toList t.toList

theorem editDistanceLaw (s t : String) : EditDistanceLaw s t where
  least := by
    rw [editDistance_eq]
    exact distance_isLeast s.toList t.toList
  symm := by
    rw [editDistance_eq, editDistance_eq, distance_symm]
  zero_iff := by
    rw [editDistance_eq, distance_eq_zero_iff, String.toList_inj]
  triangle w := by
    simp only [editDistance_eq]
    exact distance_triangle s.toList t.toList w.toList
  inTwoRows := by
    rw [inTwoRows_eq, editDistance_eq]

end QuantityCalculus
