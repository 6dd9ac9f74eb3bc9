import QuantityCalculus.Proofs.Magnitude.Shape

/-! Magnitudes that are combined with others. The values of each of them are the parts of the elements
they combine to, either all of them or a single one that the elements share; and so are the results of
an operation, value by value. -/

namespace QuantityCalculus.Magnitude

variable {α β γ δ ε : Type} {es : Magnitude δ} {f : δ → α} {g : δ → β} {m : Magnitude α}
  {n : Magnitude β}

theorem map_congr_of_mem {f g : δ → α} (h : ∀ e ∈ es.toList, f e = g e) : es.map f = es.map g := by
  cases es with
  | scalar e => exact congrArg scalar (h e List.mem_cons_self)
  | row es => exact congrArg row (List.map_congr_left h)

/-- A magnitude holds a part of each element, or the part that all of them share. -/
inductive Repeats (es : Magnitude δ) (f : δ → α) : Magnitude α → Prop
  | whole : Repeats es f (es.map f)
  | single {x : α} : (∀ e ∈ es.toList, f e = x) → Repeats es f (.scalar x)

theorem Repeats.of_map_eq (h : es.map f = m) : Repeats es f m := h ▸ .whole

theorem Repeats.map (h : Repeats es f m) (k : α → γ) : Repeats es (fun e => k (f e)) (m.map k) := by
  cases h with
  | whole => exact .of_map_eq (map_map f k es).symm
  | single h => exact .single fun e he => congrArg k (h e he)

theorem Repeats.mem (h : Repeats es f m) : ∀ e ∈ es.toList, f e ∈ m.toList := by
  cases h with
  | whole => exact forall_mem_toList_map.1 fun _ ha => ha
  | single h => exact fun e he => List.mem_singleton.2 (h e he)

/-- A part of a part. -/
theorem Repeats.comp {ds : Magnitude ε} {h : ε → δ} (hm : Repeats es f m) (hes : Repeats ds h es) :
    Repeats ds (fun d => f (h d)) m := by
  cases hm with
  | whole => exact hes.map f
  | single hm => exact .single fun d hd => hm (h d) (hes.mem d hd)

/-- Magnitudes that the elements are combined from. -/
theorem repeats_of_zipWith {mk : α → β → δ} (hf : ∀ a b, f (mk a b) = a) (hg : ∀ a b, g (mk a b) = b)
    (h : m.zipWith mk n = .ok es) : Repeats es f m ∧ Repeats es g n := by
  cases m with
  | scalar a =>
    rw [scalar_zipWith] at h
    cases h
    refine ⟨.single (forall_mem_toList_map.2 fun b _ => hf a b), .of_map_eq ?_⟩
    rw [map_map]
    simp only [hg]
    exact map_id n
  | row as =>
    cases n with
    | scalar b =>
      rw [zipWith_scalar] at h
      cases h
      refine ⟨.of_map_eq ?_, .single (forall_mem_toList_map.2 fun a _ => hg a b)⟩
      rw [map_map]
      simp only [hf]
      exact map_id _
    | row bs =>
      rw [zipWith] at h
      split at h
      · rename_i hlength
        cases h
        refine ⟨.of_map_eq (congrArg row ?_), .of_map_eq (congrArg row ?_)⟩
        · refine List.ext_getElem (by simp [hlength]) fun i _ _ => ?_
          rw [List.getElem_map, List.getElem_zipWith, hf]
        · refine List.ext_getElem (by simp [hlength]) fun i _ _ => ?_
          rw [List.getElem_map, List.getElem_zipWith, hg]
      · cases h

/-- What has the shape of the elements has a part of each. -/
theorem Repeats.eq_map (h : Repeats es f m) (hshape : m.shape = es.shape) : m = es.map f := by
  cases h with
  | whole => rfl
  | single h =>
    cases es with
    | scalar e => exact congrArg scalar (h e List.mem_cons_self).symm
    | row es => cases hshape

/-- An operation on magnitudes acts on the parts of each element. -/
theorem Repeats.zipWith (hm : Repeats es f m) (hn : Repeats es g n) (k : α → β → γ) :
    ∃ r, m.zipWith k n = .ok r ∧ Repeats es (fun e => k (f e) (g e)) r := by
  cases hm with
  | whole =>
    cases hn with
    | whole =>
      cases es with
      | scalar e => exact ⟨_, rfl, .of_map_eq rfl⟩
      | row es =>
        have hlength : (es.map f).length = (es.map g).length := by
          rw [List.length_map, List.length_map]
        refine ⟨_, if_pos hlength, .of_map_eq ?_⟩
        rw [List.zipWith_map, List.zipWith_self]
        rfl
    | @single y hn =>
      refine ⟨_, zipWith_scalar k _ y, .of_map_eq ?_⟩
      rw [map_map]
      exact map_congr_of_mem fun e he => by rw [hn e he]
  | @single x hm =>
    cases hn with
    | whole =>
      refine ⟨_, scalar_zipWith k x _, .of_map_eq ?_⟩
      rw [map_map]
      exact map_congr_of_mem fun e he => by rw [hm e he]
    | @single y hn => exact ⟨_, rfl, .single fun e he => by rw [hm e he, hn e he]⟩

theorem Repeats.zipWith_eq_ok (hm : Repeats es f m) (hn : Repeats es g n)
    (hshape : es.shape = commonShape m.shape n.shape) (k : α → β → γ) :
    m.zipWith k n = .ok (es.map fun e => k (f e) (g e)) := by
  obtain ⟨r, hr, h⟩ := hm.zipWith hn k
  rw [hr, h.eq_map ((shape_zipWith hr).trans hshape.symm)]

end QuantityCalculus.Magnitude
