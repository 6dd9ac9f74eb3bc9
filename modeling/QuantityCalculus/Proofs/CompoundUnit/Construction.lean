import QuantityCalculus.Proofs.Binary64.One
import QuantityCalculus.Proofs.CompoundUnit.Equality
import QuantityCalculus.Proofs.CompoundUnit.Outcome

/-! Units from named powers, at once and one by one. Gathering a named power adds its content to what
was gathered before, and succeeds exactly if the name is known and both contents are representable.
Names whose powers have cancelled stay in place while powers are gathered, and are dropped after every
product of units; the contents, and so the outcomes, are the same. Only the sum of all contents is left
in the result, so that the order of the names does not count. -/

namespace QuantityCalculus.CompoundUnit

open Powers

/-- The exponents that a named power stands for. The name of the pure number counts for nothing. -/
def pairContent (q : String × Exponent) : Content
  | .inl n => if n = q.1 ∧ q.1 ≠ dimensionlessName then q.2.val else 0
  | .inr b => q.2.val * Table.exponentOf b q.1

/-- A power of a known name whose exponents are representable. -/
def IsPair (q : String × Exponent) : Prop :=
  (∃ unit, Table.lookup? q.1 = some unit) ∧ ∀ i, Representable (pairContent q i)

/-- The exponents gathered so far. -/
def gathered (acc : Powers × Dimension) : Content :=
  Sum.elim (fun n => (Powers.powerOf acc.1 n).val) fun b => (acc.2.get b).val

theorem gathered_nil : gathered ([], .dimensionless) = 0 := by
  funext i
  rcases i with n | b
  · rfl
  · exact congrArg Exponent.val (Dimension.get_dimensionless b)

section Pair

variable {name : String} {x : Exponent}

theorem pairContent_dimensionless : pairContent (dimensionlessName, x) = 0 := by
  funext i
  rcases i with n | b
  · simp [pairContent]
  · simp [pairContent, exponentOf_dimensionless]

theorem isPair_dimensionless : IsPair (dimensionlessName, x) := by
  obtain ⟨unit, hu, -⟩ := lookup_dimensionless
  refine ⟨⟨unit, hu⟩, fun i => ?_⟩
  rw [pairContent_dimensionless]
  exact representable_zero

theorem gathered_add_representable_iff {ps : Powers} {d : Dimension} (hp : Sound ps)
    (hn : name ≠ dimensionlessName) :
    (∀ i, Representable ((gathered (ps, d) + pairContent (name, x)) i)) ↔
      Representable ((Powers.powerOf ps name).val + x.val) ∧
        ∀ b, Representable ((d.get b).val + x.val * Table.exponentOf b name) := by
  rw [forall_representable_iff]
  refine and_congr_left fun _ => ⟨fun h => ?_, fun h n => ?_⟩
  · simpa [gathered, pairContent, hn] using h name
  · by_cases he : n = name
    · subst he
      simpa [gathered, pairContent, hn] using h
    · simpa [gathered, pairContent, he] using hp.representable_powerOf n

theorem representable_pairContent_iff (hn : name ≠ dimensionlessName) :
    (∀ i, Representable (pairContent (name, x) i)) ↔
      Representable x.val ∧ ∀ b, Representable (x.val * Table.exponentOf b name) := by
  have h := gathered_add_representable_iff (d := .dimensionless) (x := x) sound_nil hn
  rw [gathered_nil, zero_add] at h
  simpa using h

end Pair

theorem Agrees.representable_gathered {ps : Powers} {d : Dimension} (hp : Agrees ps d) :
    ∀ i, Representable (gathered (ps, d) i) :=
  forall_representable_iff.2 ⟨hp.sound.representable_powerOf, hp.dimension_representable⟩

/-! ### One step -/

section Step

variable {ps rs : Powers} {d e : Dimension} {q : String × Exponent}

theorem gather_isOk_iff (hp : Agrees ps d) :
    (∃ acc, gather (ps, d) q = .ok acc) ↔
      IsPair q ∧ ∀ i, Representable ((gathered (ps, d) + pairContent q) i) := by
  obtain ⟨name, x⟩ := q
  by_cases hn : name = dimensionlessName
  · subst hn
    rw [pairContent_dimensionless, add_zero]
    simp [isPair_dimensionless, hp.representable_gathered]
  · rw [IsPair, representable_pairContent_iff hn, gathered_add_representable_iff hp.sound hn]
    constructor
    · rintro ⟨⟨rs, e⟩, h⟩
      obtain ⟨hx, hu, hscaled, htotal, hm⟩ := (gather_eq_ok_iff hn).1 h
      exact ⟨⟨hu, hx, hscaled⟩, (merge_isOk_iff hx).1 ⟨rs, hm⟩, fun b => (htotal b).1⟩
    · rintro ⟨⟨hu, hx, hscaled⟩, hsum, htotal⟩
      obtain ⟨rs, hm⟩ := (merge_isOk_iff hx).2 hsum
      refine ⟨(rs, .ofFn fun b => ⟨_, (htotal b).fits⟩), (gather_eq_ok_iff hn).2
        ⟨hx, hu, hscaled, fun b => ⟨htotal b, ?_⟩, hm⟩⟩
      rw [Dimension.get_ofFn]

theorem gathered_of_gather (h : gather (ps, d) q = .ok (rs, e)) :
    gathered (rs, e) = gathered (ps, d) + pairContent q := by
  obtain ⟨name, x⟩ := q
  by_cases hn : name = dimensionlessName
  · subst hn
    rw [gather_dimensionless] at h
    cases h
    rw [pairContent_dimensionless, add_zero]
  · obtain ⟨-, -, -, htotal, hm⟩ := (gather_eq_ok_iff hn).1 h
    funext i
    rcases i with n | b
    · have hpow := powerOf_merge hm n
      by_cases he : n = name
      · simpa [gathered, pairContent, he, hn] using hpow
      · simpa [gathered, pairContent, he] using hpow
    · exact (htotal b).2

end Step

/-! ### All at once -/

section Bulk

variable {components : Powers}

theorem foldlM_gather_isOk_iff (components : Powers) {ps : Powers} {d : Dimension}
    (hp : Agrees ps d) :
    (∃ acc, components.foldlM gather (ps, d) = .ok acc) ↔
      (∀ q ∈ components, IsPair q) ∧
        SumsFitFrom (gathered (ps, d)) (components.map pairContent) := by
  -- that powers and dimension agree is kept along the way, and makes every sum so far fit
  induction components generalizing ps d with
  | nil =>
    rw [List.map_nil, sumsFitFrom_nil]
    exact iff_of_true ⟨_, rfl⟩ ⟨by simp, hp.representable_gathered⟩
  | cons q components ih =>
    rw [← acceptable_cons hp.representable_gathered, ← gather_isOk_iff hp]
    simp only [List.foldlM_cons, bind_eq_ok_iff]
    constructor
    · rintro ⟨acc, ⟨rs, e⟩, hg, h⟩
      rw [← gathered_of_gather hg, ← ih (gather_agrees hp hg)]
      exact ⟨⟨_, hg⟩, acc, h⟩
    · rintro ⟨⟨⟨rs, e⟩, hg⟩, h⟩
      rw [← gathered_of_gather hg, ← ih (gather_agrees hp hg)] at h
      obtain ⟨acc, h⟩ := h
      exact ⟨acc, _, hg, h⟩

theorem gathered_of_foldlM_gather {acc acc' : Powers × Dimension}
    (h : components.foldlM gather acc = .ok acc') :
    gathered acc' = gathered acc + (components.map pairContent).sum := by
  induction components generalizing acc with
  | nil =>
    cases h
    exact (add_zero _).symm
  | cons q components ih =>
    rw [List.foldlM_cons, bind_eq_ok_iff] at h
    obtain ⟨next, hg, h⟩ := h
    rw [ih h, gathered_of_gather hg, List.map_cons, List.sum_cons, add_assoc]

/-- A unit is made of named powers exactly if all names are known and all sums that arise on the way
are representable. -/
theorem ofComponents_reads (components : Powers) (scale : Float) :
    Reads (ofComponents components scale)
      ((∀ q ∈ components, IsPair q) ∧ SumsFit (components.map pairContent))
      (components.map pairContent).sum := by
  have hok := foldlM_gather_isOk_iff components agrees_nil
  rw [gathered_nil, sumsFitFrom_zero] at hok
  refine ⟨?_, fun _ => wellFormed_ofComponents, fun u hu => ?_⟩
  · rw [← hok]
    simp only [ofComponents, bind_eq_ok_iff]
    constructor
    · rintro ⟨u, acc, hg, -⟩
      exact ⟨acc, hg⟩
    · rintro ⟨acc, hg⟩
      exact ⟨_, acc, hg, rfl⟩
  · simp only [ofComponents, bind_eq_ok_iff] at hu
    obtain ⟨⟨rs, e⟩, hg, hu⟩ := hu
    cases hu
    rw [content_build (foldlM_gather_agrees agrees_nil hg).sound.nodup]
    have hc := gathered_of_foldlM_gather hg
    rwa [gathered_nil, zero_add] at hc

theorem ofComponents_singleton_reads (q : String × Exponent) (scale : Float) :
    Reads (ofComponents [q] scale) (IsPair q) (pairContent q) := by
  refine (ofComponents_reads [q] scale).congr ?_ List.sum_singleton
  rw [List.forall_mem_singleton, List.map_singleton, sumsFit_singleton]
  exact and_iff_left_of_imp And.right

theorem scale_of_ofComponents {scale : Float} {u : CompoundUnit}
    (h : ofComponents components scale = .ok u) : u.scale = scale := by
  obtain ⟨acc, -, h⟩ := bind_eq_ok_iff.1 h
  cases h
  rfl

end Bulk

/-! ### One by one -/

/-- The units of the single named powers. -/
def Singles (components : Powers) (units : List CompoundUnit) : Prop :=
  List.Forall₂ (fun q v => ofComponents [q] 1.0 = .ok v) components units

/-- Reading pieces while multiplying is reading them all and multiplying then. -/
theorem foldlM_read_multiply_eq_ok_iff {α : Type} {parse : α → Except Error CompoundUnit}
    {pieces : List α} {u w : CompoundUnit} :
    pieces.foldlM (fun acc piece => do
        liftExponent .badExponent (acc.multiply (← parse piece))) u = .ok w ↔
      ∃ units, List.Forall₂ (fun p v => parse p = .ok v) pieces units ∧
        units.foldlM multiply u = .ok w := by
  induction pieces generalizing u with
  | nil => simp [pure, Except.pure]
  | cons p pieces ih =>
    simp only [List.foldlM_cons, bind_eq_ok_iff, liftExponent_eq_ok_iff, ih,
      List.forall₂_cons_left_iff]
    constructor
    · rintro ⟨t, ⟨v, hv, ht⟩, units, hunits, h⟩
      refine ⟨v :: units, ⟨v, units, hv, hunits, rfl⟩, ?_⟩
      rw [List.foldlM_cons, bind_eq_ok_iff]
      exact ⟨t, ht, h⟩
    · rintro ⟨_, ⟨v, units, hv, hunits, rfl⟩, h⟩
      rw [List.foldlM_cons, bind_eq_ok_iff] at h
      obtain ⟨t, ht, h⟩ := h
      exact ⟨t, ⟨v, hv, ht⟩, units, hunits, h⟩

/-- A product of units of scale one has scale one. -/
theorem scale_foldlM_multiply {units : List CompoundUnit} {u w : CompoundUnit}
    (hs : ∀ v ∈ units, v.scale = 1.0) (hu : u.scale = 1.0)
    (h : units.foldlM multiply u = .ok w) : w.scale = 1.0 := by
  induction units generalizing u with
  | nil =>
    cases h
    exact hu
  | cons v units ih =>
    obtain ⟨hv, hs⟩ := List.forall_mem_cons.1 hs
    rw [List.foldlM_cons, bind_eq_ok_iff] at h
    obtain ⟨t, ht, h⟩ := h
    obtain ⟨rs, d, -, -, rfl⟩ := multiply_eq_ok_iff.1 ht
    refine ih hs ?_ h
    show u.scale * v.scale = 1.0
    rw [hu, hv, Binary64.one_mul]

section Law

variable {components : Powers} {units : List CompoundUnit} {u w : CompoundUnit}

theorem Singles.scale_eq (h : Singles components units) : ∀ v ∈ units, v.scale = 1.0 := by
  induction h with
  | nil => simp
  | cons hv _ ih => exact List.forall_mem_cons.2 ⟨scale_of_ofComponents hv, ih⟩

/-- Multiplying the units of the single powers reads like making one unit of them all. -/
theorem singles_reads (components : Powers) :
    Reads (components.foldlM (fun acc q => do
        liftExponent .badExponent (acc.multiply (← ofComponents [q] 1.0))) dimensionless)
      ((∀ q ∈ components, IsPair q) ∧ SumsFit (components.map pairContent))
      (components.map pairContent).sum := by
  refine (foldlM_multiply_reads (fun q _ => ofComponents_singleton_reads q 1.0)
    wellFormed_dimensionless).congr ?_ ?_
  · rw [content_dimensionless, sumsFitFrom_zero]
  · rw [content_dimensionless, zero_add]

/-- What it means that named powers make the same unit at once and one by one, in any order. -/
structure ConstructionLaw (components : Powers) : Prop where
  isOk_iff : (∃ u, ofComponents components 1.0 = .ok u) ↔
    ∃ units w, Singles components units ∧ units.foldlM multiply dimensionless = .ok w
  agree : ∀ u units w, ofComponents components 1.0 = .ok u → Singles components units →
    units.foldlM multiply dimensionless = .ok w → (u == w) = true ∧ u.dimension = w.dimension
  arranged : ∀ components' u u', components.Perm components' →
    ofComponents components 1.0 = .ok u → ofComponents components' 1.0 = .ok u' →
      (u == u') = true ∧ u.dimension = u'.dimension

theorem constructionLaw (components : Powers) : ConstructionLaw components := by
  have hbulk := ofComponents_reads components 1.0
  have hsingle := singles_reads components
  have hone : ((1.0 : Float) == 1.0) = true := by decide +kernel
  constructor
  case isOk_iff =>
    rw [hbulk.isOk_iff, ← hsingle.isOk_iff]
    simp only [foldlM_read_multiply_eq_ok_iff]
    exact exists_comm
  case agree =>
    intro u units w hu hunits hw
    have hread := foldlM_read_multiply_eq_ok_iff.2 ⟨units, hunits, hw⟩
    have hscale : (u.scale == w.scale) = true := by
      rw [scale_of_ofComponents hu, scale_foldlM_multiply hunits.scale_eq rfl hw]
      exact hone
    refine (hbulk.wellFormed u hu).beq_of_content_eq (hsingle.wellFormed w hread) hscale ?_
    rw [hbulk.content_eq u hu, hsingle.content_eq w hread]
  case arranged =>
    intro components' u u' hp hu hu'
    have hbulk' := ofComponents_reads components' 1.0
    have hscale : (u.scale == u'.scale) = true := by
      rw [scale_of_ofComponents hu, scale_of_ofComponents hu']
      exact hone
    refine (hbulk.wellFormed u hu).beq_of_content_eq (hbulk'.wellFormed u' hu') hscale ?_
    rw [hbulk.content_eq u hu, hbulk'.content_eq u' hu', (hp.map pairContent).sum_eq]

end Law

end QuantityCalculus.CompoundUnit
