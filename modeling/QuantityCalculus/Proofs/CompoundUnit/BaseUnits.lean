import QuantityCalculus.Proofs.CompoundUnit.Construction
import QuantityCalculus.Proofs.CompoundUnit.Conversion
import QuantityCalculus.Proofs.CompoundUnit.Overflow

/-! Rewriting a unit in coherent units. The name of every family is a name of the table that stands for
a unit of this family. So when the powers of a unit are added up family by family, the names that
result have the dimensions of the names they replace, and the dimension of the unit stays the same.
The result has one name a family and is not changed by rewriting it again. -/

namespace QuantityCalculus

namespace Table

/-- The family of the unit that a name stands for. -/
def familyOf? (name : String) : Option Family := (lookup? name).map AtomicUnit.family

/-- Every family is its own family. -/
theorem familyOf?_name (f : Family) : familyOf? f.name = some f := by
  have h : ∀ f ∈ Family.all, familyOf? f.name = some f := by decide +kernel
  exact h f (Family.mem_all f)

theorem familyOf?_eq_some_iff {name : String} {f : Family} :
    familyOf? name = some f ↔ ∃ unit, lookup name = .ok unit ∧ unit.family = f := by
  simp only [familyOf?, Option.map_eq_some_iff, lookup_eq_ok_iff]

theorem unitDimension_of_familyOf? {name : String} {f : Family} (h : familyOf? name = some f) :
    unitDimension name = .ok f.dimension := by
  obtain ⟨unit, hu, rfl⟩ := Option.map_eq_some_iff.1 h
  exact unitDimension_eq_ok_iff.2 ⟨unit, hu, rfl⟩

end Table

theorem Family.name_injective : Function.Injective Family.name := by
  intro f g h
  have hf := Table.familyOf?_name f
  rw [h, Table.familyOf?_name] at hf
  exact (Option.some.inj hf).symm

namespace CompoundUnit

open Powers Table

/-- The sum of the powers whose names stand for units of a family. -/
def familyPower (f : Family) (ps : Powers) : ℚ :=
  ((ps.filter fun q => familyOf? q.1 = some f).map fun q => q.2.val).sum

/-- The name of a family other than that of the pure numbers. -/
def IsCoherent (name : String) : Prop := ∃ f : Family, f ≠ .dimensionless ∧ name = f.name

theorem IsCoherent.ne_dimensionless {name : String} (h : IsCoherent name) :
    name ≠ dimensionlessName := by
  obtain ⟨f, hf, rfl⟩ := h
  exact fun he => hf (Family.name_injective he)

theorem exponentOf_name {name : String} {f : Family} (h : familyOf? name = some f)
    (b : BaseQuantity) : exponentOf b name = exponentOf b f.name := by
  rw [exponentOf_eq (unitDimension_of_familyOf? h),
    exponentOf_eq (unitDimension_of_familyOf? (familyOf?_name f))]

theorem exponentOf_of_pureNumber {name : String} (h : familyOf? name = some .dimensionless)
    (b : BaseQuantity) : exponentOf b name = 0 :=
  (exponentOf_name h b).trans (exponentOf_dimensionless b)

@[simp] theorem familyPower_nil (f : Family) : familyPower f [] = 0 := rfl

theorem familyPower_cons (f : Family) (q : String × Exponent) (ps : Powers) :
    familyPower f (q :: ps) =
      (if familyOf? q.1 = some f then q.2.val else 0) + familyPower f ps := by
  unfold familyPower
  by_cases h : familyOf? q.1 = some f
  · simp [h]
  · simp [h]

/-! ### Adding up families -/

section Families

variable {ps qs rs : Powers} {q : String × Exponent}

/-- A pure number disappears, and any other power is merged into its family. -/
theorem gatherFamily_cases (h : gatherFamily ps q = .ok rs) :
    (familyOf? q.1 = some .dimensionless ∧ rs = ps) ∨
      ∃ f, f ≠ .dimensionless ∧ familyOf? q.1 = some f ∧ merge ps f.name q.2 = .ok rs := by
  obtain ⟨unit, hu, h⟩ := bind_eq_ok_iff.1 h
  have hf := familyOf?_eq_some_iff.2 ⟨unit, hu, rfl⟩
  split_ifs at h with hd
  · cases h
    exact .inl ⟨hd ▸ hf, rfl⟩
  · exact .inr ⟨unit.family, hd, hf, liftExponent_eq_ok_iff.1 h⟩

theorem gatherFamily_eq {f : Family} (hf : f ≠ .dimensionless) (h : familyOf? q.1 = some f) :
    gatherFamily ps q = liftExponent .badExponent (merge ps f.name q.2) := by
  obtain ⟨unit, hu, rfl⟩ := familyOf?_eq_some_iff.1 h
  simp only [gatherFamily, hu, bind, Except.bind, if_neg hf]

/-- What powers look like into which those of `qs` were merged family by family. -/
structure Regrouped (ps qs rs : Powers) : Prop where
  sound : Sound rs
  coherent : ∀ n ∈ names rs, IsCoherent n
  powerOf : ∀ f, f ≠ .dimensionless →
    (Powers.powerOf rs f.name).val = (Powers.powerOf ps f.name).val + familyPower f qs
  weigh : ∀ b, weigh (exponentOf b) rs = weigh (exponentOf b) ps + weigh (exponentOf b) qs

theorem gatherFamily_regrouped (hp : Sound ps) (hc : ∀ n ∈ names ps, IsCoherent n)
    (hq : Representable q.2.val) (h : gatherFamily ps q = .ok rs) : Regrouped ps [q] rs := by
  rcases gatherFamily_cases h with ⟨hd, rfl⟩ | ⟨f, hf, hn, hm⟩
  · refine ⟨hp, hc, fun g hg => ?_, fun b => ?_⟩
    · simp [familyPower_cons, hd, Ne.symm hg]
    · simp [exponentOf_of_pureNumber hd]
  · refine ⟨hp.merge hq hm, fun n hmem => ?_, fun g hg => ?_, fun b => ?_⟩
    · rcases (mem_names_merge hm n).1 hmem with hmem | rfl
      · exact hc n hmem
      · exact ⟨f, hf, rfl⟩
    · rw [powerOf_merge hm, familyPower_cons, hn, familyPower_nil, add_zero]
      by_cases he : g = f
      · simp [he]
      · simp [he, Ne.symm he, Family.name_injective.eq_iff]
    · rw [weigh_merge _ hm, weigh_cons, weigh_nil, add_zero, exponentOf_name hn]

theorem foldlM_gatherFamily_regrouped (hp : Sound ps) (hc : ∀ n ∈ names ps, IsCoherent n)
    (hq : ∀ q ∈ qs, Representable q.2.val) (h : qs.foldlM gatherFamily ps = .ok rs) :
    Regrouped ps qs rs := by
  induction qs generalizing ps with
  | nil =>
    cases h
    exact ⟨hp, hc, by simp, by simp⟩
  | cons q qs ih =>
    obtain ⟨hx, hq⟩ := List.forall_mem_cons.1 hq
    rw [List.foldlM_cons, bind_eq_ok_iff] at h
    obtain ⟨ms, hg, h⟩ := h
    have hs := gatherFamily_regrouped hp hc hx hg
    have ht := ih hs.sound hs.coherent hq h
    refine ⟨ht.sound, ht.coherent, fun f hf => ?_, fun b => ?_⟩
    · rw [ht.powerOf f hf, hs.powerOf f hf, familyPower_cons f q qs, familyPower_cons f q [],
        familyPower_nil, add_zero, add_assoc]
    · rw [ht.weigh, hs.weigh, weigh_cons _ q qs, weigh_cons _ q [], weigh_nil, add_zero, add_assoc]

/-- Distinct names of families are left as they are. -/
theorem foldlM_gatherFamily_of_coherent (hd : (names (ps ++ qs)).Nodup)
    (hc : ∀ q ∈ qs, IsCoherent q.1) : qs.foldlM gatherFamily ps = .ok (ps ++ qs) := by
  induction qs generalizing ps with
  | nil => simp [pure, Except.pure]
  | cons q qs ih =>
    obtain ⟨⟨f, hf, hn⟩, hc⟩ := List.forall_mem_cons.1 hc
    have hg : gatherFamily ps q = .ok (ps ++ [q]) := by
      rw [gatherFamily_eq hf (hn ▸ familyOf?_name f), ← hn,
        merge_of_notMem (notMem_names_of_nodup hd)]
      rfl
    rw [List.append_cons] at hd ⊢
    rw [List.foldlM_cons, hg]
    exact ih hd hc

end Families

/-! ### Units from distinct names -/

section Distinct

variable {ps qs rs : Powers} {d e : Dimension} {scale : Float} {u : CompoundUnit}

/-- Distinct names are gathered as they are. -/
theorem foldlM_gather_of_nodup (hd : (names (ps ++ qs)).Nodup)
    (hn : ∀ q ∈ qs, q.1 ≠ dimensionlessName) (h : qs.foldlM gather (ps, d) = .ok (rs, e)) :
    rs = ps ++ qs := by
  induction qs generalizing ps d with
  | nil =>
    cases h
    exact (List.append_nil _).symm
  | cons q qs ih =>
    obtain ⟨hq, hn⟩ := List.forall_mem_cons.1 hn
    rw [List.foldlM_cons, bind_eq_ok_iff] at h
    obtain ⟨⟨ms, g⟩, hg, h⟩ := h
    obtain ⟨-, -, -, -, hm⟩ := (gather_eq_ok_iff hq).1 hg
    rw [merge_of_notMem (notMem_names_of_nodup hd), Except.ok.injEq] at hm
    subst hm
    rw [List.append_cons] at hd ⊢
    exact ih hd hn h

theorem eq_build_of_ofComponents (hd : (names qs).Nodup) (hn : ∀ q ∈ qs, q.1 ≠ dimensionlessName)
    (h : ofComponents qs scale = .ok u) : u = build qs scale u.dimension := by
  obtain ⟨⟨rs, e⟩, hg, h⟩ := bind_eq_ok_iff.1 h
  cases h
  have hrs : rs = [] ++ qs := foldlM_gather_of_nodup hd hn hg
  rw [List.nil_append] at hrs
  subst hrs
  rfl

theorem pairContent_zero (name : String) : pairContent (name, 0) = 0 := by
  funext i
  rcases i with n | b
  · simp [pairContent]
  · simp [pairContent]

/-- Powers that are zero do not make a sum fit or not. -/
theorem SumsFitFrom.dropZeros {c : Content} (h : SumsFitFrom c (qs.map pairContent)) :
    SumsFitFrom c (qs.dropZeros.map pairContent) := by
  induction qs generalizing c with
  | nil => exact h
  | cons q qs ih =>
    rw [List.map_cons, sumsFitFrom_cons] at h
    by_cases hz : q.2 = 0
    · -- the sum with a zero power is the sum without it
      rw [show q = (q.1, 0) from Prod.ext rfl hz] at h ⊢
      rw [pairContent_zero, add_zero] at h
      rw [dropZeros_cons_zero]
      exact ih h.2
    · rw [dropZeros_cons_of_ne hz, List.map_cons, sumsFitFrom_cons]
      exact ⟨h.1, ih h.2⟩

theorem build_dropZeros (ps : Powers) (scale : Float) (d : Dimension) :
    build ps.dropZeros scale d = build ps scale d := by
  have hz : dropZeros ps.dropZeros = ps.dropZeros :=
    dropZeros_eq_self fun q hq => by simpa using (List.mem_filter.1 hq).2
  rw [build, build, hz]

/-- A unit of distinct names is made of its own components. -/
theorem ofComponents_components (hd : (names qs).Nodup) (hn : ∀ q ∈ qs, q.1 ≠ dimensionlessName)
    (h : ofComponents qs scale = .ok u) : ofComponents u.components scale = .ok u := by
  have hu := eq_build_of_ofComponents hd hn h
  have hc : u.components = qs.dropZeros := congrArg components hu
  have hz : ∀ q ∈ u.components, q.2 ≠ 0 := (wellFormed_ofComponents h).nonzero
  have hmem : ∀ q ∈ u.components, q ∈ qs := fun q hq => List.mem_of_mem_filter (hc ▸ hq)
  obtain ⟨hpairs, hsums⟩ := (ofComponents_reads qs scale).isOk_iff.1 ⟨u, h⟩
  have hsums : SumsFit (u.components.map pairContent) :=
    hc ▸ sumsFitFrom_zero.1 (sumsFitFrom_zero.2 hsums).dropZeros
  obtain ⟨v, hv⟩ := (ofComponents_reads u.components scale).isOk_iff.2
    ⟨fun q hq => hpairs q (hmem q hq), hsums⟩
  have hnodup := (wellFormed_ofComponents h).agrees.sound.nodup
  have hv' := eq_build_of_ofComponents hnodup (fun q hq => hn q (hmem q hq)) hv
  have hcomp : v.components = u.components := (congrArg components hv').trans (dropZeros_eq_self hz)
  -- both have the same components, and these determine the dimension
  have hdim : v.dimension = u.dimension :=
    (wellFormed_ofComponents hv).dimension_eq_of_perm (wellFormed_ofComponents h) (hcomp ▸ .refl _)
  rw [hv, hv', hdim, hc, build_dropZeros, ← hu]

end Distinct

/-! ### Rewriting -/

section Rewriting

variable {u b : CompoundUnit}

section Regrouped

variable {families : Powers}

theorem Regrouped.isCoherent {ps : Powers} (h : Regrouped [] ps families) :
    ∀ q ∈ families, IsCoherent q.1 :=
  fun q hq => h.coherent q.1 (List.mem_map_of_mem hq)

theorem Regrouped.ne_dimensionless {ps : Powers} (h : Regrouped [] ps families) :
    ∀ q ∈ families, q.1 ≠ dimensionlessName :=
  fun q hq => (h.isCoherent q hq).ne_dimensionless

theorem Regrouped.components_eq {ps : Powers} (h : Regrouped [] ps families)
    (hb : ofComponents families 1.0 = .ok b) : b.components = families.dropZeros :=
  congrArg components (eq_build_of_ofComponents h.sound.nodup h.ne_dimensionless hb)

theorem Regrouped.powerOf_eq (h : Regrouped [] u.components families)
    (hb : ofComponents families 1.0 = .ok b) {f : Family} (hf : f ≠ .dimensionless) :
    (b.powerOf f.name).val = familyPower f u.components := by
  rw [CompoundUnit.powerOf, h.components_eq hb, powerOf_dropZeros h.sound.nodup, h.powerOf f hf,
    powerOf_nil, Exponent.zero_val, zero_add]

/-- Every name has the dimension of the name of its family. -/
theorem Regrouped.dimension_eq (h : Regrouped [] u.components families) (hu : WellFormed u)
    (hb : ofComponents families 1.0 = .ok b) : b.dimension = u.dimension := by
  refine Dimension.ext fun i => Exponent.ext ?_
  rw [(wellFormed_ofComponents hb).agrees.dimension_val, hu.agrees.dimension_val,
    h.components_eq hb, weigh_dropZeros, h.weigh, weigh_nil, zero_add]

/-- Families are not regrouped again. -/
theorem Regrouped.toBaseUnits_eq {ps : Powers} (h : Regrouped [] ps families)
    (hb : ofComponents families 1.0 = .ok b) : b.toBaseUnits = .ok b := by
  have hc : ∀ q ∈ b.components, IsCoherent q.1 := by
    rw [h.components_eq hb]
    exact fun q hq => h.isCoherent q (List.mem_of_mem_filter hq)
  have hg : b.components.foldlM gatherFamily [] = .ok b.components :=
    foldlM_gatherFamily_of_coherent (wellFormed_ofComponents hb).agrees.sound.nodup hc
  rw [toBaseUnits, hg]
  exact ofComponents_components h.sound.nodup h.ne_dimensionless hb

end Regrouped

theorem WellFormed.toBaseUnits_cases (hu : WellFormed u) (h : u.toBaseUnits = .ok b) :
    ∃ families, Regrouped [] u.components families ∧ ofComponents families 1.0 = .ok b := by
  obtain ⟨families, hf, hb⟩ := bind_eq_ok_iff.1 h
  exact ⟨families,
    foldlM_gatherFamily_regrouped sound_nil (by simp) hu.agrees.sound.representable hf, hb⟩

/-- How a unit is rewritten as `b`. -/
structure Rewritten (u b : CompoundUnit) : Prop where
  scale_eq : b.scale = 1.0
  names : ∀ q ∈ b.components, q.1 ≠ dimensionlessName ∧
    ∃ f : Family, q.1 = f.name ∧ familyOf? q.1 = some f
  powerOf_eq : ∀ f : Family, f ≠ .dimensionless →
    (b.powerOf f.name).val = familyPower f u.components
  dimension_eq : b.dimension = u.dimension
  again : b.toBaseUnits = .ok b ∧ (b == b) = true

theorem WellFormed.rewritten (hu : WellFormed u) (h : u.toBaseUnits = .ok b) : Rewritten u b := by
  obtain ⟨families, hr, hb⟩ := hu.toBaseUnits_cases h
  have hwf := wellFormed_ofComponents hb
  have hscale := scale_of_ofComponents hb
  constructor
  case scale_eq => exact hscale
  case names =>
    intro q hq
    rw [hr.components_eq hb] at hq
    have hq := List.mem_of_mem_filter hq
    obtain ⟨f, -, hf⟩ := hr.isCoherent q hq
    exact ⟨hr.ne_dimensionless q hq, f, hf, hf ▸ familyOf?_name f⟩
  case powerOf_eq => exact fun f hf => hr.powerOf_eq hb hf
  case dimension_eq => exact hr.dimension_eq hu hb
  case again =>
    have hone : (b.scale == b.scale) = true := by
      rw [hscale]
      decide +kernel
    exact ⟨hr.toBaseUnits_eq hb, beq_self hwf.reduced hone⟩

/-! ### Failures -/

theorem gather_failsOnly {q : String × Exponent} (h : ∃ unit, lookup? q.1 = some unit)
    (acc : Powers × Dimension) : FailsOnly IsOverflow (gather acc q) := by
  obtain ⟨name, x⟩ := q
  obtain ⟨unit, hu⟩ := h
  have hd := unitDimension_eq_ok_iff.2 ⟨unit, hu, rfl⟩
  unfold gather
  dsimp only
  split_ifs
  · exact failsOnly_ok acc
  · refine (Exponent.neg_failsByOverflow x).lift.bind fun _ _ => ?_
    rw [hd]
    refine (failsOnly_ok _).bind fun d _ => ?_
    refine (d.scale_failsByOverflow x).lift.bind fun scaled _ => ?_
    refine (acc.2.add_failsByOverflow scaled).lift.bind fun _ _ => ?_
    exact (merge_failsByOverflow acc.1 name x).lift.bind fun _ _ => failsOnly_ok _

theorem ofComponents_failsOnly {components : Powers}
    (h : ∀ q ∈ components, ∃ unit, lookup? q.1 = some unit) (scale : Float) :
    FailsOnly IsOverflow (ofComponents components scale) :=
  (failsOnly_foldlM (fun q hq => gather_failsOnly (h q hq)) _).bind fun _ _ => failsOnly_ok _

theorem gatherFamily_failsOnly {q : String × Exponent} (h : ∃ unit, lookup? q.1 = some unit)
    (acc : Powers) : FailsOnly IsOverflow (gatherFamily acc q) := by
  obtain ⟨unit, hu⟩ := h
  unfold gatherFamily
  rw [lookup_eq_ok_iff.2 hu]
  refine (failsOnly_ok _).bind fun unit _ => ?_
  split_ifs
  · exact failsOnly_ok acc
  · exact (merge_failsByOverflow acc unit.family.name q.2).lift

theorem WellFormed.toBaseUnits_failsOnly (hu : WellFormed u) :
    FailsOnly IsOverflow u.toBaseUnits := by
  have hknown : ∀ q ∈ u.components, ∃ unit, lookup? q.1 = some unit :=
    fun q hq => (hu.agrees.known q.1 (List.mem_map_of_mem hq)).2
  refine (failsOnly_foldlM (fun q hq => gatherFamily_failsOnly (hknown q hq)) []).bind
    fun families hf => ofComponents_failsOnly (fun q hq => ?_) 1.0
  have hr := foldlM_gatherFamily_regrouped sound_nil (by simp) hu.agrees.sound.representable hf
  obtain ⟨f, -, hn⟩ := hr.isCoherent q hq
  obtain ⟨unit, hl, -⟩ := Option.map_eq_some_iff.1 (familyOf?_name f)
  exact ⟨unit, hn ▸ hl⟩

end Rewriting

end CompoundUnit

/-! ### Quantities in coherent units -/

namespace Quantity

variable {q : Quantity}

/-- The rewritten unit has the dimension of the unit, so that a quantity can be converted to it. -/
theorem inUnit_of_toBaseUnits (hq : q.unit.WellFormed) {b : CompoundUnit}
    (h : q.unit.toBaseUnits = .ok b) : ∃ f : Float → Float, q.inUnit b = .ok ⟨q.magnitude.map f, b⟩ :=
  inUnit_of_eq hq (CompoundUnit.wellFormed_toBaseUnits h) (hq.rewritten h).dimension_eq.symm

theorem toBaseUnits_isOk_iff (hq : q.unit.WellFormed) :
    (∃ p, q.toBaseUnits = .ok p) ↔ ∃ b, q.unit.toBaseUnits = .ok b := by
  simp only [toBaseUnits, bind_eq_ok_iff]
  constructor
  · rintro ⟨p, b, hb, -⟩
    exact ⟨b, hb⟩
  · rintro ⟨b, hb⟩
    obtain ⟨f, hp⟩ := inUnit_of_toBaseUnits hq hb
    exact ⟨_, b, hb, hp⟩

theorem toBaseUnits_failsOnly (hq : q.unit.WellFormed) : FailsOnly IsOverflow q.toBaseUnits := by
  refine hq.toBaseUnits_failsOnly.bind fun b hb => ?_
  obtain ⟨f, hp⟩ := inUnit_of_toBaseUnits hq hb
  rw [hp]
  exact failsOnly_ok _

end Quantity

namespace CompoundUnit

/-- The law of rewriting a unit, and the quantities measured in it, in coherent units. -/
structure BaseUnitLaw (u : CompoundUnit) : Prop where
  rewritten : ∀ b, u.toBaseUnits = .ok b → Rewritten u b
  quantity_isOk_iff : ∀ magnitude : Magnitude Float,
    (∃ p, (Quantity.mk magnitude u).toBaseUnits = .ok p) ↔ ∃ b, u.toBaseUnits = .ok b
  /-- Only an exponent that is too large prevents it, and never the dimension. -/
  quantity_error : ∀ (magnitude : Magnitude Float) (e : Error),
    (Quantity.mk magnitude u).toBaseUnits = .error e → IsOverflow e ∧ e.kind ≠ .dimension

theorem Reachable.baseUnitLaw {u : CompoundUnit} (h : Reachable u) : BaseUnitLaw u where
  rewritten b := h.wellFormed.rewritten
  quantity_isOk_iff magnitude := Quantity.toBaseUnits_isOk_iff h.wellFormed
  quantity_error magnitude e he := by
    obtain ⟨n, d, rfl⟩ := Quantity.toBaseUnits_failsOnly (q := ⟨magnitude, u⟩) h.wellFormed e he
    exact ⟨⟨n, d, rfl⟩, nofun⟩

/-- Aliases, names with prefixes, a family that cancels and one of pure numbers. -/
theorem baseUnitLaw_cancelling : ∃ u b, Reachable u ∧ u.toBaseUnits = .ok b ∧
    u.components.map Prod.fst = ["kN", "foot", "mm", "percent", "minute", "hour"] ∧
    b.name = "newton * meter" ∧ BaseUnitLaw u := by
  have hrun : (do
      let u ← parse "kN * foot^(1/2) * mm^(1/2) * percent * minute / hour"
      let b ← u.toBaseUnits
      pure (u.components.map Prod.fst, b.name)).toOption =
        some (["kN", "foot", "mm", "percent", "minute", "hour"], "newton * meter") := by
    decide +kernel
  simp only [toOption_eq_some_iff, bind_eq_ok_iff, pure, Except.pure, Except.ok.injEq,
    Prod.mk.injEq] at hrun
  obtain ⟨u, hu, b, hb, hnames, hname⟩ := hrun
  exact ⟨u, b, .parseScaled hu, hb, hnames, hname, Reachable.baseUnitLaw (.parseScaled hu)⟩

end CompoundUnit

end QuantityCalculus
