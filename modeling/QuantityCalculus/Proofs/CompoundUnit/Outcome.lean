import QuantityCalculus.Proofs.CompoundUnit.Algebra

/-! Outcomes of reading. A text that stands for some content is read exactly if it is accepted, and
then as a unit of this content. Multiplying the units that are read from several pieces forms the sums
of initial parts of their contents, and all of these must be representable. -/

namespace QuantityCalculus.CompoundUnit

/-- The outcome of reading a text that stands for content `c`. -/
structure Reads (r : Except Error CompoundUnit) (accepted : Prop) (c : Content) : Prop where
  isOk_iff : (∃ u, r = .ok u) ↔ accepted
  wellFormed : ∀ u, r = .ok u → WellFormed u
  content_eq : ∀ u, r = .ok u → u.content = c

section Outcomes

variable {r r' : Except Error CompoundUnit} {accepted accepted' : Prop} {c c' : Content}

theorem Reads.congr (h : Reads r accepted c) (ha : accepted ↔ accepted') (hc : c = c') :
    Reads r accepted' c' := by
  subst hc
  exact ⟨h.isOk_iff.trans ha, h.wellFormed, h.content_eq⟩

theorem reads_error (e : Error) (c : Content) (h : ¬ accepted) : Reads (.error e) accepted c := by
  refine ⟨by simp [h], ?_, ?_⟩
  · intro u hu
    cases hu
  · intro u hu
    cases hu

theorem reads_ok {u : CompoundUnit} (h : accepted) (hu : WellFormed u) (hc : u.content = c) :
    Reads (.ok u) accepted c := by
  refine ⟨by simp [h], ?_, ?_⟩
  · rintro _ ⟨⟩
    exact hu
  · rintro _ ⟨⟩
    exact hc

theorem Reads.bind {f : CompoundUnit → Except Error CompoundUnit} (h : Reads r accepted c)
    (hf : ∀ u, WellFormed u → u.content = c → Reads (f u) accepted' c') :
    Reads (r >>= f) (accepted ∧ accepted') c' := by
  cases r with
  | error e =>
    apply reads_error e c'
    rintro ⟨ha, -⟩
    obtain ⟨u, hu⟩ := h.isOk_iff.2 ha
    cases hu
  | ok u =>
    have ha : accepted := h.isOk_iff.1 ⟨u, rfl⟩
    refine (hf u (h.wellFormed u rfl) (h.content_eq u rfl)).congr ?_ rfl
    simp [ha]

theorem Yields.reads {r : Except ExponentError CompoundUnit} (h : Yields r c)
    (hw : ∀ w, r = .ok w → WellFormed w) (wrap : ExponentError → Error) :
    Reads (liftExponent wrap r) (∀ i, Representable (c i)) c := by
  refine ⟨?_, ?_, ?_⟩
  · simp only [liftExponent_eq_ok_iff]
    exact h.isOk_iff
  · simp only [liftExponent_eq_ok_iff]
    exact hw
  · simp only [liftExponent_eq_ok_iff]
    exact h.content_eq

theorem Reads.multiply {u : CompoundUnit} (h : Reads r accepted c) (hu : WellFormed u) :
    Reads (do liftExponent .badExponent (u.multiply (← r)))
      (accepted ∧ ∀ i, Representable ((u.content + c) i)) (u.content + c) := by
  apply h.bind
  intro v hv hc
  have hy := hu.multiply_yields hv
  rw [hc] at hy
  exact hy.reads (fun _ => hu.multiply hv) _

theorem Reads.divide (h : Reads r accepted c) (h' : Reads r' accepted' c') :
    Reads (do let u ← r; let v ← r'; liftExponent .badExponent (u.divide v))
      (accepted ∧ accepted' ∧ ∀ i, Representable ((c - c') i)) (c - c') := by
  refine h.bind fun u hu hc => h'.bind fun v hv hc' => ?_
  have hy := hu.divide_yields hv
  rw [hc, hc'] at hy
  exact hy.reads (fun _ => hu.divide hv) _

end Outcomes

/-! ### Products -/

/-- Every sum of an initial part, added to `c`, is representable. -/
def SumsFitFrom (c : Content) (cs : List Content) : Prop :=
  ∀ ds, ds <+: cs → ∀ i, Representable ((c + ds.sum) i)

/-- Every sum of an initial part is representable. -/
def SumsFit (cs : List Content) : Prop :=
  ∀ ds, ds <+: cs → ∀ i, Representable (ds.sum i)

theorem sumsFitFrom_zero {cs : List Content} : SumsFitFrom 0 cs ↔ SumsFit cs := by
  simp only [SumsFitFrom, zero_add]
  rfl

theorem sumsFitFrom_nil {c : Content} : SumsFitFrom c [] ↔ ∀ i, Representable (c i) := by
  simp [SumsFitFrom]

theorem sumsFitFrom_cons {c d : Content} {ds : List Content} :
    SumsFitFrom c (d :: ds) ↔ (∀ i, Representable (c i)) ∧ SumsFitFrom (c + d) ds := by
  constructor
  · intro h
    refine ⟨fun i => ?_, fun es hes i => ?_⟩
    · have := h [] (List.nil_prefix) i
      rwa [List.sum_nil, add_zero] at this
    · have := h (d :: es) ((List.prefix_cons_inj d).2 hes) i
      rwa [List.sum_cons, ← add_assoc] at this
  · rintro ⟨hc, h⟩ es hes i
    rcases es with - | ⟨e, es⟩
    · rw [List.sum_nil, add_zero]
      exact hc i
    · obtain ⟨rfl, htail⟩ := List.cons_prefix_cons.1 hes
      rw [List.sum_cons, ← add_assoc]
      exact h es htail i

theorem SumsFitFrom.representable {c : Content} {cs : List Content} (h : SumsFitFrom c cs) :
    ∀ i, Representable (c i) := by
  intro i
  have := h [] List.nil_prefix i
  rwa [List.sum_nil, add_zero] at this

theorem sumsFit_singleton {c : Content} : SumsFit [c] ↔ ∀ i, Representable (c i) := by
  rw [← sumsFitFrom_zero, sumsFitFrom_cons, sumsFitFrom_nil, zero_add]
  exact and_iff_right fun _ => representable_zero

/-- A part in front of others is acceptable with them if it is on its own and the sum it forms is
representable. -/
theorem acceptable_cons {α : Type} {accepted : α → Prop} {content : α → Content} {c : Content}
    (hc : ∀ i, Representable (c i)) (p : α) (ps : List α) :
    (accepted p ∧ ∀ i, Representable ((c + content p) i)) ∧
        ((∀ q ∈ ps, accepted q) ∧ SumsFitFrom (c + content p) (ps.map content)) ↔
      (∀ q ∈ p :: ps, accepted q) ∧ SumsFitFrom c ((p :: ps).map content) := by
  rw [List.forall_mem_cons, List.map_cons, sumsFitFrom_cons]
  constructor
  · rintro ⟨⟨hp, -⟩, hps, hs⟩
    exact ⟨⟨hp, hps⟩, hc, hs⟩
  · rintro ⟨⟨hp, hps⟩, -, hs⟩
    exact ⟨⟨hp, hs.representable⟩, hps, hs⟩

section Product

variable {α : Type} {parse : α → Except Error CompoundUnit} {accepted : α → Prop}
  {content : α → Content}

/-- Multiplying from the left forms the sum of every initial part. -/
theorem foldlM_multiply_reads {pieces : List α}
    (h : ∀ p ∈ pieces, Reads (parse p) (accepted p) (content p)) {u : CompoundUnit}
    (hu : WellFormed u) :
    Reads (pieces.foldlM (fun acc piece => do
        liftExponent .badExponent (acc.multiply (← parse piece))) u)
      ((∀ p ∈ pieces, accepted p) ∧ SumsFitFrom u.content (pieces.map content))
      (u.content + (pieces.map content).sum) := by
  induction pieces generalizing u with
  | nil =>
    refine reads_ok ⟨by simp, ?_⟩ hu (by simp)
    exact sumsFitFrom_nil.2 hu.representable_content
  | cons p pieces ih =>
    have htail : ∀ w, WellFormed w → w.content = u.content + content p →
        Reads (pieces.foldlM (fun acc piece => do
            liftExponent .badExponent (acc.multiply (← parse piece))) w)
          ((∀ p ∈ pieces, accepted p) ∧
            SumsFitFrom (u.content + content p) (pieces.map content))
          (u.content + content p + (pieces.map content).sum) := by
      intro w hw hc
      rw [← hc]
      exact ih (fun q hq => h q (List.mem_cons_of_mem _ hq)) hw
    rw [List.foldlM_cons]
    refine (((h p List.mem_cons_self).multiply hu).bind htail).congr
      (acceptable_cons hu.representable_content p pieces) ?_
    rw [List.map_cons, List.sum_cons, add_assoc]

/-- A product of one piece is like the piece. -/
theorem reads_singleton {p : α} (h : Reads (parse p) (accepted p) (content p))
    (hr : accepted p → ∀ i, Representable (content p i)) :
    Reads (parse p) ((∀ q ∈ [p], accepted q) ∧ SumsFit ([p].map content))
      ([p].map content).sum := by
  refine h.congr ?_ (List.sum_singleton).symm
  rw [List.forall_mem_singleton, List.map_singleton, sumsFit_singleton]
  exact ⟨fun ha => ⟨ha, hr ha⟩, And.left⟩

end Product

theorem parseProduct_reads {parse : List Char → Except Error CompoundUnit}
    {accepted : List Char → Prop} {content : List Char → Content} {pieces : List (List Char)}
    (h : ∀ p ∈ pieces, Reads (parse p) (accepted p) (content p)) :
    Reads (parseProduct parse pieces)
      ((∀ p ∈ pieces, accepted p) ∧ SumsFit (pieces.map content)) (pieces.map content).sum := by
  refine (foldlM_multiply_reads h wellFormed_dimensionless).congr ?_ ?_
  · rw [content_dimensionless, sumsFitFrom_zero]
  · rw [content_dimensionless, zero_add]

end QuantityCalculus.CompoundUnit
