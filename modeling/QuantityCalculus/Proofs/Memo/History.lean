import Mathlib.Data.List.Induction
import QuantityCalculus.Memo.History
import QuantityCalculus.Proofs.Memo.Store

/-! A memo in the long run. Every command does at most one insertion, so what an insertion keeps, any
number of commands keep: the capacity, the bound on the number of keys, and every key. A memo is
saturated exactly if one of the commands so far was refused. -/

namespace QuantityCalculus.Memo

variable {m : Memo} {c : Command} {commands : List Command}

theorem after_append (m : Memo) (before rest : List Command) :
    m.after (before ++ rest) = (m.after before).after rest :=
  List.foldl_append

theorem after_concat (m : Memo) (commands : List Command) (c : Command) :
    m.after (commands ++ [c]) = c.run (m.after commands) :=
  after_append m commands [c]

namespace Command

/-- A command inserts what it asks to store, and does nothing else. -/
theorem run_eq (c : Command) (m : Memo) : c.run m =
    match c.stored? m with
    | some (key, unit) => (m.insert key unit).2
    | none => m := by
  cases c with
  | insert key unit => rfl
  | get key => rfl
  | parse q =>
    obtain ⟨text, scale⟩ := q
    show (m.parse text scale).2 = _
    unfold Memo.parse stored? contains Request.key Request.answer
    dsimp only
    cases m.get? (Memo.key text scale) with
    | some unit => rfl
    | none => cases CompoundUnit.parseScaled text scale <;> rfl

/-- A command leaves the memo alone or inserts a unit. -/
theorem run_cases (c : Command) (m : Memo) :
    c.stored? m = none ∧ c.run m = m ∨
      ∃ key unit, c.stored? m = some (key, unit) ∧ c.run m = (m.insert key unit).2 := by
  rw [run_eq]
  cases c.stored? m with
  | none => exact .inl ⟨rfl, rfl⟩
  | some e => exact .inr ⟨e.1, e.2, rfl, rfl⟩

theorem sound_run (h : Sound m) (c : Command) : Sound (c.run m) := by
  rcases run_cases c m with ⟨-, hr⟩ | ⟨key, unit, -, hr⟩ <;> rw [hr]
  · exact h
  · exact h.insert key unit

theorem capacity_run (c : Command) (m : Memo) : (c.run m).capacity = m.capacity := by
  rcases run_cases c m with ⟨-, hr⟩ | ⟨key, unit, -, hr⟩ <;> rw [hr]
  exact capacity_insert

theorem contains_run (c : Command) {key : String} (h : m.contains key = true) :
    (c.run m).contains key = true := by
  rcases run_cases c m with ⟨-, hr⟩ | ⟨_, _, -, hr⟩ <;> rw [hr]
  · exact h
  · exact contains_insert h

theorem saturated_run (c : Command) (m : Memo) :
    (c.run m).saturated = true ↔ m.saturated = true ∨ c.Refused m := by
  rcases run_cases c m with ⟨hs, hr⟩ | ⟨key, unit, hs, hr⟩
  · rw [hr]
    refine ⟨.inl, fun h => h.resolve_right ?_⟩
    rintro ⟨key, unit, hsome, -⟩
    rw [hs] at hsome
    cases hsome
  · rw [hr, saturated_insert]
    refine or_congr_right ⟨fun h => ⟨key, unit, hs, (isRefused_iff.1 h).1, h⟩, ?_⟩
    rintro ⟨key', unit', hsome, -, h⟩
    rw [hs] at hsome
    cases hsome
    exact h

end Command

/-! ### Runs -/

theorem sound_after (h : Sound m) (commands : List Command) : Sound (m.after commands) := by
  induction commands generalizing m with
  | nil => exact h
  | cons c commands ih => exact ih (c.sound_run h)

theorem capacity_after (m : Memo) (commands : List Command) :
    (m.after commands).capacity = m.capacity := by
  induction commands generalizing m with
  | nil => rfl
  | cons c commands ih => exact (ih (c.run m)).trans (c.capacity_run m)

theorem contains_after {key : String} (h : m.contains key = true) (commands : List Command) :
    (m.after commands).contains key = true := by
  induction commands generalizing m with
  | nil => exact h
  | cons c commands ih => exact ih (c.contains_run h)

/-- One of the commands was refused when its turn came. -/
def SomeRefused (m : Memo) (commands : List Command) : Prop :=
  ∃ before c rest, commands = before ++ c :: rest ∧ c.Refused (m.after before)

theorem not_someRefused_nil (m : Memo) : ¬ SomeRefused m [] := by
  rintro ⟨before, c, rest, h, -⟩
  cases before <;> cases h

theorem someRefused_concat : SomeRefused m (commands ++ [c]) ↔
    SomeRefused m commands ∨ c.Refused (m.after commands) := by
  constructor
  · rintro ⟨before, d, rest, h, hd⟩
    rcases List.eq_nil_or_concat rest with rfl | ⟨rest, e, rfl⟩
    · obtain ⟨rfl, hc⟩ := List.append_inj' h rfl
      cases hc
      exact .inr hd
    · rw [List.concat_eq_append, ← List.cons_append, ← List.append_assoc] at h
      exact .inl ⟨before, d, rest, (List.append_inj' h rfl).1, hd⟩
  · rintro (⟨before, d, rest, rfl, hd⟩ | h)
    · exact ⟨before, d, rest ++ [c], by simp, hd⟩
    · exact ⟨commands, c, [], rfl, h⟩

theorem saturated_after (m : Memo) (commands : List Command) :
    (m.after commands).saturated = true ↔ m.saturated = true ∨ SomeRefused m commands := by
  induction commands using List.reverseRecOn with
  | nil => simp [after, not_someRefused_nil]
  | append_singleton commands c ih =>
    rw [after_concat, Command.saturated_run, ih, someRefused_concat, or_assoc]

/-! ### The law of a memo -/

/-- What a memo that was empty keeps along the commands that led to it. -/
structure HistoryLaw (capacity : ℕ) (commands : List Command) : Prop where
  capacity_eq : ((empty capacity).after commands).capacity = capacity
  nodup_keys : ((empty capacity).after commands).keys.Nodup
  size_le : ((empty capacity).after commands).size ≤ capacity
  lasting : ∀ before rest key, commands = before ++ rest →
    ((empty capacity).after before).contains key = true →
      ((empty capacity).after commands).contains key = true
  saturated_iff : ((empty capacity).after commands).saturated = true ↔
    SomeRefused (empty capacity) commands
  full : ((empty capacity).after commands).saturated = true →
    ((empty capacity).after commands).size = capacity

theorem historyLaw (capacity : ℕ) (commands : List Command) : HistoryLaw capacity commands := by
  have hcapacity := capacity_after (empty capacity) commands
  have hsound := sound_after (sound_empty capacity) commands
  have hsize := Nat.le_trans hsound.size_le (Nat.le_of_eq hcapacity)
  refine ⟨hcapacity, hsound.nodup_keys, hsize, ?_, ?_, fun h => (hsound.full h).trans hcapacity⟩
  · rintro before rest key rfl h
    rw [after_append]
    exact contains_after h rest
  · rw [saturated_after]
    exact or_iff_right Bool.false_ne_true

/-- A reading that fails leaves the memo as it was. -/
theorem parse_of_error {text : String} {scale : Float} {e : Error}
    (h : (m.parse text scale).1 = .error e) : (m.parse text scale).2 = m := by
  unfold Memo.parse at h ⊢
  split at h
  · cases h
  · split at h
    · cases h
    · rfl

/-- After any commands, the memo has kept its bound and all of its keys, and the next insertion or
reading obeys its own law. The default memo is the one of capacity zero. -/
theorem storeLaw (capacity : ℕ) (commands : List Command) :
    HistoryLaw capacity commands ∧
      (∀ key unit, InsertionLaw ((empty capacity).after commands) key unit) ∧
      (∀ text scale e, (((empty capacity).after commands).parse text scale).1 = .error e →
        (((empty capacity).after commands).parse text scale).2 = (empty capacity).after commands) ∧
      (default : Memo) = empty 0 :=
  ⟨historyLaw capacity commands, fun key unit => insertionLaw _ key unit,
    fun _ _ _ h => parse_of_error h, rfl⟩

end QuantityCalculus.Memo
