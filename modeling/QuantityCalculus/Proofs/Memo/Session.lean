import QuantityCalculus.Memo.Session
import QuantityCalculus.Proofs.Memo.Key

/-! A shared memo is invisible. Whatever readers share a memo and however their steps alternate, each of
them is answered as if there were no memo: every unit in the memo is what is read under its key, also
by those who look it up later. A reader that has taken all its steps is answered. -/

namespace QuantityCalculus.Memo

/-- Every unit in the memo is what is read under its key. -/
def Faithful (m : Memo) : Prop :=
  ∀ q u, m.get? (Request.key q) = some u → q.answer = .ok u

theorem faithful_empty (capacity : ℕ) : Faithful (empty capacity) := fun _ _ h => by cases h

theorem Faithful.store {m : Memo} (h : Faithful m) (q : Request) :
    Faithful (m.store q.key q.answer) := by
  cases ha : q.answer with
  | error e => exact h
  | ok u =>
    intro p v hv
    rcases CompoundUnit.get?_insert hv with ⟨hkey, rfl⟩ | hv
    · -- the key may be that of another request, which then has the same outcome
      exact (parseScaled_eq_of_key_eq hkey).trans ha
    · exact h p v hv

namespace Session

variable {Reader : Type} {requests : Reader → Request} {session : Session Reader} {i j : Reader}

/-- The memo is faithful, and whoever is answered is answered as if there were no memo. -/
structure Consistent (requests : Reader → Request) (session : Session Reader) : Prop where
  faithful : Faithful session.memo
  answers : ∀ i r, session.progress i = .answered r → r = (requests i).answer

theorem consistent_start (requests : Reader → Request) (capacity : ℕ) :
    Consistent requests (start capacity) where
  faithful := faithful_empty capacity
  answers _ _ h := by cases h

/-- A reader that has looked its key up. -/
def Started (i : Reader) (session : Session Reader) : Prop := session.progress i ≠ .waiting

def Answered (i : Reader) (session : Session Reader) : Prop :=
  ∃ r, session.progress i = .answered r

/-- A reader stays where it is or, unless it is answered, gets on. -/
def GetsOn (p p' : Progress) : Prop := p' = p ∨ (∀ r, p ≠ .answered r) ∧ p' ≠ .waiting

theorem GetsOn.started {session' : Session Reader}
    (h : GetsOn (session.progress j) (session'.progress j)) (hs : Started j session) :
    Started j session' := by
  rcases h with h | ⟨-, h⟩
  · rwa [Started, h]
  · exact h

theorem GetsOn.answered {session' : Session Reader}
    (h : GetsOn (session.progress j) (session'.progress j)) (ha : Answered j session) :
    Answered j session' := by
  obtain ⟨r, hr⟩ := ha
  rcases h with h | ⟨h, -⟩
  · exact ⟨r, h.trans hr⟩
  · exact absurd hr (h r)

variable [DecidableEq Reader]

/-! ### Steps -/

@[simp] theorem progress_advance_self (p : Progress) (m : Memo) :
    (session.advance i p m).progress i = p :=
  if_pos rfl

theorem progress_advance_of_ne (h : j ≠ i) (p : Progress) (m : Memo) :
    (session.advance i p m).progress j = session.progress j :=
  if_neg h

@[simp] theorem memo_advance (p : Progress) (m : Memo) : (session.advance i p m).memo = m := rfl

@[simp] theorem advance_advance (p p' : Progress) (m m' : Memo) :
    (session.advance i p m).advance i p' m' = session.advance i p' m' := by
  unfold advance
  congr 1
  funext j
  dsimp only
  split <;> rfl

/-- Looking up changes nothing for a reader that is answered, and otherwise hits or misses. -/
theorem lookUp_cases (requests : Reader → Request) (session : Session Reader) (i : Reader) :
    Answered i session ∧ session.lookUp requests i = session ∨
      ¬ Answered i session ∧
        ((∃ u, session.memo.get? (requests i).key = some u ∧
            session.lookUp requests i = session.advance i (.answered (.ok u)) session.memo) ∨
          session.memo.get? (requests i).key = none ∧
            session.lookUp requests i = session.advance i .missed session.memo) := by
  unfold lookUp Answered
  split
  · rename_i r hr
    exact .inl ⟨⟨r, hr⟩, rfl⟩
  · rename_i hne
    refine .inr ⟨fun ⟨r, hr⟩ => hne r hr, ?_⟩
    split
    · rename_i u hu
      exact .inl ⟨u, hu, rfl⟩
    · rename_i hu
      exact .inr ⟨hu, rfl⟩

/-- Completing applies to a reader that has missed. -/
theorem complete_of_missed (h : session.progress i = .missed) :
    session.complete requests i = session.advance i (.answered (requests i).answer)
      (session.memo.store (requests i).key (requests i).answer) := by
  rw [complete, h]

theorem complete_of_ne (h : session.progress i ≠ .missed) :
    session.complete requests i = session := by
  unfold complete
  split
  · contradiction
  · rfl

theorem read_of_answered (h : Answered i session) : session.read requests i = session := by
  obtain ⟨r, hr⟩ := h
  rw [read, hr]

theorem read_of_not_answered (h : ¬ Answered i session) {result : Except Error CompoundUnit}
    {m : Memo} (hp : session.memo.parse (requests i).text (requests i).scale = (result, m)) :
    session.read requests i = session.advance i (.answered result) m := by
  unfold read
  split
  · rename_i r hr
    exact absurd ⟨r, hr⟩ h
  · rw [hp]

/-- Reading through the memo is looking up and completing back to back. -/
theorem read_eq (requests : Reader → Request) (session : Session Reader) (i : Reader) :
    session.read requests i = (session.lookUp requests i).complete requests i := by
  rcases lookUp_cases requests session i with ⟨hp, hl⟩ | ⟨hp, ⟨u, hm, hl⟩ | ⟨hm, hl⟩⟩ <;> rw [hl]
  · obtain ⟨r, hr⟩ := hp
    rw [read_of_answered ⟨r, hr⟩, complete_of_ne (by simp [hr])]
  · rw [complete_of_ne (by simp)]
    refine read_of_not_answered hp ?_
    rw [Memo.parse, show session.memo.get? (Memo.key _ _) = some u from hm]
  · rw [complete_of_missed (progress_advance_self _ _), advance_advance, memo_advance]
    refine read_of_not_answered hp ?_
    rw [Memo.parse, show session.memo.get? (Memo.key _ _) = none from hm]
    unfold Request.answer
    cases CompoundUnit.parseScaled (requests i).text (requests i).scale <;> rfl

/-- What looking up and completing preserve, every step preserves. -/
theorem step_of_lookUp_of_complete {P : Session Reader → Prop}
    (hl : ∀ session i, P session → P (session.lookUp requests i))
    (hc : ∀ session i, P session → P (session.complete requests i)) (a : Action Reader)
    (h : P session) : P (session.step requests a) := by
  cases a with
  | lookUp i => exact hl session i h
  | complete i => exact hc session i h
  | read i =>
    rw [step, read_eq]
    exact hc _ i (hl session i h)

/-! ### Answers -/

theorem Consistent.advance (h : Consistent requests session) {p : Progress} {m : Memo}
    (hp : ∀ r, p = .answered r → r = (requests i).answer) (hm : Faithful m) :
    Consistent requests (session.advance i p m) where
  faithful := hm
  answers j r hr := by
    by_cases hj : j = i
    · subst hj
      exact hp r ((progress_advance_self p m).symm.trans hr)
    · exact h.answers j r ((progress_advance_of_ne hj p m).symm.trans hr)

theorem Consistent.lookUp (h : Consistent requests session) (i : Reader) :
    Consistent requests (session.lookUp requests i) := by
  rcases lookUp_cases requests session i with ⟨-, hl⟩ | ⟨-, ⟨u, hm, hl⟩ | ⟨-, hl⟩⟩ <;> rw [hl]
  · exact h
  · refine h.advance (fun r hr => ?_) h.faithful
    cases hr
    exact (h.faithful _ u hm).symm
  · exact h.advance (fun r hr => by cases hr) h.faithful

theorem Consistent.complete (h : Consistent requests session) (i : Reader) :
    Consistent requests (session.complete requests i) := by
  by_cases hp : session.progress i = .missed
  · rw [complete_of_missed hp]
    refine h.advance (fun r hr => ?_) (h.faithful.store _)
    cases hr
    rfl
  · rwa [complete_of_ne hp]

/-- A property of sessions that no step takes away. -/
def Stable (requests : Reader → Request) (P : Session Reader → Prop) : Prop :=
  ∀ session a, P session → P (session.step requests a)

theorem stable_consistent (requests : Reader → Request) :
    Stable requests (Consistent requests) := fun _ a h =>
  step_of_lookUp_of_complete (fun _ i h => h.lookUp i) (fun _ i h => h.complete i) a h

theorem Stable.run {P : Session Reader → Prop} (h : Stable requests P)
    (actions : List (Action Reader)) (hs : P session) : P (session.run requests actions) := by
  induction actions generalizing session with
  | nil => exact hs
  | cons a actions ih => exact ih (h _ a hs)

/-! ### Readers that have taken all their steps -/

theorem getsOn_advance (h : ¬ Answered i session) {p : Progress} (hp : p ≠ .waiting) (m : Memo)
    (j : Reader) : GetsOn (session.progress j) ((session.advance i p m).progress j) := by
  by_cases hj : j = i
  · subst hj
    rw [progress_advance_self]
    exact .inr ⟨fun r hr => h ⟨r, hr⟩, hp⟩
  · exact .inl (progress_advance_of_ne hj p m)

theorem getsOn_lookUp (session : Session Reader) (i j : Reader) :
    GetsOn (session.progress j) ((session.lookUp requests i).progress j) := by
  rcases lookUp_cases requests session i with ⟨-, hl⟩ | ⟨hp, ⟨u, -, hl⟩ | ⟨-, hl⟩⟩ <;> rw [hl]
  · exact .inl rfl
  · exact getsOn_advance hp (by simp) _ j
  · exact getsOn_advance hp (by simp) _ j

theorem getsOn_complete (session : Session Reader) (i j : Reader) :
    GetsOn (session.progress j) ((session.complete requests i).progress j) := by
  by_cases hp : session.progress i = .missed
  · rw [complete_of_missed hp]
    exact getsOn_advance (by simp [Answered, hp]) (by simp) _ j
  · rw [complete_of_ne hp]
    exact .inl rfl

theorem stable_started (requests : Reader → Request) (j : Reader) :
    Stable requests (Started j) := fun _ a h =>
  step_of_lookUp_of_complete (fun _ i h => (getsOn_lookUp _ i j).started h)
    (fun _ i h => (getsOn_complete _ i j).started h) a h

theorem stable_answered (requests : Reader → Request) (j : Reader) :
    Stable requests (Answered j) := fun _ a h =>
  step_of_lookUp_of_complete (fun _ i h => (getsOn_lookUp _ i j).answered h)
    (fun _ i h => (getsOn_complete _ i j).answered h) a h

theorem started_lookUp (session : Session Reader) (i : Reader) :
    Started i (session.lookUp requests i) := by
  rcases lookUp_cases requests session i with ⟨⟨r, hr⟩, hl⟩ | ⟨-, ⟨u, -, hl⟩ | ⟨-, hl⟩⟩ <;>
    rw [hl, Started]
  · simp [hr]
  · simp
  · simp

theorem answered_complete (h : Started i session) :
    Answered i (session.complete requests i) := by
  by_cases hp : session.progress i = .missed
  · rw [complete_of_missed hp]
    exact ⟨_, progress_advance_self _ _⟩
  · rw [complete_of_ne hp]
    cases hq : session.progress i with
    | waiting => exact absurd hq h
    | missed => exact absurd hq hp
    | answered r => exact ⟨r, hq⟩

theorem answered_read (session : Session Reader) (i : Reader) :
    Answered i (session.read requests i) := by
  rw [read_eq]
  exact answered_complete (started_lookUp session i)

/-- An action that leads from one lasting property to another one does so within every run. -/
theorem run_of_mem {P Q : Session Reader → Prop} (hP : Stable requests P) (hQ : Stable requests Q)
    {a : Action Reader} (ha : ∀ session, P session → Q (session.step requests a))
    {actions : List (Action Reader)} (hmem : a ∈ actions) (hs : P session) :
    Q (session.run requests actions) := by
  obtain ⟨before, after, rfl⟩ := List.append_of_mem hmem
  rw [run, List.foldl_append, List.foldl_cons]
  exact hQ.run after (ha _ (hP.run before hs))

theorem run_append (session : Session Reader) (before after : List (Action Reader)) :
    session.run requests (before ++ after) =
      (session.run requests before).run requests after :=
  List.foldl_append

/-- All that a reader has to do: reading without a break, or looking up and later completing. -/
def Performs (i : Reader) (actions : List (Action Reader)) : Prop :=
  .read i ∈ actions ∨ [.lookUp i, .complete i].Sublist actions

theorem answered_of_performs {actions : List (Action Reader)} (h : Performs i actions)
    (session : Session Reader) : Answered i (session.run requests actions) := by
  have hanswered := stable_answered requests i
  have hstarted := stable_started requests i
  have htrivial : Stable requests fun _ => True := fun _ _ _ => trivial
  rcases h with h | h
  · exact run_of_mem (a := .read i) htrivial hanswered (fun s _ => answered_read s i) h trivial
  · obtain ⟨before, after, rfl, hl, hc⟩ := List.cons_sublist_iff.1 h
    rw [run_append]
    exact run_of_mem (a := .complete i) hstarted hanswered (fun _ hs => answered_complete hs)
      (List.singleton_sublist.1 hc)
      (run_of_mem (a := .lookUp i) htrivial hstarted (fun s _ => started_lookUp s i) hl trivial)

/-- A memo is invisible: for every capacity and every order of steps, whoever is answered has the
outcome of reading without a memo, and whoever has taken all its steps is answered. -/
theorem transparent (requests : Reader → Request) (capacity : ℕ) (actions : List (Action Reader))
    (i : Reader) :
    (∀ r, ((start capacity).run requests actions).progress i = .answered r →
        r = CompoundUnit.parseScaled (requests i).text (requests i).scale) ∧
      (Performs i actions → ((start capacity).run requests actions).progress i =
        .answered (CompoundUnit.parseScaled (requests i).text (requests i).scale)) := by
  have hconsistent := (stable_consistent requests).run actions (consistent_start requests capacity)
  refine ⟨hconsistent.answers i, fun h => ?_⟩
  obtain ⟨r, hr⟩ := answered_of_performs h (start capacity)
  rw [hr, hconsistent.answers i r hr, Request.answer]

end Session

end QuantityCalculus.Memo
