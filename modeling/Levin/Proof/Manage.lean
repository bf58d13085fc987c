import Levin.Core.Manage

/-!
# Whether a shutdown is complete

`closeFrom_spec` says how far the loop over the listening tasks comes: to the
first that has not failed. `Inv` is what holds between two steps of a shutdown,
`remaining` how often it still waits. A task that is pending when the loop comes
to it raises `InvalidStateError`, so that the tasks after it are neither closed
nor cancelled: a shutdown is complete exactly if that never happens
(`complete_iff`).
-/

namespace Levin.Manage

open Framework

variable {m m' : Manage} {ts : List Listening} {k : Nat}

/-- Task `k` needs nothing more: it has no server, or it has been closed. -/
def Settled (m : Manage) (k : Nat) : Prop :=
  m.tasks[k]? = some .failed ∨ m.tasks[k]? = some .listening ∧ k ∈ m.closed

/-- What holds of `_manage` between two steps. -/
def Inv (m : Manage) : Prop :=
  match m.phase with
  | .stopping k => k < m.tasks.length ∧ ∀ i < k, i ∈ m.stopped
  | .closing k => k < m.tasks.length ∧ (∀ i < m.tasks.length, i ∈ m.stopped) ∧ ∀ i ≤ k, Settled m i
  | .ended none => ∀ i < m.tasks.length, i ∈ m.stopped ∧ Settled m i
  | .ended (some _) => True

/-- How often `_manage` still waits at most. -/
def remaining (m : Manage) : Nat :=
  match m.phase with
  | .stopping k => 2 * m.tasks.length - k
  | .closing k => m.tasks.length - k
  | .ended _ => 0

/-- `_manage` has raised. -/
def Raised (m : Manage) : Prop := ∃ e, m.phase = .ended (some e)

/-- The next task that has not failed is pending. -/
def meetsPending (ts : List Listening) : Bool := ts.find? (· ≠ .failed) = some .pending

/-! ## The loops -/

@[simp] theorem closeFrom_nil (k : Nat) (m : Manage) : closeFrom [] k m = { m with phase := .ended none } := rfl

@[simp] theorem closeFrom_pending (ts : List Listening) (k : Nat) (m : Manage) :
    closeFrom (.pending :: ts) k m = { m with phase := .ended (some .InvalidStateError) } := rfl

@[simp] theorem closeFrom_listening (ts : List Listening) (k : Nat) (m : Manage) :
    closeFrom (.listening :: ts) k m = { m with closed := m.closed ++ [k], phase := .closing k } := rfl

@[simp] theorem closeFrom_failed (ts : List Listening) (k : Nat) (m : Manage) :
    closeFrom (.failed :: ts) k m = closeFrom ts (k + 1) m := rfl

/-- The loop raises if it comes to a task that is pending. -/
theorem closeFrom_raised (ts : List Listening) (k : Nat) (m : Manage) :
    Raised (closeFrom ts k m) ↔ meetsPending ts = true := by
  induction ts generalizing k with
  | nil => simp [Raised, meetsPending]
  | cons t ts ih =>
    cases t with
    | failed => rw [closeFrom_failed, ih]; simp [meetsPending]
    | pending => simp [Raised, meetsPending]
    | listening => simp [Raised, meetsPending]

/-- The tasks before the next one that has not failed are settled. -/
theorem closeFrom_inv {ts : List Listening} {k : Nat} {m : Manage} (hts : m.tasks.drop k = ts)
    (hstopped : ∀ i < m.tasks.length, i ∈ m.stopped) (hsettled : ∀ i < k, Settled m i) :
    Inv (closeFrom ts k m) := by
  induction ts generalizing k with
  | nil =>
    have hle := List.drop_eq_nil_iff.mp hts
    exact fun i hi => ⟨hstopped i hi, hsettled i (Nat.lt_of_lt_of_le hi hle)⟩
  | cons t ts ih =>
    have hk : m.tasks[k]? = some t := by rw [← Nat.add_zero k, ← List.getElem?_drop, hts, List.getElem?_cons_zero]
    have hdrop : m.tasks.drop (k + 1) = ts := by rw [← List.drop_drop, hts, List.drop_one, List.tail_cons]
    cases t with
    | pending => trivial
    | failed =>
      refine ih hdrop fun i hi => ?_
      rcases Nat.lt_succ_iff_lt_or_eq.mp hi with hi | rfl
      · exact hsettled i hi
      · exact .inl hk
    | listening =>
      refine ⟨(List.getElem?_eq_some_iff.mp hk).1, hstopped, fun i hi => ?_⟩
      rcases Nat.lt_or_eq_of_le hi with hi | rfl
      · exact (hsettled i hi).imp_right fun h => ⟨h.1, List.mem_append_left _ h.2⟩
      · exact .inr ⟨hk, by simp⟩

theorem closeFrom_remaining {ts : List Listening} {k : Nat} {m : Manage} (hts : m.tasks.drop k = ts) :
    remaining (closeFrom ts k m) ≤ m.tasks.length - k := by
  induction ts generalizing k with
  | nil => exact Nat.zero_le _
  | cons t ts ih =>
    have hdrop : m.tasks.drop (k + 1) = ts := by rw [← List.drop_drop, hts, List.drop_one, List.tail_cons]
    cases t with
    | pending => exact Nat.zero_le _
    | failed => exact Nat.le_trans (ih hdrop) (by omega)
    | listening => exact Nat.le_refl _

theorem stopFrom_inv {k : Nat} {m : Manage} (hk : k ≤ m.tasks.length) (h : ∀ i < k, i ∈ m.stopped) :
    Inv (stopFrom k m) := by
  unfold stopFrom
  split
  · exact ⟨‹_›, h⟩
  · refine closeFrom_inv (List.drop_zero ..) (fun i hi => h i ?_) nofun
    omega

theorem stopFrom_remaining {k : Nat} {m : Manage} (hk : k ≤ m.tasks.length) :
    remaining (stopFrom k m) ≤ 2 * m.tasks.length - k := by
  unfold stopFrom
  split
  · exact Nat.le_refl _
  · have hle := closeFrom_remaining (List.drop_zero (l := m.tasks))
    omega

/-! ## One step -/

/-- The tasks `_manage` may read before it awaits anything again. -/
def ahead (m : Manage) : List Listening :=
  match m.phase with
  | .stopping k => if k + 1 < m.tasks.length then [] else m.tasks
  | .closing k => m.tasks.drop (k + 1)
  | .ended _ => []

/-- A step that does not come to a task that is pending. -/
def Clear (m : Manage) (e : Event) : Prop := e = .resumed → meetsPending (ahead m) = false

/-- Whatever `_manage` awaits, it can be resumed. -/
theorem resumed_or_ended (m : Manage) : (∃ exc, m.phase = .ended exc) ∨ ∃ m', Step m .resumed m' := by
  simp only [Step, step, resume]
  cases m.phase with
  | stopping k => exact .inr ⟨_, rfl⟩
  | closing k => exact .inr ⟨_, rfl⟩
  | ended exc => exact .inl ⟨exc, rfl⟩

/-- A server that has been closed is not cancelled. -/
theorem resume_closing {k : Nat} (hphase : m.phase = .closing k) (hk : Settled m k) :
    resume m = some (closeFrom (m.tasks.drop (k + 1)) (k + 1) m) := by
  rw [resume, hphase]
  rcases hk with hk | ⟨hk, -⟩ <;> simp [hk, cancelPending, Listening.done]

theorem resume_stopping {k : Nat} (hphase : m.phase = .stopping k) :
    resume m = some (stopFrom (k + 1) { m with stopped := m.stopped ++ [k] }) := by
  rw [resume, hphase]

theorem resume_ended {exc : Option Exc} (hphase : m.phase = .ended exc) : resume m = none := by
  rw [resume, hphase]

/-- What a task does that ends. -/
theorem taskDone_cases {k : Nat} {bound : Bool} (h : Step m (.taskDone k bound) m') :
    m.tasks[k]? = some .pending ∧ (∀ exc, m.phase ≠ .ended exc) ∧
      m' = { m with tasks := m.tasks.set k (if bound then .listening else .failed) } := by
  simp only [Step, step] at h
  split at h
  · cases h
  · rename_i hk hne
    exact ⟨hk, hne, (Option.some.inj h).symm⟩
  · cases h

/-- A task that ends was not settled, and others stay as they are. -/
theorem Settled.taskDone {k i : Nat} {t : Listening} (h : Settled m i) (hk : m.tasks[k]? = some .pending) :
    Settled { m with tasks := m.tasks.set k t } i := by
  have hne : k ≠ i := by
    rintro rfl
    simp [Settled, hk] at h
  simpa [Settled, List.getElem?_set_ne hne] using h

theorem Inv.step {e : Event} (h : Inv m) (hs : Step m e m') : Inv m' := by
  cases e with
  | taskDone k bound =>
    obtain ⟨hk, hne, rfl⟩ := taskDone_cases hs
    unfold Inv at h ⊢
    dsimp only
    cases hphase : m.phase with
    | stopping j => simpa [hphase] using h
    | closing j =>
      rw [hphase] at h
      obtain ⟨hj, hstopped, hsettled⟩ := h
      simp only [List.length_set]
      exact ⟨hj, hstopped, fun i hi => (hsettled i hi).taskDone hk⟩
    | ended exc => exact absurd hphase (hne exc)
  | resumed =>
    have hs : resume m = some m' := hs
    unfold Inv at h
    cases hphase : m.phase with
    | stopping k =>
      rw [hphase] at h
      rw [resume_stopping hphase] at hs
      obtain rfl := Option.some.inj hs
      refine stopFrom_inv h.1 fun i hi => ?_
      rcases Nat.lt_succ_iff_lt_or_eq.mp hi with hi | rfl
      · exact List.mem_append_left _ (h.2 i hi)
      · simp
    | closing k =>
      rw [hphase] at h
      obtain ⟨hk, hstopped, hsettled⟩ := h
      rw [resume_closing hphase (hsettled k (Nat.le_refl k))] at hs
      obtain rfl := Option.some.inj hs
      exact closeFrom_inv rfl hstopped fun i hi => hsettled i (Nat.lt_succ_iff.mp hi)
    | ended exc => rw [resume_ended hphase] at hs; cases hs

theorem remaining_stopping {k : Nat} (hphase : m.phase = .stopping k) : remaining m = 2 * m.tasks.length - k := by
  rw [remaining, hphase]

theorem remaining_closing {k : Nat} (hphase : m.phase = .closing k) : remaining m = m.tasks.length - k := by
  rw [remaining, hphase]

/-- Each time `_manage` is resumed it comes closer to its end. -/
theorem remaining_resumed (h : Inv m) (hs : Step m .resumed m') : remaining m' < remaining m := by
  have hs : resume m = some m' := hs
  unfold Inv at h
  cases hphase : m.phase with
  | stopping k =>
    rw [hphase] at h
    rw [resume_stopping hphase] at hs
    obtain rfl := Option.some.inj hs
    have hle : remaining (stopFrom (k + 1) { m with stopped := m.stopped ++ [k] }) ≤ 2 * m.tasks.length - (k + 1) :=
      stopFrom_remaining h.1
    have hk := h.1
    rw [remaining_stopping hphase]
    omega
  | closing k =>
    rw [hphase] at h
    obtain ⟨hk, -, hsettled⟩ := h
    rw [resume_closing hphase (hsettled k (Nat.le_refl k))] at hs
    obtain rfl := Option.some.inj hs
    have hle := closeFrom_remaining (m := m) (k := k + 1) rfl
    rw [remaining_closing hphase]
    omega
  | ended exc => rw [resume_ended hphase] at hs; cases hs

theorem remaining_taskDone {k : Nat} {bound : Bool} (hs : Step m (.taskDone k bound) m') :
    remaining m' = remaining m := by
  obtain ⟨-, -, rfl⟩ := taskDone_cases hs
  simp [remaining]

/-- `_manage` raises in the step that comes to a task that is pending. -/
theorem raised_step {e : Event} (h : Inv m) (hs : Step m e m') : ¬ Raised m' ↔ Clear m e := by
  cases e with
  | taskDone k bound =>
    obtain ⟨-, hne, rfl⟩ := taskDone_cases hs
    exact iff_of_true (fun ⟨e, he⟩ => hne _ he) nofun
  | resumed =>
    have hs : resume m = some m' := hs
    simp only [Clear, forall_const, ← Bool.not_eq_true]
    unfold Inv at h
    cases hphase : m.phase with
    | stopping k =>
      rw [resume_stopping hphase] at hs
      obtain rfl := Option.some.inj hs
      simp only [ahead, hphase, stopFrom]
      split
      · simp [Raised, meetsPending]
      · rw [closeFrom_raised]
    | closing k =>
      rw [hphase] at h
      rw [resume_closing hphase (h.2.2 k (Nat.le_refl k))] at hs
      obtain rfl := Option.some.inj hs
      rw [closeFrom_raised, ahead, hphase]
    | ended exc => rw [resume_ended hphase] at hs; cases hs

/-! ## Whole shutdowns -/

/-- How often `_manage` has been resumed. -/
def resumptions (es : List Event) : Nat := es.count .resumed

/-- Every application is stopped, every listening server closed, every pending task cancelled, and
`_manage` has returned. -/
structure Complete (m : Manage) : Prop where
  phase : m.phase = .ended none
  stopped : ∀ k < m.tasks.length, k ∈ m.stopped
  closed : ∀ k, m.tasks[k]? = some .listening → k ∈ m.closed
  cancelled : ∀ k, m.tasks[k]? = some .pending → k ∈ m.cancelled

theorem Step.det ⦃m : Manage⦄ ⦃e : Event⦄ ⦃m₁ m₂ : Manage⦄ (h₁ : Step m e m₁) (h₂ : Step m e m₂) : m₁ = m₂ :=
  Option.some.inj (h₁.symm.trans h₂)

theorem inv_start (ts : List Listening) : Inv (start ts) := stopFrom_inv (Nat.zero_le _) nofun

variable {es : List Event}

theorem run_inv (h : Run Step (start ts) es m) : Inv m := h.invariant (inv_start ts) fun _ _ _ => Inv.step

theorem run_remaining (h : Run Step (start ts) es m) : resumptions es + remaining m ≤ 2 * ts.length := by
  induction h with
  | nil =>
    have hle : remaining (start ts) ≤ 2 * ts.length := stopFrom_remaining (Nat.zero_le _)
    simpa [resumptions] using hle
  | @snoc es s s' e h hs ih =>
    cases e with
    | resumed =>
      have hlt := remaining_resumed (run_inv h) hs
      simp only [resumptions, List.count_append, List.count_singleton_self] at ih ⊢
      omega
    | taskDone k bound =>
      rw [remaining_taskDone hs]
      simpa [resumptions] using ih

/-- A `_manage` that has returned has done all there is to do. -/
theorem complete_of_returned (h : Inv m) (hphase : m.phase = .ended none) : Complete m := by
  unfold Inv at h
  rw [hphase] at h
  have hsettled : ∀ {k t}, m.tasks[k]? = some t → Settled m k := fun hk =>
    (h _ (List.getElem?_eq_some_iff.mp hk).1).2
  refine ⟨hphase, fun k hk => (h k hk).1, fun k hk => ?_, fun k hk => ?_⟩
  · simpa [Settled, hk] using hsettled hk
  · simpa [Settled, hk] using hsettled hk

theorem not_raised_start (ts : List Listening) : ¬ Raised (start ts) := by
  unfold start stopFrom
  split
  · rintro ⟨e, he⟩
    cases he
  · rename_i hlen
    obtain rfl : ts = [] := List.length_eq_zero_iff.mp (Nat.eq_zero_of_not_pos hlen)
    rintro ⟨e, he⟩
    cases he

/-- Nothing happens any more once `_manage` has raised. -/
theorem not_raised_of_step {e : Event} (hs : Step m e m') : ¬ Raised m := by
  rintro ⟨exc, hphase⟩
  cases e with
  | resumed =>
    have hs : resume m = some m' := hs
    rw [resume_ended hphase] at hs
    cases hs
  | taskDone k bound => exact (taskDone_cases hs).2.1 _ hphase

theorem not_raised_iff (h : Run Step (start ts) es m) :
    ¬ Raised m ↔ Throughout Step (start ts) (fun _ => Clear) es :=
  Run.good_iff Step.det (not_raised_start ts) (fun _ _ _ _ _ hs _ => not_raised_of_step hs)
    (fun _ _ _ _ hrun hs _ => raised_step (run_inv hrun) hs) h

/-- A shutdown comes to its end, and is complete then exactly if no listening task is pending when
`_manage` comes to it. -/
theorem complete_iff (h : Run Step (start ts) es m) :
    resumptions es ≤ 2 * ts.length ∧ ((∃ exc, m.phase = .ended exc) ∨ ∃ m', Step m .resumed m') ∧
      ∀ exc, m.phase = .ended exc → (Complete m ↔ Throughout Step (start ts) (fun _ => Clear) es) := by
  refine ⟨Nat.le_trans (Nat.le_add_right _ _) (run_remaining h), resumed_or_ended m, fun exc hexc => ?_⟩
  rw [← not_raised_iff h]
  constructor
  · rintro hc ⟨e, he⟩
    rw [hc.phase] at he
    cases he
  · intro hn
    cases exc with
    | none => exact complete_of_returned (run_inv h) hexc
    | some e => exact absurd ⟨e, hexc⟩ hn

/-- Binding one server has failed, another is listening: both applications stop, and it is closed. -/
theorem failedListening_clear :
    Throughout Step (start [.failed, .listening]) (fun _ => Clear) [.resumed, .resumed, .resumed] :=
  have h : Run Step (start [.failed, .listening]) [.resumed, .resumed, .resumed]
      ⟨[.failed, .listening], .ended none, [0, 1], [1], []⟩ := .of_foldlM rfl
  ((complete_iff h).2.2 none rfl).mp (complete_of_returned (run_inv h) rfl)

/-- The second of three servers is still to be bound when the first has failed: `_manage` raises, and
the third is not closed. -/
theorem failedPending_not_complete : ¬ ∀ (ts : List Listening) (es : List Event) (m : Manage),
    Run Step (start ts) es m → ∀ exc, m.phase = .ended exc → Complete m := by
  intro h
  have hrun : Run Step (start [.failed, .pending, .listening]) [.resumed, .resumed, .resumed]
      ⟨[.failed, .pending, .listening], .ended (some .InvalidStateError), [0, 1, 2], [], []⟩ := .of_foldlM rfl
  exact nomatch (h _ _ _ hrun _ rfl).phase

end Levin.Manage
