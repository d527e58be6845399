import FibConcurrent.Machine.Run

/-!
# Machine — threads over a shared memory

A `Program` says what one atomic step of a thread does: from the shared memory
and the thread's own locals to the new memory and the new locals. A `Choice`
resolves what the code leaves open (which operation the client calls next,
whether an allocation succeeds). `exec` is a function, so a schedule can be
run; the interleavings are all the runs of `Program.Step`.

The proof rule is thread-modular: an invariant of the memory, one assertion
for each thread about its own locals, and a ghost value that the proof keeps
beside the memory. A step of one thread has to re-establish the invariant and
its own assertion and leave every other thread's assertion standing.
-/

namespace FibConcurrent.Machine

variable {ι χ μ ℓ Γ : Type*}

/-- The atomic steps of the threads `ι`: memory `μ`, locals `ℓ`, choices `χ`. -/
structure Program (ι χ μ ℓ : Type*) where
  exec : ι → χ → μ → ℓ → Option (μ × ℓ)

/-- A state of the whole system: the shared memory and every thread's locals. -/
structure Config (ι μ ℓ : Type*) where
  mem : μ
  loc : ι → ℓ

/-- Thread `t` runs alone from memory `m` and locals `l`, under the given choices. -/
def Program.runAlone (P : Program ι χ μ ℓ) (t : ι) : List χ → μ → ℓ → Option (μ × ℓ)
  | [], m, l => some (m, l)
  | c :: cs, m, l => (P.exec t c m l).bind fun r => P.runAlone t cs r.1 r.2

theorem Program.runAlone_append {P : Program ι χ μ ℓ} {t : ι} {cs ds : List χ} {m m' : μ}
    {l l' : ℓ} (h : P.runAlone t cs m l = some (m', l')) :
    P.runAlone t (cs ++ ds) m l = P.runAlone t ds m' l' := by
  induction cs generalizing m l with
  | nil =>
    obtain ⟨rfl, rfl⟩ := Prod.mk.inj (Option.some.inj h)
    rfl
  | cons c cs ih =>
    obtain ⟨⟨m₁, l₁⟩, he, h⟩ := Option.bind_eq_some_iff.mp h
    show (P.exec t c m l).bind (fun r => P.runAlone t (cs ++ ds) r.1 r.2) = _
    rw [he]
    exact ih h

variable [DecidableEq ι]

/-- Thread `t` takes one step under choice `c`. -/
def Program.next (P : Program ι χ μ ℓ) (t : ι) (c : χ) (s : Config ι μ ℓ) :
    Option (Config ι μ ℓ) :=
  (P.exec t c s.mem (s.loc t)).map fun r => ⟨r.1, Function.update s.loc t r.2⟩

/-- Some step of thread `t`. -/
def Program.Step (P : Program ι χ μ ℓ) (t : ι) (s s' : Config ι μ ℓ) : Prop :=
  ∃ c, P.next t c s = some s'

/-- A step of thread `t` that meets the condition `ok`, which may look at the
memory before it, at the thread's locals and at the memory after it. -/
def Program.StepIf (P : Program ι χ μ ℓ) (ok : ι → μ → ℓ → μ → Prop) (t : ι)
    (s s' : Config ι μ ℓ) : Prop :=
  ok t s.mem (s.loc t) s'.mem ∧ P.Step t s s'

/-- Run a schedule: which thread moves next, under which choice. -/
def Program.runSchedule (P : Program ι χ μ ℓ) : List (ι × χ) → Config ι μ ℓ →
    Option (Config ι μ ℓ)
  | [], s => some s
  | (t, c) :: rest, s => (P.next t c s).bind (P.runSchedule rest)

/-- Run a schedule and write down its history. -/
def Program.runHistory (P : Program ι χ μ ℓ) : List (ι × χ) → Config ι μ ℓ →
    List (Event ι (Config ι μ ℓ)) → Option (Config ι μ ℓ × List (Event ι (Config ι μ ℓ)))
  | [], s, hist => some (s, hist)
  | (t, c) :: rest, s, hist =>
      (P.next t c s).bind fun s' => P.runHistory rest s' (⟨t, s, s'⟩ :: hist)

/-- Run a schedule as long as every step of it meets the condition `ok`. -/
def Program.runScheduleIf (P : Program ι χ μ ℓ) (ok : ι → μ → ℓ → μ → Prop)
    [∀ t m l m', Decidable (ok t m l m')] : List (ι × χ) → Config ι μ ℓ → Option (Config ι μ ℓ)
  | [], s => some s
  | (t, c) :: rest, s => (P.next t c s).bind fun s' =>
      if ok t s.mem (s.loc t) s'.mem then P.runScheduleIf ok rest s' else none

section Step

variable {P : Program ι χ μ ℓ} {t u : ι} {c : χ} {s s' : Config ι μ ℓ}

theorem Program.next_eq_some :
    P.next t c s = some s' ↔ ∃ m l, P.exec t c s.mem (s.loc t) = some (m, l) ∧
      s' = ⟨m, Function.update s.loc t l⟩ := by
  simp only [Program.next, Option.map_eq_some_iff, Prod.exists]
  constructor
  · rintro ⟨m, l, h, rfl⟩
    exact ⟨m, l, h, rfl⟩
  · rintro ⟨m, l, h, rfl⟩
    exact ⟨m, l, h, rfl⟩

theorem Program.Step.exec (h : P.Step t s s') :
    ∃ c, P.exec t c s.mem (s.loc t) = some (s'.mem, s'.loc t) := by
  obtain ⟨c, h⟩ := h
  obtain ⟨m, l, he, rfl⟩ := Program.next_eq_some.mp h
  exact ⟨c, by simpa using he⟩

/-- A step leaves the locals of every other thread alone. -/
theorem Program.Step.loc_of_ne (h : P.Step t s s') (hu : u ≠ t) : s'.loc u = s.loc u := by
  obtain ⟨c, h⟩ := h
  obtain ⟨m, l, -, rfl⟩ := Program.next_eq_some.mp h
  exact Function.update_of_ne hu ..

theorem Program.stepIf_true : P.StepIf (fun _ _ _ _ => True) t s s' ↔ P.Step t s s' := by
  simp [Program.StepIf]

end Step

/-! ## The thread-modular invariant rule -/

/-- A thread-modular assertion: what holds of the memory and the ghost value,
and what thread `t` may rely on at its locals. -/
structure Assertion (ι μ Γ ℓ : Type*) where
  shared : μ → Γ → Prop
  thread : ι → μ → Γ → ℓ → Prop

/-- The assertion holds in a state for some ghost value. -/
def Assertion.Holds (A : Assertion ι μ Γ ℓ) (s : Config ι μ ℓ) : Prop :=
  ∃ g, A.shared s.mem g ∧ ∀ t, A.thread t s.mem g (s.loc t)

/-- One step of thread `t` keeps the assertion: the invariant, the thread's own
part, and the part of every other thread at whatever locals it has. -/
def Assertion.Kept (A : Assertion ι μ Γ ℓ) (P : Program ι χ μ ℓ)
    (ok : ι → μ → ℓ → μ → Prop) : Prop :=
  ∀ t c m l m' l' g, A.shared m g → A.thread t m g l → ok t m l m' →
    P.exec t c m l = some (m', l') →
    ∃ g', A.shared m' g' ∧ A.thread t m' g' l' ∧
      ∀ u, u ≠ t → ∀ k, A.thread u m g k → A.thread u m' g' k

section Rule

variable {P : Program ι χ μ ℓ} {A : Assertion ι μ Γ ℓ} {ok : ι → μ → ℓ → μ → Prop}
  {init : Config ι μ ℓ → Prop} {s s' : Config ι μ ℓ} {hist : List (Event ι (Config ι μ ℓ))}

theorem Assertion.Kept.step (hk : A.Kept P ok) {t : ι} (h : A.Holds s)
    (hs : P.StepIf ok t s s') : A.Holds s' := by
  obtain ⟨g, hG, hL⟩ := h
  obtain ⟨hok, c, hs⟩ := hs
  obtain ⟨m, l, he, rfl⟩ := Program.next_eq_some.mp hs
  obtain ⟨g', hG', hl, hu⟩ := hk t c _ _ _ _ g hG (hL t) hok he
  refine ⟨g', hG', fun u => ?_⟩
  by_cases hut : u = t
  · subst hut
    simpa using hl
  · simpa [Function.update_of_ne hut] using hu u hut _ (hL u)

/-- **The thread-modular rule**: an assertion that holds initially and is kept
by every thread's steps holds in every state of every interleaving. -/
theorem Assertion.Kept.run (hk : A.Kept P ok) (h0 : ∀ s, init s → A.Holds s)
    (run : Run init (P.StepIf ok) s hist) : A.Holds s :=
  run.invariant h0 fun _ _ _ h hs => hk.step h hs

end Rule

/-! ## Schedules and looking back, for programs -/

section Schedule

variable {P : Program ι χ μ ℓ} {init : Config ι μ ℓ → Prop} {s s' : Config ι μ ℓ}
  {hist : List (Event ι (Config ι μ ℓ))}

/-- A schedule that runs through is a run. -/
theorem Run.schedule {sched : List (ι × χ)} (run : Run init P.Step s hist)
    (h : P.runSchedule sched s = some s') : ∃ hist', Run init P.Step s' hist' := by
  induction sched generalizing s hist with
  | nil =>
    cases Option.some.inj h
    exact ⟨_, run⟩
  | cons tc rest ih =>
    obtain ⟨t, c⟩ := tc
    obtain ⟨s₁, h₁, h₂⟩ := Option.bind_eq_some_iff.mp h
    exact ih (run.next ⟨c, h₁⟩) h₂

theorem Run.scheduleIf {ok : ι → μ → ℓ → μ → Prop} [∀ t m l m', Decidable (ok t m l m')]
    {sched : List (ι × χ)} (run : Run init (P.StepIf ok) s hist)
    (h : P.runScheduleIf ok sched s = some s') : ∃ hist', Run init (P.StepIf ok) s' hist' := by
  induction sched generalizing s hist with
  | nil =>
    cases Option.some.inj h
    exact ⟨_, run⟩
  | cons tc rest ih =>
    obtain ⟨t, c⟩ := tc
    obtain ⟨s₁, h₁, h₂⟩ := Option.bind_eq_some_iff.mp h
    obtain ⟨hok, h₂⟩ := Option.ite_none_right_eq_some.mp h₂
    exact ih (run.next ⟨hok, c, h₁⟩) h₂

/-- A schedule that leads to a state with property `q` shows that one can be reached. -/
theorem Run.exists_of_schedule {q : Config ι μ ℓ → Prop} [DecidablePred q]
    (run : Run init P.Step s hist) (sched : List (ι × χ))
    (h : (P.runSchedule sched s).any (fun s' => decide (q s')) = true) :
    ∃ s' hist', Run init P.Step s' hist' ∧ q s' := by
  obtain ⟨s', hs, hq⟩ := (Option.any_eq_true _ _).mp h
  obtain ⟨hist', run'⟩ := run.schedule hs
  exact ⟨s', hist', run', of_decide_eq_true hq⟩

theorem Run.history {sched : List (ι × χ)} {hist' : List (Event ι (Config ι μ ℓ))}
    (run : Run init P.Step s hist) (h : P.runHistory sched s hist = some (s', hist')) :
    Run init P.Step s' hist' := by
  induction sched generalizing s hist with
  | nil =>
    cases Option.some.inj h
    exact run
  | cons tc rest ih =>
    obtain ⟨t, c⟩ := tc
    obtain ⟨s₁, h₁, h₂⟩ := Option.bind_eq_some_iff.mp h
    exact ih (run.next ⟨c, h₁⟩) h₂

/-- A schedule with a history of which `q` holds. -/
theorem Run.exists_of_history
    {q : Config ι μ ℓ → List (Event ι (Config ι μ ℓ)) → Prop} [∀ s hist, Decidable (q s hist)]
    (run : Run init P.Step s hist) (sched : List (ι × χ))
    (h : (P.runHistory sched s hist).any (fun r => decide (q r.1 r.2)) = true) :
    ∃ s' hist', Run init P.Step s' hist' ∧ q s' hist' := by
  obtain ⟨⟨s', hist'⟩, hs, hq⟩ := (Option.any_eq_true _ _).mp h
  exact ⟨s', hist', run.history hs, of_decide_eq_true hq⟩

theorem Run.exists_of_scheduleIf {ok : ι → μ → ℓ → μ → Prop}
    [∀ t m l m', Decidable (ok t m l m')] {q : Config ι μ ℓ → Prop} [DecidablePred q]
    (run : Run init (P.StepIf ok) s hist) (sched : List (ι × χ))
    (h : (P.runScheduleIf ok sched s).any (fun s' => decide (q s')) = true) :
    ∃ s' hist', Run init (P.StepIf ok) s' hist' ∧ q s' := by
  obtain ⟨s', hs, hq⟩ := (Option.any_eq_true _ _).mp h
  obtain ⟨hist', run'⟩ := run.scheduleIf hs
  exact ⟨s', hist', run', of_decide_eq_true hq⟩

/-- A thread that runs alone takes the whole system from one state to another. -/
theorem Run.alone {t : ι} (cs : List χ) {m : μ} {l l' : ℓ} (run : Run init P.Step s hist)
    (hl : s.loc t = l) (h : P.runAlone t cs s.mem l = some (m, l')) :
    ∃ hist', Run init P.Step ⟨m, Function.update s.loc t l'⟩ hist' := by
  induction cs generalizing s hist l with
  | nil =>
    obtain ⟨rfl, rfl⟩ := Prod.mk.inj (Option.some.inj h)
    exact ⟨hist, by simpa [← hl] using run⟩
  | cons c cs ih =>
    obtain ⟨⟨m₁, l₁⟩, he, h⟩ := Option.bind_eq_some_iff.mp h
    have hstep : P.Step t s ⟨m₁, Function.update s.loc t l₁⟩ :=
      ⟨c, Program.next_eq_some.mpr ⟨m₁, l₁, hl ▸ he, rfl⟩⟩
    obtain ⟨hist', hrun⟩ := ih (run.next hstep) (Function.update_self ..) h
    exact ⟨hist', by simpa using hrun⟩

/-- **The look-back rule for a thread's locals**: `mark` can only be entered by
a step of `t` itself from locals where the call is in progress, and the step
that enters it satisfies `Q`. -/
theorem Run.during_of_local {ok : ι → μ → ℓ → μ → Prop} {t : ι} (mark busy : ℓ → Prop)
    {Q : Event ι (Config ι μ ℓ) → Prop} (h0 : ∀ s, init s → ¬ mark (s.loc t))
    (hbusy : ∀ c m l m' l', P.exec t c m l = some (m', l') → mark l' → busy l)
    (hself : ∀ l, mark l → busy l)
    (enter : ∀ s s', (∃ hist, Run init (P.StepIf ok) s hist) → P.StepIf ok t s s' →
      ¬ mark (s.loc t) → mark (s'.loc t) → Q ⟨t, s, s'⟩)
    (run : Run init (P.StepIf ok) s hist) (hm : mark (s.loc t)) :
    During (fun s => busy (s.loc t)) Q hist := by
  refine run.during_of_mark (fun s => mark (s.loc t)) h0 ?_ ?_ hm
  · intro u s s' hs hm
    by_cases hut : u = t
    · subst hut
      obtain ⟨c, he⟩ := hs.2.exec
      exact hbusy _ _ _ _ _ he hm
    · have hloc : s'.loc t = s.loc t := hs.2.loc_of_ne (Ne.symm hut)
      exact hself _ (hloc ▸ hm)
  · intro u s s' hr hs hn hm
    by_cases hut : u = t
    · subst hut
      exact enter _ _ hr hs hn hm
    · have hloc : s'.loc t = s.loc t := hs.2.loc_of_ne (Ne.symm hut)
      exact absurd (hloc ▸ hm) hn

end Schedule

end FibConcurrent.Machine
