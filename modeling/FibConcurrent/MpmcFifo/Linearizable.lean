import FibConcurrent.MpmcFifo.Correct

/-!
# MpmcFifo — what clients see is a queue

A push takes effect at its CAS on `tail`, before the node is linked, and a pop that returns a
value at its CAS on `head`. A pop that meets an unlinked head returns null although nodes
may be behind it: so the fifo is linearizable to a queue that may answer that it is
empty when it is not, and to a true queue in every run in which no pop reads the link
of the head between the CAS of a push and its store.
-/

namespace FibConcurrent.MpmcFifo

open FibConcurrent.Machine FibConcurrent.Data

variable {ι ν α : Type*}

/-- The node whose link a pop reads. -/
def Pc.readsLink : Pc ι ν α → Option ν
  | .pop (.readPrev head) => some head
  | _ => none

/-- No pop finds the head unlinked while there is something to take, except from a loose queue. -/
def NoneMissed [DecidableEq ν] (loose : Bool) (_t : ι) (m : Memory ι ν α) (pc : Pc ι ν α)
    (_m' : Memory ι ν α) : Prop :=
  loose = false → ∀ head ∈ pc.readsLink, m.prev head = none → m.popped.length = m.pushed.length

instance [DecidableEq ν] (loose : Bool) (t : ι) (m : Memory ι ν α) (pc : Pc ι ν α)
    (m' : Memory ι ν α) : Decidable (NoneMissed loose t m pc m') :=
  inferInstanceAs (Decidable (_ → ∀ head ∈ pc.readsLink, _ → _))

/-- The values behind the dummy. -/
def Memory.values (m : Memory ι ν α) : List α := remaining m.pushed m.popped

section Step

variable [DecidableEq ι] [LinearOrder ν] {m m' : Memory ι ν α} {t : ι} {c : Choice ν α}

/-- A pop that is answered null has just met a head without a link. -/
theorem readPrev_of_answers {pc pc' : Pc ι ν α} (he : exec t c m pc = some (m', pc'))
    (h : (pc.client m).Answers (fifoInterface.labels t m pc m' pc') (pc'.client m') .take
      .nothing) : ∃ head, pc = .pop (.readPrev head) ∧ m.prev head = none := by
  have hpop : ∃ p, pc = .pop p := by
    have hpending := h.pending_eq
    cases pc with
    | pop p => exact ⟨p, rfl⟩
    | push p => cases p <;> cases hpending
    | _ => cases hpending
  obtain ⟨p, rfl⟩ := hpop
  refine readPrev_of_exec he ?_ ?_
  · rintro (heq | heq)
    · rw [heq] at h
      cases h.pending_eq
    · cases heq
  · rw [h.pending_eq] at h
    cases pc' with
    | pop p' =>
      have hdone := h.done_eq
      cases p' with
      | doneEmpty => exact .inl rfl
      | _ => cases hdone
    | popRet ret =>
      have hdone := h.done_eq
      cases ret with
      | none => exact .inr rfl
      | some v => cases hdone
    | push p' =>
      have hdone := h.done_eq
      cases p' <;> cases hdone
    | hazard p' => cases h

end Step

section Runs

variable [DecidableEq ι] [LinearOrder ν] {loose : Bool} {s : Config ι (Memory ι ν α) (Pc ι ν α)}
  {hist : List (Event ι (Config ι (Memory ι ν α) (Pc ι ν α)))}

/-- **`mpmc_fifo` is linearizable to a queue**: a loose one in every interleaving, a true one in
every interleaving in which no pop finds the head unlinked while there is something to take. -/
theorem mpmcFifo_calls_linearizable
    (run : Run Init (fifoProgram.StepIf (NoneMissed loose)) s hist) :
    Linearizable (queueObject α loose) (fifoInterface.trace hist) := by
  have hinv : ∀ {s : Config ι (Memory ι ν α) (Pc ι ν α)},
      (∃ hist, Run Init (fifoProgram.StepIf (NoneMissed loose)) s hist) → fifoAssertion.Holds s :=
    fun ⟨_, hr⟩ => fifo_invariant (hr.mono fun _ _ _ h => h.2)
  refine run.linearizable (queueObject α loose) (fun _ m pc => pc.client m)
    (fun m x => m.values = x) ?_ ?_ ?_
  · intro s h
    obtain ⟨-, -, -, -, -, hpushed, hpopped, hloc⟩ := h
    refine ⟨⟨[], rfl, ?_⟩, fun t => ?_⟩
    · rw [Memory.values, hpushed, hpopped]
      rfl
    · rw [hloc t]
      rfl
  · intro t s s' hr hs u _
    obtain ⟨g, hI, hT⟩ := hinv hr
    obtain ⟨c, he⟩ := hs.2.exec
    exact client_of_value hI (hT u) fun x hx => value_of_exec he hx
  · rintro t s s' x ⟨hist, hr⟩ hs rfl
    obtain ⟨g, hI, -⟩ := hinv ⟨hist, hr⟩
    obtain ⟨g', hI', -⟩ := hinv ⟨_, hr.next hs⟩
    obtain ⟨c, he⟩ := hs.2.exec
    refine ⟨s'.mem.values, rfl, ?_⟩
    refine goes_of_history (move_of_exec (t := t) he) hI.popped_prefix hI'.popped_prefix
      fun hans => ?_
    -- the head is unlinked, so there is nothing to take, or the queue is a loose one
    obtain ⟨head, hpc, hprev⟩ := readPrev_of_answers (t := t) he hans
    cases loose with
    | true => exact .inr rfl
    | false =>
      have hempty := hs.1 rfl head (by rw [hpc]; rfl) hprev
      exact .inl (List.drop_eq_nil_of_le (Nat.le_of_eq hempty.symm))

end Runs

/-- Threads 0 and 1 create a record each. -/
def twoRecords : List (Nat × Choice Nat Nat) :=
  List.flatten [[(0, .create)], List.replicate 2 (0, .step), [(1, .create)],
    List.replicate 5 (1, .step)]

/-- Thread 1 begins to pop while thread 0 pushes node 1, and takes its value. -/
theorem mpmcFifo_calls_linearizable_push_pop :
    ∃ (s : Config Nat (Memory Nat Nat Nat) (Pc Nat Nat Nat)) (hist : _),
      Run Init (fifoProgram.StepIf (NoneMissed false)) s hist ∧ fifoInterface.trace hist =
        [(0, .call (.put 10)), (1, .call .take), (0, .ret .stored), (1, .ret (.took 10))] ∧
        Linearizable (queueObject Nat false) (fifoInterface.trace hist) := by
  have hstart : Run Init ((fifoProgram (ι := Nat) (ν := Nat) (α := Nat)).StepIf (NoneMissed false))
      (initial 0 0) [] := .start (init_initial 0 0)
  obtain ⟨s, hist, run, htrace⟩ := hstart.exists_of_historyIf
    (q := fun _ hist => fifoInterface.trace hist =
      [(0, .call (.put 10)), (1, .call .take), (0, .ret .stored), (1, .ret (.took 10))])
    (List.flatten [twoRecords, [(0, .push 1 10), (1, .trypop)], List.replicate 8 (0, .step),
      List.replicate 13 (1, .step)])
    (by decide +kernel)
  exact ⟨s, hist, run, htrace, mpmcFifo_calls_linearizable run⟩

end FibConcurrent.MpmcFifo
