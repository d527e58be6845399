import FibConcurrent.Machine.Progress
import FibConcurrent.MpscrFifo.Correct

/-!
# MpscrFifo — wait-freedom

A push is four accesses. `mpscr_fifo_trypop` tries at most `num_producers` fifos, and an attempt
that finds nothing is three accesses, whatever the producers do meanwhile. Nor does a call ever
wait: in the middle of it there is always a next access (`Pc.goes_on`).
-/

namespace FibConcurrent.MpscrFifo

open FibConcurrent.Machine

variable {n w : Nat} {ν α : Type*}

/-- The accesses of a call: the longest pop finds its item in the last fifo that it tries. -/
def Party.accesses : Party n → Nat
  | .producer _ => 4
  | .consumer => 3 * n + 4

/-- The accesses that a call can still take. -/
def Pc.left : Pc n ν α → Nat
  | .idle => 0
  | .push (.clearNext _) => 4
  | .push (.readTail _) => 3
  | .push (.writeTail ..) => 2
  | .push (.linkNext ..) => 1
  | .nextFifo i => 3 * (n - i) + 4
  | .pop i _ .readHead => 3 * (n - (i + 1)) + 6
  | .pop i _ (.readNext _) => 3 * (n - (i + 1)) + 5
  | .pop _ _ (.writeHead ..) => 4
  | .pop _ _ (.readData ..) => 3
  | .pop _ _ (.writeData ..) => 2
  | .popRet _ => 1

section Steps

variable [NeZero n] [DecidableEq ν] {t : Party n} {c : Choice ν α} {m m' : Memory n ν α}
  {g : Ghost n ν α} {pc pc' : Pc n ν α}

theorem left_of_call (hidle : pc = .idle) (he : exec w t c m pc = some (m', pc')) :
    pc'.left ≤ t.accesses := by
  subst hidle
  cases c with
  | store x v d =>
    obtain ⟨-, he⟩ := Option.ite_none_right_eq_some.mp he
    obtain ⟨-, rfl⟩ := Prod.mk.inj (Option.some.inj he)
    exact Nat.zero_le _
  | push x d =>
    cases t with
    | producer p =>
      obtain ⟨-, he⟩ := Option.ite_none_right_eq_some.mp he
      obtain ⟨-, rfl⟩ := Prod.mk.inj (Option.some.inj he)
      exact Nat.le_refl 4
    | consumer => cases he
  | pop =>
    obtain ⟨rfl, he⟩ := Option.ite_none_right_eq_some.mp he
    obtain ⟨-, rfl⟩ := Prod.mk.inj (Option.some.inj he)
    exact Nat.le_refl (3 * n + 4)
  | step => cases he

/-- **An access of a call** leaves fewer. -/
theorem left_of_exec (hbusy : pc ≠ .idle) (he : exec w t c m pc = some (m', pc')) :
    pc'.left < pc.left := by
  cases pc with
  | idle => exact absurd rfl hbusy
  | push pc =>
    cases t with
    | producer p =>
      obtain ⟨-, rfl⟩ := Prod.mk.inj (Option.some.inj he)
      cases pc <;> exact Nat.lt_succ_self _
    | consumer => cases he
  | nextFifo i =>
    by_cases hi : i < n
    · obtain ⟨-, rfl⟩ := Prod.mk.inj (Option.some.inj ((if_pos hi).symm.trans he))
      show 3 * (n - (i + 1)) + 6 < 3 * (n - i) + 4
      omega
    · obtain ⟨-, rfl⟩ := Prod.mk.inj (Option.some.inj ((if_neg hi).symm.trans he))
      show 1 < 3 * (n - i) + 4
      omega
  | pop i index pc =>
    obtain ⟨-, rfl⟩ := Prod.mk.inj (Option.some.inj he)
    cases pc with
    | readNext h =>
      cases hnext : m.next h with
      | some x =>
        simp only [popStep, hnext]
        show 4 < 3 * (n - (i + 1)) + 5
        omega
      | none =>
        simp only [popStep, hnext]
        exact Nat.lt_succ_self _
    | _ => exact Nat.lt_succ_self _
  | popRet out =>
    cases out <;>
    · obtain ⟨-, rfl⟩ := Prod.mk.inj (Option.some.inj he)
      exact Nat.lt_succ_self _

/-- In the middle of a call there is a next access. -/
theorem Pc.goes_on (hT : ThreadFacts t m g pc) (hbusy : pc ≠ .idle) :
    ∃ r, exec w t .step m pc = some r := by
  cases pc with
  | idle => exact absurd rfl hbusy
  | push pc =>
    cases t with
    | producer p => exact ⟨_, rfl⟩
    | consumer => exact absurd hT id
  | nextFifo i =>
    by_cases hi : i < n
    · exact ⟨_, if_pos hi⟩
    · exact ⟨_, if_neg hi⟩
  | pop i index pc => exact ⟨_, rfl⟩
  | popRet out => cases out <;> exact ⟨_, rfl⟩

end Steps

section Runs

variable [NeZero n] [DecidableEq ν] {s : Config (Party n) (Memory n ν α) (Pc n ν α)}
  {hist : List (Event (Party n) (Config (Party n) (Memory n ν α) (Pc n ν α)))}

/-- **The fifo is wait-free**: a push takes at most four accesses and a pop at most
`3 * num_producers + 4`, and before it is over a call can always take the next one. -/
theorem mpscrFifo_wait_free (run : Run Init (mpscrProgram w).Step s hist) (t : Party n) :
    (∀ k, AtLeast (fun s => s.loc t ≠ .idle) (OwnStep t fun _ => True) k hist →
      k ≤ t.accesses) ∧
    (s.loc t ≠ .idle → ∃ s', (mpscrProgram w).Step t s s') := by
  constructor
  · intro k hk
    refine run.steps_le Pc.left (· ≠ .idle) t.accesses ?_ ?_ ?_ hk
    · rintro s ⟨-, -, -, -, -, -, hidle⟩ hbusy
      exact hbusy (hidle t)
    · intro s s' _ hs hidle _
      obtain ⟨c, he⟩ : ∃ c, exec w t c s.mem (s.loc t) = some (s'.mem, s'.loc t) := hs.exec
      exact left_of_call (not_not.mp hidle) he
    · intro s s' _ hs hbusy
      obtain ⟨c, he⟩ : ∃ c, exec w t c s.mem (s.loc t) = some (s'.mem, s'.loc t) := hs.exec
      exact left_of_exec hbusy he
  · intro hbusy
    obtain ⟨g, -, hT⟩ := fifo_invariant run
    obtain ⟨⟨m', pc'⟩, he⟩ := Pc.goes_on (w := w) (hT t) hbusy
    exact ⟨_, .step, Program.next_eq_some.mpr ⟨m', pc', he, rfl⟩⟩

end Runs

/-- With two producers, the pop that finds the item of the second one takes all ten accesses. -/
theorem mpscrFifo_wait_free_longest :
    ∃ (s : Config (Party 2) (Memory 2 Nat Nat) (Pc 2 Nat Nat)) (hist : _),
      Run Init (mpscrProgram 32).Step s hist ∧ s.mem.popped = [(1, 20)] ∧
        AtLeast (fun s => s.loc .consumer ≠ .idle) (OwnStep .consumer fun _ => True) 10 hist ∧
        10 ≤ Party.consumer.accesses (n := 2) := by
  have hstart : Run Init (mpscrProgram (n := 2) (ν := Nat) (α := Nat) 32).Step (initial 2 0) [] :=
    .start (init_initial 2 0)
  obtain ⟨s, hist, run, hpopped, hn⟩ := hstart.exists_of_history
    (q := fun s hist => s.mem.popped = [(1, 20)] ∧
      AtLeast (fun s => s.loc .consumer ≠ .idle) (OwnStep .consumer fun _ => True) 10 hist)
    (List.flatten [[(.producer 1, .push 2 20)], List.replicate 4 (.producer 1, .step),
      [(.consumer, .pop)], List.replicate 10 (.consumer, .step)])
    (by decide +kernel)
  exact ⟨s, hist, run, hpopped, hn, (mpscrFifo_wait_free run .consumer).1 10 hn⟩

end FibConcurrent.MpscrFifo
