import FibConcurrent.MpscrFifo.Poll

/-!
# MpscrFifo — nobody is passed over for long

While the counter does not wrap, it numbers the attempts of the consumer, and
attempt `k` looks at fifo `k % num_producers`. A fifo with a linked item is not
passed over: an attempt at it returns the item. So the attempts since the stretch
began hold no residue of that fifo, or an item of it has been returned, and every
item that is returned costs an attempt.
-/

namespace FibConcurrent.MpscrFifo

open FibConcurrent.Machine FibConcurrent.Data

variable {n w : Nat} {ν α : Type*}

/-- None of the attempts from `lo` up to, but not including, `hi` was at fifo `p`. -/
def Passed (p : Fin n) (lo hi : Nat) : Prop := ∀ k, lo ≤ k → k < hi → k % n ≠ p

section Passed

variable {p : Fin n} {lo hi : Nat}

theorem passed_self (p : Fin n) (k : Nat) : Passed p k k := fun _ _ _ => by omega

theorem Passed.succ (h : Passed p lo hi) (hne : hi % n ≠ p) : Passed p lo (hi + 1) := by
  intro k hlo hhi
  rcases Nat.lt_succ_iff_lt_or_eq.mp hhi with hlt | rfl
  · exact h k hlo hlt
  · exact hne

/-- Among `n` attempts in a row one is at each fifo. -/
theorem Passed.lt (h : Passed p lo hi) : hi < lo + n := by
  by_contra hge
  have hn : 0 < n := Nat.lt_of_le_of_lt (Nat.zero_le _) p.isLt
  have hmod := Nat.mod_lt lo hn
  have hdiv := Nat.div_add_mod lo n
  have hp := p.isLt
  -- the next number from `lo` on with the residue `p`
  by_cases hle : lo % n ≤ p.val
  · apply h (n * (lo / n) + p.val) (by omega) (by omega)
    rw [Nat.mul_add_mod, Nat.mod_eq_of_lt hp]
  · apply h (n * (lo / n) + (n + p.val)) (by omega) (by omega)
    rw [Nat.mul_add_mod, Nat.add_mod_left, Nat.mod_eq_of_lt hp]

end Passed

/-- The items that have been returned since attempt `c₀` are `l`, and `c` attempts
have been made. -/
structure Served (p : Fin n) (c₀ c : Nat) (l : List (Fin n × α)) : Prop where
  cost : c₀ + l.length ≤ c
  passed : (∀ e ∈ l, e.1 ≠ p) → Passed p c₀ c

/-- Where the consumer is in a stretch that began before attempt `c₀`; in a call,
`i` attempts have failed. -/
def Round (p : Fin n) (c₀ c : Nat) (l : List (Fin n × α)) : Pc n ν α → Prop
  | .idle => Served p c₀ c l
  | .nextFifo i => Served p c₀ c l ∧ ∃ b, b + i = c ∧ c₀ ≤ b ∧ Passed p b c
  | .pop i index _ => ∃ k, k + 1 = c ∧ index.val = k % n ∧ Served p c₀ k l ∧
      ∃ b, b + i = k ∧ c₀ ≤ b ∧ Passed p b k
  | .popRet none => False
  | .popRet (some _) => Served p c₀ c l
  | .push _ => False

/-- The fifo of `p` has a linked item before and after the step, and the counter
does not wrap. -/
def Stretch (w : Nat) (p : Fin n) (_t : Party n) (m : Memory n ν α) (pc : Pc n ν α)
    (m' : Memory n ν α) : Prop :=
  ¬ Empty m p ∧ ¬ Empty m' p ∧ ∀ i < n, pc = .nextFifo i → m.counter + 1 < 2 ^ w

instance [DecidableEq ν] [DecidableEq α] (w : Nat) (p : Fin n) (t : Party n)
    (m : Memory n ν α) (pc : Pc n ν α) (m' : Memory n ν α) : Decidable (Stretch w p t m pc m') :=
  inferInstanceAs (Decidable (m.next (m.head p) ≠ none ∧ m'.next (m'.head p) ≠ none ∧
    ∀ i < n, pc = .nextFifo i → m.counter + 1 < 2 ^ w))

section Round

variable {p : Fin n} {c₀ c : Nat} {l : List (Fin n × α)}

/-- An item costs an attempt. -/
theorem Served.serve {index : Fin n} {k : Nat} {d : α} (h : Served p c₀ k l)
    (hindex : index.val = k % n) : Served p c₀ (k + 1) (l ++ [(index, d)]) := by
  constructor
  case cost =>
    have hcost := h.cost
    rw [List.length_append, List.length_singleton]
    omega
  case passed =>
    intro hnone
    have hold : Passed p c₀ k := h.passed fun e he => hnone e (List.mem_append_left _ he)
    refine hold.succ fun heq => ?_
    exact hnone (index, d) (by simp) (Fin.ext (hindex.trans heq))

/-- So does an attempt at another fifo, without an item. -/
theorem Served.pass {k : Nat} (h : Served p c₀ k l) (hne : k % n ≠ p) :
    Served p c₀ (k + 1) l :=
  ⟨Nat.le_succ_of_le h.cost, fun hnone => (h.passed hnone).succ hne⟩

theorem Round.served {pc : Pc n ν α} (h : Round p c₀ c l pc) : ∃ c', Served p c₀ c' l := by
  cases pc with
  | idle => exact ⟨c, h⟩
  | push pc => exact absurd h id
  | nextFifo i => exact ⟨c, h.1⟩
  | pop i index pc =>
    obtain ⟨k, -, -, hserved, -⟩ := h
    exact ⟨k, hserved⟩
  | popRet out =>
    cases out with
    | none => exact absurd h id
    | some x => exact ⟨c, h⟩

variable [NeZero n] [DecidableEq ν] {m m' : Memory n ν α} {g : Ghost n ν α} {pc pc' : Pc n ν α}
  {ch : Choice ν α}

/-- **One step of the consumer.** -/
theorem Round.step (h : Round p c₀ m.counter l pc) (hT : ConsumerFacts m g pc)
    (hstretch : Stretch w p .consumer m pc m')
    (he : exec w .consumer ch m pc = some (m', pc')) :
    ∃ l', m'.popped = m.popped ++ l' ∧ Round p c₀ m'.counter (l ++ l') pc' := by
  cases pc with
  | idle =>
    cases ch with
    | store x v d =>
      simp only [exec, Option.ite_none_right_eq_some, Option.some.injEq, Prod.mk.injEq] at he
      obtain ⟨-, rfl, rfl⟩ := he
      exact ⟨[], by simp, by simpa using h⟩
    | push x d => simp [exec] at he
    | pop =>
      simp only [exec, if_true, Option.some.injEq, Prod.mk.injEq] at he
      obtain ⟨rfl, rfl⟩ := he
      refine ⟨[], by simp, ?_⟩
      rw [List.append_nil]
      exact ⟨h, _, Nat.add_zero _, Nat.le_trans (Nat.le_add_right ..) (Served.cost h), passed_self p _⟩
    | step => simp [exec] at he
  | push pc => exact absurd hT id
  | nextFifo i =>
    obtain ⟨hserved, b, hb, hb₀, hpassed⟩ := h
    -- `n` attempts would have come to `p`
    have hi : i < n := by
      have := hpassed.lt
      omega
    have hwrap := hstretch.2.2 i hi rfl
    simp only [exec, if_pos hi, Option.some.injEq, Prod.mk.injEq] at he
    obtain ⟨rfl, rfl⟩ := he
    refine ⟨[], by simp, ?_⟩
    rw [List.append_nil]
    exact ⟨m.counter, (Nat.mod_eq_of_lt hwrap).symm, rfl, hserved, b, hb, hb₀, hpassed⟩
  | pop i index pc =>
    obtain ⟨k, hk, hindex, hserved, b, hb, hb₀, hpassed⟩ := h
    obtain ⟨rfl, rfl⟩ := Prod.mk.inj (Option.some.inj he)
    have hsame : ∃ k, k + 1 = m.counter ∧ index.val = k % n ∧ Served p c₀ k (l ++ []) ∧
        ∃ b, b + i = k ∧ c₀ ≤ b ∧ Passed p b k := by
      rw [List.append_nil]
      exact ⟨k, hk, hindex, hserved, b, hb, hb₀, hpassed⟩
    cases pc with
    | readNext x =>
      obtain ⟨-, hhead⟩ := hT
      cases hnext : m.next x with
      | none =>
        -- an attempt that finds nothing is not at `p`
        have hne : k % n ≠ p := by
          intro heq
          obtain rfl : index = p := Fin.ext (hindex.trans heq)
          apply hstretch.1
          show m.next (m.head index) = none
          rw [hhead, hnext]
        simp only [popStep, hnext]
        refine ⟨[], by simp, ?_⟩
        rw [List.append_nil]
        exact ⟨hk ▸ hserved.pass hne, b, by omega, hb₀, hk ▸ hpassed.succ hne⟩
      | some y =>
        simp only [popStep, hnext]
        exact ⟨[], by simp, hsame⟩
    | writeData x d => exact ⟨[(index, d)], rfl, hk ▸ hserved.serve hindex⟩
    | _ => exact ⟨[], by simp [popStep], hsame⟩
  | popRet out =>
    cases out with
    | none => exact absurd h id
    | some x =>
      obtain ⟨rfl, rfl⟩ := Prod.mk.inj (Option.some.inj he)
      have hserved : Served p c₀ m.counter l := h
      refine ⟨[], by simp, ?_⟩
      rwa [List.append_nil]

end Round

/-! ## Runs -/

section Runs

variable [NeZero n] [DecidableEq ν] {s s' : Config (Party n) (Memory n ν α) (Pc n ν α)}
  {hist hist' : List (Event (Party n) (Config (Party n) (Memory n ν α) (Pc n ν α)))}
  {p : Fin n}

/-- **A stretch**, from a state between two calls on. -/
theorem round_of_stretch (hs : fifoAssertion.Holds s) (hidle : s.loc .consumer = .idle)
    (stretch : Run (fun a => a = s) ((mpscrProgram w).StepIf (Stretch w p)) s' hist') :
    ∃ l, s'.mem.popped = s.mem.popped ++ l ∧
      Round p s.mem.counter s'.mem.counter l (s'.loc .consumer) := by
  refine (stretch.invariant (I := fun b => fifoAssertion.Holds b ∧
    ∃ l, b.mem.popped = s.mem.popped ++ l ∧
      Round p s.mem.counter b.mem.counter l (b.loc .consumer)) ?_ ?_).2
  · rintro b rfl
    refine ⟨hs, [], by simp, ?_⟩
    rw [hidle]
    exact ⟨Nat.le_refl _, fun _ => passed_self p _⟩
  · intro t a b ⟨hA, l, hl, hround⟩ hstep
    obtain ⟨hstretch, hstep⟩ := hstep
    refine ⟨fifoAssertion_kept.step hA (Program.stepIf_true.mpr hstep), ?_⟩
    obtain ⟨g, hI, hT⟩ := hA
    obtain ⟨ch, he⟩ := hstep.exec
    cases t with
    | producer q =>
      obtain ⟨hcounter, hpopped⟩ := producer_step (hT (.producer q)) he
      rw [hcounter, hpopped, hstep.loc_of_ne (u := .consumer) (by simp)]
      exact ⟨l, hl, hround⟩
    | consumer =>
      obtain ⟨l', hl', hround'⟩ := hround.step (hT .consumer) hstretch he
      refine ⟨l ++ l', ?_, hround'⟩
      rw [hl', hl, List.append_assoc]

/-- **Round robin**: while the fifo of `p` has a linked item, no call returns null,
and among the items of any `num_producers` consecutive calls there is one of `p`.
The stretch begins with the first of these calls, in any state between two calls. -/
theorem round_robin_bound (run : Run Init (mpscrProgram w).Step s hist)
    (hidle : s.loc .consumer = .idle)
    (stretch : Run (fun a => a = s) ((mpscrProgram w).StepIf (Stretch w p)) s' hist') :
    s'.loc .consumer ≠ .popRet none ∧ ∃ l, s'.mem.popped = s.mem.popped ++ l ∧
      (n ≤ l.length → ∃ e ∈ l, e.1 = p) := by
  obtain ⟨l, hl, hround⟩ := round_of_stretch (fifo_invariant run) hidle stretch
  obtain ⟨c, hserved⟩ := hround.served
  constructor
  · intro hnull
    rw [hnull] at hround
    exact hround
  · refine ⟨l, hl, fun hlen => ?_⟩
    by_contra hnone
    push Not at hnone
    have hcost := hserved.cost
    have := (hserved.passed hnone).lt
    omega

end Runs

/-- Two producers; producer 1 has two items when the stretch begins, and of the two
items that are returned in it one is producer 1's. -/
theorem round_robin_bound_two :
    ∃ (s s' : Config (Party 2) (Memory 2 Nat Nat) (Pc 2 Nat Nat)) (hist hist' : _)
      (l : List (Fin 2 × Nat)), Run Init (mpscrProgram 32).Step s hist ∧
      Run (fun a => a = s) ((mpscrProgram 32).StepIf (Stretch 32 1)) s' hist' ∧
      s'.mem.popped = s.mem.popped ++ l ∧ l.length = 2 ∧ ∃ e ∈ l, e.1 = 1 := by
  have hrun : (((mpscrProgram 32).runSchedule (List.flatten
      [[(.producer 1, .push 2 7)], List.replicate 4 (.producer 1, .step),
        [(.producer 1, .push 3 8)], List.replicate 4 (.producer 1, .step),
        [(.producer 0, .push 4 9)], List.replicate 4 (.producer 0, .step)])
      (initial 2 0)).bind fun s => ((mpscrProgram 32).runScheduleIf (Stretch 32 1) (List.flatten
      [[(.consumer, .pop)], List.replicate 7 (.consumer, .step), [(.consumer, .pop)],
        List.replicate 6 (.consumer, .step)]) s).map fun s' => (s, s')).any (fun r => decide
      (r.1.loc .consumer = .idle ∧ r.1.mem.popped = [] ∧ r.2.mem.popped.length = 2)) = true := by
    decide +kernel
  obtain ⟨⟨s, s'⟩, hsched, hq⟩ := (Option.any_eq_true _ _).mp hrun
  obtain ⟨hidle, hpopped, hlen⟩ := of_decide_eq_true hq
  obtain ⟨s₁, hs₁, hmap⟩ := Option.bind_eq_some_iff.mp hsched
  obtain ⟨s₂, hs₂, heq⟩ := Option.map_eq_some_iff.mp hmap
  obtain ⟨rfl, rfl⟩ := Prod.mk.inj heq
  have hstart : Run Init (mpscrProgram (n := 2) (ν := Nat) (α := Nat) 32).Step (initial 2 0) [] :=
    .start (init_initial 2 0)
  obtain ⟨hist, run⟩ := hstart.schedule hs₁
  have hstretch : Run (fun a => a = s₁) ((mpscrProgram 32).StepIf (Stretch 32 1)) s₁ [] := .start rfl
  obtain ⟨hist', stretch⟩ := hstretch.scheduleIf hs₂
  obtain ⟨-, l, hl, hbound⟩ := round_robin_bound run hidle stretch
  have hlength : l.length = 2 := by
    rw [hl, hpopped] at hlen
    exact hlen
  exact ⟨s₁, s₂, hist, hist', l, run, stretch, hl, hlength, hbound (by omega)⟩

end FibConcurrent.MpscrFifo
