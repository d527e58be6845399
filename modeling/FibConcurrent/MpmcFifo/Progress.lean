import FibConcurrent.Machine.Progress
import FibConcurrent.MpmcFifo.Correct

/-!
# MpmcFifo — lock-freedom

A push goes round its loop until it has swung `tail`, a pop until it has swung
`head`. It goes back when it finds that end moved, at the check behind
`hazard_pointer_using` or at the compare-and-swap; pushes do not disturb pops, nor pops
pushes. So a call that keeps trying is overtaken by others of its own kind
(`mpmcFifo_lock_free`).
-/

namespace FibConcurrent.MpmcFifo

open FibConcurrent.Machine

variable {ι ν α : Type*}

/-- The two ends of the fifo. -/
inductive End where
  | head
  | tail
deriving DecidableEq

def Memory.endOf (m : Memory ι ν α) : End → ν
  | .head => m.head
  | .tail => m.tail

/-- In `mpmc_fifo_push` or `mpmc_fifo_trypop`. -/
def Pc.calls : Pc ι ν α → Bool
  | .push _ => true
  | .pop _ => true
  | .popRet _ => true
  | .hazard _ => false

/-- The accesses that a call still needs to swing its end, if it is not disturbed; those of
a push include the two behind the swap. -/
def Pc.remaining : End → Pc ι ν α → Nat
  | .tail, .push (.clearPrev _) => 8
  | .tail, .push (.readTail _) => 7
  | .tail, .push (.useTail ..) => 6
  | .tail, .push (.checkTail ..) => 5
  | .tail, .push (.writeNext ..) => 4
  | .tail, .push (.swapTail ..) => 3
  | .tail, .push (.linkPrev ..) => 2
  | .tail, .push .doneUsing => 1
  | .head, .pop .readHead => 8
  | .head, .pop (.useHead _) => 7
  | .head, .pop (.checkHead _) => 6
  | .head, .pop (.readPrev _) => 5
  | .head, .pop (.usePrev ..) => 4
  | .head, .pop (.checkPrev ..) => 3
  | .head, .pop (.readValue ..) => 2
  | .head, .pop (.swapHead ..) => 1
  | .head, .pop .doneEmpty => 1
  | _, _ => 0

/-- What the call in progress has read as the end. -/
def Pc.snapshot : End → Pc ι ν α → Option ν
  | .tail, .push (.useTail _ tail) => some tail
  | .tail, .push (.checkTail _ tail) => some tail
  | .tail, .push (.writeNext _ tail) => some tail
  | .tail, .push (.swapTail _ tail) => some tail
  | .head, .pop (.useHead head) => some head
  | .head, .pop (.checkHead head) => some head
  | .head, .pop (.readPrev head) => some head
  | .head, .pop (.usePrev head _) => some head
  | .head, .pop (.checkPrev head _) => some head
  | .head, .pop (.readValue head _) => some head
  | .head, .pop (.swapHead head _ _) => some head
  | _, _ => none

/-- The call is trying to swing the end `e`. -/
def Pc.attempts (e : End) (pc : Pc ι ν α) : Bool := decide (0 < pc.remaining e)

/-- The end moves. -/
def Moves (e : End) (m m' : Memory ι ν α) : Prop := m'.endOf e ≠ m.endOf e

def credit [DecidableEq ν] (e : End) (m : Memory ι ν α) (pc : Pc ι ν α) : Nat :=
  retryCredit 8 (pc.remaining e) (pc.snapshot e) (m.endOf e)

instance [DecidableEq ν] (e : End) (m m' : Memory ι ν α) : Decidable (Moves e m m') :=
  inferInstanceAs (Decidable (m'.endOf e ≠ m.endOf e))

section Steps

variable [DecidableEq ι] [LinearOrder ν] {m m' : Memory ι ν α} {pc pc' : Pc ι ν α} {e : End}
  {t : ι} {c : Choice ν α}

omit [DecidableEq ι] [LinearOrder ν] in
theorem snapshot_of_not_attempts (h : pc.attempts e = false) : pc.snapshot e = none := by
  cases e with
  | tail =>
    cases pc with
    | push pc => cases pc <;> first | rfl | cases h
    | _ => rfl
  | head =>
    cases pc with
    | pop pc => cases pc <;> first | rfl | cases h
    | _ => rfl

omit [DecidableEq ι] in
/-- The accesses that do not go for the end have nothing to pay. -/
theorem credit_of_not_attempts (h : pc.attempts e = false) : credit e m pc = 0 := by
  unfold credit
  rw [snapshot_of_not_attempts h]
  simpa [Pc.attempts] using h

omit [DecidableEq ι] in
/-- An attempt that finds its end moved is paid for by what has moved it. -/
theorem credit_of_moved {x : ν} (hsnap : pc.snapshot e = some x) (h : x ≠ m.endOf e)
    (hpos : 0 < pc.remaining e) : 8 < credit e m pc := by
  unfold credit
  rw [hsnap, retryCredit_of_ne (Ne.symm h)]
  omega

/-- **An access of a push** uses up credit. -/
theorem own_push_step (pc : PushPc ν) :
    credit .tail (pushStep t m pc).1 ((pushStep t m pc).2.elim (.hazard .idle) .push) <
      credit .tail m (.push pc) := by
  cases pc with
  | clearPrev n => exact (by decide : 7 < 8)
  | readTail n =>
    have hnext : credit .tail m (.push (.useTail n m.tail)) = 6 := retryCredit_self
    show credit .tail m (.push (.useTail n m.tail)) < 7
    omega
  | useTail n tail => exact retryCredit_lt (by decide : 5 < 6)
  | checkTail n tail =>
    by_cases h : tail = m.tail
    · simp only [pushStep, if_pos h]
      exact retryCredit_lt (by decide : 4 < 5)
    · simp only [pushStep, if_neg h]
      exact Nat.lt_trans (by decide : 7 < 8) (credit_of_moved rfl h (by decide : 0 < 5))
  | writeNext n tail => exact retryCredit_lt (by decide : 3 < 4)
  | swapTail n tail =>
    by_cases h : m.tail = tail
    · simp only [pushStep, if_pos h]
      exact Nat.lt_of_lt_of_le (by decide : 2 < 3) le_retryCredit
    · simp only [pushStep, if_neg h]
      exact Nat.lt_trans (by decide : 7 < 8)
        (credit_of_moved rfl (Ne.symm h) (by decide : 0 < 3))
  | linkPrev n tail => exact (by decide : 1 < 2)
  | doneUsing => exact (by decide : 0 < 1)

/-- **An access of a pop** uses up credit, until the head has been swung. -/
theorem own_pop_step {pc : PopPc ι ν α} {r : PopPc ι ν α ⊕ Option α}
    (hs : popStep t m pc = some (m', r)) (ha : (Pc.pop pc).attempts .head = true) :
    credit .head m' (Sum.elim .pop .popRet r) < credit .head m (.pop pc) := by
  cases pc with
  | readHead =>
    obtain ⟨rfl, rfl⟩ := Prod.mk.inj (Option.some.inj hs)
    have hnext : credit .head m (.pop (.useHead m.head)) = 7 := retryCredit_self
    show credit .head m (.pop (.useHead m.head)) < 8
    omega
  | checkHead head =>
    by_cases h : head = m.head
    · simp only [popStep, if_pos h] at hs
      obtain ⟨rfl, rfl⟩ := Prod.mk.inj (Option.some.inj hs)
      exact retryCredit_lt (by decide : 5 < 6)
    · simp only [popStep, if_neg h] at hs
      obtain ⟨rfl, rfl⟩ := Prod.mk.inj (Option.some.inj hs)
      exact credit_of_moved rfl h (by decide : 0 < 6)
  | readPrev head =>
    simp only [popStep] at hs
    cases hprev : m.prev head with
    | none =>
      rw [hprev] at hs
      obtain ⟨rfl, rfl⟩ := Prod.mk.inj (Option.some.inj hs)
      exact Nat.lt_of_lt_of_le (by decide : 1 < 5) le_retryCredit
    | some prev =>
      rw [hprev] at hs
      obtain ⟨rfl, rfl⟩ := Prod.mk.inj (Option.some.inj hs)
      exact retryCredit_lt (by decide : 4 < 5)
  | checkPrev head prev =>
    by_cases h : head = m.head
    · simp only [popStep, if_pos h] at hs
      obtain ⟨rfl, rfl⟩ := Prod.mk.inj (Option.some.inj hs)
      exact retryCredit_lt (by decide : 2 < 3)
    · simp only [popStep, if_neg h] at hs
      obtain ⟨rfl, rfl⟩ := Prod.mk.inj (Option.some.inj hs)
      exact credit_of_moved rfl h (by decide : 0 < 3)
  | swapHead head prev ret =>
    by_cases h : m.head = head
    · simp only [popStep, if_pos h] at hs
      obtain ⟨rfl, rfl⟩ := Prod.mk.inj (Option.some.inj hs)
      exact Nat.lt_of_lt_of_le Nat.zero_lt_one le_retryCredit
    · simp only [popStep, if_neg h] at hs
      obtain ⟨rfl, rfl⟩ := Prod.mk.inj (Option.some.inj hs)
      exact credit_of_moved rfl (Ne.symm h) (by decide : 0 < 1)
  | useHead head =>
    obtain ⟨rfl, rfl⟩ := Prod.mk.inj (Option.some.inj hs)
    exact retryCredit_lt (by decide : 6 < 7)
  | usePrev head prev =>
    obtain ⟨rfl, rfl⟩ := Prod.mk.inj (Option.some.inj hs)
    exact retryCredit_lt (by decide : 3 < 4)
  | readValue head prev =>
    obtain ⟨rfl, rfl⟩ := Prod.mk.inj (Option.some.inj hs)
    exact retryCredit_lt (by decide : 1 < 2)
  | doneEmpty =>
    obtain ⟨rfl, rfl⟩ := Prod.mk.inj (Option.some.inj hs)
    exact (by decide : 0 < 1)
  | _ => cases ha

/-- A pop that has swung the head does not try again. -/
theorem not_attempts_of_popStep {pc : PopPc ι ν α} {r : PopPc ι ν α ⊕ Option α}
    (hs : popStep t m pc = some (m', r)) (ha : (Pc.pop pc).attempts .head = false) :
    (Sum.elim Pc.pop Pc.popRet r).attempts .head = false := by
  cases pc with
  | doneHead head ret =>
    obtain ⟨-, rfl⟩ := Prod.mk.inj (Option.some.inj hs)
    rfl
  | donePrev head ret =>
    obtain ⟨-, rfl⟩ := Prod.mk.inj (Option.some.inj hs)
    rfl
  | free head ret =>
    obtain ⟨-, rfl⟩ := Prod.mk.inj (Option.some.inj hs)
    rfl
  | reclaim pc ret =>
    obtain ⟨r', -, heq⟩ := Option.map_eq_some_iff.mp hs
    rw [← (Prod.mk.inj heq).2]
    split <;> rfl
  | _ => cases ha

/-- **An access of the call itself**: it pays as long as it goes for the end, and has
nothing to pay afterwards. -/
theorem own_step (hb : pc.calls = true) (he : exec t c m pc = some (m', pc')) :
    credit e m' pc' < credit e m pc ∨ pc.attempts e = false ∧ credit e m' pc' ≤ credit e m pc := by
  cases pc with
  | hazard pc => cases hb
  | popRet ret =>
    obtain ⟨-, rfl⟩ := Prod.mk.inj (Option.some.inj he)
    exact .inr ⟨by cases e <;> rfl, by cases e <;> exact Nat.zero_le _⟩
  | push pc =>
    obtain ⟨rfl, rfl⟩ := Prod.mk.inj (Option.some.inj he)
    cases e with
    | tail => exact .inl (own_push_step pc)
    | head =>
      refine .inr ⟨rfl, ?_⟩
      rw [credit_of_not_attempts]
      · exact Nat.zero_le _
      · cases (pushStep t m pc).2 <;> rfl
  | pop pc =>
    obtain ⟨⟨m₁, r⟩, hs, heq⟩ := Option.map_eq_some_iff.mp he
    obtain ⟨rfl, rfl⟩ := Prod.mk.inj heq
    cases e with
    | head =>
      cases ha : (Pc.pop pc).attempts .head with
      | true => exact .inl (own_pop_step hs ha)
      | false =>
        refine .inr ⟨rfl, ?_⟩
        rw [credit_of_not_attempts (not_attempts_of_popStep hs ha)]
        exact Nat.zero_le _
    | tail =>
      refine .inr ⟨rfl, ?_⟩
      rw [credit_of_not_attempts (by cases r <;> rfl)]
      exact Nat.zero_le _

/-- A call begins with the credit of one undisturbed attempt. -/
theorem credit_of_call (hb : pc.calls = false) (he : exec t c m pc = some (m', pc'))
    (hcalls : pc'.calls = true) : credit e m' pc' ≤ 8 := by
  cases pc with
  | hazard pc =>
    by_cases hidle : pc = .idle
    · subst hidle
      cases c with
      | push newNode value =>
        obtain ⟨-, h⟩ := Option.ite_none_right_eq_some.mp he
        obtain ⟨-, rfl⟩ := Prod.mk.inj (Option.some.inj h)
        cases e with
        | head => exact Nat.zero_le 8
        | tail => exact Nat.le_refl 8
      | trypop =>
        obtain ⟨-, rfl⟩ := Prod.mk.inj (Option.some.inj he)
        cases e with
        | head => exact Nat.le_refl 8
        | tail => exact Nat.zero_le 8
      | scan =>
        obtain ⟨-, rfl⟩ := Prod.mk.inj (Option.some.inj he)
        cases hcalls
      | _ => cases he
    · rw [exec_hazard hidle] at he
      obtain ⟨r, -, heq⟩ := Option.map_eq_some_iff.mp he
      rw [← (Prod.mk.inj heq).2] at hcalls
      cases hcalls
  | _ => cases hb

end Steps

section Runs

variable [DecidableEq ι] [LinearOrder ν] {s : Config ι (Memory ι ν α) (Pc ι ν α)}
  {hist : List (Event ι (Config ι (Memory ι ν α) (Pc ι ν α)))}

/-- **Lock-freedom**: a push that has taken more than `8 + 8 * k` accesses has seen others
move the tail more than `k` times during the call, and a pop that has spent as many on
getting at the head has seen others move the head. -/
theorem mpmcFifo_lock_free (run : Run Init fifoProgram.Step s hist) (t : ι) (e : End) (k : Nat)
    (hn : AtLeast (fun s => (s.loc t).calls = true) (OwnStep t fun pc => pc.attempts e = true)
      (8 + 8 * k + 1) hist) :
    AtLeast (fun s => (s.loc t).calls = true) (OtherAchieves t (Moves e)) (k + 1) hist := by
  refine run.overtaken_of_many_steps (credit e) (fun pc => pc.calls = true) 8 8 ?_ ?_ ?_ ?_ hn
  · intro s h hb
    obtain ⟨-, -, -, -, -, -, -, hloc⟩ := h
    rw [hloc t] at hb
    cases hb
  · intro s s' _ hs hn hcalls
    obtain ⟨c, he⟩ := hs.exec
    exact credit_of_call (Bool.eq_false_iff.mpr hn) he hcalls
  · intro s s' _ hs hb
    obtain ⟨c, he⟩ := hs.exec
    exact (own_step hb he).imp_right fun h => ⟨by simp [h.1], h.2⟩
  · intro u s s' _ _ _
    exact retryCredit_other (s.mem.endOf e) (s'.mem.endOf e)

/-- Thread 0 is about to swing the tail when thread 1 does so, and has to start over. -/
theorem mpmcFifo_lock_free_overtaken :
    ∃ (s : Config Nat (Memory Nat Nat Nat) (Pc Nat Nat Nat)) (hist : _),
      Run Init fifoProgram.Step s hist ∧ s.mem.pushed = [20, 10] ∧
        AtLeast (fun s => (s.loc 0).calls = true)
          (OwnStep 0 fun pc => pc.attempts .tail = true) 9 hist ∧
        AtLeast (fun s => (s.loc 0).calls = true) (OtherAchieves 0 (Moves .tail)) 1 hist := by
  have hstart : Run Init (fifoProgram (ι := Nat) (ν := Nat) (α := Nat)).Step (initial 0 0) [] :=
    .start (init_initial 0 0)
  obtain ⟨s, hist, run, hpushed, hn⟩ := hstart.exists_of_history
    (q := fun s hist => s.mem.pushed = [20, 10] ∧ AtLeast (fun s => (s.loc 0).calls = true)
      (OwnStep 0 fun pc => pc.attempts .tail = true) 9 hist)
    (List.flatten [[(0, .create)], List.replicate 2 (0, .step), [(1, .create)],
      List.replicate 5 (1, .step), [(0, .push 1 10)], List.replicate 5 (0, .step), [(1, .push 2 20)],
      List.replicate 8 (1, .step), List.replicate 6 (0, .step)])
    (by decide +kernel)
  exact ⟨s, hist, run, hpushed, hn, mpmcFifo_lock_free run 0 .tail 0 hn⟩

end Runs

end FibConcurrent.MpmcFifo
