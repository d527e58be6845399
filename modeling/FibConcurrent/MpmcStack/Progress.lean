import FibConcurrent.Machine.Progress
import FibConcurrent.MpmcStack.Model

/-!
# MpmcStack — lock-freedom

A push, and without `FIBER_XCHG_POINTER` also a flush, tries again whenever its
compare-and-swap on `head` fails. It fails only if the head is not the one that was
read, and nobody but another thread has moved it: so a call that keeps trying is
overtaken again and again (`mpmcStack_lock_free`). An exchange does not fail at all.
-/

namespace FibConcurrent.MpmcStack

open FibConcurrent.Machine

variable {ι ν : Type*} {xchg : Bool}

/-- The call is still trying to get at the head. -/
def Pc.goesForHead : Pc ν → Bool
  | .push _ => true
  | .flush (.exchange _) => true
  | .flush (.readHead ..) => true
  | .flush (.swapHead ..) => true
  | _ => false

/-- The accesses that a call still needs to get at the head, if it is not disturbed. -/
def Pc.remaining : Pc ν → Nat
  | .push (.readHead ..) => 3
  | .push (.writeNext ..) => 2
  | .push (.swapHead ..) => 1
  | .flush (.exchange _) => 1
  | .flush (.readHead ..) => 2
  | .flush (.swapHead ..) => 1
  | _ => 0

/-- The head that the attempt has read. -/
def Pc.snapshot : Pc ν → Option (Option ν)
  | .push (.writeNext _ head _) => some head
  | .push (.swapHead _ head _) => some head
  | .flush (.swapHead _ head _) => some head
  | _ => none

def credit [DecidableEq ν] (m : Memory ν) (pc : Pc ν) : Nat :=
  retryCredit 3 pc.remaining pc.snapshot m.head

/-- The head moves. -/
def MovesHead (m m' : Memory ν) : Prop := m'.head ≠ m.head

instance [DecidableEq ν] (m m' : Memory ν) : Decidable (MovesHead m m') :=
  inferInstanceAs (Decidable (m'.head ≠ m.head))

section Steps

variable [DecidableEq ν] {m m' : Memory ν} {pc pc' : Pc ν} {t : ι} {c : Choice ν}

/-- The accesses that do not go for the head have nothing to pay. -/
theorem credit_of_not_goesForHead (h : pc.goesForHead = false) : credit m pc = 0 := by
  cases pc with
  | push pc => cases h
  | flush pc => cases pc <;> first | rfl | cases h
  | _ => rfl

omit [DecidableEq ν] in
/-- What `mpmc_stack_reverse` goes on with is no attempt. -/
theorem reverse_not_goesForHead (head fifo : Option ν) (batch : List ν) :
    (Sum.elim Pc.flush Pc.flushRet (reverse head fifo batch)).goesForHead = false := by
  cases head <;> rfl

omit [DecidableEq ν] in
theorem flushed_not_goesForHead (order : Order) (head : Option ν) (batch : List ν) :
    (Sum.elim Pc.flush Pc.flushRet (flushed order head batch)).goesForHead = false := by
  cases order with
  | lifo => rfl
  | fifo => exact reverse_not_goesForHead ..

/-- A call begins with the credit of one undisturbed attempt. -/
theorem credit_of_call (hidle : pc = .idle) (he : exec xchg t c m pc = some (m', pc')) :
    credit m' pc' ≤ 3 := by
  subst hidle
  cases c with
  | flush order tries =>
    obtain ⟨-, rfl⟩ := Prod.mk.inj (Option.some.inj he)
    unfold flushStart
    split
    · exact Nat.zero_le 3
    · split
      · exact (by decide : 1 ≤ 3)
      · exact (by decide : 2 ≤ 3)
  | step => cases he
  | push n tries =>
    obtain ⟨-, h⟩ := Option.ite_none_right_eq_some.mp he
    obtain ⟨-, rfl⟩ := Prod.mk.inj (Option.some.inj h)
    exact Nat.le_refl 3
  | _ =>
    obtain ⟨-, h⟩ := Option.ite_none_right_eq_some.mp he
    obtain ⟨-, rfl⟩ := Prod.mk.inj (Option.some.inj h)
    exact Nat.zero_le 3

/-- **An access of the call itself** uses up credit as long as it goes for the head: a
compare-and-swap that fails has been overtaken. -/
theorem own_step (he : exec xchg t c m pc = some (m', pc')) (ha : pc.goesForHead = true) :
    credit m' pc' < credit m pc := by
  cases pc with
  | push pc =>
    obtain ⟨rfl, rfl⟩ := Prod.mk.inj (Option.some.inj he)
    cases pc with
    | readHead n tries =>
      have hnext : credit m (.push (.writeNext n m.head tries)) = 2 := retryCredit_self
      show credit m (.push (.writeNext n m.head tries)) < 3
      omega
    | writeNext n head tries => exact retryCredit_lt (by decide : 1 < 2)
    | swapHead n head tries =>
      by_cases h : m.head = head
      · simp only [pushStep, if_pos h]
        exact Nat.lt_of_lt_of_le Nat.zero_lt_one le_retryCredit
      · have hnow : credit m (.push (.swapHead n head tries)) = 4 := retryCredit_of_ne h
        simp only [pushStep, if_neg h]
        rw [hnow]
        cases retries tries with
        | none => exact Nat.zero_lt_succ _
        | some tries' => exact (by decide : 3 < 4)
  | flush pc =>
    obtain ⟨rfl, rfl⟩ := Prod.mk.inj (Option.some.inj he)
    cases pc with
    | exchange order =>
      have hdone := credit_of_not_goesForHead (m := { m with head := none, since := [] })
        (flushed_not_goesForHead order m.head m.since)
      exact Nat.lt_of_le_of_lt (Nat.le_of_eq hdone) Nat.zero_lt_one
    | readHead order tries =>
      have hnext : credit m (.flush (.swapHead order m.head tries)) = 1 := retryCredit_self
      show credit m (.flush (.swapHead order m.head tries)) < 2
      omega
    | swapHead order head tries =>
      by_cases h : m.head = head
      · simp only [flushStep, if_pos h]
        rw [credit_of_not_goesForHead (flushed_not_goesForHead ..)]
        exact Nat.lt_of_lt_of_le Nat.zero_lt_one le_retryCredit
      · have hnow : credit m (.flush (.swapHead order head tries)) = 4 := retryCredit_of_ne h
        simp only [flushStep, if_neg h]
        rw [hnow]
        cases retries tries with
        | none => exact Nat.zero_lt_succ _
        | some tries' => exact (by decide : 2 < 4)
    | _ => cases ha
  | _ => cases ha

/-- Behind the attempts, `mpmc_stack_reverse` makes no new one. -/
theorem not_goesForHead_of_exec (he : exec xchg t c m pc = some (m', pc')) (hb : pc ≠ .idle)
    (ha : pc.goesForHead = false) : pc'.goesForHead = false := by
  cases pc with
  | idle => exact absurd rfl hb
  | push pc => cases ha
  | pushRet n success =>
    cases success <;>
    · obtain ⟨-, rfl⟩ := Prod.mk.inj (Option.some.inj he)
      rfl
  | flush pc =>
    obtain ⟨-, rfl⟩ := Prod.mk.inj (Option.some.inj he)
    cases pc with
    | readNext head fifo batch => rfl
    | writeNext head next fifo batch => exact reverse_not_goesForHead ..
    | _ => cases ha
  | flushRet r =>
    cases r <;>
    · obtain ⟨-, rfl⟩ := Prod.mk.inj (Option.some.inj he)
      rfl

end Steps

section Runs

variable [DecidableEq ι] [DecidableEq ν] {s : Config ι (Memory ν) (Pc ν)}
  {hist : List (Event ι (Config ι (Memory ν) (Pc ν)))}

/-- **Lock-freedom**: a call that has spent more than `3 + 3 * k` accesses on getting
at the head has seen other threads move it more than `k` times, in every
interleaving of any number of threads and in both builds. -/
theorem mpmcStack_lock_free (run : Run Init (stackProgram xchg).Step s hist) (t : ι) (k : Nat)
    (hn : AtLeast (fun s => s.loc t ≠ .idle) (OwnStep t (Pc.goesForHead · = true)) (3 + 3 * k + 1)
      hist) :
    AtLeast (fun s => s.loc t ≠ .idle) (OtherAchieves t MovesHead) (k + 1) hist := by
  refine run.overtaken_of_many_steps credit (· ≠ .idle) 3 3 ?_ ?_ ?_ ?_ hn
  · intro s h hb
    obtain ⟨-, -, -, -, -, hidle⟩ := h
    exact hb (hidle t)
  · intro s s' _ hs hn _
    obtain ⟨c, he⟩ := hs.exec
    have he : exec xchg t c s.mem (s.loc t) = some (s'.mem, s'.loc t) := he
    exact credit_of_call (not_not.mp hn) he
  · intro s s' _ hs hb
    obtain ⟨c, he⟩ := hs.exec
    have he : exec xchg t c s.mem (s.loc t) = some (s'.mem, s'.loc t) := he
    cases ha : (s.loc t).goesForHead with
    | true => exact .inl (own_step he ha)
    | false =>
      refine .inr ⟨by simp, ?_⟩
      rw [credit_of_not_goesForHead (not_goesForHead_of_exec he hb ha)]
      exact Nat.zero_le _
  · intro u s s' _ _ _
    exact retryCredit_other s.mem.head s'.mem.head

/-- Without `FIBER_XCHG_POINTER`: thread 0 has read the head for a flush when thread 1
pushes, and has to read it again. -/
theorem mpmcStack_lock_free_overtaken :
    ∃ (s : Config Nat (Memory Nat) (Pc Nat)) (hist : _),
      Run Init (stackProgram false).Step s hist ∧
        s.loc 0 = .flushRet (.success .lifo (some 2) [2, 1]) ∧
        AtLeast (fun s => s.loc 0 ≠ .idle) (OwnStep 0 (Pc.goesForHead · = true)) 4 hist ∧
        AtLeast (fun s => s.loc 0 ≠ .idle) (OtherAchieves 0 MovesHead) 1 hist := by
  have hstart : Run Init (stackProgram (ι := Nat) (ν := Nat) false).Step initial [] :=
    .start init_initial
  obtain ⟨s, hist, run, hret, hn⟩ := hstart.exists_of_history
    (q := fun s hist => s.loc 0 = .flushRet (.success .lifo (some 2) [2, 1]) ∧
      AtLeast (fun s => s.loc 0 ≠ .idle) (OwnStep 0 (Pc.goesForHead · = true)) 4 hist)
    (List.flatten [[(1, .push 1 none)], List.replicate 4 (1, .step),
      [(0, .flush .lifo none), (0, .step), (1, .push 2 none)], List.replicate 4 (1, .step),
      List.replicate 3 (0, .step)])
    (by decide +kernel)
  exact ⟨s, hist, run, hret, hn, mpmcStack_lock_free run 0 0 hn⟩

end Runs

end FibConcurrent.MpmcStack
