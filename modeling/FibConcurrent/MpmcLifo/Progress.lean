import FibConcurrent.Machine.Progress
import FibConcurrent.MpmcLifo.Model

/-!
# MpmcLifo — lock-freedom

Push and pop go round their loops until a swap succeeds. A swap fails only if the
pair is not the one that the iteration has read, and every change of the pair is
a swap of another thread that succeeded: so a call that takes many accesses has
been overtaken by as many others (`mpmcLifo_lock_free`). Nothing is assumed of the
counter here.
-/

namespace FibConcurrent.MpmcLifo

open FibConcurrent.Machine FibConcurrent.Data

variable {ι ν : Type*} {w : Nat}

deriving instance DecidableEq for PushPc, PopPc, Pc

/-- The accesses that a call still needs if its iteration comes to an end undisturbed. -/
def Pc.remaining : Pc w ν → Nat
  | .idle => 0
  | .push (.readCounter _) => 4
  | .push (.readHead ..) => 3
  | .push (.writeNext ..) => 2
  | .push (.swap ..) => 1
  | .pop .readCounter => 5
  | .pop (.readHead ..) => 4
  | .pop (.readNext ..) => 3
  | .pop (.swap ..) => 2
  | .popRet _ => 1

/-- The log length at the counter read of the iteration. -/
def Pc.stamp : Pc w ν → Option Nat
  | .push (.readHead _ _ stamp) => some stamp
  | .push (.writeNext _ _ stamp) => some stamp
  | .push (.swap _ _ stamp) => some stamp
  | .pop (.readHead _ stamp) => some stamp
  | .pop (.readNext _ _ stamp) => some stamp
  | .pop (.swap _ _ _ stamp) => some stamp
  | _ => none

/-- What the iteration has read of the pair is what the pair is. -/
def Pc.agrees (pair : Counted w (Option ν)) : Pc w ν → Prop
  | .push (.readHead _ counter _) => pair.counter = counter
  | .push (.writeNext _ snapshot _) => pair = snapshot
  | .push (.swap _ snapshot _) => pair = snapshot
  | .pop (.readHead counter _) => pair.counter = counter
  | .pop (.readNext counter head _) => pair = ⟨counter, some head⟩
  | .pop (.swap counter head _ _) => pair = ⟨counter, some head⟩
  | _ => True

/-- An iteration that is overtaken by a swap is followed by another one. -/
def credit (m : Lifo w ν) (pc : Pc w ν) : Nat :=
  retryCredit 4 pc.remaining pc.stamp m.log.length

/-- An iteration that has not been overtaken has read the pair as it is. -/
structure Stamped (m : Lifo w ν) (pc : Pc w ν) : Prop where
  le : ∀ k ∈ pc.stamp, k ≤ m.log.length
  agrees : pc.stamp = some m.log.length → pc.agrees m.pair

/-- A swap succeeds. -/
def Swaps (m m' : Lifo w ν) : Prop := m.log.length < m'.log.length

instance (m m' : Lifo w ν) : Decidable (Swaps m m') :=
  inferInstanceAs (Decidable (m.log.length < m'.log.length))

section Steps

variable {m m' : Lifo w ν} {pc pc' : Pc w ν} {t : ι} {c : Choice ν}

/-- Outside an iteration nothing has been read yet. -/
theorem stamped_of_none (h : pc.stamp = none) : Stamped m pc := by
  constructor <;> simp [h]

variable [DecidableEq ν]

/-- The pair changes by a swap that succeeds, and in no other way. -/
theorem pair_of_exec (he : exec t c m pc = some (m', pc')) :
    m'.pair = m.pair ∧ m'.log = m.log ∨ Swaps m m' := by
  cases pc with
  | idle =>
    cases c <;> simp only [exec, Option.ite_none_right_eq_some, Option.some.injEq,
      Prod.mk.injEq, reduceCtorEq] at he
    case pop =>
      obtain ⟨rfl, -⟩ := he
      exact .inl ⟨rfl, rfl⟩
    all_goals
      obtain ⟨-, rfl, -⟩ := he
      exact .inl ⟨rfl, rfl⟩
  | push pc =>
    obtain ⟨rfl, -⟩ := Prod.mk.inj (Option.some.inj he)
    cases pc with
    | swap n snapshot k =>
      by_cases h : m.pair = snapshot
      · subst h
        exact .inr (by simp [Swaps, pushStep])
      · exact .inl (by simp [pushStep, compareAndSwap2_of_ne h])
    | _ => exact .inl ⟨rfl, rfl⟩
  | pop pc =>
    obtain ⟨rfl, -⟩ := Prod.mk.inj (Option.some.inj he)
    cases pc with
    | readHead counter k =>
      left
      cases h : m.pair.ptr <;> simp [popStep, h]
    | swap counter head next k =>
      by_cases h : m.pair = ⟨counter, some head⟩
      · exact .inr (by simp [Swaps, popStep, h])
      · exact .inl (by simp [popStep, compareAndSwap2_of_ne h])
    | _ => exact .inl ⟨rfl, rfl⟩
  | popRet r =>
    cases r <;>
    · obtain ⟨rfl, -⟩ := Prod.mk.inj (Option.some.inj he)
      exact .inl ⟨rfl, rfl⟩

/-- A call begins with the credit of one undisturbed iteration. -/
theorem credit_of_call (hidle : pc = .idle) (he : exec t c m pc = some (m', pc')) :
    credit m' pc' ≤ 5 := by
  subst hidle
  cases c <;> simp only [exec, Option.ite_none_right_eq_some, Option.some.injEq,
    Prod.mk.injEq, reduceCtorEq] at he
  case pop =>
    obtain ⟨-, rfl⟩ := he
    exact Nat.le_refl 5
  case push =>
    obtain ⟨-, -, rfl⟩ := he
    exact (by decide : 4 ≤ 5)
  case write =>
    obtain ⟨-, -, rfl⟩ := he
    exact Nat.zero_le 5

omit [DecidableEq ν] in
/-- A swap that fails has been overtaken. -/
theorem Stamped.credit_of_ne {k : Nat} {snapshot : Counted w (Option ν)} (hs : Stamped m pc)
    (hstamp : pc.stamp = some k) (hagrees : pc.agrees m.pair → m.pair = snapshot)
    (h : m.pair ≠ snapshot) : credit m pc = pc.remaining + 4 := by
  unfold credit
  rw [hstamp]
  refine retryCredit_of_ne fun hk => h (hagrees (hs.agrees ?_))
  rw [hstamp, hk]

/-- **An access of the call itself** uses up credit. -/
theorem own_step (hs : Stamped m pc) (he : exec t c m pc = some (m', pc')) :
    Stamped m' pc' ∧ (pc ≠ .idle → credit m' pc' < credit m pc) := by
  cases pc with
  | idle =>
    refine ⟨?_, fun h => absurd rfl h⟩
    cases c <;> simp only [exec, Option.ite_none_right_eq_some, Option.some.injEq,
      Prod.mk.injEq, reduceCtorEq] at he
    case pop =>
      obtain ⟨-, rfl⟩ := he
      exact stamped_of_none rfl
    all_goals
      obtain ⟨-, -, rfl⟩ := he
      exact stamped_of_none rfl
  | push pc =>
    obtain ⟨rfl, rfl⟩ := Prod.mk.inj (Option.some.inj he)
    cases pc with
    | readCounter n =>
      refine ⟨⟨by simp [pushStep, Pc.stamp], fun _ => rfl⟩, fun _ => ?_⟩
      have hnext : credit m (.push (.readHead n m.pair.counter m.log.length)) = 3 :=
        retryCredit_self
      show credit m (.push (.readHead n m.pair.counter m.log.length)) < 4
      omega
    | readHead n counter k =>
      refine ⟨⟨hs.le, fun h => ?_⟩, fun _ => retryCredit_lt (by decide : 2 < 3)⟩
      have hc : m.pair.counter = counter := hs.agrees h
      show m.pair = ⟨counter, m.pair.ptr⟩
      rw [← hc]
    | writeNext n snapshot k =>
      exact ⟨⟨hs.le, hs.agrees⟩, fun _ => retryCredit_lt (by decide : 1 < 2)⟩
    | swap n snapshot k =>
      by_cases h : m.pair = snapshot
      · simp only [pushStep, h, compareAndSwap2_self]
        exact ⟨stamped_of_none rfl, fun _ => Nat.lt_of_lt_of_le Nat.zero_lt_one le_retryCredit⟩
      · simp only [pushStep, compareAndSwap2_of_ne h]
        refine ⟨stamped_of_none rfl, fun _ => ?_⟩
        rw [hs.credit_of_ne rfl id h]
        exact (by decide : 4 < 5)
  | pop pc =>
    obtain ⟨rfl, rfl⟩ := Prod.mk.inj (Option.some.inj he)
    cases pc with
    | readCounter =>
      refine ⟨⟨by simp [popStep, Pc.stamp], fun _ => rfl⟩, fun _ => ?_⟩
      have hnext : credit m (.pop (.readHead m.pair.counter m.log.length)) = 4 := retryCredit_self
      show credit m (.pop (.readHead m.pair.counter m.log.length)) < 5
      omega
    | readHead counter k =>
      cases hptr : m.pair.ptr with
      | none =>
        simp only [popStep, hptr]
        exact ⟨stamped_of_none rfl, fun _ =>
          Nat.lt_of_lt_of_le (by decide : 1 < 4) le_retryCredit⟩
      | some head =>
        simp only [popStep, hptr]
        refine ⟨⟨hs.le, fun h => ?_⟩, fun _ => retryCredit_lt (by decide : 3 < 4)⟩
        have hc : m.pair.counter = counter := hs.agrees h
        show m.pair = ⟨counter, some head⟩
        rw [← hc, ← hptr]
    | readNext counter head k =>
      exact ⟨⟨hs.le, hs.agrees⟩, fun _ => retryCredit_lt (by decide : 2 < 3)⟩
    | swap counter head next k =>
      by_cases h : m.pair = ⟨counter, some head⟩
      · simp only [popStep, h, compareAndSwap2_self]
        exact ⟨stamped_of_none rfl, fun _ =>
          Nat.lt_of_lt_of_le (by decide : 1 < 2) le_retryCredit⟩
      · simp only [popStep, compareAndSwap2_of_ne h]
        refine ⟨stamped_of_none rfl, fun _ => ?_⟩
        rw [hs.credit_of_ne rfl id h]
        exact (by decide : 5 < 6)
  | popRet r =>
    cases r <;>
    · obtain ⟨rfl, rfl⟩ := Prod.mk.inj (Option.some.inj he)
      exact ⟨stamped_of_none rfl, fun _ => Nat.zero_lt_one⟩

omit [DecidableEq ν] in
/-- An access of another thread leaves the pair as it is, or outdates what was read. -/
theorem Stamped.keep (hs : Stamped m pc) (h : m'.pair = m.pair ∧ m'.log = m.log ∨ Swaps m m') :
    Stamped m' pc := by
  rcases h with ⟨hpair, hlog⟩ | hswap
  · constructor
    · rw [hlog]
      exact hs.le
    · rw [hlog, hpair]
      exact hs.agrees
  · refine ⟨fun k hk => (hs.le k hk).trans (Nat.le_of_lt hswap), fun h => ?_⟩
    exact absurd (hs.le _ h) (Nat.not_le_of_lt hswap)

omit [DecidableEq ν] in
theorem credit_other (pc : Pc w ν) (h : m'.pair = m.pair ∧ m'.log = m.log ∨ Swaps m m') :
    credit m' pc ≤ credit m pc ∨ Swaps m m' ∧ credit m' pc ≤ credit m pc + 4 := by
  rcases h with ⟨-, hlog⟩ | hswap
  · refine .inl (Nat.le_of_eq ?_)
    unfold credit
    rw [hlog]
  · exact (retryCredit_other m.log.length m'.log.length).imp_right fun h => ⟨hswap, h.2⟩

end Steps

/-! ## Runs -/

section Runs

variable [DecidableEq ι] [DecidableEq ν] {s : Config ι (Lifo w ν) (Pc w ν)}
  {hist : List (Event ι (Config ι (Lifo w ν) (Pc w ν)))}

theorem stamped_of_run (run : Run Init lifoProgram.Step s hist) (t : ι) :
    Stamped s.mem (s.loc t) := by
  apply run.invariant (I := fun s => ∀ t, Stamped s.mem (s.loc t))
  · intro s h t
    obtain ⟨-, -, hidle⟩ := h
    rw [hidle t]
    exact stamped_of_none rfl
  · intro u s s' hs hstep t
    obtain ⟨c, he⟩ := hstep.exec
    by_cases htu : t = u
    · subst htu
      exact (own_step (t := t) (hs t) he).1
    · rw [hstep.loc_of_ne htu]
      exact (hs t).keep (pair_of_exec (t := u) he)

/-- **Lock-freedom**: a push or pop that has taken more than `5 + 4 * k` accesses
has been overtaken by more than `k` swaps of other threads that succeeded during
the call, in every interleaving of any number of threads. -/
theorem mpmcLifo_lock_free (run : Run Init lifoProgram.Step s hist) (t : ι) (k : Nat)
    (hn : AtLeast (fun s => s.loc t ≠ .idle) (OwnStep t (· ≠ .idle)) (5 + 4 * k + 1) hist) :
    AtLeast (fun s => s.loc t ≠ .idle) (OtherAchieves t Swaps) (k + 1) hist := by
  refine run.overtaken_of_many_steps credit (· ≠ .idle) 5 4 ?_ ?_ ?_ ?_ hn
  · intro s h hb
    obtain ⟨-, -, hidle⟩ := h
    exact hb (hidle t)
  · intro s s' _ hs hn _
    obtain ⟨c, he⟩ := hs.exec
    exact credit_of_call (t := t) (not_not.mp hn) he
  · intro s s' hr hs hb
    obtain ⟨hist, hr⟩ := hr
    obtain ⟨c, he⟩ := hs.exec
    exact .inl ((own_step (t := t) (stamped_of_run hr t) he).2 hb)
  · intro u s s' _ hs _
    obtain ⟨c, he⟩ := hs.exec
    exact credit_other _ (pair_of_exec (t := u) he)

/-- Thread 0 has prepared its swap when thread 1 pushes, and has to go round again. -/
theorem mpmcLifo_lock_free_overtaken :
    ∃ (s : Config Nat (Lifo 64 Nat) (Pc 64 Nat)) (hist : _),
      Run Init lifoProgram.Step s hist ∧ s.mem.log = [.push 2, .push 1] ∧
        AtLeast (fun s => s.loc 0 ≠ .idle) (OwnStep 0 (· ≠ .idle)) 6 hist ∧
        AtLeast (fun s => s.loc 0 ≠ .idle) (OtherAchieves 0 Swaps) 1 hist := by
  have hstart : Run Init (lifoProgram (ι := Nat) (ν := Nat) (w := 64)).Step initial [] :=
    .start init_initial
  obtain ⟨s, hist, run, hlog, hn⟩ := hstart.exists_of_history
    (q := fun s hist => s.mem.log = [.push 2, .push 1] ∧
      AtLeast (fun s => s.loc 0 ≠ .idle) (OwnStep 0 (· ≠ .idle)) 6 hist)
    (List.flatten [[(0, .push 1)], List.replicate 3 (0, .step), [(1, .push 2)],
      List.replicate 4 (1, .step), List.replicate 5 (0, .step)])
    (by decide +kernel)
  exact ⟨s, hist, run, hlog, hn, mpmcLifo_lock_free run 0 0 hn⟩

end Runs

end FibConcurrent.MpmcLifo
