import FibConcurrent.Machine.Progress
import FibConcurrent.WorkQueue.Correct
import Mathlib.Data.Finset.Card

/-!
# WorkQueue — what a worker waits for

`work_queue_get_work` goes round its loop as long as the fifo gives it nothing and its counters say
that it may not leave. Either a push has counted itself in `in_count` and not linked its item, or
one counts itself after the worker has looked into the fifo. A round is paid for by such an obstacle
(`Obstacle`), so that a call that meets none is over after eight accesses, with an item
or with `WORK_QUEUE_EMPTY`.

What makes this true is a count over all threads: pushes that are counted and not in the fifo
are between their increment and their exchange (`Counted`).
-/

namespace FibConcurrent.WorkQueue

open FibConcurrent.Machine FibConcurrent.MpscFifo FibConcurrent.Data

variable {ι ν α : Type*}

/-- The thread is in `work_queue_get_work`. -/
def WorkPc.getting : WorkPc ν α → Bool
  | .trypop _ => true
  | .readOut => true
  | .readIn _ => true
  | .readOldOut => true
  | .zeroOut _ => true
  | .subIn _ => true
  | .readOutInc _ => true
  | .writeOutInc .. => true
  | .moreRet _ => true
  | .emptyRet => true
  | _ => false

/-- What is in the way of worker `t`: it reads a null link while another thread has counted its
push and not linked the item, or another thread counts its push. -/
def Obstacle (t : ι) (e : Event ι (Config ι (Queue ν α) (Thread ν α))) : Prop :=
  (e.tid = t ∧ (∃ head, (e.pre.loc t).pc = .trypop (.readNext head) ∧
      e.pre.mem.fifo.next head = none) ∧
    ∃ u, u ≠ t ∧ (e.pre.loc u).pc.pushing ≠ none) ∨
  (e.tid ≠ t ∧ ∃ item, (e.pre.loc e.tid).pc = .addIn item)

/-! ## Pushes that are counted and not in the fifo -/

/-- The push is between its increment and its exchange. -/
def WorkPc.counting : WorkPc ν α → Bool
  | .push _ (.clearNext _) => true
  | .push _ (.exchangeTail _) => true
  | _ => false

/-- The threads between increment and exchange make up the difference. -/
def Counted (s : Config ι (Queue ν α) (Thread ν α)) : Prop :=
  ∃ F : Finset ι, (∀ u, u ∈ F ↔ (s.loc u).pc.counting = true) ∧
    s.mem.counted = s.mem.fifo.pushed.length + F.card

section Counted

variable [DecidableEq ι] [DecidableEq ν] {t : ι} {c : WorkChoice ν α} {m m' : Queue ν α}
  {l l' : Thread ν α} {s s' : Config ι (Queue ν α) (Thread ν α)}

omit [DecidableEq ι] in
/-- A step counts a push, or puts one into the fifo, or does neither. -/
theorem counting_of_exec (he : workExec t c m l = some (m', l')) :
    (l.pc.counting = false ∧ l'.pc.counting = true ∧ m'.counted = m.counted + 1 ∧
      m'.fifo.pushed = m.fifo.pushed) ∨
    (l.pc.counting = true ∧ l'.pc.counting = false ∧ m'.counted = m.counted ∧
      m'.fifo.pushed.length = m.fifo.pushed.length + 1) ∨
    (l'.pc.counting = l.pc.counting ∧ m'.counted = m.counted ∧
      m'.fifo.pushed = m.fifo.pushed) := by
  obtain ⟨working, pc⟩ := l
  cases pc with
  | idle =>
    cases c with
    | push x d =>
      obtain ⟨-, he⟩ := Option.ite_none_right_eq_some.mp he
      obtain ⟨rfl, rfl⟩ := Prod.mk.inj (Option.some.inj he)
      exact .inr (.inr ⟨rfl, rfl, rfl⟩)
    | getWork =>
      obtain ⟨-, he⟩ := Option.ite_none_right_eq_some.mp he
      obtain ⟨rfl, rfl⟩ := Prod.mk.inj (Option.some.inj he)
      exact .inr (.inr ⟨rfl, rfl, rfl⟩)
    | write x d v =>
      obtain ⟨-, he⟩ := Option.ite_none_right_eq_some.mp he
      obtain ⟨rfl, rfl⟩ := Prod.mk.inj (Option.some.inj he)
      exact .inr (.inr ⟨rfl, rfl, rfl⟩)
    | step => cases he
  | addIn x =>
    obtain ⟨rfl, rfl⟩ := Prod.mk.inj (Option.some.inj he)
    exact .inl ⟨rfl, rfl, rfl, rfl⟩
  | push start pc =>
    obtain ⟨rfl, rfl⟩ := Prod.mk.inj (Option.some.inj he)
    cases pc with
    | clearNext x => exact .inr (.inr ⟨rfl, rfl, rfl⟩)
    | exchangeTail x => exact .inr (.inl ⟨rfl, rfl, rfl, List.length_append⟩)
    | linkNext y x => exact .inr (.inr ⟨rfl, rfl, rfl⟩)
  | trypop pc =>
    obtain ⟨rfl, rfl⟩ := Prod.mk.inj (Option.some.inj he)
    cases pc with
    | readNext h =>
      dsimp only [popStep]
      cases m.fifo.next h <;> exact .inr (.inr ⟨rfl, rfl, rfl⟩)
    | _ => exact .inr (.inr ⟨rfl, rfl, rfl⟩)
  | readIn out =>
    obtain ⟨rfl, rfl⟩ := Prod.mk.inj (Option.some.inj he)
    refine .inr (.inr ⟨?_, rfl, rfl⟩)
    dsimp only
    split <;> rfl
  | subIn old =>
    obtain ⟨rfl, rfl⟩ := Prod.mk.inj (Option.some.inj he)
    refine .inr (.inr ⟨?_, rfl, rfl⟩)
    dsimp only
    split <;> rfl
  | _ =>
    obtain ⟨rfl, rfl⟩ := Prod.mk.inj (Option.some.inj he)
    exact .inr (.inr ⟨rfl, rfl, rfl⟩)

theorem counted_step (h : Counted s) (hs : workProgram.Step t s s') : Counted s' := by
  obtain ⟨F, hF, hcard⟩ := h
  obtain ⟨c, he⟩ : ∃ c, workExec t c s.mem (s.loc t) = some (s'.mem, s'.loc t) := hs.exec
  have hother : ∀ u, u ≠ t → s'.loc u = s.loc u := fun u hu => hs.loc_of_ne hu
  rcases counting_of_exec he with ⟨hout, hin, hcounted, hpushed⟩ |
    ⟨hin, hout, hcounted, hpushed⟩ | ⟨hsame, hcounted, hpushed⟩
  · have hnot : t ∉ F := by
      rw [hF, hout]
      exact Bool.false_ne_true
    refine ⟨insert t F, fun u => ?_, ?_⟩
    · rw [Finset.mem_insert]
      by_cases hu : u = t
      · subst hu
        simp [hin]
      · simp [hu, hF, hother u hu]
    · rw [Finset.card_insert_of_notMem hnot, hcounted, hpushed, hcard, Nat.add_assoc]
  · have hmem : t ∈ F := (hF t).mpr hin
    refine ⟨F.erase t, fun u => ?_, ?_⟩
    · rw [Finset.mem_erase]
      by_cases hu : u = t
      · subst hu
        simp [hout]
      · simp [hu, hF, hother u hu]
    · have hcard' := Finset.card_erase_add_one hmem
      rw [hcounted, hpushed, hcard]
      omega
  · refine ⟨F, fun u => ?_, ?_⟩
    · by_cases hu : u = t
      · subst hu
        rw [hF, hsame]
      · rw [hF, hother u hu]
    · rw [hcounted, hpushed, hcard]

theorem counted_of_run {hist : List (Event ι (Config ι (Queue ν α) (Thread ν α)))}
    (run : Run WorkInit workProgram.Step s hist) : Counted s := by
  refine run.invariant ?_ fun t s s' h hs => counted_step h hs
  rintro s ⟨-, -, hpushed, -, -, -, hcounted, -, hidle⟩
  refine ⟨∅, fun u => ?_, ?_⟩
  · rw [hidle]
    simp [WorkPc.counting]
  · rw [hcounted, hpushed]
    rfl

end Counted

/-! ## Why a null link is an obstacle -/

section Agree

variable {t : ι} {s : Config ι (Queue ν α) (Thread ν α)} {head : ν}

/-- **Without a push in the middle a null link means that all is delivered**, and the counters
agree. -/
theorem counts_agree_of_null (hA : workAssertion.Holds s) (hC : Counted s)
    (hpc : (s.loc t).pc = .trypop (.readNext head)) (hnull : s.mem.fifo.next head = none)
    (hno : ∀ u, u ≠ t → (s.loc u).pc.pushing = none) : s.mem.outCount = s.mem.inCount := by
  obtain ⟨g, hI, hL⟩ := hA
  obtain ⟨-, hout, hdelivered, hhead⟩ := (hL t).facts hpc
  have hpushing : ∀ u, (s.loc u).pc.pushing = none := by
    intro u
    by_cases hu : u = t
    · rw [hu, hpc]
      rfl
    · exact hno u hu
  have hcounted : s.mem.counted = s.mem.fifo.pushed.length := by
    obtain ⟨F, hF, hcard⟩ := hC
    have hempty : F = ∅ := by
      refine Finset.eq_empty_of_forall_notMem fun u hu => ?_
      have hcounting := (hF u).mp hu
      have hnone := hpushing u
      cases hpcu : (s.loc u).pc with
      | push start pc =>
        rw [hpcu] at hnone
        cases hnone
      | _ =>
        rw [hpcu] at hcounting
        cases hcounting
    rw [hcard, hempty]
    rfl
  have hpushed : s.mem.fifo.pushed = s.mem.delivered := by
    obtain ⟨rest, hrest⟩ := hI.fifo.nodes_eq
    have hsegs := hI.fifo.segs
    rw [hrest] at hsegs
    rcases hsegs.head_of_null (hhead ▸ hnull) with hnil | ⟨u, b, -, hpend, -⟩
    · rw [hI.fifo.values, hrest, hnil, hdelivered]
      exact List.append_nil _
    · -- the link would be owed by somebody
      have howes := (hL u).owes _ _ hpend
      rw [hpushing u] at howes
      cases howes
  have hin := hI.inCount
  rw [hcounted, hpushed] at hin
  omega

end Agree

/-! ## What a call can still take -/

/-- The accesses that are left if the call does not go round again. -/
def WorkPc.rest : WorkPc ν α → Nat
  | .trypop .readHead => 8
  | .trypop (.readNext _) => 7
  | .trypop (.writeHead ..) => 6
  | .trypop (.readData ..) => 5
  | .trypop (.writeData ..) => 4
  | .readOutInc _ => 3
  | .writeOutInc .. => 2
  | .moreRet _ => 1
  | .readOut => 6
  | .readIn _ => 5
  | .readOldOut => 4
  | .zeroOut _ => 3
  | .subIn _ => 2
  | .emptyRet => 1
  | _ => 0

/-- The number of items that the worker will compare with `in_count`, once it has found nothing. -/
def WorkPc.compares (outCount : Int) : WorkPc ν α → Option Int
  | .readOut => some outCount
  | .readIn out => some out
  | .readOldOut => some outCount
  | .zeroOut oldOut => some oldOut
  | .subIn oldOut => some oldOut
  | _ => none

/-- The credit of a call: another round if the counters do not agree any more. -/
def credit (m : Queue ν α) (pc : WorkPc ν α) : Nat :=
  retryCredit 7 pc.rest (pc.compares m.outCount) m.inCount

section Steps

variable [DecidableEq ν] {t : ι} {c : WorkChoice ν α} {m m' : Queue ν α} {g : WorkGhost ι ν α}
  {l l' : Thread ν α}

/-- **An access of the call itself** costs one; only a null link can put it in debt. -/
theorem credit_own (hL : WorkFacts t m g l) (hbusy : l.pc.getting = true)
    (he : workExec t c m l = some (m', l')) :
    credit m' l'.pc < credit m l.pc ∨
      (∃ head, l.pc = .trypop (.readNext head) ∧ m.fifo.next head = none) ∧
        m.outCount ≠ m.inCount ∧ credit m' l'.pc < credit m l.pc + 7 := by
  obtain ⟨working, pc⟩ := l
  have hfacts := hL.call
  cases pc with
  | idle => cases hbusy
  | addIn x => cases hbusy
  | push start pc => cases hbusy
  | pushRet start => cases hbusy
  | trypop pc =>
    obtain ⟨rfl, rfl⟩ := Prod.mk.inj (Option.some.inj he)
    cases pc with
    | readNext h =>
      cases hnext : m.fifo.next h with
      | some x =>
        simp only [popStep, hnext]
        exact .inl (Nat.lt_succ_self _)
      | none =>
        simp only [popStep, hnext]
        by_cases hagree : m.outCount = m.inCount
        · left
          show retryCredit 7 6 (some m.outCount) m.inCount < 7
          rw [hagree, retryCredit_self]
          decide
        · right
          refine ⟨⟨h, rfl, hnext⟩, hagree, ?_⟩
          show retryCredit 7 6 (some m.outCount) m.inCount < 7 + 7
          rw [retryCredit_of_ne (Ne.symm hagree)]
          decide
    | _ => exact .inl (Nat.lt_succ_self _)
  | readOut =>
    obtain ⟨rfl, rfl⟩ := Prod.mk.inj (Option.some.inj he)
    exact .inl (retryCredit_lt (Nat.lt_succ_self _))
  | readIn out =>
    obtain ⟨rfl, rfl⟩ := Prod.mk.inj (Option.some.inj he)
    obtain ⟨-, -, hout⟩ := hfacts
    subst hout
    left
    by_cases hagree : m.outCount = m.inCount
    · rw [if_pos hagree]
      exact retryCredit_lt (Nat.lt_succ_self _)
    · rw [if_neg hagree]
      show 8 < retryCredit 7 5 (some m.outCount) m.inCount
      rw [retryCredit_of_ne (Ne.symm hagree)]
      decide
  | readOldOut =>
    obtain ⟨rfl, rfl⟩ := Prod.mk.inj (Option.some.inj he)
    exact .inl (retryCredit_lt (Nat.lt_succ_self _))
  | zeroOut old =>
    obtain ⟨rfl, rfl⟩ := Prod.mk.inj (Option.some.inj he)
    exact .inl (retryCredit_lt (Nat.lt_succ_self _))
  | subIn old =>
    obtain ⟨rfl, rfl⟩ := Prod.mk.inj (Option.some.inj he)
    left
    by_cases hzero : m.inCount - old = 0
    · rw [if_pos hzero]
      exact Nat.lt_of_lt_of_le (Nat.lt_succ_self 1) le_retryCredit
    · rw [if_neg hzero]
      show 8 < retryCredit 7 2 (some old) m.inCount
      rw [retryCredit_of_ne (by omega)]
      decide
  | readOutInc x =>
    obtain ⟨rfl, rfl⟩ := Prod.mk.inj (Option.some.inj he)
    exact .inl (Nat.lt_succ_self _)
  | writeOutInc x out =>
    obtain ⟨rfl, rfl⟩ := Prod.mk.inj (Option.some.inj he)
    exact .inl (Nat.lt_succ_self _)
  | moreRet x =>
    obtain ⟨rfl, rfl⟩ := Prod.mk.inj (Option.some.inj he)
    exact .inl (Nat.lt_succ_self _)
  | emptyRet =>
    obtain ⟨rfl, rfl⟩ := Prod.mk.inj (Option.some.inj he)
    exact .inl (Nat.lt_succ_self _)

/-- A thread that is not the worker leaves `out_count` alone, and `in_count` unless it counts a
push. -/
theorem counters_of_exec (hL : WorkFacts t m g l) (hno : l.working ≠ true)
    (he : workExec t c m l = some (m', l')) :
    m'.outCount = m.outCount ∧ (m'.inCount = m.inCount ∨ ∃ item, l.pc = .addIn item) := by
  obtain ⟨working, pc⟩ := l
  have hfacts := hL.call
  cases pc with
  | idle =>
    cases c with
    | push x d =>
      obtain ⟨-, he⟩ := Option.ite_none_right_eq_some.mp he
      obtain ⟨rfl, -⟩ := Prod.mk.inj (Option.some.inj he)
      exact ⟨rfl, .inl rfl⟩
    | getWork =>
      obtain ⟨-, he⟩ := Option.ite_none_right_eq_some.mp he
      obtain ⟨rfl, -⟩ := Prod.mk.inj (Option.some.inj he)
      exact ⟨rfl, .inl rfl⟩
    | write x d v =>
      obtain ⟨-, he⟩ := Option.ite_none_right_eq_some.mp he
      obtain ⟨rfl, -⟩ := Prod.mk.inj (Option.some.inj he)
      exact ⟨rfl, .inl rfl⟩
    | step => cases he
  | addIn x =>
    obtain ⟨rfl, -⟩ := Prod.mk.inj (Option.some.inj he)
    exact ⟨rfl, .inr ⟨x, rfl⟩⟩
  | push start pc =>
    obtain ⟨rfl, -⟩ := Prod.mk.inj (Option.some.inj he)
    exact ⟨rfl, .inl rfl⟩
  | pushRet start =>
    obtain ⟨rfl, -⟩ := Prod.mk.inj (Option.some.inj he)
    exact ⟨rfl, .inl rfl⟩
  | emptyRet =>
    obtain ⟨rfl, -⟩ := Prod.mk.inj (Option.some.inj he)
    exact ⟨rfl, .inl rfl⟩
  | _ => exact absurd hfacts.1 hno

/-- A call begins with eight accesses. -/
theorem credit_of_call (hidle : l.pc.getting ≠ true) (hbusy : l'.pc.getting = true)
    (he : workExec t c m l = some (m', l')) : credit m' l'.pc ≤ 8 := by
  obtain ⟨working, pc⟩ := l
  cases pc with
  | idle =>
    cases c with
    | getWork =>
      obtain ⟨-, he⟩ := Option.ite_none_right_eq_some.mp he
      obtain ⟨rfl, rfl⟩ := Prod.mk.inj (Option.some.inj he)
      exact Nat.le_refl 8
    | step => cases he
    | _ =>
      obtain ⟨-, he⟩ := Option.ite_none_right_eq_some.mp he
      obtain ⟨-, rfl⟩ := Prod.mk.inj (Option.some.inj he)
      cases hbusy
  | addIn x =>
    obtain ⟨-, rfl⟩ := Prod.mk.inj (Option.some.inj he)
    cases hbusy
  | push start pc =>
    obtain ⟨-, rfl⟩ := Prod.mk.inj (Option.some.inj he)
    cases pc <;> cases hbusy
  | pushRet start =>
    obtain ⟨-, rfl⟩ := Prod.mk.inj (Option.some.inj he)
    cases hbusy
  | _ => exact absurd rfl hidle

omit [DecidableEq ν] in
/-- Until it knows that there is nothing left, a thread that gets work is the worker. -/
theorem working_of_getting (hL : WorkFacts t m g l) (hbusy : l.pc.getting = true)
    (hret : l.pc ≠ .emptyRet) : l.working = true := by
  obtain ⟨working, pc⟩ := l
  have hfacts := hL.call
  cases pc with
  | idle => cases hbusy
  | addIn x => cases hbusy
  | push start pc => cases hbusy
  | pushRet start => cases hbusy
  | emptyRet => exact absurd rfl hret
  | _ => exact hfacts.1

end Steps

/-! ## Runs -/

section Runs

variable [DecidableEq ι] [DecidableEq ν] {s s' : Config ι (Queue ν α) (Thread ν α)}
  {hist : List (Event ι (Config ι (Queue ν α) (Thread ν α)))} {t u : ι}

/-- **A step of another thread** costs the call nothing, unless that counts a push. -/
theorem credit_other (hA : workAssertion.Holds s) (hs : workProgram.Step u s s') (hu : u ≠ t)
    (hbusy : (s.loc t).pc.getting = true) :
    credit s'.mem (s.loc t).pc ≤ credit s.mem (s.loc t).pc ∨
      Obstacle t ⟨u, s, s'⟩ ∧
        credit s'.mem (s.loc t).pc ≤ credit s.mem (s.loc t).pc + 7 := by
  by_cases hret : (s.loc t).pc = .emptyRet
  · rw [hret]
    exact .inl (Nat.le_refl _)
  obtain ⟨g, -, hL⟩ := hA
  have hno : (s.loc u).working ≠ true := by
    intro hu'
    have ht := (hL t).worker.mp (.inl (working_of_getting (hL t) hbusy hret))
    exact hu (Option.some.inj (((hL u).worker.mp (.inl hu')).symm.trans ht))
  obtain ⟨c, he⟩ : ∃ c, workExec u c s.mem (s.loc u) = some (s'.mem, s'.loc u) := hs.exec
  obtain ⟨hout, hin⟩ := counters_of_exec (hL u) hno he
  unfold credit
  rw [hout]
  rcases hin with hin | hitem
  · exact .inl (Nat.le_of_eq (by rw [hin]))
  · rcases retryCredit_other s.mem.inCount s'.mem.inCount with hle | ⟨-, hle⟩
    · exact .inl hle
    · exact .inr ⟨.inr ⟨hu, hitem⟩, hle⟩

/-- **A worker waits for pushes only**: a call of `work_queue_get_work` that has taken more than
`8 + 7 * k` accesses has met more than `k` obstacles; one that meets none is over after eight. -/
theorem getWork_waits_for_pushes (run : Run WorkInit workProgram.Step s hist) (t : ι) (k : Nat)
    (hn : AtLeast (fun s => (s.loc t).pc.getting = true) (OwnStep t fun _ => True)
      (8 + 7 * k + 1) hist) :
    AtLeast (fun s => (s.loc t).pc.getting = true) (Obstacle t) (k + 1) hist := by
  obtain ⟨k', hk', hle, -⟩ : ∃ k', AtLeast (fun s => (s.loc t).pc.getting = true) (Obstacle t)
      k' hist ∧ 8 + 7 * k + 1 ≤ 8 + 7 * k' ∧ _ := by
    refine run.atLeast_of_payment (fun s => credit s.mem (s.loc t).pc) 8 7 ?_ ?_ ?_ hn
    · rintro s ⟨-, -, -, -, -, -, -, -, hidle⟩ hbusy
      rw [hidle] at hbusy
      cases hbusy
    · intro u s s' _ hs hidle hbusy
      by_cases hut : u = t
      · subst hut
        obtain ⟨c, he⟩ : ∃ c, workExec u c s.mem (s.loc u) = some (s'.mem, s'.loc u) := hs.exec
        exact credit_of_call hidle hbusy he
      · rw [hs.loc_of_ne (Ne.symm hut)] at hbusy
        exact absurd hbusy hidle
    · rintro u s s' ⟨hist, hr⟩ hs hbusy
      have hA := workQueue_invariant hr
      by_cases hut : u = t
      · subst hut
        have hpay : credit s'.mem (s'.loc u).pc < credit s.mem (s.loc u).pc ∨
            Obstacle u ⟨u, s, s'⟩ ∧
              credit s'.mem (s'.loc u).pc < credit s.mem (s.loc u).pc + 7 := by
          obtain ⟨c, he⟩ : ∃ c, workExec u c s.mem (s.loc u) = some (s'.mem, s'.loc u) := hs.exec
          obtain ⟨g, hI, hL⟩ := id hA
          rcases credit_own (hL u) hbusy he with hlt | ⟨⟨head, hpc, hnull⟩, hne, hlt⟩
          · exact .inl hlt
          · refine .inr ⟨.inl ⟨rfl, ⟨head, hpc, hnull⟩, ?_⟩, hlt⟩
            by_contra hno
            push Not at hno
            exact hne (counts_agree_of_null hA (counted_of_run hr) hpc hnull hno)
        exact ⟨hpay.imp Nat.le_of_lt (And.imp_right Nat.le_of_lt), fun _ => hpay⟩
      · rw [hs.loc_of_ne (Ne.symm hut)]
        exact ⟨credit_other hA hs hut hbusy, fun h => absurd h.1 hut⟩
  have hlt : k < k' := by omega
  exact hk'.of_le hlt

end Runs

/-- Thread 2 has counted its push and not linked its item; thread 1, the worker, goes round. -/
theorem getWork_waits_for_pushes_midway :
    ∃ (s : Config Nat (Queue Nat Nat) (Thread Nat Nat)) (hist : _),
      Run WorkInit workProgram.Step s hist ∧ s.mem.delivered = [7] ∧
        AtLeast (fun s => (s.loc 1).pc.getting = true) (OwnStep 1 fun _ => True) 9 hist ∧
        AtLeast (fun s => (s.loc 1).pc.getting = true) (Obstacle 1) 1 hist := by
  have hstart : Run WorkInit (workProgram (ι := Nat) (ν := Nat) (α := Nat)).Step
      (workInitial 0 0) [] := .start (workInit_initial 0 0)
  obtain ⟨s, hist, run, hdelivered, hn⟩ := hstart.exists_of_history
    (q := fun s hist => s.mem.delivered = [7] ∧
      AtLeast (fun s => (s.loc 1).pc.getting = true) (OwnStep 1 fun _ => True) 9 hist)
    (List.flatten [[(1, .push 1 7)], List.replicate 5 (1, .step), [(2, .push 2 8)],
      List.replicate 2 (2, .step), [(1, .getWork)], List.replicate 8 (1, .step), [(1, .getWork)],
      List.replicate 9 (1, .step)])
    (by decide +kernel)
  exact ⟨s, hist, run, hdelivered, hn, getWork_waits_for_pushes run 1 0 hn⟩

end FibConcurrent.WorkQueue
