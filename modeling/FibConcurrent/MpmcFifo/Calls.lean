import FibConcurrent.Data.Container
import FibConcurrent.MpmcFifo.Access

/-!
# MpmcFifo — calls and what is pushed and popped

A push appends the value of its node to `pushed` with its CAS on `tail`, a pop the value that it
will return to `popped` with its CAS on `head`, and a pop that returns null appends nothing: the
calls and returns are those of an object that only keeps this history. What a push is about to
append is the value of its node, which nobody else stores to.
-/

namespace FibConcurrent.MpmcFifo

open FibConcurrent.Machine FibConcurrent.Data

variable {ι ν α : Type*}

/-- A push is done once its node is the tail; until then its value is in the node. -/
def PushPc.client (m : Memory ι ν α) : PushPc ν → Client (Request α) (Response α)
  | .clearPrev newNode => .pending (.put (m.value newNode))
  | .readTail newNode => .pending (.put (m.value newNode))
  | .useTail newNode _ => .pending (.put (m.value newNode))
  | .checkTail newNode _ => .pending (.put (m.value newNode))
  | .writeNext newNode _ => .pending (.put (m.value newNode))
  | .swapTail newNode _ => .pending (.put (m.value newNode))
  | .linkPrev .. => .done .stored
  | .doneUsing => .done .stored

/-- A pop is done once it has taken the head, or has met a head without a link. -/
def PopPc.client : PopPc ι ν α → Client (Request α) (Response α)
  | .doneEmpty => .done .nothing
  | .doneHead _ ret => .done (.took ret)
  | .donePrev _ ret => .done (.took ret)
  | .free _ ret => .done (.took ret)
  | .reclaim _ ret => .done (.took ret)
  | _ => .pending .take

def Pc.client (m : Memory ι ν α) : Pc ι ν α → Client (Request α) (Response α)
  | .hazard _ => .idle
  | .push pc => pc.client m
  | .pop pc => pc.client
  | .popRet ret => .done (takeResponse ret)

/-- Calls to `mpmc_fifo_push` and `mpmc_fifo_trypop`, seen from outside. -/
def fifoInterface : Interface ι (Memory ι ν α) (Pc ι ν α) (Request α) (Response α) where
  busy
    | .hazard _ => false
    | _ => true
  op _ m
    | .push (.clearPrev newNode) => .put (m.value newNode)
    | _ => .take
  result _ _
    | .popRet ret => takeResponse ret
    | _ => .stored

section Step

variable [DecidableEq ι] [LinearOrder ν] {m m' : Memory ι ν α} {g : Ghost ι ν} {t : ι}
  {c : Choice ν α}

/-- A thread inside a call of the hazard pointers. -/
theorem exec_hazard {c : Choice ν α} {pc : HazardPointer.Pc ι ν} (hpc : pc ≠ .idle) :
    exec t c m (.hazard pc) = (HazardPointer.exec hazardCount t c.hazard m.hazard pc).map
      fun r => ({ m with hazard := r.1 }, .hazard r.2) := by
  cases pc with
  | idle => exact absurd rfl hpc
  | _ => rfl

theorem move_of_push (pc : PushPc ν) :
    (history α).Move (m.pushed, m.popped) (pc.client m)
      (fifoInterface.labels t m (.push pc) (pushStep t m pc).1
        ((pushStep t m pc).2.elim (.hazard .idle) .push))
      ((pushStep t m pc).1.pushed, (pushStep t m pc).1.popped)
      (Pc.client (pushStep t m pc).1 ((pushStep t m pc).2.elim (.hazard .idle) .push)) := by
  cases pc with
  | checkTail n tail =>
    by_cases htail : tail = m.tail
    · simp only [pushStep, if_pos htail]
      exact .stay _
    · simp only [pushStep, if_neg htail]
      exact .stay _
  | swapTail n tail =>
    by_cases hcas : m.tail = tail
    · simp only [pushStep, if_pos hcas]
      exact .done (HistoryLegal.put (m.value n) m.pushed m.popped)
    · simp only [pushStep, if_neg hcas]
      exact .stay _
  | doneUsing => exact .ret Response.stored
  | _ => exact .stay _

theorem move_of_pop {pc : PopPc ι ν α} {r : PopPc ι ν α ⊕ Option α}
    (he : popStep t m pc = some (m', r)) :
    (history α).Move (m.pushed, m.popped) pc.client
      (fifoInterface.labels t m (.pop pc) m' (Sum.elim .pop .popRet r)) (m'.pushed, m'.popped)
      (Pc.client m' (Sum.elim .pop .popRet r)) := by
  cases pc with
  | checkHead h =>
    simp only [popStep] at he
    split at he
    all_goals
      obtain ⟨rfl, rfl⟩ := Prod.mk.inj (Option.some.inj he)
      exact .stay _
  | readPrev h =>
    simp only [popStep] at he
    cases hprev : m.prev h with
    | some p =>
      rw [hprev] at he
      obtain ⟨rfl, rfl⟩ := Prod.mk.inj (Option.some.inj he)
      exact .stay _
    | none =>
      rw [hprev] at he
      obtain ⟨rfl, rfl⟩ := Prod.mk.inj (Option.some.inj he)
      exact .done (HistoryLegal.nothing (m.pushed, m.popped))
  | doneEmpty =>
    obtain ⟨rfl, rfl⟩ := Prod.mk.inj (Option.some.inj he)
    exact .stay _
  | checkPrev h p =>
    simp only [popStep] at he
    split at he
    all_goals
      obtain ⟨rfl, rfl⟩ := Prod.mk.inj (Option.some.inj he)
      exact .stay _
  | swapHead h p ret =>
    simp only [popStep] at he
    split at he
    · obtain ⟨rfl, rfl⟩ := Prod.mk.inj (Option.some.inj he)
      exact .done (HistoryLegal.take ret m.pushed m.popped)
    · obtain ⟨rfl, rfl⟩ := Prod.mk.inj (Option.some.inj he)
      exact .stay _
  | reclaim pc ret =>
    obtain ⟨⟨hz, pc'⟩, -, heq⟩ := Option.map_eq_some_iff.mp he
    obtain ⟨rfl, rfl⟩ := Prod.mk.inj heq
    dsimp only
    split <;> exact .stay _
  | _ =>
    obtain ⟨rfl, rfl⟩ := Prod.mk.inj (Option.some.inj he)
    exact .stay _

/-- **Every access is a move of a client of the history.** -/
theorem move_of_exec {pc pc' : Pc ι ν α} (he : exec t c m pc = some (m', pc')) :
    (history α).Move (m.pushed, m.popped) (pc.client m) (fifoInterface.labels t m pc m' pc')
      (m'.pushed, m'.popped) (pc'.client m') := by
  cases pc with
  | hazard hpc =>
    by_cases hidle : hpc = .idle
    · subst hidle
      cases c <;> simp only [exec, Option.ite_none_right_eq_some, Option.some.injEq,
        Prod.mk.injEq, reduceCtorEq] at he
      case push n v =>
        obtain ⟨-, rfl, rfl⟩ := he
        exact .call _
      case trypop =>
        obtain ⟨rfl, rfl⟩ := he
        exact .call _
      case scan =>
        obtain ⟨rfl, rfl⟩ := he
        exact .stay _
    · rw [exec_hazard hidle] at he
      obtain ⟨⟨hz, hpc'⟩, -, heq⟩ := Option.map_eq_some_iff.mp he
      obtain ⟨rfl, rfl⟩ := Prod.mk.inj heq
      exact .stay _
  | push pc =>
    obtain ⟨rfl, rfl⟩ := Prod.mk.inj (Option.some.inj he)
    exact move_of_push pc
  | pop pc =>
    obtain ⟨⟨m₁, r⟩, hstep, heq⟩ := Option.map_eq_some_iff.mp he
    obtain ⟨rfl, rfl⟩ := Prod.mk.inj heq
    exact move_of_pop hstep
  | popRet ret =>
    obtain ⟨rfl, rfl⟩ := Prod.mk.inj (Option.some.inj he)
    exact .ret (takeResponse ret)

/-- Values are stored to the nodes of clients only. -/
theorem value_of_exec {pc pc' : Pc ι ν α} (he : exec t c m pc = some (m', pc')) {x : ν}
    (hlive : Live m x) : m'.value x = m.value x := by
  cases pc with
  | hazard hpc =>
    by_cases hidle : hpc = .idle
    · subst hidle
      cases c <;> simp only [exec, Option.ite_none_right_eq_some, Option.some.injEq,
        Prod.mk.injEq, reduceCtorEq] at he
      case push n v =>
        obtain ⟨hn, rfl, -⟩ := he
        exact Function.update_of_ne (hlive.ne hn) ..
      all_goals rw [← he.1]
    · rw [exec_hazard hidle] at he
      obtain ⟨r, -, heq⟩ := Option.map_eq_some_iff.mp he
      rw [← (Prod.mk.inj heq).1]
  | push pc =>
    obtain ⟨rfl, -⟩ := Prod.mk.inj (Option.some.inj he)
    cases pc <;> simp only [pushStep] <;> (try split) <;> rfl
  | pop pc =>
    obtain ⟨⟨m₁, r⟩, hstep, heq⟩ := Option.map_eq_some_iff.mp he
    obtain ⟨rfl, -⟩ := Prod.mk.inj heq
    cases pc with
    | reclaim pc ret =>
      obtain ⟨r, -, heq⟩ := Option.map_eq_some_iff.mp hstep
      rw [← (Prod.mk.inj heq).1]
    | _ =>
      simp only [popStep] at hstep
      try split at hstep
      all_goals
        obtain ⟨rfl, -⟩ := Prod.mk.inj (Option.some.inj hstep)
        rfl
  | popRet ret =>
    obtain ⟨rfl, -⟩ := Prod.mk.inj (Option.some.inj he)
    rfl

omit [DecidableEq ι] in
/-- The node of a push in progress is live, so what it is about to put stays the same. -/
theorem client_of_value {u : ι} {pc : Pc ι ν α} (hI : Inv m g) (hT : ThreadFacts u m g pc)
    (hvalue : ∀ x, Live m x → m'.value x = m.value x) : pc.client m' = pc.client m := by
  have hpending : ∀ n, g.pushing n = some u →
      (.pending (.put (m'.value n)) : Client (Request α) (Response α)) =
        .pending (.put (m.value n)) := by
    intro n hn
    rw [hvalue n (hI.pushing n u hn).1]
  have hp := hT.pc
  cases pc with
  | push pc =>
    cases pc with
    | clearPrev n => exact hpending n hp
    | readTail n => exact hpending n hp.1
    | useTail n tail => exact hpending n hp.1
    | checkTail n tail => exact hpending n hp.1.1
    | writeNext n tail => exact hpending n hp.1.1
    | swapTail n tail => exact hpending n hp.1.1
    | linkPrev n tail => rfl
    | doneUsing => rfl
  | _ => rfl

end Step

end FibConcurrent.MpmcFifo
