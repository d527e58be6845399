import FibConcurrent.Machine.Linearizable
import FibConcurrent.MpmcStack.Invariant

/-!
# MpmcStack — calls and what has been pushed since the last flush

A push that succeeds puts its node on top of `since` and counts in `pushes` when it moves the head,
and a flush takes all of `since` when it moves the head, long before `mpmc_stack_reverse` is done
with the chain: the calls and returns are those of an object that only keeps these histories, and
the nodes that a flush returns are those of `since` in the order that was asked for.
-/

namespace FibConcurrent.MpmcStack

open FibConcurrent.Machine FibConcurrent.Data

variable {ι ν : Type*} {xchg : Bool}

/-- What a client asks for: a push with or without a timeout, or a flush, newest or oldest node
first. -/
inductive Request (ν : Type*) where
  | push (n : ν) (timeout : Bool)
  | flush (order : Order)
deriving DecidableEq

/-- What the client is answered: `MPMC_RETRY`, or success, and then the nodes of the
returned chain. -/
inductive Response (ν : Type*) where
  | retry
  | pushed
  | flushed (nodes : List ν)
deriving DecidableEq

/-- What an operation does to `since` and `pushes`. A push without a timeout does not fail. -/
inductive HistoryLegal [DecidableEq ν] :
    List ν × (ν → Nat) → Request ν → Response ν → List ν × (ν → Nat) → Prop
  | push (n : ν) (timeout : Bool) (since : List ν) (pushes : ν → Nat) :
      HistoryLegal (since, pushes) (.push n timeout) .pushed
        (n :: since, Function.update pushes n (pushes n + 1))
  | pushRetry (n : ν) (x : List ν × (ν → Nat)) : HistoryLegal x (.push n true) .retry x
  | flush (order : Order) (since : List ν) (pushes : ν → Nat) :
      HistoryLegal (since, pushes) (.flush order) (.flushed (order.arrange since)) ([], pushes)
  | flushRetry (order : Order) (x : List ν × (ν → Nat)) : HistoryLegal x (.flush order) .retry x

/-- Nothing has been pushed to begin with. -/
def stackHistory (ν : Type*) [DecidableEq ν] :
    Object (List ν × (ν → Nat)) (Request ν) (Response ν) where
  start x := x = ([], fun _ => 0)
  legal := HistoryLegal

def PushPc.tries : PushPc ν → Option Nat
  | .readHead _ tries => tries
  | .writeNext _ _ tries => tries
  | .swapHead _ _ tries => tries

def pushRequest (pc : PushPc ν) : Request ν := .push pc.node pc.tries.isSome

def pushResponse (success : Bool) : Response ν := if success then .pushed else .retry

/-- The flush that is being made; only a fifo flush reverses its chain. -/
def FlushPc.order : FlushPc ν → Order
  | .exchange order => order
  | .readHead order _ => order
  | .swapHead order _ _ => order
  | .readNext .. => .fifo
  | .writeNext .. => .fifo

def FlushResult.order : FlushResult ν → Order
  | .retry order => order
  | .success order _ _ => order

def flushResponse : FlushResult ν → Response ν
  | .retry _ => .retry
  | .success order _ batch => .flushed (order.arrange batch)

/-- Calls to the pushes and flushes, seen from outside. A flush without attempts is over with the
step in which it is called. -/
def stackInterface : Interface ι (Memory ν) (Pc ν) (Request ν) (Response ν) where
  busy
    | .idle => false
    | _ => true
  op _ _
    | .push pc => pushRequest pc
    | .flush pc => .flush pc.order
    | .flushRet result => .flush result.order
    | _ => .flush .lifo
  result _ _
    | .pushRet _ success => pushResponse success
    | .flushRet result => flushResponse result
    | _ => .retry

/-- A flush is done when it has got the chain. -/
def Pc.client : Pc ν → Client (Request ν) (Response ν)
  | .idle => .idle
  | .push pc => .pending (pushRequest pc)
  | .pushRet _ success => .done (pushResponse success)
  | .flush (.exchange order) => .pending (.flush order)
  | .flush (.readHead order _) => .pending (.flush order)
  | .flush (.swapHead order _ _) => .pending (.flush order)
  | .flush (.readNext _ _ batch) => .done (.flushed batch.reverse)
  | .flush (.writeNext _ _ _ batch) => .done (.flushed batch.reverse)
  | .flushRet result => .done (flushResponse result)

section Moves

variable [DecidableEq ν] {t : ι} {c : Choice ν} {m m' : Memory ν} {pc pc' : Pc ν}

omit [DecidableEq ν] in
theorem client_reverse (head fifo : Option ν) (batch : List ν) :
    ((reverse head fifo batch).elim Pc.flush Pc.flushRet).client =
      .done (.flushed batch.reverse) := by
  cases head <;> rfl

omit [DecidableEq ν] in
theorem client_flushed (order : Order) (head : Option ν) (batch : List ν) :
    ((flushed order head batch).elim Pc.flush Pc.flushRet).client =
      .done (.flushed (order.arrange batch)) := by
  cases order with
  | lifo => rfl
  | fifo => exact client_reverse ..

omit [DecidableEq ν] in
theorem labels_flush (t : ι) (m m' : Memory ν) (pc : FlushPc ν) (r : FlushPc ν ⊕ FlushResult ν) :
    stackInterface.labels t m (.flush pc) m' (r.elim Pc.flush Pc.flushRet) = [] := by
  cases r <;> rfl

omit [DecidableEq ν] in
/-- Only a push with a timeout gives up. -/
theorem isSome_of_retries {tries : Option Nat} (h : retries tries = none) :
    tries.isSome = true := by
  cases tries with
  | none => cases h
  | some k => rfl

omit [DecidableEq ν] in
theorem isSome_retries {tries tries' : Option Nat} (h : retries tries = some tries') :
    tries'.isSome = tries.isSome := by
  cases tries with
  | none =>
    cases h
    rfl
  | some k =>
    by_cases hk : decrement k > 0
    · simp only [retries, if_pos hk, Option.some.injEq] at h
      rw [← h, Option.isSome_some, Option.isSome_some]
    · simp only [retries, if_neg hk, reduceCtorEq] at h

theorem move_of_push (pc : PushPc ν) :
    (stackHistory ν).Move (m.since, m.pushes) (.pending (pushRequest pc))
      (stackInterface.labels t m (.push pc) (pushStep m pc).1
        ((pushStep m pc).2.elim .push (.pushRet pc.node)))
      ((pushStep m pc).1.since, (pushStep m pc).1.pushes)
      (Pc.client ((pushStep m pc).2.elim .push (.pushRet pc.node))) := by
  cases pc with
  | swapHead n head tries =>
    by_cases h : m.head = head
    · simp only [pushStep, if_pos h]
      exact .done (HistoryLegal.push n tries.isSome m.since m.pushes)
    · simp only [pushStep, if_neg h]
      cases hr : retries tries with
      | none =>
        show (stackHistory ν).Move (m.since, m.pushes) (.pending (.push n tries.isSome)) []
          (m.since, m.pushes) (.done .retry)
        rw [isSome_of_retries hr]
        exact .done (HistoryLegal.pushRetry n (m.since, m.pushes))
      | some tries' =>
        show (stackHistory ν).Move (m.since, m.pushes) (.pending (.push n tries.isSome)) []
          (m.since, m.pushes) (.pending (.push n tries'.isSome))
        rw [isSome_retries hr]
        exact .stay _
  | _ => exact .stay _

theorem move_of_flush (pc : FlushPc ν) :
    (stackHistory ν).Move (m.since, m.pushes) (Pc.client (.flush pc)) []
      ((flushStep m pc).1.since, (flushStep m pc).1.pushes)
      (Pc.client ((flushStep m pc).2.elim .flush .flushRet)) := by
  cases pc with
  | exchange order =>
    show (stackHistory ν).Move (m.since, m.pushes) (.pending (.flush order)) [] ([], m.pushes)
      ((flushed order m.head m.since).elim Pc.flush Pc.flushRet).client
    rw [client_flushed]
    exact .done (HistoryLegal.flush order m.since m.pushes)
  | swapHead order head tries =>
    by_cases h : m.head = head
    · simp only [flushStep, if_pos h]
      rw [client_flushed]
      exact .done (HistoryLegal.flush order m.since m.pushes)
    · simp only [flushStep, if_neg h]
      cases retries tries with
      | none => exact .done (HistoryLegal.flushRetry order (m.since, m.pushes))
      | some tries' => exact .stay _
  | writeNext head next fifo batch =>
    simp only [flushStep]
    rw [client_reverse]
    exact .stay _
  | _ => exact .stay _

/-- **Every access is a move of a client of the history**, or the two moves of a flush without
attempts. -/
theorem goes_of_exec (he : exec xchg t c m pc = some (m', pc')) :
    (stackHistory ν).Goes (m.since, m.pushes) pc.client (stackInterface.labels t m pc m' pc')
      (m'.since, m'.pushes) pc'.client := by
  cases pc with
  | idle =>
    cases c with
    | push n tries =>
      obtain ⟨-, h⟩ := Option.ite_none_right_eq_some.mp he
      obtain ⟨rfl, rfl⟩ := Prod.mk.inj (Option.some.inj h)
      exact .call (Request.push n tries.isSome) .refl
    | flush order tries =>
      obtain ⟨rfl, rfl⟩ := Prod.mk.inj (Option.some.inj he)
      have hcall : (stackHistory ν).Goes (m.since, m.pushes) .idle [.call (.flush order)]
          (m.since, m.pushes) (.pending (.flush order)) := .call (Request.flush order) .refl
      unfold flushStart
      split
      · exact .perform hcall (.flushRetry order (m.since, m.pushes))
      · split <;> exact hcall
    | take n =>
      obtain ⟨-, h⟩ := Option.ite_none_right_eq_some.mp he
      obtain ⟨rfl, rfl⟩ := Prod.mk.inj (Option.some.inj h)
      exact .refl
    | write n next =>
      obtain ⟨-, h⟩ := Option.ite_none_right_eq_some.mp he
      obtain ⟨rfl, rfl⟩ := Prod.mk.inj (Option.some.inj h)
      exact .refl
    | step => cases he
  | push pc =>
    obtain ⟨rfl, rfl⟩ := Prod.mk.inj (Option.some.inj he)
    exact (move_of_push pc).goes
  | pushRet n success =>
    cases success <;>
    · obtain ⟨rfl, rfl⟩ := Prod.mk.inj (Option.some.inj he)
      exact .ret .refl
  | flush pc =>
    obtain ⟨rfl, rfl⟩ := Prod.mk.inj (Option.some.inj he)
    rw [labels_flush]
    exact (move_of_flush pc).goes
  | flushRet result =>
    cases result <;>
    · obtain ⟨rfl, rfl⟩ := Prod.mk.inj (Option.some.inj he)
      exact .ret .refl

end Moves

/-- **`since` and `pushes` are what the calls have done.** -/
theorem linearizableTo_history [DecidableEq ι] [DecidableEq ν] {s : Config ι (Memory ν) (Pc ν)}
    {hist : List (Event ι (Config ι (Memory ν) (Pc ν)))}
    (run : Run Init (stackProgram xchg).Step s hist) :
    LinearizableTo (stackHistory ν) (stackInterface.trace hist) (s.mem.since, s.mem.pushes) := by
  have hrun : Run Init ((stackProgram xchg).StepIf fun _ _ _ _ => True) s hist :=
    run.mono fun _ _ _ h => Program.stepIf_true.mpr h
  refine hrun.linearizableTo (stackHistory ν) (fun _ _ => Pc.client)
    (fun m => (m.since, m.pushes)) ?_ (fun _ _ _ _ _ _ _ => rfl) ?_
  · rintro s ⟨-, -, hsince, hpushes, -, hidle⟩
    refine ⟨Prod.ext hsince (funext hpushes), fun t => ?_⟩
    rw [hidle t]
    rfl
  · rintro t s s' - ⟨-, hs⟩
    obtain ⟨c, he⟩ := hs.exec
    exact goes_of_exec he

end FibConcurrent.MpmcStack
