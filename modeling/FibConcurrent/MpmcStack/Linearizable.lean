import FibConcurrent.MpmcStack.Correct

/-!
# MpmcStack — what clients see is a stack that is flushed

A push takes effect when it moves the head, a flush when it takes the whole chain, long
before `mpmc_stack_reverse` is done with it. The calls and returns of every
interleaving are linearizable to a stack with these two operations, and the chain that a
flush returns is the list of nodes that it is answered with (`mpmcStack_calls_linearizable`).
-/

namespace FibConcurrent.MpmcStack

open FibConcurrent.Machine FibConcurrent.Data

variable {ι ν : Type*} {xchg : Bool}

/-- One operation: a push puts its node on top, a flush takes everything, newest or oldest
first as it was asked for. A push without a timeout does not fail. -/
inductive FlushedStackLegal : List ν → Request ν → Response ν → List ν → Prop
  | push (n : ν) (timeout : Bool) (l : List ν) :
      FlushedStackLegal l (.push n timeout) .pushed (n :: l)
  | pushRetry (n : ν) (l : List ν) : FlushedStackLegal l (.push n true) .retry l
  | flush (order : Order) (l : List ν) :
      FlushedStackLegal l (.flush order) (.flushed (order.arrange l)) []
  | flushRetry (order : Order) (l : List ν) : FlushedStackLegal l (.flush order) .retry l

/-- The stack, empty to begin with. -/
def flushedStack (ν : Type*) : Object (List ν) (Request ν) (Response ν) where
  start l := l = []
  legal := FlushedStackLegal

section Runs

variable [DecidableEq ι] [DecidableEq ν] {s : Config ι (Memory ν) (Pc ν)}
  {hist : List (Event ι (Config ι (Memory ν) (Pc ν)))}

/-- **`mpmc_stack` is linearizable to a stack that is flushed**: in every interleaving of both
builds the calls can be put into one sequence that such a stack would answer in the
same way, and that keeps the order of calls of which one returned before the other began;
and what a flush is answered is the chain that it returns. -/
theorem mpmcStack_calls_linearizable (run : Run Init (stackProgram xchg).Step s hist) :
    Linearizable (flushedStack ν) (stackInterface.trace hist) ∧
      ∀ t order out batch, s.loc t = .flushRet (.success order out batch) →
        ∃ nodes, stackInterface.result t s.mem (s.loc t) = .flushed nodes ∧
          Chain s.mem.next out nodes := by
  constructor
  · -- the nodes pushed since the last flush are the stack
    refine ((linearizableTo_history run).map Prod.fst ?_ ?_).linearizable
    · rintro x rfl
      rfl
    · intro x op res y hlegal
      cases hlegal with
      | push n timeout since pushes => exact .push n timeout since
      | pushRetry n => exact .pushRetry n _
      | flush order since pushes => exact .flush order since
      | flushRetry order => exact .flushRetry order _
  · intro t order out batch hl
    obtain ⟨g, -, hT⟩ := stack_invariant run
    have hp := (hT t).pc
    rw [hl] at hp ⊢
    exact ⟨order.arrange batch, rfl, hp⟩

/-- With `FIBER_XCHG_POINTER`: thread 1 flushes between two pushes of thread 0, and
returns the first node after the second push has returned. -/
theorem mpmcStack_calls_linearizable_flush :
    ∃ (s : Config Nat (Memory Nat) (Pc Nat)) (hist : _),
      Run Init (stackProgram true).Step s hist ∧ stackInterface.trace hist =
        [(0, .call (.push 1 false)), (0, .ret .pushed), (1, .call (.flush .lifo)),
          (0, .call (.push 2 false)), (0, .ret .pushed), (1, .ret (.flushed [1]))] ∧
        Linearizable (flushedStack Nat) (stackInterface.trace hist) := by
  have hstart : Run Init (stackProgram (ι := Nat) (ν := Nat) true).Step initial [] :=
    .start init_initial
  obtain ⟨s, hist, run, htrace⟩ := hstart.exists_of_history
    (q := fun _ hist => stackInterface.trace hist =
      [(0, .call (.push 1 false)), (0, .ret .pushed), (1, .call (.flush .lifo)),
        (0, .call (.push 2 false)), (0, .ret .pushed), (1, .ret (.flushed [1]))])
    (List.flatten [[(0, .push 1 none)], List.replicate 4 (0, .step),
      [(1, .flush .lifo none), (1, .step), (0, .push 2 none)], List.replicate 4 (0, .step),
      [(1, .step)]])
    (by decide +kernel)
  exact ⟨s, hist, run, htrace, (mpmcStack_calls_linearizable run).1⟩

end Runs

end FibConcurrent.MpmcStack
