import Mathlib.Data.List.Basic

/-!
# Data — sequential specifications

What a concurrent object is for, said without concurrency: an abstract state
and the effect of one operation on it, undefined when the operation could not
have happened there. A log of operations is legal if it can be replayed from
the initial state.
-/

namespace FibConcurrent.Data

variable {σ ο : Type*} {apply : σ → ο → Option σ} {s s' s'' : σ} {log : List ο} {o : ο}

/-- Replaying `log` from `s` leads to `s'`. -/
def Replays (apply : σ → ο → Option σ) (s : σ) (log : List ο) (s' : σ) : Prop :=
  log.foldlM apply s = some s'

@[simp] theorem replays_nil : Replays apply s [] s' ↔ s = s' := by
  simp [Replays]

/-- The log grows by an operation that is possible where it has led so far. -/
theorem Replays.concat (h : Replays apply s log s') (ho : apply s' o = some s'') :
    Replays apply s (log ++ [o]) s'' := by
  unfold Replays at *
  rw [List.foldlM_append, h]
  simpa using ho

/-! ## Stacks -/

/-- The operations of a stack, each with the element it pushed or returned. -/
inductive StackOp (ν : Type*) where
  | push (n : ν)
  | pop (n : ν)
deriving DecidableEq

/-- The stack: a push prepends, a pop returns exactly the first element. -/
def stackApply {ν : Type*} [DecidableEq ν] : List ν → StackOp ν → Option (List ν)
  | l, .push n => some (n :: l)
  | [], .pop _ => none
  | a :: l, .pop n => if a = n then some l else none

end FibConcurrent.Data
