import FibConcurrent.Data.Sequential
import FibConcurrent.Machine.Linearizable

/-!
# Data — containers as sequential objects

What the clients of a stack, a queue or a deque ask for and are told, and what the
container does, one operation at a time. These are the objects that the algorithms of the
library are linearizable to.
-/

namespace FibConcurrent.Data

open FibConcurrent.Machine

variable {α σ ο : Type*}

/-- What a client asks of a container. -/
inductive Request (α : Type*) where
  | put (v : α)
  | take
deriving DecidableEq

/-- What the container answers. -/
inductive Response (α : Type*) where
  | stored
  | took (v : α)
  | nothing
deriving DecidableEq

/-- One operation of a stack. -/
inductive StackLegal : List α → Request α → Response α → List α → Prop
  | put (v : α) (l : List α) : StackLegal l (.put v) .stored (v :: l)
  | take (v : α) (l : List α) : StackLegal (v :: l) .take (.took v) l
  | nothing : StackLegal [] .take .nothing []

/-- A stack, empty to begin with. -/
def stackObject (α : Type*) : Object (List α) (Request α) (Response α) where
  start l := l = []
  legal := StackLegal

/-- One operation of a queue. A loose one may answer that there is nothing to take when
there is. -/
inductive QueueLegal (loose : Bool) : List α → Request α → Response α → List α → Prop
  | put (v : α) (l : List α) : QueueLegal loose l (.put v) .stored (l ++ [v])
  | take (v : α) (l : List α) : QueueLegal loose (v :: l) .take (.took v) l
  | nothing (l : List α) (h : l = [] ∨ loose = true) : QueueLegal loose l .take .nothing l

/-- A queue, empty to begin with. -/
def queueObject (α : Type*) (loose : Bool) : Object (List α) (Request α) (Response α) where
  start l := l = []
  legal := QueueLegal loose

/-- What a take answers. -/
def takeResponse : Option α → Response α
  | some v => .took v
  | none => .nothing

/-- A log leads to one state only. -/
theorem Replays.unique {apply : σ → ο → Option σ} {s s' s'' : σ} {log : List ο}
    (h : Replays apply s log s') (h' : Replays apply s log s'') : s' = s'' :=
  Option.some.inj (h.symm.trans h')

/-- The last operation of a log was possible. -/
theorem Replays.last {apply : σ → ο → Option σ} {s s' s'' : σ} {log : List ο} {o : ο}
    (h : Replays apply s log s') (h' : Replays apply s (log ++ [o]) s'') :
    apply s' o = some s'' := by
  unfold Replays at *
  rw [List.foldlM_append, h] at h'
  simpa using h'

/-! ## Logs

An object that writes down what its operations do, and refuses none: the log of an algorithm is
what its calls have done if they are linearizable to such an object. -/

/-- What an operation of a stack writes down. -/
inductive StackLogLegal : List (StackOp α) → Request α → Response α → List (StackOp α) → Prop
  | put (v : α) (log : List (StackOp α)) : StackLogLegal log (.put v) .stored (log ++ [.push v])
  | take (v : α) (log : List (StackOp α)) : StackLogLegal log .take (.took v) (log ++ [.pop v])
  | nothing (log : List (StackOp α)) : StackLogLegal log .take .nothing log

/-- The log of a stack. -/
def stackLog (α : Type*) : Object (List (StackOp α)) (Request α) (Response α) where
  start log := log = []
  legal := StackLogLegal

/-- A legal log is the log of a stack. -/
theorem goes_of_stackLog [DecidableEq α] {log log' : List (StackOp α)} {x : List α}
    {k k' : Client (Request α) (Response α)} {labels : List (Label (Request α) (Response α))}
    (h : (stackLog α).Move log k labels log' k') (hx : Replays stackApply [] log x)
    (hlegal : ∃ y, Replays stackApply [] log' y)
    (hnothing : k.Answers labels k' .take .nothing → x = []) :
    ∃ x', Replays stackApply [] log' x' ∧ (stackObject α).Goes x k labels x' k' := by
  refine h.follow hx fun op res hans hlog => ?_
  cases hlog with
  | put v => exact ⟨v :: x, hx.concat rfl, .put v x⟩
  | take v =>
    -- the pop was legal, so `v` was on top
    obtain ⟨y, hy⟩ := hlegal
    have hpop := hx.last hy
    cases x with
    | nil => cases hpop
    | cons a l =>
      obtain ⟨rfl, hl⟩ := Option.ite_none_right_eq_some.mp hpop
      rw [Option.some.inj hl]
      exact ⟨y, hy, .take a y⟩
  | nothing =>
    obtain rfl := hnothing hans
    exact ⟨[], hx, .nothing⟩

/-- What has been put into a container and what has been taken out of it, in order. -/
inductive HistoryLegal : List α × List α → Request α → Response α → List α × List α → Prop
  | put (v : α) (pushed popped : List α) :
      HistoryLegal (pushed, popped) (.put v) .stored (pushed ++ [v], popped)
  | take (v : α) (pushed popped : List α) :
      HistoryLegal (pushed, popped) .take (.took v) (pushed, popped ++ [v])
  | nothing (x : List α × List α) : HistoryLegal x .take .nothing x

/-- The history of a container. -/
def history (α : Type*) : Object (List α × List α) (Request α) (Response α) where
  start x := x = ([], [])
  legal := HistoryLegal

/-- The values that have been put and not been taken. -/
def remaining (put taken : List α) : List α := put.drop taken.length

theorem remaining_append {put taken rest : List α} (h : put = taken ++ rest) :
    remaining put taken = rest := by
  rw [remaining, h, List.drop_left]

theorem remaining_put {put taken : List α} (h : taken.length ≤ put.length) (v : α) :
    remaining (put ++ [v]) taken = remaining put taken ++ [v] :=
  List.drop_append_of_le_length h

theorem remaining_take {put taken : List α} {v : α} (h : taken ++ [v] <+: put) :
    remaining put taken = v :: remaining put (taken ++ [v]) := by
  obtain ⟨rest, rfl⟩ := h
  rw [remaining_append rfl, List.append_assoc, remaining_append rfl]
  rfl

/-- A history of which the values come out as they went in is that of a queue. -/
theorem goes_of_history {loose : Bool} {x y : List α × List α}
    {k k' : Client (Request α) (Response α)} {labels : List (Label (Request α) (Response α))}
    (h : (history α).Move x k labels y k') (hx : x.2 <+: x.1) (hy : y.2 <+: y.1)
    (hnothing : k.Answers labels k' .take .nothing → remaining x.1 x.2 = [] ∨ loose = true) :
    (queueObject α loose).Goes (remaining x.1 x.2) k labels (remaining y.1 y.2) k' := by
  refine h.image (fun x => remaining x.1 x.2) fun op res hans hlegal => ?_
  cases hlegal with
  | put v pushed popped =>
    dsimp only
    rw [remaining_put hx.length_le]
    exact .put v _
  | take v pushed popped =>
    dsimp only
    rw [remaining_take hy]
    exact .take v _
  | nothing => exact .nothing _ (hnothing hans)

end FibConcurrent.Data
