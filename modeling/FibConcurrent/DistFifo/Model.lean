import FibConcurrent.Machine.Counted
import FibConcurrent.Machine.Program

/-!
# DistFifo — the model of `dist_fifo.h`

A fifo with one distinguished thread that pushes; every thread may pop. The
list starts at a dummy node whose data has already been handed out, as in
`mpsc_fifo`, but head and counter are swapped together: a pop reads counter,
head, `next` of that head and the data of its successor one after the other,
and hands out the old dummy with that data in it if nobody popped in between.

`pushed` is the history of the data that became reachable, in push order,
`popped` that of the data taken by successful swaps. A pop carries as `stamp`
how many pops had succeeded when it read the counter; a pop that succeeds is
therefore the one with that number. `owner` records which thread a node outside
the fifo belongs to: its owner may overwrite it, give it away, or, being the
distinguished thread, push it.
-/

namespace FibConcurrent.DistFifo

open FibConcurrent.Machine

variable {ι ν α : Type*} {w : Nat}

/-- `dist_fifo_t`, the fields of all nodes, who owns which node, and the
histories. -/
structure Fifo (w : Nat) (ι ν α : Type*) where
  head : Counted w ν
  tail : ν
  data : ν → α
  next : ν → Option ν
  owner : ν → Option ι
  pushed : List α
  popped : List α

/-- Program points of `dist_fifo_push`. -/
inductive PushPc (ν : Type*) where
  | readTail (newNode : ν)
  | clearNext (tail newNode : ν)
  | linkNext (tail newNode : ν)
  | writeTail (newNode : ν)
deriving DecidableEq

/-- Program points of `dist_fifo_trypop`. -/
inductive PopPc (w : Nat) (ν α : Type*) where
  | readCounter
  | readNode (counter : BitVec w) (stamp : Nat)
  | readNext (prevHead : Counted w ν) (stamp : Nat)
  | readData (prevHead : Counted w ν) (prevHeadNext : ν) (stamp : Nat)
  | swap (prevHead : Counted w ν) (prevHeadNext : ν) (data : α) (stamp : Nat)
  | writeData (prevHead : ν) (data : α) (stamp : Nat)
deriving DecidableEq

/-- What `dist_fifo_trypop` returns: `DIST_FIFO_EMPTY`, `DIST_FIFO_RETRY`, or a
node (the one of the successful pop number `stamp`). -/
inductive PopResult (ν : Type*) where
  | empty
  | retry
  | node (n : ν) (stamp : Nat)
deriving DecidableEq

inductive Pc (w : Nat) (ν α : Type*) where
  | idle
  | push (pc : PushPc ν)
  | pop (pc : PopPc w ν α)
  | popRet (result : PopResult ν)
deriving DecidableEq

/-- What a client decides to do next. -/
inductive Choice (ι ν α : Type*) where
  | push (newNode : ν) (data : α)
  | pop
  | write (node : ν) (data : α) (next : Option ν)
  | give (node : ν) (receiver : ι)
  | step

variable [DecidableEq ι] [DecidableEq ν]

/-- One access of `dist_fifo_push`; no next program point means it returned. -/
def pushStep (m : Fifo w ι ν α) : PushPc ν → Fifo w ι ν α × Option (PushPc ν)
  | .readTail newNode => (m, some (.clearNext m.tail newNode))
  | .clearNext tail newNode =>
      ({ m with next := Function.update m.next newNode none }, some (.linkNext tail newNode))
  | .linkNext tail newNode =>
      ({ m with
          next := Function.update m.next tail (some newNode)
          pushed := m.pushed ++ [m.data newNode] }, some (.writeTail newNode))
  | .writeTail newNode => ({ m with tail := newNode }, none)

/-- One access of `dist_fifo_trypop`: the next program point, or the result. -/
def popStep (m : Fifo w ι ν α) : PopPc w ν α → Fifo w ι ν α × (PopPc w ν α ⊕ PopResult ν)
  | .readCounter => (m, .inl (.readNode m.head.counter m.popped.length))
  -- The two halves of the head are read apart; the swap compares both.
  | .readNode counter stamp => (m, .inl (.readNext ⟨counter, m.head.ptr⟩ stamp))
  | .readNext prevHead stamp =>
      match m.next prevHead.ptr with
      | some prevHeadNext => (m, .inl (.readData prevHead prevHeadNext stamp))
      -- `DIST_FIFO_EMPTY` without a second look at the head.
      | none => (m, .inr .empty)
  | .readData prevHead prevHeadNext stamp =>
      (m, .inl (.swap prevHead prevHeadNext (m.data prevHeadNext) stamp))
  | .swap prevHead prevHeadNext data stamp =>
      match compareAndSwap2 m.head prevHead ⟨prevHead.counter + 1, prevHeadNext⟩ with
      | (head, true) =>
          ({ m with head := head, popped := m.popped ++ [data] },
            .inl (.writeData prevHead.ptr data stamp))
      -- No loop: the caller gets `DIST_FIFO_RETRY`.
      | (head, false) => ({ m with head := head }, .inr .retry)
  -- The old dummy carries the data out; the node that held it is the new dummy.
  | .writeData prevHead data stamp =>
      ({ m with data := Function.update m.data prevHead data }, .inr (.node prevHead stamp))

/-- `pusher` alone may push. -/
def exec (pusher : ι) (t : ι) (c : Choice ι ν α) (m : Fifo w ι ν α) :
    Pc w ν α → Option (Fifo w ι ν α × Pc w ν α)
  | .idle =>
      match c with
      | .push newNode data =>
          if t = pusher ∧ m.owner newNode = some t then
            some ({ m with
                owner := Function.update m.owner newNode none
                data := Function.update m.data newNode data }, .push (.readTail newNode))
          else none
      | .pop => some (m, .pop .readCounter)
      | .write node data next =>
          if m.owner node = some t then
            some ({ m with
                data := Function.update m.data node data
                next := Function.update m.next node next }, .idle)
          else none
      | .give node receiver =>
          if m.owner node = some t then
            some ({ m with owner := Function.update m.owner node (some receiver) }, .idle)
          else none
      | .step => none
  | .push pc =>
      let r := pushStep m pc
      some (r.1, match r.2 with
        | some pc' => .push pc'
        | none => .idle)
  | .pop pc =>
      let r := popStep m pc
      some (r.1, match r.2 with
        | .inl pc' => .pop pc'
        | .inr result => .popRet result)
  | .popRet (.node n _) =>
      some ({ m with owner := Function.update m.owner n (some t) }, .idle)
  | .popRet .empty => some (m, .idle)
  | .popRet .retry => some (m, .idle)

/-- The interleavings of the distinguished thread and any number of others. -/
def distProgram (pusher : ι) : Program ι (Choice ι ν α) (Fifo w ι ν α) (Pc w ν α) :=
  ⟨exec pusher⟩

/-- How many pops had succeeded at the counter read of the pop in progress, up
to its swap. -/
def PopPc.stamp : PopPc w ν α → Option Nat
  | .readCounter => none
  | .readNode _ stamp => some stamp
  | .readNext _ stamp => some stamp
  | .readData _ _ stamp => some stamp
  | .swap _ _ _ stamp => some stamp
  | .writeData .. => none

def Pc.stamp : Pc w ν α → Option Nat
  | .pop pc => pc.stamp
  | _ => none

/-- The counter does not wrap during one call: fewer than `2 ^ w` pops have
succeeded since the pop in progress read it. -/
def Fresh (_t : ι) (m : Fifo w ι ν α) (pc : Pc w ν α) (_m' : Fifo w ι ν α) : Prop :=
  ∀ stamp ∈ pc.stamp, m.popped.length < stamp + 2 ^ w

instance (t : ι) (m : Fifo w ι ν α) (pc : Pc w ν α) (m' : Fifo w ι ν α) :
    Decidable (Fresh t m pc m') :=
  inferInstanceAs (Decidable (∀ stamp ∈ pc.stamp, m.popped.length < stamp + 2 ^ w))

/-- After `dist_fifo_init`: the calloc'ed node is head and tail, and every
thread is between calls. All other nodes may be in the hands of clients. -/
def Init (s : Config ι (Fifo w ι ν α) (Pc w ν α)) : Prop :=
  s.mem.head = ⟨0, s.mem.tail⟩ ∧ s.mem.next s.mem.tail = none ∧
    s.mem.owner s.mem.tail = none ∧ s.mem.pushed = [] ∧ s.mem.popped = [] ∧
    ∀ t, s.loc t = .idle

/-- The state `dist_fifo_init` leaves, with `dummy` the calloc'ed node and all
other nodes in the hands of thread `t`. -/
def initial (dummy : ν) (null : α) (t : ι) : Config ι (Fifo w ι ν α) (Pc w ν α) where
  mem :=
    { head := ⟨0, dummy⟩
      tail := dummy
      data := fun _ => null
      next := fun _ => none
      owner := fun n => if n = dummy then none else some t
      pushed := []
      popped := [] }
  loc _ := .idle

omit [DecidableEq ι] in
theorem init_initial (dummy : ν) (null : α) (t : ι) :
    Init (initial dummy null t : Config ι (Fifo w ι ν α) (Pc w ν α)) :=
  ⟨rfl, rfl, by simp [initial], rfl, rfl, fun _ => rfl⟩

end FibConcurrent.DistFifo
