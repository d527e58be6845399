import FibConcurrent.Machine.Program

/-!
# MpscFifo — the model of `mpsc_fifo.h`

The fifo is a chain of nodes from `head` (a dummy whose data has already been
handed out) to `tail`. Producers swap themselves in as `tail` with one atomic
exchange and write the link from their predecessor afterwards; the consumer
alone moves `head`.

The three operations are given one shared access at a time: `pushStep`,
`popStep` and `peekStep` take the program point of a call and perform the
access it stands at. They are used as they are by `mpsc_fifo` itself
(`fifoProgram`, below) and by the work queue that is built on it.

Beside the C fields the model keeps the histories its statements speak about:
`pushed` (the data of the nodes in the order of the tail exchanges), `popped`
(the data of the nodes `mpsc_fifo_trypop` returned) and `peeked` (what the last
successful peek reported). `owned` records the ownership contract of the
header: "the FIFO owns new_node after pushing", "the caller owns the node after
popping". Clients may store to the nodes they own at any time.
-/

namespace FibConcurrent.MpscFifo

open FibConcurrent.Machine

variable {ι ν α : Type*}

/-- `mpsc_fifo_t` together with the `data` and `next` fields of all
`mpsc_fifo_node_t`; `none` is the null pointer. -/
structure Fifo (ν α : Type*) where
  head : ν
  tail : ν
  data : ν → α
  next : ν → Option ν
  pushed : List α

/-- Program points of `mpsc_fifo_push`. -/
inductive PushPc (ν : Type*) where
  | clearNext (newNode : ν)
  | exchangeTail (newNode : ν)
  | linkNext (prevTail newNode : ν)
deriving DecidableEq

/-- Program points of `mpsc_fifo_trypop`. -/
inductive PopPc (ν α : Type*) where
  | readHead
  | readNext (prevHead : ν)
  | writeHead (prevHead prevNext : ν)
  | readData (prevHead prevNext : ν)
  | writeData (prevHead : ν) (data : α)
deriving DecidableEq

/-- Program points of `mpsc_fifo_peek`; `wants` tells whether the caller passed
a place for the data. -/
inductive PeekPc (ν : Type*) where
  | readHead (wants : Bool)
  | readNext (wants : Bool) (head : ν)
  | readData (next : ν)
deriving DecidableEq

section Operations

variable [DecidableEq ν]

/-- One access of `mpsc_fifo_push`; no next program point means it returned. -/
def pushStep (f : Fifo ν α) : PushPc ν → Fifo ν α × Option (PushPc ν)
  | .clearNext newNode =>
      ({ f with next := Function.update f.next newNode none }, some (.exchangeTail newNode))
  | .exchangeTail newNode =>
      ({ f with tail := newNode, pushed := f.pushed ++ [f.data newNode] },
        some (.linkNext f.tail newNode))
  | .linkNext prevTail newNode =>
      ({ f with next := Function.update f.next prevTail (some newNode) }, none)

/-- One access of `mpsc_fifo_trypop`: the next program point, or the returned
node. -/
def popStep (f : Fifo ν α) : PopPc ν α → Fifo ν α × (PopPc ν α ⊕ Option ν)
  | .readHead => (f, .inl (.readNext f.head))
  | .readNext prevHead =>
      match f.next prevHead with
      | some prevNext => (f, .inl (.writeHead prevHead prevNext))
      | none => (f, .inr none)
  | .writeHead prevHead prevNext =>
      ({ f with head := prevNext }, .inl (.readData prevHead prevNext))
  | .readData prevHead prevNext => (f, .inl (.writeData prevHead (f.data prevNext)))
  | .writeData prevHead data =>
      ({ f with data := Function.update f.data prevHead data }, .inr (some prevHead))

/-- One access of `mpsc_fifo_peek`. The result is `none` for 0, `some none` for
1 when no data was asked for, `some (some d)` for 1 with `*data = d`. -/
def peekStep (f : Fifo ν α) : PeekPc ν → PeekPc ν ⊕ Option (Option α)
  | .readHead wants => .inl (.readNext wants f.head)
  | .readNext wants head =>
      match f.next head with
      | some next => if wants then .inl (.readData next) else .inr (some none)
      | none => .inr none
  | .readData next => .inr (some (some (f.data next)))

end Operations

/-! ## The fifo with its clients -/

/-- The fifo and the record of who owns which node. -/
structure Mem (ν α : Type*) where
  fifo : Fifo ν α
  owned : ν → Bool
  popped : List α
  peeked : Option α

/-- Where a thread stands: between calls, inside one of the three operations,
or about to hand back its result. -/
inductive Pc (ν α : Type*) where
  | idle
  | push (pc : PushPc ν)
  | trypop (pc : PopPc ν α)
  | trypopRet (node : Option ν)
  | peek (pc : PeekPc ν)
  | peekRet (result : Option (Option α))
deriving DecidableEq

/-- What a client decides to do next: call an operation, store to a node it
owns, or let the running call take its next access. -/
inductive Choice (ν α : Type*) where
  | push (newNode : ν) (data : α)
  | trypop
  | peek (wants : Bool)
  | write (node : ν) (data : α) (next : Option ν)
  | step

variable [DecidableEq ι] [DecidableEq ν]

/-- Any thread may push a node it owns; `consumer` alone may peek and pop. -/
def exec (consumer : ι) (t : ι) (c : Choice ν α) (m : Mem ν α) :
    Pc ν α → Option (Mem ν α × Pc ν α)
  | .idle =>
      match c with
      | .push newNode data =>
          if m.owned newNode then
            some ({ m with
                owned := Function.update m.owned newNode false
                fifo := { m.fifo with data := Function.update m.fifo.data newNode data } },
              .push (.clearNext newNode))
          else none
      | .trypop => if t = consumer then some (m, .trypop .readHead) else none
      | .peek wants => if t = consumer then some (m, .peek (.readHead wants)) else none
      | .write node data next =>
          if m.owned node then
            some ({ m with fifo := { m.fifo with
                data := Function.update m.fifo.data node data
                next := Function.update m.fifo.next node next } }, .idle)
          else none
      | .step => none
  | .push pc =>
      let r := pushStep m.fifo pc
      some ({ m with fifo := r.1 }, match r.2 with
        | some pc' => .push pc'
        | none => .idle)
  | .trypop pc =>
      let r := popStep m.fifo pc
      some ({ m with fifo := r.1 }, match r.2 with
        | .inl pc' => .trypop pc'
        | .inr node => .trypopRet node)
  | .trypopRet (some node) =>
      some ({ m with
        owned := Function.update m.owned node true
        popped := m.popped ++ [m.fifo.data node]
        peeked := none }, .idle)
  | .trypopRet none => some ({ m with peeked := none }, .idle)
  | .peek pc =>
      some (m, match peekStep m.fifo pc with
        | .inl pc' => .peek pc'
        | .inr result => .peekRet result)
  | .peekRet (some (some data)) => some ({ m with peeked := some data }, .idle)
  | .peekRet _ => some (m, .idle)

/-- The interleavings of any number of producers and one consumer. -/
def fifoProgram (consumer : ι) : Program ι (Choice ν α) (Mem ν α) (Pc ν α) :=
  ⟨exec consumer⟩

/-- After `mpsc_fifo_init`: the calloc'ed node is head and tail, and every
thread is between calls. All other nodes may be in the hands of clients. -/
def Init (s : Config ι (Mem ν α) (Pc ν α)) : Prop :=
  s.mem.fifo.tail = s.mem.fifo.head ∧ s.mem.fifo.next s.mem.fifo.head = none ∧
    s.mem.fifo.pushed = [] ∧ s.mem.owned s.mem.fifo.head = false ∧
    s.mem.popped = [] ∧ s.mem.peeked = none ∧ ∀ t, s.loc t = .idle

/-- The state `mpsc_fifo_init` leaves, with `dummy` the calloc'ed node and every
other node in the hands of clients. -/
def initial (dummy : ν) (null : α) : Config ι (Mem ν α) (Pc ν α) where
  mem :=
    { fifo := ⟨dummy, dummy, fun _ => null, fun _ => none, []⟩
      owned := fun n => decide (n ≠ dummy)
      popped := []
      peeked := none }
  loc _ := .idle

omit [DecidableEq ι] in
theorem init_initial (dummy : ν) (null : α) : Init (initial dummy null : Config ι _ _) :=
  ⟨rfl, rfl, rfl, by simp [initial], rfl, rfl, fun _ => rfl⟩

end FibConcurrent.MpscFifo
