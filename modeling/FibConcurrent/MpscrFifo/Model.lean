import FibConcurrent.Machine.Program
import Mathlib.Data.Fin.Basic
import Mathlib.Data.Nat.ModEq

/-!
# MpscrFifo — the model of `mpsc_relaxed_fifo.h` on `spsc_fifo.h`

One fifo for each producer, each a chain of nodes from `head` (a dummy whose
data has already been handed out) to `tail`. A producer moves its `tail` first
and writes the link from the previous node afterwards. The consumer goes round
the fifos with a counter; a pop hands out the old dummy, into which it has
copied the data, so that nodes travel from one fifo to another.

The histories: `pushed` are the data that each producer has passed to a push,
`popped` the data copied into the nodes that are handed out, each with the fifo
it came from. `owned` records the contract of the header: the fifo owns a node
from the push on until it is returned. Clients may store to the nodes they own
at any time, which covers nodes that are freed and allocated again.
-/

namespace FibConcurrent.MpscrFifo

open FibConcurrent.Machine

variable {n w : Nat} {ν α : Type*}

/-- One thread for each producer number, and the consumer. -/
inductive Party (n : Nat) where
  | producer (p : Fin n)
  | consumer
deriving DecidableEq

/-- `mpscr_fifo_t` with its fifos, the fields of all nodes, and the histories;
`none` is the null pointer. -/
structure Memory (n : Nat) (ν α : Type*) where
  counter : Nat
  head : Fin n → ν
  tail : Fin n → ν
  next : ν → Option ν
  data : ν → α
  owned : ν → Bool
  pushed : Fin n → List α
  popped : List (Fin n × α)

/-- The data that were popped from the fifo of producer `p`, in order. -/
def poppedFrom (p : Fin n) (popped : List (Fin n × α)) : List α :=
  (popped.filter (·.1 = p)).map Prod.snd

@[simp] theorem poppedFrom_append (p : Fin n) (popped : List (Fin n × α)) (e : Fin n × α) :
    poppedFrom p (popped ++ [e]) =
      if e.1 = p then poppedFrom p popped ++ [e.2] else poppedFrom p popped := by
  by_cases h : e.1 = p <;> simp [poppedFrom, h]

/-- Program points of `spsc_fifo_push`. -/
inductive PushPc (ν : Type*) where
  | clearNext (newNode : ν)
  | readTail (newNode : ν)
  | writeTail (newNode prevTail : ν)
  | linkNext (newNode prevTail : ν)
deriving DecidableEq

/-- The node that is pushed. -/
def PushPc.newNode : PushPc ν → ν
  | .clearNext newNode | .readTail newNode | .writeTail newNode _ | .linkNext newNode _ => newNode

/-- Program points of `spsc_fifo_trypop`. -/
inductive PopPc (ν α : Type*) where
  | readHead
  | readNext (prevHead : ν)
  | writeHead (prevHead prevHeadNext : ν)
  | readData (prevHead prevHeadNext : ν)
  | writeData (prevHead : ν) (data : α)
deriving DecidableEq

/-- Program points: `nextFifo` is the head of the loop in `mpscr_fifo_trypop`. -/
inductive Pc (n : Nat) (ν α : Type*) where
  | idle
  | push (pc : PushPc ν)
  | nextFifo (i : Nat)
  | pop (i : Nat) (index : Fin n) (pc : PopPc ν α)
  | popRet (out : Option ν)
deriving DecidableEq

/-- What a party decides to do next. -/
inductive Choice (ν α : Type*) where
  | store (node : ν) (next : Option ν) (data : α)
  | push (node : ν) (data : α)
  | pop
  | step

variable [DecidableEq ν]

/-- One access of `spsc_fifo_push` to the fifo of producer `p`; no next program
point means that it returned. -/
def pushStep (p : Fin n) (m : Memory n ν α) : PushPc ν → Memory n ν α × Option (PushPc ν)
  | .clearNext newNode =>
      ({ m with next := Function.update m.next newNode none }, some (.readTail newNode))
  | .readTail newNode => (m, some (.writeTail newNode (m.tail p)))
  -- The tail is ahead of the links until the next access.
  | .writeTail newNode prevTail =>
      ({ m with tail := Function.update m.tail p newNode }, some (.linkNext newNode prevTail))
  | .linkNext newNode prevTail =>
      ({ m with next := Function.update m.next prevTail (some newNode) }, none)

/-- One access of `spsc_fifo_trypop` to fifo `index`: the next program point, or
the returned node. -/
def popStep (index : Fin n) (m : Memory n ν α) :
    PopPc ν α → Memory n ν α × (PopPc ν α ⊕ Option ν)
  | .readHead => (m, .inl (.readNext (m.head index)))
  | .readNext prevHead =>
      match m.next prevHead with
      | some prevHeadNext => (m, .inl (.writeHead prevHead prevHeadNext))
      | none => (m, .inr none)
  | .writeHead prevHead prevHeadNext =>
      ({ m with head := Function.update m.head index prevHeadNext },
        .inl (.readData prevHead prevHeadNext))
  -- The new dummy: no other party reads or writes its data.
  | .readData prevHead prevHeadNext => (m, .inl (.writeData prevHead (m.data prevHeadNext)))
  | .writeData prevHead data =>
      ({ m with
        data := Function.update m.data prevHead data
        popped := m.popped ++ [(index, data)] }, .inr (some prevHead))

/-- One step of a party. `size_t` has `w` bits; the index of a push is the
number of its producer, which is below `num_producers`. -/
def exec [NeZero n] (w : Nat) (t : Party n) (c : Choice ν α) (m : Memory n ν α) :
    Pc n ν α → Option (Memory n ν α × Pc n ν α)
  | .idle =>
      match c with
      | .store node next data =>
          if m.owned node = true then
            some ({ m with
              next := Function.update m.next node next
              data := Function.update m.data node data }, .idle)
          else none
      | .push node data =>
          match t with
          | .producer p =>
              if m.owned node = true then
                some ({ m with
                  owned := Function.update m.owned node false
                  data := Function.update m.data node data
                  pushed := Function.update m.pushed p (m.pushed p ++ [data]) },
                  .push (.clearNext node))
              else none
          | .consumer => none
      | .pop => if t = .consumer then some (m, .nextFifo 0) else none
      | .step => none
  | .push pc =>
      match t with
      | .producer p =>
          let r := pushStep p m pc
          some (r.1, r.2.elim .idle .push)
      | .consumer => none
  | .nextFifo i =>
      if i < n then
        -- The index is taken before `++f->counter`, and the next attempt looks at the next fifo.
        some ({ m with counter := (m.counter + 1) % 2 ^ w },
          .pop i (Fin.ofNat n m.counter) .readHead)
      else some (m, .popRet none)
  | .pop i index pc =>
      let r := popStep index m pc
      some (r.1, match r.2 with
        | .inl pc' => .pop i index pc'
        | .inr (some node) => .popRet (some node)
        -- This fifo is empty; at most `num_producers` are tried.
        | .inr none => .nextFifo (i + 1))
  | .popRet (some node) => some ({ m with owned := Function.update m.owned node true }, .idle)
  | .popRet none => some (m, .idle)

/-- The interleavings of the producers and the consumer. -/
def mpscrProgram [NeZero n] (w : Nat) :
    Program (Party n) (Choice ν α) (Memory n ν α) (Pc n ν α) := ⟨exec w⟩

/-- After `mpscr_fifo_create`: every fifo has a dummy of its own. -/
def Init (s : Config (Party n) (Memory n ν α) (Pc n ν α)) : Prop :=
  s.mem.counter = 0 ∧ s.mem.tail = s.mem.head ∧ Function.Injective s.mem.head ∧
    (∀ p, s.mem.next (s.mem.head p) = none ∧ s.mem.owned (s.mem.head p) = false) ∧
    (∀ p, s.mem.pushed p = []) ∧ s.mem.popped = [] ∧ ∀ t, s.loc t = .idle

/-- The state `mpscr_fifo_create` leaves, with node `p` the dummy of producer `p`
and all further nodes in the hands of clients. -/
def initial (n : Nat) (null : α) : Config (Party n) (Memory n Nat α) (Pc n Nat α) where
  mem :=
    { counter := 0
      head := Fin.val
      tail := Fin.val
      next := fun _ => none
      data := fun _ => null
      owned := fun x => decide (n ≤ x)
      pushed := fun _ => []
      popped := [] }
  loc _ := .idle

theorem init_initial (n : Nat) (null : α) : Init (initial n null) :=
  ⟨rfl, rfl, Fin.val_injective, fun p => ⟨rfl, by simp [initial]⟩, fun _ => rfl, rfl, fun _ => rfl⟩

end FibConcurrent.MpscrFifo
