import FibConcurrent.Data.Sequential
import FibConcurrent.Machine.Counted
import FibConcurrent.Machine.Program

/-!
# MpmcLifo — the model of `mpmc_lifo.h`

A stack of nodes linked through `next`. Head and counter are swapped together;
both operations read the counter first, then the head, and a pop then reads the
`next` field of that head, which others may have popped, rewritten and pushed
again by then.

The counter has `w` bits. `log` is the history of the successful swaps; the
locals of an operation carry as `stamp` how long the log was when the operation
read the counter, which is what the bound on one retry iteration is about.
Clients own nodes as for the fifos; the memory of a node stays readable.
-/

namespace FibConcurrent.MpmcLifo

open FibConcurrent.Machine FibConcurrent.Data

variable {ι ν : Type*} {w : Nat}

/-- `mpmc_lifo_t`, the `next` fields of all nodes, the record of who owns which
node, and the history of successful swaps. -/
structure Lifo (w : Nat) (ν : Type*) where
  pair : Counted w (Option ν)
  next : ν → Option ν
  owned : ν → Bool
  log : List (StackOp ν)

/-- Program points of `mpmc_lifo_push`. -/
inductive PushPc (w : Nat) (ν : Type*) where
  | readCounter (node : ν)
  | readHead (node : ν) (counter : BitVec w) (stamp : Nat)
  | writeNext (node : ν) (snapshot : Counted w (Option ν)) (stamp : Nat)
  | swap (node : ν) (snapshot : Counted w (Option ν)) (stamp : Nat)

/-- Program points of `mpmc_lifo_pop`. -/
inductive PopPc (w : Nat) (ν : Type*) where
  | readCounter
  | readHead (counter : BitVec w) (stamp : Nat)
  | readNext (counter : BitVec w) (head : ν) (stamp : Nat)
  | swap (counter : BitVec w) (head : ν) (next : Option ν) (stamp : Nat)

inductive Pc (w : Nat) (ν : Type*) where
  | idle
  | push (pc : PushPc w ν)
  | pop (pc : PopPc w ν)
  | popRet (node : Option ν)

/-- What a client decides to do next. -/
inductive Choice (ν : Type*) where
  | push (node : ν)
  | pop
  | write (node : ν) (next : Option ν)
  | step

variable [DecidableEq ν]

/-- One access of `mpmc_lifo_push`; no next program point means it returned. -/
def pushStep (m : Lifo w ν) : PushPc w ν → Lifo w ν × Option (PushPc w ν)
  | .readCounter node => (m, some (.readHead node m.pair.counter m.log.length))
  | .readHead node counter stamp => (m, some (.writeNext node ⟨counter, m.pair.ptr⟩ stamp))
  | .writeNext node snapshot stamp =>
      ({ m with next := Function.update m.next node snapshot.ptr },
        some (.swap node snapshot stamp))
  | .swap node snapshot _ =>
      let temp : Counted w (Option ν) := ⟨snapshot.counter + 1, some node⟩
      match compareAndSwap2 m.pair snapshot temp with
      | (pair, true) => ({ m with pair := pair, log := m.log ++ [.push node] }, none)
      | (pair, false) => ({ m with pair := pair }, some (.readCounter node))

/-- One access of `mpmc_lifo_pop`: the next program point, or the returned node. -/
def popStep (m : Lifo w ν) : PopPc w ν → Lifo w ν × (PopPc w ν ⊕ Option ν)
  | .readCounter => (m, .inl (.readHead m.pair.counter m.log.length))
  | .readHead counter stamp =>
      match m.pair.ptr with
      | none => (m, .inr none)
      | some head => (m, .inl (.readNext counter head stamp))
  | .readNext counter head stamp => (m, .inl (.swap counter head (m.next head) stamp))
  | .swap counter head next _ =>
      let temp : Counted w (Option ν) := ⟨counter + 1, next⟩
      match compareAndSwap2 m.pair ⟨counter, some head⟩ temp with
      | (pair, true) => ({ m with pair := pair, log := m.log ++ [.pop head] }, .inr (some head))
      | (pair, false) => ({ m with pair := pair }, .inl .readCounter)

/-- Any thread may push a node it owns, and pop. -/
def exec (_t : ι) (c : Choice ν) (m : Lifo w ν) : Pc w ν → Option (Lifo w ν × Pc w ν)
  | .idle =>
      match c with
      | .push node =>
          if m.owned node then
            some ({ m with owned := Function.update m.owned node false },
              .push (.readCounter node))
          else none
      | .pop => some (m, .pop .readCounter)
      | .write node next =>
          if m.owned node then
            some ({ m with next := Function.update m.next node next }, .idle)
          else none
      | .step => none
  | .push pc =>
      let r := pushStep m pc
      some (r.1, match r.2 with
        | some pc' => .push pc'
        | none => .idle)
  | .pop pc =>
      let r := popStep m pc
      some (r.1, match r.2 with
        | .inl pc' => .pop pc'
        | .inr node => .popRet node)
  | .popRet (some node) =>
      some ({ m with owned := Function.update m.owned node true }, .idle)
  | .popRet none => some (m, .idle)

/-- The interleavings of any number of threads on one stack. -/
def lifoProgram : Program ι (Choice ν) (Lifo w ν) (Pc w ν) := ⟨exec⟩

/-- The log length at the counter read of the iteration whose swap is next. -/
def Pc.swapStamp : Pc w ν → Option Nat
  | .push (.swap _ _ stamp) => some stamp
  | .pop (.swap _ _ _ stamp) => some stamp
  | _ => none

/-- Fewer than `2 ^ w` operations have succeeded since the iteration that swaps
now read the counter. -/
def Fresh (_t : ι) (m : Lifo w ν) (pc : Pc w ν) (_m' : Lifo w ν) : Prop :=
  ∀ stamp ∈ pc.swapStamp, m.log.length < stamp + 2 ^ w

instance (t : ι) (m : Lifo w ν) (pc : Pc w ν) (m' : Lifo w ν) : Decidable (Fresh t m pc m') :=
  inferInstanceAs (Decidable (∀ stamp ∈ pc.swapStamp, m.log.length < stamp + 2 ^ w))

/-- After `mpmc_lifo_init`: the stack is empty and every thread is between
calls. -/
def Init (s : Config ι (Lifo w ν) (Pc w ν)) : Prop :=
  s.mem.pair = ⟨0, none⟩ ∧ s.mem.log = [] ∧ ∀ t, s.loc t = .idle

/-- The state `mpmc_lifo_init` leaves, with all nodes in the hands of clients. -/
def initial : Config ι (Lifo w ν) (Pc w ν) where
  mem := { pair := ⟨0, none⟩, next := fun _ => none, owned := fun _ => true, log := [] }
  loc _ := .idle

omit [DecidableEq ν] in
theorem init_initial : Init (initial : Config ι (Lifo w ν) (Pc w ν)) :=
  ⟨rfl, rfl, fun _ => rfl⟩

end FibConcurrent.MpmcLifo
