import FibConcurrent.Machine.Program
import Mathlib.Data.Nat.ModEq

/-!
# MpmcStack — the model of `mpmc_stack.h`

A stack that is emptied all at once: a push swings `head` to its node, a flush
swings it to NULL and owns the whole chain, which a fifo flush then reverses in
place. There is no counter next to `head`, and the nodes of a flushed chain may
be pushed again as soon as the client has them.

A client takes the nodes of a flushed chain off its front, one by one; `chains`
are the fronts of the chains that clients hold, and `owned` marks the single
nodes in their hands. `since` is the history of the nodes pushed since the last
successful flush, newest first; a flush keeps what it found there as its
`batch`. `pushes` and `taken` count for every node how often a push of it
succeeded and how often a client took it off a flushed chain.
-/

namespace FibConcurrent.MpmcStack

open FibConcurrent.Machine

variable {ι ν : Type*}

/-- `mpmc_stack_t`, the `next` fields of all nodes, what clients hold, and the
histories. -/
structure Memory (ν : Type*) where
  head : Option ν
  next : ν → Option ν
  owned : ν → Bool
  chains : List ν
  since : List ν
  pushes : ν → Nat
  taken : ν → Nat

/-- Program points of `mpmc_stack_push` (`tries` is `none`) and
`mpmc_stack_push_timeout`. -/
inductive PushPc (ν : Type*) where
  | readHead (n : ν) (tries : Option Nat)
  | writeNext (n : ν) (head : Option ν) (tries : Option Nat)
  | swapHead (n : ν) (head : Option ν) (tries : Option Nat)
deriving DecidableEq

/-- `mpmc_stack_lifo_flush` or `mpmc_stack_fifo_flush`. -/
inductive Order where
  | lifo
  | fifo
deriving DecidableEq

/-- Program points of the flushes; from `readNext` on the head has been swapped
and `mpmc_stack_reverse` runs on the nodes of `batch`. -/
inductive FlushPc (ν : Type*) where
  | exchange (order : Order)
  | readHead (order : Order) (tries : Option Nat)
  | swapHead (order : Order) (head : Option ν) (tries : Option Nat)
  | readNext (head : ν) (fifo : Option ν) (batch : List ν)
  | writeNext (head : ν) (next fifo : Option ν) (batch : List ν)
deriving DecidableEq

/-- `MPMC_RETRY`, or `MPMC_SUCCESS` with the chain in `*out`, of a flush in either order. -/
inductive FlushResult (ν : Type*) where
  | retry (order : Order)
  | success (order : Order) (out : Option ν) (batch : List ν)
deriving DecidableEq

inductive Pc (ν : Type*) where
  | idle
  | push (pc : PushPc ν)
  | pushRet (n : ν) (success : Bool)
  | flush (pc : FlushPc ν)
  | flushRet (result : FlushResult ν)
deriving DecidableEq

/-- What a client decides to do next; `tries` is `none` for the functions
without a timeout. -/
inductive Choice (ν : Type*) where
  | push (n : ν) (tries : Option Nat)
  | flush (order : Order) (tries : Option Nat)
  | take (n : ν)
  | write (n : ν) (next : Option ν)
  | step

/-- `tries -= 1` in `size_t`. -/
def decrement (tries : Nat) : Nat := (tries + 2 ^ 64 - 1) % 2 ^ 64

/-- `while(tries > 0)` after `tries -= 1`; a function without a timeout always
goes on. -/
def retries : Option Nat → Option (Option Nat)
  | none => some none
  | some tries => if decrement tries > 0 then some (some (decrement tries)) else none

variable [DecidableEq ν]

/-- One access of a push: the next program point, or whether it succeeded. -/
def pushStep (m : Memory ν) : PushPc ν → Memory ν × (PushPc ν ⊕ Bool)
  | .readHead n tries => (m, .inl (.writeNext n m.head tries))
  | .writeNext n head tries =>
      ({ m with next := Function.update m.next n head }, .inl (.swapHead n head tries))
  | .swapHead n head tries =>
      if m.head = head then
        ({ m with
            head := some n
            since := n :: m.since
            pushes := Function.update m.pushes n (m.pushes n + 1) }, .inr true)
      else
        -- The CAS has failed: the attempt counts, whoever has moved the head.
        match retries tries with
        | some tries' => (m, .inl (.readHead n tries'))
        | none => (m, .inr false)

def PushPc.node : PushPc ν → ν
  | .readHead n _ => n
  | .writeNext n _ _ => n
  | .swapHead n _ _ => n

/-- The head of the loop in `mpmc_stack_reverse`. -/
def reverse (head fifo : Option ν) (batch : List ν) : FlushPc ν ⊕ FlushResult ν :=
  match head with
  | some h => .inl (.readNext h fifo batch)
  | none => .inr (.success .fifo fifo batch)

/-- A flush has got the chain at `head`. -/
def flushed (order : Order) (head : Option ν) (batch : List ν) : FlushPc ν ⊕ FlushResult ν :=
  match order with
  | .lifo => .inr (.success .lifo head batch)
  | .fifo => reverse head none batch

/-- One access of a flush: the next program point, or the result. -/
def flushStep (m : Memory ν) : FlushPc ν → Memory ν × (FlushPc ν ⊕ FlushResult ν)
  -- No comparison: the whole chain is taken whatever the head is.
  | .exchange order =>
      ({ m with head := none, since := [] }, flushed order m.head m.since)
  | .readHead order tries => (m, .inl (.swapHead order m.head tries))
  -- Nodes may have been taken and pushed again since `readHead`; the chain from the
  -- same head is then another one, and it is that one which the flush gets.
  | .swapHead order head tries =>
      if m.head = head then
        ({ m with head := none, since := [] }, flushed order head m.since)
      else
        match retries tries with
        | some tries' => (m, .inl (.readHead order tries'))
        | none => (m, .inr (.retry order))
  | .readNext head fifo batch => (m, .inl (.writeNext head (m.next head) fifo batch))
  | .writeNext head next fifo batch =>
      ({ m with next := Function.update m.next head fifo }, reverse next (some head) batch)

/-- The start of a flush; `xchg` is whether `FIBER_XCHG_POINTER` is defined. -/
def flushStart (xchg : Bool) (order : Order) (tries : Option Nat) : FlushPc ν ⊕ FlushResult ν :=
  -- `while(tries > 0)` is entered only with attempts left.
  if tries = some 0 then .inr (.retry order)
  else if xchg then .inl (.exchange order)
  else .inl (.readHead order tries)

/-- A client takes the first node off a flushed chain. -/
def take (m : Memory ν) (n : ν) : Memory ν :=
  { m with
    chains := (m.next n).toList ++ m.chains.erase n
    owned := Function.update m.owned n true
    taken := Function.update m.taken n (m.taken n + 1) }

def exec (xchg : Bool) (_t : ι) (c : Choice ν) (m : Memory ν) : Pc ν → Option (Memory ν × Pc ν)
  | .idle =>
      match c with
      -- `do … while`: a push with timeout `0` still makes one attempt.
      | .push n tries =>
          if m.owned n then
            some ({ m with owned := Function.update m.owned n false }, .push (.readHead n tries))
          else none
      | .flush order tries => some (m, (flushStart xchg order tries).elim .flush .flushRet)
      | .take n => if n ∈ m.chains then some (take m n, .idle) else none
      | .write n next =>
          if m.owned n then some ({ m with next := Function.update m.next n next }, .idle)
          else none
      | .step => none
  | .push pc =>
      let r := pushStep m pc
      some (r.1, r.2.elim .push (.pushRet pc.node))
  | .pushRet n success =>
      -- After `MPMC_RETRY` the node is the caller's again.
      if success then some (m, .idle)
      else some ({ m with owned := Function.update m.owned n true }, .idle)
  | .flush pc =>
      let r := flushStep m pc
      some (r.1, r.2.elim .flush .flushRet)
  | .flushRet (.retry _) => some (m, .idle)
  | .flushRet (.success _ out _) => some ({ m with chains := out.toList ++ m.chains }, .idle)

/-- The interleavings of any number of threads on one stack. -/
def stackProgram (xchg : Bool) : Program ι (Choice ν) (Memory ν) (Pc ν) := ⟨exec xchg⟩

omit [DecidableEq ν]

/-- After `mpmc_stack_init`: nothing has been pushed, and every thread is
between calls. -/
def Init (s : Config ι (Memory ν) (Pc ν)) : Prop :=
  s.mem.head = none ∧ s.mem.chains = [] ∧ s.mem.since = [] ∧ (∀ n, s.mem.pushes n = 0) ∧
    (∀ n, s.mem.taken n = 0) ∧ ∀ t, s.loc t = .idle

/-- The state `mpmc_stack_init` leaves, with all nodes in the hands of clients. -/
def initial : Config ι (Memory ν) (Pc ν) where
  mem :=
    { head := none
      next := fun _ => none
      owned := fun _ => true
      chains := []
      since := []
      pushes := fun _ => 0
      taken := fun _ => 0 }
  loc _ := .idle

theorem init_initial : Init (initial : Config ι (Memory ν) (Pc ν)) :=
  ⟨rfl, rfl, rfl, fun _ => rfl, fun _ => rfl, fun _ => rfl⟩

/-! ## Where chains start -/

/-- The chain that a flush has still to reverse, or returns. -/
def Pc.front : Pc ν → Option ν
  | .flush (.readNext head _ _) => some head
  | .flush (.writeNext head _ _ _) => some head
  | .flushRet (.success _ out _) => out
  | _ => none

/-- The chain that `mpmc_stack_reverse` has built so far. -/
def Pc.reversed : Pc ν → Option ν
  | .flush (.readNext _ fifo _) => fifo
  | .flush (.writeNext _ _ fifo _) => fifo
  | _ => none

/-- Inside the loop of `mpmc_stack_reverse`. -/
def Pc.reverses : Pc ν → Prop
  | .flush (.readNext ..) => True
  | .flush (.writeNext ..) => True
  | _ => False

/-- The nodes that a flush has got. -/
def Pc.batch : Pc ν → List ν
  | .flush (.readNext _ _ batch) => batch
  | .flush (.writeNext _ _ _ batch) => batch
  | .flushRet (.success _ _ batch) => batch
  | _ => []

end FibConcurrent.MpmcStack
