import FibConcurrent.FifoStealBuffer.Model

/-!
# ShardedFifoStealBuffer — the model of the sharded buffer in `fifo_steal_buffer.h`

An operation on the sharded buffer tries the shards one by one, through the
operations of `fifo_steal_buffer.h` that are modelled in `FifoStealBuffer`: the
pushes and pops from a counter that remembers the shard, the steals from a hint.
A thread may also call an operation on one buffer directly.

The items that are taken go through `*out`, one cell for each thread. A steal
writes it when it reads the slot, before its CAS. The history `before` is what
the cell held when the call began.
-/

namespace FibConcurrent.ShardedFifoStealBuffer

open FibConcurrent.Machine FibConcurrent.Data
open FibConcurrent.FifoStealBuffer (Buffer PushPc PopPc StealPc StealResult pushStep popStep
  stealStep)

variable {ι α : Type*}

/-! ## The loop over the shards of a steal -/

/-- The locals of the loop: `finalRet` is EMPTY or ABORT. -/
structure StealLoop (α : Type*) where
  i : UInt32
  stop : UInt32
  finalRet : StealResult α
deriving DecidableEq

section StealLoop

variable (numShards : UInt32)

/-- Before the loop. -/
def StealLoop.start (hint : UInt32) : StealLoop α where
  i := hint
  -- `uint32_t`: wraps around for a large hint.
  stop := hint + numShards
  finalRet := .empty

/-- The shard to try next, if the loop goes on. -/
def StealLoop.shard (loop : StealLoop α) : Option Nat :=
  if loop.i < loop.stop then some (loop.i % numShards).toNat else none

/-- After a shard from which nothing was stolen. -/
def StealLoop.next (loop : StealLoop α) (ret : StealResult α) : StealLoop α where
  i := loop.i + 1
  stop := loop.stop
  -- One `SHARDED_FIFO_STEAL_BUFFER_ABORT` outweighs every empty shard.
  finalRet := match ret with
    | .abort => .abort
    | _ => loop.finalRet

end StealLoop

/-! ## All operations, one access at a time -/

/-- The shards (and buffers that are used alone), the counters of the master,
every thread's `*out`, and the history. -/
structure Memory (ι α : Type*) where
  shards : Nat → Buffer α
  nextShardPush : UInt32
  nextShardPop : UInt32
  out : ι → α
  before : ι → α

/-- Program points. An operation on one buffer is called directly, or by a loop
whose locals it keeps. -/
inductive Pc (α : Type*) where
  | idle
  | nextPush (data : α) (i : UInt32)
  | push (shard : Nat) (pc : PushPc α) (loop : Option (α × UInt32))
  | nextPop (i : UInt32)
  | pop (shard : Nat) (pc : PopPc) (loop : Option UInt32)
  | nextSteal (loop : StealLoop α)
  | steal (shard : Nat) (pc : StealPc α) (loop : Option (StealLoop α))
  | ret (code : Int)
deriving DecidableEq

/-- What a thread decides to do next. -/
inductive Choice (α : Type*) where
  | assign (value : α)
  | push (shard : Nat) (data : α)
  | pop (shard : Nat)
  | steal (shard : Nat)
  | shardedPush (data : α)
  | shardedPop
  | shardedSteal (hint : UInt32)
  | step

/-- The value that a steal returns. -/
def code : StealResult α → Int
  | .empty => 0
  | .abort => -1
  | .success _ => 1

variable (c : Capacity) (numShards : UInt32)

/-- `sharded_fifo_steal_buffer_next_shard`: the counter's next value. -/
def nextShard (which : UInt32) : UInt32 :=
  if which + 1 ≥ numShards then 0 else which + 1

variable [DecidableEq ι] (t : ι)

def Memory.setShard (m : Memory ι α) (shard : Nat) (b : Buffer α) : Memory ι α :=
  { m with shards := Function.update m.shards shard b }

/-- `*out = value`. -/
def Memory.setOut (m : Memory ι α) (value : α) : Memory ι α :=
  { m with out := Function.update m.out t value }

/-- A call begins. -/
def Memory.call (m : Memory ι α) : Memory ι α :=
  { m with before := Function.update m.before t (m.out t) }

section Memory

variable {t} {u : ι} (m : Memory ι α) (shard : Nat) (b : Buffer α) (value : α)

omit [DecidableEq ι] in
@[simp] theorem Memory.setShard_out : (m.setShard shard b).out = m.out := rfl

omit [DecidableEq ι] in
@[simp] theorem Memory.setShard_before : (m.setShard shard b).before = m.before := rfl

@[simp] theorem Memory.setOut_before : (m.setOut t value).before = m.before := rfl

@[simp] theorem Memory.setOut_self : (m.setOut t value).out t = value :=
  Function.update_self ..

@[simp] theorem Memory.call_out : (m.call t).out = m.out := rfl

@[simp] theorem Memory.call_self : (m.call t).before t = m.out t :=
  Function.update_self ..

theorem Memory.setOut_of_ne (hu : u ≠ t) : (m.setOut t value).out u = m.out u :=
  Function.update_of_ne hu ..

theorem Memory.call_of_ne (hu : u ≠ t) : (m.call t).before u = m.before u :=
  Function.update_of_ne hu ..

end Memory

/-- One access of a pop: `*out` is written when the slot is read. -/
def popAccess (m : Memory ι α) (shard : Nat) (pc : PopPc) (loop : Option UInt32) :
    Memory ι α × Pc α :=
  let r := popStep c (m.shards shard) pc
  let m' := m.setShard shard r.1
  match r.2 with
  | .inl pc' => (m', .pop shard pc' loop)
  | .inr (some value) => (m'.setOut t value, .ret 1)
  -- Alone, the buffer is empty; in the loop, the next shard is tried.
  | .inr none => (m', loop.elim (.ret 0) fun i => .nextPop (i + 1))

/-- One access of a steal: `*out` is written when the slot is read, which is
before the CAS. -/
def stealAccess (m : Memory ι α) (shard : Nat) (pc : StealPc α) (loop : Option (StealLoop α)) :
    Memory ι α × Pc α :=
  let r := stealStep c (m.shards shard) pc
  let m' := m.setShard shard r.1
  match r.2 with
  -- An aborted steal has left its value in `*out`.
  | .inl (.swapLow low value) => (m'.setOut t value, .steal shard (.swapLow low value) loop)
  | .inl pc' => (m', .steal shard pc' loop)
  | .inr (.success _) => (m', .ret 1)
  | .inr ret => (m', loop.elim (.ret (code ret)) fun loop => .nextSteal (loop.next ret))

/-- One access of a push. -/
def pushAccess (m : Memory ι α) (shard : Nat) (pc : PushPc α) (loop : Option (α × UInt32)) :
    Memory ι α × Pc α :=
  let r := pushStep c (m.shards shard) pc
  let m' := m.setShard shard r.1
  match r.2 with
  | .inl pc' => (m', .push shard pc' loop)
  | .inr true => (m', .ret 1)
  | .inr false => (m', loop.elim (.ret 0) fun r => .nextPush r.1 (r.2 + 1))

def exec (a : Choice α) (m : Memory ι α) : Pc α → Option (Memory ι α × Pc α)
  | .idle =>
      match a with
      | .assign value => some (m.setOut t value, .idle)
      | .push shard data => some (m.call t, .push shard (.readHigh data) none)
      | .pop shard => some (m.call t, .pop shard .readHigh none)
      | .steal shard => some (m.call t, .steal shard .readHigh none)
      | .shardedPush data => some (m.call t, .nextPush data 0)
      | .shardedPop => some (m.call t, .nextPop 0)
      | .shardedSteal hint => some (m.call t, .nextSteal (.start numShards hint))
      | .step => none
  | .nextPush data i =>
      if i < numShards then
        some ({ m with nextShardPush := nextShard numShards m.nextShardPush },
          .push m.nextShardPush.toNat (.readHigh data) (some (data, i)))
      else some (m, .ret 0)
  | .push shard pc loop => some (pushAccess c m shard pc loop)
  | .nextPop i =>
      if i < numShards then
        some ({ m with nextShardPop := nextShard numShards m.nextShardPop },
          .pop m.nextShardPop.toNat .readHigh (some i))
      else some (m, .ret 0)
  | .pop shard pc loop => some (popAccess c t m shard pc loop)
  | .nextSteal loop =>
      match loop.shard numShards with
      | some shard => some (m, .steal shard .readHigh (some loop))
      | none => some (m, .ret (code loop.finalRet))
  | .steal shard pc loop => some (stealAccess c t m shard pc loop)
  | .ret _ => some (m, .idle)

/-- The interleavings of any number of threads. -/
def shardedProgram : Program ι (Choice α) (Memory ι α) (Pc α) := ⟨exec c numShards⟩

end FibConcurrent.ShardedFifoStealBuffer
