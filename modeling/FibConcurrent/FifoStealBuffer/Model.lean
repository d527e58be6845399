import FibConcurrent.Data.Ring
import FibConcurrent.Machine.Program

/-!
# FifoStealBuffer — the model of `fifo_steal_buffer.h`

A ring whose master thread pushes without synchronisation and pops with one
fetch-and-add on `low`; other threads steal with a CAS on `low`. A pop may find
that it has added too much, and then sets `low` back to `high`.

The histories: `pushed` are the items whose push returned 1, `claimed` the
indices that operations which will return success have taken, in the order in
which they took them, and `taken` those that have been handed out, with the
item that came with them.
-/

namespace FibConcurrent.FifoStealBuffer

open FibConcurrent.Machine FibConcurrent.Data

variable {ι α : Type*}

/-- `fifo_steal_buffer_t` without its constant fields, and the histories. -/
structure Buffer (α : Type*) where
  high : Nat
  low : Nat
  buffer : Nat → α
  pushed : List α
  claimed : List Nat
  taken : List (Nat × α)

/-- Program points of `fifo_steal_buffer_push`. -/
inductive PushPc (α : Type*) where
  | readHigh (data : α)
  | readLow (data : α) (high : Nat)
  | writeSlot (data : α) (high : Nat)
  | writeHigh (data : α) (high : Nat)
deriving DecidableEq

/-- Program points of `fifo_steal_buffer_pop`. -/
inductive PopPc where
  | readHigh
  | readLow (high : Nat)
  | addLow (high : Nat)
  | writeLow (high : Nat)
  | readSlot (newLow : Nat)
deriving DecidableEq

/-- Program points of `fifo_steal_buffer_steal`. -/
inductive StealPc (α : Type*) where
  | readHigh
  | readLow (high : Nat)
  | readSlot (low : Nat)
  | swapLow (low : Nat) (out : α)
deriving DecidableEq

inductive StealResult (α : Type*) where
  | empty
  | abort
  | success (out : α)
deriving DecidableEq

inductive Pc (α : Type*) where
  | idle
  | push (pc : PushPc α)
  | pushRet (stored : Bool)
  | pop (pc : PopPc)
  | popRet (out : Option α)
  | steal (pc : StealPc α)
  | stealRet (result : StealResult α)
deriving DecidableEq

/-- What a thread decides to do next. -/
inductive Choice (α : Type*) where
  | push (data : α)
  | pop
  | steal
  | step

variable (c : Capacity)

/-- One access of `fifo_steal_buffer_push`: the next program point, or the
result. -/
def pushStep (m : Buffer α) : PushPc α → Buffer α × (PushPc α ⊕ Bool)
  | .readHigh data => (m, .inl (.readLow data m.high))
  | .readLow data high =>
      -- `high - low` in `uint64_t`: a `low` that has run past `high` reads as full.
      if wrapSub high m.low < c.size then (m, .inl (.writeSlot data high)) else (m, .inr false)
  | .writeSlot data high =>
      ({ m with buffer := Function.update m.buffer (c.slot high) data },
        .inl (.writeHigh data high))
  | .writeHigh data high =>
      ({ m with high := (high + 1) % 2 ^ 64, pushed := m.pushed ++ [data] }, .inr true)

/-- One access of `fifo_steal_buffer_pop`: the next program point, or the
result. -/
def popStep (m : Buffer α) : PopPc → Buffer α × (PopPc ⊕ Option α)
  | .readHigh => (m, .inl (.readLow m.high))
  | .readLow high => if high > m.low then (m, .inl (.addLow high)) else (m, .inr none)
  | .addLow high =>
      let newLow := (m.low + 1) % 2 ^ 64
      -- `fifo->low = high` follows as a plain store; a steal may come in between.
      if newLow ≥ high then ({ m with low := newLow }, .inl (.writeLow high))
      else ({ m with low := newLow, claimed := m.claimed ++ [wrapSub newLow 1] },
        .inl (.readSlot newLow))
  | .writeLow high => ({ m with low := high }, .inr none)
  | .readSlot newLow =>
      -- The item is claimed. The slot is not reused before: only the master pushes.
      let out := m.buffer (c.slot (wrapSub newLow 1))
      ({ m with taken := m.taken ++ [(wrapSub newLow 1, out)] }, .inr (some out))

/-- One access of `fifo_steal_buffer_steal`: the next program point, or the
result. -/
def stealStep (m : Buffer α) : StealPc α → Buffer α × (StealPc α ⊕ StealResult α)
  | .readHigh => (m, .inl (.readLow m.high))
  | .readLow high => if high > m.low then (m, .inl (.readSlot m.low)) else (m, .inr .empty)
  -- Read before the claim: thrown away if the swap fails.
  | .readSlot low => (m, .inl (.swapLow low (m.buffer (c.slot low))))
  | .swapLow low out =>
      if m.low = low then
        ({ m with
            low := (low + 1) % 2 ^ 64
            claimed := m.claimed ++ [low]
            taken := m.taken ++ [(low, out)] }, .inr (.success out))
      else (m, .inr .abort)

variable [DecidableEq ι]

/-- `master` alone may push and pop. -/
def exec (master : ι) (t : ι) (a : Choice α) (m : Buffer α) : Pc α → Option (Buffer α × Pc α)
  | .idle =>
      match a with
      | .push data => if t = master then some (m, .push (.readHigh data)) else none
      | .pop => if t = master then some (m, .pop .readHigh) else none
      | .steal => some (m, .steal .readHigh)
      | .step => none
  | .push pc =>
      let r := pushStep c m pc
      some (r.1, match r.2 with
        | .inl pc' => .push pc'
        | .inr stored => .pushRet stored)
  | .pop pc =>
      let r := popStep c m pc
      some (r.1, match r.2 with
        | .inl pc' => .pop pc'
        | .inr out => .popRet out)
  | .steal pc =>
      let r := stealStep c m pc
      some (r.1, match r.2 with
        | .inl pc' => .steal pc'
        | .inr result => .stealRet result)
  | .pushRet _ => some (m, .idle)
  | .popRet _ => some (m, .idle)
  | .stealRet _ => some (m, .idle)

/-- The interleavings of one master and any number of thieves. -/
def bufferProgram (master : ι) : Program ι (Choice α) (Buffer α) (Pc α) := ⟨exec c master⟩

/-- After `fifo_steal_buffer_init`, which leaves the slots as malloc returned
them; every thread is between calls. -/
def Init (s : Config ι (Buffer α) (Pc α)) : Prop :=
  s.mem.high = 0 ∧ s.mem.low = 0 ∧ s.mem.pushed = [] ∧ s.mem.claimed = [] ∧
    s.mem.taken = [] ∧ ∀ t, s.loc t = .idle

def initial (garbage : α) : Config ι (Buffer α) (Pc α) where
  mem :=
    { high := 0
      low := 0
      buffer := fun _ => garbage
      pushed := []
      claimed := []
      taken := [] }
  loc _ := .idle

/-- The fetch-and-add of a pop comes next. -/
def Pc.addsLow : Pc α → Bool
  | .pop (.addLow _) => true
  | _ => false

/-- No fetch-and-add happens while exactly one item is left, and none wraps
`low` around. -/
def NotLast (_t : ι) (m : Buffer α) (pc : Pc α) (_m' : Buffer α) : Prop :=
  pc.addsLow = true → m.low + 1 ≠ m.high ∧ m.low + 1 < 2 ^ 64

instance (t : ι) (m : Buffer α) (pc : Pc α) (m' : Buffer α) : Decidable (NotLast t m pc m') :=
  inferInstanceAs (Decidable (pc.addsLow = true → m.low + 1 ≠ m.high ∧ m.low + 1 < 2 ^ 64))

end FibConcurrent.FifoStealBuffer
