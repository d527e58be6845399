import FibConcurrent.Data.Ring
import FibConcurrent.Machine.Program

/-!
# LockfreeRingBuffer — the model of `lockfree_ring_buffer.h`

A ring of pointers, null where nothing is stored. `high` counts the pushes and
`low` the pops; a push claims its index with a CAS on `high` and writes the slot
afterwards, a pop claims its index with a CAS on `low` and clears the slot
afterwards. The counters are `uint64_t`.

`pushed` and `popped` are the histories of the values in the order of the
successful swaps. `lockfree_ring_buffer_size` carries how many pops there were
between its two reads.
-/

namespace FibConcurrent.LockfreeRingBuffer

open FibConcurrent.Machine FibConcurrent.Data

variable {ι α : Type*}

/-- `lockfree_ring_buffer_t` without its constant fields, and the histories. -/
structure Ring (α : Type*) where
  high : Nat
  low : Nat
  buffer : Nat → Option α
  pushed : List α
  popped : List α

/-- Program points of `lockfree_ring_buffer_trypush`. -/
inductive PushPc (α : Type*) where
  | readLow (val : α)
  | readHigh (val : α) (low : Nat)
  | readSlot (val : α) (low high : Nat)
  | swapHigh (val : α) (low high : Nat)
  | writeSlot (val : α) (high : Nat)
deriving DecidableEq

/-- Program points of `lockfree_ring_buffer_trypop`. -/
inductive PopPc (α : Type*) where
  | readHigh
  | readLow (high : Nat)
  | readSlot (high low : Nat)
  | swapLow (low : Nat) (ret : α)
  | clearSlot (low : Nat) (ret : α)
deriving DecidableEq

/-- Program points of `lockfree_ring_buffer_size`; `stamp` is the number of
pops there had been at its first read. -/
inductive SizePc where
  | readHigh
  | readLow (high stamp : Nat)
deriving DecidableEq

inductive Pc (α : Type*) where
  | idle
  | push (pc : PushPc α)
  | pushRet (stored : Bool)
  | pop (pc : PopPc α)
  | popRet (val : Option α)
  | size (pc : SizePc)
  | sizeRet (size gap : Nat)
deriving DecidableEq

/-- What a thread decides to do next. -/
inductive Choice (α : Type*) where
  | trypush (val : α)
  | trypop
  | size
  | step

variable (c : Capacity)

/-- `__sync_bool_compare_and_swap` on a counter. -/
def swapCounter (location original : Nat) : Option Nat :=
  if location = original then some ((original + 1) % 2 ^ 64) else none

/-- One access of `lockfree_ring_buffer_trypush`: the next program point, or
the result. -/
def pushStep (m : Ring α) : PushPc α → Ring α × (PushPc α ⊕ Bool)
  | .readLow val => (m, .inl (.readHigh val m.low))
  | .readHigh val low => (m, .inl (.readSlot val low m.high))
  | .readSlot val low high =>
      if m.buffer (c.slot high) = none ∧ wrapSub high low < c.size then
        (m, .inl (.swapHigh val low high))
      else (m, .inr false)
  | .swapHigh val _ high =>
      match swapCounter m.high high with
      | some high' =>
          ({ m with high := high', pushed := m.pushed ++ [val] }, .inl (.writeSlot val high))
      | none => (m, .inr false)
  | .writeSlot val high =>
      ({ m with buffer := Function.update m.buffer (c.slot high) (some val) }, .inr true)

/-- One access of `lockfree_ring_buffer_trypop`: the next program point, or the
result. -/
def popStep (m : Ring α) : PopPc α → Ring α × (PopPc α ⊕ Option α)
  | .readHigh => (m, .inl (.readLow m.high))
  | .readLow high => (m, .inl (.readSlot high m.low))
  | .readSlot high low =>
      match m.buffer (c.slot low) with
      | some ret => if high > low then (m, .inl (.swapLow low ret)) else (m, .inr none)
      | none => (m, .inr none)
  | .swapLow low ret =>
      match swapCounter m.low low with
      | some low' =>
          ({ m with low := low', popped := m.popped ++ [ret] }, .inl (.clearSlot low ret))
      | none => (m, .inr none)
  | .clearSlot low ret =>
      ({ m with buffer := Function.update m.buffer (c.slot low) none }, .inr (some ret))

/-- `(int64_t)(high - low)`, or 0 if that is negative. -/
def clampedSize (high low : Nat) : Nat :=
  if wrapSub high low < 2 ^ 63 then wrapSub high low else 0

/-- One access of `lockfree_ring_buffer_size`: the next program point, or the
result with the number of pops between the two reads. -/
def sizeStep (m : Ring α) : SizePc → SizePc ⊕ Nat × Nat
  | .readHigh => .inl (.readLow m.high m.popped.length)
  | .readLow high stamp => .inr (clampedSize high m.low, m.popped.length - stamp)

/-- Any thread may call any operation. -/
def exec (_t : ι) (a : Choice α) (m : Ring α) : Pc α → Option (Ring α × Pc α)
  | .idle =>
      match a with
      | .trypush val => some (m, .push (.readLow val))
      | .trypop => some (m, .pop .readHigh)
      | .size => some (m, .size .readHigh)
      | .step => none
  | .push pc =>
      let r := pushStep c m pc
      some (r.1, match r.2 with
        | .inl pc' => .push pc'
        | .inr stored => .pushRet stored)
  | .pop pc =>
      let r := popStep c m pc
      some (r.1, match r.2 with
        | .inl pc' => .pop pc'
        | .inr val => .popRet val)
  | .size pc =>
      some (m, match sizeStep m pc with
        | .inl pc' => .size pc'
        | .inr (size, gap) => .sizeRet size gap)
  | .pushRet _ => some (m, .idle)
  | .popRet _ => some (m, .idle)
  | .sizeRet .. => some (m, .idle)

/-- The interleavings of any number of threads on one ring of capacity `c`. -/
def ringProgram : Program ι (Choice α) (Ring α) (Pc α) := ⟨exec c⟩

/-- What `lockfree_ring_buffer_create` returns: a zeroed ring. -/
def create : Ring α := { high := 0, low := 0, buffer := fun _ => none, pushed := [], popped := [] }

/-- A new ring, and every thread between calls. -/
def Init (s : Config ι (Ring α) (Pc α)) : Prop :=
  s.mem = create ∧ ∀ t, s.loc t = .idle

def initial : Config ι (Ring α) (Pc α) := ⟨create, fun _ => .idle⟩

end FibConcurrent.LockfreeRingBuffer
