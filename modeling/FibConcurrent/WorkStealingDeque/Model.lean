import FibConcurrent.Data.Deque
import FibConcurrent.Machine.StoreBuffer

/-!
# WorkStealingDeque — the model of `work_stealing_deque.c`

The owner pushes and pops at `bottom` without a read-modify-write, except for
the last element; thieves take from `top` with a CAS. The program is a `Text`,
so that it runs on a sequentially consistent memory and on the store buffers of
x86; the barriers are what `machine_specific.h` makes of them.

A `wsd_circular_array_t` is named by its `log_size`, from which its constant
fields follow: a grown array is one larger than the array it replaces and every
array that is created is put in place, so no two have the same size. Old arrays
are kept. The counters are integers (an `int64_t` does not overflow in fewer
than `2 ^ 63` operations).

`WSD_EMPTY` and `WSD_ABORT` are constructors of the result and thereby differ
from every element.
-/

namespace FibConcurrent.WorkStealingDeque

open FibConcurrent.Machine FibConcurrent.Data

variable {ι α : Type*}

/-- `wsd_work_stealing_deque_t`, and the slots of all arrays by `log_size`. -/
structure Memory (α : Type*) where
  top : Int
  bottom : Int
  underlyingArray : Nat
  data : Nat → Nat → α

/-- `size_minus_one` of an array. -/
def sizeMinusOne (logSize : Nat) : Int := 2 ^ logSize - 1

def Memory.setTop (m : Memory α) (t : Int) : Memory α := { m with top := t }

/-- `wsd_circular_array_get`. -/
def Memory.get (m : Memory α) (a : Nat) (i : Int) : α := m.data a (cell a i)

/-- The plain stores of the code: to `bottom`, to `underlying_array`, and
`wsd_circular_array_put`. -/
inductive Store (α : Type*) where
  | bottom (b : Int)
  | underlyingArray (a : Nat)
  | put (a : Nat) (i : Int) (p : α)
deriving DecidableEq

def write : Store α → Memory α → Memory α
  | .bottom b, m => { m with bottom := b }
  | .underlyingArray a, m => { m with underlyingArray := a }
  | .put a i p, m =>
      { m with data := Function.update m.data a (Function.update (m.data a) (cell a i) p) }

abbrev Step (α ℓ : Type*) : Type _ := Access (Memory α) (Store α) (DequeOp α) ℓ

/-! ## Barriers -/

/-- The architectures that `machine_specific.h` knows. -/
inductive Arch where
  | x86
  | x86_64

/-- Nothing but a compiler barrier on either architecture. -/
def writeBarrier {ℓ : Type*} (l : ℓ) : Step α ℓ := .skip l

/-- Nothing but a compiler barrier on either architecture. -/
def loadLoadBarrier {ℓ : Type*} (l : ℓ) : Step α ℓ := .skip l

/-- `lock; addl` for `ARCH_x86`; the branch for `ARCH_x86_64` is empty. -/
def storeLoadBarrier {ℓ : Type*} (arch : Arch) (l : ℓ) : Step α ℓ :=
  match arch with
  | .x86 => .fence l
  | .x86_64 => .skip l

/-! ## Program points -/

/-- Program points of `wsd_circular_array_grow`, which copies the indices from
`i` to `stop`. -/
inductive GrowPc (α : Type*) where
  | create (a : Nat) (start stop : Int)
  | get (a newA : Nat) (i stop : Int)
  | put (a newA : Nat) (i stop : Int) (p : α)
deriving DecidableEq

/-- Program points of `wsd_work_stealing_deque_push_bottom` and
`wsd_work_stealing_deque_push_bottom_autogrow`. -/
inductive PushPc (α : Type*) where
  | readBottom
  | readTop (b : Int)
  | readArray (b t : Int)
  | grow (b : Int) (pc : GrowPc α)
  | readOld (b : Int) (a : Nat)
  | writeArray (b : Int) (a old : Nat)
  | put (b : Int) (a : Nat) (old : Option Nat)
  | barrier (b : Int) (old : Option Nat)
  | writeBottom (b : Int) (old : Option Nat)
deriving DecidableEq

/-- Program points of `wsd_work_stealing_grow`. -/
inductive GrowDequePc (α : Type*) where
  | readBottom
  | readTop (b : Int)
  | readArray (b t : Int)
  | readOld (b t : Int)
  | readSource (b t : Int) (old : Nat)
  | grow (old : Nat) (pc : GrowPc α)
  | writeArray (a old : Nat)
deriving DecidableEq

/-- What `wsd_work_stealing_deque_pop_bottom` and
`wsd_work_stealing_deque_steal` return. -/
inductive TakeResult (α : Type*) where
  | empty
  | abort
  | success (ret : α)
deriving DecidableEq

/-- Program points of `wsd_work_stealing_deque_pop_bottom`; `settle` is the
store to `bottom` before each return but one. -/
inductive PopPc (α : Type*) where
  | readBottom
  | readArray (b : Int)
  | writeBottom (b : Int) (a : Nat)
  | barrier (b : Int) (a : Nat)
  | readTop (b : Int) (a : Nat)
  | get (b : Int) (a : Nat) (t : Int)
  | swapTop (t : Int) (ret : α)
  | settle (b : Int) (result : TakeResult α)
deriving DecidableEq

/-- Program points of `wsd_work_stealing_deque_steal`. -/
inductive StealPc (α : Type*) where
  | readTop
  | barrier (t : Int)
  | readBottom (t : Int)
  | readArray (t b : Int)
  | get (t : Int) (a : Nat)
  | swapTop (t : Int) (ret : α)
deriving DecidableEq

/-- -1, or 0 together with the replaced array. -/
inductive PushResult where
  | failed
  | pushed (old : Option Nat)
deriving DecidableEq

/-- `WSD_ABORT` (no need to grow), `NULL`, or the replaced array. -/
inductive GrowResult where
  | abort
  | null
  | grown (old : Nat)
deriving DecidableEq

inductive Pc (α : Type*) where
  | idle
  | push (autogrow : Bool) (p : α) (pc : PushPc α)
  | pushRet (result : PushResult)
  | grow (pc : GrowDequePc α)
  | growRet (result : GrowResult)
  | pop (pc : PopPc α)
  | popRet (result : TakeResult α)
  | steal (pc : StealPc α)
  | stealRet (result : TakeResult α)
deriving DecidableEq

/-- What a thread decides to do next, and whether a `malloc` fails. -/
inductive Choice (α : Type*) where
  | push (autogrow : Bool) (p : α)
  | grow
  | pop
  | steal
  | step
  | mallocFails

def Choice.malloc : Choice α → Bool
  | .mallocFails => false
  | _ => true

/-! ## Accesses -/

/-- The head of the copying loop. -/
def copyFrom (a newA : Nat) (i stop : Int) : GrowPc α ⊕ Option Nat :=
  if i < stop then .inl (.get a newA i stop) else .inr (some newA)

/-- One access of `wsd_circular_array_grow`: the next program point, or the new
array. `1 << log_size` is an `int`: from `log_size` 31 on there is no memory
for the array. -/
def growStep (malloc : Bool) : GrowPc α → Step α (GrowPc α ⊕ Option Nat)
  | .create a start stop =>
      .skip (if malloc && a + 1 < 31 then copyFrom a (a + 1) start stop else .inr none)
  | .get a newA i stop => .load fun m => (.inl (.put a newA i stop (m.get a i)), [])
  | .put a newA i stop p => .store (.put newA i p) (copyFrom a newA (i + 1) stop) []

/-- One access of a push: the next program point, or the result. -/
def pushStep (malloc autogrow : Bool) (p : α) : PushPc α → Step α (PushPc α ⊕ PushResult)
  | .readBottom => .load fun m => (.inl (.readTop m.bottom), [])
  | .readTop b => .load fun m => (.inl (.readArray b m.top), [])
  | .readArray b t => .load fun m =>
      let a := m.underlyingArray
      (if b - t ≥ sizeMinusOne a then
        if autogrow then .inl (.grow b (.create a t b)) else .inr .failed
      else .inl (.put b a none), [])
  | .grow b pc => (growStep malloc pc).map fun
      | .inl pc' => .inl (.grow b pc')
      | .inr none => .inr .failed
      | .inr (some a) => .inl (.readOld b a)
  | .readOld b a => .load fun m => (.inl (.writeArray b a m.underlyingArray), [])
  | .writeArray b a old => .store (.underlyingArray a) (.inl (.put b a (some old))) []
  | .put b a old => .store (.put a b p) (.inl (.barrier b old)) []
  | .barrier b old => writeBarrier (.inl (.writeBottom b old))
  | .writeBottom b old => .store (.bottom (b + 1)) (.inr (.pushed old)) [.push p]

/-- One access of `wsd_work_stealing_grow`. Its size comparison is unsigned. -/
def growDequeStep (malloc : Bool) : GrowDequePc α → Step α (GrowDequePc α ⊕ GrowResult)
  | .readBottom => .load fun m => (.inl (.readTop m.bottom), [])
  | .readTop b => .load fun m => (.inl (.readArray b m.top), [])
  | .readArray b t => .load fun m =>
      (if (b - t) % 2 ^ 64 ≥ sizeMinusOne m.underlyingArray then .inl (.readOld b t)
      else .inr .abort, [])
  | .readOld b t => .load fun m => (.inl (.readSource b t m.underlyingArray), [])
  | .readSource b t old => .load fun m => (.inl (.grow old (.create m.underlyingArray t b)), [])
  | .grow old pc => (growStep malloc pc).map fun
      | .inl pc' => .inl (.grow old pc')
      | .inr none => .inr .null
      | .inr (some a) => .inl (.writeArray a old)
  | .writeArray a old => .store (.underlyingArray a) (.inr (.grown old)) []

/-- One access of `wsd_work_stealing_deque_pop_bottom`. -/
def popStep [DecidableEq α] (arch : Arch) : PopPc α → Step α (PopPc α ⊕ TakeResult α)
  | .readBottom => .load fun m => (.inl (.readArray (m.bottom - 1)), [])
  | .readArray b => .load fun m => (.inl (.writeBottom b m.underlyingArray), [])
  | .writeBottom b a => .store (.bottom b) (.inl (.barrier b a)) []
  | .barrier b a => storeLoadBarrier arch (.inl (.readTop b a))
  | .readTop b a => .load fun m =>
      (if b - m.top < 0 then .inl (.settle m.top .empty) else .inl (.get b a m.top), [])
  | .get b a t => .load fun m =>
      let ret := m.get a b
      if b - t > 0 then (.inr (.success ret), [.pop ret]) else (.inl (.swapTop t ret), [])
  | .swapTop t ret => .rmw fun m =>
      if m.top = t then (m.setTop (t + 1), .inl (.settle (t + 1) (.success ret)), [.pop ret])
      else (m, .inl (.settle (t + 1) .abort), [])
  | .settle b result => .store (.bottom b) (.inr result) []

/-- One access of `wsd_work_stealing_deque_steal`. -/
def stealStep : StealPc α → Step α (StealPc α ⊕ TakeResult α)
  | .readTop => .load fun m => (.inl (.barrier m.top), [])
  | .barrier t => loadLoadBarrier (.inl (.readBottom t))
  | .readBottom t => .load fun m => (.inl (.readArray t m.bottom), [])
  | .readArray t b => .load fun m =>
      (if b - t ≤ 0 then .inr .empty else .inl (.get t m.underlyingArray), [])
  | .get t a => .load fun m => (.inl (.swapTop t (m.get a t)), [])
  | .swapTop t ret => .rmw fun m =>
      if m.top = t then (m.setTop (t + 1), .inr (.success ret), [.steal ret])
      else (m, .inr .abort, [])

variable [DecidableEq ι] [DecidableEq α]

/-- `owner` pushes, grows and pops; every other thread steals. -/
def access (arch : Arch) (owner t : ι) (c : Choice α) : Pc α → Option (Step α (Pc α))
  | .idle =>
      match c with
      | .push autogrow p => if t = owner then some (.skip (.push autogrow p .readBottom)) else none
      | .grow => if t = owner then some (.skip (.grow .readBottom)) else none
      | .pop => if t = owner then some (.skip (.pop .readBottom)) else none
      | .steal => if t = owner then none else some (.skip (.steal .readTop))
      | _ => none
  | .push autogrow p pc => some ((pushStep c.malloc autogrow p pc).map
      (Sum.elim (.push autogrow p) .pushRet))
  | .grow pc => some ((growDequeStep c.malloc pc).map (Sum.elim .grow .growRet))
  | .pop pc => some ((popStep arch pc).map (Sum.elim .pop .popRet))
  | .steal pc => some ((stealStep pc).map (Sum.elim .steal .stealRet))
  | .pushRet _ => some (.skip .idle)
  | .growRet _ => some (.skip .idle)
  | .popRet _ => some (.skip .idle)
  | .stealRet _ => some (.skip .idle)

def dequeText (arch : Arch) (owner : ι) :
    Text ι (Choice α) (Memory α) (Store α) (DequeOp α) (Pc α) where
  write := write
  access := access arch owner

/-- After `wsd_work_stealing_deque_create(log_size)`, which raises `log_size` to
at least 8; the slots are as malloc returned them. -/
def created (logSize : Nat) (garbage : Nat → Nat → α) : Memory α where
  top := 0
  bottom := 0
  underlyingArray := max logSize 8
  data := garbage

/-- The deque has been created and every thread is between calls. -/
def InitSc (s : Config ι (Shared (Memory α) (DequeOp α)) (Pc α)) : Prop :=
  (∃ logSize garbage, logSize < 31 ∧ s.mem = ⟨created logSize garbage, []⟩) ∧
    ∀ t, s.loc t = .idle

def InitTso (s : Config ι (Buffered ι (Memory α) (Store α) (DequeOp α)) (Pc α)) : Prop :=
  (∃ logSize garbage, logSize < 31 ∧ s.mem = ⟨created logSize garbage, fun _ => [], []⟩) ∧
    ∀ t, s.loc t = .idle

def Pc.readsTop : Pc α → Bool
  | .pop (.readTop _ _) => true
  | _ => false

/-- A pop that loads `top` finds its own store buffer empty. (A step that
changes a buffer is no load.) -/
def Drained (t : ι) (m : Buffered ι (Memory α) (Store α) (DequeOp α)) (pc : Pc α)
    (m' : Buffered ι (Memory α) (Store α) (DequeOp α)) : Prop :=
  pc.readsTop = true → m'.buf t = m.buf t → m.buf t = []

instance (t : ι) (m : Buffered ι (Memory α) (Store α) (DequeOp α)) (pc : Pc α)
    (m' : Buffered ι (Memory α) (Store α) (DequeOp α)) : Decidable (Drained t m pc m') :=
  inferInstanceAs (Decidable (pc.readsTop = true → m'.buf t = m.buf t → m.buf t = []))

end FibConcurrent.WorkStealingDeque
