import FibConcurrent.HazardPointer.Model

/-!
# MpmcFifo — the model of `mpmc_fifo.h`

The fifo is a chain of nodes from `head` (a dummy whose value has already been
handed out) to `tail`, linked by `prev`. A push swings `tail` first and writes
the `prev` link of the old tail afterwards; a pop swings `head` to the node
behind it and retires the old head. The hazard pointers are those of
`HazardPointer`, with two slots for each thread.

A node belongs to its client until it is passed to a push, and again from its
`gc_function` on: `given` counts how often it was passed to the fifo (as
`new_node`, or once as the `initial_node`), and it may be passed again as soon
as `gc_function` has been called as often. `pushed` are the values of the nodes
in the order of the CAS on `tail`, `popped` what the pops return in the order of
the CAS on `head`.
-/

namespace FibConcurrent.MpmcFifo

open FibConcurrent.Machine

variable {ι ν α : Type*}

/-- `MPMC_HAZARD_COUNT`. -/
def hazardCount : Nat := 2

/-- `mpmc_fifo_t`, the fields of all nodes, the hazard records, and the
histories. -/
structure Memory (ι ν α : Type*) where
  head : ν
  tail : ν
  value : ν → α
  prev : ν → Option ν
  next : ν → Option ν
  hazard : HazardPointer.Memory ι ν
  given : ν → Nat
  pushed : List α
  popped : List α

/-- Program points of `mpmc_fifo_push`. -/
inductive PushPc (ν : Type*) where
  | clearPrev (newNode : ν)
  | readTail (newNode : ν)
  | useTail (newNode tail : ν)
  | checkTail (newNode tail : ν)
  | writeNext (newNode tail : ν)
  | swapTail (newNode tail : ν)
  | linkPrev (newNode tail : ν)
  | doneUsing
deriving DecidableEq

/-- Program points of `mpmc_fifo_trypop`; `reclaim` is the rest of
`hazard_pointer_free`. -/
inductive PopPc (ι ν α : Type*) where
  | readHead
  | useHead (head : ν)
  | checkHead (head : ν)
  | readPrev (head : ν)
  | doneEmpty
  | usePrev (head prev : ν)
  | checkPrev (head prev : ν)
  | readValue (head prev : ν)
  | swapHead (head prev : ν) (ret : α)
  | doneHead (head : ν) (ret : α)
  | donePrev (head : ν) (ret : α)
  | free (head : ν) (ret : α)
  | reclaim (pc : HazardPointer.Pc ι ν) (ret : α)
deriving DecidableEq

/-- Outside the fifo (between calls, or in a call of the hazard pointers),
inside a push or a pop, or about to return from a pop. -/
inductive Pc (ι ν α : Type*) where
  | hazard (pc : HazardPointer.Pc ι ν)
  | push (pc : PushPc ν)
  | pop (pc : PopPc ι ν α)
  | popRet (ret : Option α)
deriving DecidableEq

/-- What a thread decides to do next. -/
inductive Choice (ν α : Type*) where
  | create
  | push (newNode : ν) (value : α)
  | trypop
  | scan
  | step

def Choice.hazard : Choice ν α → HazardPointer.Choice ν
  | .create => .create
  | .scan => .scan
  | _ => .step

variable [DecidableEq ι] [LinearOrder ν] (t : ι)

/-- One access of `mpmc_fifo_push`; no next program point means it returned. -/
def pushStep (m : Memory ι ν α) : PushPc ν → Memory ι ν α × Option (PushPc ν)
  | .clearPrev newNode =>
      ({ m with prev := Function.update m.prev newNode none }, some (.readTail newNode))
  | .readTail newNode => (m, some (.useTail newNode m.tail))
  | .useTail newNode tail =>
      ({ m with hazard := HazardPointer.usingSlot t m.hazard tail 0 },
        some (.checkTail newNode tail))
  -- `continue` when the tail has switched: slot 0 keeps the old node until it is
  -- filled again.
  | .checkTail newNode tail =>
      if tail = m.tail then
        ({ m with hazard := HazardPointer.markChecked t m.hazard 0 },
          some (.writeNext newNode tail))
      else (m, some (.readTail newNode))
  | .writeNext newNode tail =>
      ({ m with next := Function.update m.next newNode (some tail) },
        some (.swapTail newNode tail))
  -- The push takes effect here; the node before it is linked only afterwards, and
  -- is still held by slot 0.
  | .swapTail newNode tail =>
      if m.tail = tail then
        ({ m with tail := newNode, pushed := m.pushed ++ [m.value newNode] },
          some (.linkPrev newNode tail))
      else (m, some (.readTail newNode))
  | .linkPrev newNode tail =>
      ({ m with prev := Function.update m.prev tail (some newNode) }, some .doneUsing)
  | .doneUsing => ({ m with hazard := HazardPointer.doneUsing t m.hazard 0 }, none)

/-- One access of `mpmc_fifo_trypop`: the next program point, or the result. -/
def popStep (m : Memory ι ν α) : PopPc ι ν α → Option (Memory ι ν α × (PopPc ι ν α ⊕ Option α))
  | .readHead => some (m, .inl (.useHead m.head))
  | .useHead head =>
      some ({ m with hazard := HazardPointer.usingSlot t m.hazard head 0 }, .inl (.checkHead head))
  | .checkHead head =>
      if head = m.head then
        some ({ m with hazard := HazardPointer.markChecked t m.hazard 0 }, .inl (.readPrev head))
      else some (m, .inl .readHead)
  -- An unlinked node also reads as the end: the fifo may be empty only for now.
  | .readPrev head =>
      match m.prev head with
      | some prev => some (m, .inl (.usePrev head prev))
      | none => some (m, .inl .doneEmpty)
  | .doneEmpty => some ({ m with hazard := HazardPointer.doneUsing t m.hazard 0 }, .inr none)
  | .usePrev head prev =>
      some ({ m with hazard := HazardPointer.usingSlot t m.hazard prev 1 },
        .inl (.checkPrev head prev))
  -- `continue` leaves both slots filled.
  | .checkPrev head prev =>
      if head = m.head then
        some ({ m with hazard := HazardPointer.markChecked t m.hazard 1 },
          .inl (.readValue head prev))
      else some (m, .inl .readHead)
  -- `prev` becomes the dummy, so its value is read before the swap.
  | .readValue head prev => some (m, .inl (.swapHead head prev (m.value prev)))
  | .swapHead head prev ret =>
      if m.head = head then
        some ({ m with head := prev, popped := m.popped ++ [ret] }, .inl (.doneHead head ret))
      else some (m, .inl .readHead)
  | .doneHead head ret =>
      some ({ m with hazard := HazardPointer.doneUsing t m.hazard 0 }, .inl (.donePrev head ret))
  | .donePrev head ret =>
      some ({ m with hazard := HazardPointer.doneUsing t m.hazard 1 }, .inl (.free head ret))
  | .free head ret =>
      some ({ m with hazard := HazardPointer.retire t m.hazard head },
        .inl (.reclaim .readThreshold ret))
  -- `hazard_pointer_free` compares the counts, and scans, before the pop returns.
  | .reclaim pc ret =>
      (HazardPointer.exec hazardCount t .step m.hazard pc).map fun r =>
        ({ m with hazard := r.1 },
          if r.2 = .idle then .inr (some ret) else .inl (.reclaim r.2 ret))

/-- A client fills in the value of a node of its own and passes it to a push. -/
def give (m : Memory ι ν α) (newNode : ν) (value : α) : Memory ι ν α :=
  { m with
    value := Function.update m.value newNode value
    given := Function.update m.given newNode (m.given newNode + 1) }

def exec (c : Choice ν α) (m : Memory ι ν α) : Pc ι ν α → Option (Memory ι ν α × Pc ι ν α)
  | .hazard .idle =>
      match c with
      -- A node is pushed again only after the fifo has given it back to its client.
      | .push newNode value =>
          if m.given newNode = m.hazard.gced newNode then
            some (give m newNode value, .push (.clearPrev newNode))
          else none
      | .trypop => some (m, .pop .readHead)
      | .scan => some (m, .hazard (.scan .readHead))
      | _ => none
  | .hazard pc =>
      (HazardPointer.exec hazardCount t c.hazard m.hazard pc).map fun r =>
        ({ m with hazard := r.1 }, .hazard r.2)
  | .push pc =>
      let r := pushStep t m pc
      some (r.1, r.2.elim (.hazard .idle) .push)
  | .pop pc => (popStep t m pc).map fun r => (r.1, Sum.elim .pop .popRet r.2)
  | .popRet _ => some (m, .hazard .idle)

/-- The interleavings of any number of threads. -/
def fifoProgram : Program ι (Choice ν α) (Memory ι ν α) (Pc ι ν α) := ⟨exec⟩

/-- After `mpmc_fifo_init`, before any record has been created. -/
def Init (s : Config ι (Memory ι ν α) (Pc ι ν α)) : Prop :=
  s.mem.tail = s.mem.head ∧ s.mem.prev s.mem.head = none ∧ s.mem.next s.mem.head = none ∧
    s.mem.hazard = HazardPointer.initialMemory ∧
    s.mem.given = Function.update (fun _ => 0) s.mem.head 1 ∧
    s.mem.pushed = [] ∧ s.mem.popped = [] ∧ ∀ t, s.loc t = .hazard .unregistered

/-- The state `mpmc_fifo_init` leaves, with `dummy` the `initial_node`. -/
def initial (dummy : ν) (null : α) : Config ι (Memory ι ν α) (Pc ι ν α) where
  mem :=
    { head := dummy
      tail := dummy
      value := fun _ => null
      prev := fun _ => none
      next := fun _ => none
      hazard := HazardPointer.initialMemory
      given := Function.update (fun _ => 0) dummy 1
      pushed := []
      popped := [] }
  loc _ := .hazard .unregistered

omit [DecidableEq ι] in
theorem init_initial (dummy : ν) (null : α) :
    Init (initial dummy null : Config ι (Memory ι ν α) (Pc ι ν α)) :=
  ⟨rfl, rfl, rfl, rfl, rfl, rfl, rfl, fun _ => rfl⟩

/-! ## Which nodes a thread is at -/

omit [DecidableEq ι] [LinearOrder ν]

/-- The node that a scan is about to move or reclaim. -/
def scanned : HazardPointer.Pc ι ν → List ν
  | .scan (.process _ (node :: _)) => [node]
  | _ => []

/-- The nodes whose fields the next access reads or writes. -/
def Pc.accesses : Pc ι ν α → List ν
  | .hazard pc => scanned pc
  | .push (.clearPrev newNode) => [newNode]
  | .push (.writeNext newNode _) => [newNode]
  | .push (.linkPrev _ tail) => [tail]
  | .pop (.readPrev head) => [head]
  | .pop (.readValue _ prev) => [prev]
  | .pop (.free head _) => [head]
  | .pop (.reclaim pc _) => scanned pc
  | _ => []

/-- The nodes that the call has found in use after it filled a slot. -/
def Pc.validated : Pc ι ν α → List ν
  | .push (.writeNext _ tail) => [tail]
  | .push (.swapTail _ tail) => [tail]
  | .push (.linkPrev _ tail) => [tail]
  | .pop (.readPrev head) => [head]
  | .pop (.usePrev head _) => [head]
  | .pop (.checkPrev head _) => [head]
  | .pop (.readValue head prev) => [head, prev]
  | .pop (.swapHead head prev _) => [head, prev]
  | .pop (.doneHead head _) => [head]
  | .pop (.donePrev head _) => [head]
  | .pop (.free head _) => [head]
  | _ => []

end FibConcurrent.MpmcFifo
