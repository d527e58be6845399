import FibConcurrent.Machine.Program
import Mathlib.Data.List.Sort

/-!
# HazardPointer — the model of `hazard_pointer.h` and `hazard_pointer.c`

Every thread has one record, named by the thread, with `pointersPerThread`
slots. The records are chained from `head` and never taken out again. A node
that is passed to `hazard_pointer_free` waits in the record's `retired_list`
until a scan finds it in no slot and calls its `gc_function`.

A list stands for the chain of hazard nodes through their `next` fields: only
the thread that retired the nodes follows it. What is private to a thread (its
own `retired_list` and counts, its `plist`, the fields of its record before the
record is linked) is read and written together with the shared access next to
it.

The counts are `size_t` in the code and `Nat` here. A threshold is at most `2 * N * K` for `N`
records of `K` slots, less than the bytes of these slots; `retired_count` counts nodes that are all
in memory; `plist_size` is half of a threshold. So none of them comes to `2 ^ 64`.

The histories: `freed` and `gced` count how often a node was passed to
`hazard_pointer_free` and to its `gc_function`; `checked` marks the slots whose
client has looked, after it filled the slot, and found the node not retired.
-/

namespace FibConcurrent.HazardPointer

open FibConcurrent.Machine

variable {ι ν : Type*}

/-- The fields of all records, the list of records, and the histories. -/
structure Memory (ι ν : Type*) where
  head : Option ι
  next : ι → Option ι
  retireThreshold : ι → Nat
  retiredCount : ι → Nat
  retiredList : ι → List ν
  plistSize : ι → Nat
  hazardPointers : ι → Nat → Option ν
  checked : ι → Nat → Bool
  freed : ν → Nat
  gced : ν → Nat

/-- Program points of `hazard_pointer_thread_record_create_and_push`. -/
inductive CreatePc (ι : Type*) where
  | readHead
  | count (curHead : Option ι) (cur : ι) (threads : Nat)
  | swapHead (curHead : Option ι)
  | addThreshold (cur : ι)
  | readNext (cur : ι)
deriving DecidableEq

/-- Program points of `hazard_pointer_scan`: `process` has detached the nodes
it still has to look up in the sorted `plist`. -/
inductive ScanPc (ι ν : Type*) where
  | readHead
  | readThreshold (head : ι)
  | readSlot (curRecord : ι) (i : Nat) (plist : List ν)
  | readNext (curRecord : ι) (plist : List ν)
  | detach (plist : List ν)
  | process (plist node : List ν)
deriving DecidableEq

/-- A thread has no record, is creating it, is between calls, compares the
counts at the end of `hazard_pointer_free`, or scans. -/
inductive Pc (ι ν : Type*) where
  | unregistered
  | create (pc : CreatePc ι)
  | idle
  | readThreshold
  | scan (pc : ScanPc ι ν)
deriving DecidableEq

/-- What a thread decides to do next. -/
inductive Choice (ν : Type*) where
  | create
  | use (node : ν) (n : Nat)
  | check (n : Nat)
  | doneUsing (n : Nat)
  | free (node : ν)
  | scan
  | step

/-! ## `binary_search` -/

section BinarySearch

variable [LinearOrder ν]

/-- The loop of `binary_search`, for at most `fuel` rounds. -/
def binarySearchLoop (haystack : List ν) (needle : ν) : Nat → Int → Int → Bool
  | 0, _, _ => false
  | fuel + 1, start, stop =>
      if start ≤ stop then
        -- `ssize_t`: `stop` can become -1.
        let middle := (start + stop) / 2
        match haystack[middle.toNat]? with
        | none => false
        | some middleValue =>
            if middleValue > needle then binarySearchLoop haystack needle fuel start (middle - 1)
            else if middleValue < needle then
              binarySearchLoop haystack needle fuel (middle + 1) stop
            else true
      else false

def binarySearch (haystack : List ν) (needle : ν) : Bool :=
  if haystack.length = 0 then false
  else binarySearchLoop haystack needle haystack.length 0 (haystack.length - 1)

/-- `qsort` with `hazard_pointer_compare`. -/
def qsort (plist : List ν) : List ν := plist.insertionSort (· ≤ ·)

end BinarySearch

/-! ## Accesses -/

section Operations

variable [DecidableEq ι] (pointersPerThread : Nat) (t : ι)

/-- One access of the creation of `t`'s record; no next program point means
that it returned. -/
def createStep (m : Memory ι ν) : CreatePc ι → Memory ι ν × Option (CreatePc ι)
  | .readHead =>
      let m' := { m with next := Function.update m.next t m.head }
      match m.head with
      | some cur => (m', some (.count m.head cur 1))
      | none =>
          ({ m' with
            retireThreshold := Function.update m.retireThreshold t (2 * 1 * pointersPerThread) },
            some (.swapHead none))
  -- `for(cur = cur_head; cur; cur = cur->next) ++threads`
  | .count curHead cur threads =>
      match m.next cur with
      | some cur' => (m, some (.count curHead cur' (threads + 1)))
      | none =>
          ({ m with
            retireThreshold :=
              Function.update m.retireThreshold t (2 * (threads + 1) * pointersPerThread) },
            some (.swapHead curHead))
  | .swapHead curHead =>
      -- A failed swap reads the head again and counts anew.
      if m.head = curHead then ({ m with head := some t }, curHead.map .addThreshold)
      else (m, some .readHead)
  -- `__sync_add_and_fetch`, on every record behind the new one.
  | .addThreshold cur =>
      ({ m with
        retireThreshold :=
          Function.update m.retireThreshold cur (m.retireThreshold cur + 2 * pointersPerThread) },
        some (.readNext cur))
  | .readNext cur => (m, (m.next cur).map .addThreshold)

/-- `hazard_pointer_using`. -/
def usingSlot (m : Memory ι ν) (node : ν) (n : Nat) : Memory ι ν :=
  { m with
    hazardPointers :=
      Function.update m.hazardPointers t (Function.update (m.hazardPointers t) n (some node))
    checked := Function.update m.checked t (Function.update (m.checked t) n false) }

/-- `hazard_pointer_done_using`. -/
def doneUsing (m : Memory ι ν) (n : Nat) : Memory ι ν :=
  { m with
    hazardPointers :=
      Function.update m.hazardPointers t (Function.update (m.hazardPointers t) n none)
    checked := Function.update m.checked t (Function.update (m.checked t) n false) }

/-- The client has found the node in slot `n` not retired. -/
def markChecked (m : Memory ι ν) (n : Nat) : Memory ι ν :=
  { m with checked := Function.update m.checked t (Function.update (m.checked t) n true) }

variable [LinearOrder ν]

/-- `hazard_pointer_free` up to its comparison. -/
def retire (m : Memory ι ν) (node : ν) : Memory ι ν :=
  { m with
    retiredList := Function.update m.retiredList t (node :: m.retiredList t)
    retiredCount := Function.update m.retiredCount t (m.retiredCount t + 1)
    freed := Function.update m.freed node (m.freed node + 1) }

/-- The head of the loop over the slots of a record. -/
def slotsFrom (curRecord : ι) (i : Nat) (plist : List ν) : ScanPc ι ν :=
  if i < pointersPerThread then .readSlot curRecord i plist else .readNext curRecord plist

/-- One access of a scan by `t`; no next program point means that it returned.
A scan of a list without records would fail its assertion. -/
def scanStep (m : Memory ι ν) : ScanPc ι ν → Option (Memory ι ν × Option (ScanPc ι ν))
  | .readHead => m.head.map fun head => (m, some (.readThreshold head))
  -- The list of pointers is replaced only by a larger one.
  | .readThreshold head =>
      let maxPointers := m.retireThreshold head / 2
      some ({ m with plistSize :=
          if m.plistSize t < maxPointers then Function.update m.plistSize t maxPointers
          else m.plistSize },
        some (slotsFrom pointersPerThread head 0 []))
  | .readSlot curRecord i plist =>
      some (m, some (slotsFrom pointersPerThread curRecord (i + 1)
        -- `if(h)`: an empty slot adds nothing.
        (plist ++ (m.hazardPointers curRecord i).toList)))
  | .readNext curRecord plist =>
      match m.next curRecord with
      | some cur => some (m, some (slotsFrom pointersPerThread cur 0 plist))
      | none => some (m, some (.detach plist))
  -- Nodes kept by the loop below go back on the list that is emptied here.
  | .detach plist =>
      some ({ m with
          retiredList := Function.update m.retiredList t []
          retiredCount := Function.update m.retiredCount t 0 },
        some (.process (qsort plist) (m.retiredList t)))
  | .process _ [] => some (m, none)
  | .process plist (node :: next) =>
      -- In a slot: kept for the next scan. Otherwise `gc_function` runs at once.
      if binarySearch plist node then
        some ({ m with
            retiredList := Function.update m.retiredList t (node :: m.retiredList t)
            retiredCount := Function.update m.retiredCount t (m.retiredCount t + 1) },
          some (.process plist next))
      else
        some ({ m with gced := Function.update m.gced node (m.gced node + 1) },
          some (.process plist next))

/-- One step of thread `t`. A node is not passed to `hazard_pointer_free` again
before its `gc_function` has run. -/
def exec (c : Choice ν) (m : Memory ι ν) : Pc ι ν → Option (Memory ι ν × Pc ι ν)
  | .unregistered =>
      match c with
      | .create => some (m, .create .readHead)
      | _ => none
  | .create pc =>
      let r := createStep pointersPerThread t m pc
      some (r.1, r.2.elim .idle .create)
  | .idle =>
      match c with
      | .use node n => if n < pointersPerThread then some (usingSlot t m node n, .idle) else none
      | .doneUsing n => if n < pointersPerThread then some (doneUsing t m n, .idle) else none
      -- The guard stands for the client's own test that the node is still reachable.
      | .check n => (m.hazardPointers t n).bind fun node =>
          if m.freed node = m.gced node then some (markChecked t m n, .idle) else none
      | .free node =>
          if m.freed node = m.gced node then some (retire t m node, .readThreshold) else none
      | .scan => some (m, .scan .readHead)
      | _ => none
  | .readThreshold =>
      some (m, if m.retiredCount t ≥ m.retireThreshold t then .scan .readHead else .idle)
  | .scan pc => (scanStep pointersPerThread t m pc).map fun r => (r.1, r.2.elim .idle .scan)

end Operations

variable [DecidableEq ι] [LinearOrder ν]

/-- The interleavings of any number of threads. -/
def hazardProgram (pointersPerThread : Nat) : Program ι (Choice ν) (Memory ι ν) (Pc ι ν) :=
  ⟨fun t c m pc => exec pointersPerThread t c m pc⟩

/-- No record yet; `calloc` has cleared the fields of every record to come. -/
def initialMemory : Memory ι ν where
  head := none
  next _ := none
  retireThreshold _ := 0
  retiredCount _ := 0
  retiredList _ := []
  plistSize _ := 0
  hazardPointers _ _ := none
  checked _ _ := false
  freed _ := 0
  gced _ := 0

def Init (s : Config ι (Memory ι ν) (Pc ι ν)) : Prop :=
  s.mem = initialMemory ∧ ∀ t, s.loc t = .unregistered

end FibConcurrent.HazardPointer
