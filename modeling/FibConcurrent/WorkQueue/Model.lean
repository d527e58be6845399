import FibConcurrent.MpscFifo.Model

/-!
# WorkQueue — the model of `work_queue.h` and `work_queue.c`

A work queue is an `mpsc_fifo` with two counters. A push counts itself in
`in_count` first and links its item afterwards; the push whose increment
yields 1 makes its caller the worker. The worker calls `work_queue_get_work`
until that returns `WORK_QUEUE_EMPTY`; it alone touches `out_count`, and when
both counters agree it takes `out_count` off `in_count` again, in two separate
accesses.

The two operations of the fifo run as calls inside the operations of the queue,
access by access (`pushStep`, `popStep`). The counters are `int64_t`; the model
takes them as integers, signed overflow of `out_count` being undefined in C. Up to
the first one `in_count` exceeds what `out_count` is, or was before it was set to 0, by items
that are in memory only. So it may wrap in `__sync_add_and_fetch` but not come round to
where it was: it is compared for equality only, with 0, with 1 and with `out_count`, and the
wrapped count equals one of these when the integer does.

Histories: `counted` is the number of pushes that have counted themselves,
`delivered` the data of the items `work_queue_get_work` returned.
-/

namespace FibConcurrent.WorkQueue

open FibConcurrent.Machine FibConcurrent.MpscFifo

variable {ι ν α : Type*}

/-- `work_queue_t`, the record of who owns which item, and the histories. -/
structure Queue (ν α : Type*) where
  fifo : Fifo ν α
  inCount : Int
  outCount : Int
  owned : ν → Bool
  counted : Nat
  delivered : List α

/-- Program points of `work_queue_push` and `work_queue_get_work`. In the first
group `start` tells that the push will return `WORK_QUEUE_START_WORKING`. -/
inductive WorkPc (ν α : Type*) where
  | idle
  | addIn (item : ν)
  | push (start : Bool) (pc : PushPc ν)
  | pushRet (start : Bool)
  | trypop (pc : PopPc ν α)
  | readOut
  | readIn (out : Int)
  | readOldOut
  | zeroOut (oldOut : Int)
  | subIn (oldOut : Int)
  | readOutInc (item : ν)
  | writeOutInc (item : ν) (out : Int)
  | moreRet (item : ν)
  | emptyRet
deriving DecidableEq

/-- A thread: `working` from the return of `WORK_QUEUE_START_WORKING` to the
access at which `WORK_QUEUE_EMPTY` is decided. -/
structure Thread (ν α : Type*) where
  working : Bool
  pc : WorkPc ν α

/-- What a client decides to do next. -/
inductive WorkChoice (ν α : Type*) where
  | push (item : ν) (data : α)
  | getWork
  | write (item : ν) (data : α) (next : Option ν)
  | step

variable [DecidableEq ι] [DecidableEq ν]

/-- Any thread may push an item it owns, the worker too, between two calls of
`work_queue_get_work`; only a worker may get work. -/
def workExec (_t : ι) (c : WorkChoice ν α) (m : Queue ν α) (l : Thread ν α) :
    Option (Queue ν α × Thread ν α) :=
  match l.pc with
  | .idle =>
      match c with
      | .push item data =>
          if m.owned item then
            some ({ m with
                owned := Function.update m.owned item false
                fifo := { m.fifo with data := Function.update m.fifo.data item data } },
              { l with pc := .addIn item })
          else none
      | .getWork => if l.working then some (m, { l with pc := .trypop .readHead }) else none
      | .write item data next =>
          if m.owned item then
            some ({ m with fifo := { m.fifo with
                data := Function.update m.fifo.data item data
                next := Function.update m.fifo.next item next } }, l)
          else none
      | .step => none
  -- in_count = __sync_add_and_fetch(&wq->in_count, 1)
  | .addIn item =>
      some ({ m with inCount := m.inCount + 1, counted := m.counted + 1 },
        { l with pc := .push (decide (m.inCount + 1 = 1)) (.clearNext item) })
  | .push start pc =>
      let r := pushStep m.fifo pc
      some ({ m with fifo := r.1 }, { l with pc := match r.2 with
        | some pc' => .push start pc'
        | none => .pushRet start })
  | .pushRet start => some (m, { working := l.working || start, pc := .idle })
  | .trypop pc =>
      let r := popStep m.fifo pc
      some ({ m with fifo := r.1 }, { l with pc := match r.2 with
        | .inl pc' => .trypop pc'
        | .inr none => .readOut
        | .inr (some item) => .readOutInc item })
  -- if(wq->out_count == wq->in_count): nobody else writes out_count, so the
  -- order of the two reads does not matter
  | .readOut => some (m, { l with pc := .readIn m.outCount })
  | .readIn out =>
      some (m, { l with pc := if out = m.inCount then .readOldOut else .trypop .readHead })
  | .readOldOut => some (m, { l with pc := .zeroOut m.outCount })
  | .zeroOut oldOut => some ({ m with outCount := 0 }, { l with pc := .subIn oldOut })
  | .subIn oldOut =>
      some ({ m with inCount := m.inCount - oldOut },
        if m.inCount - oldOut = 0 then { working := false, pc := .emptyRet }
        else { l with pc := .trypop .readHead })
  | .readOutInc item => some (m, { l with pc := .writeOutInc item m.outCount })
  | .writeOutInc item out => some ({ m with outCount := out + 1 }, { l with pc := .moreRet item })
  | .moreRet item =>
      some ({ m with
        owned := Function.update m.owned item true
        delivered := m.delivered ++ [m.fifo.data item] }, { l with pc := .idle })
  | .emptyRet => some (m, { l with pc := .idle })

/-- The interleavings of any number of threads on one work queue. -/
def workProgram : Program ι (WorkChoice ν α) (Queue ν α) (Thread ν α) := ⟨workExec⟩

/-- After `work_queue_init`. -/
def WorkInit (s : Config ι (Queue ν α) (Thread ν α)) : Prop :=
  s.mem.fifo.tail = s.mem.fifo.head ∧ s.mem.fifo.next s.mem.fifo.head = none ∧
    s.mem.fifo.pushed = [] ∧ s.mem.owned s.mem.fifo.head = false ∧ s.mem.inCount = 0 ∧
    s.mem.outCount = 0 ∧ s.mem.counted = 0 ∧ s.mem.delivered = [] ∧
    ∀ t, s.loc t = ⟨false, .idle⟩

/-- The state `work_queue_init` leaves, with `dummy` the fifo's first node. -/
def workInitial (dummy : ν) (null : α) : Config ι (Queue ν α) (Thread ν α) where
  mem :=
    { fifo := ⟨dummy, dummy, fun _ => null, fun _ => none, []⟩
      inCount := 0
      outCount := 0
      owned := fun n => decide (n ≠ dummy)
      counted := 0
      delivered := [] }
  loc _ := ⟨false, .idle⟩

omit [DecidableEq ι] in
theorem workInit_initial (dummy : ν) (null : α) :
    WorkInit (workInitial dummy null : Config ι _ _) :=
  ⟨rfl, rfl, rfl, by simp [workInitial], rfl, rfl, rfl, rfl, fun _ => rfl⟩

end FibConcurrent.WorkQueue
