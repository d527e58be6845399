import FibConcurrent.Data.Container
import FibConcurrent.LockfreeRingBuffer.Blocking

/-!
# LockfreeRingBuffer — what clients see is a bounded queue

A push takes effect when it claims its index, which is before the value is in its slot, and
a pop when it claims the index of the oldest value. The operations that try may fail
whenever they like (`lockfreeRingBuffer_failures` says why they do), the ones that
wait do not. Calls to `lockfree_ring_buffer_size` are not part of what is seen here.
-/

namespace FibConcurrent.LockfreeRingBuffer

open FibConcurrent.Machine FibConcurrent.Data

variable {ι α : Type*} {c : Capacity}

/-- One operation of a queue with room for `size` values. -/
inductive QueueLegal (size : Nat) : List α → Request α → Response α → List α → Prop
  | trypush (val : α) (l : List α) (h : l.length < size) :
      QueueLegal size l (.trypush val) .stored (l ++ [val])
  | push (val : α) (l : List α) (h : l.length < size) :
      QueueLegal size l (.push val) .stored (l ++ [val])
  | refuse (val : α) (l : List α) : QueueLegal size l (.trypush val) .refused l
  | trypop (val : α) (l : List α) : QueueLegal size (val :: l) .trypop (.took val) l
  | pop (val : α) (l : List α) : QueueLegal size (val :: l) .pop (.took val) l
  | nothing (l : List α) : QueueLegal size l .trypop .nothing l

/-- The bounded queue, empty to begin with. -/
def boundedQueue (α : Type*) (size : Nat) : Object (List α) (Request α) (Response α) where
  start l := l = []
  legal := QueueLegal size

/-- Calls to the pushes and pops, seen from outside. -/
def ringInterface : Interface ι (Ring α) (BlockPc α) (Request α) (Response α) where
  busy
    | .call pc => (tryInterface (ι := ι)).busy pc
    | _ => true
  op t m
    | .call pc => tryInterface.op t m pc
    | .push pc => .push pc.val
    | _ => .pop
  result t m
    | .call pc => tryInterface.result t m pc
    | .popRet val => .took val
    | _ => .stored

/-- An operation that waits is done once it has claimed its index, too. -/
def BlockPc.client : BlockPc α → Client (Request α) (Response α)
  | .call pc => pc.client
  | .push (.writeSlot ..) => .done .stored
  | .push pc => .pending (.push pc.val)
  | .pushReadHigh val => .pending (.push val)
  | .pushReadLow val _ => .pending (.push val)
  | .pushRelax val => .pending (.push val)
  | .pushRet _ => .done .stored
  | .pop (.clearSlot _ ret) => .done (.took ret)
  | .pop _ => .pending .pop
  | .popReadHigh => .pending .pop
  | .popReadLow _ => .pending .pop
  | .popRelax => .pending .pop
  | .popRet val => .done (.took val)

/-- The histories say that the ring holds at most `c.size` values and that pops take
the oldest one. -/
structure Ordered (c : Capacity) (x : List α × List α) : Prop where
  popped : x.2 <+: x.1
  room : x.1.length ≤ x.2.length + c.size

theorem Inv.ordered {m : Ring α} {g : Ghost ι} (hI : Inv c m g) :
    Ordered c (m.pushed, m.popped) := by
  have hhigh := hI.high
  have hlow := hI.low
  refine ⟨?_, ?_⟩
  · show m.popped <+: m.pushed
    rw [hI.popped]
    exact List.take_prefix ..
  · show m.pushed.length ≤ m.popped.length + c.size
    rw [← hhigh, ← hlow]
    exact hI.room

/-- A push that claims its index adds its value to a queue with room for it. -/
theorem room_of_claim {pushed popped : List α} {v : α} (h : Ordered c (pushed, popped))
    (h' : Ordered c (pushed ++ [v], popped)) : (remaining pushed popped).length < c.size := by
  have hle : popped.length ≤ pushed.length := h.popped.length_le
  have hroom : (pushed ++ [v]).length ≤ popped.length + c.size := h'.room
  rw [List.length_append, List.length_singleton] at hroom
  rw [remaining, List.length_drop]
  omega

section Step

/-- A history that stays ordered is that of a bounded queue. -/
theorem goes_of_history {x y : List α × List α} {k k' : Client (Request α) (Response α)}
    {labels : List (Label (Request α) (Response α))} (h : (ringHistory α).Move x k labels y k')
    (hx : Ordered c x) (hy : Ordered c y) :
    (boundedQueue α c.size).Goes (remaining x.1 x.2) k labels (remaining y.1 y.2) k' := by
  refine h.image (fun x => remaining x.1 x.2) fun op res _ hlegal => ?_
  cases hlegal with
  | trypush val pushed popped =>
    dsimp only
    rw [remaining_put hx.popped.length_le]
    exact .trypush val _ (room_of_claim hx hy)
  | push val pushed popped =>
    dsimp only
    rw [remaining_put hx.popped.length_le]
    exact .push val _ (room_of_claim hx hy)
  | refuse val => exact .refuse val _
  | trypop val pushed popped =>
    dsimp only
    rw [remaining_take hy.popped]
    exact .trypop val _
  | pop val pushed popped =>
    dsimp only
    rw [remaining_take hy.popped]
    exact .pop val _
  | nothing => exact .nothing _

variable {m m' : Ring α}

theorem client_block_push {pc : PushPc α} (h : (Pc.push pc).atSlot = false) :
    (BlockPc.push pc).client = .pending (.push pc.val) := by
  cases pc <;> first | rfl | cases h

theorem client_block_pop {pc : PopPc α} (h : (Pc.pop pc).atSlot = false) :
    (BlockPc.pop pc).client = .pending .pop := by
  cases pc <;> first | rfl | cases h

/-- **Every access of an operation that waits, or that does not, is a move of a client of the
history.** -/
theorem move_of_blockExec {t : ι} {a : BlockChoice α} {pc pc' : BlockPc α}
    (he : blockExec c t a m pc = some (m', pc')) :
    (ringHistory α).Move (m.pushed, m.popped) pc.client (ringInterface.labels t m pc m' pc')
      (m'.pushed, m'.popped) pc'.client := by
  cases pc with
  | call pc =>
    cases a with
    | call a =>
      obtain ⟨r, hr, h⟩ := Option.map_eq_some_iff.mp he
      obtain ⟨rfl, rfl⟩ := Prod.mk.inj h
      exact move_of_exec (t := t) hr
    | push val =>
      cases pc with
      | idle =>
        obtain ⟨rfl, rfl⟩ := Prod.mk.inj (Option.some.inj he)
        exact .call (Request.push val)
      | _ => cases he
    | pop =>
      cases pc with
      | idle =>
        obtain ⟨rfl, rfl⟩ := Prod.mk.inj (Option.some.inj he)
        exact .call Request.pop
      | _ => cases he
  | push pc =>
    obtain ⟨rfl, rfl⟩ := Prod.mk.inj (Option.some.inj he)
    have haccess := pushAccess c m pc
    generalize (pushStep c m pc).1 = m', (pushStep c m pc).2 = r at haccess ⊢
    cases haccess with
    | claim val low high hpushed hpopped =>
      rw [hpushed, hpopped]
      exact .done (HistoryLegal.push val m.pushed m.popped)
    | store val high hpushed hpopped =>
      rw [hpushed, hpopped]
      exact .stay _
    | next pc pc' hval hpc hpc' hpushed hpopped =>
      rw [hpushed, hpopped, client_block_push hpc, client_block_push hpc', hval]
      exact .stay _
    | fail pc hpc hpushed hpopped =>
      rw [hpushed, hpopped, client_block_push hpc]
      exact .stay _
  | pop pc =>
    obtain ⟨rfl, rfl⟩ := Prod.mk.inj (Option.some.inj he)
    have haccess := popAccess c m pc
    generalize (popStep c m pc).1 = m', (popStep c m pc).2 = r at haccess ⊢
    cases haccess with
    | claim low ret hpushed hpopped =>
      rw [hpushed, hpopped]
      exact .done (HistoryLegal.pop ret m.pushed m.popped)
    | clear low ret hpushed hpopped =>
      rw [hpushed, hpopped]
      exact .stay _
    | next pc pc' hpc hpc' hpushed hpopped =>
      rw [hpushed, hpopped, client_block_pop hpc, client_block_pop hpc']
      exact .stay _
    | fail pc hpc hpushed hpopped =>
      rw [hpushed, hpopped, client_block_pop hpc]
      exact .stay _
  | pushReadLow val high =>
    simp only [blockExec] at he
    split at he
    all_goals
      obtain ⟨rfl, rfl⟩ := Prod.mk.inj (Option.some.inj he)
      exact .stay _
  | popReadLow high =>
    simp only [blockExec] at he
    split at he
    all_goals
      obtain ⟨rfl, rfl⟩ := Prod.mk.inj (Option.some.inj he)
      exact .stay _
  | pushRet val =>
    obtain ⟨rfl, rfl⟩ := Prod.mk.inj (Option.some.inj he)
    exact .ret Response.stored
  | popRet val =>
    obtain ⟨rfl, rfl⟩ := Prod.mk.inj (Option.some.inj he)
    exact .ret (Response.took val)
  | _ =>
    obtain ⟨rfl, rfl⟩ := Prod.mk.inj (Option.some.inj he)
    exact .stay _

end Step

section Runs

variable [DecidableEq ι] {s : Config ι (Ring α) (BlockPc α)}
  {hist : List (Event ι (Config ι (Ring α) (BlockPc α)))}

/-- **`lockfree_ring_buffer` is linearizable to a bounded queue**: in every interleaving of
trying and waiting operations with fewer than `2 ^ 64` pushes the calls can be put into
one sequence that a queue with room for `c.size` values would answer in the same way,
and that keeps the order of calls of which one returned before the other began. -/
theorem lockfreeRingBuffer_calls_linearizable (run : Run BlockInit (blockProgram c).Step s hist)
    (hlen : s.mem.pushed.length < 2 ^ 64) :
    Linearizable (boundedQueue α c.size) (ringInterface.trace hist) := by
  have hback : ∀ t (s s' : Config ι (Ring α) (BlockPc α)), (blockProgram c).Step t s s' →
      s'.mem.pushed.length < 2 ^ 64 → s.mem.pushed.length < 2 ^ 64 :=
    fun t s s' hs h => Nat.lt_of_le_of_lt (pushed_le_of_blockStep hs) h
  have hrun : Run BlockInit ((blockProgram c).StepIf fun _ _ _ m' => m'.pushed.length < 2 ^ 64)
      s hist := run.bounded hback hlen
  have hordered : ∀ {s : Config ι (Ring α) (BlockPc α)} {hist}, Run BlockInit
      (blockProgram c).Step s hist → s.mem.pushed.length < 2 ^ 64 →
        Ordered c (s.mem.pushed, s.mem.popped) := by
    intro s hist run hlen
    obtain ⟨hist', run'⟩ := attempts_run run
    obtain ⟨g, hI, -⟩ := lockfreeRingBuffer_invariant run' hlen
    exact hI.ordered
  refine hrun.linearizable (boundedQueue α c.size) (fun _ _ => BlockPc.client)
    (fun m x => remaining m.pushed m.popped = x) ?_ (fun _ _ _ _ _ _ _ => rfl) ?_
  · rintro s ⟨hmem, hidle⟩
    refine ⟨⟨[], rfl, ?_⟩, fun t => ?_⟩
    · rw [hmem]
      rfl
    · rw [hidle t]
      rfl
  · rintro t s s' x ⟨hist, hr⟩ ⟨hlen', hs⟩ rfl
    have hr : Run BlockInit (blockProgram c).Step s hist := hr.mono fun _ _ _ h => h.2
    obtain ⟨a, he⟩ := hs.exec
    have he : blockExec c t a s.mem (s.loc t) = some (s'.mem, s'.loc t) := he
    exact ⟨_, rfl, goes_of_history (move_of_blockExec he) (hordered hr (hback t s s' hs hlen'))
      (hordered (hr.next hs) hlen')⟩

/-- A pop of thread 1 waits until thread 0 has pushed 7, and its next attempt finds
nothing. -/
theorem lockfreeRingBuffer_calls_linearizable_pop :
    ∃ (s : Config Nat (Ring Nat) (BlockPc Nat)) (hist : _),
      Run BlockInit (blockProgram two).Step s hist ∧ s.mem.pushed.length < 2 ^ 64 ∧
        ringInterface.trace hist = [(1, .call .pop), (0, .call (.push 7)), (0, .ret .stored),
          (1, .ret (.took 7)), (1, .call .trypop), (1, .ret .nothing)] ∧
        Linearizable (boundedQueue Nat two.size) (ringInterface.trace hist) := by
  have hstart : Run BlockInit (blockProgram (ι := Nat) (α := Nat) two).Step blockInitial [] :=
    .start ⟨rfl, fun _ => rfl⟩
  obtain ⟨s, hist, run, hlen, htrace⟩ := hstart.exists_of_history
    (q := fun s hist => s.mem.pushed.length < 2 ^ 64 ∧ ringInterface.trace hist =
      [(1, .call .pop), (0, .call (.push 7)), (0, .ret .stored), (1, .ret (.took 7)),
        (1, .call .trypop), (1, .ret .nothing)])
    (List.flatten [(1, .pop) :: List.replicate 6 (1, .call .step),
      (0, .push 7) :: List.replicate 6 (0, .call .step), List.replicate 6 (1, .call .step),
      (1, .call .trypop) :: List.replicate 4 (1, .call .step)])
    (by decide +kernel)
  exact ⟨s, hist, run, hlen, htrace, lockfreeRingBuffer_calls_linearizable run hlen⟩

end Runs

end FibConcurrent.LockfreeRingBuffer
