import FibConcurrent.WorkQueue.Model
import FibConcurrent.MpscFifo.Invariant

/-!
# WorkQueue — the hand-off invariant

Two ghost values carry the protocol: who is the worker (a thread becomes it at
the increment that yields 1, before its push has returned) and `taken`, what
the workers have subtracted from `in_count` so far. Then `in_count` is what has
been counted less `taken`, `out_count` is what has been delivered less `taken`
whenever the worker is outside the two accesses that move `out_count` into
`taken`, and there is a worker exactly while `in_count` is not zero.
-/

namespace FibConcurrent.WorkQueue

open FibConcurrent.Machine FibConcurrent.MpscFifo FibConcurrent.Data

variable {ι ν α : Type*}

/-- The push a thread is in. -/
def WorkPc.pushing : WorkPc ν α → Option (PushPc ν)
  | .push _ pc => some pc
  | _ => none

/-- A thread is the worker, or about to become it: its increment yielded 1. -/
def IsWorker (l : Thread ν α) : Prop :=
  l.working = true ∨ (∃ pc, l.pc = .push true pc) ∨ l.pc = .pushRet true

/-- Ghost: the fifo's ghost, the worker, and what was taken off `in_count`. -/
structure WorkGhost (ι ν α : Type*) where
  fifo : Ghost ι ν α
  worker : Option ι
  taken : Int

structure WorkInv (m : Queue ν α) (g : WorkGhost ι ν α) : Prop where
  fifo : Inv m.fifo m.owned g.fifo
  inCount : m.inCount = m.counted - g.taken
  idle : g.worker = none → m.inCount = 0 ∧ m.outCount = 0 ∧
    (m.delivered.length : Int) = g.taken ∧ g.fifo.out = m.delivered
  busy : g.worker ≠ none → 1 ≤ m.inCount

/-- Between calls the worker's counters agree with what it delivered. -/
def Rests (m : Queue ν α) (g : WorkGhost ι ν α) : Prop :=
  m.outCount = m.delivered.length - g.taken ∧ g.fifo.out = m.delivered

/-- What thread `t` may rely on at each program point. -/
def workFacts (t : ι) (m : Queue ν α) (g : WorkGhost ι ν α) (l : Thread ν α) : Prop :=
  match l.pc with
  | .idle | .pushRet _ => IsWorker l → Rests m g
  | .addIn n => PushFacts t m.fifo g.fifo (.clearNext n) ∧ (IsWorker l → Rests m g)
  | .push _ pc => PushFacts t m.fifo g.fifo pc ∧ (IsWorker l → Rests m g)
  | .trypop pc => l.working = true ∧ m.outCount = m.delivered.length - g.taken ∧
      PopFacts t m.delivered m.fifo g.fifo pc
  | .readOut => l.working = true ∧ Rests m g
  | .readIn out => l.working = true ∧ Rests m g ∧ out = m.outCount
  | .readOldOut => l.working = true ∧ Rests m g ∧ 1 ≤ m.outCount ∧ m.outCount ≤ m.inCount
  | .zeroOut old => l.working = true ∧ Rests m g ∧ old = m.outCount ∧ 1 ≤ old ∧ old ≤ m.inCount
  | .subIn old => l.working = true ∧ m.outCount = 0 ∧ old = m.delivered.length - g.taken ∧
      1 ≤ old ∧ old ≤ m.inCount ∧ g.fifo.out = m.delivered
  | .readOutInc n => l.working = true ∧ m.outCount = m.delivered.length - g.taken ∧
      g.fifo.held n = some t ∧ g.fifo.out = m.delivered ++ [m.fifo.data n]
  | .writeOutInc n out => l.working = true ∧ out = m.delivered.length - g.taken ∧
      g.fifo.held n = some t ∧ g.fifo.out = m.delivered ++ [m.fifo.data n]
  | .moreRet n => l.working = true ∧ m.outCount = m.delivered.length + 1 - g.taken ∧
      g.fifo.held n = some t ∧ g.fifo.out = m.delivered ++ [m.fifo.data n]
  | .emptyRet => l.working = false

/-- A thread owes at most the link of its push, it knows whether it is the
worker, and it knows what its call has established. -/
structure WorkFacts (t : ι) (m : Queue ν α) (g : WorkGhost ι ν α) (l : Thread ν α) : Prop where
  owes : Owes t g.fifo l.pc.pushing
  worker : IsWorker l ↔ g.worker = some t
  call : workFacts t m g l

def workAssertion : Assertion ι (Queue ν α) (WorkGhost ι ν α) (Thread ν α) where
  shared := WorkInv
  thread := WorkFacts

/-! ## What the steps of others leave alone -/

section Keep

variable {t : ι} {m m' : Queue ν α} {g g' : WorkGhost ι ν α} {l : Thread ν α}

/-- A thread that is not the worker leaves everything the worker relies on
alone; `in_count` can only have grown. -/
structure KeepsWork (m : Queue ν α) (g : WorkGhost ι ν α) (m' : Queue ν α)
    (g' : WorkGhost ι ν α) : Prop where
  fifo : KeepsHead m.fifo g.fifo m'.fifo g'.fifo
  outCount : m'.outCount = m.outCount
  delivered : m'.delivered = m.delivered
  taken : g'.taken = g.taken
  inCount : m.inCount ≤ m'.inCount

theorem Rests.keep (h : Rests m g) (hk : KeepsWork m g m' g') : Rests m' g' := by
  unfold Rests
  rw [hk.outCount, hk.delivered, hk.taken, hk.fifo.out]
  exact h

theorem WorkFacts.keep (h : WorkFacts t m g l) (hf : Keeps t m.fifo g.fifo m'.fifo g'.fifo)
    (hw : g'.worker = some t ↔ g.worker = some t) (hk : KeepsWork m g m' g') :
    WorkFacts t m' g' l := by
  refine ⟨h.owes.keep hf, h.worker.trans hw.symm, ?_⟩
  have hin := hk.inCount
  have hcall := h.call
  unfold workFacts at hcall ⊢
  cases hpc : l.pc <;> simp only [hpc] at hcall ⊢
  case idle | pushRet => exact fun hl => (hcall hl).keep hk
  case addIn n => exact ⟨hcall.1.keep hf, fun hl => (hcall.2 hl).keep hk⟩
  case push start pc => exact ⟨hcall.1.keep hf, fun hl => (hcall.2 hl).keep hk⟩
  case trypop pc =>
    rw [hk.outCount, hk.delivered, hk.taken]
    exact ⟨hcall.1, hcall.2.1, hcall.2.2.keep hf hk.fifo⟩
  case readOut => exact ⟨hcall.1, hcall.2.keep hk⟩
  case readIn out => exact ⟨hcall.1, hcall.2.1.keep hk, by rw [hk.outCount, hcall.2.2]⟩
  case readOldOut =>
    rw [hk.outCount]
    exact ⟨hcall.1, hcall.2.1.keep hk, hcall.2.2.1, by omega⟩
  case zeroOut old =>
    rw [hk.outCount]
    exact ⟨hcall.1, hcall.2.1.keep hk, hcall.2.2.1, hcall.2.2.2.1, by omega⟩
  case subIn old =>
    rw [hk.outCount, hk.delivered, hk.taken, hk.fifo.out]
    exact ⟨hcall.1, hcall.2.1, hcall.2.2.1, hcall.2.2.2.1, by omega, hcall.2.2.2.2.2⟩
  case readOutInc n =>
    obtain ⟨hheld, -, hdata⟩ := hf.held n hcall.2.2.1
    rw [hk.outCount, hk.delivered, hk.taken, hk.fifo.out, hdata]
    exact ⟨hcall.1, hcall.2.1, hheld, hcall.2.2.2⟩
  case writeOutInc n out =>
    obtain ⟨hheld, -, hdata⟩ := hf.held n hcall.2.2.1
    rw [hk.delivered, hk.taken, hk.fifo.out, hdata]
    exact ⟨hcall.1, hcall.2.1, hheld, hcall.2.2.2⟩
  case moreRet n =>
    obtain ⟨hheld, -, hdata⟩ := hf.held n hcall.2.2.1
    rw [hk.outCount, hk.delivered, hk.taken, hk.fifo.out, hdata]
    exact ⟨hcall.1, hcall.2.1, hheld, hcall.2.2.2⟩
  case emptyRet => exact hcall

/-- A thread that is not the worker relies on its own node and link only. -/
theorem WorkFacts.keep_idle (h : WorkFacts t m g l)
    (hf : Keeps t m.fifo g.fifo m'.fifo g'.fifo) (hg : g.worker ≠ some t)
    (hg' : g'.worker ≠ some t) : WorkFacts t m' g' l := by
  have hno : ¬ IsWorker l := fun hl => hg (h.worker.mp hl)
  have hnw : l.working ≠ true := fun hl => hno (.inl hl)
  refine ⟨h.owes.keep hf, ⟨fun hl => absurd hl hno, fun hl => absurd hl hg'⟩, ?_⟩
  have hcall := h.call
  unfold workFacts at hcall ⊢
  cases hpc : l.pc <;> simp only [hpc] at hcall ⊢
  case idle | pushRet => exact fun hl => absurd hl hno
  case addIn | push => exact ⟨hcall.1.keep hf, fun hl => absurd hl hno⟩
  case emptyRet => exact hcall
  all_goals exact absurd hcall.1 hnw

end Keep

end FibConcurrent.WorkQueue
