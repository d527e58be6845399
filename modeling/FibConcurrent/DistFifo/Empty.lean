import FibConcurrent.DistFifo.Correct

/-!
# DistFifo — when EMPTY is the truth

`dist_fifo_trypop` decides for `DIST_FIFO_EMPTY` by the `next` field of the head
it has read, without asking again whether that node is still the head. A thread
that has popped the node meanwhile may have written NULL there: then EMPTY is
returned of a fifo that never was empty (`distFifo_empty_untrue`). As long as no
pop reads a NULL link from a node that is not the head any more, EMPTY is the
truth.
-/

namespace FibConcurrent.DistFifo

open FibConcurrent.Machine FibConcurrent.Data

variable {ι ν α : Type*} {w : Nat}

/-- How many pushes have completed: the last one has linked its node, but not
stored `tail`, as long as the distinguished thread is at its last store. -/
def completed (pusher : ι) (s : Config ι (Fifo w ι ν α) (Pc w ν α)) : Nat :=
  match s.loc pusher with
  | .push (.writeTail _) => s.mem.pushed.length - 1
  | _ => s.mem.pushed.length

/-- No item whose push had completed was left. -/
def HoldsNone (pusher : ι) (e : Event ι (Config ι (Fifo w ι ν α) (Pc w ν α))) : Prop :=
  completed pusher e.pre ≤ e.pre.mem.popped.length

/-- The pop reads a NULL link. -/
def Pc.readsNull (m : Fifo w ι ν α) : Pc w ν α → Bool
  | .pop (.readNext prevHead _) => (m.next prevHead.ptr).isNone
  | _ => false

/-- The node that a pop takes for the head. -/
def Pc.prevHead : Pc w ν α → Option ν
  | .pop (.readNext prevHead _) => some prevHead.ptr
  | _ => none

/-- A pop that reads a NULL link reads it from the head. -/
def ReadsHead (m : Fifo w ι ν α) (pc : Pc w ν α) : Prop :=
  pc.readsNull m = true → pc.prevHead = some m.head.ptr

/-- The counter does not wrap during the call, and a NULL link is not read from
a node that has left the fifo. -/
def Truthful (t : ι) (m : Fifo w ι ν α) (pc : Pc w ν α) (m' : Fifo w ι ν α) : Prop :=
  Fresh t m pc m' ∧ ReadsHead m pc

instance [DecidableEq ν] (t : ι) (m : Fifo w ι ν α) (pc : Pc w ν α) (m' : Fifo w ι ν α) :
    Decidable (Truthful t m pc m') :=
  inferInstanceAs (Decidable (Fresh t m pc m' ∧
    (pc.readsNull m = true → pc.prevHead = some m.head.ptr)))

instance (pusher : ι) :
    DecidablePred (HoldsNone (w := w) (ν := ν) (α := α) pusher) := fun e =>
  inferInstanceAs (Decidable (completed pusher e.pre ≤ e.pre.mem.popped.length))

theorem completed_le (pusher : ι) (s : Config ι (Fifo w ι ν α) (Pc w ν α)) :
    completed pusher s ≤ s.mem.pushed.length := by
  unfold completed
  split
  · exact Nat.sub_le ..
  · exact Nat.le_refl _

/-- A head with a NULL link is the whole list. -/
theorem Inv.length_of_null {m : Fifo w ι ν α} {g : Ghost ι ν} (hI : Inv m g)
    (hnull : m.next m.head.ptr = none) : m.pushed.length = m.popped.length := by
  obtain ⟨rest, hnodes⟩ := hI.nodes_eq
  have hlinked := hI.linked
  rw [hnodes, linked_cons, hnull] at hlinked
  have hrest : rest = [] := List.head?_eq_none_iff.mp hlinked.1.symm
  rw [hI.values, hnodes, hrest]
  simp

theorem Inv.length_of_readsNull {m : Fifo w ι ν α} {g : Ghost ι ν} {pc : Pc w ν α} (hI : Inv m g)
    (hnull : pc.readsNull m = true) (hhead : ReadsHead m pc) :
    m.pushed.length = m.popped.length := by
  have hptr := hhead hnull
  cases pc with
  | pop pc =>
    cases pc with
    | readNext h k =>
      -- the link was read from the head
      have hptr : h.ptr = m.head.ptr := Option.some.inj hptr
      exact hI.length_of_null (hptr ▸ Option.isNone_iff_eq_none.mp hnull)
    | _ => cases hnull
  | _ => cases hnull

variable [DecidableEq ι] [DecidableEq ν] {pusher : ι} {s : Config ι (Fifo w ι ν α) (Pc w ν α)}
  {hist : List (Event ι (Config ι (Fifo w ι ν α) (Pc w ν α)))}

/-- The one access after which a pop returns `DIST_FIFO_EMPTY`. -/
theorem readsNull_of_exec {t : ι} {c : Choice ι ν α} {m m' : Fifo w ι ν α} {pc : Pc w ν α}
    (he : exec pusher t c m pc = some (m', .popRet .empty)) : pc.readsNull m = true := by
  cases pc with
  | idle => cases c <;> simp [exec] at he
  | push pc =>
    obtain ⟨-, heq⟩ := Prod.mk.inj (Option.some.inj he)
    cases hnext : (pushStep m pc).2 <;> simp [hnext] at heq
  | popRet r => cases r <;> simp [exec] at he
  | pop pc =>
    obtain ⟨-, heq⟩ := Prod.mk.inj (Option.some.inj he)
    cases pc with
    | readNext h k =>
      cases hnext : m.next h.ptr with
      | some x => simp [popStep, hnext] at heq
      | none => simp [Pc.readsNull, hnext]
    | swap h x d k =>
      cases hcas : compareAndSwap2 m.head h ⟨h.counter + 1, x⟩ with
      | mk head swapped =>
        simp only [popStep, hcas] at heq
        cases swapped <;> cases heq
    | _ => simp [popStep] at heq

/-- **EMPTY is returned only if the fifo was empty at some instant of the
call**, in every run in which the counter does not wrap during a call and no pop
reads a NULL link from a node that is not the head any more. -/
theorem distFifo_empty_true {t : ι}
    (run : Run Init ((distProgram pusher).StepIf Truthful) s hist)
    (hret : s.loc t = .popRet .empty) :
    During (fun s => s.loc t ≠ .idle) (HoldsNone pusher) hist := by
  refine Run.during_of_local (· = .popRet .empty) (· ≠ .idle) ?_ ?_ ?_ ?_ run hret
  · intro s h0 hm
    obtain ⟨-, -, -, -, -, hidle⟩ := h0
    rw [hidle t] at hm
    cases hm
  · intro c m pc m' pc' he hm hpc
    subst hm hpc
    cases c <;> simp [distProgram, exec] at he
  · intro pc hm
    simp [hm]
  · intro s s' hreached hs _ hm
    obtain ⟨hist, hr⟩ := hreached
    obtain ⟨g, hI, -⟩ := distFifo_invariant (hr.mono fun _ _ _ h => ⟨h.1.1, h.2⟩)
    obtain ⟨c, he⟩ := hs.2.exec
    rw [hm] at he
    have hlength := hI.length_of_readsNull (readsNull_of_exec he) hs.1.2
    show completed pusher s ≤ s.mem.popped.length
    rw [← hlength]
    exact completed_le pusher s

/-- Two items are pushed. Thread 0 has read the head when thread 2 pops that node and stores
to it: thread 0 follows the stored link and has to retry. Then it pops the second item, clears
its node, and finds nothing. -/
theorem distFifo_empty_true_overwritten :
    ∃ (s : Config Nat (Fifo 64 Nat Nat Nat) (Pc 64 Nat Nat)) (hist : _),
      Run Init ((distProgram 1).StepIf Truthful) s hist ∧
        (∃ e ∈ hist, e.post.loc 0 = .popRet .retry ∧ e.post.mem.next 0 = some 5) ∧
        s.mem.popped = [7, 8] ∧ s.mem.next 1 = none ∧ s.mem.data 1 = 9 ∧
        s.loc 0 = .popRet .empty ∧
        During (fun s => s.loc 0 ≠ .idle) (HoldsNone 1) hist := by
  have hstart : Run Init ((distProgram (w := 64) 1).StepIf Truthful) (initial 0 0 1) [] :=
    .start (init_initial 0 0 1)
  obtain ⟨s, hist, run, hretry, hpopped, hnext, hdata, hret⟩ := hstart.exists_of_historyIf
    (q := fun s hist => (∃ e ∈ hist, e.post.loc 0 = .popRet .retry ∧
        e.post.mem.next 0 = some 5) ∧ s.mem.popped = [7, 8] ∧ s.mem.next 1 = none ∧
      s.mem.data 1 = 9 ∧ s.loc 0 = .popRet .empty)
    (List.flatten [(1, .push 1 7) :: List.replicate 4 (1, .step),
      (1, .push 2 8) :: List.replicate 4 (1, .step), (0, .pop) :: List.replicate 2 (0, .step),
      (2, .pop) :: List.replicate 7 (2, .step), [(2, .write 0 9 (some 5))],
      List.replicate 4 (0, .step), (0, .pop) :: List.replicate 7 (0, .step),
      [(0, .write 1 9 none)], (0, .pop) :: List.replicate 3 (0, .step)])
    (by decide +kernel)
  exact ⟨s, hist, run, hretry, hpopped, hnext, hdata, hret, distFifo_empty_true run hret⟩

/-- **EMPTY is returned of a fifo that was never empty**: thread 1 has pushed
nodes 1 and 2. Thread 0 reads the head, node 0; thread 2 pops that node and
writes NULL into its `next` field, as it does when it starts a private list;
thread 0 reads this NULL. The second item stays in the fifo all the time. -/
theorem distFifo_empty_untrue :
    ¬ ∀ (s : Config Nat (Fifo 64 Nat Nat Nat) (Pc 64 Nat Nat)) hist,
      Run Init (distProgram 1).Step s hist → s.loc 0 = .popRet .empty →
        During (fun s => s.loc 0 ≠ .idle) (HoldsNone 1) hist := by
  intro hclaim
  have hstart : Run Init (distProgram (w := 64) 1).Step (initial 0 0 1) [] :=
    .start (init_initial 0 0 1)
  obtain ⟨s, hist, run, hret, hnever⟩ := hstart.exists_of_history
    (q := fun s hist => s.loc 0 = .popRet .empty ∧
      ¬ During (fun s => s.loc 0 ≠ .idle) (HoldsNone 1) hist)
    (List.flatten [[(1, .push 1 7)], List.replicate 4 (1, .step), [(1, .push 2 8)],
      List.replicate 4 (1, .step), [(0, .pop)], List.replicate 2 (0, .step), [(2, .pop)],
      List.replicate 7 (2, .step), [(2, .write 0 7 none), (0, .step)]])
    (by decide +kernel)
  exact hnever (hclaim s hist run hret)

end FibConcurrent.DistFifo
