import FibConcurrent.Data.Container
import FibConcurrent.DistFifo.Empty

/-!
# DistFifo — what clients see is a queue

A push takes effect when it links its node, before `tail` is stored, a successful pop at its swap.
A pop may answer `DIST_FIFO_RETRY` whenever it likes (`DistFifo.Correct` says that another pop has
succeeded then). `DIST_FIFO_EMPTY` means that there is nothing in every run in which a NULL link is
read from the head only, and nothing at all otherwise.
-/

namespace FibConcurrent.DistFifo

open FibConcurrent.Machine FibConcurrent.Data

variable {ι ν α : Type*} {w : Nat}

/-- One operation of a queue of which pops may fail; one that is called loose may say that it is
empty when it is not. -/
inductive QueueLegal (loose : Bool) : List α → Request α → Response α → List α → Prop
  | push (data : α) (l : List α) : QueueLegal loose l (.push data) .pushed (l ++ [data])
  | trypop (data : α) (l : List α) : QueueLegal loose (data :: l) .trypop (.popped data) l
  | empty (l : List α) (h : l = [] ∨ loose = true) : QueueLegal loose l .trypop .empty l
  | retry (l : List α) : QueueLegal loose l .trypop .retry l

/-- A queue, empty to begin with. -/
def retryQueue (α : Type*) (loose : Bool) : Object (List α) (Request α) (Response α) where
  start l := l = []
  legal := QueueLegal loose

/-- The counter does not wrap during a call, and unless the queue is called loose a NULL link is
read from the head. -/
def TruthfulUnless (loose : Bool) (t : ι) (m : Fifo w ι ν α) (pc : Pc w ν α)
    (m' : Fifo w ι ν α) : Prop :=
  Fresh t m pc m' ∧ (loose = false → ReadsHead m pc)

instance [DecidableEq ν] (loose : Bool) (t : ι) (m : Fifo w ι ν α) (pc : Pc w ν α)
    (m' : Fifo w ι ν α) : Decidable (TruthfulUnless loose t m pc m') :=
  inferInstanceAs (Decidable (Fresh t m pc m' ∧
    (_ → pc.readsNull m = true → pc.prevHead = some m.head.ptr)))

/-- The data that have been linked and not been popped. -/
def Fifo.values (m : Fifo w ι ν α) : List α := remaining m.pushed m.popped

section Step

/-- A history of which the data come out as they went in is that of a queue. -/
theorem goes_of_history {loose : Bool} {x y : List α × List α}
    {k k' : Client (Request α) (Response α)} {labels : List (Label (Request α) (Response α))}
    (h : (distHistory α).Move x k labels y k') (hx : x.2 <+: x.1) (hy : y.2 <+: y.1)
    (hempty : k.Answers labels k' .trypop .empty → remaining x.1 x.2 = [] ∨ loose = true) :
    (retryQueue α loose).Goes (remaining x.1 x.2) k labels (remaining y.1 y.2) k' := by
  refine h.image (fun x => remaining x.1 x.2) fun op res hans hlegal => ?_
  cases hlegal with
  | push data pushed popped =>
    dsimp only
    rw [remaining_put hx.length_le]
    exact .push data _
  | trypop data pushed popped =>
    dsimp only
    rw [remaining_take hy]
    exact .trypop data _
  | empty => exact .empty _ (hempty hans)
  | retry => exact .retry _

variable {m m' : Fifo w ι ν α} {t : ι}

/-- A pop that is answered `DIST_FIFO_EMPTY` returns it. -/
theorem empty_of_answers {pc pc' : Pc w ν α}
    (h : (pc.client m).Answers (distInterface.labels t m pc m' pc') (pc'.client m') .trypop
      .empty) : pc' = .popRet .empty := by
  have hpop : ∃ p, pc = .pop p := by
    have hpending := h.pending_eq
    cases pc with
    | pop p => exact ⟨p, rfl⟩
    | push p => cases p <;> cases hpending
    | _ => cases hpending
  obtain ⟨p, rfl⟩ := hpop
  rw [h.pending_eq] at h
  cases pc' with
  | idle => cases h
  | push p' =>
    have hdone := h.done_eq
    cases p' <;> cases hdone
  | pop p' =>
    have hdone := h.done_eq
    cases p' <;> cases hdone
  | popRet r =>
    have hdone := h.done_eq
    cases r with
    | empty => rfl
    | _ => cases hdone

end Step

section Runs

variable [DecidableEq ι] [DecidableEq ν] {loose : Bool} {pusher : ι}
  {s : Config ι (Fifo w ι ν α) (Pc w ν α)}
  {hist : List (Event ι (Config ι (Fifo w ι ν α) (Pc w ν α)))}

/-- **`dist_fifo` is linearizable to a queue** of which pops may have to be repeated, in every
interleaving in which the counter does not wrap during a call; `DIST_FIFO_EMPTY` is the truth
if a NULL link is read from the head only. -/
theorem distFifo_calls_linearizable
    (run : Run Init ((distProgram pusher).StepIf (TruthfulUnless loose)) s hist) :
    Linearizable (retryQueue α loose) (distInterface.trace hist) := by
  have hinv : ∀ {s : Config ι (Fifo w ι ν α) (Pc w ν α)},
      (∃ hist, Run Init ((distProgram pusher).StepIf (TruthfulUnless loose)) s hist) →
        (distAssertion pusher).Holds s :=
    fun ⟨_, hr⟩ => distFifo_invariant (hr.mono fun _ _ _ h => ⟨h.1.1, h.2⟩)
  refine run.linearizable (retryQueue α loose) (fun _ m pc => pc.client m)
    (fun m x => m.values = x) ?_ ?_ ?_
  · intro s h
    obtain ⟨-, -, -, hpushed, hpopped, hidle⟩ := h
    refine ⟨⟨[], rfl, ?_⟩, fun t => ?_⟩
    · rw [Fifo.values, hpushed, hpopped]
      rfl
    · rw [hidle t]
      rfl
  · intro t s s' hr hs u hu
    obtain ⟨g, hI, hL⟩ := hinv hr
    obtain ⟨c, he⟩ := hs.2.exec
    exact client_of_data (hL u) fun n hn => data_of_exec hI (hL t) he hn hu
  · rintro t s s' x ⟨hist, hr⟩ hs rfl
    obtain ⟨g, hI, -⟩ := hinv ⟨hist, hr⟩
    obtain ⟨g', hI', -⟩ := hinv ⟨_, hr.next hs⟩
    obtain ⟨c, he⟩ := hs.2.exec
    refine ⟨s'.mem.values, rfl, ?_⟩
    have hmove := move_of_exec he
    refine goes_of_history hmove hI.popped_prefix hI'.popped_prefix fun hans => ?_
    -- the link that is NULL is that of the head, or the queue is a loose one
    rw [empty_of_answers hans] at he
    cases loose with
    | true => exact .inr rfl
    | false =>
      have hlength := hI.length_of_readsNull (readsNull_of_exec he) (hs.1.2 rfl)
      exact .inl (List.drop_eq_nil_of_le (Nat.le_of_eq hlength))

end Runs

/-- Threads 0 and 2 pop at the same time while thread 1 pushes: thread 2 gets the item, and thread 0
has to try again. -/
theorem distFifo_calls_linearizable_race :
    ∃ (s : Config Nat (Fifo 64 Nat Nat Nat) (Pc 64 Nat Nat)) (hist : _),
      Run Init ((distProgram 1).StepIf (TruthfulUnless false)) s hist ∧ distInterface.trace hist =
        [(1, .call (.push 7)), (0, .call .trypop), (2, .call .trypop), (1, .ret .pushed),
          (0, .ret .retry), (2, .ret (.popped 7))] ∧
        Linearizable (retryQueue Nat false) (distInterface.trace hist) := by
  have hstart : Run Init ((distProgram (w := 64) 1).StepIf (TruthfulUnless false))
      (initial 0 0 1) [] := .start (init_initial 0 0 1)
  obtain ⟨s, hist, run, htrace⟩ := hstart.exists_of_historyIf
    (q := fun _ hist => distInterface.trace hist =
      [(1, .call (.push 7)), (0, .call .trypop), (2, .call .trypop), (1, .ret .pushed),
        (0, .ret .retry), (2, .ret (.popped 7))])
    (List.flatten [[(1, .push 1 7)], List.replicate 3 (1, .step), [(0, .pop), (2, .pop)],
      List.replicate 4 (0, .step), List.replicate 6 (2, .step), [(1, .step)],
      List.replicate 2 (0, .step), [(2, .step)]])
    (by decide +kernel)
  exact ⟨s, hist, run, htrace, distFifo_calls_linearizable run⟩

end FibConcurrent.DistFifo
