import FibConcurrent.Data.Container
import FibConcurrent.MpscFifo.Correct

/-!
# MpscFifo — what clients see is a queue with a peek

A push takes effect at its exchange of `tail`. A successful pop may take effect when it returns, and
a peek when it reads, since the consumer alone takes items and pushes add them at the other
end. A pop or a peek that meets an unlinked head answers that there is nothing, although there may
be completed pushes behind it.
-/

namespace FibConcurrent.MpscFifo

open FibConcurrent.Machine FibConcurrent.Data

variable {ι ν α : Type*}

/-- What a client asks for; `wants` tells whether a peek is passed a place for the data. -/
inductive Request (α : Type*) where
  | push (data : α)
  | trypop
  | peek (wants : Bool)
deriving DecidableEq

/-- What the client is answered; `peeked` is a peek that returns 1. -/
inductive Response (α : Type*) where
  | pushed
  | popped (data : α)
  | nothing
  | peeked (data : Option α)
deriving DecidableEq

/-- One operation of a queue. A loose one may answer that there is nothing when there is. -/
inductive QueueLegal (loose : Bool) : List α → Request α → Response α → List α → Prop
  | push (data : α) (l : List α) : QueueLegal loose l (.push data) .pushed (l ++ [data])
  | trypop (data : α) (l : List α) : QueueLegal loose (data :: l) .trypop (.popped data) l
  | peek (wants : Bool) (data : α) (l : List α) : QueueLegal loose (data :: l) (.peek wants)
      (.peeked (if wants then some data else none)) (data :: l)
  | trypopNothing (l : List α) (h : l = [] ∨ loose = true) : QueueLegal loose l .trypop .nothing l
  | peekNothing (wants : Bool) (l : List α) (h : l = [] ∨ loose = true) :
      QueueLegal loose l (.peek wants) .nothing l

/-- A queue, empty to begin with. -/
def peekQueue (α : Type*) (loose : Bool) : Object (List α) (Request α) (Response α) where
  start l := l = []
  legal := QueueLegal loose

/-- A push is done once it has exchanged the tail; until then its data is in the node. -/
def PushPc.client (f : Fifo ν α) : PushPc ν → Client (Request α) (Response α)
  | .clearNext newNode => .pending (.push (f.data newNode))
  | .exchangeTail newNode => .pending (.push (f.data newNode))
  | .linkNext .. => .done .pushed

def PeekPc.wants : PeekPc ν → Bool
  | .readHead wants => wants
  | .readNext wants _ => wants
  | .readData _ => true

/-- What a peek returns. -/
def peekResponse : Option (Option α) → Response α
  | some data => .peeked data
  | none => .nothing

/-- A pop with a node in its hands takes effect when it returns. -/
def Pc.client (m : Mem ν α) : Pc ν α → Client (Request α) (Response α)
  | .idle => .idle
  | .push pc => pc.client m.fifo
  | .trypop _ => .pending .trypop
  | .trypopRet (some _) => .pending .trypop
  | .trypopRet none => .done .nothing
  | .peek pc => .pending (.peek pc.wants)
  | .peekRet result => .done (peekResponse result)

/-- Calls to the three operations, seen from outside. -/
def fifoInterface : Interface ι (Mem ν α) (Pc ν α) (Request α) (Response α) where
  busy
    | .idle => false
    | _ => true
  op _ m
    | .push (.clearNext newNode) => .push (m.fifo.data newNode)
    | .peek pc => .peek pc.wants
    | _ => .trypop
  result _ m
    | .trypopRet (some node) => .popped (m.fifo.data node)
    | .trypopRet none => .nothing
    | .peekRet result => peekResponse result
    | _ => .pushed

/-- The node whose link a pop or a peek reads. -/
def Pc.readsLink : Pc ν α → Option ν
  | .trypop (.readNext prevHead) => some prevHead
  | .peek (.readNext _ head) => some head
  | _ => none

/-- The consumer does not find the head unlinked while there is something behind it, except in a
loose queue. -/
def NoneMissed (loose : Bool) (_t : ι) (m : Mem ν α) (pc : Pc ν α) (_m' : Mem ν α) : Prop :=
  loose = false → ∀ head ∈ pc.readsLink, m.fifo.next head = none →
    m.popped.length = m.fifo.pushed.length

instance [DecidableEq ν] (loose : Bool) (t : ι) (m : Mem ν α) (pc : Pc ν α) (m' : Mem ν α) :
    Decidable (NoneMissed loose t m pc m') :=
  inferInstanceAs (Decidable (_ → ∀ head ∈ pc.readsLink, _ → _))

/-- The data that have been pushed and not been returned. -/
def Mem.values (m : Mem ν α) : List α := remaining m.fifo.pushed m.popped

section Values

variable {m : Mem ν α} {g : Ghost ι ν α} {consumer : ι} {n : ν}

theorem popped_le {pc : Pc ν α} (hI : Inv m.fifo m.owned g)
    (hC : callFacts consumer consumer m g pc) : m.popped.length ≤ m.fifo.pushed.length := by
  have hprefix : m.popped <+: m.fifo.pushed := by
    rw [hI.values]
    exact (popped_prefix_out hC).trans (List.prefix_append ..)
  exact hprefix.length_le

/-- Between the calls of the consumer a linked node carries the oldest datum. -/
theorem values_of_next (hI : Inv m.fifo m.owned g) (hout : g.out = m.popped)
    (hn : m.fifo.next m.fifo.head = some n) : ∃ rest, m.values = m.fifo.data n :: rest := by
  obtain ⟨-, rest, hrest⟩ := hI.next_head hn
  have hvalues := hI.values
  rw [hout, hrest, List.tail_cons, List.map_cons] at hvalues
  exact ⟨_, remaining_append hvalues⟩

/-- The datum of the node that is about to be returned is the oldest one. -/
theorem values_of_out (hI : Inv m.fifo m.owned g) {data : α} (hout : g.out = m.popped ++ [data]) :
    m.values = data :: remaining m.fifo.pushed (m.popped ++ [data]) := by
  have hvalues := hI.values
  rw [hout] at hvalues
  rw [remaining_append hvalues]
  rw [List.append_assoc] at hvalues
  exact remaining_append hvalues

theorem values_of_missed {loose : Bool} {t : ι} {pc : Pc ν α} {m' : Mem ν α}
    (hok : NoneMissed loose t m pc m') (hpc : n ∈ pc.readsLink) (hnull : m.fifo.next n = none) :
    m.values = [] ∨ loose = true := by
  cases loose with
  | true => exact .inr rfl
  | false =>
    have hempty := hok rfl n hpc hnull
    exact .inl (List.drop_eq_nil_of_le (Nat.le_of_eq hempty.symm))

end Values

section Step

variable [DecidableEq ι] [DecidableEq ν] {loose : Bool} {m m' : Mem ν α} {g : Ghost ι ν α}
  {consumer t : ι} {c : Choice ν α}

omit [DecidableEq ι] in
theorem goes_of_push {pc : PushPc ν} (hle : m.popped.length ≤ m.fifo.pushed.length) :
    (peekQueue α loose).Goes m.values (pc.client m.fifo)
      (fifoInterface.labels t m (.push pc) { m with fifo := (pushStep m.fifo pc).1 }
        (match (pushStep m.fifo pc).2 with
        | some pc' => .push pc'
        | none => .idle))
      (Mem.values { m with fifo := (pushStep m.fifo pc).1 })
      (Pc.client { m with fifo := (pushStep m.fifo pc).1 } (match (pushStep m.fifo pc).2 with
        | some pc' => .push pc'
        | none => .idle)) := by
  cases pc with
  | clearNext n => exact .refl
  | exchangeTail n =>
    have hvalues : Mem.values { m with fifo := (pushStep m.fifo (.exchangeTail n)).1 } =
        m.values ++ [m.fifo.data n] := remaining_put hle _
    rw [hvalues]
    exact .perform .refl (.push (m.fifo.data n) m.values)
  | linkNext p n => exact .ret .refl

omit [DecidableEq ι] in
theorem goes_of_pop {pc : PopPc ν α} (hok : NoneMissed loose t m (.trypop pc) m') :
    (peekQueue α loose).Goes m.values (.pending .trypop)
      (fifoInterface.labels t m (.trypop pc) { m with fifo := (popStep m.fifo pc).1 }
        (match (popStep m.fifo pc).2 with
        | .inl pc' => .trypop pc'
        | .inr node => .trypopRet node))
      (Mem.values { m with fifo := (popStep m.fifo pc).1 })
      (Pc.client { m with fifo := (popStep m.fifo pc).1 } (match (popStep m.fifo pc).2 with
        | .inl pc' => .trypop pc'
        | .inr node => .trypopRet node)) := by
  cases pc with
  | readNext p =>
    cases hnext : m.fifo.next p with
    | some n =>
      simp only [popStep, hnext]
      exact .refl
    | none =>
      simp only [popStep, hnext]
      exact .perform .refl (.trypopNothing m.values (values_of_missed hok rfl hnext))
  | _ => exact .refl

omit [DecidableEq ι] [DecidableEq ν] in
theorem goes_of_peek {pc : PeekPc ν} (hI : Inv m.fifo m.owned g) (hout : g.out = m.popped)
    (hp : PeekFacts m.fifo pc) (hok : NoneMissed loose t m (.peek pc) m') :
    (peekQueue α loose).Goes m.values (.pending (.peek pc.wants))
      (fifoInterface.labels t m (.peek pc) m (match peekStep m.fifo pc with
        | .inl pc' => .peek pc'
        | .inr result => .peekRet result)) m.values
      (Pc.client m (match peekStep m.fifo pc with
        | .inl pc' => .peek pc'
        | .inr result => .peekRet result)) := by
  cases pc with
  | readHead wants => exact .refl
  | readNext wants p =>
    cases hnext : m.fifo.next p with
    | none =>
      simp only [peekStep, hnext]
      exact .perform .refl (.peekNothing wants m.values (values_of_missed hok rfl hnext))
    | some n =>
      simp only [peekStep, hnext]
      cases wants with
      | true => exact .refl
      | false =>
        have hhead : m.fifo.head = p := hp
        obtain ⟨rest, hvalues⟩ := values_of_next hI hout (hhead.symm ▸ hnext)
        rw [hvalues]
        exact .perform .refl (.peek false _ rest)
  | readData n =>
    obtain ⟨rest, hvalues⟩ := values_of_next hI hout hp
    rw [hvalues]
    exact .perform .refl (.peek true _ rest)

/-- **Every access is a move of the client of a queue.** -/
theorem goes_of_exec {pc pc' : Pc ν α} (hI : Inv m.fifo m.owned g)
    (hL : threadFacts consumer t m g pc) (hle : m.popped.length ≤ m.fifo.pushed.length)
    (he : exec consumer t c m pc = some (m', pc')) (hok : NoneMissed loose t m pc m') :
    (peekQueue α loose).Goes m.values (pc.client m) (fifoInterface.labels t m pc m' pc') m'.values
      (pc'.client m') := by
  obtain ⟨-, hL⟩ := hL
  cases pc with
  | idle =>
    cases c with
    | push n d =>
      obtain ⟨-, he⟩ := Option.ite_none_right_eq_some.mp he
      obtain ⟨rfl, rfl⟩ := Prod.mk.inj (Option.some.inj he)
      exact .call _ .refl
    | trypop =>
      obtain ⟨-, he⟩ := Option.ite_none_right_eq_some.mp he
      obtain ⟨rfl, rfl⟩ := Prod.mk.inj (Option.some.inj he)
      exact .call _ .refl
    | peek wants =>
      obtain ⟨-, he⟩ := Option.ite_none_right_eq_some.mp he
      obtain ⟨rfl, rfl⟩ := Prod.mk.inj (Option.some.inj he)
      exact .call _ .refl
    | write n d x =>
      obtain ⟨-, he⟩ := Option.ite_none_right_eq_some.mp he
      obtain ⟨rfl, rfl⟩ := Prod.mk.inj (Option.some.inj he)
      exact .refl
    | step => cases he
  | push pc =>
    obtain ⟨rfl, rfl⟩ := Prod.mk.inj (Option.some.inj he)
    exact goes_of_push hle
  | trypop pc =>
    obtain ⟨rfl, rfl⟩ := Prod.mk.inj (Option.some.inj he)
    exact goes_of_pop hok
  | trypopRet node =>
    cases node with
    | none =>
      obtain ⟨rfl, rfl⟩ := Prod.mk.inj (Option.some.inj he)
      exact .ret .refl
    | some n =>
      obtain ⟨rfl, rfl⟩ := Prod.mk.inj (Option.some.inj he)
      obtain ⟨-, -, hout, -⟩ := hL
      have hperform : (peekQueue α loose).Goes
          (m.fifo.data n :: remaining m.fifo.pushed (m.popped ++ [m.fifo.data n])) (.pending .trypop)
          [] (remaining m.fifo.pushed (m.popped ++ [m.fifo.data n]))
          (.done (.popped (m.fifo.data n))) := .perform .refl (.trypop ..)
      rw [values_of_out hI hout]
      exact hperform.ret
  | peek pc =>
    obtain ⟨rfl, rfl⟩ := Prod.mk.inj (Option.some.inj he)
    exact goes_of_peek hI hL.2.1.1 hL.2.2 hok
  | peekRet result =>
    rcases result with _ | _ | d
    all_goals
      obtain ⟨rfl, rfl⟩ := Prod.mk.inj (Option.some.inj he)
      exact .ret .refl

/-- The data of a node that another thread has in its hands. -/
theorem data_of_exec {u : ι} {n : ν} {pc pc' : Pc ν α} (hI : Inv m.fifo m.owned g)
    (hL : threadFacts consumer t m g pc) (he : exec consumer t c m pc = some (m', pc'))
    (hheld : g.held n = some u) (hu : u ≠ t) : m'.fifo.data n = m.fifo.data n := by
  have howned : ∀ x, m.owned x = true → n ≠ x := by
    rintro x hx rfl
    obtain ⟨-, hnone⟩ := hI.owned_out n hx
    rw [hheld] at hnone
    cases hnone
  cases pc with
  | idle =>
    cases c with
    | push x d =>
      obtain ⟨hx, he⟩ := Option.ite_none_right_eq_some.mp he
      obtain ⟨rfl, -⟩ := Prod.mk.inj (Option.some.inj he)
      exact Function.update_of_ne (howned x hx) ..
    | write x d y =>
      obtain ⟨hx, he⟩ := Option.ite_none_right_eq_some.mp he
      obtain ⟨rfl, -⟩ := Prod.mk.inj (Option.some.inj he)
      exact Function.update_of_ne (howned x hx) ..
    | step => cases he
    | _ =>
      obtain ⟨-, he⟩ := Option.ite_none_right_eq_some.mp he
      obtain ⟨rfl, -⟩ := Prod.mk.inj (Option.some.inj he)
      rfl
  | push pc =>
    obtain ⟨rfl, -⟩ := Prod.mk.inj (Option.some.inj he)
    cases pc <;> rfl
  | trypop pc =>
    obtain ⟨rfl, -⟩ := Prod.mk.inj (Option.some.inj he)
    obtain ⟨-, -, hp, -⟩ := hL
    cases pc with
    | readNext p =>
      simp only [popStep]
      split <;> rfl
    | writeData p d =>
      refine Function.update_of_ne ?_ ..
      rintro rfl
      exact hu (Option.some.inj (hheld.symm.trans hp.2))
    | _ => rfl
  | trypopRet node =>
    cases node <;>
    · obtain ⟨rfl, -⟩ := Prod.mk.inj (Option.some.inj he)
      rfl
  | peek pc =>
    obtain ⟨rfl, -⟩ := Prod.mk.inj (Option.some.inj he)
    rfl
  | peekRet result =>
    rcases result with _ | _ | d
    all_goals
      obtain ⟨rfl, -⟩ := Prod.mk.inj (Option.some.inj he)
      rfl

omit [DecidableEq ι] [DecidableEq ν] in
theorem client_of_data {u : ι} {pc : Pc ν α} (hL : threadFacts consumer u m g pc)
    (hdata : ∀ n, g.held n = some u → m'.fifo.data n = m.fifo.data n) :
    pc.client m' = pc.client m := by
  obtain ⟨-, hL⟩ := hL
  have hpending : ∀ n, g.held n = some u →
      (.pending (.push (m'.fifo.data n)) : Client (Request α) (Response α)) =
        .pending (.push (m.fifo.data n)) := by
    intro n hn
    rw [hdata n hn]
  cases pc with
  | push pc =>
    cases pc with
    | clearNext n => exact hpending n hL.1
    | exchangeTail n => exact hpending n hL.1.1
    | linkNext p n => rfl
  | trypopRet node => cases node <;> rfl
  | _ => rfl

end Step

section Runs

variable [DecidableEq ι] [DecidableEq ν] {loose : Bool} {consumer : ι}
  {s : Config ι (Mem ν α) (Pc ν α)} {hist : List (Event ι (Config ι (Mem ν α) (Pc ν α)))}

/-- **`mpsc_fifo` is linearizable to a queue with a peek**: a loose one in every interleaving, a
true one in every interleaving in which the consumer does not find the head unlinked while
there is something behind it. -/
theorem mpscFifo_calls_linearizable
    (run : Run Init ((fifoProgram consumer).StepIf (NoneMissed loose)) s hist) :
    Linearizable (peekQueue α loose) (fifoInterface.trace hist) := by
  have hinv : ∀ {s : Config ι (Mem ν α) (Pc ν α)},
      (∃ hist, Run Init ((fifoProgram consumer).StepIf (NoneMissed loose)) s hist) →
        (fifoAssertion consumer).Holds s :=
    fun ⟨_, hr⟩ => fifo_invariant (hr.mono fun _ _ _ h => h.2)
  refine run.linearizable (peekQueue α loose) (fun _ m pc => pc.client m)
    (fun m x => m.values = x) ?_ ?_ ?_
  · intro s h
    obtain ⟨-, -, hpushed, -, hpopped, -, hidle⟩ := h
    refine ⟨⟨[], rfl, ?_⟩, fun t => ?_⟩
    · rw [Mem.values, hpushed, hpopped]
      rfl
    · rw [hidle t]
      rfl
  · intro t s s' hr hs u hu
    obtain ⟨g, hI, hL⟩ := hinv hr
    obtain ⟨c, he⟩ := hs.2.exec
    exact client_of_data (hL u) fun n hn => data_of_exec hI (hL t) he hn hu
  · rintro t s s' x hr hs rfl
    obtain ⟨g, hI, hL⟩ := hinv hr
    obtain ⟨c, he⟩ := hs.2.exec
    exact ⟨s'.mem.values, rfl,
      goes_of_exec hI (hL t) (popped_le hI (hL consumer).2) he hs.1⟩

end Runs

/-- Threads 1 and 2 push at the same time; the consumer sees the datum of thread 2, which has
exchanged the tail first, while thread 1 is still pushing, and takes it. -/
theorem mpscFifo_calls_linearizable_two_producers :
    ∃ (s : Config Nat (Mem Nat Nat) (Pc Nat Nat)) (hist : _),
      Run Init ((fifoProgram 0).StepIf (NoneMissed false)) s hist ∧ fifoInterface.trace hist =
        [(1, .call (.push 7)), (2, .call (.push 8)), (2, .ret .pushed), (0, .call (.peek true)),
          (0, .ret (.peeked (some 8))), (0, .call .trypop), (1, .ret .pushed),
          (0, .ret (.popped 8))] ∧
        Linearizable (peekQueue Nat false) (fifoInterface.trace hist) := by
  have hstart : Run Init ((fifoProgram (ν := Nat) (α := Nat) 0).StepIf (NoneMissed false))
      (initial 0 0) [] := .start (init_initial 0 0)
  obtain ⟨s, hist, run, htrace⟩ := hstart.exists_of_historyIf
    (q := fun _ hist => fifoInterface.trace hist =
      [(1, .call (.push 7)), (2, .call (.push 8)), (2, .ret .pushed), (0, .call (.peek true)),
        (0, .ret (.peeked (some 8))), (0, .call .trypop), (1, .ret .pushed), (0, .ret (.popped 8))])
    (List.flatten [[(1, .push 1 7), (1, .step), (2, .push 2 8)], List.replicate 3 (2, .step),
      [(1, .step), (0, .peek true)], List.replicate 4 (0, .step), [(0, .trypop), (1, .step)],
      List.replicate 6 (0, .step)])
    (by decide +kernel)
  exact ⟨s, hist, run, htrace, mpscFifo_calls_linearizable run⟩

end FibConcurrent.MpscFifo
