import FibConcurrent.DistFifo.Invariant
import FibConcurrent.Machine.Linearizable

/-!
# DistFifo — calls and what is pushed and popped

A push appends the datum of its node to `pushed` when it links the node, a pop the datum that it
will return to `popped` with its swap, and a pop that fails appends nothing: the calls and returns
are those of an object that only keeps this history. What a push is about to append, and what a pop
returns, is in a node that no other thread has.
-/

namespace FibConcurrent.DistFifo

open FibConcurrent.Machine

variable {ι ν α : Type*} {w : Nat}

/-- What a client asks for. -/
inductive Request (α : Type*) where
  | push (data : α)
  | trypop
deriving DecidableEq

/-- What the client is answered. -/
inductive Response (α : Type*) where
  | pushed
  | popped (data : α)
  | empty
  | retry
deriving DecidableEq

/-- What an operation appends to `pushed` and `popped`. -/
inductive HistoryLegal :
    List α × List α → Request α → Response α → List α × List α → Prop
  | push (data : α) (pushed popped : List α) :
      HistoryLegal (pushed, popped) (.push data) .pushed (pushed ++ [data], popped)
  | trypop (data : α) (pushed popped : List α) :
      HistoryLegal (pushed, popped) .trypop (.popped data) (pushed, popped ++ [data])
  | empty (x : List α × List α) : HistoryLegal x .trypop .empty x
  | retry (x : List α × List α) : HistoryLegal x .trypop .retry x

/-- The data pushed and the data popped, none to begin with. -/
def distHistory (α : Type*) : Object (List α × List α) (Request α) (Response α) where
  start x := x = ([], [])
  legal := HistoryLegal

/-- A push is done once its node is linked; until then its data is in the node. -/
def PushPc.client (m : Fifo w ι ν α) : PushPc ν → Client (Request α) (Response α)
  | .readTail newNode => .pending (.push (m.data newNode))
  | .clearNext _ newNode => .pending (.push (m.data newNode))
  | .linkNext _ newNode => .pending (.push (m.data newNode))
  | .writeTail _ => .done .pushed

/-- What a pop returns. -/
def PopResult.response (m : Fifo w ι ν α) : PopResult ν → Response α
  | .empty => .empty
  | .retry => .retry
  | .node n _ => .popped (m.data n)

/-- A pop is done once it has swapped the head, or knows that it fails. -/
def Pc.client (m : Fifo w ι ν α) : Pc w ν α → Client (Request α) (Response α)
  | .idle => .idle
  | .push pc => pc.client m
  | .pop (.writeData _ data _) => .done (.popped data)
  | .pop _ => .pending .trypop
  | .popRet result => .done (result.response m)

/-- Calls to `dist_fifo_push` and `dist_fifo_trypop`, seen from outside. -/
def distInterface : Interface ι (Fifo w ι ν α) (Pc w ν α) (Request α) (Response α) where
  busy
    | .idle => false
    | _ => true
  op _ m
    | .push (.readTail newNode) => .push (m.data newNode)
    | _ => .trypop
  result _ m
    | .popRet result => result.response m
    | _ => .pushed

section Step

variable [DecidableEq ν] {m m' : Fifo w ι ν α} {t : ι}

theorem move_of_push (pc : PushPc ν) :
    (distHistory α).Move (m.pushed, m.popped) (pc.client m)
      (distInterface.labels t m (.push pc) (pushStep m pc).1 (match (pushStep m pc).2 with
        | some pc' => .push pc'
        | none => .idle)) ((pushStep m pc).1.pushed, (pushStep m pc).1.popped)
      (Pc.client (pushStep m pc).1 (match (pushStep m pc).2 with
        | some pc' => .push pc'
        | none => (.idle : Pc w ν α))) := by
  cases pc with
  | readTail n => exact .stay _
  | clearNext tl n => exact .stay _
  | linkNext tl n => exact .done (HistoryLegal.push (m.data n) m.pushed m.popped)
  | writeTail n => exact .ret Response.pushed

theorem move_of_pop (pc : PopPc w ν α) :
    (distHistory α).Move (m.pushed, m.popped) (Pc.client m (.pop pc))
      (distInterface.labels t m (.pop pc) (popStep m pc).1 (match (popStep m pc).2 with
        | .inl pc' => .pop pc'
        | .inr result => .popRet result)) ((popStep m pc).1.pushed, (popStep m pc).1.popped)
      (Pc.client (popStep m pc).1 (match (popStep m pc).2 with
        | .inl pc' => .pop pc'
        | .inr result => (.popRet result : Pc w ν α))) := by
  cases pc with
  | readNext h k =>
    cases hnext : m.next h.ptr with
    | some x =>
      simp only [popStep, hnext]
      exact .stay _
    | none =>
      simp only [popStep, hnext]
      exact .done (HistoryLegal.empty (m.pushed, m.popped))
  | swap h x d k =>
    by_cases hs : m.head = h
    · simp only [popStep, hs, compareAndSwap2_self]
      exact .done (HistoryLegal.trypop d m.pushed m.popped)
    · simp only [popStep, compareAndSwap2_of_ne hs]
      exact .done (HistoryLegal.retry (m.pushed, m.popped))
  | writeData h d k =>
    have hdata : (popStep m (.writeData h d k)).1.data h = d := Function.update_self ..
    show (distHistory α).Move (m.pushed, m.popped) (.done (.popped d)) [] (m.pushed, m.popped)
      (.done (.popped ((popStep m (.writeData h d k)).1.data h)))
    rw [hdata]
    exact .stay _
  | _ => exact .stay _

variable [DecidableEq ι] {g : Ghost ι ν} {pusher : ι} {c : Choice ι ν α}

/-- **Every access is a move of a client of the history.** -/
theorem move_of_exec {pc pc' : Pc w ν α} (he : exec pusher t c m pc = some (m', pc')) :
    (distHistory α).Move (m.pushed, m.popped) (pc.client m) (distInterface.labels t m pc m' pc')
      (m'.pushed, m'.popped) (pc'.client m') := by
  cases pc with
  | idle =>
    cases c with
    | push n d =>
      obtain ⟨-, he⟩ := Option.ite_none_right_eq_some.mp he
      obtain ⟨rfl, rfl⟩ := Prod.mk.inj (Option.some.inj he)
      exact .call _
    | pop =>
      obtain ⟨rfl, rfl⟩ := Prod.mk.inj (Option.some.inj he)
      exact .call _
    | step => cases he
    | _ =>
      obtain ⟨-, he⟩ := Option.ite_none_right_eq_some.mp he
      obtain ⟨rfl, rfl⟩ := Prod.mk.inj (Option.some.inj he)
      exact .stay _
  | push pc =>
    obtain ⟨rfl, rfl⟩ := Prod.mk.inj (Option.some.inj he)
    exact move_of_push pc
  | pop pc =>
    obtain ⟨rfl, rfl⟩ := Prod.mk.inj (Option.some.inj he)
    exact move_of_pop pc
  | popRet r =>
    cases r <;>
    · obtain ⟨rfl, rfl⟩ := Prod.mk.inj (Option.some.inj he)
      exact .ret (PopResult.response m _)

/-- The data of a node that another thread has in its hands. -/
theorem data_of_exec {u : ι} {n : ν} {pc pc' : Pc w ν α} (hI : Inv m g)
    (hL : ThreadFacts pusher t m g pc) (he : exec pusher t c m pc = some (m', pc'))
    (hheld : g.held n = some u) (hu : u ≠ t) : m'.data n = m.data n := by
  have howned : ∀ x, m.owner x = some t → n ≠ x := by
    rintro x hx rfl
    obtain ⟨-, hnone⟩ := hI.owner_out n (by simp [hx])
    rw [hheld] at hnone
    cases hnone
  cases pc with
  | idle =>
    cases c with
    | push x d =>
      obtain ⟨hx, he⟩ := Option.ite_none_right_eq_some.mp he
      obtain ⟨rfl, -⟩ := Prod.mk.inj (Option.some.inj he)
      exact Function.update_of_ne (howned x hx.2) ..
    | write x d y =>
      obtain ⟨hx, he⟩ := Option.ite_none_right_eq_some.mp he
      obtain ⟨rfl, -⟩ := Prod.mk.inj (Option.some.inj he)
      exact Function.update_of_ne (howned x hx) ..
    | give x v =>
      obtain ⟨-, he⟩ := Option.ite_none_right_eq_some.mp he
      obtain ⟨rfl, -⟩ := Prod.mk.inj (Option.some.inj he)
      rfl
    | pop =>
      obtain ⟨rfl, -⟩ := Prod.mk.inj (Option.some.inj he)
      rfl
    | step => cases he
  | push pc =>
    obtain ⟨rfl, -⟩ := Prod.mk.inj (Option.some.inj he)
    cases pc <;> rfl
  | pop pc =>
    obtain ⟨rfl, -⟩ := Prod.mk.inj (Option.some.inj he)
    cases pc with
    | readNext h k =>
      simp only [popStep]
      split <;> rfl
    | swap h x d k =>
      simp only [popStep]
      split <;> rfl
    | writeData h d k =>
      refine Function.update_of_ne ?_ ..
      rintro rfl
      exact hu (Option.some.inj (hheld.symm.trans hL.call.1))
    | _ => rfl
  | popRet r =>
    cases r <;>
    · obtain ⟨rfl, -⟩ := Prod.mk.inj (Option.some.inj he)
      rfl

omit [DecidableEq ι] [DecidableEq ν] in
theorem client_of_data {u : ι} {pc : Pc w ν α} (hL : ThreadFacts pusher u m g pc)
    (hdata : ∀ n, g.held n = some u → m'.data n = m.data n) : pc.client m' = pc.client m := by
  have hcall := hL.call
  have hpending : ∀ n, g.held n = some u →
      (.pending (.push (m'.data n)) : Client (Request α) (Response α)) =
        .pending (.push (m.data n)) := by
    intro n hn
    rw [hdata n hn]
  cases pc with
  | push pc =>
    cases pc with
    | readTail n => exact hpending n hcall
    | clearNext tl n => exact hpending n hcall.1
    | linkNext tl n => exact hpending n hcall.1
    | writeTail n => rfl
  | pop pc => cases pc <;> rfl
  | popRet r =>
    cases r with
    | node n k =>
      show (.done (.popped (m'.data n)) : Client (Request α) (Response α)) = _
      rw [hdata n hcall.1]
      rfl
    | _ => rfl
  | idle => rfl

end Step

end FibConcurrent.DistFifo
