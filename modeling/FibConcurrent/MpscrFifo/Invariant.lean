import FibConcurrent.Data.Segments
import FibConcurrent.MpscrFifo.Model

/-!
# MpscrFifo — where every node is

A node is with the clients, in the chain of one fifo, in the push of one
producer, or with the consumer that has taken it out (`Place`). A chain holds
the nodes that are linked, from `head` on; the node of a push joins it with the
last store of the push, when `tail` has already moved on to it.

Nodes travel between the fifos, but one at a time and through the clients, so
the places say at once that the chains are disjoint.
-/

namespace FibConcurrent.MpscrFifo

open FibConcurrent.Machine FibConcurrent.Data

variable {n : Nat} {ν α : Type*}

inductive Place (n : Nat) where
  | client
  | fifo (p : Fin n)
  | producer (p : Fin n)
  | consumer
deriving DecidableEq

/-- Ghost: the linked nodes of every fifo, the node of every push, and the data
that the consumer has taken from every fifo. -/
structure Ghost (n : Nat) (ν α : Type*) where
  chain : Fin n → List ν
  pend : Fin n → Option ν
  taken : Fin n → List α
  place : ν → Place n

/-- What has been pushed and not been taken: behind the dummy, or on its way. -/
def Ghost.waiting (g : Ghost n ν α) (p : Fin n) : List ν := (g.chain p).tail ++ (g.pend p).toList

structure Inv (m : Memory n ν α) (g : Ghost n ν α) : Prop where
  head : ∀ p, (g.chain p).head? = some (m.head p)
  linked : ∀ p, Linked m.next (g.chain p)
  nodup : ∀ p, (g.chain p).Nodup
  values : ∀ p, m.pushed p = g.taken p ++ (g.waiting p).map m.data
  chain : ∀ p x, x ∈ g.chain p ↔ g.place x = .fifo p
  pend : ∀ p x, g.pend p = some x → g.place x = .producer p
  owned : ∀ x, m.owned x = true → g.place x = .client

/-! ## What a call knows at each of its program points -/

/-- The push of producer `p` has its node in hand, and `prevTail` is the last
linked one. -/
def Pushing (p : Fin n) (g : Ghost n ν α) (x prevTail : ν) : Prop :=
  g.pend p = some x ∧ (g.chain p).getLast? = some prevTail

def PushFacts (p : Fin n) (m : Memory n ν α) (g : Ghost n ν α) : PushPc ν → Prop
  | .clearNext x => Pushing p g x (m.tail p)
  | .readTail x => Pushing p g x (m.tail p) ∧ m.next x = none
  | .writeTail x prevTail => (Pushing p g x prevTail ∧ m.next x = none) ∧ m.tail p = prevTail
  | .linkNext x prevTail => (Pushing p g x prevTail ∧ m.next x = none) ∧ m.tail p = x

def ProducerFacts (p : Fin n) (m : Memory n ν α) (g : Ghost n ν α) : Pc n ν α → Prop
  | .idle => g.pend p = none ∧ (g.chain p).getLast? = some (m.tail p)
  | .push pc => PushFacts p m g pc
  | _ => False

/-- What the consumer has taken is what `popped` records. -/
def Took (g : Ghost n ν α) (popped : List (Fin n × α)) : Prop :=
  ∀ p, g.taken p = poppedFrom p popped

def PopFacts (index : Fin n) (m : Memory n ν α) (g : Ghost n ν α) : PopPc ν α → Prop
  | .readHead => Took g m.popped
  | .readNext h => Took g m.popped ∧ m.head index = h
  | .writeHead h x => Took g m.popped ∧ m.head index = h ∧ m.next h = some x
  | .readData h x => Took g (m.popped ++ [(index, m.data x)]) ∧ m.head index = x ∧
      g.place h = .consumer
  | .writeData h d => Took g (m.popped ++ [(index, d)]) ∧ g.place h = .consumer

def ConsumerFacts (m : Memory n ν α) (g : Ghost n ν α) : Pc n ν α → Prop
  | .idle => Took g m.popped
  | .push _ => False
  | .nextFifo _ => Took g m.popped
  | .pop _ index pc => PopFacts index m g pc
  | .popRet none => Took g m.popped
  | .popRet (some x) => Took g m.popped ∧ g.place x = .consumer ∧
      m.popped.getLast?.map Prod.snd = some (m.data x)

def ThreadFacts (t : Party n) (m : Memory n ν α) (g : Ghost n ν α) (pc : Pc n ν α) : Prop :=
  match t with
  | .producer p => ProducerFacts p m g pc
  | .consumer => ConsumerFacts m g pc

def fifoAssertion : Assertion (Party n) (Memory n ν α) (Ghost n ν α) (Pc n ν α) where
  shared := Inv
  thread := ThreadFacts

/-! ## What the accesses of others leave alone -/

/-- What producer `p` may rely on: its tail, the end of its chain, the node of
its push. -/
structure KeepsPush (p : Fin n) (m : Memory n ν α) (g : Ghost n ν α) (m' : Memory n ν α)
    (g' : Ghost n ν α) : Prop where
  tail : m'.tail p = m.tail p
  pend : g'.pend p = g.pend p
  last : (g'.chain p).getLast? = (g.chain p).getLast?
  next : ∀ x, g.pend p = some x → m'.next x = m.next x

/-- What the consumer may rely on: the heads and the links behind them, what it
has taken, and the node in its hands. -/
structure KeepsPop (m : Memory n ν α) (g : Ghost n ν α) (m' : Memory n ν α)
    (g' : Ghost n ν α) : Prop where
  head : m'.head = m.head
  taken : g'.taken = g.taken
  popped : m'.popped = m.popped
  next : ∀ p x, m.next (m.head p) = some x → m'.next (m.head p) = some x
  data : ∀ p, m'.data (m.head p) = m.data (m.head p)
  held : ∀ x, g.place x = .consumer → g'.place x = .consumer ∧ m'.data x = m.data x

/-- What thread `u` may rely on. -/
def Keeps (u : Party n) (m : Memory n ν α) (g : Ghost n ν α) (m' : Memory n ν α)
    (g' : Ghost n ν α) : Prop :=
  match u with
  | .producer p => KeepsPush p m g m' g'
  | .consumer => KeepsPop m g m' g'

section Keeps

variable {m m' : Memory n ν α} {g g' : Ghost n ν α} {p : Fin n}

theorem keeps_refl (u : Party n) : Keeps u m g m g := by
  cases u with
  | producer p => exact ⟨rfl, rfl, rfl, fun x hx => rfl⟩
  | consumer => exact ⟨rfl, rfl, rfl, fun p x hx => hx, fun p => rfl, fun x hx => ⟨hx, rfl⟩⟩

theorem Pushing.keep {x y : ν} (h : Pushing p g x y) (hk : KeepsPush p m g m' g') :
    Pushing p g' x y :=
  ⟨hk.pend.trans h.1, hk.last.trans h.2⟩

theorem ProducerFacts.keep {pc : Pc n ν α} (h : ProducerFacts p m g pc)
    (hk : KeepsPush p m g m' g') : ProducerFacts p m' g' pc := by
  cases pc with
  | idle =>
    refine ⟨hk.pend.trans h.1, ?_⟩
    rw [hk.tail]
    exact hk.last.trans h.2
  | push pc =>
    cases pc with
    | clearNext x =>
      have hp : Pushing p g' x (m.tail p) := Pushing.keep h hk
      rwa [← hk.tail] at hp
    | readTail x =>
      have hp : Pushing p g' x (m.tail p) := h.1.keep hk
      rw [← hk.tail] at hp
      exact ⟨hp, (hk.next x h.1.1).trans h.2⟩
    | writeTail x y =>
      obtain ⟨⟨hp, hnull⟩, htail⟩ := h
      exact ⟨⟨hp.keep hk, (hk.next x hp.1).trans hnull⟩, hk.tail.trans htail⟩
    | linkNext x y =>
      obtain ⟨⟨hp, hnull⟩, htail⟩ := h
      exact ⟨⟨hp.keep hk, (hk.next x hp.1).trans hnull⟩, hk.tail.trans htail⟩
  | _ => exact h

theorem Took.keep {l : List (Fin n × α)} (h : Took g l) (hk : KeepsPop m g m' g') :
    Took g' l := by
  intro p
  rw [hk.taken]
  exact h p

theorem PopFacts.keep {index : Fin n} {pc : PopPc ν α} (h : PopFacts index m g pc)
    (hk : KeepsPop m g m' g') : PopFacts index m' g' pc := by
  have hpopped := hk.popped
  cases pc with
  | readHead =>
    show Took g' m'.popped
    rw [hpopped]
    exact Took.keep h hk
  | readNext x =>
    obtain ⟨htook, hhead⟩ := h
    refine ⟨?_, ?_⟩
    · rw [hpopped]
      exact htook.keep hk
    · rw [hk.head]
      exact hhead
  | writeHead x y =>
    obtain ⟨htook, hhead, hnext⟩ := h
    subst hhead
    refine ⟨?_, ?_, hk.next index y hnext⟩
    · rw [hpopped]
      exact htook.keep hk
    · rw [hk.head]
  | readData x y =>
    obtain ⟨htook, hhead, hplace⟩ := h
    subst hhead
    refine ⟨?_, ?_, (hk.held x hplace).1⟩
    · rw [hpopped, hk.data]
      exact htook.keep hk
    · rw [hk.head]
  | writeData x d =>
    obtain ⟨htook, hplace⟩ := h
    refine ⟨?_, (hk.held x hplace).1⟩
    rw [hpopped]
    exact htook.keep hk

theorem ConsumerFacts.keep {pc : Pc n ν α} (h : ConsumerFacts m g pc)
    (hk : KeepsPop m g m' g') : ConsumerFacts m' g' pc := by
  have htook : Took g m.popped → Took g' m'.popped := by
    intro htook
    rw [hk.popped]
    exact htook.keep hk
  cases pc with
  | idle => exact htook h
  | push pc => exact h
  | nextFifo i => exact htook h
  | pop i index pc => exact PopFacts.keep h hk
  | popRet out =>
    cases out with
    | none => exact htook h
    | some x =>
      obtain ⟨hplace, hdata⟩ := hk.held x h.2.1
      refine ⟨htook h.1, hplace, ?_⟩
      rw [hk.popped, hdata]
      exact h.2.2

theorem ThreadFacts.keep {u : Party n} {pc : Pc n ν α} (h : ThreadFacts u m g pc)
    (hk : Keeps u m g m' g') : ThreadFacts u m' g' pc := by
  cases u with
  | producer p => exact ProducerFacts.keep h hk
  | consumer => exact ConsumerFacts.keep h hk

end Keeps

/-! ## Places -/

section Places

variable {m : Memory n ν α} {g : Ghost n ν α} {p q : Fin n} {x y : ν}

theorem Inv.chain_eq (hI : Inv m g) (p : Fin n) : ∃ rest, g.chain p = m.head p :: rest := by
  obtain ⟨rest, hrest⟩ := List.head?_eq_some_iff.mp (hI.head p)
  exact ⟨rest, hrest⟩

theorem Inv.head_place (hI : Inv m g) (p : Fin n) : g.place (m.head p) = .fifo p :=
  (hI.chain p _).mp (List.mem_of_mem_head? (hI.head p))

/-- A written link behind a head leads to the next node of the chain. -/
theorem Inv.chain_of_next (hI : Inv m g) (hx : m.next (m.head p) = some x) :
    ∃ rest, g.chain p = m.head p :: x :: rest := by
  obtain ⟨rest, hrest⟩ := hI.chain_eq p
  have hl := hI.linked p
  rw [hrest, linked_cons, hx] at hl
  obtain ⟨rest', rfl⟩ := List.head?_eq_some_iff.mp hl.1.symm
  exact ⟨rest', hrest⟩

theorem Inv.not_mem (hI : Inv m g) (hx : g.place x ≠ .fifo p) : x ∉ g.chain p :=
  fun hmem => hx ((hI.chain p x).mp hmem)

/-- A node is in the push of one producer only. -/
theorem Inv.pend_unique (hI : Inv m g) (hq : g.pend q = some x) (hp : g.place x = .producer p) :
    q = p :=
  Place.producer.inj ((hI.pend q x hq).symm.trans hp)

/-- A node that waits in fifo `p` is in its chain or in its push. -/
theorem Inv.waiting_place (hI : Inv m g) (hx : x ∈ g.waiting p) :
    g.place x = .fifo p ∨ g.place x = .producer p := by
  rcases List.mem_append.mp hx with hx | hx
  · exact .inl ((hI.chain p x).mp (List.mem_of_mem_tail hx))
  · exact .inr (hI.pend p x (Option.mem_toList.mp hx))

variable [DecidableEq ν]

/-- A store to the data of a node that does not wait. -/
theorem Inv.values_update (hI : Inv m g) (d : α)
    (hx : g.place x = .client ∨ g.place x = .consumer) (p : Fin n) :
    m.pushed p = g.taken p ++ (g.waiting p).map (Function.update m.data x d) := by
  rw [hI.values p]
  congr 1
  apply List.map_congr_left
  intro y hy
  refine (Function.update_of_ne ?_ ..).symm
  rintro rfl
  have hplace := hI.waiting_place hy
  rcases hx with hx | hx <;> simp [hx] at hplace

/-- A store to the link of a node that is in no chain. -/
theorem Inv.linked_update (hI : Inv m g) (v : Option ν) (hx : ∀ p, g.place x ≠ .fifo p)
    (p : Fin n) : Linked (Function.update m.next x v) (g.chain p) :=
  (hI.linked p).update_next (hI.not_mem (hx p))

end Places

end FibConcurrent.MpscrFifo
