import FibConcurrent.MpscFifo.Model
import FibConcurrent.Data.Segments

/-!
# MpscFifo — the invariant of the fifo and what each access does to it

The chain from `head` to `tail` in the order of the exchanges is kept as a
ghost list `nodes`; it is broken (`Segments`) exactly at the links that some
producer still owes. A node is in the chain, in the hands of an operation
(`held`: a producer before its exchange, the consumer after it moved `head`) or
owned by a client, and never in two of these places.

`pushStep_spec` and `popStep_spec` say once what an access does to the
invariant, to the facts its own call carries, and (`Keeps`, `KeepsHead`) which
facts of the other threads it cannot disturb. Both the fifo's own theorem and
the work queue use the accesses through these two lemmas only.
-/

namespace FibConcurrent.MpscFifo

open FibConcurrent.Machine FibConcurrent.Data

variable {ι ν α : Type*}

/-- Ghost: the chain from head to tail, the owed links, the nodes inside an
operation, and the data the consumer has taken so far. -/
structure Ghost (ι ν α : Type*) where
  nodes : List ν
  pend : ν → Option (ι × ν)
  held : ν → Option ι
  out : List α

structure Inv (f : Fifo ν α) (owned : ν → Bool) (g : Ghost ι ν α) : Prop where
  head : g.nodes.head? = some f.head
  last : g.nodes.getLast? = some f.tail
  nodup : g.nodes.Nodup
  segs : Segments f.next g.pend g.nodes
  values : f.pushed = g.out ++ g.nodes.tail.map f.data
  pend_mem : ∀ a, g.pend a ≠ none → a ∈ g.nodes
  owned_out : ∀ n, owned n = true → n ∉ g.nodes ∧ g.held n = none
  held_out : ∀ n, g.held n ≠ none → n ∉ g.nodes

/-! ## What a call knows at each of its program points -/

/-- A producer holds its node until the exchange, and owes the link after it. -/
def PushFacts (t : ι) (f : Fifo ν α) (g : Ghost ι ν α) : PushPc ν → Prop
  | .clearNext n => g.held n = some t
  | .exchangeTail n => g.held n = some t ∧ f.next n = none
  | .linkNext p n => g.pend p = some (t, n)

/-- The only link a thread owes is the one its push is about to write. -/
def Owes (t : ι) (g : Ghost ι ν α) (pc : Option (PushPc ν)) : Prop :=
  ∀ a b, g.pend a = some (t, b) → pc = some (.linkNext a b)

/-- The consumer's view: `done` is what it had returned when the call began. -/
def PopFacts (t : ι) (done : List α) (f : Fifo ν α) (g : Ghost ι ν α) : PopPc ν α → Prop
  | .readHead => g.out = done
  | .readNext h => g.out = done ∧ f.head = h
  | .writeHead h n => g.out = done ∧ f.head = h ∧ f.next h = some n
  | .readData h n => g.out = done ++ [f.data n] ∧ f.head = n ∧ g.held h = some t
  | .writeData h d => g.out = done ++ [d] ∧ g.held h = some t

/-- What other threads' accesses leave alone for thread `t`: its held node and
the links it owes. -/
structure Keeps (t : ι) (f : Fifo ν α) (g : Ghost ι ν α) (f' : Fifo ν α)
    (g' : Ghost ι ν α) : Prop where
  held : ∀ n, g.held n = some t → g'.held n = some t ∧ f'.next n = f.next n ∧
    f'.data n = f.data n
  pend : ∀ a b, g'.pend a = some (t, b) ↔ g.pend a = some (t, b)

/-- What producers and clients leave alone for the consumer: the head, its
successor once linked, and the data taken. -/
structure KeepsHead (f : Fifo ν α) (g : Ghost ι ν α) (f' : Fifo ν α)
    (g' : Ghost ι ν α) : Prop where
  head : f'.head = f.head
  out : g'.out = g.out
  data : f'.data f.head = f.data f.head
  next : ∀ n, f.next f.head = some n → f'.next f.head = some n ∧ f'.data n = f.data n

section Keeps

variable {t : ι} {f f' : Fifo ν α} {g g' : Ghost ι ν α} {done : List α}

theorem PushFacts.keep {pc : PushPc ν} (h : PushFacts t f g pc) (hk : Keeps t f g f' g') :
    PushFacts t f' g' pc := by
  cases pc with
  | clearNext n => exact (hk.held n h).1
  | exchangeTail n =>
    obtain ⟨hheld, hnext, -⟩ := hk.held n h.1
    exact ⟨hheld, hnext.trans h.2⟩
  | linkNext p n => exact (hk.pend p n).mpr h

theorem Owes.keep {pc : Option (PushPc ν)} (h : Owes t g pc) (hk : Keeps t f g f' g') :
    Owes t g' pc := fun a b hab => h a b ((hk.pend a b).mp hab)

theorem PopFacts.keep {pc : PopPc ν α} (h : PopFacts t done f g pc) (hk : Keeps t f g f' g')
    (hh : KeepsHead f g f' g') : PopFacts t done f' g' pc := by
  cases pc with
  | readHead => exact hh.out.trans h
  | readNext p => exact ⟨hh.out.trans h.1, hh.head.trans h.2⟩
  | writeHead p n =>
    obtain ⟨ho, hhead, hnext⟩ := h
    subst hhead
    exact ⟨hh.out.trans ho, hh.head, (hh.next n hnext).1⟩
  | readData p n =>
    obtain ⟨ho, hhead, hheld⟩ := h
    subst hhead
    exact ⟨by rw [hh.out, ho, hh.data], hh.head, (hk.held p hheld).1⟩
  | writeData p d => exact ⟨hh.out.trans h.1, (hk.held p h.2).1⟩

end Keeps

/-! ## The chain seen from its two ends -/

section Ends

variable {f : Fifo ν α} {owned : ν → Bool} {g : Ghost ι ν α}

theorem Inv.nodes_eq (hI : Inv f owned g) : ∃ rest, g.nodes = f.head :: rest := by
  cases hn : g.nodes with
  | nil => simpa [hn] using hI.head
  | cons a l =>
    have ha : a = f.head := by simpa [hn] using hI.head
    exact ⟨l, by rw [ha]⟩

theorem Inv.nodes_eq_append (hI : Inv f owned g) : ∃ front, g.nodes = front ++ [f.tail] := by
  obtain ⟨front, hf⟩ := List.getLast?_eq_some_iff.mp hI.last
  exact ⟨front, hf⟩

theorem Inv.head_mem (hI : Inv f owned g) : f.head ∈ g.nodes := List.mem_of_mem_head? hI.head

theorem Inv.tail_mem (hI : Inv f owned g) : f.tail ∈ g.nodes := List.mem_of_getLast? hI.last

/-- The successor of the head, once linked, is the next node of the chain and
nobody owes that link any more. -/
theorem Inv.next_head (hI : Inv f owned g) {n : ν} (hn : f.next f.head = some n) :
    g.pend f.head = none ∧ ∃ rest, g.nodes = f.head :: n :: rest := by
  obtain ⟨l, hl⟩ := hI.nodes_eq
  have hs := hI.segs
  rw [hl] at hs
  obtain ⟨hp, rest, rfl⟩ := hs.head_of_next hn
  exact ⟨hp, rest, hl⟩

/-- With a null link behind the head nothing is left to take, or a producer has
swapped itself in behind the head and not yet linked. -/
theorem Inv.null_head (hI : Inv f owned g) (hn : f.next f.head = none) :
    f.tail = f.head ∧ f.pushed = g.out ∨ ∃ t n, g.pend f.head = some (t, n) := by
  obtain ⟨l, hl⟩ := hI.nodes_eq
  have hs := hI.segs
  rw [hl] at hs
  rcases hs.head_of_null hn with rfl | ⟨t, b, l', hp, -⟩
  · have hlast := hI.last
    rw [hl] at hlast
    exact .inl ⟨(by simpa using hlast.symm), by simp [hI.values, hl]⟩
  · exact .inr ⟨t, b, hp⟩

/-- What hangs off the chain's nodes is in the chain. -/
theorem Inv.not_reaches (hI : Inv f owned g) {a n : ν} (ha : a ∈ g.nodes) (hn : n ∉ g.nodes) :
    ¬ Reaches f.next a n := fun h => hn (hI.segs.reaches_mem ha h)

end Ends

/-! ## One lemma for each operation -/

section Steps

variable [DecidableEq ν] {t : ι} {f : Fifo ν α} {owned : ν → Bool} {g : Ghost ι ν α}

/-- A store to the data of a node outside the chain. -/
theorem Inv.values_update (hI : Inv f owned g) {x : ν} (hx : x ∉ g.nodes) (d : α) :
    f.pushed = g.out ++ g.nodes.tail.map (Function.update f.data x d) := by
  rw [hI.values]
  congr 1
  refine List.map_congr_left fun a ha => ?_
  exact (Function.update_of_ne (ne_of_mem_of_not_mem (List.mem_of_mem_tail ha) hx) ..).symm

omit [DecidableEq ν] in
/-- Two threads do not hold the same node. -/
theorem Ghost.held_ne {a n : ν} {u : ι} (hn : g.held n = some t) (hu : u ≠ t)
    (ha : g.held a = some u) : a ≠ n := by
  rintro rfl
  exact hu (Option.some.inj (ha.symm.trans hn))

/-- A thread takes a node it owns into a push, with the data it stored. -/
theorem Inv.acquire (hI : Inv f owned g) {n : ν} (hn : owned n = true) (t : ι) (d : α) :
    ∃ g', Inv { f with data := Function.update f.data n d } (Function.update owned n false) g' ∧
      PushFacts t { f with data := Function.update f.data n d } g' (.clearNext n) ∧
      (∀ u, Keeps u f g { f with data := Function.update f.data n d } g') ∧
      KeepsHead f g { f with data := Function.update f.data n d } g' := by
  obtain ⟨hout, hheld⟩ := hI.owned_out n hn
  have hne : ∀ {a}, a ∈ g.nodes → a ≠ n := fun ha => ne_of_mem_of_not_mem ha hout
  refine ⟨{ g with held := Function.update g.held n (some t) }, ?_, by simp [PushFacts], ?_, ?_⟩
  · refine { hI with values := hI.values_update hout d, owned_out := ?_, held_out := ?_ }
    · intro a ha
      by_cases han : a = n
      · simp [han] at ha
      · simpa [han] using hI.owned_out a (by simpa [han] using ha)
    · intro a ha
      by_cases han : a = n
      · exact han ▸ hout
      · exact hI.held_out a (by simpa [han] using ha)
  · intro u
    refine ⟨fun a ha => ?_, fun _ _ => Iff.rfl⟩
    have han : a ≠ n := by
      rintro rfl
      simp [hheld] at ha
    simpa [han] using ha
  · refine ⟨rfl, rfl, Function.update_of_ne (hne hI.head_mem) .., fun b hb => ⟨hb, ?_⟩⟩
    exact Function.update_of_ne (hne (hI.segs.next_mem hI.head_mem hb)) ..

/-- A client stores to a node it owns. -/
theorem Inv.write (hI : Inv f owned g) {n : ν} (hn : owned n = true) (d : α) (x : Option ν) :
    Inv { f with data := Function.update f.data n d, next := Function.update f.next n x }
        owned g ∧
      (∀ u, Keeps u f g
        { f with data := Function.update f.data n d, next := Function.update f.next n x } g) ∧
      KeepsHead f g
        { f with data := Function.update f.data n d, next := Function.update f.next n x } g := by
  obtain ⟨hout, hheld⟩ := hI.owned_out n hn
  have hne : ∀ {a}, a ∈ g.nodes → a ≠ n := fun ha => ne_of_mem_of_not_mem ha hout
  refine ⟨{ hI with segs := hI.segs.update_next hout, values := hI.values_update hout d },
    fun u => ⟨?_, ?_⟩, ?_⟩
  · intro a ha
    have han : a ≠ n := by
      rintro rfl
      simp [hheld] at ha
    simpa [han] using ha
  · exact fun _ _ => Iff.rfl
  · have hh : f.head ≠ n := hne hI.head_mem
    refine ⟨rfl, rfl, Function.update_of_ne hh .., fun b hb => ⟨?_, ?_⟩⟩
    · exact (Function.update_of_ne hh ..).trans hb
    · exact Function.update_of_ne (hne (hI.segs.next_mem hI.head_mem hb)) ..

/-- The producer terminates its node. -/
theorem Inv.clear (hI : Inv f owned g) {n : ν} (hheld : g.held n = some t) :
    Inv { f with next := Function.update f.next n none } owned g ∧
      (∀ u, u ≠ t → Keeps u f g { f with next := Function.update f.next n none } g) ∧
      KeepsHead f g { f with next := Function.update f.next n none } g := by
  have hout : n ∉ g.nodes := hI.held_out n (by simp [hheld])
  have hhead : f.head ≠ n := ne_of_mem_of_not_mem hI.head_mem hout
  refine ⟨{ hI with segs := hI.segs.update_next hout }, fun u hu => ⟨fun a ha => ?_, fun _ _ =>
    Iff.rfl⟩, rfl, rfl, rfl, fun b hb => ⟨?_, rfl⟩⟩
  · exact ⟨ha, Function.update_of_ne (Ghost.held_ne hheld hu ha) .., rfl⟩
  · exact (Function.update_of_ne hhead ..).trans hb

/-- **The exchange of the tail.** The node is enqueued, and its thread owes the
link to it. -/
theorem Inv.exchange (hI : Inv f owned g) {n : ν} (hheld : g.held n = some t)
    (hnull : f.next n = none) (ho : ∀ a b, g.pend a ≠ some (t, b)) :
    ∃ g', Inv (pushStep f (.exchangeTail n)).1 owned g' ∧ g'.pend f.tail = some (t, n) ∧
      Owes t g' (some (.linkNext f.tail n)) ∧
      (∀ u, u ≠ t → Keeps u f g (pushStep f (.exchangeTail n)).1 g') ∧
      KeepsHead f g (pushStep f (.exchangeTail n)).1 g' := by
  have hout : n ∉ g.nodes := hI.held_out n (by simp [hheld])
  have hfree : g.pend n = none := by
    by_contra h
    exact hout (hI.pend_mem n h)
  obtain ⟨front, hf⟩ := hI.nodes_eq_append
  have hs := hI.segs
  rw [hf] at hs
  have hlastfree : g.pend f.tail = none := hs.last.2
  have hnodes : g.nodes ++ [n] = front ++ [f.tail, n] := by simp [hf]
  refine ⟨{ g with
      nodes := g.nodes ++ [n]
      pend := Function.update g.pend f.tail (some (t, n))
      held := Function.update g.held n none }, ?_, by simp, ?_, fun u hu => ⟨?_, ?_⟩, ?_⟩
  · refine ⟨?_, by simp [pushStep], ?_, ?_, ?_, ?_, ?_, ?_⟩
    · simp [hI.head, pushStep]
    · exact List.Nodup.append hI.nodup (List.nodup_singleton n) (by simpa using hout)
    · show Segments f.next _ (g.nodes ++ [n])
      rw [hnodes]
      exact hs.enqueue (hf ▸ hI.nodup) (hf ▸ hout) hnull hfree
    · obtain ⟨rest, hr⟩ := hI.nodes_eq
      simp [pushStep, hI.values, hr]
    · intro a ha
      by_cases hat : a = f.tail
      · simp [hat, hI.tail_mem]
      · exact List.mem_append_left _ (hI.pend_mem a (by simpa [hat] using ha))
    · intro a ha
      obtain ⟨hnot, hunheld⟩ := hI.owned_out a ha
      have han : a ≠ n := by
        rintro rfl
        simp [hheld] at hunheld
      exact ⟨by simp [hnot, han], by simpa [han] using hunheld⟩
    · intro a ha
      by_cases han : a = n
      · simp [han] at ha
      · simpa [han] using hI.held_out a (by simpa [han] using ha)
  · intro a b hab
    by_cases hat : a = f.tail
    · have hnb : n = b := by simpa [hat] using hab
      rw [hat, hnb]
    · exact absurd (by simpa [hat] using hab) (ho a b)
  · intro a ha
    simp [pushStep, Ghost.held_ne hheld hu ha, ha]
  · intro a b
    by_cases hat : a = f.tail
    · subst hat
      simp [hlastfree, Ne.symm hu]
    · simp [hat]
  · exact ⟨rfl, rfl, rfl, fun b hb => ⟨hb, rfl⟩⟩

/-- **The store of the link** settles what the thread owed. -/
theorem Inv.link (hI : Inv f owned g) {p n : ν} (hp : g.pend p = some (t, n))
    (ho : Owes t g (some (.linkNext p n))) :
    ∃ g', Inv (pushStep f (.linkNext p n)).1 owned g' ∧ Owes t g' none ∧
      (∀ u, u ≠ t → Keeps u f g (pushStep f (.linkNext p n)).1 g') ∧
      KeepsHead f g (pushStep f (.linkNext p n)).1 g' := by
  have hpm : p ∈ g.nodes := hI.pend_mem p (by simp [hp])
  obtain ⟨hnull, -⟩ := hI.segs.null_of_pend hpm hp
  refine ⟨{ g with pend := Function.update g.pend p none }, ?_, ?_, fun u hu => ⟨?_, ?_⟩, ?_⟩
  · refine { hI with segs := hI.segs.link hI.nodup hp, pend_mem := ?_ }
    intro a ha
    by_cases hap : a = p
    · simp [hap] at ha
    · exact hI.pend_mem a (by simpa [hap] using ha)
  · intro a b hab
    have hap : a ≠ p := by
      rintro rfl
      simp at hab
    cases ho a b (by simpa [hap] using hab)
    exact absurd rfl hap
  · intro a ha
    have hap : a ≠ p := by
      rintro rfl
      exact hI.held_out a (by simp [ha]) hpm
    simp [pushStep, hap, ha]
  · intro a b
    by_cases hap : a = p
    · subst hap
      simp [hp, Ne.symm hu]
    · simp [hap]
  · refine ⟨rfl, rfl, rfl, fun b hb => ⟨?_, rfl⟩⟩
    have hhp : f.head ≠ p := by
      rintro rfl
      simp [hnull] at hb
    simpa [pushStep, hhp] using hb

/-- **One access of a push.** -/
theorem pushStep_spec (hI : Inv f owned g) {pc : PushPc ν} (hp : PushFacts t f g pc)
    (ho : Owes t g (some pc)) :
    ∃ g', Inv (pushStep f pc).1 owned g' ∧
      (∀ pc', (pushStep f pc).2 = some pc' → PushFacts t (pushStep f pc).1 g' pc') ∧
      Owes t g' (pushStep f pc).2 ∧
      (∀ u, u ≠ t → Keeps u f g (pushStep f pc).1 g') ∧
      KeepsHead f g (pushStep f pc).1 g' := by
  cases pc with
  | clearNext n =>
    obtain ⟨hI', hk, hh⟩ := hI.clear hp
    refine ⟨g, hI', fun pc' h => ?_, fun a b hab => ?_, hk, hh⟩
    · cases h
      exact ⟨hp, by simp [pushStep]⟩
    · cases ho a b hab
  | exchangeTail n =>
    obtain ⟨hheld, hnull⟩ := hp
    obtain ⟨g', hI', hpend, ho', hk, hh⟩ := hI.exchange hheld hnull fun a b hab => by
      cases ho a b hab
    refine ⟨g', hI', fun pc' h => ?_, ho', hk, hh⟩
    cases h
    exact hpend
  | linkNext p n =>
    obtain ⟨g', hI', ho', hk, hh⟩ := hI.link hp ho
    exact ⟨g', hI', fun pc' h => (by cases h), ho', hk, hh⟩

/-- **The consumer moves the head.** It takes out the old dummy, and the datum
of the new one. -/
theorem Inv.advance (hI : Inv f owned g) (t : ι) {n : ν} (hn : f.next f.head = some n) :
    ∃ g', Inv { f with head := n } owned g' ∧ g'.pend = g.pend ∧ g'.out = g.out ++ [f.data n] ∧
      g'.held f.head = some t ∧ ∀ u, u ≠ t → Keeps u f g { f with head := n } g' := by
  obtain ⟨hpend, rest, hnodes⟩ := hI.next_head hn
  have hnd : (f.head :: n :: rest).Nodup := hnodes ▸ hI.nodup
  have hseg : Segments f.next g.pend (f.head :: n :: rest) := hnodes ▸ hI.segs
  have hheadout : f.head ∉ n :: rest := (List.nodup_cons.mp hnd).1
  refine ⟨{ g with
      nodes := n :: rest
      held := Function.update g.held f.head (some t)
      out := g.out ++ [f.data n] }, ?_, rfl, rfl, by simp, fun u hu => ⟨fun a ha => ?_, fun _ _ =>
      Iff.rfl⟩⟩
  · refine ⟨by simp, ?_, (List.nodup_cons.mp hnd).2, hseg.tail, ?_, ?_, ?_, ?_⟩
    · simpa [hnodes] using hI.last
    · simp [hI.values, hnodes]
    · intro a ha
      have ham := hI.pend_mem a ha
      rw [hnodes, List.mem_cons] at ham
      rcases ham with rfl | ham
      · exact absurd hpend ha
      · exact ham
    · intro a ha
      obtain ⟨h1, h2⟩ := hI.owned_out a ha
      rw [hnodes, List.mem_cons, not_or] at h1
      exact ⟨h1.2, by simpa [h1.1] using h2⟩
    · intro a ha
      by_cases hah : a = f.head
      · exact hah ▸ hheadout
      · have h1 := hI.held_out a (by simpa [hah] using ha)
        rw [hnodes, List.mem_cons, not_or] at h1
        exact h1.2
  · have hah : a ≠ f.head := by
      rintro rfl
      exact hI.held_out f.head (by simp [ha]) hI.head_mem
    simp [hah, ha]

/-- **One access of a pop.** Only the consumer takes these steps. -/
theorem popStep_spec (hI : Inv f owned g) {done : List α} {pc : PopPc ν α}
    (hp : PopFacts t done f g pc) :
    ∃ g', Inv (popStep f pc).1 owned g' ∧ g'.pend = g.pend ∧
      (∀ pc', (popStep f pc).2 = .inl pc' → PopFacts t done (popStep f pc).1 g' pc') ∧
      (∀ u, u ≠ t → Keeps u f g (popStep f pc).1 g') ∧
      ((popStep f pc).2 = .inr none → g' = g ∧ g.out = done ∧ f.next f.head = none) ∧
      (∀ n, (popStep f pc).2 = .inr (some n) → g'.held n = some t ∧
        g'.out = done ++ [(popStep f pc).1.data n]) := by
  have hsame : ∀ u, u ≠ t → Keeps u f g f g := fun u _ =>
    ⟨fun a ha => ⟨ha, rfl, rfl⟩, fun _ _ => Iff.rfl⟩
  cases pc with
  | readHead =>
    refine ⟨g, hI, rfl, fun pc' h => ?_, hsame, fun h => (by cases h), fun n h => (by cases h)⟩
    cases h
    exact ⟨hp, rfl⟩
  | readNext h =>
    obtain ⟨hout, rfl⟩ := hp
    cases hn : f.next f.head with
    | none =>
      simp only [popStep, hn]
      refine ⟨g, hI, rfl, fun pc' h => (by cases h), hsame, fun _ => ⟨rfl, hout, trivial⟩,
        fun n h => (by cases h)⟩
    | some b =>
      simp only [popStep, hn]
      refine ⟨g, hI, rfl, fun pc' h => ?_, hsame, fun h => (by cases h), fun n h => (by cases h)⟩
      cases h
      exact ⟨hout, rfl, hn⟩
  | writeHead h n =>
    obtain ⟨hout, rfl, hn⟩ := hp
    obtain ⟨g', hI', hpend, htaken, hheld, hk⟩ := hI.advance t hn
    refine ⟨g', hI', hpend, fun pc' h => ?_, hk, fun h => (by cases h), fun n h => (by cases h)⟩
    cases h
    exact ⟨by rw [htaken, hout]; rfl, rfl, hheld⟩
  | readData h n =>
    obtain ⟨hout, hhead, hheld⟩ := hp
    refine ⟨g, hI, rfl, fun pc' h => ?_, hsame, fun h => (by cases h), fun n h => (by cases h)⟩
    cases h
    exact ⟨hout, hheld⟩
  | writeData h d =>
    obtain ⟨hout, hheld⟩ := hp
    have hh : h ∉ g.nodes := hI.held_out h (by simp [hheld])
    refine ⟨g, { hI with values := hI.values_update hh d }, rfl, fun pc' h => (by cases h),
      fun u hu => ⟨fun a ha => ⟨ha, rfl, ?_⟩, fun _ _ => Iff.rfl⟩, fun h => (by cases h),
      fun n hn => ?_⟩
    · exact Function.update_of_ne (Ghost.held_ne hheld hu ha) ..
    · cases hn
      exact ⟨hheld, by simp [popStep, hout]⟩

/-- The consumer gives the popped node to the client. -/
theorem Inv.release (hI : Inv f owned g) {n : ν} (hn : g.held n = some t) :
    Inv f (Function.update owned n true) { g with held := Function.update g.held n none } ∧
      ∀ u, u ≠ t → Keeps u f g f { g with held := Function.update g.held n none } := by
  have hout : n ∉ g.nodes := hI.held_out n (by simp [hn])
  refine ⟨{ hI with owned_out := ?_, held_out := ?_ }, fun u hu => ⟨?_, fun _ _ => Iff.rfl⟩⟩
  · intro a ha
    by_cases han : a = n
    · simp [han, hout]
    · simpa [han] using hI.owned_out a (by simpa [han] using ha)
  · intro a ha
    by_cases han : a = n
    · exact han ▸ hout
    · exact hI.held_out a (by simpa [han] using ha)
  · intro a ha
    have han : a ≠ n := by
      rintro rfl
      exact hu (Option.some.inj (ha.symm.trans hn))
    simp [han, ha]

end Steps

end FibConcurrent.MpscFifo
