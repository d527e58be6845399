import FibConcurrent.Data.Segments
import FibConcurrent.DistFifo.Model

/-!
# DistFifo — the invariant of the fifo and what each access does to it

As long as no further pop has succeeded, what a pop has read is still there:
the head, its link, and the data of its successor, because a linked node is
written by nobody. The swap compares the counter, so it succeeds only then.

Only the distinguished thread relies on `tail`: poppers may take nodes while
its push stands between the link and the store to `tail`, but never the last
node, which stays in the list as the dummy.
-/

namespace FibConcurrent.DistFifo

open FibConcurrent.Machine FibConcurrent.Data

variable {ι ν α : Type*} {w : Nat}

/-- Ghost: the chain from the head on, and the nodes inside an operation. -/
structure Ghost (ι ν : Type*) where
  nodes : List ν
  held : ν → Option ι

structure Inv (m : Fifo w ι ν α) (g : Ghost ι ν) : Prop where
  counter : m.head.counter = BitVec.ofNat w m.popped.length
  head : g.nodes.head? = some m.head.ptr
  linked : Linked m.next g.nodes
  nodup : g.nodes.Nodup
  values : m.pushed = m.popped ++ g.nodes.tail.map m.data
  owner_out : ∀ n, m.owner n ≠ none → n ∉ g.nodes ∧ g.held n = none
  held_out : ∀ n, g.held n ≠ none → n ∉ g.nodes

/-- `counter` was read when `stamp` pops had succeeded. -/
structure Taken (m : Fifo w ι ν α) (counter : BitVec w) (stamp : Nat) : Prop where
  counter : counter = BitVec.ofNat w stamp
  le : stamp ≤ m.popped.length

def PushFacts (t : ι) (m : Fifo w ι ν α) (g : Ghost ι ν) : PushPc ν → Prop
  | .readTail n => g.held n = some t
  | .clearNext tl n => g.held n = some t ∧ tl = m.tail
  | .linkNext tl n => g.held n = some t ∧ tl = m.tail ∧ m.next n = none
  | .writeTail _ => True

/-- Where the list ends, as far as the distinguished thread knows: at `tail`,
or, between its two last stores, at the node it has just linked. -/
def lastNode (m : Fifo w ι ν α) : Pc w ν α → ν
  | .push (.writeTail n) => n
  | _ => m.tail

def PopFacts (t : ι) (m : Fifo w ι ν α) (g : Ghost ι ν) : PopPc w ν α → Prop
  | .readCounter => True
  | .readNode c k => Taken m c k
  | .readNext h k => Taken m h.counter k ∧ (k = m.popped.length → m.head.ptr = h.ptr)
  | .readData h x k => Taken m h.counter k ∧
      (k = m.popped.length → m.head.ptr = h.ptr ∧ m.next h.ptr = some x)
  | .swap h x d k => Taken m h.counter k ∧
      (k = m.popped.length → m.head.ptr = h.ptr ∧ m.next h.ptr = some x ∧ m.data x = d)
  | .writeData h d k => g.held h = some t ∧ m.popped[k]? = some d

/-- What thread `t` may rely on at each program point. -/
def callFacts (t : ι) (m : Fifo w ι ν α) (g : Ghost ι ν) : Pc w ν α → Prop
  | .idle => True
  | .push pc => PushFacts t m g pc
  | .pop pc => PopFacts t m g pc
  | .popRet (.node n k) => g.held n = some t ∧ m.popped[k]? = some (m.data n)
  | .popRet .empty => True
  | .popRet .retry => True

/-- Only the distinguished thread is ever inside a push, and it knows the end
of the list. -/
structure ThreadFacts (pusher t : ι) (m : Fifo w ι ν α) (g : Ghost ι ν) (pc : Pc w ν α) :
    Prop where
  pushing : ∀ p, pc = .push p → t = pusher
  last : t = pusher → g.nodes.getLast? = some (lastNode m pc)
  call : callFacts t m g pc

def distAssertion (pusher : ι) : Assertion ι (Fifo w ι ν α) (Ghost ι ν) (Pc w ν α) where
  shared := Inv
  thread := ThreadFacts pusher

/-! ## What the accesses of others leave alone -/

/-- Another pop has succeeded, or the head, its link and the data of its
successor are as they were. -/
def KeepsTop (m m' : Fifo w ι ν α) : Prop :=
  (∃ d, m'.popped = m.popped ++ [d]) ∨
    m'.popped = m.popped ∧ m'.head = m.head ∧
      ∀ x, m.next m.head.ptr = some x → m'.next m.head.ptr = some x ∧ m'.data x = m.data x

structure Keeps (t : ι) (m : Fifo w ι ν α) (g : Ghost ι ν) (m' : Fifo w ι ν α)
    (g' : Ghost ι ν) : Prop where
  held : ∀ n, g.held n = some t → g'.held n = some t ∧ m'.next n = m.next n ∧
    m'.data n = m.data n
  top : KeepsTop m m'

/-- What everybody but the distinguished thread leaves alone. -/
structure KeepsLast (m : Fifo w ι ν α) (g : Ghost ι ν) (m' : Fifo w ι ν α) (g' : Ghost ι ν) :
    Prop where
  tail : m'.tail = m.tail
  last : g'.nodes.getLast? = g.nodes.getLast?

section Keeps

variable {t : ι} {m m' : Fifo w ι ν α} {g g' : Ghost ι ν} {c : BitVec w} {k : Nat}

theorem keepsTop_refl (m : Fifo w ι ν α) : KeepsTop m m :=
  .inr ⟨rfl, rfl, fun _ hx => ⟨hx, rfl⟩⟩

theorem keeps_refl (u : ι) (m : Fifo w ι ν α) (g : Ghost ι ν) : Keeps u m g m g :=
  ⟨fun _ hn => ⟨hn, rfl, rfl⟩, keepsTop_refl m⟩

theorem KeepsTop.prefix (hk : KeepsTop m m') : m.popped <+: m'.popped := by
  rcases hk with ⟨d, h⟩ | ⟨h, -⟩
  · exact h ▸ List.prefix_append ..
  · exact h ▸ List.prefix_rfl

theorem Taken.keep (h : Taken m c k) (hk : KeepsTop m m') : Taken m' c k :=
  ⟨h.counter, h.le.trans hk.prefix.length_le⟩

/-- What has been popped stays popped. -/
theorem KeepsTop.getElem? {d : α} (hk : KeepsTop m m') (h : m.popped[k]? = some d) :
    m'.popped[k]? = some d := by
  obtain ⟨rest, hrest⟩ := hk.prefix
  have hlt : k < m.popped.length := (List.getElem?_eq_some_iff.mp h).1
  rw [← hrest, List.getElem?_append_left hlt]
  exact h

/-- A snapshot that is still current is one during which nobody popped. -/
theorem KeepsTop.current (hk : KeepsTop m m') (h : Taken m c k) (hc : k = m'.popped.length) :
    k = m.popped.length ∧ m'.head = m.head ∧
      ∀ x, m.next m.head.ptr = some x → m'.next m.head.ptr = some x ∧ m'.data x = m.data x := by
  have hle := h.le
  rcases hk with ⟨d, hd⟩ | ⟨hpop, hhead, hnext⟩
  · rw [hd, List.length_append, List.length_singleton] at hc
    omega
  · rw [hpop] at hc
    exact ⟨hc, hhead, hnext⟩

theorem PopFacts.keep {pc : PopPc w ν α} (h : PopFacts t m g pc) (hk : Keeps t m g m' g') :
    PopFacts t m' g' pc := by
  cases pc with
  | readCounter => trivial
  | readNode c k => exact Taken.keep h hk.top
  | readNext h₀ k =>
    refine ⟨h.1.keep hk.top, fun hc => ?_⟩
    obtain ⟨hc, hhead, -⟩ := hk.top.current h.1 hc
    rw [hhead, h.2 hc]
  | readData h₀ x k =>
    refine ⟨h.1.keep hk.top, fun hc => ?_⟩
    obtain ⟨hc, hhead, hnext⟩ := hk.top.current h.1 hc
    obtain ⟨hptr, hx⟩ := h.2 hc
    rw [← hptr] at hx
    rw [hhead, ← hptr]
    exact ⟨rfl, (hnext x hx).1⟩
  | swap h₀ x d k =>
    refine ⟨h.1.keep hk.top, fun hc => ?_⟩
    obtain ⟨hc, hhead, hnext⟩ := hk.top.current h.1 hc
    obtain ⟨hptr, hx, hd⟩ := h.2 hc
    rw [← hptr] at hx
    obtain ⟨hx', hd'⟩ := hnext x hx
    rw [hhead, ← hptr]
    exact ⟨rfl, hx', hd'.trans hd⟩
  | writeData h₀ d k => exact ⟨(hk.held h₀ h.1).1, hk.top.getElem? h.2⟩

theorem PushFacts.keep {pc : PushPc ν} (h : PushFacts t m g pc) (hk : Keeps t m g m' g')
    (htail : m'.tail = m.tail) : PushFacts t m' g' pc := by
  cases pc with
  | readTail n => exact (hk.held n h).1
  | clearNext tl n => exact ⟨(hk.held n h.1).1, h.2.trans htail.symm⟩
  | linkNext tl n =>
    obtain ⟨hheld, htl, hnext⟩ := h
    obtain ⟨hheld', hnext', -⟩ := hk.held n hheld
    exact ⟨hheld', htl.trans htail.symm, hnext'.trans hnext⟩
  | writeTail n => trivial

/-- The facts of another thread survive; those of the distinguished thread if
tail and last node stay as well. -/
theorem ThreadFacts.keep {pusher : ι} {pc : Pc w ν α} (h : ThreadFacts pusher t m g pc)
    (hk : Keeps t m g m' g') (hl : t = pusher → KeepsLast m g m' g') :
    ThreadFacts pusher t m' g' pc := by
  refine ⟨h.pushing, fun ht => ?_, ?_⟩
  · obtain ⟨htail, hlast⟩ := hl ht
    rw [hlast, h.last ht]
    cases pc with
    | push p => cases p <;> simp [lastNode, htail]
    | _ => simp [lastNode, htail]
  · have hcall := h.call
    cases pc with
    | idle => trivial
    | push p => exact PushFacts.keep hcall hk (hl (h.pushing p rfl)).tail
    | pop p => exact PopFacts.keep hcall hk
    | popRet r =>
      cases r with
      | node n k =>
        obtain ⟨hheld, hdata⟩ := hcall
        obtain ⟨hheld', -, hdata'⟩ := hk.held n hheld
        exact ⟨hheld', by rw [hdata', hk.top.getElem? hdata]⟩
      | _ => trivial

end Keeps

/-! ## One access of an operation -/

section Step

variable {t : ι} {m : Fifo w ι ν α} {g : Ghost ι ν}

/-- **A swap whose counter matches has a current snapshot.** -/
theorem Taken.current {c : BitVec w} {k : Nat} (h : Taken m c k) (hI : Inv m g)
    (hfresh : m.popped.length < k + 2 ^ w) (hc : m.head.counter = c) :
    k = m.popped.length := by
  have heq : BitVec.ofNat w k = BitVec.ofNat w m.popped.length := by
    rw [← h.counter, ← hc, hI.counter]
  exact eq_of_counter_eq heq h.le hfresh

theorem Inv.nodes_eq (hI : Inv m g) : ∃ rest, g.nodes = m.head.ptr :: rest :=
  ⟨g.nodes.tail, List.eq_cons_of_mem_head? hI.head⟩

/-- What has been popped was pushed first. -/
theorem Inv.popped_prefix (hI : Inv m g) : m.popped <+: m.pushed := by
  rw [hI.values]
  exact List.prefix_append ..

variable [DecidableEq ν]

/-- Stores to a node outside the list. -/
theorem Inv.write {n : ν} {d : α} {x : Option ν} (hI : Inv m g) (hn : n ∉ g.nodes) :
    Inv { m with
        data := Function.update m.data n d
        next := Function.update m.next n x } g ∧
      KeepsTop m { m with
        data := Function.update m.data n d
        next := Function.update m.next n x } := by
  obtain ⟨rest, hnodes⟩ := hI.nodes_eq
  constructor
  · refine { hI with linked := hI.linked.update_next hn, values := ?_ }
    show m.pushed = m.popped ++ g.nodes.tail.map (Function.update m.data n d)
    rw [hI.values]
    congr 1
    refine List.map_congr_left fun a ha => (Function.update_of_ne ?_ ..).symm
    exact ne_of_mem_of_not_mem (List.mem_of_mem_tail ha) hn
  · refine .inr ⟨rfl, rfl, fun a ha => ⟨?_, Function.update_of_ne ?_ ..⟩⟩
    · have hne : m.head.ptr ≠ n := by
        rintro rfl
        simp [hnodes] at hn
      show Function.update m.next n x m.head.ptr = some a
      rw [Function.update_of_ne hne]
      exact ha
    · have hmem : a ∈ g.nodes := Segments.next_mem hI.linked (by simp [hnodes]) ha
      exact ne_of_mem_of_not_mem hmem hn

/-- The push links its node behind the last one. -/
def Ghost.link (g : Ghost ι ν) (n : ν) : Ghost ι ν :=
  { g with nodes := g.nodes ++ [n], held := Function.update g.held n none }

theorem Inv.link {n : ν} (hI : Inv m g) (hheld : g.held n = some t)
    (hlast : g.nodes.getLast? = some m.tail) (hnull : m.next n = none) :
    Inv { m with
      next := Function.update m.next m.tail (some n)
      pushed := m.pushed ++ [m.data n] } (g.link n) := by
  have hn : n ∉ g.nodes := hI.held_out n (by simp [hheld])
  obtain ⟨l, hl⟩ := List.getLast?_eq_some_iff.mp hlast
  refine { hI with
    head := ?head
    linked := ?linked
    nodup := ?nodup
    values := ?values
    owner_out := ?owner_out
    held_out := ?held_out }
  case head =>
    show (g.nodes ++ [n]).head? = some m.head.ptr
    rw [List.head?_append, hI.head]
    rfl
  case linked =>
    have hlinked := hI.linked
    have hnodup := hI.nodup
    have hout := hn
    rw [hl] at hlinked hnodup hout
    show Linked (Function.update m.next m.tail (some n)) (g.nodes ++ [n])
    rw [hl, List.append_assoc]
    exact hlinked.append hnodup hout hnull
  case nodup => exact List.Nodup.append hI.nodup (List.nodup_singleton n) (by simpa using hn)
  case values =>
    obtain ⟨rest, hrest⟩ := hI.nodes_eq
    show m.pushed ++ [m.data n] = m.popped ++ (g.nodes ++ [n]).tail.map m.data
    rw [hI.values, hrest]
    simp
  case owner_out =>
    intro a ha
    obtain ⟨haout, hafree⟩ := hI.owner_out a ha
    have hne : a ≠ n := by
      rintro rfl
      simp [hheld] at hafree
    exact ⟨by simp [Ghost.link, haout, hne], by simp [Ghost.link, hne, hafree]⟩
  case held_out =>
    intro a ha
    have hne : a ≠ n := by
      rintro rfl
      simp [Ghost.link] at ha
    have haout := hI.held_out a (by simpa [Ghost.link, hne] using ha)
    simp [Ghost.link, haout, hne]

theorem keeps_link {n : ν} {u : ι} (hI : Inv m g) (hheld : g.held n = some t)
    (hlast : g.nodes.getLast? = some m.tail) (hu : u ≠ t) :
    Keeps u m g { m with
      next := Function.update m.next m.tail (some n)
      pushed := m.pushed ++ [m.data n] } (g.link n) := by
  obtain ⟨l, hl⟩ := List.getLast?_eq_some_iff.mp hlast
  constructor
  case held =>
    intro a ha
    have hne : a ≠ n := by
      rintro rfl
      exact hu (Option.some.inj (ha.symm.trans hheld))
    have haout := hI.held_out a (by simp [ha])
    have htail : a ≠ m.tail := by
      rintro rfl
      simp [hl] at haout
    exact ⟨by simpa [Ghost.link, hne] using ha, Function.update_of_ne htail .., rfl⟩
  case top =>
    refine .inr ⟨rfl, rfl, fun a ha => ⟨?_, rfl⟩⟩
    -- the link of the last node is null, that of the head is not
    have hne : m.head.ptr ≠ m.tail := by
      intro heq
      have hlinked := hI.linked
      rw [hl] at hlinked
      have hnone : m.next m.tail = none := (Segments.last hlinked).1
      rw [heq, hnone] at ha
      cases ha
    exact (Function.update_of_ne hne ..).trans ha

/-- A swap takes the old dummy out. -/
def Ghost.swap (g : Ghost ι ν) (t : ι) (head : ν) : Ghost ι ν :=
  { g with nodes := g.nodes.tail, held := Function.update g.held head (some t) }

theorem Inv.swap {x : ν} {d : α} (hI : Inv m g) (hx : m.next m.head.ptr = some x)
    (hd : m.data x = d) (t : ι) :
    Inv { m with head := ⟨m.head.counter + 1, x⟩, popped := m.popped ++ [d] }
      (g.swap t m.head.ptr) := by
  obtain ⟨l, hnodes⟩ := hI.nodes_eq
  have hlinked := hI.linked
  have hnodup := hI.nodup
  have hvalues := hI.values
  rw [hnodes] at hlinked hnodup hvalues
  obtain ⟨-, rest, rfl⟩ := Segments.head_of_next hlinked hx
  obtain ⟨hout, hnodup⟩ := List.nodup_cons.mp hnodup
  have htail : g.nodes.tail = x :: rest := by rw [hnodes, List.tail_cons]
  refine { hI with
    counter := ?counter
    head := ?head
    linked := ?linked
    nodup := ?nodup
    values := ?values
    owner_out := ?owner_out
    held_out := ?held_out }
  case counter =>
    show m.head.counter + 1 = BitVec.ofNat w (m.popped ++ [d]).length
    rw [hI.counter, List.length_append, List.length_singleton, BitVec.ofNat_add]
    rfl
  case head =>
    show g.nodes.tail.head? = some x
    rw [htail]
    rfl
  case linked =>
    show Linked m.next g.nodes.tail
    rw [htail]
    exact (linked_cons.mp hlinked).2
  case nodup =>
    show g.nodes.tail.Nodup
    rw [htail]
    exact hnodup
  case values =>
    show m.pushed = m.popped ++ [d] ++ g.nodes.tail.tail.map m.data
    rw [hvalues, htail, ← hd]
    simp
  case owner_out =>
    intro a ha
    obtain ⟨hin, hfree⟩ := hI.owner_out a ha
    have hah : a ≠ m.head.ptr := by
      rintro rfl
      simp [hnodes] at hin
    exact ⟨fun hmem => hin (List.mem_of_mem_tail hmem), (Function.update_of_ne hah ..).trans hfree⟩
  case held_out =>
    intro a ha
    show a ∉ g.nodes.tail
    by_cases hah : a = m.head.ptr
    · rw [htail, hah]
      exact hout
    · have hin := hI.held_out a (by simpa [Ghost.swap, hah] using ha)
      exact fun hmem => hin (List.mem_of_mem_tail hmem)

theorem keeps_swap {x : ν} {d : α} {u : ι} (hI : Inv m g) (t : ι) :
    Keeps u m g { m with head := ⟨m.head.counter + 1, x⟩, popped := m.popped ++ [d] }
      (g.swap t m.head.ptr) := by
  refine ⟨fun a ha => ?_, .inl ⟨d, rfl⟩⟩
  obtain ⟨l, hnodes⟩ := hI.nodes_eq
  have hah : a ≠ m.head.ptr := by
    rintro rfl
    exact hI.held_out m.head.ptr (by simp [ha]) (by simp [hnodes])
  exact ⟨by simpa [Ghost.swap, hah] using ha, rfl, rfl⟩

theorem pushStep_spec {pc : PushPc ν} (hI : Inv m g) (hp : PushFacts t m g pc)
    (hlast : g.nodes.getLast? = some (lastNode m (.push pc : Pc w ν α))) :
    ∃ g', Inv (pushStep m pc).1 g' ∧
      (∀ pc', (pushStep m pc).2 = some pc' → PushFacts t (pushStep m pc).1 g' pc' ∧
        g'.nodes.getLast? = some (lastNode (pushStep m pc).1 (.push pc' : Pc w ν α))) ∧
      ((pushStep m pc).2 = none → g'.nodes.getLast? = some (pushStep m pc).1.tail) ∧
      ∀ u, u ≠ t → Keeps u m g (pushStep m pc).1 g' := by
  cases pc with
  | readTail n =>
    refine ⟨g, hI, ?_, fun h => by simp [pushStep] at h, fun u _ => keeps_refl u m g⟩
    rintro _ ⟨rfl⟩
    exact ⟨⟨hp, rfl⟩, hlast⟩
  | clearNext tl n =>
    obtain ⟨hheld, htl⟩ := hp
    have hn : n ∉ g.nodes := hI.held_out n (by simp [hheld])
    obtain ⟨hI', htop⟩ := hI.write (d := m.data n) (x := none) hn
    rw [Function.update_eq_self] at hI' htop
    refine ⟨g, hI', ?_, fun h => by simp [pushStep] at h, fun u hu => ⟨fun a ha => ?_, htop⟩⟩
    · rintro _ ⟨rfl⟩
      exact ⟨⟨hheld, htl, by simp [pushStep]⟩, hlast⟩
    · have hne : a ≠ n := by
        rintro rfl
        exact hu (Option.some.inj (ha.symm.trans hheld))
      exact ⟨ha, Function.update_of_ne hne .., rfl⟩
  | linkNext tl n =>
    obtain ⟨hheld, rfl, hnull⟩ := hp
    have hlast : g.nodes.getLast? = some m.tail := hlast
    refine ⟨_, hI.link hheld hlast hnull, ?_, fun h => by simp [pushStep] at h,
      fun u hu => keeps_link hI hheld hlast hu⟩
    rintro _ ⟨rfl⟩
    exact ⟨trivial, List.getLast?_concat⟩
  | writeTail n =>
    refine ⟨g, { hI with }, fun pc' h => by simp [pushStep] at h, fun _ => hlast,
      fun u _ => ⟨fun a ha => ⟨ha, rfl, rfl⟩, keepsTop_refl m⟩⟩

theorem popStep_spec {pc : PopPc w ν α} (hI : Inv m g) (hp : PopFacts t m g pc)
    (hfresh : ∀ k ∈ pc.stamp, m.popped.length < k + 2 ^ w) :
    ∃ g', Inv (popStep m pc).1 g' ∧
      (∀ pc', (popStep m pc).2 = .inl pc' → PopFacts t (popStep m pc).1 g' pc') ∧
      (∀ n k, (popStep m pc).2 = .inr (.node n k) →
        callFacts t (popStep m pc).1 g' (.popRet (.node n k) : Pc w ν α)) ∧
      (∀ u, u ≠ t → Keeps u m g (popStep m pc).1 g') ∧
      KeepsLast m g (popStep m pc).1 g' := by
  have hself : ∀ u, u ≠ t → Keeps u m g m g := fun u _ => keeps_refl u m g
  have hlast : KeepsLast m g m g := ⟨rfl, rfl⟩
  cases pc with
  | readCounter =>
    refine ⟨g, hI, ?_, fun n k h => by simp [popStep] at h, hself, hlast⟩
    rintro _ ⟨rfl⟩
    exact ⟨hI.counter, Nat.le_refl _⟩
  | readNode c k =>
    refine ⟨g, hI, ?_, fun n k h => by simp [popStep] at h, hself, hlast⟩
    rintro _ ⟨rfl⟩
    exact ⟨hp, fun _ => rfl⟩
  | readNext h k =>
    cases hnext : m.next h.ptr with
    | none =>
      have hstep : popStep m (.readNext h k) = (m, .inr .empty) := by simp [popStep, hnext]
      rw [hstep]
      exact ⟨g, hI, by simp, by simp, hself, hlast⟩
    | some x =>
      have hstep : popStep m (.readNext h k) = (m, .inl (.readData h x k)) := by
        simp [popStep, hnext]
      rw [hstep]
      refine ⟨g, hI, ?_, by simp, hself, hlast⟩
      rintro _ ⟨rfl⟩
      exact ⟨hp.1, fun hk => ⟨hp.2 hk, hnext⟩⟩
  | readData h x k =>
    refine ⟨g, hI, ?_, fun n k h => by simp [popStep] at h, hself, hlast⟩
    rintro _ ⟨rfl⟩
    exact ⟨hp.1, fun hk => ⟨(hp.2 hk).1, (hp.2 hk).2, rfl⟩⟩
  | swap h x d k =>
    by_cases hs : m.head = h
    · -- the swap succeeds: the snapshot is current, the old dummy comes out
      subst hs
      have hk := hp.1.current hI (hfresh k rfl) rfl
      obtain ⟨-, hx, hd⟩ := hp.2 hk
      have hstep : popStep m (.swap m.head x d k) = ({ m with
          head := ⟨m.head.counter + 1, x⟩, popped := m.popped ++ [d] },
          .inl (.writeData m.head.ptr d k)) := by
        simp [popStep]
      rw [hstep]
      refine ⟨_, hI.swap hx hd t, ?_, by simp, fun u _ => keeps_swap hI t, rfl, ?_⟩
      · rintro _ ⟨rfl⟩
        exact ⟨by simp [Ghost.swap], by simp [hk]⟩
      · -- the head is not the last node
        obtain ⟨l, hnodes⟩ := hI.nodes_eq
        have hlinked := hI.linked
        rw [hnodes] at hlinked
        obtain ⟨-, rest, rfl⟩ := Segments.head_of_next hlinked hx
        simp [Ghost.swap, hnodes]
    · have hstep : popStep m (.swap h x d k) = (m, .inr .retry) := by
        simp [popStep, compareAndSwap2_of_ne hs]
      rw [hstep]
      exact ⟨g, hI, by simp, by simp, hself, hlast⟩
  | writeData h d k =>
    obtain ⟨hheld, hpopped⟩ := hp
    have hn : h ∉ g.nodes := hI.held_out h (by simp [hheld])
    obtain ⟨hI', htop⟩ := hI.write (d := d) (x := m.next h) hn
    rw [Function.update_eq_self] at hI' htop
    refine ⟨g, hI', fun pc' hr => by simp [popStep] at hr, ?_,
      fun u hu => ⟨fun a ha => ?_, htop⟩, rfl, rfl⟩
    · rintro n k' ⟨rfl, rfl⟩
      exact ⟨hheld, by simp [popStep, hpopped]⟩
    · have hne : a ≠ h := by
        rintro rfl
        exact hu (Option.some.inj (ha.symm.trans hheld))
      exact ⟨ha, rfl, Function.update_of_ne hne ..⟩

end Step

end FibConcurrent.DistFifo
