import FibConcurrent.Data.Segments
import FibConcurrent.MpmcStack.Model

/-!
# MpmcStack — every node has one place

A node is with a client, with a pusher, in the live chain, in the chain of one
flush, or in a flushed chain that a client holds, which is named by its front.
Only the holder of a place writes the `next` fields of the nodes there; the CAS
of a push does not depend on anything but the current head, and that is why no
counter is needed.
-/

namespace FibConcurrent.MpmcStack

open FibConcurrent.Machine FibConcurrent.Data

variable {ι ν : Type*}

inductive Place (ι ν : Type*) where
  | client
  | pushing (t : ι)
  | live
  | flushing (t : ι)
  | held (front : ν)

/-- Between a successful push and the moment a client takes the node. -/
def Place.inChain : Place ι ν → Prop
  | .client => False
  | .pushing _ => False
  | _ => True

/-- The nodes of a null-terminated chain that starts at `head`. -/
structure Chain (next : ν → Option ν) (head : Option ν) (nodes : List ν) : Prop where
  head : head = nodes.head?
  linked : Linked next nodes
  nodup : nodes.Nodup

/-- Where every node is. -/
abbrev Ghost (ι ν : Type*) := ν → Place ι ν

structure Inv (m : Memory ν) (g : Ghost ι ν) : Prop where
  live : Chain m.next m.head m.since
  live_mem : ∀ n, n ∈ m.since ↔ g n = .live
  owned : ∀ n, m.owned n = true → g n = .client
  chains_nodup : m.chains.Nodup
  held : ∀ h ∈ m.chains, ∃ nodes, Chain m.next (some h) nodes ∧ ∀ n, n ∈ nodes ↔ g n = .held h
  held_mem : ∀ n h, g n = .held h → h ∈ m.chains
  outside : ∀ n, ¬ (g n).inChain → m.pushes n = m.taken n
  inside : ∀ n, (g n).inChain → m.pushes n = m.taken n + 1

/-- `mpmc_stack_reverse` has turned round the nodes of `batch` in front of
`rest`. -/
def Reversing (m : Memory ν) (rest : List ν) (fifo : Option ν) (batch : List ν) : Prop :=
  ∃ done, batch = done.reverse ++ rest ∧ batch.Nodup ∧ Linked m.next rest ∧ Linked m.next done ∧
    fifo = done.head?

def PushFacts (t : ι) (m : Memory ν) (g : Ghost ι ν) : PushPc ν → Prop
  | .readHead n _ => g n = .pushing t
  | .writeNext n _ _ => g n = .pushing t
  | .swapHead n head _ => g n = .pushing t ∧ m.next n = head

def FlushFacts (m : Memory ν) : FlushPc ν → Prop
  | .readNext head fifo batch => ∃ rest, Reversing m (head :: rest) fifo batch
  | .writeNext head next fifo batch =>
      ∃ rest, next = rest.head? ∧ Reversing m (head :: rest) fifo batch
  | _ => True

/-- The nodes of a batch in the order in which the flush returns them. -/
def Order.arrange : Order → List ν → List ν
  | .lifo, batch => batch
  | .fifo, batch => batch.reverse

def PcFacts (t : ι) (m : Memory ν) (g : Ghost ι ν) : Pc ν → Prop
  | .push pc => PushFacts t m g pc
  | .pushRet n success => success = false → g n = .pushing t
  | .flush pc => FlushFacts m pc
  | .flushRet (.success order out batch) => Chain m.next out (order.arrange batch)
  | _ => True

/-- The nodes a thread has flushed, and what its program point adds. -/
structure ThreadFacts (t : ι) (m : Memory ν) (g : Ghost ι ν) (pc : Pc ν) : Prop where
  batch : ∀ n, n ∈ pc.batch ↔ g n = .flushing t
  pc : PcFacts t m g pc

def stackAssertion : Assertion ι (Memory ν) (Ghost ι ν) (Pc ν) where
  shared := Inv
  thread := ThreadFacts

/-! ## Chains -/

section Chain

variable {next next' : ν → Option ν} {head : Option ν} {nodes : List ν} {n : ν}

theorem Chain.congr (h : Chain next head nodes) (hn : ∀ a ∈ nodes, next' a = next a) :
    Chain next' head nodes :=
  ⟨h.head, h.linked.congr hn, h.nodup⟩

theorem chain_nil : Chain next none [] := ⟨rfl, linked_nil, List.nodup_nil⟩

/-- A node whose link is the head goes in front. -/
theorem Chain.cons (h : Chain next head nodes) (hn : next n = head) (hout : n ∉ nodes) :
    Chain next (some n) (n :: nodes) :=
  ⟨rfl, linked_cons.mpr ⟨hn.trans h.head, h.linked⟩, List.nodup_cons.mpr ⟨hout, h.nodup⟩⟩

theorem Chain.reaches_iff {h : ν} (hc : Chain next (some h) nodes) :
    Reaches next h n ↔ n ∈ nodes := by
  obtain ⟨rest, rfl⟩ := List.head?_eq_some_iff.mp hc.head.symm
  exact hc.linked.reaches_iff

end Chain

/-- A held chain is named by its front. -/
theorem Inv.held_front {m : Memory ν} {g : Ghost ι ν} {h : ν} (hI : Inv m g)
    (hh : h ∈ m.chains) : g h = .held h := by
  obtain ⟨nodes, hchain, hmem⟩ := hI.held h hh
  exact (hmem h).mp (List.mem_of_mem_head? hchain.head.symm)

/-! ## The loop of `mpmc_stack_reverse` -/

section Reversing

variable {m m' : Memory ν} {head : ν} {rest batch : List ν} {fifo : Option ν}

theorem Reversing.keep (h : Reversing m rest fifo batch)
    (hn : ∀ n ∈ batch, m'.next n = m.next n) : Reversing m' rest fifo batch := by
  obtain ⟨done, rfl, hnodup, hrest, hdone, hfifo⟩ := h
  refine ⟨done, rfl, hnodup, hrest.congr fun n hn' => ?_, hdone.congr fun n hn' => ?_, hfifo⟩
  · exact hn n (List.mem_append_right _ hn')
  · exact hn n (List.mem_append_left _ (List.mem_reverse.mpr hn'))

/-- The loop moves one node over in every round, -/
theorem Reversing.step [DecidableEq ν] (h : Reversing m (head :: rest) fifo batch) :
    Reversing { m with next := Function.update m.next head fifo } rest (some head) batch := by
  obtain ⟨done, rfl, hnodup, hrest, hdone, rfl⟩ := h
  have hhead : head ∉ done ∧ head ∉ rest := by
    have hmiddle := List.nodup_middle.mp hnodup
    have hout := (List.nodup_cons.mp hmiddle).1
    simpa using hout
  refine ⟨head :: done, by simp, hnodup, ?_, ?_, rfl⟩
  · exact (linked_cons.mp hrest).2.update_next hhead.2
  · apply linked_cons.mpr
    constructor
    · exact Function.update_self ..
    · exact hdone.update_next hhead.1

/-- and ends with all of them turned round. -/
theorem Reversing.chain (h : Reversing m [] fifo batch) : Chain m.next fifo batch.reverse := by
  obtain ⟨done, rfl, hnodup, -, hdone, rfl⟩ := h
  rw [List.append_nil] at hnodup ⊢
  rw [List.reverse_reverse]
  exact ⟨rfl, hdone, List.nodup_reverse.mp hnodup⟩

theorem Reversing.head_mem (h : Reversing m (head :: rest) fifo batch) : head ∈ batch := by
  obtain ⟨done, rfl, -⟩ := h
  simp

/-- The rounds that are left. -/
theorem Reversing.length_le (h : Reversing m rest fifo batch) : rest.length ≤ batch.length := by
  obtain ⟨done, rfl, -⟩ := h
  simp

end Reversing

/-! ## What the accesses of others leave alone -/

/-- What `u` may rely on. -/
structure Keeps (u : ι) (m : Memory ν) (g : Ghost ι ν) (m' : Memory ν) (g' : Ghost ι ν) :
    Prop where
  pushing : ∀ n, g n = .pushing u → g' n = .pushing u ∧ m'.next n = m.next n
  flushing : ∀ n, g' n = .flushing u ↔ g n = .flushing u
  next : ∀ n, g n = .flushing u → m'.next n = m.next n

section Keeps

variable {u : ι} {m m' : Memory ν} {g g' : Ghost ι ν}

theorem keeps_refl (u : ι) (m : Memory ν) (g : Ghost ι ν) : Keeps u m g m g :=
  ⟨fun _ hn => ⟨hn, rfl⟩, fun _ => Iff.rfl, fun _ _ => rfl⟩

theorem PushFacts.keep {pc : PushPc ν} (h : PushFacts u m g pc) (hk : Keeps u m g m' g') :
    PushFacts u m' g' pc := by
  cases pc with
  | readHead n tries => exact (hk.pushing n h).1
  | writeNext n head tries => exact (hk.pushing n h).1
  | swapHead n head tries =>
    obtain ⟨hplace, hnext⟩ := hk.pushing n h.1
    exact ⟨hplace, hnext.trans h.2⟩

theorem ThreadFacts.keep {pc : Pc ν} (h : ThreadFacts u m g pc) (hk : Keeps u m g m' g') :
    ThreadFacts u m' g' pc := by
  obtain ⟨hbatch, hpc⟩ := h
  have hnext : ∀ n ∈ pc.batch, m'.next n = m.next n := fun n hn => hk.next n ((hbatch n).mp hn)
  constructor
  · intro n
    rw [hbatch n, hk.flushing n]
  · cases pc with
    | idle => trivial
    | push pc => exact PushFacts.keep hpc hk
    | pushRet n success => exact fun hs => (hk.pushing n (hpc hs)).1
    | flush pc =>
      cases pc with
      | readNext head fifo batch =>
        obtain ⟨rest, hr⟩ := hpc
        exact ⟨rest, hr.keep hnext⟩
      | writeNext head next fifo batch =>
        obtain ⟨rest, hrest, hr⟩ := hpc
        exact ⟨rest, hrest, hr.keep hnext⟩
      | _ => trivial
    | flushRet result =>
      cases result with
      | retry order => trivial
      | success order out batch =>
        apply Chain.congr hpc
        intro n hn
        apply hnext
        cases order with
        | lifo => exact hn
        | fifo => exact List.mem_reverse.mp hn

end Keeps

end FibConcurrent.MpmcStack
