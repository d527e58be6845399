import FibConcurrent.HazardPointer.Destroy

/-!
# MpmcFifo — the shutdown

`mpmc_fifo_destroy` retires the nodes of the fifo one by one, the dummy first, and
may come to scans on the way, which reclaim what it has just unlinked.
`hazard_pointer_thread_record_destroy_all` then reclaims what is left in the retired
lists. The heap is that of `HazardPointer.Destroy`, where things end.
-/

namespace FibConcurrent.MpmcFifo.Destroy

open FibConcurrent.Data FibConcurrent.HazardPointer.Destroy

variable {ρ ν : Type*}

/-- The heap of `mpmc_fifo_node_t`s, with their `prev` fields. -/
abbrev FifoHeap (ρ ν : Type*) := Heap ρ ν (Option ν)

/-- `node->prev` -/
def prev (h : FifoHeap ρ ν) (node : ν) : Option ν := (h.node node).bind fun n => n.object

section Functions

variable [LinearOrder ν] [DecidableEq ρ] (malloc : Nat → List (Option ν))
  (qsort : (Option ν → Option ν → Int) → List (Option ν) → List (Option ν)) (fuel : Nat)
  (hptr : ρ)

/-- The loop of `mpmc_fifo_destroy` from `fifo->head = head`, for at most as many
nodes. -/
def mpmcFifoDestroyLoop : Nat → Option ν → FifoHeap ρ ν → Option (FifoHeap ρ ν)
  | 0, _, _ => none
  | _ + 1, none, h => some h
  | rounds + 1, some tmp, h =>
      (h.node tmp).bind fun n =>
        (hazardPointerFree malloc qsort fuel hptr tmp h).bind fun h =>
          mpmcFifoDestroyLoop rounds n.object h

/-- `mpmc_fifo_destroy`; `fifo` is NULL or has the head that `fifo->head` is. -/
def mpmcFifoDestroy (fifo : Option (Option ν)) (h : FifoHeap ρ ν) : Option (FifoHeap ρ ν) :=
  match fifo with
  | none => some h
  | some head => mpmcFifoDestroyLoop malloc qsort fuel hptr fuel head h

/-- First the fifo, then all the records. -/
def shutdown (fifo : Option (Option ν)) (h : FifoHeap ρ ν) : Option (FifoHeap ρ ν) :=
  (mpmcFifoDestroy malloc qsort fuel hptr fifo h).bind fun h =>
    hazardPointerThreadRecordDestroyAll malloc qsort fuel h.head h

end Functions

/-- No operation is in progress: all slots are NULL, every record of `chain` has the
threshold of `2 * N * K` and knows the list, and the fifo consists of `nodes`, its dummy
first. -/
structure Quiescent (h : FifoHeap ρ ν) (chain : List ρ) (slotCount : Nat) (nodes : List ν)
    (retired : ρ → List ν) : Prop where
  head : h.head = chain.head?
  quiet : Quiet h slotCount (2 * chain.length * slotCount) chain nodes retired
  headOf : ∀ r ∈ chain, h.headOf r = chain.head?
  positive : 0 < slotCount
  linked : Linked (prev h) nodes

section Shutdown

variable [LinearOrder ν] [DecidableEq ρ] (malloc : Nat → List (Option ν))
  (qsort : (Option ν → Option ν → Int) → List (Option ν) → List (Option ν))
  {h : FifoHeap ρ ν} {slotCount threshold : Nat} {chain : List ρ} {nodes : List ν}
  {retired : ρ → List ν} {hptr : ρ}

/-- **The loop retires the nodes one by one**; the link of a node is read before the
node can be reclaimed. -/
theorem mpmcFifoDestroyLoop_spec (hq : Quiet h slotCount threshold chain nodes retired)
    (hlinked : Linked (prev h) nodes) (hhptr : hptr ∈ chain)
    (hhead : h.headOf hptr = chain.head?) (hpos : 0 < threshold / 2) :
    ∃ h' called kept, (∀ fuel rounds,
        chain.length + (retired hptr).length + nodes.length < fuel → nodes.length < rounds →
        mpmcFifoDestroyLoop malloc qsort fuel hptr rounds nodes.head? h = some h') ∧
      Retires h h' slotCount threshold chain [] retired hptr nodes called kept := by
  induction nodes generalizing h retired with
  | nil =>
    refine ⟨h, [], retired hptr, fun fuel rounds _ hrounds => ?_, ?_⟩
    · obtain ⟨rounds, rfl⟩ := Nat.exists_eq_add_one.mpr hrounds
      rfl
    · constructor
      case quiet =>
        rw [Function.update_eq_self]
        exact hq
      case gced => rw [List.append_nil]
      case perm => exact List.Perm.refl _
      case node => exact fun y hy => absurd hy List.not_mem_nil
      all_goals rfl
  | cons node nodes ih =>
    obtain ⟨hnext, hlinked⟩ := linked_cons.mp hlinked
    obtain ⟨n, hn⟩ := hq.node node List.mem_cons_self
    have hprev : n.object = nodes.head? := by
      rw [prev, hn] at hnext
      exact hnext
    obtain ⟨h₁, called₁, kept₁, hfree, hr₁⟩ := hazardPointerFree_spec malloc qsort hq hhptr hhead
      hpos
    have hlinked₁ : Linked (prev h₁) nodes := hlinked.congr fun y hy => by
      rw [prev, hr₁.node y hy]
      rfl
    obtain ⟨h', called, kept, hrun, hr⟩ := ih hr₁.quiet hlinked₁ (hr₁.headOf.trans hhead)
    have hlength := hr₁.perm.length_eq
    simp only [List.length_append, List.length_cons, List.length_nil] at hlength
    have hfirst : Retires h h₁ slotCount threshold chain (nodes ++ []) retired hptr [node] called₁
        kept₁ := (List.append_nil nodes).symm ▸ hr₁
    refine ⟨h', called₁ ++ called, kept, fun fuel rounds hfuel hrounds => ?_, hfirst.trans hr⟩
    obtain ⟨rounds, rfl⟩ := Nat.exists_eq_add_one.mpr (Nat.zero_lt_of_lt hrounds)
    rw [List.length_cons] at hfuel hrounds
    rw [List.head?_cons, mpmcFifoDestroyLoop, hn, Option.bind_some, hfree fuel (by omega),
      Option.bind_some, hprev]
    refine hrun fuel rounds ?_ (by omega)
    rw [Function.update_self]
    omega

/-- **A shutdown reclaims everything exactly once**, from every quiescent state and
with any of the records. That it has a result means that nothing was followed that
was gone. -/
theorem shutdown_reclaims_once (hq : Quiescent h chain slotCount nodes retired)
    (hhptr : hptr ∈ chain) :
    ∃ fuel₀ h', (∀ fuel ≥ fuel₀,
        shutdown malloc qsort fuel hptr (some nodes.head?) h = some h') ∧
      (∃ called, h'.gced = h.gced ++ called ∧ called.Nodup ∧
        called.Perm (nodes ++ chain.flatMap retired)) ∧
      h'.freed = h.freed ++ chain ∧ chain.Nodup := by
  have hnd := hq.quiet.linked.nodup
  have hpos : 0 < 2 * chain.length * slotCount / 2 := by
    rw [Nat.mul_assoc, Nat.mul_div_cancel_left _ Nat.two_pos]
    exact Nat.mul_pos (List.length_pos_of_mem hhptr) hq.positive
  obtain ⟨h₁, called, kept, hfifo, hr⟩ := mpmcFifoDestroyLoop_spec malloc qsort hq.quiet hq.linked
    hhptr (hq.headOf hptr hhptr) hpos
  -- `cur` starts at the head of the list
  have hquiet : Quiet { h₁ with cur := h₁.head } slotCount (2 * chain.length * slotCount) chain []
      (Function.update retired hptr kept) :=
    ⟨hr.quiet.record, hr.quiet.linked, hr.quiet.node, hr.quiet.retiredLinked, hr.quiet.distinct⟩
  obtain ⟨h', hdestroy, hgced, hfreed⟩ := destroyAllLoop_spec malloc qsort hquiet
    (hr.head.trans hq.head) hpos
  have hperm : (called ++ chain.flatMap (Function.update retired hptr kept)).Perm
      (nodes ++ chain.flatMap retired) := by
    have hkept := perm_update [] retired kept hnd hhptr
    have hretired := perm_retired [] retired hnd hhptr
    rw [List.nil_append, List.nil_append] at hkept hretired
    calc called ++ chain.flatMap (Function.update retired hptr kept)
      List.Perm _ (called ++ (kept ++ (chain.erase hptr).flatMap retired)) :=
        hkept.append_left called
      _ = called ++ kept ++ (chain.erase hptr).flatMap retired := (List.append_assoc ..).symm
      List.Perm _ (nodes ++ retired hptr ++ (chain.erase hptr).flatMap retired) :=
        hr.perm.append_right _
      _ = nodes ++ (retired hptr ++ (chain.erase hptr).flatMap retired) := List.append_assoc ..
      List.Perm _ (nodes ++ chain.flatMap retired) := hretired.symm.append_left nodes
  have hlength := hperm.length_eq
  rw [List.length_append, List.length_append] at hlength
  refine ⟨chain.length + (retired hptr).length + nodes.length + (chain.flatMap retired).length + 1,
    h', fun fuel hfuel => ?_, ⟨_, ?_, ?_, hperm⟩, ?_, hnd⟩
  · rw [shutdown, mpmcFifoDestroy, hfifo fuel fuel (by omega) (by omega), Option.bind_some]
    exact hdestroy fuel fuel (by omega) (by omega)
  · rw [hgced, ← List.append_assoc]
    exact congrArg (· ++ _) hr.gced
  · exact hperm.nodup_iff.mpr hq.quiet.distinct
  · rw [hfreed]
    exact congrArg (· ++ chain) hr.freed

end Shutdown

/-- Two records with one slot each. The second node that `mpmc_fifo_destroy` retires
with record 0 brings it to its threshold of four, so that a scan runs before node 12
is retired. -/
theorem shutdown_reclaims_once_scanning :
    ∃ fuel₀, ∃ h h' : FifoHeap Nat Nat,
      (∀ fuel ≥ fuel₀, shutdown (fun n => List.replicate n none)
        (fun compare l => l.mergeSort fun a b => decide (compare a b ≤ 0)) fuel 0
        (some (some 10)) h = some h') ∧
      (∃ called, h'.gced = [] ++ called ∧ called.Nodup ∧
        called.Perm [10, 11, 12, 7, 5, 6]) ∧
      h'.freed = [1, 0] := by
  let retired : Nat → List Nat := fun r => if r = 0 then [5, 6] else [7]
  let h : FifoHeap Nat Nat :=
    { head := some 1
      cur := none
      record := fun r => some
        { next := if r = 1 then some 0 else none
          retireThreshold := 4
          retiredCount := if r = 0 then 2 else 1
          retiredList := (retired r).head?
          plistSize := 0
          plist := none
          hazardPointers := [none]
          head := .shared }
      node := fun x => some
        { next := if x = 5 then some 6 else none
          object := if x = 10 then some 11 else if x = 11 then some 12 else none }
      gced := []
      freed := [] }
  have hquiet : Quiet h 1 4 [1, 0] [10, 11, 12] retired := by
    constructor
    case record => exact fun r _ => ⟨_, rfl, rfl, rfl, rfl⟩
    case linked => exact ⟨.inl ⟨rfl, rfl⟩, rfl, rfl⟩
    case node => exact fun x _ => ⟨_, rfl⟩
    case retiredLinked =>
      intro r hr
      rcases List.mem_cons.mp hr with rfl | hr
      · exact ⟨rfl, rfl⟩
      · rw [List.mem_singleton.mp hr]
        exact ⟨.inl ⟨rfl, rfl⟩, rfl, rfl⟩
    case distinct => decide
  have hq : Quiescent h [1, 0] 1 [10, 11, 12] retired :=
    ⟨rfl, hquiet, fun _ _ => rfl, Nat.one_pos, ⟨.inl ⟨rfl, rfl⟩, .inl ⟨rfl, rfl⟩, rfl, rfl⟩⟩
  have hhptr : 0 ∈ [1, 0] := by decide
  obtain ⟨fuel₀, h', hrun, hcalled, hfreed, -⟩ := shutdown_reclaims_once
    (fun n => List.replicate n none)
    (fun compare l => l.mergeSort fun a b => decide (compare a b ≤ 0)) hq hhptr
  exact ⟨fuel₀, h, h', hrun, hcalled, hfreed⟩

end FibConcurrent.MpmcFifo.Destroy
