import FibConcurrent.HazardPointer.Access

/-!
# HazardPointer — protection and reclamation

Arbitrary clients: every thread creates its record at some time and then fills
and clears its slots, looks whether the nodes in them are retired, retires
nodes and scans, in any order. A node in a checked slot is not reclaimed, and
between its retirement and its one reclamation a node is in one place.
-/

namespace FibConcurrent.HazardPointer

open FibConcurrent.Machine FibConcurrent.Data

variable {ι ν : Type*} [DecidableEq ι] [LinearOrder ν] {pointersPerThread : Nat}

/-- **Every step of every thread keeps the assertion**, and calls no
`gc_function` of a protected node. -/
theorem exec_spec {t : ι} {c : Choice ν} {m m' : Memory ι ν} {pc pc' : Pc ι ν} {g : Ghost ι ν}
    (hI : Inv pointersPerThread m g) (hT : ThreadFacts pointersPerThread t m g pc)
    (he : exec pointersPerThread t c m pc = some (m', pc')) :
    (∃ g', Inv pointersPerThread m' g' ∧ ThreadFacts pointersPerThread t m' g' pc' ∧
      ∀ u, u ≠ t → Keeps u m g m' g') ∧
      ∀ x, m'.gced x ≠ m.gced x → ∀ u n, ¬ Protects m u n x := by
  by_cases hpc : pc = .idle → c = .scan
  · obtain ⟨g', hI', hT', hk, heffect⟩ := exec_internal hI hT hpc he
    refine ⟨⟨g', hI', hT', hk⟩, fun x hx => ?_⟩
    rcases heffect.gced x with heq | ⟨-, -, hfree⟩
    · exact absurd heq hx
    · exact hfree
  · obtain ⟨rfl, hc⟩ := Classical.not_imp.mp hpc
    have ht : t ∈ g.chain := hT.pc
    cases c <;> simp only [exec, reduceCtorEq, Option.ite_none_right_eq_some, Option.some.injEq,
      Prod.mk.injEq, Option.bind_eq_some_iff] at he
    case use x n =>
      obtain ⟨hn, rfl, rfl⟩ := he
      obtain ⟨hI', hk⟩ := usingSlot_spec (x := x) hI ht hn
      exact ⟨⟨g, hI', ⟨hT.held, ht⟩, fun u _ => hk u⟩, fun x hx => absurd rfl hx⟩
    case check n =>
      obtain ⟨x, hs, hx, rfl, rfl⟩ := he
      obtain ⟨hI', hk⟩ := markChecked_spec hI hs hx
      exact ⟨⟨g, hI', ⟨hT.held, ht⟩, fun u _ => hk u⟩, fun x hx => absurd rfl hx⟩
    case doneUsing n =>
      obtain ⟨-, rfl, rfl⟩ := he
      obtain ⟨hI', hk⟩ := doneUsing_spec (t := t) (n := n) hI
      exact ⟨⟨g, hI', ⟨hT.held, ht⟩, fun u _ => hk u⟩, fun x hx => absurd rfl hx⟩
    case free x =>
      obtain ⟨hx, rfl, rfl⟩ := he
      obtain ⟨hI', hk⟩ := retire_spec (t := t) hI hx
      refine ⟨⟨_, hI', ⟨?_, ht⟩, hk⟩, fun x hx => absurd rfl hx⟩
      show (Function.update m.retiredList t (x :: m.retiredList t) t ++ []).Perm
        (Function.update g.held t (x :: g.held t) t)
      rw [Function.update_self, Function.update_self]
      exact List.Perm.cons x hT.held
    case scan => exact absurd rfl hc

theorem hazardAssertion_kept :
    (hazardAssertion (ι := ι) (ν := ν) pointersPerThread).Kept (hazardProgram pointersPerThread)
      (fun _ _ _ _ => True) := by
  intro t c m pc m' pc' g hI hT _ he
  obtain ⟨⟨g', hI', hT', hk⟩, -⟩ := exec_spec hI hT he
  exact ⟨g', hI', hT', fun u hu k hk' => hk'.keep (hk u hu)⟩

omit [DecidableEq ι] in
theorem hazardAssertion_init {s : Config ι (Memory ι ν) (Pc ι ν)} (h : Init s) :
    (hazardAssertion pointersPerThread).Holds s := by
  obtain ⟨hmem, hloc⟩ := h
  refine ⟨⟨[], fun _ => []⟩, ?_, fun t => ?_⟩
  · rw [hmem]
    exact ⟨rfl, linked_nil, List.nodup_nil, by simp [initialMemory], fun _ => List.nodup_nil,
      by simp, fun _ => .inl ⟨rfl, fun _ => List.not_mem_nil⟩⟩
  · rw [hmem, hloc t]
    exact ⟨List.Perm.refl _, List.not_mem_nil⟩

/-! ## Runs -/

section Runs

variable {s : Config ι (Memory ι ν) (Pc ι ν)}
  {hist : List (Event ι (Config ι (Memory ι ν) (Pc ι ν)))}

theorem hazard_invariant (run : Run Init (hazardProgram pointersPerThread).Step s hist) :
    (hazardAssertion pointersPerThread).Holds s := by
  have hrun : Run Init ((hazardProgram pointersPerThread).StepIf fun _ _ _ _ => True) s hist :=
    run.mono fun t s s' h => Program.stepIf_true.mpr h
  exact hazardAssertion_kept.run (fun _ h => hazardAssertion_init h) hrun

/-- The nodes that `t` has retired and not reclaimed: its retired list, and what
its scan has detached. -/
def waiting (s : Config ι (Memory ι ν) (Pc ι ν)) (t : ι) : List ν :=
  s.mem.retiredList t ++ (s.loc t).detached

/-- Hazard pointers that protect, in state `s` reached by `hist`. -/
structure HazardPromise (pointersPerThread : Nat) (s : Config ι (Memory ι ν) (Pc ι ν))
    (hist : List (Event ι (Config ι (Memory ι ν) (Pc ι ν)))) : Prop where
  /-- `hazard_pointer_using` fills its slot with the node, and leaves all others alone. -/
  fills : ∀ t x n, s.loc t = .idle → n < pointersPerThread →
    ∃ m, (hazardProgram pointersPerThread).exec t (.use x n) s.mem .idle = some (m, .idle) ∧
      m.hazardPointers t n = some x ∧
      ∀ u k, (u, k) ≠ (t, n) → m.hazardPointers u k = s.mem.hazardPointers u k
  /-- No `gc_function` was called of a node in a checked slot. -/
  protects : ∀ e ∈ hist, ∀ x, e.post.mem.gced x ≠ e.pre.mem.gced x →
    ∀ t n, e.pre.mem.checked t n = true → e.pre.mem.hazardPointers t n ≠ some x
  /-- `gc_function` is called at most once for each time a node is retired. -/
  once : ∀ x, s.mem.gced x ≤ s.mem.freed x
  /-- Until then the node is in one thread's list, and there once. -/
  waits : ∀ x, s.mem.freed x ≠ s.mem.gced x → s.mem.freed x = s.mem.gced x + 1 ∧
    ∃ t, (waiting s t).count x = 1 ∧ ∀ u, u ≠ t → x ∉ waiting s u
  /-- Before and afterwards it is in no list. -/
  gone : ∀ x, s.mem.freed x = s.mem.gced x → ∀ t, x ∉ waiting s t
  /-- A scan goes on to its end: it does not fail its assertion. -/
  scans : ∀ t pc, s.loc t = .scan pc →
    ((hazardProgram pointersPerThread).exec t .step s.mem (.scan pc)).isSome = true

/-- **Hazard pointers protect, and retired nodes are reclaimed once**, for any
number of threads, arbitrary clients and every interleaving. -/
theorem hazard_pointers_protect
    (run : Run Init (hazardProgram pointersPerThread).Step s hist) :
    HazardPromise pointersPerThread s hist := by
  obtain ⟨g, hI, hT⟩ := hazard_invariant run
  have hmem : ∀ t x, x ∈ waiting s t ↔ x ∈ g.held t := fun t x => (hT t).held.mem_iff
  constructor
  case fills =>
    intro t x n _ hn
    exact ⟨usingSlot t s.mem x n, if_pos hn, hazardPointers_usingSlot⟩
  case scans =>
    intro t pc hpc
    have hpc' := (hT t).pc
    rw [hpc] at hpc'
    exact (Option.isSome_map ..).trans (scanStep_isSome hI hpc'.1 pc)
  case protects =>
    intro e he x hx t n hc hs
    obtain ⟨hstep, hist', run'⟩ := run.of_mem he
    obtain ⟨g', hI', hT'⟩ := hazard_invariant run'
    obtain ⟨c, hexec⟩ := hstep.exec
    exact (exec_spec hI' (hT' e.tid) hexec).2 x hx t n ⟨hc, hs⟩
  case once =>
    intro x
    rcases hI.passed x with ⟨heq, -⟩ | ⟨heq, -⟩ <;> omega
  case waits =>
    intro x hx
    rcases hI.passed x with ⟨heq, -⟩ | ⟨heq, t, ht⟩
    · exact absurd heq hx
    · refine ⟨heq, t, ?_, fun u hu hxu => ?_⟩
      · rw [waiting, (hT t).held.count_eq]
        exact List.count_eq_one_of_mem (hI.heldNodup t) ht
      · exact hu (hI.heldDisjoint u t x ((hmem u x).mp hxu) ht)
  case gone =>
    intro x hx t hxt
    rcases hI.passed x with ⟨-, hno⟩ | ⟨heq, -⟩
    · exact hno t ((hmem t x).mp hxt)
    · omega

end Runs

/-- Threads 0 and 1 have one slot each. Thread 0 protects node 7, thread 1
retires it and scans: node 7 survives this first scan, as it is in its `plist`. Once the slot
is cleared, the `plist` of a second scan is empty, and node 7 is reclaimed. -/
theorem hazard_pointers_protect_one_node :
    ∃ (s : Config Nat (Memory Nat Nat) (Pc Nat Nat)) (hist : _),
      Run Init (hazardProgram 1).Step s hist ∧
        (∃ e ∈ hist, e.pre.loc 1 = .scan (.process [7] []) ∧ e.post.loc 1 = .idle ∧
          e.post.mem.retiredList 1 = [7] ∧ e.post.mem.gced 7 = 0) ∧
        s.mem.freed 7 = 1 ∧ s.mem.gced 7 = 1 ∧ HazardPromise 1 s hist := by
  have hstart : Run Init (hazardProgram (ι := Nat) (ν := Nat) 1).Step
      ⟨initialMemory, fun _ => .unregistered⟩ [] := .start ⟨rfl, fun _ => rfl⟩
  obtain ⟨s, hist, run, hfirst, hfreed, hgced⟩ := hstart.exists_of_history
    (q := fun s hist => (∃ e ∈ hist, e.pre.loc 1 = .scan (.process [7] []) ∧
      e.post.loc 1 = .idle ∧ e.post.mem.retiredList 1 = [7] ∧ e.post.mem.gced 7 = 0) ∧
      s.mem.freed 7 = 1 ∧ s.mem.gced 7 = 1)
    (List.flatten [[(0, .create)], List.replicate 2 (0, .step), [(1, .create)],
      List.replicate 5 (1, .step), [(0, .use 7 0), (0, .check 0), (1, .free 7), (1, .step),
      (1, .scan)], List.replicate 9 (1, .step), [(0, .doneUsing 0), (1, .scan)],
      List.replicate 9 (1, .step)])
    (by decide +kernel)
  exact ⟨s, hist, run, hfirst, hfreed, hgced, hazard_pointers_protect run⟩

end FibConcurrent.HazardPointer
