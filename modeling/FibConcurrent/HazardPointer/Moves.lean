import FibConcurrent.HazardPointer.Model

/-!
# HazardPointer — what a step can do

The steps of a thread as a relation: one constructor for each access, with what
the access has found. The facts about single steps in the modules that follow
are case analyses over it.
-/

namespace FibConcurrent.HazardPointer

open FibConcurrent.Machine

variable {ι ν : Type*} [DecidableEq ι]

variable [LinearOrder ν] (pointersPerThread : Nat) (t : ι)

/-- The accesses of a scan, with what each has found. -/
inductive ScanMoves (m : Memory ι ν) : ScanPc ι ν → Memory ι ν → Option (ScanPc ι ν) → Prop
  | readHead {head : ι} (h : m.head = some head) :
      ScanMoves m .readHead m (some (.readThreshold head))
  | readThreshold (head : ι) (size : ι → Nat) :
      ScanMoves m (.readThreshold head) { m with plistSize := size }
        (some (slotsFrom pointersPerThread head 0 []))
  | readSlot (cur : ι) (i : Nat) (plist : List ν) :
      ScanMoves m (.readSlot cur i plist) m (some (slotsFrom pointersPerThread cur (i + 1)
        (plist ++ (m.hazardPointers cur i).toList)))
  | readNext {cur cur' : ι} (plist : List ν) (h : m.next cur = some cur') :
      ScanMoves m (.readNext cur plist) m (some (slotsFrom pointersPerThread cur' 0 plist))
  | lastRecord {cur : ι} (plist : List ν) (h : m.next cur = none) :
      ScanMoves m (.readNext cur plist) m (some (.detach plist))
  | detach (plist : List ν) :
      ScanMoves m (.detach plist) { m with
          retiredList := Function.update m.retiredList t []
          retiredCount := Function.update m.retiredCount t 0 }
        (some (.process (qsort plist) (m.retiredList t)))
  | done (plist : List ν) : ScanMoves m (.process plist []) m none
  | hazardous {plist : List ν} {node : ν} (next : List ν) (h : binarySearch plist node = true) :
      ScanMoves m (.process plist (node :: next)) { m with
          retiredList := Function.update m.retiredList t (node :: m.retiredList t)
          retiredCount := Function.update m.retiredCount t (m.retiredCount t + 1) }
        (some (.process plist next))
  | reclaim {plist : List ν} {node : ν} (next : List ν) (h : ¬ binarySearch plist node = true) :
      ScanMoves m (.process plist (node :: next))
        { m with gced := Function.update m.gced node (m.gced node + 1) }
        (some (.process plist next))

/-- The steps of a thread. -/
inductive Moves (m : Memory ι ν) : Pc ι ν → Memory ι ν → Pc ι ν → Prop
  | register : Moves m .unregistered m (.create .readHead)
  | create (pc : CreatePc ι) : Moves m (.create pc) (createStep pointersPerThread t m pc).1
      ((createStep pointersPerThread t m pc).2.elim .idle .create)
  | use (node : ν) (n : Nat) : Moves m .idle (usingSlot t m node n) .idle
  | check (n : Nat) : Moves m .idle (markChecked t m n) .idle
  | doneUsing (n : Nat) : Moves m .idle (doneUsing t m n) .idle
  | free (node : ν) : Moves m .idle (retire t m node) .readThreshold
  | callScan : Moves m .idle m (.scan .readHead)
  | full (h : m.retireThreshold t ≤ m.retiredCount t) : Moves m .readThreshold m (.scan .readHead)
  | room (h : m.retiredCount t < m.retireThreshold t) : Moves m .readThreshold m .idle
  | scan {pc : ScanPc ι ν} {m' : Memory ι ν} {r : Option (ScanPc ι ν)}
      (h : ScanMoves pointersPerThread t m pc m' r) : Moves m (.scan pc) m' (r.elim .idle .scan)

variable {pointersPerThread t} {m m' : Memory ι ν}

theorem scanMoves_of_scanStep {pc : ScanPc ι ν} {r : Option (ScanPc ι ν)}
    (he : scanStep pointersPerThread t m pc = some (m', r)) :
    ScanMoves pointersPerThread t m pc m' r := by
  cases pc with
  | readHead =>
    obtain ⟨head, hhead, he⟩ := Option.map_eq_some_iff.mp he
    obtain ⟨rfl, rfl⟩ := Prod.mk.inj he
    exact .readHead hhead
  | readThreshold head =>
    obtain ⟨rfl, rfl⟩ := Prod.mk.inj (Option.some.inj he)
    exact .readThreshold head _
  | readSlot cur i plist =>
    obtain ⟨rfl, rfl⟩ := Prod.mk.inj (Option.some.inj he)
    exact .readSlot cur i plist
  | readNext cur plist =>
    simp only [scanStep] at he
    split at he
    · next cur' hnext =>
      obtain ⟨rfl, rfl⟩ := Prod.mk.inj (Option.some.inj he)
      exact .readNext plist hnext
    · next hnext =>
      obtain ⟨rfl, rfl⟩ := Prod.mk.inj (Option.some.inj he)
      exact .lastRecord plist hnext
  | detach plist =>
    obtain ⟨rfl, rfl⟩ := Prod.mk.inj (Option.some.inj he)
    exact .detach plist
  | process plist node =>
    cases node with
    | nil =>
      obtain ⟨rfl, rfl⟩ := Prod.mk.inj (Option.some.inj he)
      exact .done plist
    | cons x next =>
      simp only [scanStep] at he
      split at he
      · next hfound =>
        obtain ⟨rfl, rfl⟩ := Prod.mk.inj (Option.some.inj he)
        exact .hazardous next hfound
      · next hfound =>
        obtain ⟨rfl, rfl⟩ := Prod.mk.inj (Option.some.inj he)
        exact .reclaim next hfound

theorem moves_of_exec {c : Choice ν} {pc pc' : Pc ι ν}
    (he : exec pointersPerThread t c m pc = some (m', pc')) :
    Moves pointersPerThread t m pc m' pc' := by
  cases pc with
  | unregistered =>
    cases c <;> simp only [exec, reduceCtorEq, Option.some.injEq, Prod.mk.injEq] at he
    obtain ⟨rfl, rfl⟩ := he
    exact .register
  | create pc =>
    obtain ⟨rfl, rfl⟩ := Prod.mk.inj (Option.some.inj he)
    exact .create pc
  | idle =>
    cases c <;> simp only [exec, reduceCtorEq, Option.ite_none_right_eq_some, Option.some.injEq,
      Prod.mk.injEq, Option.bind_eq_some_iff] at he
    case use node n => obtain ⟨-, rfl, rfl⟩ := he; exact .use node n
    case check n => obtain ⟨node, -, -, rfl, rfl⟩ := he; exact .check n
    case doneUsing n => obtain ⟨-, rfl, rfl⟩ := he; exact .doneUsing n
    case free node => obtain ⟨-, rfl, rfl⟩ := he; exact .free node
    case scan => obtain ⟨rfl, rfl⟩ := he; exact .callScan
  | readThreshold =>
    simp only [exec, Option.some.injEq, Prod.mk.injEq] at he
    obtain ⟨rfl, rfl⟩ := he
    split
    · next h => exact .full h
    · next h => exact .room (not_le.mp h)
  | scan pc =>
    obtain ⟨⟨m₁, r⟩, hstep, heq⟩ := Option.map_eq_some_iff.mp he
    obtain ⟨rfl, rfl⟩ := Prod.mk.inj heq
    exact .scan (scanMoves_of_scanStep hstep)

/-- Only a creation links records or touches a threshold. -/
theorem Moves.records {pc pc' : Pc ι ν} (h : Moves pointersPerThread t m pc m' pc')
    (hpc : ∀ p, pc ≠ .create p) :
    m'.head = m.head ∧ m'.next = m.next ∧ m'.retireThreshold = m.retireThreshold := by
  cases h with
  | create p => exact absurd rfl (hpc p)
  | scan h => cases h <;> exact ⟨rfl, rfl, rfl⟩
  | _ => exact ⟨rfl, rfl, rfl⟩

end FibConcurrent.HazardPointer
