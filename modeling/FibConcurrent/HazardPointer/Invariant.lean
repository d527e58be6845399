import FibConcurrent.Data.Segments
import FibConcurrent.HazardPointer.Model

/-!
# HazardPointer — what the records hold

A scan reads the slots one by one while other threads change them and link new
records in front of the list. It works because of what cannot happen: a node
that is waiting in a retired list is not found "not retired" by anybody, so the
slots that protect it only become fewer. A slot that still protects it when the
scan is done was there all the time, in a record behind the `head` that the
scan read, and the scan has seen it (`Visiting`).
-/

namespace FibConcurrent.HazardPointer

open FibConcurrent.Machine FibConcurrent.Data

variable {ι ν : Type*}

/-! ## `binary_search` -/

section BinarySearch

variable [LinearOrder ν] {haystack : List ν} {needle : ν}

/-- Below `start` everything is too small, above `stop` too large. -/
structure Bounded (haystack : List ν) (needle : ν) (start stop : Int) : Prop where
  nonneg : 0 ≤ start
  lt : stop < haystack.length
  low : ∀ (i : Nat) v, haystack[i]? = some v → (i : Int) < start → v < needle
  high : ∀ (i : Nat) v, haystack[i]? = some v → stop < (i : Int) → needle < v

theorem Bounded.not_mem {start stop : Int} (h : Bounded haystack needle start stop)
    (hlt : stop < start) : needle ∉ haystack := by
  intro hmem
  obtain ⟨i, hi⟩ := List.mem_iff_getElem?.mp hmem
  by_cases his : (i : Int) < start
  · exact absurd (h.low i needle hi his) (lt_irrefl _)
  · exact absurd (h.high i needle hi (by omega)) (lt_irrefl _)

theorem le_of_getElem? (hs : haystack.Pairwise (· ≤ ·)) {i j : Nat} {v w : ν}
    (hi : haystack[i]? = some v) (hj : haystack[j]? = some w) (hij : i ≤ j) : v ≤ w := by
  obtain ⟨hil, rfl⟩ := List.getElem?_eq_some_iff.mp hi
  obtain ⟨hjl, rfl⟩ := List.getElem?_eq_some_iff.mp hj
  rcases Nat.lt_or_eq_of_le hij with hlt | rfl
  · exact List.pairwise_iff_getElem.mp hs i j hil hjl hlt
  · exact le_refl _

theorem binarySearchLoop_iff (hs : haystack.Pairwise (· ≤ ·)) {fuel : Nat} {start stop : Int}
    (h : Bounded haystack needle start stop) (hfuel : stop - start < fuel) :
    binarySearchLoop haystack needle fuel start stop = true ↔ needle ∈ haystack := by
  induction fuel generalizing start stop with
  | zero =>
    have hnot := h.not_mem (by omega)
    simp [binarySearchLoop, hnot]
  | succ fuel ih =>
    rw [binarySearchLoop]
    by_cases hle : start ≤ stop
    · rw [if_pos hle]
      have hlen := h.lt
      have hnonneg := h.nonneg
      -- the middle lies in the array
      obtain ⟨v, hv⟩ : ∃ v, haystack[((start + stop) / 2).toNat]? = some v :=
        ⟨_, List.getElem?_eq_getElem (by omega)⟩
      simp only [hv]
      by_cases hgt : v > needle
      · rw [if_pos hgt]
        refine ih ⟨hnonneg, by omega, h.low, fun i w hi hmi => ?_⟩ (by omega)
        exact lt_of_lt_of_le hgt (le_of_getElem? hs hv hi (by omega))
      · rw [if_neg hgt]
        by_cases hlt : v < needle
        · rw [if_pos hlt]
          refine ih ⟨by omega, hlen, fun i w hi hmi => ?_, h.high⟩ (by omega)
          exact lt_of_le_of_lt (le_of_getElem? hs hi hv (by omega)) hlt
        · rw [if_neg hlt]
          obtain rfl : v = needle := le_antisymm (not_lt.mp hgt) (not_lt.mp hlt)
          simp [List.mem_of_getElem? hv]
    · rw [if_neg hle]
      have hnot := h.not_mem (by omega)
      simp [hnot]

/-- **`binary_search` decides membership in a sorted array**, an empty one
included. -/
theorem binarySearch_iff (hs : haystack.Pairwise (· ≤ ·)) :
    binarySearch haystack needle = true ↔ needle ∈ haystack := by
  unfold binarySearch
  by_cases hzero : haystack.length = 0
  · rw [if_pos hzero, List.length_eq_zero_iff.mp hzero]
    simp
  · rw [if_neg hzero]
    refine binarySearchLoop_iff hs ⟨Int.le_refl _, by omega, fun i v _ hi => by omega,
      fun i v hi hlast => ?_⟩ (by omega)
    obtain ⟨hlt, -⟩ := List.getElem?_eq_some_iff.mp hi
    omega

theorem pairwise_qsort (plist : List ν) : (qsort plist).Pairwise (· ≤ ·) :=
  List.pairwise_insertionSort (· ≤ ·) plist

theorem mem_qsort {plist : List ν} : needle ∈ qsort plist ↔ needle ∈ plist :=
  (List.perm_insertionSort (· ≤ ·) plist).mem_iff

end BinarySearch

/-! ## The invariant -/

/-- Ghost: the linked records, newest first, and the nodes that each thread has
retired and not reclaimed. -/
structure Ghost (ι ν : Type*) where
  chain : List ι
  held : ι → List ν

structure Inv (pointersPerThread : Nat) (m : Memory ι ν) (g : Ghost ι ν) : Prop where
  head : m.head = g.chain.head?
  linked : Linked m.next g.chain
  nodup : g.chain.Nodup
  slots : ∀ t n x, m.hazardPointers t n = some x → t ∈ g.chain ∧ n < pointersPerThread
  heldNodup : ∀ t, (g.held t).Nodup
  heldDisjoint : ∀ t u x, x ∈ g.held t → x ∈ g.held u → t = u
  passed : ∀ x, m.freed x = m.gced x ∧ (∀ t, x ∉ g.held t) ∨
    m.freed x = m.gced x + 1 ∧ ∃ t, x ∈ g.held t

/-- Slot `n` of `t` holds `x`, and `t` has found `x` not retired since. -/
def Protects (m : Memory ι ν) (t : ι) (n : Nat) (x : ν) : Prop :=
  m.checked t n = true ∧ m.hazardPointers t n = some x

/-- The nodes that are protected are in `plist`. -/
def Covered (m : Memory ι ν) (nodes plist : List ν) : Prop :=
  ∀ x ∈ nodes, ∀ u n, Protects m u n x → x ∈ plist

/-- A scan of `t` has seen the slots in front of slot `i` of `cur`: the nodes
it wants to reclaim are in `plist` if they are protected there. -/
def Visiting (m : Memory ι ν) (g : Ghost ι ν) (t cur : ι) (i : Nat) (plist : List ν) : Prop :=
  ∃ pre rest, g.chain = pre ++ cur :: rest ∧ ∀ x ∈ m.retiredList t, ∀ u n, Protects m u n x →
    x ∈ plist ∨ u = cur ∧ i ≤ n ∨ u ∈ rest

section Facts

variable [LinearOrder ν]

def ScanFacts (pointersPerThread : Nat) (m : Memory ι ν) (g : Ghost ι ν) (t : ι) :
    ScanPc ι ν → Prop
  | .readHead => True
  | .readThreshold head => Visiting m g t head 0 []
  | .readSlot cur i plist => Visiting m g t cur i plist
  | .readNext cur plist => Visiting m g t cur pointersPerThread plist
  | .detach plist => Covered m (m.retiredList t) plist
  | .process plist node => plist.Pairwise (· ≤ ·) ∧ Covered m node plist

/-- Whether `t`'s record is linked, and what the program point adds. -/
def PcFacts (pointersPerThread : Nat) (m : Memory ι ν) (g : Ghost ι ν) (t : ι) : Pc ι ν → Prop
  | .unregistered => t ∉ g.chain
  | .create .readHead => t ∉ g.chain
  | .create (.count curHead _ _) => t ∉ g.chain ∧ m.next t = curHead
  | .create (.swapHead curHead) => t ∉ g.chain ∧ m.next t = curHead
  | .scan pc => t ∈ g.chain ∧ ScanFacts pointersPerThread m g t pc
  | _ => t ∈ g.chain

/-- The nodes that a scan has taken off the retired list. -/
def Pc.detached : Pc ι ν → List ν
  | .scan (.process _ node) => node
  | _ => []

structure ThreadFacts (pointersPerThread : Nat) (t : ι) (m : Memory ι ν) (g : Ghost ι ν)
    (pc : Pc ι ν) : Prop where
  held : (m.retiredList t ++ pc.detached).Perm (g.held t)
  pc : PcFacts pointersPerThread m g t pc

def hazardAssertion (pointersPerThread : Nat) :
    Assertion ι (Memory ι ν) (Ghost ι ν) (Pc ι ν) where
  shared := Inv pointersPerThread
  thread := ThreadFacts pointersPerThread

end Facts

/-! ## What the accesses of others leave alone -/

/-- What `u` may rely on. -/
structure Keeps (u : ι) (m : Memory ι ν) (g : Ghost ι ν) (m' : Memory ι ν) (g' : Ghost ι ν) :
    Prop where
  next : m'.next u = m.next u
  retired : m'.retiredList u = m.retiredList u
  held : g'.held u = g.held u
  chain : g.chain <:+ g'.chain
  absent : u ∉ g.chain → u ∉ g'.chain
  protects : ∀ x ∈ g.held u, ∀ t n, Protects m' t n x → Protects m t n x

section Keeps

variable {m m' : Memory ι ν} {g g' : Ghost ι ν} {t u cur : ι} {i pointersPerThread : Nat}
  {plist : List ν}

theorem keeps_refl (u : ι) (m : Memory ι ν) (g : Ghost ι ν) : Keeps u m g m g :=
  ⟨rfl, rfl, rfl, List.suffix_refl _, fun h => h, fun _ _ _ _ h => h⟩

theorem Visiting.keep (h : Visiting m g u cur i plist) (hk : Keeps u m g m' g')
    (hsub : m.retiredList u ⊆ g.held u) : Visiting m' g' u cur i plist := by
  obtain ⟨pre, rest, hchain, hsee⟩ := h
  obtain ⟨new, hnew⟩ := hk.chain
  refine ⟨new ++ pre, rest, ?_, fun x hx v n hp => ?_⟩
  · rw [← hnew, hchain, List.append_assoc]
  · rw [hk.retired] at hx
    exact hsee x hx v n (hk.protects x (hsub hx) v n hp)

theorem Covered.keep {nodes : List ν} (h : Covered m nodes plist) (hk : Keeps u m g m' g')
    (hsub : nodes ⊆ g.held u) : Covered m' nodes plist :=
  fun x hx v n hp => h x hx v n (hk.protects x (hsub hx) v n hp)

variable [LinearOrder ν]

theorem ThreadFacts.keep {pc : Pc ι ν} (h : ThreadFacts pointersPerThread u m g pc)
    (hk : Keeps u m g m' g') : ThreadFacts pointersPerThread u m' g' pc := by
  have hretired : m.retiredList u ⊆ g.held u := fun x hx =>
    h.held.subset (List.mem_append_left _ hx)
  have hdetached : pc.detached ⊆ g.held u := fun x hx =>
    h.held.subset (List.mem_append_right _ hx)
  have hpc := h.pc
  have hchain : u ∈ g.chain → u ∈ g'.chain := fun hu => hk.chain.subset hu
  constructor
  · rw [hk.retired, hk.held]
    exact h.held
  · cases pc with
    | unregistered => exact hk.absent hpc
    | create pc =>
      cases pc with
      | readHead => exact hk.absent hpc
      | count curHead cur threads => exact ⟨hk.absent hpc.1, hk.next.trans hpc.2⟩
      | swapHead curHead => exact ⟨hk.absent hpc.1, hk.next.trans hpc.2⟩
      | addThreshold cur => exact hchain hpc
      | readNext cur => exact hchain hpc
    | idle => exact hchain hpc
    | readThreshold => exact hchain hpc
    | scan pc =>
      obtain ⟨hu, hscan⟩ := hpc
      refine ⟨hchain hu, ?_⟩
      cases pc with
      | readHead => trivial
      | readThreshold head => exact Visiting.keep hscan hk hretired
      | readSlot cur i plist => exact Visiting.keep hscan hk hretired
      | readNext cur plist => exact Visiting.keep hscan hk hretired
      | detach plist =>
        show Covered m' (m'.retiredList u) plist
        rw [hk.retired]
        exact Covered.keep hscan hk hretired
      | process plist node => exact ⟨hscan.1, Covered.keep hscan.2 hk hdetached⟩

end Keeps

end FibConcurrent.HazardPointer
