import FibConcurrent.HazardPointer.Access
import FibConcurrent.MpmcFifo.Model

/-!
# MpmcFifo — what the fifo and the hazard pointers guarantee together

A node is with its client, with a pusher (`pushing`), in the chain (`nodes`),
with the popper that took it out (`popping`), or retired. In all of these but
the first it is `Live`: passed to the fifo, and not reclaimed since.

A thread that has validated a node guards it (`Guards`): the node may be popped
and retired meanwhile, but it stays live, and so it is not the node of a later
push. That is what rules out a `head` that comes back (`WasHead`).
-/

namespace FibConcurrent.MpmcFifo

open FibConcurrent.Machine FibConcurrent.Data
open HazardPointer (Protects)

variable {ι ν α : Type*}

structure Ghost (ι ν : Type*) where
  nodes : List ν
  pend : ν → Option (ι × ν)
  pushing : ν → Option ι
  popping : ν → Option ι
  hazard : HazardPointer.Ghost ι ν

/-- Passed to the fifo more often than reclaimed. -/
def Live (m : Memory ι ν α) (x : ν) : Prop := m.given x = m.hazard.gced x + 1

structure Inv (m : Memory ι ν α) (g : Ghost ι ν) : Prop where
  head : g.nodes.head? = some m.head
  last : g.nodes.getLast? = some m.tail
  nodup : g.nodes.Nodup
  segs : Segments m.prev g.pend g.nodes
  values : m.pushed = m.popped ++ g.nodes.tail.map m.value
  pend_mem : ∀ a, g.pend a ≠ none → a ∈ g.nodes
  given : ∀ x, m.given x = m.hazard.gced x ∨ Live m x
  queued : ∀ x ∈ g.nodes, Live m x ∧ m.hazard.freed x = m.hazard.gced x ∧
    g.pushing x = none ∧ g.popping x = none
  pushing : ∀ x t, g.pushing x = some t → Live m x ∧ m.hazard.freed x = m.hazard.gced x ∧
    g.popping x = none
  popping : ∀ x t, g.popping x = some t → Live m x ∧ m.hazard.freed x = m.hazard.gced x
  retired : ∀ x, m.hazard.freed x = m.hazard.gced x + 1 → Live m x
  /-- A node that has left the chain keeps its link. -/
  linked : ∀ x, Live m x → x ∉ g.nodes → g.pushing x = none → m.prev x ≠ none
  hazard : HazardPointer.Inv hazardCount m.hazard g.hazard

/-! ## What a call knows at each of its program points -/

/-- Slot `n` of `t` keeps `x` from being reclaimed. -/
def Guards (m : Memory ι ν α) (t : ι) (n : Nat) (x : ν) : Prop :=
  Protects m.hazard t n x ∧ Live m x

/-- `h` is the head, or has left the chain and not come back. -/
def WasHead (m : Memory ι ν α) (g : Ghost ι ν) (t : ι) (h : ν) : Prop :=
  Guards m t 0 h ∧ (m.head = h ∨ h ∉ g.nodes ∧ g.pushing h = none)

/-- `p` is the node behind the first node `h`, and linked to it. -/
def Behind (m : Memory ι ν α) (g : Ghost ι ν) (h p : ν) : Prop :=
  m.prev h = some p ∧ ∃ rest, g.nodes = h :: p :: rest

/-- `t` pushes `n` and has cleared its link. -/
def Prepared (m : Memory ι ν α) (g : Ghost ι ν) (t : ι) (n : ν) : Prop :=
  g.pushing n = some t ∧ m.prev n = none

def PushFacts (t : ι) (m : Memory ι ν α) (g : Ghost ι ν) : PushPc ν → Prop
  | .clearPrev n => g.pushing n = some t
  | .readTail n => Prepared m g t n
  | .useTail n _ => Prepared m g t n
  | .checkTail n tail => Prepared m g t n ∧ m.hazard.hazardPointers t 0 = some tail
  | .writeNext n tail => Prepared m g t n ∧ Guards m t 0 tail
  | .swapTail n tail => Prepared m g t n ∧ Guards m t 0 tail
  | .linkPrev n tail => g.pend tail = some (t, n)
  | .doneUsing => True

def PopFacts (t : ι) (m : Memory ι ν α) (g : Ghost ι ν) : PopPc ι ν α → Prop
  | .checkHead h => m.hazard.hazardPointers t 0 = some h
  | .readPrev h => WasHead m g t h
  | .usePrev h p => WasHead m g t h ∧ (m.head = h → Behind m g h p)
  | .checkPrev h p => (WasHead m g t h ∧ (m.head = h → Behind m g h p)) ∧
      m.hazard.hazardPointers t 1 = some p
  | .readValue h p => (WasHead m g t h ∧ (m.head = h → Behind m g h p)) ∧ Guards m t 1 p
  | .swapHead h p ret => (WasHead m g t h ∧ (m.head = h → Behind m g h p)) ∧ Guards m t 1 p ∧
      (m.head = h → m.value p = ret)
  | .doneHead h _ => g.popping h = some t
  | .donePrev h _ => g.popping h = some t
  | .free h _ => g.popping h = some t
  | _ => True

/-- The call of the hazard pointers that the thread is in. -/
def Pc.hazardPc : Pc ι ν α → HazardPointer.Pc ι ν
  | .hazard pc => pc
  | .pop (.reclaim pc _) => pc
  | _ => .idle

def PcFacts (t : ι) (m : Memory ι ν α) (g : Ghost ι ν) : Pc ι ν α → Prop
  | .push pc => PushFacts t m g pc
  | .pop pc => PopFacts t m g pc
  | _ => True

/-- The only link a thread owes is the one its push is about to write. -/
def Owes (t : ι) (g : Ghost ι ν) (pc : Pc ι ν α) : Prop :=
  ∀ a b, g.pend a = some (t, b) → pc = .push (.linkPrev b a)

section Facts

variable [LinearOrder ν]

structure ThreadFacts (t : ι) (m : Memory ι ν α) (g : Ghost ι ν) (pc : Pc ι ν α) : Prop where
  hazard : HazardPointer.ThreadFacts hazardCount t m.hazard g.hazard pc.hazardPc
  owes : Owes t g pc
  pc : PcFacts t m g pc

def fifoAssertion : Assertion ι (Memory ι ν α) (Ghost ι ν) (Pc ι ν α) where
  shared := Inv
  thread := ThreadFacts

end Facts

/-! ## What the accesses of others leave alone -/

/-- What `u` may rely on. -/
structure Keeps (u : ι) (m : Memory ι ν α) (g : Ghost ι ν) (m' : Memory ι ν α)
    (g' : Ghost ι ν) : Prop where
  hazard : HazardPointer.Keeps u m.hazard g.hazard m'.hazard g'.hazard
  slots : m'.hazard.hazardPointers u = m.hazard.hazardPointers u
  checked : m'.hazard.checked u = m.hazard.checked u
  live : ∀ n x, Guards m u n x → Live m' x
  pushing : ∀ x, g.pushing x = some u → g'.pushing x = some u ∧ m'.prev x = m.prev x
  popping : ∀ x, g.popping x = some u → g'.popping x = some u
  pend : ∀ a b, g'.pend a = some (u, b) ↔ g.pend a = some (u, b)
  left : ∀ h, WasHead m g u h → m'.head = h ∨ h ∉ g'.nodes ∧ g'.pushing h = none
  front : ∀ h, WasHead m g u h → m'.head = h → m.head = h ∧
    ∀ p, Behind m g h p → Behind m' g' h p ∧ m'.value p = m.value p

section Keeps

variable {u t : ι} {m m' : Memory ι ν α} {g g' : Ghost ι ν} {h p : ν} {n : Nat}

theorem Guards.keep (hg : Guards m u n p) (hk : Keeps u m g m' g') : Guards m' u n p := by
  refine ⟨⟨?_, ?_⟩, hk.live n p hg⟩
  · rw [hk.checked]
    exact hg.1.1
  · rw [hk.slots]
    exact hg.1.2

theorem WasHead.keep (hw : WasHead m g u h) (hk : Keeps u m g m' g') : WasHead m' g' u h :=
  ⟨hw.1.keep hk, hk.left h hw⟩

theorem behind_keep (hw : WasHead m g u h) (hb : m.head = h → Behind m g h p)
    (hk : Keeps u m g m' g') (hhead : m'.head = h) : Behind m' g' h p := by
  obtain ⟨hold, hfront⟩ := hk.front h hw hhead
  exact (hfront p (hb hold)).1

theorem Prepared.keep {x : ν} (hp : Prepared m g u x) (hk : Keeps u m g m' g') :
    Prepared m' g' u x := by
  obtain ⟨hpushing, hprev⟩ := hk.pushing x hp.1
  exact ⟨hpushing, hprev.trans hp.2⟩

theorem PushFacts.keep {pc : PushPc ν} (hp : PushFacts u m g pc) (hk : Keeps u m g m' g') :
    PushFacts u m' g' pc := by
  cases pc with
  | clearPrev x => exact (hk.pushing x hp).1
  | readTail x => exact Prepared.keep hp hk
  | useTail x tail => exact Prepared.keep hp hk
  | checkTail x tail =>
    refine ⟨hp.1.keep hk, ?_⟩
    rw [hk.slots]
    exact hp.2
  | writeNext x tail => exact ⟨hp.1.keep hk, hp.2.keep hk⟩
  | swapTail x tail => exact ⟨hp.1.keep hk, hp.2.keep hk⟩
  | linkPrev x tail => exact (hk.pend tail x).mpr hp
  | doneUsing => trivial

theorem PopFacts.keep {pc : PopPc ι ν α} (hp : PopFacts u m g pc) (hk : Keeps u m g m' g') :
    PopFacts u m' g' pc := by
  cases pc with
  | checkHead x =>
    show m'.hazard.hazardPointers u 0 = some x
    rw [hk.slots]
    exact hp
  | readPrev x => exact WasHead.keep hp hk
  | usePrev x y => exact ⟨hp.1.keep hk, behind_keep hp.1 hp.2 hk⟩
  | checkPrev x y =>
    obtain ⟨⟨hw, hb⟩, hs⟩ := hp
    refine ⟨⟨hw.keep hk, behind_keep hw hb hk⟩, ?_⟩
    rw [hk.slots]
    exact hs
  | readValue x y =>
    obtain ⟨⟨hw, hb⟩, hg⟩ := hp
    exact ⟨⟨hw.keep hk, behind_keep hw hb hk⟩, hg.keep hk⟩
  | swapHead x y ret =>
    obtain ⟨⟨hw, hb⟩, hg, hret⟩ := hp
    refine ⟨⟨hw.keep hk, behind_keep hw hb hk⟩, hg.keep hk, fun hhead => ?_⟩
    obtain ⟨hold, hfront⟩ := hk.front x hw hhead
    exact (hfront y (hb hold)).2.trans (hret hold)
  | doneHead x ret => exact hk.popping x hp
  | donePrev x ret => exact hk.popping x hp
  | free x ret => exact hk.popping x hp
  | _ => trivial

variable [LinearOrder ν]

theorem ThreadFacts.keep {pc : Pc ι ν α} (hT : ThreadFacts u m g pc) (hk : Keeps u m g m' g') :
    ThreadFacts u m' g' pc := by
  refine ⟨hT.hazard.keep hk.hazard, fun a b hab => hT.owes a b ((hk.pend a b).mp hab), ?_⟩
  have hpc := hT.pc
  cases pc with
  | push pc => exact PushFacts.keep hpc hk
  | pop pc => exact PopFacts.keep hpc hk
  | _ => trivial

end Keeps

/-! ## The chain seen from its two ends -/

section Ends

variable {m : Memory ι ν α} {g : Ghost ι ν} {h : ν} {t : ι}

theorem Inv.nodes_eq (hI : Inv m g) : ∃ rest, g.nodes = m.head :: rest := by
  obtain ⟨rest, hrest⟩ := List.head?_eq_some_iff.mp hI.head
  exact ⟨rest, hrest⟩

theorem Inv.nodes_eq_append (hI : Inv m g) : ∃ front, g.nodes = front ++ [m.tail] := by
  obtain ⟨front, hfront⟩ := List.getLast?_eq_some_iff.mp hI.last
  exact ⟨front, hfront⟩

theorem Inv.head_mem (hI : Inv m g) : m.head ∈ g.nodes := List.mem_of_mem_head? hI.head

theorem Inv.tail_mem (hI : Inv m g) : m.tail ∈ g.nodes := List.mem_of_getLast? hI.last

/-- What has been popped was pushed first. -/
theorem Inv.popped_prefix (hI : Inv m g) : m.popped <+: m.pushed := by
  rw [hI.values]
  exact List.prefix_append ..

theorem Inv.head_not_mem_tail (hI : Inv m g) : m.head ∉ g.nodes.tail := by
  obtain ⟨rest, hrest⟩ := hI.nodes_eq
  have hnodup := hI.nodup
  rw [hrest] at hnodup ⊢
  exact (List.nodup_cons.mp hnodup).1

/-- A node that is being pushed is not in the chain yet. -/
theorem Inv.not_mem_of_pushing (hI : Inv m g) (hh : g.pushing h = some t) : h ∉ g.nodes := by
  intro hmem
  obtain ⟨-, -, hnone, -⟩ := hI.queued h hmem
  rw [hh] at hnone
  cases hnone

theorem Behind.mem_tail {p : ν} (hb : Behind m g h p) : p ∈ g.nodes.tail := by
  obtain ⟨-, rest, hrest⟩ := hb
  rw [hrest]
  exact List.mem_cons_self

/-- A written link of the head leads to the node behind it. -/
theorem Inv.behind_of_prev (hI : Inv m g) {p : ν} (hp : m.prev m.head = some p) :
    Behind m g m.head p := by
  obtain ⟨rest, hrest⟩ := hI.nodes_eq
  have hs := hI.segs
  rw [hrest] at hs
  obtain ⟨-, rest', rfl⟩ := hs.head_of_next hp
  exact ⟨hp, rest', hrest⟩

/-- A null link is the link of the head, and the fifo is empty or somebody owes
the link. -/
theorem Inv.empty_of_null (hI : Inv m g) (hw : WasHead m g t h) (hnull : m.prev h = none) :
    m.head = h ∧ (m.popped.length = m.pushed.length ∨ ∃ u b, g.pend h = some (u, b)) := by
  obtain ⟨⟨-, hlive⟩, rfl | ⟨hout, hpushing⟩⟩ := hw
  · refine ⟨rfl, ?_⟩
    obtain ⟨rest, hrest⟩ := hI.nodes_eq
    have hs := hI.segs
    rw [hrest] at hs
    rcases hs.head_of_null hnull with rfl | ⟨u, b, rest', hpend, -⟩
    · left
      have hvalues := hI.values
      rw [hrest] at hvalues
      rw [hvalues]
      simp
    · exact .inr ⟨u, b, hpend⟩
  · exact absurd hnull (hI.linked h hlive hout hpushing)

end Ends

end FibConcurrent.MpmcFifo
