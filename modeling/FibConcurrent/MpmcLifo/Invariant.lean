import FibConcurrent.Data.Segments
import FibConcurrent.MpmcLifo.Model

/-!
# MpmcLifo — the counter discipline

A snapshot is current as long as the log has not grown past its stamp: then its
head is still the head and its `next` still the link of that head, because only
nodes outside the stack are written. A swap compares the counter, and with the
counter not having gone all the way round it succeeds on current snapshots only
(`Taken.current`).
-/

namespace FibConcurrent.MpmcLifo

open FibConcurrent.Machine FibConcurrent.Data

variable {ι ν : Type*} {w : Nat}

/-- Ghost: the stack from the head on, and the nodes inside an operation. -/
structure Ghost (ι ν : Type*) where
  nodes : List ν
  held : ν → Option ι

structure Inv [DecidableEq ν] (m : Lifo w ν) (g : Ghost ι ν) : Prop where
  counter : m.pair.counter = BitVec.ofNat w m.log.length
  head : m.pair.ptr = g.nodes.head?
  linked : Linked m.next g.nodes
  nodup : g.nodes.Nodup
  replay : Replays stackApply [] m.log g.nodes
  owned_out : ∀ n, m.owned n = true → n ∉ g.nodes ∧ g.held n = none
  held_out : ∀ n, g.held n ≠ none → n ∉ g.nodes

/-- `counter` was read when the log had length `stamp`. -/
structure Taken (m : Lifo w ν) (counter : BitVec w) (stamp : Nat) : Prop where
  counter : counter = BitVec.ofNat w stamp
  le : stamp ≤ m.log.length

def PushFacts (t : ι) (m : Lifo w ν) (g : Ghost ι ν) : PushPc w ν → Prop
  | .readCounter n => g.held n = some t
  | .readHead n c k => g.held n = some t ∧ Taken m c k
  | .writeNext n s k => g.held n = some t ∧ Taken m s.counter k ∧
      (k = m.log.length → s.ptr = m.pair.ptr)
  | .swap n s k => g.held n = some t ∧ Taken m s.counter k ∧
      (k = m.log.length → s.ptr = m.pair.ptr) ∧ m.next n = s.ptr

def PopFacts (m : Lifo w ν) : PopPc w ν → Prop
  | .readCounter => True
  | .readHead c k => Taken m c k
  | .readNext c h k => Taken m c k ∧ (k = m.log.length → m.pair.ptr = some h)
  | .swap c h x k => Taken m c k ∧ (k = m.log.length → m.pair.ptr = some h ∧ m.next h = x)

/-- What thread `t` may rely on at each program point. -/
def threadFacts (t : ι) (m : Lifo w ν) (g : Ghost ι ν) : Pc w ν → Prop
  | .idle => True
  | .push pc => PushFacts t m g pc
  | .pop pc => PopFacts m pc
  | .popRet (some n) => g.held n = some t
  | .popRet none => True

def lifoAssertion [DecidableEq ν] : Assertion ι (Lifo w ν) (Ghost ι ν) (Pc w ν) where
  shared := Inv
  thread := threadFacts

/-! ## What the accesses of others leave alone -/

/-- The log has grown, or the head and its link are as they were. -/
def KeepsTop (m m' : Lifo w ν) : Prop :=
  m.log.length < m'.log.length ∨
    m'.log = m.log ∧ m'.pair = m.pair ∧ ∀ n, m.pair.ptr = some n → m'.next n = m.next n

structure Keeps (t : ι) (m : Lifo w ν) (g : Ghost ι ν) (m' : Lifo w ν) (g' : Ghost ι ν) :
    Prop where
  held : ∀ n, g.held n = some t → g'.held n = some t ∧ m'.next n = m.next n
  top : KeepsTop m m'

section Keeps

variable {t : ι} {m m' : Lifo w ν} {g g' : Ghost ι ν} {c : BitVec w} {k : Nat}

theorem keeps_self (u : ι) (m : Lifo w ν) (g : Ghost ι ν) : Keeps u m g m g :=
  ⟨fun _ hn => ⟨hn, rfl⟩, .inr ⟨rfl, rfl, fun _ _ => rfl⟩⟩

theorem KeepsTop.length_le (hk : KeepsTop m m') : m.log.length ≤ m'.log.length := by
  rcases hk with h | ⟨h, -⟩
  · exact Nat.le_of_lt h
  · rw [h]

theorem Taken.keep (h : Taken m c k) (hk : KeepsTop m m') : Taken m' c k :=
  ⟨h.counter, h.le.trans hk.length_le⟩

/-- A snapshot that is still current is one whose log and head did not move. -/
theorem KeepsTop.current (hk : KeepsTop m m') (h : Taken m c k) (hc : k = m'.log.length) :
    k = m.log.length ∧ m'.pair = m.pair ∧ ∀ n, m.pair.ptr = some n → m'.next n = m.next n := by
  have hle := h.le
  rcases hk with hlt | ⟨hlog, hpair, hnext⟩
  · omega
  · rw [hlog] at hc
    exact ⟨hc, hpair, hnext⟩

theorem PushFacts.keep {pc : PushPc w ν} (h : PushFacts t m g pc) (hk : Keeps t m g m' g') :
    PushFacts t m' g' pc := by
  cases pc with
  | readCounter n => exact (hk.held n h).1
  | readHead n c k => exact ⟨(hk.held n h.1).1, h.2.keep hk.top⟩
  | writeNext n s k =>
    obtain ⟨hheld, htaken, hcur⟩ := h
    refine ⟨(hk.held n hheld).1, htaken.keep hk.top, fun hc => ?_⟩
    obtain ⟨hc, hpair, -⟩ := hk.top.current htaken hc
    rw [hpair, hcur hc]
  | swap n s k =>
    obtain ⟨hheld, htaken, hcur, hnext⟩ := h
    obtain ⟨hheld', hnext'⟩ := hk.held n hheld
    refine ⟨hheld', htaken.keep hk.top, fun hc => ?_, hnext'.trans hnext⟩
    obtain ⟨hc, hpair, -⟩ := hk.top.current htaken hc
    rw [hpair, hcur hc]

theorem PopFacts.keep {pc : PopPc w ν} (h : PopFacts m pc) (hk : KeepsTop m m') :
    PopFacts m' pc := by
  cases pc with
  | readCounter => trivial
  | readHead c k => exact Taken.keep h hk
  | readNext c n k =>
    refine ⟨h.1.keep hk, fun hc => ?_⟩
    obtain ⟨hc, hpair, -⟩ := hk.current h.1 hc
    rw [hpair, h.2 hc]
  | swap c n x k =>
    refine ⟨h.1.keep hk, fun hc => ?_⟩
    obtain ⟨hc, hpair, hnext⟩ := hk.current h.1 hc
    obtain ⟨hhead, hx⟩ := h.2 hc
    rw [hpair, hnext n hhead]
    exact ⟨hhead, hx⟩

theorem threadFacts_keep {pc : Pc w ν} (h : threadFacts t m g pc) (hk : Keeps t m g m' g') :
    threadFacts t m' g' pc := by
  cases pc with
  | idle => trivial
  | push pc => exact PushFacts.keep h hk
  | pop pc => exact PopFacts.keep h hk.top
  | popRet r =>
    cases r with
    | none => trivial
    | some n => exact (hk.held n h).1

end Keeps

/-! ## One access of an operation -/

section Step

variable [DecidableEq ν] {t : ι} {m : Lifo w ν} {g : Ghost ι ν}

/-- **A swap whose counter matches has a current snapshot.** -/
theorem Taken.current {c : BitVec w} {k : Nat} (h : Taken m c k) (hI : Inv m g)
    (hfresh : m.log.length < k + 2 ^ w) (hc : m.pair.counter = c) : k = m.log.length := by
  have heq : BitVec.ofNat w k = BitVec.ofNat w m.log.length := by
    rw [← h.counter, ← hc, hI.counter]
  exact eq_of_counter_eq heq h.le hfresh

theorem Inv.counter_succ (hI : Inv m g) (o : StackOp ν) :
    m.pair.counter + 1 = BitVec.ofNat w (m.log ++ [o]).length := by
  rw [hI.counter, List.length_append, List.length_singleton, BitVec.ofNat_add]
  rfl

/-- A store to the link of a node outside the stack. -/
theorem Inv.write {n : ν} {x : Option ν} (hI : Inv m g) (hn : n ∉ g.nodes) :
    Inv { m with next := Function.update m.next n x } g ∧
      KeepsTop m { m with next := Function.update m.next n x } := by
  constructor
  · exact { hI with linked := hI.linked.update_next hn }
  · refine .inr ⟨rfl, rfl, fun a ha => Function.update_of_ne ?_ ..⟩
    rintro rfl
    apply hn
    rw [hI.head] at ha
    exact List.mem_of_head? ha

theorem pushStep_spec {pc : PushPc w ν} (hI : Inv m g) (hp : PushFacts t m g pc)
    (hfresh : ∀ k, (Pc.push pc).swapStamp = some k → m.log.length < k + 2 ^ w) :
    ∃ g', Inv (pushStep m pc).1 g' ∧
      (∀ pc', (pushStep m pc).2 = some pc' → PushFacts t (pushStep m pc).1 g' pc') ∧
      ∀ u, u ≠ t → Keeps u m g (pushStep m pc).1 g' := by
  have hself : ∀ u, u ≠ t → Keeps u m g m g := fun u _ => keeps_self u m g
  cases pc with
  | readCounter n =>
    refine ⟨g, hI, ?_, hself⟩
    rintro _ ⟨rfl⟩
    exact ⟨hp, hI.counter, Nat.le_refl _⟩
  | readHead n c k =>
    refine ⟨g, hI, ?_, hself⟩
    rintro _ ⟨rfl⟩
    exact ⟨hp.1, hp.2, fun _ => rfl⟩
  | writeNext n s k =>
    obtain ⟨hheld, htaken, hcur⟩ := hp
    have hn : n ∉ g.nodes := hI.held_out n (by simp [hheld])
    obtain ⟨hI', htop⟩ := hI.write (x := s.ptr) hn
    refine ⟨g, hI', ?_, fun u hu => ⟨fun a ha => ⟨ha, Function.update_of_ne ?_ ..⟩, htop⟩⟩
    · rintro _ ⟨rfl⟩
      exact ⟨hheld, ⟨htaken.counter, htaken.le⟩, hcur, by simp [pushStep]⟩
    · rintro rfl
      exact hu (Option.some.inj (ha.symm.trans hheld))
  | swap n s k =>
    obtain ⟨hheld, htaken, hcur, hnext⟩ := hp
    have hn : n ∉ g.nodes := hI.held_out n (by simp [hheld])
    by_cases hs : m.pair = s
    · -- the swap succeeds: the snapshot is current and `n` becomes the head
      subst hs
      have hk := htaken.current hI (hfresh k rfl) rfl
      have hstep : pushStep m (.swap n m.pair k) = ({ m with
          pair := ⟨m.pair.counter + 1, some n⟩, log := m.log ++ [.push n] }, none) := by
        simp [pushStep]
      rw [hstep]
      refine ⟨⟨n :: g.nodes, Function.update g.held n none⟩, ?_, by simp, fun u hu => ⟨?_, ?_⟩⟩
      · refine ⟨hI.counter_succ _, rfl, ?_, List.nodup_cons.mpr ⟨hn, hI.nodup⟩,
          hI.replay.concat rfl, fun a ha => ?_, fun a ha => ?_⟩
        · exact linked_cons.mpr ⟨hnext.trans hI.head, hI.linked⟩
        · obtain ⟨hout, hfree⟩ := hI.owned_out a ha
          have hne : a ≠ n := by
            rintro rfl
            simp [hheld] at hfree
          exact ⟨by simp [hne, hout], by simp [hne, hfree]⟩
        · have hne : a ≠ n := by
            rintro rfl
            simp at ha
          have hheld' : g.held a ≠ none := by simpa [hne] using ha
          simp [hne, hI.held_out a hheld']
      · intro a ha
        have hne : a ≠ n := by
          rintro rfl
          exact hu (Option.some.inj (ha.symm.trans hheld))
        exact ⟨by simpa [hne] using ha, rfl⟩
      · exact .inl (by simp)
    · have hstep : pushStep m (.swap n s k) = (m, some (.readCounter n)) := by
        simp [pushStep, compareAndSwap2_of_ne hs]
      rw [hstep]
      refine ⟨g, hI, ?_, hself⟩
      rintro _ ⟨rfl⟩
      exact hheld

theorem popStep_spec {pc : PopPc w ν} (hI : Inv m g) (hp : PopFacts m pc)
    (hfresh : ∀ k, (Pc.pop pc).swapStamp = some k → m.log.length < k + 2 ^ w) :
    ∃ g', Inv (popStep m pc).1 g' ∧
      (∀ pc', (popStep m pc).2 = .inl pc' → PopFacts (popStep m pc).1 pc') ∧
      (∀ n, (popStep m pc).2 = .inr (some n) → g'.held n = some t) ∧
      ∀ u, u ≠ t → Keeps u m g (popStep m pc).1 g' := by
  have hself : ∀ u, u ≠ t → Keeps u m g m g := fun u _ => keeps_self u m g
  cases pc with
  | readCounter =>
    refine ⟨g, hI, ?_, fun n hn => by simp [popStep] at hn, hself⟩
    rintro _ ⟨rfl⟩
    exact ⟨hI.counter, Nat.le_refl _⟩
  | readHead c k =>
    cases hptr : m.pair.ptr with
    | none =>
      have hstep : popStep m (.readHead c k) = (m, .inr none) := by simp [popStep, hptr]
      rw [hstep]
      exact ⟨g, hI, by simp, by simp, hself⟩
    | some h =>
      have hstep : popStep m (.readHead c k) = (m, .inl (.readNext c h k)) := by
        simp [popStep, hptr]
      rw [hstep]
      refine ⟨g, hI, ?_, by simp, hself⟩
      rintro _ ⟨rfl⟩
      exact ⟨hp, fun _ => hptr⟩
  | readNext c h k =>
    refine ⟨g, hI, ?_, fun n hn => by simp [popStep] at hn, hself⟩
    rintro _ ⟨rfl⟩
    exact ⟨hp.1, fun hk => ⟨hp.2 hk, rfl⟩⟩
  | swap c h x k =>
    by_cases hs : m.pair = ⟨c, some h⟩
    · -- the swap succeeds: the snapshot is current and `x` is the rest of the stack
      have hc : m.pair.counter = c := by rw [hs]
      obtain ⟨hhead, hx⟩ := hp.2 (hp.1.current hI (hfresh k rfl) hc)
      have hstep : popStep m (.swap c h x k) = ({ m with
          pair := ⟨c + 1, x⟩, log := m.log ++ [.pop h] }, .inr (some h)) := by
        simp [popStep, hs]
      rw [hstep]
      obtain ⟨rest, hnodes⟩ : ∃ rest, g.nodes = h :: rest := by
        have := hI.head.symm.trans hhead
        exact ⟨g.nodes.tail, List.eq_cons_of_mem_head? this⟩
      have hlinked := hI.linked
      have hnodup := hI.nodup
      rw [hnodes] at hlinked hnodup
      obtain ⟨hnext, hlinked⟩ := linked_cons.mp hlinked
      obtain ⟨hout, hnodup⟩ := List.nodup_cons.mp hnodup
      refine ⟨⟨rest, Function.update g.held h (some t)⟩, ?_, by simp, ?_, fun u hu => ⟨?_, ?_⟩⟩
      · refine ⟨?_, hx.symm.trans hnext, hlinked, hnodup,
          hI.replay.concat (by simp [hnodes, stackApply]), fun a ha => ?_, fun a ha => ?_⟩
        · rw [← hc]
          exact hI.counter_succ _
        · obtain ⟨hin, hfree⟩ := hI.owned_out a ha
          rw [hnodes, List.mem_cons, not_or] at hin
          exact ⟨hin.2, by simp [hin.1, hfree]⟩
        · by_cases hah : a = h
          · exact hah ▸ hout
          · have hheld : g.held a ≠ none := by simpa [hah] using ha
            have hin := hI.held_out a hheld
            rw [hnodes, List.mem_cons, not_or] at hin
            exact hin.2
      · rintro n ⟨rfl⟩
        simp
      · intro a ha
        have hah : a ≠ h := by
          rintro rfl
          exact hI.held_out a (by simp [ha]) (by simp [hnodes])
        exact ⟨by simpa [hah] using ha, rfl⟩
      · exact .inl (by simp)
    · have hstep : popStep m (.swap c h x k) = (m, .inl .readCounter) := by
        simp [popStep, compareAndSwap2_of_ne hs]
      rw [hstep]
      refine ⟨g, hI, ?_, by simp, hself⟩
      rintro _ ⟨rfl⟩
      trivial

end Step

end FibConcurrent.MpmcLifo
