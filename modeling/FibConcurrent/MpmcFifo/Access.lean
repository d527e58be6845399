import FibConcurrent.MpmcFifo.Invariant

/-!
# MpmcFifo — one access of each operation

First the calls of the hazard pointers, which leave the chain alone, then what
clients, pushes and pops do to nodes and chain. Each lemma gives back the
invariant and what every other thread may rely on.
-/

namespace FibConcurrent.MpmcFifo

open FibConcurrent.Machine FibConcurrent.Data
open HazardPointer (Protects)

variable {ι ν α : Type*} {m : Memory ι ν α} {g : Ghost ι ν} {t u : ι}

/-! ## Owners -/

section Owners

variable [DecidableEq ν] {f : ν → Option ι} {a x : ν}

theorem of_update_none (h : Function.update f a none x = some t) : x ≠ a ∧ f x = some t := by
  have hx : x ≠ a := by
    rintro rfl
    rw [Function.update_self] at h
    cases h
  rw [Function.update_of_ne hx] at h
  exact ⟨hx, h⟩

theorem of_update_some (h : Function.update f a (some t) x = none) : x ≠ a ∧ f x = none := by
  have hx : x ≠ a := by
    rintro rfl
    rw [Function.update_self] at h
    cases h
  rw [Function.update_of_ne hx] at h
  exact ⟨hx, h⟩

end Owners

/-! ## Hazard pointers -/

section Hazard

variable {hz : HazardPointer.Memory ι ν} {gh : HazardPointer.Ghost ι ν}

/-- Nodes that are reclaimed were retired, so the fifo does not notice. -/
theorem Inv.of_hazard (hI : Inv m g) (hinv : HazardPointer.Inv hazardCount hz gh)
    (hfreed : hz.freed = m.hazard.freed)
    (hgced : ∀ x, hz.gced x = m.hazard.gced x ∨
      hz.gced x = m.hazard.gced x + 1 ∧ m.hazard.freed x = m.hazard.gced x + 1) :
    Inv { m with hazard := hz } { g with hazard := gh } := by
  -- a node that is live before and not retired, or live afterwards, is not concerned
  have hsame : ∀ x, Live m x → m.hazard.freed x = m.hazard.gced x →
      Live { m with hazard := hz } x ∧ hz.freed x = hz.gced x := by
    intro x hlive hx
    rcases hgced x with heq | ⟨-, heq⟩
    · refine ⟨?_, ?_⟩
      · show m.given x = hz.gced x + 1
        rw [heq]
        exact hlive
      · rw [hfreed, heq]
        exact hx
    · omega
  have hback : ∀ x, Live { m with hazard := hz } x → Live m x ∧ hz.gced x = m.hazard.gced x := by
    intro x hlive
    have hlive' : m.given x = hz.gced x + 1 := hlive
    rcases hgced x with heq | ⟨heq, hx⟩
    · rw [heq] at hlive'
      exact ⟨hlive', heq⟩
    · have hold : m.given x = m.hazard.gced x + 1 := hI.retired x hx
      omega
  refine { hI with
    given := fun x => ?_
    queued := fun x hx => ?_
    pushing := fun x v hx => ?_
    popping := fun x v hx => ?_
    retired := fun x hx => ?_
    linked := fun x hlive => ?_
    hazard := hinv }
  · show m.given x = hz.gced x ∨ m.given x = hz.gced x + 1
    rcases hgced x with heq | ⟨heq, hx⟩
    · rw [heq]
      exact hI.given x
    · have hold : m.given x = m.hazard.gced x + 1 := hI.retired x hx
      omega
  · obtain ⟨hlive, hx', hpush, hpop⟩ := hI.queued x hx
    obtain ⟨hl, hf⟩ := hsame x hlive hx'
    exact ⟨hl, hf, hpush, hpop⟩
  · obtain ⟨hlive, hx', hpop⟩ := hI.pushing x v hx
    obtain ⟨hl, hf⟩ := hsame x hlive hx'
    exact ⟨hl, hf, hpop⟩
  · obtain ⟨hlive, hx'⟩ := hI.popping x v hx
    exact hsame x hlive hx'
  · have hx : hz.freed x = hz.gced x + 1 := hx
    rw [hfreed] at hx
    rcases hgced x with heq | ⟨heq, hx'⟩
    · rw [heq] at hx
      show m.given x = hz.gced x + 1
      rw [heq]
      exact hI.retired x hx
    · omega
  · exact hI.linked x (hback x hlive).1

theorem keeps_of_hazard (hk : HazardPointer.Keeps u m.hazard g.hazard hz gh)
    (hslots : hz.hazardPointers u = m.hazard.hazardPointers u)
    (hchecked : hz.checked u = m.hazard.checked u)
    (hgced : ∀ n x, Protects m.hazard u n x → hz.gced x = m.hazard.gced x) :
    Keeps u m g { m with hazard := hz } { g with hazard := gh } := by
  refine ⟨hk, hslots, hchecked, fun n x hg => ?_, fun x hx => ⟨hx, rfl⟩, fun x hx => hx,
    fun a b => Iff.rfl, fun h hw => hw.2, fun h hw hhead => ⟨hhead, fun p hb => ⟨hb, rfl⟩⟩⟩
  show m.given x = hz.gced x + 1
  rw [hgced n x hg.1]
  exact hg.2

variable [DecidableEq ι]

/-- A slot is filled, cleared or marked: what the others keep. -/
theorem keeps_of_slot (hu : u ≠ t) {f : Nat → Option ν} {c : Nat → Bool}
    (hk : HazardPointer.Keeps u m.hazard g.hazard { m.hazard with
      hazardPointers := Function.update m.hazard.hazardPointers t f
      checked := Function.update m.hazard.checked t c } g.hazard) :
    Keeps u m g { m with hazard := { m.hazard with
      hazardPointers := Function.update m.hazard.hazardPointers t f
      checked := Function.update m.hazard.checked t c } } g :=
  keeps_of_hazard hk (Function.update_of_ne hu ..) (Function.update_of_ne hu ..) fun _ _ _ => rfl

/-- `hazard_pointer_using`. -/
theorem use_spec (hI : Inv m g) (ht : t ∈ g.hazard.chain) {n : Nat} (hn : n < hazardCount)
    (x : ν) :
    Inv { m with hazard := HazardPointer.usingSlot t m.hazard x n } g ∧
      ∀ u, u ≠ t → Keeps u m g { m with hazard := HazardPointer.usingSlot t m.hazard x n } g := by
  obtain ⟨hinv, hk⟩ := HazardPointer.usingSlot_spec (x := x) hI.hazard ht hn
  exact ⟨hI.of_hazard hinv rfl fun _ => .inl rfl, fun u hu => keeps_of_slot hu (hk u)⟩

/-- `hazard_pointer_done_using`. -/
theorem done_spec (hI : Inv m g) (n : Nat) :
    Inv { m with hazard := HazardPointer.doneUsing t m.hazard n } g ∧
      ∀ u, u ≠ t → Keeps u m g { m with hazard := HazardPointer.doneUsing t m.hazard n } g := by
  obtain ⟨hinv, hk⟩ := HazardPointer.doneUsing_spec (t := t) (n := n) hI.hazard
  exact ⟨hI.of_hazard hinv rfl fun _ => .inl rfl, fun u hu => keeps_of_slot hu (hk u)⟩

/-- A node found in the chain after its slot was filled. -/
theorem check_spec (hI : Inv m g) {n : Nat} {x : ν} (hs : m.hazard.hazardPointers t n = some x)
    (hx : x ∈ g.nodes) :
    Inv { m with hazard := HazardPointer.markChecked t m.hazard n } g ∧
      Guards { m with hazard := HazardPointer.markChecked t m.hazard n } t n x ∧
      ∀ u, u ≠ t → Keeps u m g { m with hazard := HazardPointer.markChecked t m.hazard n } g := by
  obtain ⟨hlive, hfreed, -, -⟩ := hI.queued x hx
  obtain ⟨hinv, hk⟩ := HazardPointer.markChecked_spec hI.hazard hs hfreed
  refine ⟨hI.of_hazard hinv rfl fun _ => .inl rfl, ⟨⟨?_, hs⟩, hlive⟩, fun u hu =>
    keeps_of_hazard (hk u) rfl (Function.update_of_ne hu ..) fun _ _ _ => rfl⟩
  show Function.update m.hazard.checked t (Function.update (m.hazard.checked t) n true) t n = true
  rw [Function.update_self, Function.update_self]

/-- The first slot stays as it is while the second one changes. -/
theorem guards_use {x y : ν} (hg : Guards m t 0 x) :
    Guards { m with hazard := HazardPointer.usingSlot t m.hazard y 1 } t 0 x := by
  obtain ⟨⟨hc, hs⟩, hlive⟩ := hg
  refine ⟨⟨?_, ?_⟩, hlive⟩
  · show Function.update m.hazard.checked t (Function.update (m.hazard.checked t) 1 false) t 0 =
      true
    rw [Function.update_self, Function.update_of_ne (by omega)]
    exact hc
  · show Function.update m.hazard.hazardPointers t
      (Function.update (m.hazard.hazardPointers t) 1 (some y)) t 0 = some x
    rw [Function.update_self, Function.update_of_ne (by omega)]
    exact hs

theorem guards_check {x : ν} (hg : Guards m t 0 x) :
    Guards { m with hazard := HazardPointer.markChecked t m.hazard 1 } t 0 x := by
  obtain ⟨⟨hc, hs⟩, hlive⟩ := hg
  refine ⟨⟨?_, hs⟩, hlive⟩
  show Function.update m.hazard.checked t (Function.update (m.hazard.checked t) 1 true) t 0 = true
  rw [Function.update_self, Function.update_of_ne (by omega)]
  exact hc

variable [LinearOrder ν]

/-- A step inside a call of the hazard pointers. -/
theorem hazard_step {c : HazardPointer.Choice ν} {pc pc' : HazardPointer.Pc ι ν} (hI : Inv m g)
    (hT : HazardPointer.ThreadFacts hazardCount t m.hazard g.hazard pc)
    (hpc : pc = .idle → c = .scan)
    (he : HazardPointer.exec hazardCount t c m.hazard pc = some (hz, pc')) :
    ∃ gh, Inv { m with hazard := hz } { g with hazard := gh } ∧
      HazardPointer.ThreadFacts hazardCount t hz gh pc' ∧
      ∀ u, u ≠ t → Keeps u m g { m with hazard := hz } { g with hazard := gh } := by
  obtain ⟨gh, hinv, hT', hk, heffect⟩ := HazardPointer.exec_internal hI.hazard hT hpc he
  refine ⟨gh, hI.of_hazard hinv heffect.freed fun x => ?_, hT', fun u hu =>
    keeps_of_hazard (hk u hu) (by rw [heffect.hazardPointers]) (by rw [heffect.checked])
      fun n x hp => ?_⟩
  · rcases heffect.gced x with heq | ⟨heq, hx, -⟩
    · exact .inl heq
    · exact .inr ⟨heq, hx⟩
  · rcases heffect.gced x with heq | ⟨-, -, hfree⟩
    · exact heq
    · exact absurd hp (hfree u n)

/-- The thread hands the node that it has popped to its list of retired nodes. -/
def Ghost.retire (g : Ghost ι ν) (t : ι) (h : ν) : Ghost ι ν :=
  { g with
    popping := Function.update g.popping h none
    hazard := { g.hazard with
      held := Function.update g.hazard.held t (h :: g.hazard.held t) } }

theorem Inv.retire {h : ν} (hI : Inv m g) (hpop : g.popping h = some t) :
    Inv { m with hazard := HazardPointer.retire t m.hazard h } (g.retire t h) := by
  obtain ⟨hlive, hfreed⟩ := hI.popping h t hpop
  have hother : ∀ {x}, x ≠ h →
      Function.update m.hazard.freed h (m.hazard.freed h + 1) x = m.hazard.freed x :=
    fun hx => Function.update_of_ne hx ..
  -- a node that nobody has popped is another one
  have hne : ∀ {x}, g.popping x = none → x ≠ h := by
    rintro x hnone rfl
    rw [hpop] at hnone
    cases hnone
  refine { hI with
    queued := ?queued
    pushing := ?pushing
    popping := ?popping
    retired := ?retired
    hazard := ?hazard }
  case queued =>
    intro x hx
    obtain ⟨hl, hf, hpush, hnone⟩ := hI.queued x hx
    exact ⟨hl, (hother (hne hnone)).trans hf, hpush,
      (Function.update_of_ne (hne hnone) ..).trans hnone⟩
  case pushing =>
    intro x v hx
    obtain ⟨hl, hf, hnone⟩ := hI.pushing x v hx
    exact ⟨hl, (hother (hne hnone)).trans hf, (Function.update_of_ne (hne hnone) ..).trans hnone⟩
  case popping =>
    intro x v hx
    obtain ⟨hxh, hx⟩ := of_update_none hx
    obtain ⟨hl, hf⟩ := hI.popping x v hx
    exact ⟨hl, (hother hxh).trans hf⟩
  case retired =>
    intro x hx
    by_cases hxh : x = h
    · rw [hxh]
      exact hlive
    · exact hI.retired x ((hother hxh).symm.trans hx)
  case hazard => exact (HazardPointer.retire_spec hI.hazard hfreed).1

theorem keeps_retire {h : ν} (hI : Inv m g) (hpop : g.popping h = some t) (hu : u ≠ t) :
    Keeps u m g { m with hazard := HazardPointer.retire t m.hazard h } (g.retire t h) := by
  constructor
  case hazard => exact (HazardPointer.retire_spec hI.hazard (hI.popping h t hpop).2).2 u hu
  case slots => rfl
  case checked => rfl
  case live => exact fun n x hg => hg.2
  case pushing => exact fun x hx => ⟨hx, rfl⟩
  case popping =>
    intro x hx
    apply (Function.update_of_ne ?_ ..).trans hx
    rintro rfl
    exact hu (Option.some.inj (hx.symm.trans hpop))
  case pend => exact fun a b => Iff.rfl
  case left => exact fun x hw => hw.2
  case front => exact fun x hw hhead => ⟨hhead, fun p hb => ⟨hb, rfl⟩⟩

end Hazard

/-! ## Nodes and the chain -/

section Chain

variable [LinearOrder ν] {n h p x : ν}

/-! ### A client passes a node of its own to a push -/

def Ghost.pass (g : Ghost ι ν) (t : ι) (n : ν) : Ghost ι ν :=
  { g with pushing := Function.update g.pushing n (some t) }

omit [LinearOrder ν] in
/-- A live node is not in the hands of a client. -/
theorem Live.ne (hx : Live m x) (hn : m.given n = m.hazard.gced n) : x ≠ n := by
  rintro rfl
  have hx : m.given x = m.hazard.gced x + 1 := hx
  omega

theorem Live.pass (hx : Live m x) (hn : m.given n = m.hazard.gced n) (v : α) :
    Live (give m n v) x :=
  (Function.update_of_ne (hx.ne hn) ..).trans hx

theorem live_pass_self (hn : m.given n = m.hazard.gced n) (v : α) : Live (give m n v) n := by
  show Function.update m.given n (m.given n + 1) n = m.hazard.gced n + 1
  rw [Function.update_self, hn]

theorem Inv.pass (hI : Inv m g) (hn : m.given n = m.hazard.gced n) (t : ι) (v : α) :
    Inv (give m n v) (g.pass t n) := by
  refine { hI with
    values := ?values
    given := ?given
    queued := ?queued
    pushing := ?pushing
    popping := ?popping
    retired := ?retired
    linked := ?linked }
  case values =>
    show m.pushed = m.popped ++ g.nodes.tail.map (Function.update m.value n v)
    rw [hI.values]
    congr 1
    apply List.map_congr_left
    intro x hx
    obtain ⟨hl, -⟩ := hI.queued x (List.mem_of_mem_tail hx)
    exact (Function.update_of_ne (hl.ne hn) ..).symm
  case given =>
    intro x
    by_cases hxn : x = n
    · rw [hxn]
      exact .inr (live_pass_self hn v)
    · rcases hI.given x with hx | hx
      · exact .inl ((Function.update_of_ne hxn ..).trans hx)
      · exact .inr (hx.pass hn v)
  case queued =>
    intro x hx
    obtain ⟨hl, hf, hpush, hpop⟩ := hI.queued x hx
    exact ⟨hl.pass hn v, hf, (Function.update_of_ne (hl.ne hn) ..).trans hpush, hpop⟩
  case pushing =>
    intro x w hx
    by_cases hxn : x = n
    · subst hxn
      -- the node is neither retired nor popped: such a node would be live
      refine ⟨live_pass_self hn v, ?_, ?_⟩
      · rcases hI.hazard.passed x with ⟨hf, -⟩ | ⟨hf, -⟩
        · exact hf
        · exact absurd rfl ((hI.retired x hf).ne hn)
      · cases hpop : g.popping x with
        | none => exact hpop
        | some w => exact absurd rfl ((hI.popping x w hpop).1.ne hn)
    · have hx : g.pushing x = some w := (Function.update_of_ne hxn ..).symm.trans hx
      obtain ⟨hl, hf, hpop⟩ := hI.pushing x w hx
      exact ⟨hl.pass hn v, hf, hpop⟩
  case popping =>
    intro x w hx
    obtain ⟨hl, hf⟩ := hI.popping x w hx
    exact ⟨hl.pass hn v, hf⟩
  case retired => exact fun x hx => (hI.retired x hx).pass hn v
  case linked =>
    intro x hl hout hpush
    obtain ⟨hxn, hpush⟩ := of_update_some hpush
    exact hI.linked x ((Function.update_of_ne hxn ..).symm.trans hl) hout hpush

theorem keeps_pass (hI : Inv m g) (hn : m.given n = m.hazard.gced n) (t : ι) (v : α) :
    Keeps u m g (give m n v) (g.pass t n) := by
  constructor
  case hazard => exact HazardPointer.keeps_refl ..
  case slots => rfl
  case checked => rfl
  case live => exact fun k x hg => hg.2.pass hn v
  case pushing =>
    intro x hx
    exact ⟨(Function.update_of_ne ((hI.pushing x u hx).1.ne hn) ..).trans hx, rfl⟩
  case popping => exact fun x hx => hx
  case pend => exact fun a b => Iff.rfl
  case left =>
    intro x hw
    rcases hw.2 with hhead | ⟨hout, hpush⟩
    · exact .inl hhead
    · exact .inr ⟨hout, (Function.update_of_ne (hw.1.2.ne hn) ..).trans hpush⟩
  case front =>
    intro x hw hhead
    refine ⟨hhead, fun q hb => ⟨hb, ?_⟩⟩
    obtain ⟨hl, -⟩ := hI.queued q (List.mem_of_mem_tail hb.mem_tail)
    exact Function.update_of_ne (hl.ne hn) ..

/-! ### The link of a node that is not in the chain yet is cleared -/

theorem Inv.clear (hI : Inv m g) (hn : g.pushing n = some t) :
    Inv { m with prev := Function.update m.prev n none } g := by
  refine { hI with segs := ?segs, linked := ?linked }
  case segs => exact hI.segs.update_next (hI.not_mem_of_pushing hn)
  case linked =>
    intro x hl hx hpush
    have hxn : x ≠ n := by
      rintro rfl
      rw [hn] at hpush
      cases hpush
    show Function.update m.prev n none x ≠ none
    rw [Function.update_of_ne hxn]
    exact hI.linked x hl hx hpush

theorem keeps_clear (hI : Inv m g) (hn : g.pushing n = some t) (hu : u ≠ t) :
    Keeps u m g { m with prev := Function.update m.prev n none } g := by
  constructor
  case hazard => exact HazardPointer.keeps_refl ..
  case slots => rfl
  case checked => rfl
  case live => exact fun k x hg => hg.2
  case pushing =>
    intro x hx
    refine ⟨hx, Function.update_of_ne ?_ ..⟩
    rintro rfl
    exact hu (Option.some.inj (hx.symm.trans hn))
  case popping => exact fun x hx => hx
  case pend => exact fun a b => Iff.rfl
  case left => exact fun x hw => hw.2
  case front =>
    intro x hw hhead
    refine ⟨hhead, fun q hb => ⟨⟨?_, hb.2⟩, rfl⟩⟩
    obtain ⟨hlink, rest, hrest⟩ := hb
    have hmem : x ∈ g.nodes := by rw [hrest]; exact List.mem_cons_self
    exact (Function.update_of_ne (ne_of_mem_of_not_mem hmem (hI.not_mem_of_pushing hn)) ..).trans
      hlink

/-! ### The CAS of a push enqueues its node -/

/-- The thread owes the link to its node. -/
def Ghost.enqueue (g : Ghost ι ν) (t : ι) (tail n : ν) : Ghost ι ν :=
  { g with
    nodes := g.nodes ++ [n]
    pend := Function.update g.pend tail (some (t, n))
    pushing := Function.update g.pushing n none }

theorem pend_enqueue {a b : ν} (hab : (g.enqueue t h n).pend a = some (u, b)) :
    (a = h ∧ u = t ∧ b = n) ∨ g.pend a = some (u, b) := by
  have hab : Function.update g.pend h (some (t, n)) a = some (u, b) := hab
  by_cases ha : a = h
  · subst ha
    rw [Function.update_self] at hab
    cases hab
    exact .inl ⟨rfl, rfl, rfl⟩
  · rw [Function.update_of_ne ha] at hab
    exact .inr hab

theorem Inv.enqueue (hI : Inv m g) (hn : Prepared m g t n) :
    Inv { m with tail := n, pushed := m.pushed ++ [m.value n] } (g.enqueue t m.tail n) := by
  obtain ⟨hpush, hnull⟩ := hn
  obtain ⟨hlive, hfreed, hpop⟩ := hI.pushing n t hpush
  have hout : n ∉ g.nodes := hI.not_mem_of_pushing hpush
  obtain ⟨rest, hrest⟩ := hI.nodes_eq
  refine { hI with
    head := ?head
    last := ?last
    nodup := ?nodup
    segs := ?segs
    values := ?values
    pend_mem := ?pend_mem
    queued := ?queued
    pushing := ?pushing
    linked := ?linked }
  case head =>
    show (g.nodes ++ [n]).head? = some m.head
    rw [hrest]
    rfl
  case last => exact List.getLast?_concat
  case nodup => exact List.Nodup.append hI.nodup (List.nodup_singleton n) (by simpa using hout)
  case segs =>
    obtain ⟨front, hfront⟩ := hI.nodes_eq_append
    have hs := hI.segs
    have hfree : g.pend n = none := by
      by_contra hne
      exact hout (hI.pend_mem n hne)
    have hnodes : g.nodes ++ [n] = front ++ [m.tail, n] := by simp [hfront]
    rw [hfront] at hs
    show Segments m.prev (Function.update g.pend m.tail (some (t, n))) (g.nodes ++ [n])
    rw [hnodes]
    exact hs.enqueue (hfront ▸ hI.nodup) (hfront ▸ hout) hnull hfree
  case values =>
    show m.pushed ++ [m.value n] = m.popped ++ (g.nodes ++ [n]).tail.map m.value
    rw [hI.values, hrest]
    simp
  case pend_mem =>
    intro a ha
    apply List.mem_append_left
    obtain ⟨⟨v, b⟩, hab⟩ := Option.ne_none_iff_exists'.mp ha
    rcases pend_enqueue hab with ⟨rfl, -, -⟩ | hab
    · exact hI.tail_mem
    · exact hI.pend_mem a (by rw [hab]; simp)
  case queued =>
    intro x hx
    rcases List.mem_append.mp hx with hx | hx
    · obtain ⟨hl, hf, hpx, hpop⟩ := hI.queued x hx
      have hxn : x ≠ n := ne_of_mem_of_not_mem hx hout
      exact ⟨hl, hf, (Function.update_of_ne hxn ..).trans hpx, hpop⟩
    · obtain rfl := List.mem_singleton.mp hx
      exact ⟨hlive, hfreed, Function.update_self .., hpop⟩
  case pushing => exact fun x w hx => hI.pushing x w (of_update_none hx).2
  case linked =>
    intro x hl hx hpx
    have hx : x ∉ g.nodes ++ [n] := hx
    have hxn : x ≠ n := fun heq => hx (by simp [heq])
    have hpx : g.pushing x = none := (Function.update_of_ne hxn ..).symm.trans hpx
    exact hI.linked x hl (fun hmem => hx (List.mem_append_left _ hmem)) hpx

theorem keeps_enqueue (hI : Inv m g) (hn : Prepared m g t n) (hu : u ≠ t) :
    Keeps u m g { m with tail := n, pushed := m.pushed ++ [m.value n] }
      (g.enqueue t m.tail n) := by
  obtain ⟨hpush, -⟩ := hn
  constructor
  case hazard => exact HazardPointer.keeps_refl ..
  case slots => rfl
  case checked => rfl
  case live => exact fun k x hg => hg.2
  case pushing =>
    intro x hx
    refine ⟨(Function.update_of_ne ?_ ..).trans hx, rfl⟩
    rintro rfl
    exact hu (Option.some.inj (hx.symm.trans hpush))
  case popping => exact fun x hx => hx
  case pend =>
    intro a b
    constructor
    · intro hab
      rcases pend_enqueue hab with ⟨-, heq, -⟩ | hab
      · exact absurd heq hu
      · exact hab
    · intro hab
      -- nothing is owed at the tail yet
      have hlast : g.pend m.tail = none := by
        obtain ⟨front, hfront⟩ := hI.nodes_eq_append
        have hs := hI.segs
        rw [hfront] at hs
        exact hs.last.2
      apply (Function.update_of_ne ?_ ..).trans hab
      rintro rfl
      rw [hlast] at hab
      cases hab
  case left =>
    intro x hw
    rcases hw.2 with hhead | ⟨hout, hnone⟩
    · exact .inl hhead
    · have hxn : x ≠ n := by
        rintro rfl
        rw [hpush] at hnone
        cases hnone
      refine .inr ⟨fun hmem => ?_, (Function.update_of_ne hxn ..).trans hnone⟩
      rcases List.mem_append.mp hmem with hmem | hmem
      · exact hout hmem
      · exact hxn (List.mem_singleton.mp hmem)
  case front =>
    intro x hw hhead
    refine ⟨hhead, fun q hb => ⟨?_, rfl⟩⟩
    obtain ⟨hlink, rest, hrest⟩ := hb
    refine ⟨hlink, rest ++ [n], ?_⟩
    show g.nodes ++ [n] = x :: q :: (rest ++ [n])
    rw [hrest]
    simp

/-! ### The owed link is written -/

def Ghost.link (g : Ghost ι ν) (h : ν) : Ghost ι ν :=
  { g with pend := Function.update g.pend h none }

theorem pend_link {a b : ν} (hab : (g.link h).pend a = some (u, b)) :
    a ≠ h ∧ g.pend a = some (u, b) := by
  have hab : Function.update g.pend h none a = some (u, b) := hab
  have ha : a ≠ h := by
    rintro rfl
    rw [Function.update_self] at hab
    cases hab
  rw [Function.update_of_ne ha] at hab
  exact ⟨ha, hab⟩

theorem Inv.link (hI : Inv m g) (hp : g.pend h = some (t, n)) :
    Inv { m with prev := Function.update m.prev h (some n) } (g.link h) := by
  have hmem : h ∈ g.nodes := hI.pend_mem h (by rw [hp]; simp)
  refine { hI with segs := ?segs, pend_mem := ?pend_mem, linked := ?linked }
  case segs => exact hI.segs.link hI.nodup hp
  case pend_mem =>
    intro a ha
    obtain ⟨⟨v, b⟩, hab⟩ := Option.ne_none_iff_exists'.mp ha
    exact hI.pend_mem a (by rw [(pend_link hab).2]; simp)
  case linked =>
    intro x hl hx hpx
    have hxh : x ≠ h := fun heq => hx (heq ▸ hmem)
    show Function.update m.prev h (some n) x ≠ none
    rw [Function.update_of_ne hxh]
    exact hI.linked x hl hx hpx

theorem keeps_link (hI : Inv m g) (hp : g.pend h = some (t, n)) (hu : u ≠ t) :
    Keeps u m g { m with prev := Function.update m.prev h (some n) } (g.link h) := by
  have hmem : h ∈ g.nodes := hI.pend_mem h (by rw [hp]; simp)
  constructor
  case hazard => exact HazardPointer.keeps_refl ..
  case slots => rfl
  case checked => rfl
  case live => exact fun k x hg => hg.2
  case pushing =>
    intro x hx
    refine ⟨hx, Function.update_of_ne ?_ ..⟩
    rintro rfl
    exact hI.not_mem_of_pushing hx hmem
  case popping => exact fun x hx => hx
  case pend =>
    intro a b
    refine ⟨fun hab => (pend_link hab).2, fun hab => (Function.update_of_ne ?_ ..).trans hab⟩
    rintro rfl
    rw [hp] at hab
    exact hu (Prod.mk.inj (Option.some.inj hab)).1.symm
  case left => exact fun x hw => hw.2
  case front =>
    intro x hw hhead
    refine ⟨hhead, fun q hb => ⟨⟨?_, hb.2⟩, rfl⟩⟩
    -- the link of the head is written, so it is not the owed one
    obtain ⟨hnull, -⟩ := hI.segs.null_of_pend hmem hp
    apply (Function.update_of_ne ?_ ..).trans hb.1
    rintro rfl
    have hlink := hb.1
    rw [hnull] at hlink
    cases hlink

/-! ### The CAS of a pop takes the head out -/

/-- The node behind the head becomes the dummy. -/
def Ghost.dequeue (g : Ghost ι ν) (t : ι) (head : ν) : Ghost ι ν :=
  { g with
    nodes := g.nodes.tail
    popping := Function.update g.popping head (some t) }

theorem Inv.dequeue (hI : Inv m g) (hb : Behind m g m.head p) (t : ι) :
    Inv { m with head := p, popped := m.popped ++ [m.value p] } (g.dequeue t m.head) := by
  obtain ⟨hlive, hfreed, hpushing, hnone⟩ := hI.queued m.head hI.head_mem
  have hout := hI.head_not_mem_tail
  obtain ⟨hlink, rest, hrest⟩ := hb
  have hs := hI.segs
  rw [hrest] at hs
  have hpopping : ∀ {x}, x ≠ m.head → Function.update g.popping m.head (some t) x = g.popping x :=
    fun hx => Function.update_of_ne hx ..
  refine { hI with
    head := ?head
    last := ?last
    nodup := ?nodup
    segs := ?segs
    values := ?values
    pend_mem := ?pend_mem
    queued := ?queued
    pushing := ?pushing
    popping := ?popping
    linked := ?linked }
  case head =>
    show g.nodes.tail.head? = some p
    rw [hrest]
    rfl
  case last =>
    show g.nodes.tail.getLast? = some m.tail
    have hlast := hI.last
    rw [hrest, List.getLast?_cons_cons] at hlast
    rw [hrest]
    exact hlast
  case nodup => exact hI.nodup.sublist (List.tail_sublist _)
  case segs =>
    show Segments m.prev g.pend g.nodes.tail
    rw [hrest]
    exact hs.tail
  case values =>
    show m.pushed = m.popped ++ [m.value p] ++ g.nodes.tail.tail.map m.value
    rw [hI.values, hrest]
    simp
  case pend_mem =>
    intro a ha
    -- the link of the head is written
    obtain ⟨hdone, -⟩ := hs.head_of_next hlink
    have hmem := hI.pend_mem a ha
    show a ∈ g.nodes.tail
    rw [hrest] at hmem ⊢
    rcases List.mem_cons.mp hmem with rfl | hmem
    · exact absurd hdone ha
    · exact hmem
  case queued =>
    intro x hx
    obtain ⟨hl, hf, hpx, hnx⟩ := hI.queued x (List.mem_of_mem_tail hx)
    exact ⟨hl, hf, hpx, (hpopping (ne_of_mem_of_not_mem hx hout)).trans hnx⟩
  case pushing =>
    intro x w hx
    obtain ⟨hl, hf, hnx⟩ := hI.pushing x w hx
    have hxh : x ≠ m.head := by
      rintro rfl
      cases hpushing.symm.trans hx
    exact ⟨hl, hf, (hpopping hxh).trans hnx⟩
  case popping =>
    intro x w hx
    by_cases hxh : x = m.head
    · rw [hxh]
      exact ⟨hlive, hfreed⟩
    · exact hI.popping x w ((hpopping hxh).symm.trans hx)
  case linked =>
    intro x hl hx hpx
    by_cases hxh : x = m.head
    · rw [hxh, hlink]
      simp
    · refine hI.linked x hl (fun hmem => hx ?_) hpx
      show x ∈ g.nodes.tail
      rw [hrest] at hmem ⊢
      exact (List.mem_cons.mp hmem).resolve_left hxh

theorem keeps_dequeue (hI : Inv m g) (hb : Behind m g m.head p) (t : ι) :
    Keeps u m g { m with head := p, popped := m.popped ++ [m.value p] } (g.dequeue t m.head) := by
  obtain ⟨-, -, hpushing, hnone⟩ := hI.queued m.head hI.head_mem
  constructor
  case hazard => exact HazardPointer.keeps_refl ..
  case slots => rfl
  case checked => rfl
  case live => exact fun k x hg => hg.2
  case pushing => exact fun x hx => ⟨hx, rfl⟩
  case popping =>
    intro x hx
    apply (Function.update_of_ne ?_ ..).trans hx
    rintro rfl
    rw [hnone] at hx
    cases hx
  case pend => exact fun a b => Iff.rfl
  case left =>
    intro x hw
    right
    rcases hw.2 with rfl | ⟨hx, hpx⟩
    · exact ⟨hI.head_not_mem_tail, hpushing⟩
    · exact ⟨fun hmem => hx (List.mem_of_mem_tail hmem), hpx⟩
  case front =>
    -- the new head has been in the chain all the time, and was not the head
    intro x hw hhead
    exfalso
    have hhead : p = x := hhead
    subst hhead
    rcases hw.2 with heq | ⟨hx, -⟩
    · exact hI.head_not_mem_tail (heq ▸ hb.mem_tail)
    · exact hx (List.mem_of_mem_tail hb.mem_tail)

end Chain

end FibConcurrent.MpmcFifo
