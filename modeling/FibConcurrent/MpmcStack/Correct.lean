import FibConcurrent.MpmcStack.Access
import FibConcurrent.MpmcStack.Calls

/-!
# MpmcStack — every pushed node is in one chain

The accesses are put together into the steps of the threads and these into
runs. Chains are read off the memory by following `next` from where they start;
the places of the invariant say which nodes are found there.
-/

namespace FibConcurrent.MpmcStack

open FibConcurrent.Machine FibConcurrent.Data

variable {ι ν : Type*} [DecidableEq ν] {xchg : Bool}

section Step

variable {m m' : Memory ν} {g : Ghost ι ν} {t : ι}

omit [DecidableEq ν] in
/-- Nothing is in the hands of a thread that has not flushed. -/
theorem not_flushing (hbatch : ∀ n, n ∈ ([] : List ν) ↔ g n = .flushing t) (n : ν) :
    g n ≠ .flushing t :=
  fun h => List.not_mem_nil ((hbatch n).mpr h)

theorem pushStep_spec {pc : PushPc ν} (hI : Inv m g) (hT : ThreadFacts t m g (.push pc)) :
    ∃ g', Inv (pushStep m pc).1 g' ∧
      ThreadFacts t (pushStep m pc).1 g' ((pushStep m pc).2.elim .push (.pushRet pc.node)) ∧
      ∀ u, u ≠ t → Keeps u m g (pushStep m pc).1 g' := by
  obtain ⟨hbatch, hp⟩ := hT
  have hsame : ∀ u, u ≠ t → Keeps u m g m g := fun u _ => keeps_refl u m g
  cases pc with
  | readHead n tries => exact ⟨g, hI, ⟨hbatch, hp⟩, hsame⟩
  | writeNext n head tries =>
    have hn : g n = .pushing t := hp
    obtain ⟨hI', hk⟩ := write_spec (n := n) (v := head) hI (by simp [hn]) (by simp [hn])
    refine ⟨g, hI', ⟨hbatch, hn, Function.update_self ..⟩, fun u hu => hk u ?_ ?_⟩
    · simp [hn, hu.symm]
    · simp [hn]
  | swapHead n head tries =>
    obtain ⟨hn, hnext⟩ := hp
    by_cases hcas : m.head = head
    · subst hcas
      obtain ⟨hI', hk⟩ := swapPush_spec hI hn hnext
      simp only [pushStep, if_true]
      refine ⟨_, hI', ⟨fun x => ?_, ?_⟩, hk⟩
      · rw [relocate_eq_iff (by simp) fun y hy => by simp [List.mem_singleton.mp hy, hn]]
        exact hbatch x
      · intro hfalse
        cases hfalse
    · simp only [pushStep, if_neg hcas]
      cases retries tries with
      | some tries' => exact ⟨g, hI, ⟨hbatch, hn⟩, hsame⟩
      | none => exact ⟨g, hI, ⟨hbatch, fun _ => hn⟩, hsame⟩

omit [DecidableEq ν] in
/-- What a flush knows at the head of the loop of `mpmc_stack_reverse`. -/
theorem reverse_spec {rest batch : List ν} {fifo : Option ν}
    (hbatch : ∀ n, n ∈ batch ↔ g n = .flushing t) (hr : Reversing m rest fifo batch) :
    ThreadFacts t m g ((reverse rest.head? fifo batch).elim .flush .flushRet) := by
  cases rest with
  | nil => exact ⟨hbatch, hr.chain⟩
  | cons h rest => exact ⟨hbatch, rest, hr⟩

omit [DecidableEq ν] in
/-- What a flush knows when it has got its chain. -/
theorem flushed_spec {order : Order} {head : Option ν} {batch : List ν}
    (hbatch : ∀ n, n ∈ batch ↔ g n = .flushing t) (hc : Chain m.next head batch) :
    ThreadFacts t m g ((flushed order head batch).elim .flush .flushRet) := by
  cases order with
  | lifo => exact ⟨hbatch, hc⟩
  | fifo =>
    have hr : Reversing m batch none batch := ⟨[], rfl, hc.nodup, hc.linked, linked_nil, rfl⟩
    show ThreadFacts t m g ((reverse head none batch).elim .flush .flushRet)
    rw [hc.head]
    exact reverse_spec hbatch hr

theorem flushStep_spec {pc : FlushPc ν} (hI : Inv m g) (hT : ThreadFacts t m g (.flush pc)) :
    ∃ g', Inv (flushStep m pc).1 g' ∧
      ThreadFacts t (flushStep m pc).1 g' ((flushStep m pc).2.elim .flush .flushRet) ∧
      ∀ u, u ≠ t → Keeps u m g (flushStep m pc).1 g' := by
  obtain ⟨hbatch, hp⟩ := hT
  have hsame : ∀ u, u ≠ t → Keeps u m g m g := fun u _ => keeps_refl u m g
  cases pc with
  | exchange order =>
    obtain ⟨hI', hmem, hk⟩ := swapFlush_spec hI (not_flushing hbatch)
    exact ⟨_, hI', flushed_spec hmem hI.live, hk⟩
  | readHead order tries => exact ⟨g, hI, ⟨hbatch, trivial⟩, hsame⟩
  | swapHead order head tries =>
    by_cases hcas : m.head = head
    · subst hcas
      obtain ⟨hI', hmem, hk⟩ := swapFlush_spec hI (not_flushing hbatch)
      simp only [flushStep, if_true]
      exact ⟨_, hI', flushed_spec hmem hI.live, hk⟩
    · simp only [flushStep, if_neg hcas]
      cases retries tries with
      | some tries' => exact ⟨g, hI, ⟨hbatch, trivial⟩, hsame⟩
      | none => exact ⟨g, hI, ⟨hbatch, trivial⟩, hsame⟩
  | readNext head fifo batch =>
    obtain ⟨rest, hr⟩ := hp
    obtain ⟨-, -, -, hlinked, -⟩ := id hr
    exact ⟨g, hI, ⟨hbatch, rest, (linked_cons.mp hlinked).1, hr⟩, hsame⟩
  | writeNext head next fifo batch =>
    obtain ⟨rest, rfl, hr⟩ := hp
    have hhead : g head = .flushing t := (hbatch head).mp hr.head_mem
    obtain ⟨hI', hk⟩ := write_spec (n := head) (v := fifo) hI (by simp [hhead]) (by simp [hhead])
    refine ⟨g, hI', reverse_spec hbatch hr.step, fun u hu => hk u ?_ ?_⟩
    · simp [hhead]
    · simp [hhead, hu.symm]

/-- **Every step of every thread keeps the assertion.** -/
theorem exec_spec {c : Choice ν} {pc pc' : Pc ν} (hI : Inv m g) (hT : ThreadFacts t m g pc)
    (he : exec xchg t c m pc = some (m', pc')) :
    ∃ g', Inv m' g' ∧ ThreadFacts t m' g' pc' ∧ ∀ u, u ≠ t → Keeps u m g m' g' := by
  have hsame : ∀ u, u ≠ t → Keeps u m g m g := fun u _ => keeps_refl u m g
  cases pc with
  | idle =>
    have hnone : ∀ n, g n ≠ .flushing t := not_flushing hT.batch
    cases c <;> simp only [exec, Option.ite_none_right_eq_some, Option.some.injEq,
      Prod.mk.injEq, reduceCtorEq] at he
    case push n tries =>
      obtain ⟨hn, rfl, rfl⟩ := he
      obtain ⟨hI', hk⟩ := acquire_spec hI hn t
      refine ⟨_, hI', ⟨fun x => ?_, relocate_of_mem (by simp)⟩, fun u _ => hk u⟩
      rw [relocate_eq_iff (by simp) fun y _ => hnone y]
      exact hT.batch x
    case flush order tries =>
      obtain ⟨rfl, rfl⟩ := he
      refine ⟨g, hI, ?_, hsame⟩
      unfold flushStart
      split
      · exact ⟨hT.batch, trivial⟩
      · split <;> exact ⟨hT.batch, trivial⟩
    case take n =>
      obtain ⟨hn, rfl, rfl⟩ := he
      obtain ⟨g', hI', hk⟩ := take_spec hI hn
      refine ⟨g', hI', (ThreadFacts.keep hT (hk t)), fun u _ => hk u⟩
    case write n next =>
      obtain ⟨hn, rfl, rfl⟩ := he
      have hclient := hI.owned n hn
      obtain ⟨hI', hk⟩ :=
        write_spec (n := n) (v := next) hI (by simp [hclient]) (by simp [hclient])
      exact ⟨g, hI', ⟨hT.batch, trivial⟩, fun u _ => hk u (by simp [hclient]) (by simp [hclient])⟩
  | push pc =>
    obtain ⟨rfl, rfl⟩ := Prod.mk.inj (Option.some.inj he)
    exact pushStep_spec hI hT
  | pushRet n success =>
    simp only [exec] at he
    by_cases hs : success = true
    · rw [if_pos hs] at he
      obtain ⟨rfl, rfl⟩ := Prod.mk.inj (Option.some.inj he)
      exact ⟨g, hI, ⟨hT.batch, trivial⟩, hsame⟩
    · rw [if_neg hs] at he
      obtain ⟨rfl, rfl⟩ := Prod.mk.inj (Option.some.inj he)
      have hn := hT.pc (by simpa using hs)
      obtain ⟨hI', hk⟩ := release_spec hI hn
      refine ⟨_, hI', ⟨fun x => ?_, trivial⟩, hk⟩
      rw [relocate_eq_iff (by simp) fun y hy => by simp [List.mem_singleton.mp hy, hn]]
      exact hT.batch x
  | flush pc =>
    obtain ⟨rfl, rfl⟩ := Prod.mk.inj (Option.some.inj he)
    exact flushStep_spec hI hT
  | flushRet result =>
    cases result with
    | retry order =>
      obtain ⟨rfl, rfl⟩ := Prod.mk.inj (Option.some.inj he)
      exact ⟨g, hI, ⟨hT.batch, trivial⟩, hsame⟩
    | success order out batch =>
      obtain ⟨rfl, rfl⟩ := Prod.mk.inj (Option.some.inj he)
      have hmem : ∀ n, n ∈ order.arrange batch ↔ g n = .flushing t := by
        intro n
        rw [← hT.batch n]
        cases order with
        | lifo => rfl
        | fifo => exact List.mem_reverse
      obtain ⟨g', hI', hfree, hk⟩ := return_spec hI hT.pc hmem
      exact ⟨g', hI', ⟨fun n => by simp [Pc.batch, hfree n], trivial⟩, hk⟩

end Step

theorem stackAssertion_kept [DecidableEq ι] :
    (stackAssertion (ι := ι) (ν := ν)).Kept (stackProgram xchg) (fun _ _ _ _ => True) := by
  intro t c m pc m' pc' g hI hT _ he
  obtain ⟨g', hI', hT', hk⟩ := exec_spec hI hT he
  exact ⟨g', hI', hT', fun u hu k hk' => hk'.keep (hk u hu)⟩

omit [DecidableEq ν] in
theorem stackAssertion_init {s : Config ι (Memory ν) (Pc ν)} (h : Init s) :
    stackAssertion.Holds s := by
  obtain ⟨hhead, hchains, hsince, hpushes, htaken, hloc⟩ := h
  refine ⟨fun _ => .client, ⟨?_, ?_, fun _ _ => rfl, ?_, ?_, ?_, ?_, ?_⟩, fun t => ?_⟩
  · rw [hhead, hsince]
    exact chain_nil
  · simp [hsince]
  · simp [hchains]
  · simp [hchains]
  · simp
  · simp [hpushes, htaken]
  · simp [Place.inChain]
  · rw [hloc t]
    exact ⟨by simp [Pc.batch], trivial⟩

/-! ## The chains of a state -/

/-- The chains of a state: the live one, those that flushes return or have still
to reverse, those that `mpmc_stack_reverse` has built so far, and those that
clients hold. -/
inductive ChainId (ι : Type*) where
  | live
  | front (t : ι)
  | reversed (t : ι)
  | held (i : Nat)

/-- Where the chain starts. -/
def chainHead (s : Config ι (Memory ν) (Pc ν)) : ChainId ι → Option ν
  | .live => s.mem.head
  | .front t => (s.loc t).front
  | .reversed t => (s.loc t).reversed
  | .held i => s.mem.chains[i]?

/-- The node is found by following `next` from where the chain starts. -/
def InChain (s : Config ι (Memory ν) (Pc ν)) (c : ChainId ι) (n : ν) : Prop :=
  ∃ h, chainHead s c = some h ∧ Reaches s.mem.next h n

/-- Where the nodes of a chain are. -/
def ChainId.holds (chains : List ν) : ChainId ι → Place ι ν → Prop
  | .live, p => p = .live
  | .front t, p => p = .flushing t
  | .reversed t, p => p = .flushing t
  | .held i, p => ∃ h, chains[i]? = some h ∧ p = .held h

section Chains

variable {s : Config ι (Memory ν) (Pc ν)} {g : Ghost ι ν} {n : ν}

omit [DecidableEq ν] in
/-- The two chains of a flush share its batch. -/
theorem front_reversed (hT : ∀ t, ThreadFacts t s.mem g (s.loc t)) (t : ι) :
    ∃ rest done, (rest ++ done).Perm (s.loc t).batch ∧ (rest ++ done).Nodup ∧
      Chain s.mem.next (s.loc t).front rest ∧ Chain s.mem.next (s.loc t).reversed done := by
  have hp := (hT t).pc
  have hnone : (s.loc t).front = none → (s.loc t).reversed = none → (s.loc t).batch = [] →
      ∃ rest done, (rest ++ done).Perm (s.loc t).batch ∧ (rest ++ done).Nodup ∧
        Chain s.mem.next (s.loc t).front rest ∧ Chain s.mem.next (s.loc t).reversed done := by
    intro hfront hreversed hbatch
    rw [hfront, hreversed, hbatch]
    exact ⟨[], [], List.Perm.nil, List.nodup_nil, chain_nil, chain_nil⟩
  have hloop : ∀ {head rest batch fifo}, Reversing s.mem (head :: rest) fifo batch →
      ∃ rest done, (rest ++ done).Perm batch ∧ (rest ++ done).Nodup ∧
        Chain s.mem.next (some head) rest ∧ Chain s.mem.next fifo done := by
    intro head rest batch fifo hr
    obtain ⟨done, rfl, hnodup, hrest, hdone, hfifo⟩ := hr
    have hperm : (head :: rest ++ done).Perm (done.reverse ++ head :: rest) :=
      List.perm_append_comm.trans ((List.reverse_perm done).symm.append_right _)
    have hnd := hperm.nodup_iff.mpr hnodup
    obtain ⟨hrest', hdone', -⟩ := List.nodup_append.mp hnd
    exact ⟨head :: rest, done, hperm, hnd, ⟨rfl, hrest, hrest'⟩, ⟨hfifo, hdone, hdone'⟩⟩
  cases hl : s.loc t with
  | flush pc =>
    rw [hl] at hp hnone
    cases pc with
    | readNext head fifo batch =>
      obtain ⟨rest, hr⟩ := hp
      exact hloop hr
    | writeNext head next fifo batch =>
      obtain ⟨rest, -, hr⟩ := hp
      exact hloop hr
    | _ => exact hnone rfl rfl rfl
  | flushRet result =>
    rw [hl] at hp hnone
    cases result with
    | retry order => exact hnone rfl rfl rfl
    | success order out batch =>
      have hc : Chain s.mem.next out (order.arrange batch) := hp
      refine ⟨order.arrange batch, [], ?_, ?_, hc, chain_nil⟩
      · rw [List.append_nil]
        cases order with
        | lifo => exact List.Perm.refl _
        | fifo => exact List.reverse_perm batch
      · rw [List.append_nil]
        exact hc.nodup
  | _ =>
    rw [hl] at hnone
    exact hnone rfl rfl rfl

omit [DecidableEq ν] in
/-- **Every chain is a list of nodes that are in its place.** -/
theorem chain_of_head (hI : Inv s.mem g) (hT : ∀ t, ThreadFacts t s.mem g (s.loc t))
    {c : ChainId ι} {h : ν} (hc : chainHead s c = some h) :
    ∃ nodes, Chain s.mem.next (some h) nodes ∧ ∀ x ∈ nodes, c.holds s.mem.chains (g x) := by
  cases c with
  | live =>
    have hc : s.mem.head = some h := hc
    refine ⟨s.mem.since, hc ▸ hI.live, fun x hx => ?_⟩
    exact (hI.live_mem x).mp hx
  | front t =>
    have hc : (s.loc t).front = some h := hc
    obtain ⟨rest, done, hperm, -, hrest, -⟩ := front_reversed hT t
    refine ⟨rest, hc ▸ hrest, fun x hx => ?_⟩
    exact ((hT t).batch x).mp (hperm.subset (List.mem_append_left _ hx))
  | reversed t =>
    have hc : (s.loc t).reversed = some h := hc
    obtain ⟨rest, done, hperm, -, -, hdone⟩ := front_reversed hT t
    refine ⟨done, hc ▸ hdone, fun x hx => ?_⟩
    exact ((hT t).batch x).mp (hperm.subset (List.mem_append_right _ hx))
  | held i =>
    have hc : s.mem.chains[i]? = some h := hc
    obtain ⟨nodes, hchain, hmem⟩ := hI.held h (List.mem_of_getElem? hc)
    exact ⟨nodes, hchain, fun x hx => ⟨h, hc, (hmem x).mp hx⟩⟩

omit [DecidableEq ν] in
theorem holds_of_inChain (hI : Inv s.mem g) (hT : ∀ t, ThreadFacts t s.mem g (s.loc t))
    {c : ChainId ι} (hn : InChain s c n) : c.holds s.mem.chains (g n) := by
  obtain ⟨h, hc, hr⟩ := hn
  obtain ⟨nodes, hchain, hmem⟩ := chain_of_head hI hT hc
  exact hmem n (hchain.reaches_iff.mp hr)

omit [DecidableEq ν] in
/-- A node of a listed chain is found there. -/
theorem inChain_of_mem {c : ChainId ι} {nodes : List ν}
    (hc : Chain s.mem.next (chainHead s c) nodes) (hn : n ∈ nodes) : InChain s c n := by
  cases hhead : chainHead s c with
  | none =>
    rw [hhead] at hc
    rw [List.head?_eq_none_iff.mp hc.head.symm] at hn
    cases hn
  | some h =>
    rw [hhead] at hc
    exact ⟨h, hhead, hc.reaches_iff.mpr hn⟩

omit [DecidableEq ν] in
/-- **A node in a chain place is in exactly one chain.** -/
theorem existsUnique_chain (hI : Inv s.mem g) (hT : ∀ t, ThreadFacts t s.mem g (s.loc t))
    (hn : (g n).inChain) : ∃! c, InChain s c n := by
  cases hg : g n with
  | client =>
    rw [hg] at hn
    exact absurd hn id
  | pushing t =>
    rw [hg] at hn
    exact absurd hn id
  | live =>
    refine ⟨.live, inChain_of_mem hI.live ((hI.live_mem n).mpr hg), fun c hc => ?_⟩
    have hholds := holds_of_inChain hI hT hc
    rw [hg] at hholds
    cases c <;> simp [ChainId.holds] at hholds ⊢
  | held h =>
    obtain ⟨i, hi⟩ := List.mem_iff_getElem?.mp (hI.held_mem n h hg)
    obtain ⟨nodes, hchain, hmem⟩ := hI.held h (List.mem_of_getElem? hi)
    have hhead : chainHead s (.held i) = some h := hi
    refine ⟨.held i, inChain_of_mem (hhead ▸ hchain) ((hmem n).mpr hg), fun c hc => ?_⟩
    have hholds := holds_of_inChain hI hT hc
    rw [hg] at hholds
    cases c with
    | held j =>
      obtain ⟨k, hj, heq⟩ := hholds
      cases heq
      -- the front occurs once among the fronts
      obtain ⟨hlt, -⟩ := List.getElem?_eq_some_iff.mp hi
      rw [(List.getElem?_inj hlt hI.chains_nodup).mp (hi.trans hj.symm)]
    | live => cases hholds
    | front t => cases hholds
    | reversed t => cases hholds
  | flushing t =>
    obtain ⟨rest, done, hperm, hnodup, hrest, hdone⟩ := front_reversed hT t
    obtain ⟨-, -, hdisjoint⟩ := List.nodup_append.mp hnodup
    have hmem : n ∈ rest ++ done := hperm.mem_iff.mpr (((hT t).batch n).mpr hg)
    have hfront : InChain s (.front t) n → n ∈ rest := by
      intro ⟨h, hh, hr⟩
      have hh : (s.loc t).front = some h := hh
      exact (hh ▸ hrest).reaches_iff.mp hr
    have hreversed : InChain s (.reversed t) n → n ∈ done := by
      intro ⟨h, hh, hr⟩
      have hh : (s.loc t).reversed = some h := hh
      exact (hh ▸ hdone).reaches_iff.mp hr
    have hother : ∀ c, InChain s c n → c = .front t ∨ c = .reversed t := by
      intro c hc
      have hholds := holds_of_inChain hI hT hc
      rw [hg] at hholds
      cases c <;> simp [ChainId.holds] at hholds ⊢
      all_goals exact hholds.symm
    rcases List.mem_append.mp hmem with hn | hn
    · refine ⟨.front t, inChain_of_mem hrest hn, fun c hc => ?_⟩
      rcases hother c hc with rfl | rfl
      · rfl
      · exact absurd rfl (hdisjoint n hn n (hreversed hc))
    · refine ⟨.reversed t, inChain_of_mem hdone hn, fun c hc => ?_⟩
      rcases hother c hc with rfl | rfl
      · exact absurd rfl (hdisjoint n (hfront hc) n hn)
      · rfl

end Chains

/-! ## The loop of `mpmc_stack_reverse` comes to an end -/

/-- The accesses that are left. -/
def Left (m : Memory ν) : Pc ν → Nat → Prop
  | .flush (.readNext head fifo batch), k =>
      ∃ rest, Reversing m (head :: rest) fifo batch ∧ k = 2 * rest.length + 2
  | .flush (.writeNext head next fifo batch), k =>
      ∃ rest, next = rest.head? ∧ Reversing m (head :: rest) fifo batch ∧ k = 2 * rest.length + 1
  | _, _ => False

omit [DecidableEq ν] in
theorem left_of_reverses {m : Memory ν} {g : Ghost ι ν} {t : ι} {pc : Pc ν}
    (hT : ThreadFacts t m g pc) (hr : pc.reverses) :
    ∃ k, Left m pc k ∧ k ≤ 2 * pc.batch.length := by
  have hp := hT.pc
  cases pc with
  | flush pc =>
    cases pc with
    | readNext head fifo batch =>
      obtain ⟨rest, hrest⟩ := hp
      have hle := hrest.length_le
      rw [List.length_cons] at hle
      refine ⟨_, ⟨rest, hrest, rfl⟩, ?_⟩
      show 2 * rest.length + 2 ≤ 2 * batch.length
      omega
    | writeNext head next fifo batch =>
      obtain ⟨rest, hnext, hrest⟩ := hp
      have hle := hrest.length_le
      rw [List.length_cons] at hle
      refine ⟨_, ⟨rest, hnext, hrest, rfl⟩, ?_⟩
      show 2 * rest.length + 1 ≤ 2 * batch.length
      omega
    | _ => cases hr
  | _ => cases hr

omit [DecidableEq ν] in
/-- Others leave the loop alone. -/
theorem Left.keep {m m' : Memory ν} {g g' : Ghost ι ν} {t : ι} {pc : Pc ν} {k : Nat}
    (hl : Left m pc k) (hT : ThreadFacts t m g pc) (hk : Keeps t m g m' g') : Left m' pc k := by
  have hnext : ∀ n ∈ pc.batch, m'.next n = m.next n := fun n hn =>
    hk.next n ((hT.batch n).mp hn)
  cases pc with
  | flush pc =>
    cases pc with
    | readNext head fifo batch =>
      obtain ⟨rest, hr, hle⟩ := hl
      exact ⟨rest, hr.keep hnext, hle⟩
    | writeNext head next fifo batch =>
      obtain ⟨rest, hrest, hr, hle⟩ := hl
      exact ⟨rest, hrest, hr.keep hnext, hle⟩
    | _ => cases hl
  | _ => cases hl

omit [DecidableEq ν] in
theorem Left.pos {m : Memory ν} {pc : Pc ν} {k : Nat} (hl : Left m pc k) : 0 < k := by
  unfold Left at hl
  split at hl
  · obtain ⟨rest, -, rfl⟩ := hl
    omega
  · obtain ⟨rest, -, -, rfl⟩ := hl
    omega
  · exact absurd hl id

/-- One access further there is less left. -/
theorem Left.step {c : Choice ν} {m m' : Memory ν} {t : ι} {pc pc' : Pc ν} {k : Nat}
    (hl : Left m pc k)
    (he : exec xchg t c m pc = some (m', pc')) (hr : pc'.reverses) :
    pc'.batch = pc.batch ∧ ∃ k', Left m' pc' k' ∧ k' < k := by
  cases pc with
  | flush pc =>
    cases pc with
    | readNext head fifo batch =>
      obtain ⟨rest, hrest, rfl⟩ := hl
      obtain ⟨rfl, rfl⟩ := Prod.mk.inj (Option.some.inj he)
      obtain ⟨-, -, -, hlinked, -⟩ := id hrest
      exact ⟨rfl, _, ⟨rest, (linked_cons.mp hlinked).1, hrest, rfl⟩, by omega⟩
    | writeNext head next fifo batch =>
      obtain ⟨rest, rfl, hrest, rfl⟩ := hl
      obtain ⟨rfl, rfl⟩ := Prod.mk.inj (Option.some.inj he)
      cases rest with
      | nil => cases hr
      | cons h rest =>
        refine ⟨rfl, _, ⟨rest, hrest.step, rfl⟩, ?_⟩
        rw [List.length_cons]
        omega
    | _ => cases hl
  | _ => cases hl

/-! ## Runs -/

section Runs

variable [DecidableEq ι] {s : Config ι (Memory ν) (Pc ν)}
  {hist : List (Event ι (Config ι (Memory ν) (Pc ν)))}

/-- A stack that loses and repeats nothing, in state `s` reached by `hist`. -/
structure StackPromise (xchg : Bool) (s : Config ι (Memory ν) (Pc ν))
    (hist : List (Event ι (Config ι (Memory ν) (Pc ν)))) : Prop where
  /-- The live chain consists of the nodes pushed since the last flush. -/
  live : Chain s.mem.next s.mem.head s.mem.since
  /-- A node whose push succeeded is in exactly one chain until a client takes
  it, and in none before and afterwards. -/
  once : ∀ n, s.mem.pushes n = s.mem.taken n + 1 ∧ (∃! c, InChain s c n) ∨
    s.mem.pushes n = s.mem.taken n ∧ ∀ c, ¬ InChain s c n
  /-- A flush returns exactly the nodes that were pushed since the flush before,
  newest first or oldest first. -/
  returns : ∀ t order out batch, s.loc t = .flushRet (.success order out batch) →
    Chain s.mem.next out (order.arrange batch)
  /-- `since` and `pushes` are what the calls have done: each push that has returned success has put
  its node on top of `since` and counted it in `pushes`, and each flush that has returned success
  has taken all of `since`, as it was then, and returned it in the order that it was called for,
  once and at one instant of the call; no other call but one in progress has done anything. -/
  calls : LinearizableTo (stackHistory ν) (stackInterface.trace hist) (s.mem.since, s.mem.pushes)
  acyclic : ∀ c n, InChain s c n → ¬ Relation.TransGen (fun x y => s.mem.next x = some y) n n
  /-- `mpmc_stack_reverse` can always go on, and is done after two accesses for
  each node. -/
  goes_on : ∀ t, (s.loc t).reverses → ∃ s', (stackProgram xchg).Step t s s'
  terminates : ∀ t k, (s.loc t).reverses →
    AtLeast (fun s => (s.loc t).reverses) (fun e => e.tid = t) k hist →
    k < 2 * (s.loc t).batch.length

theorem stack_invariant (run : Run Init (stackProgram xchg).Step s hist) :
    stackAssertion.Holds s := by
  have hrun : Run Init ((stackProgram xchg).StepIf fun _ _ _ _ => True) s hist :=
    run.mono fun t s s' h => Program.stepIf_true.mpr h
  exact stackAssertion_kept.run (fun _ h => stackAssertion_init h) hrun

theorem reverse_terminates {t : ι} {k : Nat} (run : Run Init (stackProgram xchg).Step s hist)
    (hr : (s.loc t).reverses)
    (hk : AtLeast (fun s => (s.loc t).reverses) (fun e => e.tid = t) k hist) :
    k < 2 * (s.loc t).batch.length := by
  have hleft : ∃ l, Left s.mem (s.loc t) l ∧ k + l ≤ 2 * (s.loc t).batch.length := by
    refine run.atLeast_le (fun s => 2 * (s.loc t).batch.length) (fun s => Left s.mem (s.loc t))
      ?_ ?_ ?_ hr hk
    · intro s h0 hr
      obtain ⟨-, -, -, -, -, hloc⟩ := h0
      rw [hloc t] at hr
      exact hr
    · intro u s s' ⟨hist, hrun⟩ hs _ hr
      obtain ⟨g, -, hT⟩ := stack_invariant (hrun.next hs)
      exact left_of_reverses (hT t) hr
    · intro u s s' l ⟨hist, hrun⟩ hs _ hr hl
      obtain ⟨g, hI, hT⟩ := stack_invariant hrun
      obtain ⟨c, he⟩ := hs.exec
      by_cases hut : u = t
      · subst hut
        obtain ⟨hbatch, l', hl', hlt⟩ := hl.step (t := u) he hr
        refine ⟨?_, l', hl', Nat.le_of_lt hlt, fun _ => hlt⟩
        rw [hbatch]
      · have hloc : s'.loc t = s.loc t := hs.loc_of_ne (Ne.symm hut)
        obtain ⟨g', -, -, hkeeps⟩ := exec_spec hI (hT u) he
        rw [hloc]
        exact ⟨rfl, l, hl.keep (hT t) (hkeeps t (Ne.symm hut)), Nat.le_refl l,
          fun h => absurd h hut⟩
  obtain ⟨l, hl, hle⟩ := hleft
  have hpos := hl.pos
  omega

/-- **Every pushed node is in exactly one chain**, for any number of threads and
every interleaving. -/
theorem mpmcStack_exactly_once (run : Run Init (stackProgram xchg).Step s hist) :
    StackPromise xchg s hist := by
  obtain ⟨g, hI, hT⟩ := stack_invariant run
  constructor
  case live => exact hI.live
  case once =>
    intro n
    by_cases hn : (g n).inChain
    · exact .inl ⟨hI.inside n hn, existsUnique_chain hI hT hn⟩
    · refine .inr ⟨hI.outside n hn, fun c hc => hn ?_⟩
      have hholds := holds_of_inChain hI hT hc
      cases c with
      | held i =>
        obtain ⟨h, -, heq⟩ := hholds
        rw [heq]
        trivial
      | _ =>
        rw [hholds]
        trivial
  case returns =>
    intro t order out batch hl
    have hp := (hT t).pc
    rw [hl] at hp
    exact hp
  case calls => exact linearizableTo_history run
  case acyclic =>
    intro c n hn
    obtain ⟨h, hc, hr⟩ := hn
    obtain ⟨nodes, hchain, -⟩ := chain_of_head hI hT hc
    exact hchain.linked.acyclic hchain.nodup (hchain.reaches_iff.mp hr)
  case goes_on =>
    intro t hr
    cases hl : s.loc t with
    | flush pc =>
      have he : (stackProgram xchg).exec t .step s.mem (s.loc t) =
          some ((flushStep s.mem pc).1, (flushStep s.mem pc).2.elim .flush .flushRet) := by
        rw [hl]
        rfl
      exact ⟨_, .step, Program.next_eq_some.mpr ⟨_, _, he, rfl⟩⟩
    | _ =>
      rw [hl] at hr
      cases hr
  case terminates => exact fun t k hr hk => reverse_terminates run hr hk

end Runs

/-- Without `FIBER_XCHG_POINTER`: thread 0 pushes nodes 1 and 2, thread 1 gets
them by a fifo flush, takes node 1 and pushes it again, and returns from a second
flush. -/
theorem mpmcStack_exactly_once_pushed_again :
    ∃ (s : Config Nat (Memory Nat) (Pc Nat)) (hist : _),
      Run Init (stackProgram false).Step s hist ∧ s.mem.pushes 1 = 2 ∧ s.mem.chains = [2] ∧
        s.loc 1 = .flushRet (.success .lifo (some 1) [1]) ∧ StackPromise false s hist := by
  have hstart : Run Init (stackProgram (ι := Nat) (ν := Nat) false).Step initial [] :=
    .start init_initial
  obtain ⟨s, hist, run, hpushes, hchains, hloc⟩ := hstart.exists_of_schedule
    (q := fun s => s.mem.pushes 1 = 2 ∧ s.mem.chains = [2] ∧
      s.loc 1 = .flushRet (.success .lifo (some 1) [1]))
    (List.flatten [[(0, .push 1 none)], List.replicate 4 (0, .step), [(0, .push 2 (some 10))],
      List.replicate 4 (0, .step), [(1, .flush .fifo (some 10))], List.replicate 7 (1, .step),
      [(1, .take 1), (1, .push 1 none)], List.replicate 4 (1, .step), [(1, .flush .lifo none)],
      List.replicate 2 (1, .step)])
    (by decide +kernel)
  exact ⟨s, hist, run, hpushes, hchains, hloc, mpmcStack_exactly_once run⟩

end FibConcurrent.MpmcStack
