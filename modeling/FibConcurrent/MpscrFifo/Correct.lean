import FibConcurrent.MpscrFifo.Access

/-!
# MpscrFifo — one strict fifo for each producer

The assertion over all interleavings of the producers and the consumer, and what
it says about runs: every datum is accounted for in the fifo of the producer that
pushed it, and a node in the hands of a client is out of reach.
-/

namespace FibConcurrent.MpscrFifo

open FibConcurrent.Machine FibConcurrent.Data

variable {n w : Nat} {ν α : Type*}

section Step

variable [NeZero n] [DecidableEq ν] {m m' : Memory n ν α} {g : Ghost n ν α}

/-- **Every step of every thread keeps the assertion.** -/
theorem exec_spec {t : Party n} {c : Choice ν α} {pc pc' : Pc n ν α} (hI : Inv m g)
    (hT : ThreadFacts t m g pc) (he : exec w t c m pc = some (m', pc')) :
    ∃ g', Inv m' g' ∧ ThreadFacts t m' g' pc' ∧ ∀ u, u ≠ t → Keeps u m g m' g' := by
  cases pc with
  | idle =>
    cases c with
    | store x v d =>
      simp only [exec, Option.ite_none_right_eq_some, Option.some.injEq, Prod.mk.injEq] at he
      obtain ⟨hx, rfl, rfl⟩ := he
      obtain ⟨hI', hk⟩ := store_spec hI hx v d
      exact ⟨g, hI', hT.keep (hk t), fun u _ => hk u⟩
    | push x d =>
      cases t with
      | producer p =>
        simp only [exec, Option.ite_none_right_eq_some, Option.some.injEq, Prod.mk.injEq] at he
        obtain ⟨hx, rfl, rfl⟩ := he
        exact give_spec hI hT hx d
      | consumer => simp [exec] at he
    | pop =>
      simp only [exec, Option.ite_none_right_eq_some, Option.some.injEq, Prod.mk.injEq] at he
      obtain ⟨rfl, rfl, rfl⟩ := he
      exact ⟨g, hI, hT, fun u _ => keeps_refl u⟩
    | step => simp [exec] at he
  | push pc =>
    cases t with
    | producer p =>
      obtain ⟨rfl, rfl⟩ := Prod.mk.inj (Option.some.inj he)
      exact pushStep_spec hI hT
    | consumer => exact absurd hT id
  | nextFifo i =>
    cases t with
    | producer p => exact absurd hT id
    | consumer =>
      simp only [exec] at he
      by_cases hi : i < n
      · rw [if_pos hi] at he
        obtain ⟨rfl, rfl⟩ := Prod.mk.inj (Option.some.inj he)
        refine ⟨g, { hI with }, hT, fun u hu => ?_⟩
        cases u with
        | producer q => exact ⟨rfl, rfl, rfl, fun x hx => rfl⟩
        | consumer => exact absurd rfl hu
      · rw [if_neg hi] at he
        obtain ⟨rfl, rfl⟩ := Prod.mk.inj (Option.some.inj he)
        exact ⟨g, hI, hT, fun u _ => keeps_refl u⟩
  | pop i index pc =>
    cases t with
    | producer p => exact absurd hT id
    | consumer =>
      obtain ⟨rfl, rfl⟩ := Prod.mk.inj (Option.some.inj he)
      obtain ⟨g', hI', hT', hk⟩ := popStep_spec hI hT i
      refine ⟨g', hI', hT', fun u hu => ?_⟩
      cases u with
      | producer q => exact hk q
      | consumer => exact absurd rfl hu
  | popRet out =>
    cases t with
    | producer p => exact absurd hT id
    | consumer =>
      cases out with
      | none =>
        obtain ⟨rfl, rfl⟩ := Prod.mk.inj (Option.some.inj he)
        exact ⟨g, hI, hT, fun u _ => keeps_refl u⟩
      | some x =>
        obtain ⟨rfl, rfl⟩ := Prod.mk.inj (Option.some.inj he)
        obtain ⟨g', hI', htook, hk⟩ := release_spec hI hT.1 hT.2.1
        refine ⟨g', hI', htook, fun u hu => ?_⟩
        cases u with
        | producer q => exact hk q
        | consumer => exact absurd rfl hu

theorem fifoAssertion_kept :
    (fifoAssertion (n := n) (ν := ν) (α := α)).Kept (mpscrProgram w) (fun _ _ _ _ => True) := by
  intro t c m pc m' pc' g hI hT _ he
  obtain ⟨g', hI', hT', hk⟩ := exec_spec hI hT he
  exact ⟨g', hI', hT', fun u hu k hk' => hk'.keep (hk u hu)⟩

omit [NeZero n] in
theorem fifoAssertion_init {s : Config (Party n) (Memory n ν α) (Pc n ν α)} (h : Init s) :
    fifoAssertion.Holds s := by
  obtain ⟨-, htail, hinj, hdummy, hpushed, hpopped, hloc⟩ := h
  -- the dummies are in their fifos, all other nodes with the clients
  let place : ν → Place n := fun x =>
    if h : ∃ p, s.mem.head p = x then .fifo h.choose else .client
  have hplace : ∀ p x, x ∈ [s.mem.head p] ↔ place x = .fifo p := by
    intro p x
    rw [List.mem_singleton]
    by_cases h : ∃ q, s.mem.head q = x
    · have hx : s.mem.head h.choose = x := h.choose_spec
      simp only [place, dif_pos h, Place.fifo.injEq]
      constructor
      · intro hp
        exact hinj (hx.trans hp)
      · intro hp
        rw [← hx, hp]
    · simp only [place, dif_neg h, reduceCtorEq, iff_false]
      intro hx
      exact h ⟨p, hx.symm⟩
  refine ⟨⟨fun p => [s.mem.head p], fun _ => none, fun _ => [], place⟩, ?_, fun t => ?_⟩
  · refine ⟨fun p => rfl, fun p => ?_, fun p => List.nodup_singleton _, fun p => ?_, hplace,
      by simp, fun x hx => ?_⟩
    · simp [(hdummy p).1]
    · simp [Ghost.waiting, hpushed]
    · apply dif_neg
      rintro ⟨p, rfl⟩
      simp [(hdummy p).2] at hx
  · rw [hloc t]
    cases t with
    | producer p => exact ⟨rfl, by simp [htail]⟩
    | consumer =>
      intro p
      simp [hpopped, poppedFrom]

end Step

/-! ## What a state of a run promises -/

/-- The datum that the consumer has taken from fifo `p` and not copied yet. -/
def Pc.taking (p : Fin n) (m : Memory n ν α) : Pc n ν α → List α
  | .pop _ index (.readData _ x) => if index = p then [m.data x] else []
  | .pop _ index (.writeData _ d) => if index = p then [d] else []
  | _ => []

/-- The datum that is being pushed. -/
def Pc.pushing (m : Memory n ν α) : Pc n ν α → List α
  | .push pc => [m.data pc.newNode]
  | _ => []

/-- The datum that the consumer is about to return. -/
def Pc.returning (m : Memory n ν α) : Pc n ν α → List α
  | .popRet (some x) => [m.data x]
  | _ => []

/-- The data in the nodes that have been returned, in order. -/
def returnedData : List (Event (Party n) (Config (Party n) (Memory n ν α) (Pc n ν α))) → List α
  | [] => []
  | e :: hist => returnedData hist ++
      if e.tid = .consumer then (e.pre.loc .consumer).returning e.pre.mem else []

/-- No pointer of any fifo leads to `x`: not a head, not a tail, and not the
`prev_tail` that a producer is about to write to. -/
def Unreachable (s : Config (Party n) (Memory n ν α) (Pc n ν α)) (x : ν) : Prop :=
  ∀ p, ¬ Reaches s.mem.next (s.mem.head p) x ∧ ¬ Reaches s.mem.next (s.mem.tail p) x ∧
    ∀ newNode prevTail, s.loc (.producer p) = .push (.writeTail newNode prevTail) ∨
      s.loc (.producer p) = .push (.linkNext newNode prevTail) →
      ¬ Reaches s.mem.next prevTail x

structure MpscrPromise (s : Config (Party n) (Memory n ν α) (Pc n ν α))
    (hist : List (Event (Party n) (Config (Party n) (Memory n ν α) (Pc n ν α)))) : Prop where
  /-- What is popped from the fifo of `p` is what `p` pushed, in that order. -/
  inOrder : ∀ p, poppedFrom p s.mem.popped <+: s.mem.pushed p
  /-- Every datum that `p` has pushed is in one place: popped, in the hands of the
  consumer, in the fifo of `p`, or in the push that is running. -/
  accounted : ∀ p, ∃ chain, Linked s.mem.next (s.mem.head p :: chain) ∧
    s.mem.pushed p = poppedFrom p s.mem.popped ++ (s.loc .consumer).taking p s.mem ++
      chain.map s.mem.data ++ (s.loc (.producer p)).pushing s.mem
  /-- What is popped is what has been returned, and what is being returned. -/
  returned : s.mem.popped.map Prod.snd =
    returnedData hist ++ (s.loc .consumer).returning s.mem
  /-- A returned node carries the datum that was popped last. -/
  returning : ∀ x, s.loc .consumer = .popRet (some x) →
    s.mem.popped.getLast?.map Prod.snd = some (s.mem.data x)
  unreachable : ∀ x, s.mem.owned x = true ∨ s.loc .consumer = .popRet (some x) →
    Unreachable s x

section Facts

variable {m : Memory n ν α} {g : Ghost n ν α} {p : Fin n} {x : ν}

theorem taken_eq {pc : Pc n ν α} (hT : ConsumerFacts m g pc) (p : Fin n) :
    g.taken p = poppedFrom p m.popped ++ pc.taking p m := by
  have hrest : Took g m.popped → g.taken p = poppedFrom p m.popped ++ [] := by
    intro htook
    rw [List.append_nil]
    exact htook p
  have htake : ∀ index d, Took g (m.popped ++ [(index, d)]) →
      g.taken p = poppedFrom p m.popped ++ if index = p then [d] else [] := by
    intro index d htook
    rw [htook p, poppedFrom_append]
    split <;> simp
  cases pc with
  | idle => exact hrest hT
  | push pc => exact absurd hT id
  | nextFifo i => exact hrest hT
  | pop i index pc =>
    cases pc with
    | readHead => exact hrest hT
    | readNext h => exact hrest hT.1
    | writeHead h y => exact hrest hT.1
    | readData h y => exact htake index _ hT.1
    | writeData h d => exact htake index d hT.1
  | popRet out =>
    cases out with
    | none => exact hrest hT
    | some y => exact hrest hT.1

theorem pend_eq {pc : Pc n ν α} (hT : ProducerFacts p m g pc) :
    (g.pend p).toList.map m.data = pc.pushing m := by
  cases pc with
  | idle =>
    rw [hT.1]
    rfl
  | push pc =>
    have hpend : g.pend p = some pc.newNode := by
      cases pc with
      | clearNext y => exact hT.1
      | readTail y => exact hT.1.1
      | writeTail y z => exact hT.1.1.1
      | linkNext y z => exact hT.1.1.1
    rw [hpend]
    rfl
  | _ => exact absurd hT id

/-- The links of a fifo stay inside its chain. -/
theorem Inv.not_reaches (hI : Inv m g) {y : ν} (hy : y ∈ g.chain p)
    (hx : g.place x = .client ∨ g.place x = .consumer) : ¬ Reaches m.next y x := by
  intro hr
  have hmem : x ∈ g.chain p := Segments.reaches_mem (hI.linked p) hy hr
  have hplace := (hI.chain p x).mp hmem
  rcases hx with hx | hx <;> simp [hx] at hplace

/-- The tail is the last linked node, or the node of the push, with a null link. -/
theorem tail_not_reaches {pc : Pc n ν α} (hI : Inv m g) (hT : ProducerFacts p m g pc)
    (hx : g.place x = .client ∨ g.place x = .consumer) : ¬ Reaches m.next (m.tail p) x := by
  have hlast : (g.chain p).getLast? = some (m.tail p) → ¬ Reaches m.next (m.tail p) x :=
    fun h => hI.not_reaches (List.mem_of_getLast? h) hx
  cases pc with
  | idle => exact hlast hT.2
  | push pc =>
    cases pc with
    | clearNext y => exact hlast hT.2
    | readTail y => exact hlast hT.1.2
    | writeTail y z =>
      obtain ⟨⟨hp, -⟩, htail⟩ := hT
      exact hlast (htail ▸ hp.2)
    | linkNext y z =>
      obtain ⟨⟨hp, hnull⟩, htail⟩ := hT
      have hplace := hI.pend p y hp.1
      intro hr
      rw [htail] at hr
      rcases Relation.ReflTransGen.cases_head hr with rfl | ⟨b, hb, -⟩
      · rcases hx with hx | hx <;> simp [hx] at hplace
      · simp [hnull] at hb
  | _ => exact absurd hT id

/-- A node with the clients or with the consumer is out of reach. -/
theorem unreachable_of_place {s : Config (Party n) (Memory n ν α) (Pc n ν α)}
    (hI : Inv s.mem g) (hT : ∀ p, ProducerFacts p s.mem g (s.loc (.producer p)))
    (hx : g.place x = .client ∨ g.place x = .consumer) : Unreachable s x := by
  intro p
  refine ⟨hI.not_reaches (List.mem_of_mem_head? (hI.head p)) hx, tail_not_reaches hI (hT p) hx, ?_⟩
  intro newNode prevTail hloc
  have hp := hT p
  rcases hloc with hloc | hloc
  · rw [hloc] at hp
    exact hI.not_reaches (List.mem_of_getLast? hp.1.1.2) hx
  · rw [hloc] at hp
    exact hI.not_reaches (List.mem_of_getLast? hp.1.1.2) hx

end Facts

/-! ## Runs -/

section Runs

variable [NeZero n] [DecidableEq ν] {s : Config (Party n) (Memory n ν α) (Pc n ν α)}
  {hist : List (Event (Party n) (Config (Party n) (Memory n ν α) (Pc n ν α)))}

theorem fifo_invariant (run : Run Init (mpscrProgram w).Step s hist) :
    fifoAssertion.Holds s := by
  have hrun : Run Init ((mpscrProgram w).StepIf fun _ _ _ _ => True) s hist :=
    run.mono fun t s s' h => Program.stepIf_true.mpr h
  exact fifoAssertion_kept.run (fun _ h => fifoAssertion_init h) hrun

/-- A consumer's step logs a datum as popped exactly if it comes to return it. -/
theorem popped_of_exec {c : Choice ν α} {m m' : Memory n ν α} {pc pc' : Pc n ν α}
    (he : exec w .consumer c m pc = some (m', pc')) :
    m'.popped.map Prod.snd = m.popped.map Prod.snd ++ pc'.returning m' := by
  cases pc with
  | idle =>
    cases c <;> simp only [exec, Option.ite_none_right_eq_some, Option.some.injEq,
      Prod.mk.injEq, reduceCtorEq] at he
    all_goals
      obtain ⟨-, rfl, rfl⟩ := he
      exact (List.append_nil _).symm
  | push pc => simp [exec] at he
  | nextFifo i =>
    simp only [exec] at he
    split at he <;> cases he <;> exact (List.append_nil _).symm
  | pop i index pc =>
    obtain ⟨rfl, rfl⟩ := Prod.mk.inj (Option.some.inj he)
    cases pc with
    | readNext prevHead =>
      cases hnext : m.next prevHead <;> simp [popStep, hnext, Pc.returning]
    | writeData prevHead data => simp [popStep, Pc.returning]
    | _ => exact (List.append_nil _).symm
  | popRet out =>
    cases out <;> cases he <;> exact (List.append_nil _).symm

theorem returned_of_run (run : Run Init (mpscrProgram w).Step s hist) :
    s.mem.popped.map Prod.snd = returnedData hist ++ (s.loc .consumer).returning s.mem := by
  refine run.invariant_hist (J := fun s hist => s.mem.popped.map Prod.snd =
    returnedData hist ++ (s.loc .consumer).returning s.mem) ?_ ?_
  · rintro s ⟨-, -, -, -, -, hpopped, hidle⟩
    rw [hpopped, hidle]
    rfl
  · intro t s s' hist hr ih hs
    obtain ⟨g, hI, hT⟩ := fifo_invariant hr
    obtain ⟨c, he⟩ := hs.exec
    cases t with
    | producer p =>
      have hP : ThreadFacts (.producer p) s.mem g (s.loc (.producer p)) := hT (.producer p)
      obtain ⟨g', -, -, hk⟩ := exec_spec hI hP he
      have hkeeps : KeepsPop s.mem g s'.mem g' := hk .consumer (by simp)
      have hC : ConsumerFacts s.mem g (s.loc .consumer) := hT .consumer
      have hsame : (s.loc .consumer).returning s'.mem = (s.loc .consumer).returning s.mem := by
        cases hpc : s.loc .consumer with
        | popRet out =>
          cases out with
          | none => rfl
          | some x =>
            rw [hpc] at hC
            exact congrArg (fun d => [d]) (hkeeps.held x hC.2.1).2
        | _ => rfl
      rw [returnedData, if_neg (by simp), List.append_nil, hs.loc_of_ne (by simp), hsame,
        hkeeps.popped]
      exact ih
    | consumer =>
      rw [returnedData, if_pos rfl, popped_of_exec he, ih]

/-- **Strict first in first out for each producer**, for any number of producers
and every interleaving, with returned nodes pushed again by anybody. -/
theorem mpscrFifo_per_producer (run : Run Init (mpscrProgram w).Step s hist) :
    MpscrPromise s hist := by
  obtain ⟨g, hI, hT⟩ := fifo_invariant run
  have hC : ConsumerFacts s.mem g (s.loc .consumer) := hT .consumer
  have hP : ∀ p, ProducerFacts p s.mem g (s.loc (.producer p)) := fun p => hT (.producer p)
  have hpushed : ∀ p, ∃ chain, Linked s.mem.next (s.mem.head p :: chain) ∧
      s.mem.pushed p = poppedFrom p s.mem.popped ++ (s.loc .consumer).taking p s.mem ++
        chain.map s.mem.data ++ (s.loc (.producer p)).pushing s.mem := by
    intro p
    obtain ⟨rest, hrest⟩ := hI.chain_eq p
    refine ⟨rest, hrest ▸ hI.linked p, ?_⟩
    rw [hI.values p, taken_eq hC p, Ghost.waiting, hrest, List.map_append, pend_eq (hP p)]
    simp
  constructor
  case inOrder =>
    intro p
    obtain ⟨chain, -, hp⟩ := hpushed p
    rw [hp, List.append_assoc, List.append_assoc]
    exact List.prefix_append ..
  case accounted => exact hpushed
  case returned => exact returned_of_run run
  case returning =>
    intro x hx
    rw [hx] at hC
    exact hC.2.2
  case unreachable =>
    intro x hx
    apply unreachable_of_place hI hP
    rcases hx with hx | hx
    · exact .inl (hI.owned x hx)
    · rw [hx] at hC
      exact .inr hC.2.1

end Runs

/-- The consumer gets node 0, the dummy of producer 0, with the datum of producer
0; producer 1 pushes the same node, and its datum comes back in node 1. -/
theorem mpscrFifo_per_producer_migrating_node :
    ∃ (s : Config (Party 2) (Memory 2 Nat Nat) (Pc 2 Nat Nat)) (hist : _),
      Run Init (mpscrProgram 32).Step s hist ∧ s.mem.popped = [(0, 10), (1, 20)] ∧
        s.loc .consumer = .popRet (some 1) ∧ s.mem.head 1 = 0 ∧ MpscrPromise s hist := by
  have hstart : Run Init (mpscrProgram (n := 2) (ν := Nat) (α := Nat) 32).Step (initial 2 0) [] :=
    .start (init_initial 2 0)
  obtain ⟨s, hist, run, hpopped, hret, hhead⟩ := hstart.exists_of_schedule
    (q := fun s => s.mem.popped = [(0, 10), (1, 20)] ∧ s.loc .consumer = .popRet (some 1) ∧
      s.mem.head 1 = 0)
    (List.flatten [[(.producer 0, .push 2 10)], List.replicate 4 (.producer 0, .step),
      [(.consumer, .pop)], List.replicate 7 (.consumer, .step), [(.producer 1, .push 0 20)],
      List.replicate 4 (.producer 1, .step), [(.consumer, .pop)],
      List.replicate 6 (.consumer, .step)])
    (by decide +kernel)
  exact ⟨s, hist, run, hpopped, hret, hhead, mpscrFifo_per_producer run⟩

end FibConcurrent.MpscrFifo
