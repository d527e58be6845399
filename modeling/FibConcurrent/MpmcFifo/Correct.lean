import FibConcurrent.MpmcFifo.Calls

/-!
# MpmcFifo — an exactly-once fifo that leaves reclaimed nodes alone

The accesses are put together into the two operations, and these into runs. The
statements about a single moment are read off the invariant; that no validated
node is passed to a push meanwhile, and why a pop found nothing, is found by
looking back into the call.
-/

namespace FibConcurrent.MpmcFifo

open FibConcurrent.Machine FibConcurrent.Data

variable {ι ν α : Type*} [DecidableEq ι] [LinearOrder ν]

section Step

variable {m m' : Memory ι ν α} {g : Ghost ι ν} {t : ι}

omit [DecidableEq ι] [LinearOrder ν] in
/-- No link is owed before the CAS and after the store of a push. -/
theorem Owes.none {pc pc' : Pc ι ν α} (ho : Owes t g pc)
    (hpc : ∀ a b, pc ≠ .push (.linkPrev b a)) : Owes t g pc' :=
  fun a b hab => absurd (ho a b hab) (hpc a b)

theorem pushStep_spec {pc : PushPc ν} (hI : Inv m g) (hT : ThreadFacts t m g (.push pc)) :
    ∃ g', Inv (pushStep t m pc).1 g' ∧
      ThreadFacts t (pushStep t m pc).1 g' ((pushStep t m pc).2.elim (.hazard .idle) .push) ∧
      ∀ u, u ≠ t → Keeps u m g (pushStep t m pc).1 g' := by
  obtain ⟨hhazard, howes, hp⟩ := hT
  have ht : t ∈ g.hazard.chain := hhazard.pc
  have hsame : ∀ u, u ≠ t → Keeps u m g m g := fun u _ =>
    keeps_of_hazard (HazardPointer.keeps_refl ..) rfl rfl fun _ _ _ => rfl
  cases pc with
  | clearPrev n =>
    exact ⟨g, hI.clear hp, ⟨hhazard, howes.none (by simp), hp, Function.update_self ..⟩,
      fun u hu => keeps_clear hI hp hu⟩
  | readTail n => exact ⟨g, hI, ⟨hhazard, howes.none (by simp), hp⟩, hsame⟩
  | useTail n tail =>
    obtain ⟨hI', hk⟩ := use_spec hI ht (show 0 < hazardCount by decide) tail
    refine ⟨g, hI', ⟨⟨hhazard.held, ht⟩, howes.none (by simp), hp, ?_⟩, hk⟩
    simp [pushStep, HazardPointer.usingSlot]
  | checkTail n tail =>
    obtain ⟨hprep, hs⟩ := hp
    by_cases htail : tail = m.tail
    · subst htail
      obtain ⟨hI', hguards, hk⟩ := check_spec hI hs hI.tail_mem
      simp only [pushStep, if_true]
      exact ⟨g, hI', ⟨⟨hhazard.held, ht⟩, howes.none (by simp), hprep, hguards⟩, hk⟩
    · simp only [pushStep, if_neg htail]
      exact ⟨g, hI, ⟨hhazard, howes.none (by simp), hprep⟩, hsame⟩
  | writeNext n tail =>
    -- nothing depends on the field `next`
    exact ⟨g, { hI with }, ⟨hhazard, howes.none (by simp), hp⟩, fun u hu => { hsame u hu with }⟩
  | swapTail n tail =>
    obtain ⟨hprep, hguards⟩ := hp
    by_cases hcas : m.tail = tail
    · subst hcas
      simp only [pushStep, if_true]
      refine ⟨_, hI.enqueue hprep, ⟨hhazard, fun a b hab => ?_, Function.update_self ..⟩,
        fun u hu => keeps_enqueue hI hprep hu⟩
      rcases pend_enqueue hab with ⟨rfl, -, rfl⟩ | hab
      · rfl
      · cases howes a b hab
    · simp only [pushStep, if_neg hcas]
      exact ⟨g, hI, ⟨hhazard, howes.none (by simp), hprep⟩, hsame⟩
  | linkPrev n tail =>
    refine ⟨_, hI.link hp, ⟨hhazard, fun a b hab => ?_, trivial⟩,
      fun u hu => keeps_link hI hp hu⟩
    obtain ⟨hne, hab⟩ := pend_link hab
    cases howes a b hab
    exact absurd rfl hne
  | doneUsing =>
    obtain ⟨hI', hk⟩ := done_spec (t := t) hI 0
    exact ⟨g, hI', ⟨⟨hhazard.held, ht⟩, howes.none (by simp), trivial⟩, hk⟩

theorem popStep_spec {pc : PopPc ι ν α} {r : PopPc ι ν α ⊕ Option α} (hI : Inv m g)
    (hT : ThreadFacts t m g (.pop pc)) (he : popStep t m pc = some (m', r)) :
    ∃ g', Inv m' g' ∧ ThreadFacts t m' g' (Sum.elim .pop .popRet r) ∧
      ∀ u, u ≠ t → Keeps u m g m' g' := by
  obtain ⟨hhazard, howes, hp⟩ := hT
  have hsame : ∀ u, u ≠ t → Keeps u m g m g := fun u _ =>
    keeps_of_hazard (HazardPointer.keeps_refl ..) rfl rfl fun _ _ _ => rfl
  have howes' : ∀ {g' : Ghost ι ν} {pc' : Pc ι ν α}, g'.pend = g.pend → Owes t g' pc' := by
    intro g' pc' hpend a b hab
    rw [hpend] at hab
    cases howes a b hab
  cases pc with
  | readHead =>
    obtain ⟨rfl, rfl⟩ := Prod.mk.inj (Option.some.inj he)
    exact ⟨g, hI, ⟨hhazard, howes' rfl, trivial⟩, hsame⟩
  | useHead h =>
    obtain ⟨rfl, rfl⟩ := Prod.mk.inj (Option.some.inj he)
    obtain ⟨hI', hk⟩ := use_spec hI hhazard.pc (show 0 < hazardCount by decide) h
    refine ⟨g, hI', ⟨⟨hhazard.held, hhazard.pc⟩, howes' rfl, ?_⟩, hk⟩
    simp [PcFacts, PopFacts, HazardPointer.usingSlot]
  | checkHead h =>
    simp only [popStep] at he
    by_cases hhead : h = m.head
    · rw [if_pos hhead] at he
      obtain ⟨rfl, rfl⟩ := Prod.mk.inj (Option.some.inj he)
      subst hhead
      obtain ⟨hI', hguards, hk⟩ := check_spec hI hp hI.head_mem
      exact ⟨g, hI', ⟨⟨hhazard.held, hhazard.pc⟩, howes' rfl, hguards, .inl rfl⟩, hk⟩
    · rw [if_neg hhead] at he
      obtain ⟨rfl, rfl⟩ := Prod.mk.inj (Option.some.inj he)
      exact ⟨g, hI, ⟨hhazard, howes' rfl, trivial⟩, hsame⟩
  | readPrev h =>
    simp only [popStep] at he
    cases hprev : m.prev h with
    | none =>
      rw [hprev] at he
      obtain ⟨rfl, rfl⟩ := Prod.mk.inj (Option.some.inj he)
      exact ⟨g, hI, ⟨hhazard, howes' rfl, trivial⟩, hsame⟩
    | some p =>
      rw [hprev] at he
      obtain ⟨rfl, rfl⟩ := Prod.mk.inj (Option.some.inj he)
      refine ⟨g, hI, ⟨hhazard, howes' rfl, hp, fun hhead => ?_⟩, hsame⟩
      subst hhead
      exact hI.behind_of_prev hprev
  | doneEmpty =>
    obtain ⟨rfl, rfl⟩ := Prod.mk.inj (Option.some.inj he)
    obtain ⟨hI', hk⟩ := done_spec (t := t) hI 0
    exact ⟨g, hI', ⟨⟨hhazard.held, hhazard.pc⟩, howes' rfl, trivial⟩, hk⟩
  | usePrev h p =>
    obtain ⟨rfl, rfl⟩ := Prod.mk.inj (Option.some.inj he)
    obtain ⟨⟨hguards, hwas⟩, hbehind⟩ := hp
    obtain ⟨hI', hk⟩ := use_spec hI hhazard.pc (show 1 < hazardCount by decide) p
    refine ⟨g, hI', ⟨⟨hhazard.held, hhazard.pc⟩, howes' rfl, ⟨⟨guards_use hguards, hwas⟩, hbehind⟩,
      ?_⟩, hk⟩
    simp [HazardPointer.usingSlot]
  | checkPrev h p =>
    obtain ⟨⟨⟨hguards, hwas⟩, hbehind⟩, hs⟩ := hp
    simp only [popStep] at he
    by_cases hhead : h = m.head
    · rw [if_pos hhead] at he
      obtain ⟨rfl, rfl⟩ := Prod.mk.inj (Option.some.inj he)
      -- the head has not moved, so the node behind it has not been popped
      obtain ⟨-, rest, hrest⟩ := hbehind hhead.symm
      obtain ⟨hI', hguards', hk⟩ := check_spec hI hs (by rw [hrest]; simp)
      exact ⟨g, hI', ⟨⟨hhazard.held, hhazard.pc⟩, howes' rfl,
        ⟨⟨guards_check hguards, hwas⟩, hbehind⟩, hguards'⟩, hk⟩
    · rw [if_neg hhead] at he
      obtain ⟨rfl, rfl⟩ := Prod.mk.inj (Option.some.inj he)
      exact ⟨g, hI, ⟨hhazard, howes' rfl, trivial⟩, hsame⟩
  | readValue h p =>
    obtain ⟨rfl, rfl⟩ := Prod.mk.inj (Option.some.inj he)
    exact ⟨g, hI, ⟨hhazard, howes' rfl, hp.1, hp.2, fun _ => rfl⟩, hsame⟩
  | swapHead h p ret =>
    obtain ⟨⟨hwas, hbehind⟩, hguards, hret⟩ := hp
    simp only [popStep] at he
    by_cases hcas : m.head = h
    · rw [if_pos hcas] at he
      obtain ⟨rfl, rfl⟩ := Prod.mk.inj (Option.some.inj he)
      subst hcas
      rw [← hret rfl]
      exact ⟨_, hI.dequeue (hbehind rfl) t, ⟨hhazard, howes' rfl, Function.update_self ..⟩,
        fun u _ => keeps_dequeue hI (hbehind rfl) t⟩
    · rw [if_neg hcas] at he
      obtain ⟨rfl, rfl⟩ := Prod.mk.inj (Option.some.inj he)
      exact ⟨g, hI, ⟨hhazard, howes' rfl, trivial⟩, hsame⟩
  | doneHead h ret =>
    obtain ⟨rfl, rfl⟩ := Prod.mk.inj (Option.some.inj he)
    obtain ⟨hI', hk⟩ := done_spec (t := t) hI 0
    exact ⟨g, hI', ⟨⟨hhazard.held, hhazard.pc⟩, howes' rfl, hp⟩, hk⟩
  | donePrev h ret =>
    obtain ⟨rfl, rfl⟩ := Prod.mk.inj (Option.some.inj he)
    obtain ⟨hI', hk⟩ := done_spec (t := t) hI 1
    exact ⟨g, hI', ⟨⟨hhazard.held, hhazard.pc⟩, howes' rfl, hp⟩, hk⟩
  | free h ret =>
    obtain ⟨rfl, rfl⟩ := Prod.mk.inj (Option.some.inj he)
    refine ⟨_, hI.retire hp, ⟨⟨?_, hhazard.pc⟩, howes' rfl, trivial⟩,
      fun u hu => keeps_retire hI hp hu⟩
    show (Function.update m.hazard.retiredList t (h :: m.hazard.retiredList t) t ++ []).Perm
      (Function.update g.hazard.held t (h :: g.hazard.held t) t)
    rw [Function.update_self, Function.update_self]
    exact List.Perm.cons h hhazard.held
  | reclaim pc ret =>
    obtain ⟨⟨hz, pc'⟩, hstep, heq⟩ := Option.map_eq_some_iff.mp he
    obtain ⟨rfl, rfl⟩ := Prod.mk.inj heq
    have hpc : pc = .idle → HazardPointer.Choice.step (ν := ν) = .scan := by
      rintro rfl
      simp [HazardPointer.exec] at hstep
    obtain ⟨gh, hI', hT', hk⟩ := hazard_step hI hhazard hpc hstep
    refine ⟨_, hI', ?_, hk⟩
    by_cases hidle : pc' = .idle
    · subst hidle
      exact ⟨hT', howes' rfl, trivial⟩
    · simp only [if_neg hidle]
      exact ⟨hT', howes' rfl, trivial⟩

/-- **Every step of every thread keeps the assertion.** -/
theorem exec_spec {c : Choice ν α} {pc pc' : Pc ι ν α} (hI : Inv m g) (hT : ThreadFacts t m g pc)
    (he : exec t c m pc = some (m', pc')) :
    ∃ g', Inv m' g' ∧ ThreadFacts t m' g' pc' ∧ ∀ u, u ≠ t → Keeps u m g m' g' := by
  have hsame : ∀ u, u ≠ t → Keeps u m g m g := fun u _ =>
    keeps_of_hazard (HazardPointer.keeps_refl ..) rfl rfl fun _ _ _ => rfl
  cases pc with
  | hazard hpc =>
    by_cases hidle : hpc = .idle
    · subst hidle
      have ht : t ∈ g.hazard.chain := hT.hazard.pc
      cases c <;> simp only [exec, Option.ite_none_right_eq_some, Option.some.injEq,
        Prod.mk.injEq, reduceCtorEq] at he
      case push n v =>
        obtain ⟨hn, rfl, rfl⟩ := he
        exact ⟨_, hI.pass hn t v, ⟨⟨hT.hazard.held, ht⟩, hT.owes.none (by simp),
          Function.update_self ..⟩, fun u _ => keeps_pass hI hn t v⟩
      case trypop =>
        obtain ⟨rfl, rfl⟩ := he
        exact ⟨g, hI, ⟨hT.hazard, hT.owes.none (by simp), trivial⟩, hsame⟩
      case scan =>
        obtain ⟨rfl, rfl⟩ := he
        exact ⟨g, hI, ⟨⟨hT.hazard.held, ht, trivial⟩, hT.owes.none (by simp), trivial⟩, hsame⟩
    · rw [exec_hazard hidle] at he
      obtain ⟨⟨hz, hpc'⟩, hstep, heq⟩ := Option.map_eq_some_iff.mp he
      obtain ⟨rfl, rfl⟩ := Prod.mk.inj heq
      obtain ⟨gh, hI', hT', hk⟩ := hazard_step hI hT.hazard (fun h => absurd h hidle) hstep
      exact ⟨_, hI', ⟨hT', hT.owes.none (by simp), trivial⟩, hk⟩
  | push pc =>
    obtain ⟨rfl, rfl⟩ := Prod.mk.inj (Option.some.inj he)
    exact pushStep_spec hI hT
  | pop pc =>
    obtain ⟨⟨m₁, r⟩, hstep, heq⟩ := Option.map_eq_some_iff.mp he
    obtain ⟨rfl, rfl⟩ := Prod.mk.inj heq
    exact popStep_spec hI hT hstep
  | popRet ret =>
    obtain ⟨rfl, rfl⟩ := Prod.mk.inj (Option.some.inj he)
    exact ⟨g, hI, ⟨hT.hazard, hT.owes.none (by simp), trivial⟩, hsame⟩

end Step

theorem fifoAssertion_kept :
    (fifoAssertion (ι := ι) (ν := ν) (α := α)).Kept fifoProgram (fun _ _ _ _ => True) := by
  intro t c m pc m' pc' g hI hT _ he
  obtain ⟨g', hI', hT', hk⟩ := exec_spec hI hT he
  exact ⟨g', hI', hT', fun u hu k hk' => hk'.keep (hk u hu)⟩

omit [DecidableEq ι] in
theorem fifoAssertion_init {s : Config ι (Memory ι ν α) (Pc ι ν α)} (h : Init s) :
    fifoAssertion.Holds s := by
  obtain ⟨htail, hprev, -, hhazard, hgiven, hpushed, hpopped, hloc⟩ := h
  have hgced : ∀ x, s.mem.hazard.gced x = 0 := fun x => by rw [hhazard]; rfl
  have hfreed : ∀ x, s.mem.hazard.freed x = 0 := fun x => by rw [hhazard]; rfl
  have hlive : ∀ x, Live s.mem x ↔ x = s.mem.head := by
    intro x
    by_cases hx : x = s.mem.head <;> simp [Live, hgced, hgiven, hx]
  refine ⟨⟨[s.mem.head], fun _ => none, fun _ => none, fun _ => none, [], fun _ => []⟩, ?_,
    fun t => ?_⟩
  · constructor <;> try simp [htail, hprev, hpushed, hpopped, hlive, hgced, hfreed]
    case given =>
      intro x
      by_cases hx : x = s.mem.head <;> simp [hgiven, hx]
    case hazard =>
      rw [hhazard]
      exact ⟨rfl, linked_nil, List.nodup_nil, by simp [HazardPointer.initialMemory],
        fun _ => List.nodup_nil, by simp, fun _ => .inl ⟨rfl, fun _ => List.not_mem_nil⟩⟩
  · rw [hloc t]
    refine ⟨⟨?_, List.not_mem_nil⟩, by simp [Owes], trivial⟩
    rw [hhazard]
    exact List.Perm.refl _

/-! ## The nodes a thread is at -/

section Nodes

variable {m : Memory ι ν α} {g : Ghost ι ν} {t : ι} {x : ν}

omit [DecidableEq ι] in
/-- A node that a scan is about to process is retired. -/
theorem live_of_scanned {pc : HazardPointer.Pc ι ν} (hI : Inv m g)
    (hT : HazardPointer.ThreadFacts hazardCount t m.hazard g.hazard pc) (hx : x ∈ scanned pc) :
    Live m x := by
  have hheld : x ∈ g.hazard.held t := by
    apply hT.held.subset
    apply List.mem_append_right
    unfold scanned at hx
    split at hx
    · rw [List.mem_singleton.mp hx]
      exact List.mem_cons_self
    · cases hx
  rcases hI.hazard.passed x with ⟨-, hno⟩ | ⟨hpassed, -⟩
  · exact absurd hheld (hno t)
  · exact hI.retired x hpassed

omit [DecidableEq ι] in
/-- **No access touches a reclaimed node.** -/
theorem live_of_accesses {pc : Pc ι ν α} (hI : Inv m g) (hT : ThreadFacts t m g pc)
    (hx : x ∈ pc.accesses) : Live m x := by
  have hp := hT.pc
  cases pc with
  | hazard pc => exact live_of_scanned hI hT.hazard hx
  | push pc =>
    cases pc <;> simp only [Pc.accesses, List.mem_singleton, List.not_mem_nil] at hx
    case clearPrev n =>
      subst hx
      exact (hI.pushing x t hp).1
    case writeNext n tail =>
      subst hx
      exact (hI.pushing x t hp.1.1).1
    case linkPrev n tail =>
      subst hx
      have hpend : g.pend x = some (t, n) := hp
      exact (hI.queued x (hI.pend_mem x (by rw [hpend]; simp))).1
  | pop pc =>
    cases pc <;> simp only [Pc.accesses, List.mem_singleton, List.not_mem_nil] at hx
    case readPrev h =>
      subst hx
      exact hp.1.2
    case readValue h p =>
      subst hx
      exact hp.2.2
    case free h ret =>
      subst hx
      exact (hI.popping x t hp).1
    case reclaim pc ret => exact live_of_scanned hI hT.hazard hx
  | popRet ret => cases hx

omit [DecidableEq ι] in
/-- A node that a call has validated is not reclaimed before it is done with it. -/
theorem live_of_validated {pc : Pc ι ν α} (hI : Inv m g) (hT : ThreadFacts t m g pc)
    (hx : x ∈ pc.validated) : Live m x := by
  have hp := hT.pc
  cases pc with
  | hazard pc => cases hx
  | push pc =>
    cases pc <;> simp only [Pc.validated, List.mem_singleton, List.not_mem_nil] at hx
    case writeNext n tail =>
      subst hx
      exact hp.2.2
    case swapTail n tail =>
      subst hx
      exact hp.2.2
    case linkPrev n tail =>
      subst hx
      have hpend : g.pend x = some (t, n) := hp
      exact (hI.queued x (hI.pend_mem x (by rw [hpend]; simp))).1
  | pop pc =>
    cases pc <;> simp only [Pc.validated, List.mem_cons, List.not_mem_nil, or_false] at hx
    case readPrev h =>
      subst hx
      exact hp.1.2
    case usePrev h p =>
      subst hx
      exact hp.1.1.2
    case checkPrev h p =>
      subst hx
      exact hp.1.1.1.2
    case readValue h p =>
      rcases hx with rfl | rfl
      · exact hp.1.1.1.2
      · exact hp.2.2
    case swapHead h p ret =>
      rcases hx with rfl | rfl
      · exact hp.1.1.1.2
      · exact hp.2.1.2
    case doneHead h ret =>
      subst hx
      exact (hI.popping x t hp).1
    case donePrev h ret =>
      subst hx
      exact (hI.popping x t hp).1
    case free h ret =>
      subst hx
      exact (hI.popping x t hp).1
  | popRet ret => cases hx

/-- Only a client passes a node, and only one that is its own. -/
theorem given_of_exec {c : Choice ν α} {m' : Memory ι ν α} {pc pc' : Pc ι ν α}
    (he : exec t c m pc = some (m', pc')) (hlive : Live m x) : m'.given x = m.given x := by
  cases pc with
  | hazard hpc =>
    by_cases hidle : hpc = .idle
    · subst hidle
      cases c <;> simp only [exec, Option.ite_none_right_eq_some, Option.some.injEq,
        Prod.mk.injEq, reduceCtorEq] at he
      case push n v =>
        obtain ⟨hn, rfl, -⟩ := he
        apply Function.update_of_ne
        rintro rfl
        have hlive : m.given x = m.hazard.gced x + 1 := hlive
        omega
      all_goals rw [← he.1]
    · rw [exec_hazard hidle] at he
      obtain ⟨r, -, heq⟩ := Option.map_eq_some_iff.mp he
      rw [← (Prod.mk.inj heq).1]
  | push pc =>
    obtain ⟨rfl, -⟩ := Prod.mk.inj (Option.some.inj he)
    cases pc <;> simp only [pushStep] <;> (try split) <;> rfl
  | pop pc =>
    obtain ⟨⟨m₁, r⟩, hstep, heq⟩ := Option.map_eq_some_iff.mp he
    obtain ⟨rfl, -⟩ := Prod.mk.inj heq
    cases pc with
    | reclaim pc ret =>
      obtain ⟨r, -, heq⟩ := Option.map_eq_some_iff.mp hstep
      rw [← (Prod.mk.inj heq).1]
    | _ =>
      simp only [popStep] at hstep
      try split at hstep
      all_goals
        obtain ⟨rfl, -⟩ := Prod.mk.inj (Option.some.inj hstep)
        rfl
  | popRet ret =>
    obtain ⟨rfl, -⟩ := Prod.mk.inj (Option.some.inj he)
    rfl

end Nodes

/-! ## Runs -/

section Runs

variable {s : Config ι (Memory ι ν α) (Pc ι ν α)}
  {hist : List (Event ι (Config ι (Memory ι ν α) (Pc ι ν α)))}

theorem fifo_invariant (run : Run Init fifoProgram.Step s hist) : fifoAssertion.Holds s := by
  have hrun : Run Init (fifoProgram.StepIf fun _ _ _ _ => True) s hist :=
    run.mono fun t s s' h => Program.stepIf_true.mpr h
  exact fifoAssertion_kept.run (fun _ h => fifoAssertion_init h) hrun

/-- **`pushed` and `popped` are what the calls have done.** -/
theorem linearizableTo_history (run : Run Init fifoProgram.Step s hist) :
    LinearizableTo (history α) (fifoInterface.trace hist) (s.mem.pushed, s.mem.popped) := by
  have hrun : Run Init (fifoProgram.StepIf fun _ _ _ _ => True) s hist :=
    run.mono fun t s s' h => Program.stepIf_true.mpr h
  refine hrun.linearizableTo (history α) (fun _ m pc => pc.client m)
    (fun m => (m.pushed, m.popped)) ?_ ?_ ?_
  · rintro s ⟨-, -, -, -, -, hpushed, hpopped, hloc⟩
    refine ⟨Prod.ext hpushed hpopped, fun t => ?_⟩
    rw [hloc t]
    rfl
  · rintro t s s' ⟨hist, hr⟩ ⟨-, hs⟩ u -
    obtain ⟨g, hI, hT⟩ := fifo_invariant (hr.mono fun _ _ _ h => h.2)
    obtain ⟨c, he⟩ := hs.exec
    exact client_of_value hI (hT u) fun x hx => value_of_exec he hx
  · rintro t s s' - ⟨-, hs⟩
    obtain ⟨c, he⟩ := hs.exec
    exact (move_of_exec he).goes

/-- Nothing is left to pop, or the push behind the head has not written its link. -/
def EmptyOrUnlinked (e : Event ι (Config ι (Memory ι ν α) (Pc ι ν α))) : Prop :=
  e.pre.mem.popped.length = e.pre.mem.pushed.length ∨
    ∃ u n, e.pre.loc u = .push (.linkPrev n e.pre.mem.head)

/-- An exactly-once fifo that does not touch reclaimed nodes, in state `s`
reached by `hist`. -/
structure MpmcPromise (s : Config ι (Memory ι ν α) (Pc ι ν α))
    (hist : List (Event ι (Config ι (Memory ι ν α) (Pc ι ν α)))) : Prop where
  /-- What a thread accesses next has been passed to the fifo, and not been
  reclaimed since. -/
  live : ∀ t, ∀ x ∈ (s.loc t).accesses, s.mem.given x = s.mem.hazard.gced x + 1
  /-- A node is not passed to a push again while a thread that has validated it
  is not done with it. -/
  incarnation : ∀ t, ∀ x ∈ (s.loc t).validated, ¬ During (fun s => x ∈ (s.loc t).validated)
    (fun e => e.post.mem.given x ≠ e.pre.mem.given x) hist
  fifo : s.mem.popped <+: s.mem.pushed
  /-- `pushed` and `popped` are what the calls have done: each pop that has returned a value has
  appended this value to `popped`, and each push that has returned its value to `pushed`, once and
  at one instant of the call; no other call but one in progress has appended anything. -/
  calls : LinearizableTo (history α) (fifoInterface.trace hist) (s.mem.pushed, s.mem.popped)
  /-- `gc_function` is called at most once for each time a node is passed. -/
  once : ∀ x, s.mem.hazard.gced x ≤ s.mem.given x
  null : ∀ t, s.loc t = .popRet none →
    During (fun s => s.loc t ≠ .hazard .idle) EmptyOrUnlinked hist

/-- A pop that is going to return nothing, or returns it. -/
def Pc.FoundNothing (pc : Pc ι ν α) : Prop :=
  pc = .pop .doneEmpty ∨ pc = .popRet none

/-- The one access after which a pop returns nothing. -/
theorem readPrev_of_exec {t : ι} {c : Choice ν α} {m m' : Memory ι ν α} {pc pc' : Pc ι ν α}
    (he : exec t c m pc = some (m', pc')) (hn : ¬ pc.FoundNothing) (hm : pc'.FoundNothing) :
    ∃ h, pc = .pop (.readPrev h) ∧ m.prev h = none := by
  cases pc with
  | hazard pc =>
    exfalso
    by_cases hidle : pc = .idle
    · subst hidle
      cases c <;> simp only [exec, Option.ite_none_right_eq_some, Option.some.injEq,
        Prod.mk.injEq, reduceCtorEq] at he
      case push => simp [Pc.FoundNothing, ← he.2.2] at hm
      all_goals simp [Pc.FoundNothing, ← he.2] at hm
    · rw [exec_hazard hidle] at he
      obtain ⟨r, -, heq⟩ := Option.map_eq_some_iff.mp he
      simp [Pc.FoundNothing, ← (Prod.mk.inj heq).2] at hm
  | push pc =>
    obtain ⟨-, heq⟩ := Prod.mk.inj (Option.some.inj he)
    rw [← heq] at hm
    cases hr : (pushStep t m pc).2 <;> simp [Pc.FoundNothing, hr] at hm
  | popRet ret =>
    obtain ⟨-, heq⟩ := Prod.mk.inj (Option.some.inj he)
    simp [Pc.FoundNothing, ← heq] at hm
  | pop pc =>
    obtain ⟨⟨m₁, r⟩, hstep, heq⟩ := Option.map_eq_some_iff.mp he
    obtain ⟨-, heq⟩ := Prod.mk.inj heq
    rw [← heq] at hm
    cases pc with
    | readPrev h =>
      refine ⟨h, rfl, ?_⟩
      simp only [popStep] at hstep
      cases hprev : m.prev h with
      | none => rfl
      | some p =>
        rw [hprev] at hstep
        obtain ⟨-, rfl⟩ := Prod.mk.inj (Option.some.inj hstep)
        simp [Pc.FoundNothing] at hm
    | doneEmpty => exact absurd (.inl rfl) hn
    | reclaim pc ret =>
      -- a pop that reclaims returns a value
      obtain ⟨r', -, heq'⟩ := Option.map_eq_some_iff.mp hstep
      rw [← (Prod.mk.inj heq').2] at hm
      split at hm <;> simp [Pc.FoundNothing] at hm
    | _ =>
      simp only [popStep] at hstep
      try split at hstep
      all_goals
        obtain ⟨-, rfl⟩ := Prod.mk.inj (Option.some.inj hstep)
        simp [Pc.FoundNothing] at hm

/-- The access at which a pop finds nothing. -/
theorem null_during {t : ι} (run : Run Init fifoProgram.Step s hist)
    (hret : s.loc t = .popRet none) :
    During (fun s => s.loc t ≠ .hazard .idle) EmptyOrUnlinked hist := by
  have hrun : Run Init (fifoProgram.StepIf fun _ _ _ _ => True) s hist :=
    run.mono fun t s s' h => Program.stepIf_true.mpr h
  refine Run.during_of_local Pc.FoundNothing (· ≠ .hazard .idle) ?_ ?_ ?_ ?_ hrun (.inr hret)
  · intro s h0 hm
    obtain ⟨-, -, -, -, -, -, -, hloc⟩ := h0
    rw [hloc t] at hm
    simp [Pc.FoundNothing] at hm
  · -- a call starts with nothing found yet
    intro c m pc m' pc' he hm hpc
    subst hpc
    have he : exec t c m (.hazard .idle) = some (m', pc') := he
    obtain ⟨h, hpc, -⟩ := readPrev_of_exec he (by simp [Pc.FoundNothing]) hm
    cases hpc
  · intro pc hm
    rcases hm with rfl | rfl <;> simp
  · intro s s' ⟨hist, hr⟩ hs hn hm
    obtain ⟨g, hI, hT⟩ := fifo_invariant (hr.mono fun _ _ _ h => h.2)
    obtain ⟨c, he⟩ := hs.2.exec
    obtain ⟨h, hpc, hprev⟩ := readPrev_of_exec he hn hm
    have hp := (hT t).pc
    rw [hpc] at hp
    obtain ⟨hhead, hempty⟩ := hI.empty_of_null hp hprev
    rcases hempty with hempty | ⟨u, b, hpend⟩
    · exact .inl hempty
    · exact .inr ⟨u, b, hhead ▸ (hT u).owes h b hpend⟩

/-- **Exactly once, first in first out, and never a reclaimed node**, for any
number of threads and every interleaving. -/
theorem mpmcFifo_exactly_once (run : Run Init fifoProgram.Step s hist) :
    MpmcPromise s hist := by
  obtain ⟨g, hI, hT⟩ := fifo_invariant run
  constructor
  case live =>
    intro t x hx
    exact live_of_accesses hI (hT t) hx
  case incarnation =>
    intro t x hx
    refine run.not_during_of_mark (fun s => x ∈ (s.loc t).validated) ?_ hx
    intro u s s' ⟨hist', run'⟩ hs _ hbusy
    obtain ⟨g', hI', hT'⟩ := fifo_invariant run'
    obtain ⟨c, he⟩ := hs.exec
    have hsame := given_of_exec he (live_of_validated hI' (hT' t) hbusy)
    exact ⟨hbusy, fun h => h hsame⟩
  case fifo => exact hI.popped_prefix
  case calls => exact linearizableTo_history run
  case once =>
    intro x
    rcases hI.given x with h | h
    · omega
    · have h : s.mem.given x = s.mem.hazard.gced x + 1 := h
      omega
  case null => exact fun t hret => null_during run hret

end Runs

/-- Thread 0 pushes node 1, thread 1 pops it and reclaims the dummy node 0 by a
scan, and thread 0 pushes node 0 again. -/
theorem mpmcFifo_exactly_once_reused_node :
    ∃ (s : Config Nat (Memory Nat Nat Nat) (Pc Nat Nat Nat)) (hist : _),
      Run Init fifoProgram.Step s hist ∧ s.mem.pushed = [10, 20] ∧ s.mem.popped = [10] ∧
        s.mem.given 0 = 2 ∧ MpmcPromise s hist := by
  have hstart : Run Init (fifoProgram (ι := Nat) (ν := Nat) (α := Nat)).Step (initial 0 0) [] :=
    .start (init_initial 0 0)
  obtain ⟨s, hist, run, hpushed, hpopped, hgiven⟩ := hstart.exists_of_schedule
    (q := fun s => s.mem.pushed = [10, 20] ∧ s.mem.popped = [10] ∧ s.mem.given 0 = 2)
    (List.flatten [[(0, .create)], List.replicate 2 (0, .step), [(1, .create)],
      List.replicate 5 (1, .step), [(0, .push 1 10)], List.replicate 8 (0, .step),
      [(1, .trypop)], List.replicate 13 (1, .step), [(1, .scan)], List.replicate 11 (1, .step),
      [(0, .push 0 20)], List.replicate 8 (0, .step)])
    (by decide +kernel)
  exact ⟨s, hist, run, hpushed, hpopped, hgiven, mpmcFifo_exactly_once run⟩

end FibConcurrent.MpmcFifo
