import FibConcurrent.MpmcFifo.Correct

/-!
# MpmcFifo — the slots that a call leaves set

A pop that goes back to the head of its loop keeps the node in slot 1. If the
next round finds the fifo empty, it clears slot 0 only: the node stays in slot 1
after the pop has returned NULL (`mpmcFifo_leaves_slot`). On every other path
all slots are cleared.
-/

namespace FibConcurrent.MpmcFifo

open FibConcurrent.Machine FibConcurrent.Data

variable {ι ν α : Type*}

/-- Inside `mpmc_fifo_push` or `mpmc_fifo_trypop`. -/
def Pc.inCall : Pc ι ν α → Bool
  | .push _ => true
  | .pop _ => true
  | _ => false

/-- The access after which the call of `t` returns. -/
def Returns (t : ι) (e : Event ι (Config ι (Memory ι ν α) (Pc ι ν α))) : Prop :=
  (e.pre.loc t).inCall = true ∧ (e.post.loc t).inCall = false

def InCall (t : ι) (s : Config ι (Memory ι ν α) (Pc ι ν α)) : Prop := (s.loc t).inCall = true

/-- Every slot of `t`'s record is NULL. -/
def SlotsNull (t : ι) (s : Config ι (Memory ι ν α) (Pc ι ν α)) : Prop :=
  ∀ n < hazardCount, s.mem.hazard.hazardPointers t n = none

/-- The pop goes back after it has filled slot 1: the head has moved at the
second check or at the CAS. -/
def Pc.goesBack (m : Memory ι ν α) : Pc ι ν α → Prop
  | .pop (.checkPrev head _) => head ≠ m.head
  | .pop (.swapHead head _ _) => m.head ≠ head
  | _ => False

def GoesBack (t : ι) (e : Event ι (Config ι (Memory ι ν α) (Pc ι ν α))) : Prop :=
  e.tid = t ∧ (e.pre.loc t).goesBack e.pre.mem

/-- The call of `t` went back after it had filled slot 1, and then read a null
link: what is left is to clear slot 0. -/
def FindsEmptyLate (t : ι) (s : Config ι (Memory ι ν α) (Pc ι ν α))
    (hist : List (Event ι (Config ι (Memory ι ν α) (Pc ι ν α)))) : Prop :=
  s.loc t = .pop .doneEmpty ∧ During (InCall t) (GoesBack t) hist

/-- The slots at each program point of a call that began with null slots; `back`
says whether the call went back. -/
def SlotFacts (t : ι) (hz : HazardPointer.Memory ι ν) (back : Prop) : Pc ι ν α → Prop
  | .push _ => hz.hazardPointers t 1 = none
  | .pop (.checkPrev ..) => hz.hazardPointers t 1 ≠ none
  | .pop (.readValue ..) => hz.hazardPointers t 1 ≠ none
  | .pop (.swapHead ..) => hz.hazardPointers t 1 ≠ none
  | .pop (.doneHead ..) => True
  | .pop (.donePrev ..) => hz.hazardPointers t 0 = none
  | .pop (.free ..) => hz.hazardPointers t 0 = none ∧ hz.hazardPointers t 1 = none
  | .pop (.reclaim ..) => hz.hazardPointers t 0 = none ∧ hz.hazardPointers t 1 = none
  | .pop _ => hz.hazardPointers t 1 ≠ none ↔ back
  | _ => True

variable [DecidableEq ι] [LinearOrder ν]

section Step

variable {m m' : Memory ι ν α} {g : Ghost ι ν} {t : ι} {back : Prop}

omit [LinearOrder ν] in
/-- What `hazard_pointer_using` and `hazard_pointer_done_using` leave in a slot. -/
theorem slot_update (hz : HazardPointer.Memory ι ν) (n k : Nat) (h : Option ν) :
    Function.update hz.hazardPointers t (Function.update (hz.hazardPointers t) n h) t k =
      if k = n then h else hz.hazardPointers t k := by
  rw [Function.update_self, Function.update_apply]

/-- A push leaves slot 1 alone, and clears slot 0 before it returns. -/
theorem slots_push (pc : PushPc ν) (hs : m.hazard.hazardPointers t 1 = none) :
    (pushStep t m pc).1.hazard.hazardPointers t 1 = none ∧
      ((pushStep t m pc).2 = none → (pushStep t m pc).1.hazard.hazardPointers t 0 = none) := by
  cases pc with
  | useTail n tail => simpa [pushStep, HazardPointer.usingSlot, slot_update] using hs
  | checkTail n tail =>
    simp only [pushStep]
    split <;> simpa [HazardPointer.markChecked] using hs
  | swapTail n tail =>
    simp only [pushStep]
    split <;> simpa using hs
  | doneUsing => simpa [pushStep, HazardPointer.doneUsing, slot_update] using hs
  | _ => simpa [pushStep] using hs

/-- **One access of a pop** keeps what the program point says about the slots. -/
theorem slotFacts_pop {pc : PopPc ι ν α} {r : PopPc ι ν α ⊕ Option α}
    (hI : Inv m g) (hT : ThreadFacts t m g (.pop pc)) (hs : SlotFacts t m.hazard back (.pop pc))
    (he : popStep t m pc = some (m', r)) :
    (∀ pc', r = .inl pc' →
      SlotFacts t m'.hazard ((Pc.pop pc).goesBack m ∨ back) (.pop pc')) ∧
    ∀ ret, r = .inr ret → m'.hazard.hazardPointers t 0 = none ∧
      (m'.hazard.hazardPointers t 1 ≠ none ↔ pc = .doneEmpty ∧ back) := by
  cases pc with
  | readHead =>
    obtain ⟨rfl, rfl⟩ := Prod.mk.inj (Option.some.inj he)
    simpa [SlotFacts, Pc.goesBack] using hs
  | useHead h =>
    obtain ⟨rfl, rfl⟩ := Prod.mk.inj (Option.some.inj he)
    simpa [SlotFacts, Pc.goesBack, HazardPointer.usingSlot, slot_update] using hs
  | checkHead h =>
    simp only [popStep] at he
    split at he
    all_goals
      obtain ⟨rfl, rfl⟩ := Prod.mk.inj (Option.some.inj he)
      simpa [SlotFacts, Pc.goesBack, HazardPointer.markChecked] using hs
  | readPrev h =>
    simp only [popStep] at he
    split at he
    all_goals
      obtain ⟨rfl, rfl⟩ := Prod.mk.inj (Option.some.inj he)
      simpa [SlotFacts, Pc.goesBack] using hs
  | doneEmpty =>
    obtain ⟨rfl, rfl⟩ := Prod.mk.inj (Option.some.inj he)
    simpa [SlotFacts, HazardPointer.doneUsing, slot_update] using hs
  | usePrev h p =>
    obtain ⟨rfl, rfl⟩ := Prod.mk.inj (Option.some.inj he)
    simp [SlotFacts, HazardPointer.usingSlot, slot_update]
  | checkPrev h p =>
    have hs : m.hazard.hazardPointers t 1 ≠ none := hs
    simp only [popStep] at he
    by_cases hhead : h = m.head
    · rw [if_pos hhead] at he
      obtain ⟨rfl, rfl⟩ := Prod.mk.inj (Option.some.inj he)
      simpa [SlotFacts, HazardPointer.markChecked] using hs
    · rw [if_neg hhead] at he
      obtain ⟨rfl, rfl⟩ := Prod.mk.inj (Option.some.inj he)
      simpa [SlotFacts, Pc.goesBack, hhead] using hs
  | readValue h p =>
    obtain ⟨rfl, rfl⟩ := Prod.mk.inj (Option.some.inj he)
    simpa [SlotFacts] using hs
  | swapHead h p ret =>
    have hs : m.hazard.hazardPointers t 1 ≠ none := hs
    simp only [popStep] at he
    by_cases hhead : m.head = h
    · rw [if_pos hhead] at he
      obtain ⟨rfl, rfl⟩ := Prod.mk.inj (Option.some.inj he)
      simp [SlotFacts]
    · rw [if_neg hhead] at he
      obtain ⟨rfl, rfl⟩ := Prod.mk.inj (Option.some.inj he)
      simpa [SlotFacts, Pc.goesBack, hhead] using hs
  | doneHead h ret =>
    obtain ⟨rfl, rfl⟩ := Prod.mk.inj (Option.some.inj he)
    simp [SlotFacts, HazardPointer.doneUsing, slot_update]
  | donePrev h ret =>
    obtain ⟨rfl, rfl⟩ := Prod.mk.inj (Option.some.inj he)
    simpa [SlotFacts, HazardPointer.doneUsing, slot_update] using hs
  | free h ret =>
    obtain ⟨rfl, rfl⟩ := Prod.mk.inj (Option.some.inj he)
    simpa [SlotFacts, HazardPointer.retire] using hs
  | reclaim pc ret =>
    obtain ⟨⟨hz, pc'⟩, hstep, heq⟩ := Option.map_eq_some_iff.mp he
    obtain ⟨rfl, rfl⟩ := Prod.mk.inj heq
    have hpc : pc = .idle → HazardPointer.Choice.step (ν := ν) = .scan := by
      rintro rfl
      simp [HazardPointer.exec] at hstep
    obtain ⟨-, -, -, -, heffect⟩ := HazardPointer.exec_internal hI.hazard hT.hazard hpc hstep
    have hs : hz.hazardPointers t 0 = none ∧ hz.hazardPointers t 1 = none := by
      rw [heffect.hazardPointers]
      exact hs
    constructor
    · intro pc'' heq
      split at heq
      · cases heq
      · cases heq
        exact hs
    · intro ret' _
      exact ⟨hs.1, by simp [hs.2]⟩

/-- One access inside a call. -/
theorem slotFacts_exec {c : Choice ν α} {pc pc' : Pc ι ν α} (hI : Inv m g)
    (hT : ThreadFacts t m g pc) (hin : pc.inCall = true) (hs : SlotFacts t m.hazard back pc)
    (he : exec t c m pc = some (m', pc')) :
    (pc'.inCall = true → SlotFacts t m'.hazard (pc.goesBack m ∨ back) pc') ∧
      (pc'.inCall = false → m'.hazard.hazardPointers t 0 = none ∧
        (m'.hazard.hazardPointers t 1 ≠ none ↔ pc = .pop .doneEmpty ∧ back)) := by
  cases pc with
  | hazard pc => cases hin
  | popRet ret => cases hin
  | push pc =>
    obtain ⟨rfl, rfl⟩ := Prod.mk.inj (Option.some.inj he)
    obtain ⟨hone, hzero⟩ := slots_push pc hs
    cases hr : (pushStep t m pc).2 with
    | none => exact ⟨fun h => absurd h (by simp [Pc.inCall]), fun _ => ⟨hzero hr, by simp [hone]⟩⟩
    | some pc' => exact ⟨fun _ => hone, fun h => absurd h (by simp [Pc.inCall])⟩
  | pop pc =>
    obtain ⟨⟨m₁, r⟩, hstep, heq⟩ := Option.map_eq_some_iff.mp he
    obtain ⟨rfl, rfl⟩ := Prod.mk.inj heq
    obtain ⟨hleft, hright⟩ := slotFacts_pop hI hT hs hstep
    cases r with
    | inl pc' => exact ⟨fun _ => hleft pc' rfl, fun h => absurd h (by simp [Pc.inCall])⟩
    | inr ret =>
      obtain ⟨hzero, hone⟩ := hright ret rfl
      refine ⟨fun h => absurd h (by simp [Pc.inCall]), fun _ => ⟨hzero, ?_⟩⟩
      rw [hone]
      simp

/-- Where a call begins. -/
theorem slotFacts_start {c : Choice ν α} {pc pc' : Pc ι ν α} (hin : pc.inCall = false)
    (hin' : pc'.inCall = true) (hs : m.hazard.hazardPointers t 1 = none)
    (he : exec t c m pc = some (m', pc')) : SlotFacts t m'.hazard False pc' := by
  cases pc with
  | push pc => cases hin
  | pop pc => cases hin
  | popRet ret =>
    obtain ⟨rfl, rfl⟩ := Prod.mk.inj (Option.some.inj he)
    cases hin'
  | hazard hpc =>
    by_cases hidle : hpc = .idle
    · subst hidle
      cases c <;> simp only [exec, Option.ite_none_right_eq_some, Option.some.injEq,
        Prod.mk.injEq, reduceCtorEq] at he
      case push n v =>
        obtain ⟨-, rfl, rfl⟩ := he
        exact hs
      case trypop =>
        obtain ⟨rfl, rfl⟩ := he
        simpa [SlotFacts] using hs
      case scan =>
        obtain ⟨-, rfl⟩ := he
        cases hin'
    · rw [exec_hazard hidle] at he
      obtain ⟨r, -, heq⟩ := Option.map_eq_some_iff.mp he
      rw [← (Prod.mk.inj heq).2] at hin'
      cases hin'

end Step

/-! ## Runs -/

section Runs

variable {s : Config ι (Memory ι ν α) (Pc ι ν α)}
  {hist : List (Event ι (Config ι (Memory ι ν α) (Pc ι ν α)))} {t : ι}

/-- A call that began with null slots has them as its program point says. -/
theorem slotFacts_run (run : Run Init fifoProgram.Step s hist) (hin : InCall t s)
    (hstart : Began (InCall t) (SlotsNull t) s hist) :
    SlotFacts t s.mem.hazard (During (InCall t) (GoesBack t) hist) (s.loc t) := by
  have hall : InCall t s → Began (InCall t) (SlotsNull t) s hist →
      SlotFacts t s.mem.hazard (During (InCall t) (GoesBack t) hist) (s.loc t) := by
    refine run.invariant_hist (J := fun s hist => InCall t s →
      Began (InCall t) (SlotsNull t) s hist →
      SlotFacts t s.mem.hazard (During (InCall t) (GoesBack t) hist) (s.loc t)) ?_ ?_
    · intro s h0 hin
      obtain ⟨-, -, -, -, -, -, -, hloc⟩ := h0
      unfold InCall at hin
      rw [hloc t] at hin
      cases hin
    · intro u s s' hist hrun ih hs hin hstart
      obtain ⟨g, hI, hT⟩ := fifo_invariant hrun
      obtain ⟨c, he⟩ := hs.exec
      rw [began_cons hin] at hstart
      by_cases hpre : InCall t s
      · have hfacts := ih hpre hstart
        rw [during_cons]
        simp only [hpre, true_and]
        by_cases hut : u = t
        · subst hut
          have hnext := (slotFacts_exec hI (hT u) hpre hfacts he).1 hin
          simpa [GoesBack] using hnext
        · -- the slots of `t` are its own
          have hloc : s'.loc t = s.loc t := hs.loc_of_ne (Ne.symm hut)
          obtain ⟨g', -, -, hk⟩ := exec_spec hI (hT u) he
          have hslots := (hk t (Ne.symm hut)).slots
          have hback : (GoesBack t ⟨u, s, s'⟩ ∨ During (InCall t) (GoesBack t) hist) ↔
              During (InCall t) (GoesBack t) hist := by
            simp [GoesBack, hut]
          rw [hback, hloc]
          unfold SlotFacts at hfacts ⊢
          rw [hslots]
          exact hfacts
      · have hut : u = t := by
          by_contra hut
          apply hpre
          unfold InCall
          rw [← hs.loc_of_ne (Ne.symm hut)]
          exact hin
        subst hut
        rw [began_of_not_busy hpre] at hstart
        have hnone : ¬ During (InCall u) (GoesBack u) (⟨u, s, s'⟩ :: hist) := by
          rw [during_cons]
          exact fun h => hpre h.1
        have hfacts := slotFacts_start (by simpa [InCall] using hpre) hin
          (hstart 1 (by decide)) he
        rwa [← eq_false hnone] at hfacts
  exact hall hin hstart

/-- **A call that began with null slots leaves them null, exactly if it did not
find the fifo empty after it had gone back with slot 1 set**, in every
interleaving of any number of threads. -/
theorem mpmcFifo_slots_null {e : Event ι (Config ι (Memory ι ν α) (Pc ι ν α))}
    (run : Run Init fifoProgram.Step s (e :: hist)) (hret : Returns t e)
    (hstart : Began (InCall t) (SlotsNull t) e.pre hist) :
    SlotsNull t e.post ↔ ¬ FindsEmptyLate t e.pre hist := by
  obtain ⟨hpre, hpost⟩ := hret
  cases run with
  | @next s₀ _ u _ run hs =>
    obtain ⟨g, hI, hT⟩ := fifo_invariant run
    obtain ⟨c, he⟩ := hs.exec
    have hut : u = t := by
      by_contra hut
      have hloc : s.loc t = s₀.loc t := hs.loc_of_ne (Ne.symm hut)
      simp only [hloc, hpre] at hpost
      cases hpost
    subst hut
    have hfacts := slotFacts_run run hpre hstart
    obtain ⟨hzero, hone⟩ := (slotFacts_exec hI (hT u) hpre hfacts he).2 hpost
    show SlotsNull u s ↔ ¬ FindsEmptyLate u s₀ hist
    rw [FindsEmptyLate, ← hone, not_not]
    constructor
    · intro hnull
      exact hnull 1 (by decide)
    · intro h1 n hn
      obtain rfl | rfl : n = 0 ∨ n = 1 := by
        unfold hazardCount at hn
        omega
      · exact hzero
      · exact h1

end Runs

/-! ## Two runs -/

instance (t : Nat) : DecidablePred (InCall t : Config Nat (Memory Nat Nat Nat) _ → Prop) :=
  fun s => inferInstanceAs (Decidable ((s.loc t).inCall = true))

instance (t : Nat) : DecidablePred (SlotsNull t : Config Nat (Memory Nat Nat Nat) _ → Prop) :=
  fun s => inferInstanceAs
    (Decidable (∀ n < hazardCount, s.mem.hazard.hazardPointers t n = none))

/-- A run in which the call of thread 0 returns in its next step. -/
theorem run_of_return {s : Config Nat (Memory Nat Nat Nat) (Pc Nat Nat Nat)}
    {hist : List (Event Nat (Config Nat (Memory Nat Nat Nat) (Pc Nat Nat Nat)))}
    {m : Memory Nat Nat Nat} {pc pc' : Pc Nat Nat Nat} (run : Run Init fifoProgram.Step s hist)
    (hloc : s.loc 0 = pc) (he : exec 0 .step s.mem pc = some (m, pc')) (hin : pc.inCall = true)
    (hout : pc'.inCall = false) :
    Run Init fifoProgram.Step ⟨m, Function.update s.loc 0 pc'⟩
        (⟨0, s, ⟨m, Function.update s.loc 0 pc'⟩⟩ :: hist) ∧
      Returns 0 ⟨0, s, ⟨m, Function.update s.loc 0 pc'⟩⟩ := by
  have he' : fifoProgram.exec 0 .step s.mem (s.loc 0) = some (m, pc') := by
    rw [hloc]
    exact he
  refine ⟨run.next ⟨.step, Program.next_eq_some.mpr ⟨m, pc', he', rfl⟩⟩, ?_, ?_⟩
  · rw [hloc]
    exact hin
  · show (Function.update s.loc 0 pc' 0).inCall = false
    rw [Function.update_self]
    exact hout

/-- Two items are there when thread 0 begins to pop. Thread 1 pops the first one before thread 0
has checked its slot 1, so that thread 0 goes back with both slots set; in the second round it pops
20, and clears them. -/
theorem mpmcFifo_slots_null_second_round :
    ∃ (s : Config Nat (Memory Nat Nat Nat) (Pc Nat Nat Nat)) (e : _) (hist : _),
      Run Init fifoProgram.Step s (e :: hist) ∧ Returns 0 e ∧
        (∃ e ∈ hist, e.pre.loc 0 = .pop (.checkPrev 0 1) ∧ e.post.loc 0 = .pop .readHead) ∧
        e.post.mem.popped = [10, 20] ∧ Began (InCall 0) (SlotsNull 0) e.pre hist ∧
        (SlotsNull 0 e.post ↔ ¬ FindsEmptyLate 0 e.pre hist) := by
  have hstart : Run Init (fifoProgram (ι := Nat) (ν := Nat) (α := Nat)).Step (initial 0 0) [] :=
    .start (init_initial 0 0)
  obtain ⟨s, hist, run, hloc, hfew, hback, hpopped, hbegan⟩ := hstart.exists_of_history
    (q := fun s hist => s.loc 0 = .pop (.reclaim .readThreshold 20) ∧
      s.mem.hazard.retiredCount 0 < s.mem.hazard.retireThreshold 0 ∧
      (∃ e ∈ hist, e.pre.loc 0 = .pop (.checkPrev 0 1) ∧ e.post.loc 0 = .pop .readHead) ∧
      s.mem.popped = [10, 20] ∧ Began (InCall 0) (SlotsNull 0) s hist)
    (List.flatten [(0, .create) :: List.replicate 2 (0, .step),
      (1, .create) :: List.replicate 5 (1, .step), (1, .push 1 10) :: List.replicate 8 (1, .step),
      (1, .push 2 20) :: List.replicate 8 (1, .step), (0, .trypop) :: List.replicate 5 (0, .step),
      (1, .trypop) :: List.replicate 8 (1, .step), List.replicate 12 (0, .step)])
    (by decide +kernel)
  have hlast : exec 0 .step s.mem (.pop (.reclaim .readThreshold 20)) =
      some (s.mem, .popRet (some 20)) := by
    simp [exec, popStep, HazardPointer.exec, Nat.not_le_of_lt hfew]
  obtain ⟨run', hret⟩ := run_of_return run hloc hlast rfl rfl
  exact ⟨_, _, hist, run', hret, hback, hpopped, hbegan, mpmcFifo_slots_null run' hret hbegan⟩

/-- **A slot stays set**: thread 0 has put node 1 into slot 1 when thread 1 pops
it; thread 0 goes back, finds the fifo empty, and returns NULL with node 1 still
in slot 1. -/
theorem mpmcFifo_leaves_slot :
    ¬ ∀ (s : Config Nat (Memory Nat Nat Nat) (Pc Nat Nat Nat)) e hist,
      Run Init fifoProgram.Step s (e :: hist) → Returns 0 e →
        Began (InCall 0) (SlotsNull 0) e.pre hist → SlotsNull 0 e.post := by
  intro hclaim
  have hstart : Run Init (fifoProgram (ι := Nat) (ν := Nat) (α := Nat)).Step (initial 0 0) [] :=
    .start (init_initial 0 0)
  obtain ⟨s, hist, run, hloc, hslot, hbegan⟩ := hstart.exists_of_history
    (q := fun s hist => s.loc 0 = .pop .doneEmpty ∧ s.mem.hazard.hazardPointers 0 1 = some 1 ∧
      Began (InCall 0) (SlotsNull 0) s hist)
    (List.flatten [[(0, .create)], List.replicate 2 (0, .step), [(1, .create)],
      List.replicate 5 (1, .step), [(1, .push 1 10)], List.replicate 8 (1, .step),
      [(0, .trypop)], List.replicate 5 (0, .step), [(1, .trypop)], List.replicate 8 (1, .step),
      List.replicate 5 (0, .step)])
    (by decide +kernel)
  obtain ⟨run', hret⟩ := run_of_return run hloc rfl rfl rfl
  have hnull := hclaim _ _ hist run' hret hbegan 1 (by decide)
  have hkeeps : s.mem.hazard.hazardPointers 0 1 = none := by
    simpa [HazardPointer.doneUsing, slot_update] using hnull
  rw [hslot] at hkeeps
  cases hkeeps

end FibConcurrent.MpmcFifo
