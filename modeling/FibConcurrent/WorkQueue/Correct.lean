import FibConcurrent.WorkQueue.Invariant

/-!
# WorkQueue — one worker at a time, and no stranded work

Every access keeps the hand-off assertion (`workAssertion_kept`); the promise
about runs (`workQueue_hand_off`) is read off it.
-/

namespace FibConcurrent.WorkQueue

open FibConcurrent.Machine FibConcurrent.MpscFifo FibConcurrent.Data

variable {ι ν α : Type*}

/-- A step of `t` to `m'` and `l'` keeps the hand-off assertion. -/
def StepKeeps (t : ι) (m : Queue ν α) (g : WorkGhost ι ν α) (m' : Queue ν α) (l' : Thread ν α) :
    Prop :=
  ∃ g', WorkInv m' g' ∧ WorkFacts t m' g' l' ∧
    ∀ u, u ≠ t → ∀ k, WorkFacts u m g k → WorkFacts u m' g' k

section Kept

variable {t : ι} {m : Queue ν α} {g : WorkGhost ι ν α} {l l' : Thread ν α}

theorem keeps_refl (u : ι) (f : Fifo ν α) (g : Ghost ι ν α) : Keeps u f g f g :=
  ⟨fun _ hn => ⟨hn, rfl, rfl⟩, fun _ _ => Iff.rfl⟩

theorem keepsHead_refl (f : Fifo ν α) (g : Ghost ι ν α) : KeepsHead f g f g :=
  ⟨rfl, rfl, rfl, fun _ hn => ⟨hn, rfl⟩⟩

/-- While `t` is the worker nobody else is. -/
theorem ne_worker (hw : g.worker = some t) {u : ι} (hu : u ≠ t) : g.worker ≠ some u :=
  fun h => hu (Option.some.inj (h.symm.trans hw))

/-- `in_count` is never negative, and zero only without a worker. -/
theorem WorkInv.inCount_cases (hI : WorkInv m g) :
    g.worker = none ∧ m.inCount = 0 ∨ g.worker ≠ none ∧ 1 ≤ m.inCount := by
  by_cases hw : g.worker = none
  · exact .inl ⟨hw, (hI.idle hw).1⟩
  · exact .inr ⟨hw, hI.busy hw⟩

/-- The thread only moves on. -/
theorem stepKeeps_of_facts (hI : WorkInv m g) (hL : WorkFacts t m g l') :
    StepKeeps t m g m l' :=
  ⟨g, hI, hL, fun _ _ _ hk => hk⟩

/-- The call of the thread, as long as it stays what it is to the hand-off. -/
theorem WorkFacts.facts {pc : WorkPc ν α} (hL : WorkFacts t m g l) (hpc : l.pc = pc) :
    workFacts t m g ⟨l.working, pc⟩ := by
  subst hpc
  exact hL.call

/-- **The increment.** It yields 1 exactly when there is no worker, and then
makes its thread the worker. -/
theorem addIn_kept (hI : WorkInv m g) (hL : WorkFacts t m g l) {n : ν} (hpc : l.pc = .addIn n) :
    StepKeeps t m g { m with inCount := m.inCount + 1, counted := m.counted + 1 }
      { l with pc := .push (decide (m.inCount + 1 = 1)) (.clearNext n) } := by
  have hcall := hL.call
  unfold workFacts at hcall
  rw [hpc] at hcall
  obtain ⟨hp, hrest⟩ := hcall
  have hin := hI.inCount
  have hkeep : ∀ w, KeepsWork m g { m with inCount := m.inCount + 1, counted := m.counted + 1 }
      { g with worker := w } := fun w =>
    ⟨keepsHead_refl .., rfl, rfl, rfl, by show m.inCount ≤ m.inCount + 1; omega⟩
  rcases hI.inCount_cases with ⟨hnone, hzero⟩ | ⟨hsome, hpos⟩
  · -- nobody works: this thread becomes the worker
    obtain ⟨-, hout, hdel, hfifo⟩ := hI.idle hnone
    have hstart : m.inCount + 1 = 1 := by omega
    refine ⟨{ g with worker := some t }, ?_, ?_, ?_⟩
    · refine ⟨hI.fifo, by show m.inCount + 1 = ((m.counted + 1 : Nat) : Int) - g.taken; omega,
        by simp, fun _ => ?_⟩
      show 1 ≤ m.inCount + 1
      omega
    · refine ⟨fun a b hab => ?_, by simp [IsWorker, hstart], hp, fun _ => ⟨?_, hfifo⟩⟩
      · have := hL.owes a b hab
        simp [hpc, WorkPc.pushing] at this
      · show m.outCount = m.delivered.length - g.taken
        omega
    · intro u hu k hk
      refine hk.keep (keeps_refl ..) ?_ (hkeep _)
      simp [hnone, Ne.symm hu]
  · -- somebody works already: the push only counts itself
    have hstart : m.inCount + 1 ≠ 1 := by omega
    refine ⟨g, ?_, ?_, fun u _ k hk => hk.keep (keeps_refl ..) Iff.rfl (hkeep g.worker)⟩
    · refine ⟨hI.fifo, by show m.inCount + 1 = ((m.counted + 1 : Nat) : Int) - g.taken; omega,
        fun h => absurd h hsome, fun _ => ?_⟩
      show 1 ≤ m.inCount + 1
      omega
    · have hworker : IsWorker (⟨l.working, .push (decide (m.inCount + 1 = 1)) (.clearNext n)⟩ :
          Thread ν α) ↔ IsWorker l := by simp [IsWorker, hstart, hpc]
      refine ⟨fun a b hab => ?_, hworker.trans hL.worker, hp, fun hl => ?_⟩
      · have := hL.owes a b hab
        simp [hpc, WorkPc.pushing] at this
      · exact (hrest (hworker.mp hl)).keep (hkeep g.worker)

/-- **The subtraction.** What is left in `in_count` is what was counted but not
delivered; at zero the worker is gone. -/
theorem subIn_kept (hI : WorkInv m g) (hL : WorkFacts t m g l) {old : Int}
    (hpc : l.pc = .subIn old) :
    (m.inCount - old = m.counted - m.delivered.length) ∧
      StepKeeps t m g { m with inCount := m.inCount - old }
        (if m.inCount - old = 0 then { working := false, pc := .emptyRet }
          else { l with pc := .trypop .readHead }) := by
  have hcall := hL.call
  unfold workFacts at hcall
  rw [hpc] at hcall
  obtain ⟨hw, hout, hold, hold1, hle, hfifo⟩ := hcall
  have hworker : g.worker = some t := hL.worker.mp (.inl hw)
  have hin := hI.inCount
  have hleft : m.inCount - old = m.counted - m.delivered.length := by omega
  refine ⟨hleft, ?_⟩
  have hnoowe : Owes t g.fifo none := fun a b hab => by
    have := hL.owes a b hab
    simp [hpc, WorkPc.pushing] at this
  by_cases hzero : m.inCount - old = 0
  · refine ⟨{ g with worker := none, taken := g.taken + old }, ?_, ?_, fun u hu k hk => ?_⟩
    · refine ⟨hI.fifo, ?_, fun _ => ⟨hzero, hout, ?_, hfifo⟩, by simp⟩
      · show m.inCount - old = m.counted - (g.taken + old)
        omega
      · show (m.delivered.length : Int) = g.taken + old
        omega
    · rw [if_pos hzero]
      exact ⟨hnoowe, by simp [IsWorker], rfl⟩
    · exact hk.keep_idle (keeps_refl ..) (ne_worker hworker hu) (by simp)
  · refine ⟨{ g with taken := g.taken + old }, ?_, ?_, fun u hu k hk => ?_⟩
    · refine ⟨hI.fifo, ?_, fun h => ?_, fun _ => ?_⟩
      · show m.inCount - old = m.counted - (g.taken + old)
        omega
      · simp [hworker] at h
      · show 1 ≤ m.inCount - old
        omega
    · rw [if_neg hzero]
      refine ⟨hnoowe, by simp [IsWorker, hw, hworker], hw, ?_, hfifo⟩
      show m.outCount = m.delivered.length - (g.taken + old)
      omega
    · exact hk.keep_idle (keeps_refl ..) (ne_worker hworker hu) (ne_worker hworker hu)

section Steps

variable [DecidableEq ν]

/-- A client passes an item to `work_queue_push`. -/
theorem acquire_kept (hI : WorkInv m g) (hL : WorkFacts t m g l) (hpc : l.pc = .idle) {n : ν}
    (hn : m.owned n = true) (d : α) :
    StepKeeps t m g { m with
        owned := Function.update m.owned n false
        fifo := { m.fifo with data := Function.update m.fifo.data n d } }
      { l with pc := .addIn n } := by
  obtain ⟨gf, hI', hp, hk, hh⟩ := hI.fifo.acquire hn t d
  have hkw : KeepsWork m g { m with
      owned := Function.update m.owned n false
      fifo := { m.fifo with data := Function.update m.fifo.data n d } }
      { g with fifo := gf } := ⟨hh, rfl, rfl, rfl, Int.le_refl _⟩
  have hworker : IsWorker (⟨l.working, .addIn n⟩ : Thread ν α) ↔ IsWorker l := by
    simp [IsWorker, hpc]
  refine ⟨{ g with fifo := gf }, ⟨hI', hI.inCount, fun h => ?_, hI.busy⟩, ⟨?_, ?_, hp, ?_⟩,
    fun u _ k hu => hu.keep (hk u) Iff.rfl hkw⟩
  · obtain ⟨h1, h2, h3, h4⟩ := hI.idle h
    exact ⟨h1, h2, h3, hh.out.trans h4⟩
  · intro a b hab
    have howes := hL.owes a b (((hk t).pend a b).mp hab)
    simp [hpc, WorkPc.pushing] at howes
  · exact hworker.trans hL.worker
  · intro hl
    have hcall := hL.facts hpc
    exact Rests.keep (hcall (by simpa [IsWorker] using hl)) hkw

/-- A client stores to an item that it owns. -/
theorem write_kept (hI : WorkInv m g) (hL : WorkFacts t m g l) {n : ν} (hn : m.owned n = true)
    (d : α) (x : Option ν) :
    StepKeeps t m g { m with fifo := { m.fifo with
        data := Function.update m.fifo.data n d
        next := Function.update m.fifo.next n x } } l := by
  obtain ⟨hI', hk, hh⟩ := hI.fifo.write hn d x
  have hkw : KeepsWork m g { m with fifo := { m.fifo with
      data := Function.update m.fifo.data n d
      next := Function.update m.fifo.next n x } } g := ⟨hh, rfl, rfl, rfl, Int.le_refl _⟩
  exact ⟨g, ⟨hI', hI.inCount, hI.idle, hI.busy⟩, hL.keep (hk t) Iff.rfl hkw,
    fun u _ k hu => hu.keep (hk u) Iff.rfl hkw⟩

/-- One access of the push into the fifo. -/
theorem push_kept (hI : WorkInv m g) (hL : WorkFacts t m g l) {start : Bool} {pc : PushPc ν}
    (hpc : l.pc = .push start pc) :
    StepKeeps t m g { m with fifo := (pushStep m.fifo pc).1 }
      { l with pc := match (pushStep m.fifo pc).2 with
        | some pc' => .push start pc'
        | none => .pushRet start } := by
  have howes := hL.owes
  rw [hpc] at howes
  obtain ⟨hpush, hrest⟩ : PushFacts t m.fifo g.fifo pc ∧ _ := hL.facts hpc
  obtain ⟨gf, hI', hp, ho', hk, hh⟩ := pushStep_spec hI.fifo hpush howes
  have hkw : KeepsWork m g { m with fifo := (pushStep m.fifo pc).1 } { g with fifo := gf } :=
    ⟨hh, rfl, rfl, rfl, Int.le_refl _⟩
  refine ⟨{ g with fifo := gf }, ⟨hI', hI.inCount, fun h => ?_, hI.busy⟩, ?_,
    fun u hu k h => h.keep (hk u hu) Iff.rfl hkw⟩
  · obtain ⟨h1, h2, h3, h4⟩ := hI.idle h
    exact ⟨h1, h2, h3, hh.out.trans h4⟩
  · have hold : ∀ pc' : PushPc ν, IsWorker (⟨l.working, .push start pc'⟩ : Thread ν α) ↔
        IsWorker l := by
      intro pc'
      simp [IsWorker, hpc]
    have hret : IsWorker (⟨l.working, .pushRet start⟩ : Thread ν α) ↔ IsWorker l := by
      simp [IsWorker, hpc]
    have hrest' : IsWorker l → Rests { m with fifo := (pushStep m.fifo pc).1 }
        { g with fifo := gf } := fun hl => (hrest ((hold pc).mpr hl)).keep hkw
    cases hnext : (pushStep m.fifo pc).2 with
    | none =>
      rw [hnext] at ho'
      exact ⟨ho', hret.trans hL.worker, fun hl => hrest' (hret.mp hl)⟩
    | some pc' =>
      rw [hnext] at ho'
      exact ⟨ho', (hold pc').trans hL.worker, hp pc' hnext, fun hl => hrest' ((hold pc').mp hl)⟩

/-- One access of the worker's pop from the fifo. -/
theorem trypop_kept (hI : WorkInv m g) (hL : WorkFacts t m g l) {pc : PopPc ν α}
    (hpc : l.pc = .trypop pc) :
    StepKeeps t m g { m with fifo := (popStep m.fifo pc).1 }
      { l with pc := match (popStep m.fifo pc).2 with
        | .inl pc' => .trypop pc'
        | .inr none => .readOut
        | .inr (some item) => .readOutInc item } := by
  have howes := hL.owes
  rw [hpc] at howes
  obtain ⟨hw, hout, hp⟩ := hL.facts hpc
  have hw : l.working = true := hw
  have hworker : g.worker = some t := hL.worker.mp (.inl hw)
  obtain ⟨gf, hI', hpend, hp', hk, hnull, hret⟩ := popStep_spec hI.fifo hp
  have hnone : Owes t gf none := fun a b hab => howes a b (hpend ▸ hab)
  refine ⟨{ g with fifo := gf }, ⟨hI', hI.inCount, fun h => ?_, hI.busy⟩, ?_, ?_⟩
  · simp [hworker] at h
  · cases hnext : (popStep m.fifo pc).2 with
    | inl pc' =>
      exact ⟨hnone, by simp [IsWorker, hw, hworker], hw, hout, hp' pc' hnext⟩
    | inr r =>
      cases r with
      | none =>
        obtain ⟨hgf, hfifo, -⟩ := hnull hnext
        subst hgf
        exact ⟨hnone, by simp [IsWorker, hw, hworker], hw, hout, hfifo⟩
      | some n =>
        obtain ⟨hheld, hfifo⟩ := hret n hnext
        exact ⟨hnone, by simp [IsWorker, hw, hworker], hw, hout, hheld, hfifo⟩
  · intro u hu k h
    exact h.keep_idle (hk u hu) (ne_worker hworker hu) (ne_worker hworker hu)

omit [DecidableEq ν] in
/-- The worker writes `out_count`, which is its own. -/
theorem outCount_kept (hI : WorkInv m g) (hL : WorkFacts t m g l) (hw : l.working = true)
    {out : Int} (hfacts : WorkFacts t { m with outCount := out } g l') :
    StepKeeps t m g { m with outCount := out } l' := by
  have hworker : g.worker = some t := hL.worker.mp (.inl hw)
  refine ⟨g, ⟨hI.fifo, hI.inCount, fun h => ?_, hI.busy⟩, hfacts, fun u hu k h => ?_⟩
  · simp [hworker] at h
  · exact h.keep_idle (keeps_refl ..) (ne_worker hworker hu) (ne_worker hworker hu)

/-- The worker returns from `work_queue_get_work` with an item. -/
theorem moreRet_kept (hI : WorkInv m g) (hL : WorkFacts t m g l) {n : ν}
    (hpc : l.pc = .moreRet n) :
    StepKeeps t m g { m with
        owned := Function.update m.owned n true
        delivered := m.delivered ++ [m.fifo.data n] }
      { l with pc := .idle } := by
  have howes := hL.owes
  rw [hpc] at howes
  obtain ⟨hw, hout, hheld, hfifo⟩ := hL.facts hpc
  have hw : l.working = true := hw
  have hworker : g.worker = some t := hL.worker.mp (.inl hw)
  obtain ⟨hI', hk⟩ := hI.fifo.release hheld
  refine ⟨{ g with fifo := { g.fifo with held := Function.update g.fifo.held n none } },
    ⟨hI', hI.inCount, fun h => ?_, hI.busy⟩, ⟨howes, ?_, fun _ => ⟨?_, hfifo⟩⟩, fun u hu k h => ?_⟩
  · simp [hworker] at h
  · exact Iff.trans (by simp [IsWorker, hpc]) hL.worker
  · show m.outCount = ((m.delivered ++ [m.fifo.data n]).length : Int) - g.taken
    rw [List.length_append]
    simp only [List.length_singleton]
    omega
  · exact h.keep_idle (hk u hu) (ne_worker hworker hu) (ne_worker hworker hu)

/-- **Every step of every thread keeps the hand-off assertion.** -/
theorem workAssertion_kept :
    (workAssertion (ι := ι) (ν := ν) (α := α)).Kept workProgram (fun _ _ _ _ => True) := by
  intro t c m l m' l' g hI hL _ he
  have hcall := hL.call
  have howes := hL.owes
  have hsame : ∀ pc, (IsWorker (⟨l.working, pc⟩ : Thread ν α) ↔ IsWorker l) →
      (IsWorker (⟨l.working, pc⟩ : Thread ν α) ↔ g.worker = some t) := fun _ h => h.trans hL.worker
  unfold workFacts at hcall
  simp only [workProgram, workExec] at he
  cases hpc : l.pc with
  | idle =>
    rw [hpc] at hcall howes
    simp only [hpc] at he
    cases c with
    | push n d =>
      simp only [Option.ite_none_right_eq_some, Option.some.injEq, Prod.mk.injEq] at he
      obtain ⟨hn, rfl, rfl⟩ := he
      exact acquire_kept hI hL hpc hn d
    | getWork =>
      simp only [Option.ite_none_right_eq_some, Option.some.injEq, Prod.mk.injEq] at he
      obtain ⟨hw, rfl, rfl⟩ := he
      obtain ⟨hout, hfifo⟩ := hcall (.inl hw)
      exact stepKeeps_of_facts hI ⟨howes, hsame _ (by simp [IsWorker, hpc]), hw, hout, hfifo⟩
    | write n d x =>
      simp only [Option.ite_none_right_eq_some, Option.some.injEq, Prod.mk.injEq] at he
      obtain ⟨hn, rfl, rfl⟩ := he
      exact write_kept hI hL hn d x
    | step => simp at he
  | addIn n =>
    simp only [hpc, Option.some.injEq, Prod.mk.injEq] at he
    obtain ⟨rfl, rfl⟩ := he
    exact addIn_kept hI hL hpc
  | push start pc =>
    simp only [hpc, Option.some.injEq, Prod.mk.injEq] at he
    obtain ⟨rfl, rfl⟩ := he
    exact push_kept hI hL hpc
  | pushRet start =>
    rw [hpc] at hcall howes
    simp only [hpc, Option.some.injEq, Prod.mk.injEq] at he
    obtain ⟨rfl, rfl⟩ := he
    have hworker : IsWorker (⟨l.working || start, .idle⟩ : Thread ν α) ↔ IsWorker l := by
      cases start <;> simp [IsWorker, hpc]
    exact stepKeeps_of_facts hI
      ⟨howes, hworker.trans hL.worker, fun hl => hcall (hworker.mp hl)⟩
  | trypop pc =>
    simp only [hpc, Option.some.injEq, Prod.mk.injEq] at he
    obtain ⟨rfl, rfl⟩ := he
    exact trypop_kept hI hL hpc
  | readOut =>
    rw [hpc] at hcall howes
    simp only [hpc, Option.some.injEq, Prod.mk.injEq] at he
    obtain ⟨rfl, rfl⟩ := he
    exact stepKeeps_of_facts hI
      ⟨howes, hsame _ (by simp [IsWorker, hpc]), hcall.1, hcall.2, rfl⟩
  | readIn out =>
    rw [hpc] at hcall howes
    simp only [hpc, Option.some.injEq, Prod.mk.injEq] at he
    obtain ⟨rfl, rfl⟩ := he
    obtain ⟨hw, hrest, hout⟩ := hcall
    have hworker : g.worker = some t := hL.worker.mp (.inl hw)
    have hpos := hI.busy (by simp [hworker])
    apply stepKeeps_of_facts hI
    by_cases heq : out = m.inCount
    · rw [if_pos heq]
      exact ⟨howes, by simp [IsWorker, hw, hworker], hw, hrest, by omega, by omega⟩
    · rw [if_neg heq]
      exact ⟨howes, by simp [IsWorker, hw, hworker], hw, hrest.1, hrest.2⟩
  | readOldOut =>
    rw [hpc] at hcall howes
    simp only [hpc, Option.some.injEq, Prod.mk.injEq] at he
    obtain ⟨rfl, rfl⟩ := he
    obtain ⟨hw, hrest, h1, h2⟩ := hcall
    exact stepKeeps_of_facts hI
      ⟨howes, hsame _ (by simp [IsWorker, hpc]), hw, hrest, rfl, h1, h2⟩
  | zeroOut old =>
    rw [hpc] at hcall howes
    simp only [hpc, Option.some.injEq, Prod.mk.injEq] at he
    obtain ⟨rfl, rfl⟩ := he
    obtain ⟨hw, hrest, hold, h1, h2⟩ := hcall
    apply outCount_kept hI hL hw
    exact ⟨howes, hsame _ (by simp [IsWorker, hpc]), hw, rfl, hold.trans hrest.1, h1, h2, hrest.2⟩
  | subIn old =>
    simp only [hpc, Option.some.injEq, Prod.mk.injEq] at he
    obtain ⟨rfl, rfl⟩ := he
    exact (subIn_kept hI hL hpc).2
  | readOutInc n =>
    rw [hpc] at hcall howes
    simp only [hpc, Option.some.injEq, Prod.mk.injEq] at he
    obtain ⟨rfl, rfl⟩ := he
    exact stepKeeps_of_facts hI ⟨howes, hsame _ (by simp [IsWorker, hpc]), hcall⟩
  | writeOutInc n out =>
    rw [hpc] at hcall howes
    simp only [hpc, Option.some.injEq, Prod.mk.injEq] at he
    obtain ⟨rfl, rfl⟩ := he
    obtain ⟨hw, hout, hheld, hfifo⟩ := hcall
    apply outCount_kept hI hL hw
    refine ⟨howes, hsame _ (by simp [IsWorker, hpc]), hw, ?_, hheld, hfifo⟩
    show out + 1 = m.delivered.length + 1 - g.taken
    omega
  | moreRet n =>
    simp only [hpc, Option.some.injEq, Prod.mk.injEq] at he
    obtain ⟨rfl, rfl⟩ := he
    exact moreRet_kept hI hL hpc
  | emptyRet =>
    rw [hpc] at hcall howes
    simp only [hpc, Option.some.injEq, Prod.mk.injEq] at he
    obtain ⟨rfl, rfl⟩ := he
    have hno : ¬ IsWorker l := by simp [IsWorker, hpc, show l.working = false from hcall]
    have hidle : IsWorker (⟨l.working, .idle⟩ : Thread ν α) ↔ IsWorker l := by simp [IsWorker, hpc]
    exact stepKeeps_of_facts hI ⟨howes, hsame _ hidle, fun hl => absurd (hidle.mp hl) hno⟩

end Steps

theorem workAssertion_init {s : Config ι (Queue ν α) (Thread ν α)} (h : WorkInit s) :
    workAssertion.Holds s := by
  obtain ⟨htail, hnext, hpushed, howned, hin, hout, hcounted, hdel, hidle⟩ := h
  refine ⟨⟨⟨[s.mem.fifo.head], fun _ => none, fun _ => none, []⟩, none, 0⟩, ?_, fun t => ?_⟩
  · refine ⟨⟨rfl, by simp [htail], List.nodup_singleton _, ⟨hnext, rfl⟩, by simp [hpushed],
      by simp, fun n hn => ⟨?_, rfl⟩, by simp⟩, by simp [hin, hcounted],
      fun _ => ⟨hin, hout, by simp [hdel], hdel.symm⟩, by simp⟩
    rw [List.mem_singleton]
    rintro rfl
    simp [howned] at hn
  · rw [hidle t]
    exact ⟨fun a b hab => by simp at hab, by simp [IsWorker], fun hl => by simp [IsWorker] at hl⟩

end Kept

section Runs

variable [DecidableEq ι] [DecidableEq ν] {s : Config ι (Queue ν α) (Thread ν α)}
  {hist : List (Event ι (Config ι (Queue ν α) (Thread ν α)))}

/-- The hand-off assertion holds in every state of every interleaving. -/
theorem workQueue_invariant (run : Run WorkInit workProgram.Step s hist) :
    workAssertion.Holds s :=
  workAssertion_kept.run (fun _ h => workAssertion_init h)
    (run.mono fun _ _ _ h => Program.stepIf_true.mpr h)

/-- Thread `t` subtracts `out_count` from `in_count`, and every push counted
before that has been delivered. -/
def SubtractsAll (t : ι) (e : Event ι (Config ι (Queue ν α) (Thread ν α))) : Prop :=
  e.tid = t ∧ (∃ old, (e.pre.loc t).pc = .subIn old) ∧
    e.pre.mem.delivered.length = e.pre.mem.counted

/-- The access at which a worker finds its work done. -/
theorem subtractsAll_of_empty {s s' : Config ι (Queue ν α) (Thread ν α)} {t : ι}
    (hA : workAssertion.Holds s) (hs : workProgram.Step t s s') (hn : (s.loc t).pc ≠ .emptyRet)
    (hret : (s'.loc t).pc = .emptyRet) : SubtractsAll t ⟨t, s, s'⟩ := by
  obtain ⟨g, hI, hL⟩ := hA
  obtain ⟨c, he⟩ := hs.exec
  generalize s'.loc t = l' at he hret
  simp only [workProgram, workExec] at he
  cases hpc : (s.loc t).pc with
  | subIn old =>
    refine ⟨rfl, ⟨old, hpc⟩, ?_⟩
    obtain ⟨hleft, -⟩ := subIn_kept hI (hL t) hpc
    by_cases hzero : s.mem.inCount - old = 0
    · show s.mem.delivered.length = s.mem.counted
      omega
    · simp only [hpc, if_neg hzero, Option.some.injEq, Prod.mk.injEq] at he
      rw [← he.2] at hret
      cases hret
  | idle =>
    cases c <;> simp [hpc] at he
    all_goals
      obtain ⟨-, -, rfl⟩ := he
      simp [hpc] at hret
  | emptyRet => exact absurd hpc hn
  | push start pc =>
    simp only [hpc, Option.some.injEq, Prod.mk.injEq] at he
    rw [← he.2] at hret
    cases h : (pushStep s.mem.fifo pc).2 <;> simp [h] at hret
  | trypop pc =>
    simp only [hpc, Option.some.injEq, Prod.mk.injEq] at he
    rw [← he.2] at hret
    rcases h : (popStep s.mem.fifo pc).2 with _ | _ | _ <;> simp [h] at hret
  | readIn out =>
    simp only [hpc, Option.some.injEq, Prod.mk.injEq] at he
    rw [← he.2] at hret
    by_cases h : out = s.mem.inCount <;> simp [h] at hret
  | _ =>
    simp only [hpc, Option.some.injEq, Prod.mk.injEq] at he
    rw [← he.2] at hret
    cases hret

theorem empty_during {t : ι} (run : Run WorkInit workProgram.Step s hist)
    (hret : (s.loc t).pc = .emptyRet) :
    During (fun s => (s.loc t).pc ≠ .idle) (SubtractsAll t) hist := by
  refine Run.during_of_local (fun l => l.pc = .emptyRet) (fun l => l.pc ≠ .idle) ?_ ?_ ?_ ?_
    (run.mono fun _ _ _ h => Program.stepIf_true.mpr h) hret
  · intro s h0 hm
    rw [h0.2.2.2.2.2.2.2.2 t] at hm
    cases hm
  · intro c m l m' l' he hl' hl
    simp only [workProgram, workExec, hl] at he
    cases c <;> simp at he
    all_goals
      obtain ⟨-, -, rfl⟩ := he
      simp [hl] at hl'
  · intro l hl
    simp [hl]
  · intro s s' ⟨hist, hr⟩ hs hn hm
    have hr' := hr.mono fun _ _ _ h => Program.stepIf_true.mp h
    exact subtractsAll_of_empty (workQueue_invariant hr') hs.2 hn hm

end Runs

end FibConcurrent.WorkQueue
