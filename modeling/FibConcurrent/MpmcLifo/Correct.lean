import FibConcurrent.MpmcLifo.Calls
import FibConcurrent.MpmcLifo.Invariant

/-!
# MpmcLifo — a linearizable stack

Every access keeps the assertion (`lifoAssertion_kept`); what runs promise
(`mpmcLifo_linearizable`) is read off it.
-/

namespace FibConcurrent.MpmcLifo

open FibConcurrent.Machine FibConcurrent.Data

variable {ι ν : Type*} {w : Nat} [DecidableEq ν]

/-- A node that its client stores to, or hands to a push, is outside the stack. -/
theorem Inv.acquire {m : Lifo w ν} {g : Ghost ι ν} {n : ν} (hI : Inv m g)
    (hn : m.owned n = true) (t : ι) :
    Inv { m with owned := Function.update m.owned n false }
        { g with held := Function.update g.held n (some t) } ∧
      ∀ u, Keeps u m g { m with owned := Function.update m.owned n false }
        { g with held := Function.update g.held n (some t) } := by
  obtain ⟨hout, hfree⟩ := hI.owned_out n hn
  constructor
  · refine { hI with owned_out := fun a ha => ?_, held_out := fun a ha => ?_ }
    · have hne : a ≠ n := by
        rintro rfl
        simp at ha
      have hown : m.owned a = true := by simpa [hne] using ha
      obtain ⟨haout, hafree⟩ := hI.owned_out a hown
      exact ⟨haout, by simp [hne, hafree]⟩
    · by_cases hne : a = n
      · exact hne ▸ hout
      · exact hI.held_out a (by simpa [hne] using ha)
  · refine fun u => ⟨fun a ha => ⟨?_, rfl⟩, .inr ⟨rfl, rfl, fun _ _ => rfl⟩⟩
    have hne : a ≠ n := by
      rintro rfl
      simp [hfree] at ha
    simpa [hne] using ha

/-- A pop hands its node to the client. -/
theorem Inv.release {m : Lifo w ν} {g : Ghost ι ν} {n : ν} {t : ι} (hI : Inv m g)
    (hn : g.held n = some t) :
    Inv { m with owned := Function.update m.owned n true }
        { g with held := Function.update g.held n none } ∧
      ∀ u, u ≠ t → Keeps u m g { m with owned := Function.update m.owned n true }
        { g with held := Function.update g.held n none } := by
  constructor
  · refine { hI with owned_out := fun a ha => ?_, held_out := fun a ha => ?_ }
    · by_cases hne : a = n
      · subst hne
        exact ⟨hI.held_out a (by simp [hn]), by simp⟩
      · obtain ⟨haout, hafree⟩ := hI.owned_out a (by simpa [hne] using ha)
        exact ⟨haout, by simp [hne, hafree]⟩
    · have hne : a ≠ n := by
        rintro rfl
        simp at ha
      exact hI.held_out a (by simpa [hne] using ha)
  · refine fun u hu => ⟨fun a ha => ⟨?_, rfl⟩, .inr ⟨rfl, rfl, fun _ _ => rfl⟩⟩
    have hne : a ≠ n := by
      rintro rfl
      exact hu (Option.some.inj (ha.symm.trans hn))
    simpa [hne] using ha

/-- **Every step of every thread keeps the assertion**, as long as no counter
goes all the way round within one iteration. -/
theorem lifoAssertion_kept :
    (lifoAssertion (ι := ι) (ν := ν) (w := w)).Kept lifoProgram Fresh := by
  intro t c m l m' l' g hI hL hfresh he
  simp only [lifoProgram, exec] at he
  cases l with
  | idle =>
    cases c with
    | push n =>
      simp only [Option.ite_none_right_eq_some, Option.some.injEq, Prod.mk.injEq] at he
      obtain ⟨hn, rfl, rfl⟩ := he
      obtain ⟨hI', hk⟩ := hI.acquire hn t
      refine ⟨_, hI', ?_, fun u _ k hu => threadFacts_keep hu (hk u)⟩
      show Function.update g.held n (some t) n = some t
      simp
    | pop =>
      simp only [Option.some.injEq, Prod.mk.injEq] at he
      obtain ⟨rfl, rfl⟩ := he
      exact ⟨g, hI, trivial, fun _ _ _ hu => hu⟩
    | write n x =>
      simp only [Option.ite_none_right_eq_some, Option.some.injEq, Prod.mk.injEq] at he
      obtain ⟨hn, rfl, rfl⟩ := he
      obtain ⟨hout, hfree⟩ := hI.owned_out n hn
      obtain ⟨hI', htop⟩ := hI.write (x := x) hout
      refine ⟨g, hI', trivial, fun u _ k hu =>
        threadFacts_keep hu ⟨fun a ha => ⟨ha, Function.update_of_ne ?_ ..⟩, htop⟩⟩
      rintro rfl
      simp [hfree] at ha
    | step => simp at he
  | push pc =>
    simp only [Option.some.injEq, Prod.mk.injEq] at he
    obtain ⟨rfl, rfl⟩ := he
    obtain ⟨g', hI', hp, hk⟩ := pushStep_spec hI hL hfresh
    refine ⟨g', hI', ?_, fun u hu k h => threadFacts_keep h (hk u hu)⟩
    cases hnext : (pushStep m pc).2 with
    | none => trivial
    | some pc' => exact hp pc' hnext
  | pop pc =>
    simp only [Option.some.injEq, Prod.mk.injEq] at he
    obtain ⟨rfl, rfl⟩ := he
    obtain ⟨g', hI', hp, hret, hk⟩ := popStep_spec (t := t) hI hL hfresh
    refine ⟨g', hI', ?_, fun u hu k h => threadFacts_keep h (hk u hu)⟩
    cases hnext : (popStep m pc).2 with
    | inl pc' => exact hp pc' hnext
    | inr r =>
      cases r with
      | none => trivial
      | some n => exact hret n hnext
  | popRet r =>
    cases r with
    | none =>
      simp only [Option.some.injEq, Prod.mk.injEq] at he
      obtain ⟨rfl, rfl⟩ := he
      exact ⟨g, hI, trivial, fun _ _ _ hu => hu⟩
    | some n =>
      simp only [Option.some.injEq, Prod.mk.injEq] at he
      obtain ⟨rfl, rfl⟩ := he
      obtain ⟨hI', hk⟩ := hI.release hL
      exact ⟨_, hI', trivial, fun u hu k h => threadFacts_keep h (hk u hu)⟩

theorem lifoAssertion_init {s : Config ι (Lifo w ν) (Pc w ν)} (h : Init s) :
    lifoAssertion.Holds s := by
  obtain ⟨hpair, hlog, hidle⟩ := h
  refine ⟨⟨[], fun _ => none⟩, ⟨?_, ?_, trivial, List.nodup_nil, ?_, by simp, by simp⟩, fun t => ?_⟩
  · rw [hpair, hlog]
    rfl
  · rw [hpair]
    rfl
  · rw [hlog]
    exact replays_nil.mpr rfl
  · rw [hidle t]
    trivial

/-! ## Runs -/

section Runs

variable [DecidableEq ι] {s : Config ι (Lifo w ν) (Pc w ν)}
  {hist : List (Event ι (Config ι (Lifo w ν) (Pc w ν)))}

/-- Thread `t` reads the head in a state in which the stack is empty. -/
def ReadsEmpty (t : ι) (e : Event ι (Config ι (Lifo w ν) (Pc w ν))) : Prop :=
  e.tid = t ∧ (∃ counter stamp, e.pre.loc t = .pop (.readHead counter stamp)) ∧
    Replays stackApply [] e.pre.mem.log []

/-- The access at which a pop finds the stack empty. -/
theorem readsEmpty_of_null {s s' : Config ι (Lifo w ν) (Pc w ν)} {t : ι}
    (hA : lifoAssertion.Holds s) (hs : lifoProgram.Step t s s')
    (hret : s'.loc t = .popRet none) : ReadsEmpty t ⟨t, s, s'⟩ := by
  obtain ⟨g, hI, -⟩ := hA
  obtain ⟨c, he⟩ := hs.exec
  rw [hret] at he
  cases hl : s.loc t with
  | idle => cases c <;> simp [hl, lifoProgram, exec] at he
  | push pc =>
    simp only [lifoProgram, exec, hl, Option.some.injEq, Prod.mk.injEq] at he
    cases h : (pushStep s.mem pc).2 <;> simp [h] at he
  | popRet r => cases r <;> simp [hl, lifoProgram, exec] at he
  | pop pc =>
    simp only [lifoProgram, exec, hl, Option.some.injEq, Prod.mk.injEq] at he
    cases pc with
    | readHead counter stamp =>
      refine ⟨rfl, ⟨counter, stamp, hl⟩, ?_⟩
      cases hptr : s.mem.pair.ptr with
      | some h => simp [popStep, hptr] at he
      | none =>
        have hnil : g.nodes = [] := List.head?_eq_none_iff.mp (hI.head.symm.trans hptr)
        exact hnil ▸ hI.replay
    | swap counter head next stamp =>
      by_cases h : s.mem.pair = ⟨counter, some head⟩
      · simp [popStep, h] at he
      · simp [popStep, compareAndSwap2_of_ne h] at he
    | _ => simp [popStep] at he

/-- The assertion holds in every state of every interleaving in which no
counter goes all the way round within one iteration. -/
theorem mpmcLifo_invariant (run : Run Init (lifoProgram.StepIf Fresh) s hist) :
    lifoAssertion.Holds s :=
  lifoAssertion_kept.run (fun _ h => lifoAssertion_init h) run

theorem null_during {t : ι} (run : Run Init (lifoProgram.StepIf Fresh) s hist)
    (hret : s.loc t = .popRet none) :
    During (fun s => s.loc t ≠ .idle) (ReadsEmpty t) hist := by
  refine Run.during_of_local (· = .popRet none) (· ≠ .idle) ?_ ?_ ?_ ?_ run hret
  · intro s h0 hm
    rw [h0.2.2 t] at hm
    cases hm
  · intro c m l m' l' he hl' hl
    subst hl hl'
    cases c <;> simp [lifoProgram, exec] at he
  · intro l hl
    simp [hl]
  · intro s s' ⟨hist, hr⟩ hs _ hm
    exact readsEmpty_of_null (mpmcLifo_invariant hr) hs.2 hm

/-- The promises of the stack in state `s`, reached by `hist`. -/
structure StackPromise (s : Config ι (Lifo w ν) (Pc w ν))
    (hist : List (Event ι (Config ι (Lifo w ν) (Pc w ν)))) : Prop where
  /-- The successful swaps, replayed in order on an abstract list, are legal,
  and that list is the chain from the head: it has no node twice and no cycle. -/
  stack : ∃ l, Replays stackApply [] s.mem.log l ∧ s.mem.pair.ptr = l.head? ∧
    Linked s.mem.next l ∧ l.Nodup ∧
    (∀ n ∈ l, ¬ Relation.TransGen (fun x y => s.mem.next x = some y) n n) ∧
    -- a node that a client owns, or that a pop is about to return, is not in it
    ∀ n, (s.mem.owned n = true ∨ ∃ t, s.loc t = .popRet (some n)) → n ∉ l
  /-- These swaps are what the calls have done: each call that has returned has made one swap, of
  the node that it was given or that it returned, at one instant of the call, unless it returned
  null, and no other call but one in progress has made any. -/
  calls : LinearizableTo (stackLog ν) (lifoInterface.trace hist) s.mem.log
  /-- A pop that returns null read the head of an empty stack. -/
  null : ∀ t, s.loc t = .popRet none → During (fun s => s.loc t ≠ .idle) (ReadsEmpty t) hist

/-- **`mpmc_lifo` is a linearizable stack without ABA**, for any number of
threads, with popped nodes pushed again at any time. -/
theorem mpmcLifo_linearizable (run : Run Init (lifoProgram.StepIf Fresh) s hist) :
    StackPromise s hist := by
  obtain ⟨g, hI, hL⟩ := mpmcLifo_invariant run
  refine ⟨⟨g.nodes, hI.replay, hI.head, hI.linked, hI.nodup,
    fun n hn => hI.linked.acyclic hI.nodup hn, fun n hn => ?_⟩, linearizableTo_log run,
    fun t => null_during run⟩
  rcases hn with hn | ⟨t, ht⟩
  · exact (hI.owned_out n hn).1
  · have hheld := hL t
    rw [ht] at hheld
    exact hI.held_out n (by simp [show g.held n = some t from hheld])

/-- With a 64-bit counter: thread 1 pushes nodes 1 and 2, thread 0 pops one, and
then node 1 is on top. -/
theorem mpmcLifo_linearizable_push_push_pop :
    ∃ (s : Config Nat (Lifo 64 Nat) (Pc 64 Nat)) (hist : _),
      Run Init (lifoProgram.StepIf Fresh) s hist ∧ s.loc 0 = .popRet (some 2) ∧
        s.mem.pair.ptr = some 1 ∧ StackPromise s hist := by
  obtain ⟨s, hs, hpop, htop⟩ : ∃ s, (lifoProgram (ι := Nat) (w := 64)).runScheduleIf Fresh
      (List.flatten [[(1, .push 1)], List.replicate 4 (1, .step), [(1, .push 2)],
        List.replicate 4 (1, .step), [(0, .pop)], List.replicate 4 (0, .step)])
      initial = some s ∧ s.loc 0 = .popRet (some 2) ∧ s.mem.pair.ptr = some 1 :=
    ⟨_, rfl, rfl, rfl⟩
  obtain ⟨hist, run⟩ := Run.scheduleIf (.start init_initial) hs
  exact ⟨s, hist, run, hpop, htop, mpmcLifo_linearizable run⟩

end Runs

end FibConcurrent.MpmcLifo
