import FibConcurrent.MpmcLifo.Correct

/-!
# MpmcLifo — what clients see is a stack

The log of the successful swaps is legal (`MpmcLifo.Correct`); here it is put between
the calls and the returns. A push and a successful pop take effect at their swap, a
pop that returns null when it reads the head. So the calls and returns of every
interleaving are linearizable to a stack (`mpmcLifo_calls_linearizable`).
-/

namespace FibConcurrent.MpmcLifo

open FibConcurrent.Machine FibConcurrent.Data

variable {ι ν : Type*} {w : Nat}

/-- A pop that is answered null returns it. -/
theorem null_of_answers {t : ι} {m m' : Lifo w ν} {pc pc' : Pc w ν}
    (h : pc.client.Answers (lifoInterface.labels t m pc m' pc') pc'.client .take .nothing) :
    pc' = .popRet none := by
  have hpop : ∃ p, pc = .pop p := by
    have hpending := h.pending_eq
    cases pc with
    | pop p => exact ⟨p, rfl⟩
    | _ => cases hpending
  obtain ⟨p, rfl⟩ := hpop
  cases pc' with
  | popRet node =>
    cases node with
    | none => rfl
    | some n => cases h.done_eq
  | _ => cases h

section Runs

variable [DecidableEq ι] [DecidableEq ν] {s : Config ι (Lifo w ν) (Pc w ν)}
  {hist : List (Event ι (Config ι (Lifo w ν) (Pc w ν)))}

/-- **`mpmc_lifo` is linearizable to a stack**: in every interleaving in which no counter goes
all the way round within one iteration, the calls can be put into one sequence that a
stack would answer in the same way, and that keeps the order of calls of which one
returned before the other began. -/
theorem mpmcLifo_calls_linearizable (run : Run Init (lifoProgram.StepIf Fresh) s hist) :
    Linearizable (stackObject ν) (lifoInterface.trace hist) := by
  refine run.linearizable (stackObject ν) (fun _ _ => Pc.client)
    (fun m x => Replays stackApply [] m.log x) ?_ (fun _ _ _ _ _ _ _ => rfl) ?_
  · rintro s ⟨-, hlog, hidle⟩
    refine ⟨⟨[], rfl, ?_⟩, fun t => ?_⟩
    · rw [hlog]
      exact replays_nil.mpr rfl
    · rw [hidle t]
      rfl
  · rintro t s s' x ⟨hist, hr⟩ hs hx
    obtain ⟨c, he⟩ := hs.2.exec
    have hmove := move_of_exec (t := t) he
    refine goes_of_stackLog hmove hx ?_ fun hans => ?_
    · obtain ⟨g, hI, -⟩ := mpmcLifo_invariant (hr.next hs)
      exact ⟨g.nodes, hI.replay⟩
    · have hempty := readsEmpty_of_null (mpmcLifo_invariant hr) hs.2 (null_of_answers hans)
      exact hx.unique hempty.2.2

/-- Thread 1 begins to pop while thread 0 pushes node 1, and returns with it during thread
0's next call. -/
theorem mpmcLifo_calls_linearizable_push_pop :
    ∃ (s : Config Nat (Lifo 64 Nat) (Pc 64 Nat)) (hist : _),
      Run Init (lifoProgram.StepIf Fresh) s hist ∧ lifoInterface.trace hist =
        [(0, .call (.put 1)), (1, .call .take), (0, .ret .stored), (0, .call .take),
          (1, .ret (.took 1))] ∧
        Linearizable (stackObject Nat) (lifoInterface.trace hist) := by
  have hstart : Run Init ((lifoProgram (ι := Nat) (ν := Nat) (w := 64)).StepIf Fresh) initial [] :=
    .start init_initial
  obtain ⟨s, hist, run, htrace⟩ := hstart.exists_of_historyIf
    (q := fun _ hist => lifoInterface.trace hist =
      [(0, .call (.put 1)), (1, .call .take), (0, .ret .stored), (0, .call .take),
        (1, .ret (.took 1))])
    (List.flatten [[(0, .push 1), (1, .pop)], List.replicate 4 (0, .step), [(0, .pop)],
      List.replicate 5 (1, .step)])
    (by decide +kernel)
  exact ⟨s, hist, run, htrace, mpmcLifo_calls_linearizable run⟩

end Runs

end FibConcurrent.MpmcLifo
