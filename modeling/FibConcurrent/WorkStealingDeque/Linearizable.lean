import FibConcurrent.Data.Container
import FibConcurrent.WorkStealingDeque.Correct

/-!
# WorkStealingDeque — what owner and thieves see is a deque

The operations take effect where the log of `WorkStealingDeque.Correct` says, and the calls
and returns of every interleaving are linearizable to a deque (`wsd_calls_linearizable`). A
steal may fail whenever it likes; a pop fails, with `WSD_EMPTY` or with `WSD_ABORT`, only on
an empty deque. Replacing the array is not seen from outside.
-/

namespace FibConcurrent.WorkStealingDeque

open FibConcurrent.Machine FibConcurrent.Data

variable {ι α : Type*}

/-- One operation of a deque. -/
inductive DequeLegal : List α → Request α → Response α → List α → Prop
  | push (p : α) (l : List α) : DequeLegal l (.push p) .pushed (l ++ [p])
  | pushFails (p : α) (l : List α) : DequeLegal l (.push p) .failed l
  | pop (p : α) (l : List α) : DequeLegal (l ++ [p]) .pop (.took p) l
  | popEmpty : DequeLegal [] .pop .empty []
  | popAborts : DequeLegal [] .pop .abort []
  | steal (p : α) (l : List α) : DequeLegal (p :: l) .steal (.took p) l
  | stealEmpty (l : List α) : DequeLegal l .steal .empty l
  | stealAborts (l : List α) : DequeLegal l .steal .abort l

/-- The deque, empty to begin with. -/
def dequeObject (α : Type*) : Object (List α) (Request α) (Response α) where
  start l := l = []
  legal := DequeLegal

section Step

variable [DecidableEq ι] [DecidableEq α] {arch : Arch} {owner t : ι} {c : Choice α}
  {m m' : Sc α} {pc pc' : Pc α} {x : List α} {g : Ghost α}

/-- **What is written into the log is done to the deque**, as long as the log stays legal and no pop
fails without need. -/
theorem goes_of_log {log log' : List (DequeOp α)} {k k' : Client (Request α) (Response α)}
    {labels : List (Label (Request α) (Response α))}
    (h : (dequeLog α).Move log k labels log' k') (hx : Replays dequeApply [] log x)
    (hlegal : ∃ y, Replays dequeApply [] log' y)
    (hempty : ∀ res, k.Answers labels k' .pop res → res = .empty ∨ res = .abort → x = []) :
    ∃ x', Replays dequeApply [] log' x' ∧ (dequeObject α).Goes x k labels x' k' := by
  refine h.follow hx fun op res hans hlog => ?_
  obtain ⟨ops, hlogs, rfl⟩ := hlog
  obtain ⟨y, hy⟩ := hlegal
  cases hlogs with
  | push p => exact ⟨x ++ [p], hx.concat rfl, .push p x⟩
  | pushFails p => exact ⟨x, by simpa using hx, .pushFails p x⟩
  | pop p =>
    -- the log is legal, so `p` was the newest element
    obtain ⟨hlast, hy'⟩ := Option.ite_none_right_eq_some.mp (hx.last hy)
    obtain ⟨l, rfl⟩ := List.getLast?_eq_some_iff.mp hlast
    cases hy'
    rw [List.dropLast_concat] at hy
    exact ⟨l, hy, .pop p l⟩
  | popEmpty =>
    obtain rfl := hempty _ hans (.inl rfl)
    exact ⟨[], by simpa using hx, .popEmpty⟩
  | popAborts =>
    obtain rfl := hempty _ hans (.inr rfl)
    exact ⟨[], by simpa using hx, .popAborts⟩
  | steal p =>
    -- the oldest one
    obtain ⟨hfirst, hy'⟩ := Option.ite_none_right_eq_some.mp (hx.last hy)
    obtain ⟨l, rfl⟩ := List.head?_eq_some_iff.mp hfirst
    cases hy'
    exact ⟨l, hy, .steal p l⟩
  | stealEmpty => exact ⟨x, by simpa using hx, .stealEmpty x⟩
  | stealAborts => exact ⟨x, by simpa using hx, .stealAborts x⟩

/-- A pop fails on an empty deque only. -/
theorem empty_of_fails {p : PopPc α} {res : Response α} (hp : PopFacts m.mem g p)
    (htop : m.mem.top ≤ g.free) (hpending : (Pc.pop p).client = .pending .pop)
    (hdone : Pc.client (Sum.elim .pop .popRet (Access.sc write m (popStep arch p)).2) = .done res)
    (hres : res = .empty ∨ res = .abort) : g.limit ≤ m.mem.top := by
  have hfails : ∀ v, res ≠ .took v := by
    rintro v rfl
    rcases hres with h | h <;> cases h
  cases p with
  | barrier b a => cases arch <;> cases hdone
  | settle b result => cases hpending
  | readTop b a =>
    obtain ⟨⟨hbottom, hfree⟩, hb, -⟩ := hp
    by_cases hlt : b - m.mem.top < 0
    · omega
    · simp only [popStep, Access.sc, if_neg hlt] at hdone
      cases hdone
  | get b a u =>
    by_cases hgt : b - u > 0
    · simp only [popStep, Access.sc, if_pos hgt] at hdone
      exact absurd (Client.done.inj hdone).symm (hfails _)
    · simp only [popStep, Access.sc, if_neg hgt] at hdone
      cases hdone
  | swapTop u ret =>
    obtain ⟨⟨hbottom, hfree⟩, hb, hle, -⟩ := hp
    by_cases hcas : m.mem.top = u
    · simp only [popStep, Access.sc, if_pos hcas] at hdone
      exact absurd (Client.done.inj hdone).symm (hfails _)
    · omega
  | _ => cases hdone

/-- Every access is a move of the client of a deque whose elements are what the log leads
to. -/
theorem goes_of_scExec (he : (dequeText arch owner).scExec t c m pc = some (m', pc'))
    (hx : Replays dequeApply [] m.log x) (hlegal : ∃ y, Replays dequeApply [] m'.log y)
    (hseg : x = segment g.val m.mem.top g.limit) (htop : m.mem.top ≤ g.free)
    (hpop : ∀ p, pc = .pop p → PopFacts m.mem g p) :
    ∃ x', Replays dequeApply [] m'.log x' ∧ (dequeObject α).Goes x pc.client
      (dequeInterface.labels t m pc m' pc') x' pc'.client := by
  obtain ⟨a, ha, he⟩ := Option.map_eq_some_iff.mp he
  have ha : access arch owner t c pc = some a := ha
  obtain ⟨ops, hy, hlog⟩ := Access.sc_yields write m a
  have hm : m' = (Access.sc write m a).1 := (Prod.mk.inj he).1.symm
  have hpc : pc' = (Access.sc write m a).2 := (Prod.mk.inj he).2.symm
  rw [← hpc] at hy
  rw [← hm] at hlog
  have hmove : (dequeLog α).Move m.log pc.client (dequeInterface.labels t m pc m' pc')
      (m.log ++ ops) pc'.client := move_of_access ha hy
  rw [← hlog] at hmove
  refine goes_of_log hmove hx hlegal fun res hans hres => ?_
  rw [hseg]
  refine segment_of_le ?_
  cases pc with
  | pop p =>
    cases Option.some.inj ha
    rw [Access.sc_map] at hpc
    have hbusy : dequeInterface (ι := ι) (μ := Sc α).busy pc' = true := by
      rw [hpc]
      cases (Access.sc write m (popStep arch p)).2 <;> rfl
    rw [Interface.labels_busy rfl hbusy] at hans
    exact empty_of_fails (hpop p rfl) htop hans.pending_eq (hpc ▸ hans.done_eq) hres
  | _ => cases hans.pending_eq

end Step

section Runs

variable [DecidableEq ι] [DecidableEq α] {arch : Arch} {owner : ι} {s : Config ι (Sc α) (Pc α)}
  {hist : List (Event ι (Config ι (Sc α) (Pc α)))}

/-- **`work_stealing_deque` is linearizable to a deque** whose steals may fail, in every
interleaving of its owner and any number of thieves under sequential consistency; and a
pop fails only when the deque is empty. -/
theorem wsd_calls_linearizable (run : Run InitSc (dequeText arch owner).sc.Step s hist) :
    Linearizable (dequeObject α) (dequeInterface.trace hist) := by
  have hrun : Run InitSc ((dequeText arch owner).sc.StepIf fun _ _ _ _ => True) s hist :=
    run.mono fun _ _ _ h => Program.stepIf_true.mpr h
  refine hrun.linearizable (dequeObject α) (fun _ _ => Pc.client)
    (fun m x => Replays dequeApply [] m.log x) ?_ (fun _ _ _ _ _ _ _ => rfl) ?_
  · rintro s ⟨⟨logSize, garbage, -, hmem⟩, hidle⟩
    refine ⟨⟨[], rfl, ?_⟩, fun t => ?_⟩
    · rw [hmem]
      exact replays_nil.mpr rfl
    · rw [hidle t]
      rfl
  · rintro t s s' x ⟨hist, hr⟩ ⟨-, hs⟩ hx
    have hr : Run InitSc (dequeText arch owner).sc.Step s hist := hr.mono fun _ _ _ h => h.2
    obtain ⟨g, ⟨-, hI⟩, hT⟩ := deque_invariant hr
    obtain ⟨g', ⟨-, hI'⟩, -⟩ := deque_invariant (hr.next hs)
    obtain ⟨c, he⟩ := hs.exec
    have hwin := hI.window
    simp only [Shared.buffered, drained_nil] at hwin
    refine goes_of_scExec he hx ⟨_, hI'.log⟩ (hx.unique hI.log) hwin.top ?_
    intro p hp
    by_cases hown : t = owner
    · have hfacts := (hT t).own hown
      rw [hp] at hfacts
      exact hfacts
    · have hfacts := (hT t).steal hown
      rw [hp] at hfacts
      exact hfacts.elim

/-- The owner pushes 7 and pops it while a thief, whose steal began before, is too late. -/
theorem wsd_calls_linearizable_abort :
    ∃ (s : Config Nat (Sc Nat) (Pc Nat)) (hist : _),
      Run InitSc (dequeText .x86_64 0).sc.Step s hist ∧ dequeInterface.trace hist =
        [(0, .call (.push 7)), (0, .ret .pushed), (1, .call .steal), (0, .call .pop),
          (0, .ret (.took 7)), (1, .ret .abort)] ∧
        Linearizable (dequeObject Nat) (dequeInterface.trace hist) := by
  have hstart : Run InitSc (dequeText (ι := Nat) (α := Nat) .x86_64 0).sc.Step initialSc [] :=
    .start ⟨⟨8, fun _ _ => 0, by omega, rfl⟩, fun _ => rfl⟩
  obtain ⟨s, hist, run, htrace⟩ := hstart.exists_of_history
    (q := fun _ hist => dequeInterface.trace hist =
      [(0, .call (.push 7)), (0, .ret .pushed), (1, .call .steal), (0, .call .pop),
        (0, .ret (.took 7)), (1, .ret .abort)])
    (List.flatten [[(0, .push false 7)], List.replicate 7 (0, .step), [(1, .steal)],
      List.replicate 5 (1, .step), [(0, .pop)], List.replicate 9 (0, .step),
      List.replicate 2 (1, .step)])
    (by decide +kernel)
  exact ⟨s, hist, run, htrace, wsd_calls_linearizable run⟩

end Runs

end FibConcurrent.WorkStealingDeque
