import FibConcurrent.Machine.Linearizable
import FibConcurrent.WorkStealingDeque.Model

/-!
# WorkStealingDeque — calls and the log

Owner and thieves see calls and what they return; the log is written in between. Every call that
succeeds writes one entry, which is the element that it was given or that it returns, and every
other call writes none: the calls and returns are those of an object that does nothing but write
the log (`dequeLog`). This is the text of the program alone, on whichever memory it runs.
-/

namespace FibConcurrent.WorkStealingDeque

open FibConcurrent.Machine FibConcurrent.Data

variable {ι μ α : Type*}

/-- What a client asks for. -/
inductive Request (α : Type*) where
  | push (p : α)
  | pop
  | steal
deriving DecidableEq

/-- What it is answered: 0 or -1, an element, `WSD_EMPTY` or `WSD_ABORT`. -/
inductive Response (α : Type*) where
  | pushed
  | failed
  | took (ret : α)
  | empty
  | abort
deriving DecidableEq

def pushResponse : PushResult → Response α
  | .failed => .failed
  | .pushed _ => .pushed

def takeResponse : TakeResult α → Response α
  | .empty => .empty
  | .abort => .abort
  | .success ret => .took ret

/-- Calls to the pushes, to `wsd_work_stealing_deque_pop_bottom` and to
`wsd_work_stealing_deque_steal`, seen from outside. -/
def dequeInterface : Interface ι μ (Pc α) (Request α) (Response α) where
  busy
    | .idle => false
    | .grow _ => false
    | .growRet _ => false
    | _ => true
  op _ _
    | .push _ p _ => .push p
    | .pop _ => .pop
    | _ => .steal
  result _ _
    | .pushRet result => pushResponse result
    | .popRet result => takeResponse result
    | .stealRet result => takeResponse result
    | _ => .empty

/-- A pop that has only to put `bottom` right is done. -/
def Pc.client : Pc α → Client (Request α) (Response α)
  | .idle => .idle
  | .grow _ => .idle
  | .growRet _ => .idle
  | .push _ p _ => .pending (.push p)
  | .pushRet result => .done (pushResponse result)
  | .pop (.settle _ result) => .done (takeResponse result)
  | .pop _ => .pending .pop
  | .popRet result => .done (takeResponse result)
  | .steal _ => .pending .steal
  | .stealRet result => .done (takeResponse result)

/-- What a call writes into the log. -/
inductive Logs : Request α → Response α → List (DequeOp α) → Prop
  | push (p : α) : Logs (.push p) .pushed [.push p]
  | pushFails (p : α) : Logs (.push p) .failed []
  | pop (p : α) : Logs .pop (.took p) [.pop p]
  | popEmpty : Logs .pop .empty []
  | popAborts : Logs .pop .abort []
  | steal (p : α) : Logs .steal (.took p) [.steal p]
  | stealEmpty : Logs .steal .empty []
  | stealAborts : Logs .steal .abort []

/-- The log, empty to begin with. -/
def dequeLog (α : Type*) : Object (List (DequeOp α)) (Request α) (Response α) where
  start log := log = []
  legal log op res log' := ∃ ops, Logs op res ops ∧ log' = log ++ ops

section Moves

variable {arch : Arch} {log ops : List (DequeOp α)} {m m' : μ} {t : ι}

theorem move_stay (k : Client (Request α) (Response α)) (hops : ops = []) :
    (dequeLog α).Move log k [] (log ++ ops) k := by
  rw [hops, List.append_nil]
  exact .stay k

theorem move_perform {op : Request α} {res : Response α} (h : Logs op res ops) :
    (dequeLog α).Move log (.pending op) [] (log ++ ops) (.done res) :=
  .done ⟨ops, h, rfl⟩

/-- Copying an array is not logged. -/
theorem growStep_yields {malloc : Bool} {pc : GrowPc α} {r : GrowPc α ⊕ Option Nat}
    (hy : (growStep malloc pc).Yields r ops) : ops = [] := by
  cases pc with
  | get a newA i stop =>
    obtain ⟨v, hv⟩ := hy
    exact (Prod.mk.inj hv).2.symm
  | put a newA i stop p => exact hy.2.symm
  | create a start stop => exact hy.2

/-- A push goes on or fails, or it logs its element. -/
theorem pushStep_yields {malloc autogrow : Bool} {p : α} {pc : PushPc α}
    {r : PushPc α ⊕ PushResult} (hy : (pushStep malloc autogrow p pc).Yields r ops) :
    ops = [] ∧ ((∃ pc', r = .inl pc') ∨ r = .inr .failed) ∨
      ops = [.push p] ∧ ∃ old, r = .inr (.pushed old) := by
  cases pc with
  | grow b pc =>
    rw [pushStep] at hy
    obtain ⟨r', rfl, hy'⟩ := hy.of_map
    refine .inl ⟨growStep_yields hy', ?_⟩
    rcases r' with pc' | _ | a
    · exact .inl ⟨_, rfl⟩
    · exact .inr rfl
    · exact .inl ⟨_, rfl⟩
  | readArray b u =>
    obtain ⟨v, hv⟩ := hy
    obtain ⟨rfl, rfl⟩ := Prod.mk.inj hv
    refine .inl ⟨rfl, ?_⟩
    split
    · cases autogrow with
      | true => exact .inl ⟨_, rfl⟩
      | false => exact .inr rfl
    · exact .inl ⟨_, rfl⟩
  | writeArray b a old => exact .inl ⟨hy.2.symm, .inl ⟨_, hy.1.symm⟩⟩
  | put b a old => exact .inl ⟨hy.2.symm, .inl ⟨_, hy.1.symm⟩⟩
  | barrier b old => exact .inl ⟨hy.2, .inl ⟨_, hy.1.symm⟩⟩
  | writeBottom b old => exact .inr ⟨hy.2.symm, old, hy.1.symm⟩
  | _ =>
    obtain ⟨v, hv⟩ := hy
    obtain ⟨rfl, rfl⟩ := Prod.mk.inj hv
    exact .inl ⟨rfl, .inl ⟨_, rfl⟩⟩

theorem growDequeStep_yields {malloc : Bool} {pc : GrowDequePc α}
    {r : GrowDequePc α ⊕ GrowResult} (hy : (growDequeStep malloc pc).Yields r ops) :
    ops = [] := by
  cases pc with
  | grow old pc =>
    rw [growDequeStep] at hy
    obtain ⟨r', -, hy'⟩ := hy.of_map
    exact growStep_yields hy'
  | writeArray a old => exact hy.2.symm
  | _ =>
    obtain ⟨v, hv⟩ := hy
    exact (Prod.mk.inj hv).2.symm

/-- A pop logs the element that it will return, or knows that it has none. -/
theorem popStep_move [DecidableEq α] (log : List (DequeOp α)) {pc : PopPc α}
    {r : PopPc α ⊕ TakeResult α}
    (hy : (popStep arch pc).Yields r ops) :
    (dequeLog α).Move log (Pc.client (.pop pc)) [] (log ++ ops)
      (Pc.client (Sum.elim .pop .popRet r)) := by
  cases pc with
  | barrier b a =>
    cases arch
    all_goals
      obtain ⟨rfl, hops⟩ := hy
      exact move_stay _ hops
  | writeBottom b a =>
    obtain ⟨rfl, rfl⟩ := hy
    exact move_stay _ rfl
  | settle b result =>
    obtain ⟨rfl, rfl⟩ := hy
    exact move_stay _ rfl
  | readTop b a =>
    obtain ⟨v, hv⟩ := hy
    obtain ⟨rfl, rfl⟩ := Prod.mk.inj hv
    split
    · exact move_perform .popEmpty
    · exact move_stay _ rfl
  | get b a u =>
    obtain ⟨v, hv⟩ := hy
    split at hv
    · obtain ⟨rfl, rfl⟩ := Prod.mk.inj hv
      exact move_perform (.pop _)
    · obtain ⟨rfl, rfl⟩ := Prod.mk.inj hv
      exact move_stay _ rfl
  | swapTop u ret =>
    obtain ⟨v, hv⟩ := hy
    dsimp only at hv
    split at hv
    · obtain ⟨rfl, rfl⟩ := Prod.mk.inj hv
      exact move_perform (.pop ret)
    · obtain ⟨rfl, rfl⟩ := Prod.mk.inj hv
      exact move_perform .popAborts
  | _ =>
    obtain ⟨v, hv⟩ := hy
    obtain ⟨rfl, rfl⟩ := Prod.mk.inj hv
    exact move_stay _ rfl

/-- So does a steal. -/
theorem stealStep_move (log : List (DequeOp α)) {pc : StealPc α} {r : StealPc α ⊕ TakeResult α}
    (hy : (stealStep pc).Yields r ops) :
    (dequeLog α).Move log (.pending .steal) [] (log ++ ops)
      (Pc.client (Sum.elim .steal .stealRet r)) := by
  cases pc with
  | barrier u =>
    obtain ⟨rfl, rfl⟩ := hy
    exact move_stay _ rfl
  | readArray u b =>
    obtain ⟨v, hv⟩ := hy
    obtain ⟨rfl, rfl⟩ := Prod.mk.inj hv
    split
    · exact move_perform .stealEmpty
    · exact move_stay _ rfl
  | swapTop u ret =>
    obtain ⟨v, hv⟩ := hy
    dsimp only at hv
    split at hv
    · obtain ⟨rfl, rfl⟩ := Prod.mk.inj hv
      exact move_perform (.steal ret)
    · obtain ⟨rfl, rfl⟩ := Prod.mk.inj hv
      exact move_perform .stealAborts
  | _ =>
    obtain ⟨v, hv⟩ := hy
    obtain ⟨rfl, rfl⟩ := Prod.mk.inj hv
    exact move_stay _ rfl

/-- **Every access is a move of a client of the log.** -/
theorem move_of_access [DecidableEq ι] [DecidableEq α] {owner : ι} {c : Choice α} {pc pc' : Pc α}
    {a : Step α (Pc α)} (ha : access arch owner t c pc = some a) (hy : a.Yields pc' ops) :
    (dequeLog α).Move log pc.client (dequeInterface.labels t m pc m' pc') (log ++ ops)
      pc'.client := by
  cases pc with
  | idle =>
    cases c with
    | push autogrow p =>
      obtain ⟨-, h⟩ := Option.ite_none_right_eq_some.mp ha
      cases Option.some.inj h
      obtain ⟨rfl, rfl⟩ := hy
      rw [List.append_nil]
      exact .call (Request.push p)
    | grow =>
      obtain ⟨-, h⟩ := Option.ite_none_right_eq_some.mp ha
      cases Option.some.inj h
      obtain ⟨rfl, hops⟩ := hy
      exact move_stay _ hops
    | pop =>
      obtain ⟨-, h⟩ := Option.ite_none_right_eq_some.mp ha
      cases Option.some.inj h
      obtain ⟨rfl, rfl⟩ := hy
      rw [List.append_nil]
      exact .call Request.pop
    | steal =>
      obtain ⟨-, h⟩ := Option.ite_none_left_eq_some.mp ha
      cases Option.some.inj h
      obtain ⟨rfl, rfl⟩ := hy
      rw [List.append_nil]
      exact .call Request.steal
    | _ => cases ha
  | push autogrow p pc =>
    cases Option.some.inj ha
    obtain ⟨r, rfl, hy'⟩ := hy.of_map
    rcases pushStep_yields hy' with ⟨hops, ⟨pc', rfl⟩ | rfl⟩ | ⟨rfl, old, rfl⟩
    · exact move_stay _ hops
    · rw [hops]
      exact move_perform (.pushFails p)
    · exact move_perform (.push p)
  | grow pc =>
    cases Option.some.inj ha
    obtain ⟨r, rfl, hy'⟩ := hy.of_map
    cases r <;> exact move_stay _ (growDequeStep_yields hy')
  | pop pc =>
    cases Option.some.inj ha
    obtain ⟨r, rfl, hy'⟩ := hy.of_map
    have hmove := popStep_move log hy'
    cases r <;> exact hmove
  | steal pc =>
    cases Option.some.inj ha
    obtain ⟨r, rfl, hy'⟩ := hy.of_map
    have hmove := stealStep_move log hy'
    cases r <;> exact hmove
  | growRet result =>
    cases Option.some.inj ha
    obtain ⟨rfl, hops⟩ := hy
    exact move_stay _ hops
  | pushRet result =>
    cases Option.some.inj ha
    obtain ⟨rfl, rfl⟩ := hy
    rw [List.append_nil]
    exact .ret (pushResponse result)
  | popRet result =>
    cases Option.some.inj ha
    obtain ⟨rfl, rfl⟩ := hy
    rw [List.append_nil]
    exact .ret (takeResponse result)
  | stealRet result =>
    cases Option.some.inj ha
    obtain ⟨rfl, rfl⟩ := hy
    rw [List.append_nil]
    exact .ret (takeResponse result)

end Moves

/-! ## Runs -/

section Runs

variable [DecidableEq ι] [DecidableEq α] {arch : Arch} {owner : ι}

/-- **Under sequential consistency the log is what the calls have done.** -/
theorem linearizableTo_log_sc {s : Config ι (Shared (Memory α) (DequeOp α)) (Pc α)}
    {hist : List (Event ι (Config ι (Shared (Memory α) (DequeOp α)) (Pc α)))}
    (run : Run InitSc (dequeText arch owner).sc.Step s hist) :
    LinearizableTo (dequeLog α) (dequeInterface.trace hist) s.mem.log := by
  have hrun : Run InitSc ((dequeText arch owner).sc.StepIf fun _ _ _ _ => True) s hist :=
    run.mono fun _ _ _ h => Program.stepIf_true.mpr h
  refine hrun.linearizableTo (dequeLog α) (fun _ _ => Pc.client) Shared.log ?_
    (fun _ _ _ _ _ _ _ => rfl) ?_
  · rintro s ⟨⟨logSize, garbage, -, hmem⟩, hidle⟩
    refine ⟨by rw [hmem]; rfl, fun t => ?_⟩
    rw [hidle t]
    rfl
  · rintro t s s' - ⟨-, hs⟩
    obtain ⟨c, he⟩ := hs.exec
    obtain ⟨a, ha, he⟩ := Option.map_eq_some_iff.mp he
    obtain ⟨ops, hy, hlog⟩ := Access.sc_yields write s.mem a
    have hmem : s'.mem = (Access.sc write s.mem a).1 := (Prod.mk.inj he).1.symm
    have hloc : s'.loc t = (Access.sc write s.mem a).2 := (Prod.mk.inj he).2.symm
    rw [hmem, hlog, hloc]
    exact (move_of_access ha hy).goes

/-- **So it is with store buffers**: a push is logged when its store of `bottom` enters the
buffer. -/
theorem linearizableTo_log_tso
    {ok : ι → Buffered ι (Memory α) (Store α) (DequeOp α) → Pc α →
      Buffered ι (Memory α) (Store α) (DequeOp α) → Prop}
    {s : Config ι (Buffered ι (Memory α) (Store α) (DequeOp α)) (Pc α)}
    {hist : List (Event ι (Config ι (Buffered ι (Memory α) (Store α) (DequeOp α)) (Pc α)))}
    (run : Run InitTso ((dequeText arch owner).tso.StepIf ok) s hist) :
    LinearizableTo (dequeLog α) (dequeInterface.trace hist) s.mem.log := by
  refine run.linearizableTo (dequeLog α) (fun _ _ => Pc.client) Buffered.log ?_
    (fun _ _ _ _ _ _ _ => rfl) ?_
  · rintro s ⟨⟨logSize, garbage, -, hmem⟩, hidle⟩
    refine ⟨by rw [hmem]; rfl, fun t => ?_⟩
    rw [hidle t]
    rfl
  · rintro t s s' - ⟨-, hs⟩
    obtain ⟨c, he⟩ := hs.exec
    cases c with
    | drain =>
      -- a drain is a step of no call
      have he : Text.tsoExec (dequeText arch owner) t .drain s.mem (s.loc t) =
        some (s'.mem, s'.loc t) := he
      unfold Text.tsoExec at he
      cases hbuf : s.mem.buf t with
      | nil => simp [hbuf] at he
      | cons w rest =>
        simp only [hbuf, Option.some.injEq, Prod.mk.injEq] at he
        rw [← he.1, ← he.2]
        have hnone : (dequeInterface (ι := ι)).labels t s.mem (s.loc t)
            { s.mem with
              mem := write w s.mem.mem
              buf := Function.update s.mem.buf t rest } (s.loc t) = [] := by
          unfold Interface.labels
          cases dequeInterface.busy (s.loc t) <;> rfl
        exact hnone ▸ .refl
    | act c =>
      obtain ⟨a, ha, he⟩ := Option.bind_eq_some_iff.mp he
      obtain ⟨ops, hy, hlog⟩ := Access.tso_yields he
      rw [hlog]
      exact (move_of_access ha hy).goes

end Runs

end FibConcurrent.WorkStealingDeque
