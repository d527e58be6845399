import FibConcurrent.Data.Container
import FibConcurrent.MpmcLifo.Model

/-!
# MpmcLifo — calls and the log

A push and a successful pop write the log with their swap, each its own node, and a pop that
returns null writes nothing: the calls and returns are those of an object that only writes the log.
-/

namespace FibConcurrent.MpmcLifo

open FibConcurrent.Machine FibConcurrent.Data

variable {ι ν : Type*} {w : Nat}

/-- The node that a push has been given. -/
def PushPc.node : PushPc w ν → ν
  | .readCounter node => node
  | .readHead node .. => node
  | .writeNext node .. => node
  | .swap node .. => node

/-- What a pop returns. -/
def popResponse : Option ν → Response ν
  | some node => .took node
  | none => .nothing

/-- Calls to `mpmc_lifo_push` and `mpmc_lifo_pop`, seen from outside. -/
def lifoInterface : Interface ι (Lifo w ν) (Pc w ν) (Request ν) (Response ν) where
  busy
    | .idle => false
    | _ => true
  op _ _
    | .push pc => .put pc.node
    | _ => .take
  result _ _
    | .popRet node => popResponse node
    | _ => .stored

/-- A push is pending until it returns, a pop until it has its node or has seen that there
is none. -/
def Pc.client : Pc w ν → Client (Request ν) (Response ν)
  | .idle => .idle
  | .push pc => .pending (.put pc.node)
  | .pop _ => .pending .take
  | .popRet node => .done (popResponse node)

section Moves

variable [DecidableEq ν] {t : ι} {c : Choice ν} {m m' : Lifo w ν} {pc pc' : Pc w ν}

theorem move_of_push (pc : PushPc w ν) :
    (stackLog ν).Move m.log (.pending (.put pc.node))
      (lifoInterface.labels t m (.push pc) (pushStep m pc).1 (match (pushStep m pc).2 with
        | some pc' => .push pc'
        | none => .idle)) (pushStep m pc).1.log
      (Pc.client (match (pushStep m pc).2 with
        | some pc' => .push pc'
        | none => .idle)) := by
  cases pc with
  | swap n snapshot stamp =>
    by_cases h : m.pair = snapshot
    · simp only [pushStep, h, compareAndSwap2_self]
      exact .last (StackLogLegal.put n m.log)
    · simp only [pushStep, compareAndSwap2_of_ne h]
      exact .stay _
  | _ => exact .stay _

theorem move_of_pop (pc : PopPc w ν) :
    (stackLog ν).Move m.log (.pending .take)
      (lifoInterface.labels t m (.pop pc) (popStep m pc).1 (match (popStep m pc).2 with
        | .inl pc' => .pop pc'
        | .inr node => .popRet node)) (popStep m pc).1.log
      (Pc.client (match (popStep m pc).2 with
        | .inl pc' => .pop pc'
        | .inr node => .popRet node)) := by
  cases pc with
  | readHead counter stamp =>
    cases hptr : m.pair.ptr with
    | none =>
      simp only [popStep, hptr]
      exact .done (StackLogLegal.nothing m.log)
    | some head =>
      simp only [popStep, hptr]
      exact .stay _
  | swap counter head next stamp =>
    by_cases h : m.pair = ⟨counter, some head⟩
    · simp only [popStep, h, compareAndSwap2_self]
      exact .done (StackLogLegal.take head m.log)
    · simp only [popStep, compareAndSwap2_of_ne h]
      exact .stay _
  | _ => exact .stay _

/-- **Every access is a move of a client of the log.** -/
theorem move_of_exec (he : exec t c m pc = some (m', pc')) :
    (stackLog ν).Move m.log pc.client (lifoInterface.labels t m pc m' pc') m'.log pc'.client := by
  cases pc with
  | idle =>
    cases c with
    | push n =>
      obtain ⟨-, h⟩ := Option.ite_none_right_eq_some.mp he
      obtain ⟨rfl, rfl⟩ := Prod.mk.inj (Option.some.inj h)
      exact .call (Request.put n)
    | pop =>
      obtain ⟨rfl, rfl⟩ := Prod.mk.inj (Option.some.inj he)
      exact .call Request.take
    | write n next =>
      obtain ⟨-, h⟩ := Option.ite_none_right_eq_some.mp he
      obtain ⟨rfl, rfl⟩ := Prod.mk.inj (Option.some.inj h)
      exact .stay _
    | step => cases he
  | push pc =>
    obtain ⟨rfl, rfl⟩ := Prod.mk.inj (Option.some.inj he)
    exact move_of_push pc
  | pop pc =>
    obtain ⟨rfl, rfl⟩ := Prod.mk.inj (Option.some.inj he)
    exact move_of_pop pc
  | popRet r =>
    cases r <;>
    · obtain ⟨rfl, rfl⟩ := Prod.mk.inj (Option.some.inj he)
      exact .ret (popResponse _)

end Moves

/-- **The log is what the calls have done.** -/
theorem linearizableTo_log [DecidableEq ι] [DecidableEq ν]
    {ok : ι → Lifo w ν → Pc w ν → Lifo w ν → Prop} {s : Config ι (Lifo w ν) (Pc w ν)}
    {hist : List (Event ι (Config ι (Lifo w ν) (Pc w ν)))}
    (run : Run Init (lifoProgram.StepIf ok) s hist) :
    LinearizableTo (stackLog ν) (lifoInterface.trace hist) s.mem.log := by
  refine run.linearizableTo (stackLog ν) (fun _ _ => Pc.client) Lifo.log ?_
    (fun _ _ _ _ _ _ _ => rfl) ?_
  · rintro s ⟨-, hlog, hidle⟩
    refine ⟨hlog, fun t => ?_⟩
    rw [hidle t]
    rfl
  · rintro t s s' - ⟨-, hs⟩
    obtain ⟨c, he⟩ := hs.exec
    exact (move_of_exec he).goes

end FibConcurrent.MpmcLifo
