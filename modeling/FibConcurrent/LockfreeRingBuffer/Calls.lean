import FibConcurrent.LockfreeRingBuffer.Model
import FibConcurrent.Machine.Linearizable

/-!
# LockfreeRingBuffer — calls and what is pushed and popped

A push appends its value to `pushed` when it claims its index, a pop the value that it will return
to `popped` when it claims its own, and an operation that fails appends nothing: the calls and
returns are those of an object that only keeps this history.
-/

namespace FibConcurrent.LockfreeRingBuffer

open FibConcurrent.Machine FibConcurrent.Data

variable {ι α : Type*} {c : Capacity}

/-- What a client asks for. -/
inductive Request (α : Type*) where
  | trypush (val : α)
  | push (val : α)
  | trypop
  | pop
deriving DecidableEq

/-- What the client is answered: 1 or 0, a value or null. -/
inductive Response (α : Type*) where
  | stored
  | refused
  | took (val : α)
  | nothing
deriving DecidableEq

def tryPushResponse (stored : Bool) : Response α := if stored then .stored else .refused

def tryPopResponse : Option α → Response α
  | some val => .took val
  | none => .nothing

/-- What an operation appends to `pushed` and `popped`. -/
inductive HistoryLegal :
    List α × List α → Request α → Response α → List α × List α → Prop
  | trypush (val : α) (pushed popped : List α) :
      HistoryLegal (pushed, popped) (.trypush val) .stored (pushed ++ [val], popped)
  | push (val : α) (pushed popped : List α) :
      HistoryLegal (pushed, popped) (.push val) .stored (pushed ++ [val], popped)
  | refuse (val : α) (x : List α × List α) : HistoryLegal x (.trypush val) .refused x
  | trypop (val : α) (pushed popped : List α) :
      HistoryLegal (pushed, popped) .trypop (.took val) (pushed, popped ++ [val])
  | pop (val : α) (pushed popped : List α) :
      HistoryLegal (pushed, popped) .pop (.took val) (pushed, popped ++ [val])
  | nothing (x : List α × List α) : HistoryLegal x .trypop .nothing x

/-- The values pushed and the values popped, none to begin with. -/
def ringHistory (α : Type*) : Object (List α × List α) (Request α) (Response α) where
  start x := x = ([], [])
  legal := HistoryLegal

/-- The value that a push has been given. -/
def PushPc.val : PushPc α → α
  | .readLow val => val
  | .readHigh val _ => val
  | .readSlot val .. => val
  | .swapHigh val .. => val
  | .writeSlot val _ => val

/-- Calls to `lockfree_ring_buffer_trypush` and `lockfree_ring_buffer_trypop`, seen from outside. -/
def tryInterface : Interface ι (Ring α) (Pc α) (Request α) (Response α) where
  busy
    | .idle => false
    | .size _ => false
    | .sizeRet .. => false
    | _ => true
  op _ _
    | .push pc => .trypush pc.val
    | _ => .trypop
  result _ _
    | .pushRet stored => tryPushResponse stored
    | .popRet val => tryPopResponse val
    | _ => .stored

/-- An operation is done once it has claimed its index. -/
def Pc.client : Pc α → Client (Request α) (Response α)
  | .push (.writeSlot ..) => .done .stored
  | .push pc => .pending (.trypush pc.val)
  | .pushRet stored => .done (tryPushResponse stored)
  | .pop (.clearSlot _ ret) => .done (.took ret)
  | .pop _ => .pending .trypop
  | .popRet val => .done (tryPopResponse val)
  | _ => .idle

/-- The call has claimed its index, and has still to access its slot. -/
def Pc.atSlot : Pc α → Bool
  | .push (.writeSlot ..) => true
  | .pop (.clearSlot ..) => true
  | _ => false

section Moves

variable {m m' : Ring α}

/-- What an access of a push does: it claims its index, or it leaves the histories alone. -/
inductive PushAccess (m m' : Ring α) : PushPc α → PushPc α ⊕ Bool → Prop
  | claim (val : α) (low high : Nat) (hpushed : m'.pushed = m.pushed ++ [val])
      (hpopped : m'.popped = m.popped) :
      PushAccess m m' (.swapHigh val low high) (.inl (.writeSlot val high))
  | store (val : α) (high : Nat) (hpushed : m'.pushed = m.pushed) (hpopped : m'.popped = m.popped) :
      PushAccess m m' (.writeSlot val high) (.inr true)
  | next (pc pc' : PushPc α) (hval : pc'.val = pc.val) (hpc : (Pc.push pc).atSlot = false)
      (hpc' : (Pc.push pc').atSlot = false) (hpushed : m'.pushed = m.pushed)
      (hpopped : m'.popped = m.popped) : PushAccess m m' pc (.inl pc')
  | fail (pc : PushPc α) (hpc : (Pc.push pc).atSlot = false) (hpushed : m'.pushed = m.pushed)
      (hpopped : m'.popped = m.popped) : PushAccess m m' pc (.inr false)

theorem pushAccess (c : Capacity) (m : Ring α) (pc : PushPc α) :
    PushAccess m (pushStep c m pc).1 pc (pushStep c m pc).2 := by
  cases pc with
  | readSlot val low high =>
    simp only [pushStep]
    split
    · exact .next _ _ rfl rfl rfl rfl rfl
    · exact .fail _ rfl rfl rfl
  | swapHigh val low high =>
    simp only [pushStep]
    split
    · exact .claim val low high rfl rfl
    · exact .fail _ rfl rfl rfl
  | writeSlot val high => exact .store val high rfl rfl
  | _ => exact .next _ _ rfl rfl rfl rfl rfl

/-- What an access of a pop does. -/
inductive PopAccess (m m' : Ring α) : PopPc α → PopPc α ⊕ Option α → Prop
  | claim (low : Nat) (ret : α) (hpushed : m'.pushed = m.pushed)
      (hpopped : m'.popped = m.popped ++ [ret]) :
      PopAccess m m' (.swapLow low ret) (.inl (.clearSlot low ret))
  | clear (low : Nat) (ret : α) (hpushed : m'.pushed = m.pushed) (hpopped : m'.popped = m.popped) :
      PopAccess m m' (.clearSlot low ret) (.inr (some ret))
  | next (pc pc' : PopPc α) (hpc : (Pc.pop pc).atSlot = false)
      (hpc' : (Pc.pop pc').atSlot = false) (hpushed : m'.pushed = m.pushed)
      (hpopped : m'.popped = m.popped) : PopAccess m m' pc (.inl pc')
  | fail (pc : PopPc α) (hpc : (Pc.pop pc).atSlot = false) (hpushed : m'.pushed = m.pushed)
      (hpopped : m'.popped = m.popped) : PopAccess m m' pc (.inr none)

theorem popAccess (c : Capacity) (m : Ring α) (pc : PopPc α) :
    PopAccess m (popStep c m pc).1 pc (popStep c m pc).2 := by
  cases pc with
  | readSlot high low =>
    cases hslot : m.buffer (c.slot low) with
    | none =>
      simp only [popStep, hslot]
      exact .fail _ rfl rfl rfl
    | some ret =>
      simp only [popStep, hslot]
      split
      · exact .next _ _ rfl rfl rfl rfl
      · exact .fail _ rfl rfl rfl
  | swapLow low ret =>
    simp only [popStep]
    split
    · exact .claim low ret rfl rfl
    · exact .fail _ rfl rfl rfl
  | clearSlot low ret => exact .clear low ret rfl rfl
  | _ => exact .next _ _ rfl rfl rfl rfl

theorem client_push {pc : PushPc α} (h : (Pc.push pc).atSlot = false) :
    (Pc.push pc).client = .pending (.trypush pc.val) := by
  cases pc <;> first | rfl | cases h

theorem client_pop {pc : PopPc α} (h : (Pc.pop pc).atSlot = false) :
    (Pc.pop pc).client = .pending .trypop := by
  cases pc <;> first | rfl | cases h

/-- **Every access is a move of a client of the history.** -/
theorem move_of_exec {t : ι} {a : Choice α} {pc pc' : Pc α}
    (he : exec c t a m pc = some (m', pc')) :
    (ringHistory α).Move (m.pushed, m.popped) pc.client (tryInterface.labels t m pc m' pc')
      (m'.pushed, m'.popped) pc'.client := by
  cases pc with
  | idle =>
    cases a with
    | trypush val =>
      obtain ⟨rfl, rfl⟩ := Prod.mk.inj (Option.some.inj he)
      exact .call (Request.trypush val)
    | trypop =>
      obtain ⟨rfl, rfl⟩ := Prod.mk.inj (Option.some.inj he)
      exact .call Request.trypop
    | size =>
      obtain ⟨rfl, rfl⟩ := Prod.mk.inj (Option.some.inj he)
      exact .stay _
    | step => cases he
  | push pc =>
    obtain ⟨rfl, rfl⟩ := Prod.mk.inj (Option.some.inj he)
    have haccess := pushAccess c m pc
    generalize (pushStep c m pc).1 = m', (pushStep c m pc).2 = r at haccess ⊢
    cases haccess with
    | claim val low high hpushed hpopped =>
      rw [hpushed, hpopped]
      exact .done (HistoryLegal.trypush val m.pushed m.popped)
    | store val high hpushed hpopped =>
      rw [hpushed, hpopped]
      exact .stay _
    | next pc pc' hval hpc hpc' hpushed hpopped =>
      rw [hpushed, hpopped, client_push hpc, client_push hpc', hval]
      exact .stay _
    | fail pc hpc hpushed hpopped =>
      rw [hpushed, hpopped, client_push hpc]
      exact .done (HistoryLegal.refuse pc.val (m.pushed, m.popped))
  | pop pc =>
    obtain ⟨rfl, rfl⟩ := Prod.mk.inj (Option.some.inj he)
    have haccess := popAccess c m pc
    generalize (popStep c m pc).1 = m', (popStep c m pc).2 = r at haccess ⊢
    cases haccess with
    | claim low ret hpushed hpopped =>
      rw [hpushed, hpopped]
      exact .done (HistoryLegal.trypop ret m.pushed m.popped)
    | clear low ret hpushed hpopped =>
      rw [hpushed, hpopped]
      exact .stay _
    | next pc pc' hpc hpc' hpushed hpopped =>
      rw [hpushed, hpopped, client_pop hpc, client_pop hpc']
      exact .stay _
    | fail pc hpc hpushed hpopped =>
      rw [hpushed, hpopped, client_pop hpc]
      exact .done (HistoryLegal.nothing (m.pushed, m.popped))
  | size pc =>
    obtain ⟨rfl, rfl⟩ := Prod.mk.inj (Option.some.inj he)
    cases sizeStep m pc <;> exact .stay _
  | sizeRet n gap =>
    obtain ⟨rfl, rfl⟩ := Prod.mk.inj (Option.some.inj he)
    exact .stay _
  | pushRet stored =>
    obtain ⟨rfl, rfl⟩ := Prod.mk.inj (Option.some.inj he)
    exact .ret (tryPushResponse stored)
  | popRet val =>
    obtain ⟨rfl, rfl⟩ := Prod.mk.inj (Option.some.inj he)
    exact .ret (tryPopResponse val)

end Moves

/-- **`pushed` and `popped` are what the calls have done.** -/
theorem linearizableTo_history [DecidableEq ι] {s : Config ι (Ring α) (Pc α)}
    {hist : List (Event ι (Config ι (Ring α) (Pc α)))}
    (run : Run Init (ringProgram c).Step s hist) :
    LinearizableTo (ringHistory α) (tryInterface.trace hist) (s.mem.pushed, s.mem.popped) := by
  have hrun : Run Init ((ringProgram c).StepIf fun _ _ _ _ => True) s hist :=
    run.mono fun _ _ _ h => Program.stepIf_true.mpr h
  refine hrun.linearizableTo (ringHistory α) (fun _ _ => Pc.client)
    (fun m => (m.pushed, m.popped)) ?_ (fun _ _ _ _ _ _ _ => rfl) ?_
  · rintro s ⟨hmem, hidle⟩
    refine ⟨by rw [hmem]; rfl, fun t => ?_⟩
    rw [hidle t]
    rfl
  · rintro t s s' - ⟨-, hs⟩
    obtain ⟨a, he⟩ := hs.exec
    exact (move_of_exec he).goes

end FibConcurrent.LockfreeRingBuffer
