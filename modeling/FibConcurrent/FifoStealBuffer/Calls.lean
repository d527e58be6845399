import FibConcurrent.FifoStealBuffer.Model
import FibConcurrent.Machine.Linearizable

/-!
# FifoStealBuffer — calls and what is pushed and claimed

A push that returns 1 appends its item to `pushed` when it stores `high`, a pop or a steal that
returns success appends an index to `claimed` when it moves `low`, and returns the item that was
pushed there: the calls and returns are those of an object that only keeps this history. A pop has
taken effect at its fetch-and-add, before it reads the slot.
-/

namespace FibConcurrent.FifoStealBuffer

open FibConcurrent.Machine FibConcurrent.Data

variable {ι α : Type*} {c : Capacity}

/-- What a client asks for. -/
inductive Request (α : Type*) where
  | push (data : α)
  | pop
  | steal
deriving DecidableEq

/-- What the client is answered. -/
inductive Response (α : Type*) where
  | pushed (stored : Bool)
  | popped (out : Option α)
  | stolen (result : StealResult α)
deriving DecidableEq

/-- What an operation appends to `pushed` and `claimed`. -/
inductive HistoryLegal :
    List α × List Nat → Request α → Response α → List α × List Nat → Prop
  | push (data : α) (pushed : List α) (claimed : List Nat) :
      HistoryLegal (pushed, claimed) (.push data) (.pushed true) (pushed ++ [data], claimed)
  | full (data : α) (x : List α × List Nat) : HistoryLegal x (.push data) (.pushed false) x
  | pop (i : Nat) (out : α) (pushed : List α) (claimed : List Nat) (h : pushed[i]? = some out) :
      HistoryLegal (pushed, claimed) .pop (.popped (some out)) (pushed, claimed ++ [i])
  | popFails (x : List α × List Nat) : HistoryLegal x .pop (.popped none) x
  | steal (i : Nat) (out : α) (pushed : List α) (claimed : List Nat) (h : pushed[i]? = some out) :
      HistoryLegal (pushed, claimed) .steal (.stolen (.success out)) (pushed, claimed ++ [i])
  | stealEmpty (x : List α × List Nat) : HistoryLegal x .steal (.stolen .empty) x
  | stealAborts (x : List α × List Nat) : HistoryLegal x .steal (.stolen .abort) x

/-- The items pushed and the indices claimed, none to begin with. -/
def bufferHistory (α : Type*) : Object (List α × List Nat) (Request α) (Response α) where
  start x := x = ([], [])
  legal := HistoryLegal

/-- The item that a push has been given. -/
def PushPc.data : PushPc α → α
  | .readHigh data => data
  | .readLow data _ => data
  | .writeSlot data _ => data
  | .writeHigh data _ => data

/-- What a pop will return, once it has claimed its index or has found that it must not. -/
def PopPc.answer (m : Buffer α) : PopPc → Option (Option α)
  | .writeLow _ => some none
  | .readSlot n => some m.pushed[n - 1]?
  | _ => none

/-- Calls to the three operations, seen from outside. -/
def bufferInterface : Interface ι (Buffer α) (Pc α) (Request α) (Response α) where
  busy
    | .idle => false
    | _ => true
  op _ _
    | .push pc => .push pc.data
    | .pop _ => .pop
    | _ => .steal
  result _ _
    | .pushRet stored => .pushed stored
    | .popRet out => .popped out
    | .stealRet result => .stolen result
    | _ => .stolen .empty

/-- A pop that has claimed its index is done, whatever the slot holds. -/
def Pc.client (m : Buffer α) : Pc α → Client (Request α) (Response α)
  | .idle => .idle
  | .push pc => .pending (.push pc.data)
  | .pushRet stored => .done (.pushed stored)
  | .pop pc => (pc.answer m).elim (.pending .pop) fun out => .done (.popped out)
  | .popRet out => .done (.popped out)
  | .steal _ => .pending .steal
  | .stealRet result => .done (.stolen result)

/-- The slots hold what was pushed, for those who read them. -/
def ReadsPushed (c : Capacity) (m : Buffer α) : Pc α → Prop
  | .pop (.addLow h) => (m.low + 1) % 2 ^ 64 < h →
      wrapSub ((m.low + 1) % 2 ^ 64) 1 = (m.low + 1) % 2 ^ 64 - 1 ∧
        ∃ v, m.pushed[(m.low + 1) % 2 ^ 64 - 1]? = some v
  | .pop (.readSlot n) => wrapSub n 1 = n - 1 ∧
      m.pushed[n - 1]? = some (m.buffer (c.slot (n - 1)))
  | .steal (.swapLow l v) => m.low = l → m.pushed[l]? = some v
  | _ => True

section Moves

variable {m m' : Buffer α} {pc pc' : Pc α} {t master : ι}

theorem client_pop (m : Buffer α) (r : PopPc ⊕ Option α) :
    (r.elim Pc.pop Pc.popRet).client m =
      (r.elim (PopPc.answer m) some).elim (.pending .pop) fun out => .done (.popped out) := by
  cases r <;> rfl

theorem labels_pop (t : ι) (m m' : Buffer α) (pc : PopPc) (r : PopPc ⊕ Option α) :
    bufferInterface.labels t m (.pop pc) m' (r.elim Pc.pop Pc.popRet) = [] := by
  cases r <;> rfl

theorem move_of_push (pc : PushPc α) :
    (bufferHistory α).Move (m.pushed, m.claimed) (.pending (.push pc.data))
      (bufferInterface.labels t m (.push pc) (pushStep c m pc).1 (match (pushStep c m pc).2 with
        | .inl pc' => .push pc'
        | .inr stored => .pushRet stored)) ((pushStep c m pc).1.pushed, (pushStep c m pc).1.claimed)
      (Pc.client (pushStep c m pc).1 (match (pushStep c m pc).2 with
        | .inl pc' => .push pc'
        | .inr stored => .pushRet stored)) := by
  cases pc with
  | readLow v h =>
    by_cases hroom : wrapSub h m.low < c.size
    · simp only [pushStep, if_pos hroom]
      exact .stay _
    · simp only [pushStep, if_neg hroom]
      exact .done (HistoryLegal.full v (m.pushed, m.claimed))
  | writeHigh v h => exact .done (HistoryLegal.push v m.pushed m.claimed)
  | _ => exact .stay _

theorem move_of_pop {pc : PopPc} (hr : ReadsPushed c m (.pop pc)) :
    (bufferHistory α).Move (m.pushed, m.claimed) (Pc.client m (.pop pc)) []
      ((popStep c m pc).1.pushed, (popStep c m pc).1.claimed)
      (Pc.client (popStep c m pc).1 ((popStep c m pc).2.elim .pop .popRet)) := by
  cases pc with
  | readHigh => exact .stay _
  | readLow h =>
    by_cases hlt : h > m.low
    · simp only [popStep, if_pos hlt]
      exact .stay _
    · simp only [popStep, if_neg hlt]
      exact .done (HistoryLegal.popFails (m.pushed, m.claimed))
  | addLow h =>
    by_cases hge : (m.low + 1) % 2 ^ 64 ≥ h
    · simp only [popStep, if_pos hge]
      exact .done (HistoryLegal.popFails (m.pushed, m.claimed))
    · obtain ⟨hsub, v, hv⟩ := hr (Nat.lt_of_not_le hge)
      simp only [popStep, if_neg hge, hsub]
      show (bufferHistory α).Move (m.pushed, m.claimed) (.pending .pop) []
        (m.pushed, m.claimed ++ [(m.low + 1) % 2 ^ 64 - 1])
          (.done (.popped m.pushed[(m.low + 1) % 2 ^ 64 - 1]?))
      rw [hv]
      exact .done (HistoryLegal.pop _ v m.pushed m.claimed hv)
  | writeLow h => exact .stay _
  | readSlot n =>
    obtain ⟨hsub, hv⟩ := hr
    simp only [popStep, hsub]
    show (bufferHistory α).Move (m.pushed, m.claimed) (.done (.popped m.pushed[n - 1]?)) []
      (m.pushed, m.claimed) (.done (.popped (some (m.buffer (c.slot (n - 1))))))
    rw [hv]
    exact .stay _

theorem move_of_steal {pc : StealPc α} (hr : ReadsPushed c m (.steal pc)) :
    (bufferHistory α).Move (m.pushed, m.claimed) (.pending .steal)
      (bufferInterface.labels t m (.steal pc) (stealStep c m pc).1 (match (stealStep c m pc).2 with
        | .inl pc' => .steal pc'
        | .inr result => .stealRet result))
      ((stealStep c m pc).1.pushed, (stealStep c m pc).1.claimed)
      (Pc.client (stealStep c m pc).1 (match (stealStep c m pc).2 with
        | .inl pc' => .steal pc'
        | .inr result => .stealRet result)) := by
  cases pc with
  | readLow h =>
    by_cases hlt : h > m.low
    · simp only [stealStep, if_pos hlt]
      exact .stay _
    · simp only [stealStep, if_neg hlt]
      exact .done (HistoryLegal.stealEmpty (m.pushed, m.claimed))
  | swapLow l v =>
    by_cases heq : m.low = l
    · simp only [stealStep, if_pos heq]
      exact .done (HistoryLegal.steal l v m.pushed m.claimed (hr heq))
    · simp only [stealStep, if_neg heq]
      exact .done (HistoryLegal.stealAborts (m.pushed, m.claimed))
  | _ => exact .stay _

/-- **Every access is a move of a client of the history.** -/
theorem move_of_exec [DecidableEq ι] {a : Choice α}
    (he : exec c master t a m pc = some (m', pc')) (hr : ReadsPushed c m pc) :
    (bufferHistory α).Move (m.pushed, m.claimed) (pc.client m)
      (bufferInterface.labels t m pc m' pc') (m'.pushed, m'.claimed) (pc'.client m') := by
  cases pc with
  | idle =>
    cases a with
    | push data =>
      obtain ⟨-, h⟩ := Option.ite_none_right_eq_some.mp he
      obtain ⟨rfl, rfl⟩ := Prod.mk.inj (Option.some.inj h)
      exact .call (Request.push data)
    | pop =>
      obtain ⟨-, h⟩ := Option.ite_none_right_eq_some.mp he
      obtain ⟨rfl, rfl⟩ := Prod.mk.inj (Option.some.inj h)
      exact .call Request.pop
    | steal =>
      obtain ⟨rfl, rfl⟩ := Prod.mk.inj (Option.some.inj he)
      exact .call Request.steal
    | step => cases he
  | push pc =>
    obtain ⟨rfl, rfl⟩ := Prod.mk.inj (Option.some.inj he)
    exact move_of_push pc
  | pop pc =>
    obtain ⟨rfl, hpc'⟩ := Prod.mk.inj (Option.some.inj he)
    have hpc' : pc' = (popStep c m pc).2.elim Pc.pop Pc.popRet := by
      rw [← hpc']
      cases (popStep c m pc).2 <;> rfl
    rw [hpc', labels_pop]
    exact move_of_pop hr
  | steal pc =>
    obtain ⟨rfl, rfl⟩ := Prod.mk.inj (Option.some.inj he)
    exact move_of_steal hr
  | pushRet stored =>
    obtain ⟨rfl, rfl⟩ := Prod.mk.inj (Option.some.inj he)
    exact .ret (Response.pushed stored)
  | popRet out =>
    obtain ⟨rfl, rfl⟩ := Prod.mk.inj (Option.some.inj he)
    exact .ret (Response.popped out)
  | stealRet result =>
    obtain ⟨rfl, rfl⟩ := Prod.mk.inj (Option.some.inj he)
    exact .ret (Response.stolen result)

theorem pushed_of_popStep (m : Buffer α) (pc : PopPc) : (popStep c m pc).1.pushed = m.pushed := by
  cases pc with
  | readLow h =>
    simp only [popStep]
    split <;> rfl
  | addLow h =>
    simp only [popStep]
    split <;> rfl
  | _ => rfl

theorem pushed_of_stealStep (m : Buffer α) (pc : StealPc α) :
    (stealStep c m pc).1.pushed = m.pushed := by
  cases pc with
  | readLow h =>
    simp only [stealStep]
    split <;> rfl
  | swapLow l v =>
    simp only [stealStep]
    split <;> rfl
  | _ => rfl

/-- The master's pop is answered from the push history, which thieves leave alone. -/
theorem client_of_others [DecidableEq ι] {a : Choice α} {u : ι} {k : Pc α}
    (he : exec c master t a m pc = some (m', pc')) (hpush : ∀ p, pc = .push p → t = master)
    (hpop : ∀ q, k = .pop q → u = master) (hut : u ≠ t) : k.client m' = k.client m := by
  cases k with
  | pop q =>
    have hu := hpop q rfl
    have hpushed : m'.pushed = m.pushed := by
      cases pc with
      | idle =>
        cases a <;> simp only [exec, Option.ite_none_right_eq_some, Option.some.injEq,
          Prod.mk.injEq, reduceCtorEq] at he
        · rw [← he.2.1]
        · rw [← he.2.1]
        · rw [← he.1]
      | push pc => exact absurd (hu.trans (hpush pc rfl).symm) hut
      | pop pc =>
        obtain ⟨rfl, -⟩ := Prod.mk.inj (Option.some.inj he)
        exact pushed_of_popStep m pc
      | steal pc =>
        obtain ⟨rfl, -⟩ := Prod.mk.inj (Option.some.inj he)
        exact pushed_of_stealStep m pc
      | _ =>
        obtain ⟨rfl, -⟩ := Prod.mk.inj (Option.some.inj he)
        rfl
    have hanswer : q.answer m' = q.answer m := by
      cases q with
      | readSlot n =>
        show some m'.pushed[n - 1]? = some m.pushed[n - 1]?
        rw [hpushed]
      | _ => rfl
    show (q.answer m').elim _ _ = (q.answer m).elim _ _
    rw [hanswer]
  | _ => rfl

end Moves

end FibConcurrent.FifoStealBuffer
