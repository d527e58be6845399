import FibConcurrent.LockfreeRingBuffer.Failure
import FibConcurrent.Machine.Progress

/-!
# LockfreeRingBuffer — the operations that wait

`lockfree_ring_buffer_push` and `lockfree_ring_buffer_pop` call
`lockfree_ring_buffer_trypush` and `lockfree_ring_buffer_trypop` until they succeed.
Between two attempts they read both counters, only to decide whether to relax the
processor.

A thread that waits is a thread that calls the other operation again and again: what
is proved of those in every interleaving carries over (`tryStep_of_blockStep`). A call that
returns has moved its value exactly once (`lockfreeRingBuffer_blocking`), and one
that goes round its loop does so for a reason each time (`lockfreeRingBuffer_waits`).
-/

namespace FibConcurrent.LockfreeRingBuffer

open FibConcurrent.Machine FibConcurrent.Data

variable {ι α : Type*} {c : Capacity}

/-- Program points of all operations: one that does not wait, or one of the two loops with
the attempt it is making, its reads of the counters, and `cpu_relax`. -/
inductive BlockPc (α : Type*) where
  | call (pc : Pc α)
  | push (pc : PushPc α)
  | pushReadHigh (val : α)
  | pushReadLow (val : α) (high : Nat)
  | pushRelax (val : α)
  | pushRet (val : α)
  | pop (pc : PopPc α)
  | popReadHigh
  | popReadLow (high : Nat)
  | popRelax
  | popRet (val : α)
deriving DecidableEq

/-- What a thread decides to do next. -/
inductive BlockChoice (α : Type*) where
  | call (a : Choice α)
  | push (val : α)
  | pop

section Model

variable (c : Capacity)

/-- One access of `lockfree_ring_buffer_push`. -/
def blockPushStep (m : Ring α) (pc : PushPc α) : Ring α × BlockPc α :=
  let r := pushStep c m pc
  (r.1, match r.2 with
    | .inl pc' => .push pc'
    | .inr true => .pushRet pc.val
    | .inr false => .pushReadHigh pc.val)

/-- One access of `lockfree_ring_buffer_pop`. -/
def blockPopStep (m : Ring α) (pc : PopPc α) : Ring α × BlockPc α :=
  let r := popStep c m pc
  (r.1, match r.2 with
    | .inl pc' => .pop pc'
    | .inr (some ret) => .popRet ret
    | .inr none => .popReadHigh)

/-- Any thread may call any operation. -/
def blockExec (t : ι) (a : BlockChoice α) (m : Ring α) : BlockPc α → Option (Ring α × BlockPc α)
  | .call pc =>
      match a, pc with
      | .push val, .idle => some (m, .push (.readLow val))
      | .pop, .idle => some (m, .pop .readHigh)
      | .call a, pc => (exec c t a m pc).map fun r => (r.1, .call r.2)
      | _, _ => none
  | .push pc => some (blockPushStep c m pc)
  | .pushReadHigh val => some (m, .pushReadLow val m.high)
  | .pushReadLow val high =>
      -- the buffer is full
      if c.size ≤ wrapSub high m.low then some (m, .pushRelax val)
      else some (m, .push (.readLow val))
  | .pushRelax val => some (m, .push (.readLow val))
  | .pushRet _ => some (m, .call .idle)
  | .pop pc => some (blockPopStep c m pc)
  | .popReadHigh => some (m, .popReadLow m.high)
  | .popReadLow high =>
      -- the buffer is empty
      if high ≤ m.low then some (m, .popRelax) else some (m, .pop .readHigh)
  | .popRelax => some (m, .pop .readHigh)
  | .popRet _ => some (m, .call .idle)

/-- The interleavings of any number of threads that wait or do not wait. -/
def blockProgram : Program ι (BlockChoice α) (Ring α) (BlockPc α) := ⟨blockExec c⟩

/-- A new ring, and every thread between calls. -/
def BlockInit (s : Config ι (Ring α) (BlockPc α)) : Prop :=
  s.mem = create ∧ ∀ t, s.loc t = .call .idle

def blockInitial : Config ι (Ring α) (BlockPc α) := ⟨create, fun _ => .call .idle⟩

end Model

/-! ## A thread that waits tries again and again -/

/-- The call without the loop around it: the attempt in progress, its result, or between
two attempts. -/
def BlockPc.attempt : BlockPc α → Pc α
  | .call pc => pc
  | .push pc => .push pc
  | .pushReadHigh _ => .pushRet false
  | .pushReadLow .. => .idle
  | .pushRelax _ => .idle
  | .pushRet _ => .pushRet true
  | .pop pc => .pop pc
  | .popReadHigh => .popRet none
  | .popReadLow _ => .idle
  | .popRelax => .idle
  | .popRet val => .popRet (some val)

def attempts (s : Config ι (Ring α) (BlockPc α)) : Config ι (Ring α) (Pc α) :=
  ⟨s.mem, fun t => (s.loc t).attempt⟩

/-- The attempts of an access: the same access, or none at all. -/
theorem attempt_of_exec {t : ι} {a : BlockChoice α} {m m' : Ring α} {pc pc' : BlockPc α}
    (he : blockExec c t a m pc = some (m', pc')) :
    (m' = m ∧ pc.attempt = .idle ∧ pc'.attempt = .idle) ∨
      ∃ b, exec c t b m pc.attempt = some (m', pc'.attempt) := by
  cases pc with
  | call pc =>
    cases a with
    | call a =>
      obtain ⟨r, hr, h⟩ := Option.map_eq_some_iff.mp he
      obtain ⟨rfl, rfl⟩ := Prod.mk.inj h
      exact .inr ⟨a, hr⟩
    | push val =>
      cases pc with
      | idle =>
        obtain ⟨rfl, rfl⟩ := Prod.mk.inj (Option.some.inj he)
        exact .inr ⟨.trypush val, rfl⟩
      | _ => cases he
    | pop =>
      cases pc with
      | idle =>
        obtain ⟨rfl, rfl⟩ := Prod.mk.inj (Option.some.inj he)
        exact .inr ⟨.trypop, rfl⟩
      | _ => cases he
  | push pc =>
    obtain ⟨rfl, rfl⟩ := Prod.mk.inj (Option.some.inj he)
    refine .inr ⟨.step, ?_⟩
    show some ((pushStep c m pc).1, _) = some ((blockPushStep c m pc).1, _)
    unfold blockPushStep
    rcases (pushStep c m pc).2 with pc' | _ | _ <;> rfl
  | pushReadHigh val =>
    obtain ⟨rfl, rfl⟩ := Prod.mk.inj (Option.some.inj he)
    exact .inr ⟨.step, rfl⟩
  | pushReadLow val high =>
    simp only [blockExec] at he
    split at he
    · obtain ⟨rfl, rfl⟩ := Prod.mk.inj (Option.some.inj he)
      exact .inl ⟨rfl, rfl, rfl⟩
    · obtain ⟨rfl, rfl⟩ := Prod.mk.inj (Option.some.inj he)
      exact .inr ⟨.trypush val, rfl⟩
  | pushRelax val =>
    obtain ⟨rfl, rfl⟩ := Prod.mk.inj (Option.some.inj he)
    exact .inr ⟨.trypush val, rfl⟩
  | pushRet val =>
    obtain ⟨rfl, rfl⟩ := Prod.mk.inj (Option.some.inj he)
    exact .inr ⟨.step, rfl⟩
  | pop pc =>
    obtain ⟨rfl, rfl⟩ := Prod.mk.inj (Option.some.inj he)
    refine .inr ⟨.step, ?_⟩
    show some ((popStep c m pc).1, _) = some ((blockPopStep c m pc).1, _)
    unfold blockPopStep
    rcases (popStep c m pc).2 with pc' | _ | _ <;> rfl
  | popReadHigh =>
    obtain ⟨rfl, rfl⟩ := Prod.mk.inj (Option.some.inj he)
    exact .inr ⟨.step, rfl⟩
  | popReadLow high =>
    simp only [blockExec] at he
    split at he
    · obtain ⟨rfl, rfl⟩ := Prod.mk.inj (Option.some.inj he)
      exact .inl ⟨rfl, rfl, rfl⟩
    · obtain ⟨rfl, rfl⟩ := Prod.mk.inj (Option.some.inj he)
      exact .inr ⟨.trypop, rfl⟩
  | popRelax =>
    obtain ⟨rfl, rfl⟩ := Prod.mk.inj (Option.some.inj he)
    exact .inr ⟨.trypop, rfl⟩
  | popRet val =>
    obtain ⟨rfl, rfl⟩ := Prod.mk.inj (Option.some.inj he)
    exact .inr ⟨.step, rfl⟩

section Refinement

variable [DecidableEq ι] {s s' : Config ι (Ring α) (BlockPc α)} {t : ι}
  {hist : List (Event ι (Config ι (Ring α) (BlockPc α)))}

/-- **Waiting refines trying**: a step of a thread that waits is a step of a thread that
tries, or none. -/
theorem tryStep_of_blockStep (hs : (blockProgram c).Step t s s') :
    attempts s' = attempts s ∨ (ringProgram c).Step t (attempts s) (attempts s') := by
  obtain ⟨a, he⟩ := hs.exec
  have hloc : (attempts s').loc = Function.update (attempts s).loc t (s'.loc t).attempt := by
    funext u
    by_cases hut : u = t
    · subst hut
      rw [Function.update_self]
      rfl
    · rw [Function.update_of_ne hut]
      exact congrArg BlockPc.attempt (hs.loc_of_ne hut)
  rcases attempt_of_exec (t := t) he with ⟨hmem, hidle, hidle'⟩ | ⟨b, hb⟩
  · refine .inl ?_
    have hloc : (attempts s').loc = (attempts s).loc := by
      rw [hloc, hidle', ← hidle]
      exact Function.update_eq_self ..
    show Config.mk s'.mem (attempts s').loc = attempts s
    rw [hloc, hmem]
    rfl
  · refine .inr ⟨b, Program.next_eq_some.mpr ⟨s'.mem, (s'.loc t).attempt, hb, ?_⟩⟩
    show Config.mk s'.mem (attempts s').loc = _
    rw [hloc]

/-- Nothing is ever taken out of the push history. -/
theorem pushed_le_of_blockStep (hs : (blockProgram c).Step t s s') :
    s.mem.pushed.length ≤ s'.mem.pushed.length := by
  rcases tryStep_of_blockStep hs with heq | hs
  · have hmem : (attempts s').mem = (attempts s).mem := by rw [heq]
    have hmem : s'.mem = s.mem := hmem
    rw [hmem]
  · obtain ⟨a, he⟩ := hs.exec
    exact pushed_le_of_exec (t := t) he

theorem attempts_run (run : Run BlockInit (blockProgram c).Step s hist) :
    ∃ hist', Run Init (ringProgram (ι := ι) c).Step (attempts s) hist' := by
  refine run.project attempts ?_ ?_
  · rintro s ⟨hmem, hidle⟩
    exact ⟨hmem, fun t => congrArg BlockPc.attempt (hidle t)⟩
  · intro t s s' hs
    exact tryStep_of_blockStep hs

end Refinement

/-! ## What a call does to the ring -/

/-- The call has claimed its index. -/
def Pc.claimed : Pc α → Bool
  | .push (.writeSlot ..) => true
  | .pushRet stored => stored
  | .pop (.clearSlot ..) => true
  | .popRet val => val.isSome
  | _ => false

/-- What an access does to the histories: nothing, or it claims an index for the call. -/
inductive Claims (m m' : Ring α) (pc pc' : Pc α) : Prop
  | same (hpushed : m'.pushed = m.pushed) (hpopped : m'.popped = m.popped)
      (h : pc' = .idle ∨ pc'.claimed = pc.claimed) (hslot : pc'.atSlot = false)
  | push (v : α) (i : Nat) (hcall : pc ≠ .idle) (hpc : pc.claimed = false)
      (h : pc' = .push (.writeSlot v i)) (hpushed : m'.pushed = m.pushed ++ [v])
      (hpopped : m'.popped = m.popped)
  | pop (v : α) (i : Nat) (hcall : pc ≠ .idle) (hpc : pc.claimed = false)
      (h : pc' = .pop (.clearSlot i v)) (hpushed : m'.pushed = m.pushed)
      (hpopped : m'.popped = m.popped ++ [v])

theorem claimed_push {pc : PushPc α} (h : (Pc.push pc).atSlot = false) :
    (Pc.push pc).claimed = false := by
  cases pc <;> first | rfl | cases h

theorem claimed_pop {pc : PopPc α} (h : (Pc.pop pc).atSlot = false) :
    (Pc.pop pc).claimed = false := by
  cases pc <;> first | rfl | cases h

theorem claims_of_exec {t : ι} {a : Choice α} {m m' : Ring α} {pc pc' : Pc α}
    (he : exec c t a m pc = some (m', pc')) : Claims m m' pc pc' := by
  cases pc with
  | idle =>
    cases a with
    | step => cases he
    | _ =>
      obtain ⟨rfl, rfl⟩ := Prod.mk.inj (Option.some.inj he)
      exact .same rfl rfl (.inr rfl) rfl
  | push pc =>
    obtain ⟨rfl, rfl⟩ := Prod.mk.inj (Option.some.inj he)
    have haccess := pushAccess c m pc
    generalize (pushStep c m pc).1 = m', (pushStep c m pc).2 = r at haccess ⊢
    cases haccess with
    | claim val low high hpushed hpopped => exact .push val high nofun rfl rfl hpushed hpopped
    | store val high hpushed hpopped => exact .same hpushed hpopped (.inr rfl) rfl
    | next pc pc' _ hpc hpc' hpushed hpopped =>
      exact .same hpushed hpopped (.inr (by rw [claimed_push hpc, claimed_push hpc'])) hpc'
    | fail pc hpc hpushed hpopped =>
      exact .same hpushed hpopped (.inr (claimed_push hpc).symm) rfl
  | pop pc =>
    obtain ⟨rfl, rfl⟩ := Prod.mk.inj (Option.some.inj he)
    have haccess := popAccess c m pc
    generalize (popStep c m pc).1 = m', (popStep c m pc).2 = r at haccess ⊢
    cases haccess with
    | claim low ret hpushed hpopped => exact .pop ret low nofun rfl rfl hpushed hpopped
    | clear low ret hpushed hpopped => exact .same hpushed hpopped (.inr rfl) rfl
    | next pc pc' hpc hpc' hpushed hpopped =>
      exact .same hpushed hpopped (.inr (by rw [claimed_pop hpc, claimed_pop hpc'])) hpc'
    | fail pc hpc hpushed hpopped =>
      exact .same hpushed hpopped (.inr (claimed_pop hpc).symm) rfl
  | size pc =>
    obtain ⟨rfl, rfl⟩ := Prod.mk.inj (Option.some.inj he)
    cases pc <;> exact .same rfl rfl (.inr rfl) rfl
  | _ =>
    obtain ⟨rfl, rfl⟩ := Prod.mk.inj (Option.some.inj he)
    exact .same rfl rfl (.inl rfl) rfl

section Waiting

variable {t : ι} {a : BlockChoice α} {m m' : Ring α} {pc pc' : BlockPc α}

theorem claims_of_blockExec (he : blockExec c t a m pc = some (m', pc')) :
    Claims m m' pc.attempt pc'.attempt := by
  rcases attempt_of_exec he with ⟨rfl, -, hidle⟩ | ⟨b, hb⟩
  · rw [hidle]
    exact .same rfl rfl (.inl rfl) rfl
  · exact claims_of_exec hb

/-- A call that waits has not claimed an index. -/
theorem not_claimed_of_wait (he : blockExec c t a m pc = some (m', pc'))
    (hwait : pc'.attempt = .idle) (hb : pc' ≠ .call .idle) : pc.attempt.claimed = false := by
  cases pc with
  | call pc =>
    cases a with
    | call a =>
      obtain ⟨r, -, h⟩ := Option.map_eq_some_iff.mp he
      obtain ⟨-, rfl⟩ := Prod.mk.inj h
      exact absurd (congrArg BlockPc.call hwait) hb
    | _ =>
      cases pc with
      | idle => rfl
      | _ => cases he
  | push pc =>
    obtain ⟨-, rfl⟩ := Prod.mk.inj (Option.some.inj he)
    rcases hr : (pushStep c m pc).2 with pc' | _ | _ <;> simp [hr, BlockPc.attempt] at hwait
  | pop pc =>
    obtain ⟨-, rfl⟩ := Prod.mk.inj (Option.some.inj he)
    rcases hr : (popStep c m pc).2 with pc' | _ | _ <;> simp [hr, BlockPc.attempt] at hwait
  | pushRet val =>
    obtain ⟨-, rfl⟩ := Prod.mk.inj (Option.some.inj he)
    exact absurd rfl hb
  | popRet val =>
    obtain ⟨-, rfl⟩ := Prod.mk.inj (Option.some.inj he)
    exact absurd rfl hb
  | _ => rfl

/-- `lockfree_ring_buffer_trypush` returns 1 from the access that stores the value. -/
theorem pushStep_true {pc : PushPc α} (h : (pushStep c m pc).2 = .inr true) :
    ∃ v i, pc = .writeSlot v i := by
  have haccess := pushAccess c m pc
  rw [h] at haccess
  cases haccess with
  | store val high => exact ⟨val, high, rfl⟩

/-- `lockfree_ring_buffer_trypop` returns a value from the access that clears the slot. -/
theorem popStep_some {pc : PopPc α} {v : α} (h : (popStep c m pc).2 = .inr (some v)) :
    ∃ i, pc = .clearSlot i v := by
  have haccess := popAccess c m pc
  rw [h] at haccess
  cases haccess with
  | clear low ret => exact ⟨low, rfl⟩

theorem pushRet_of_blockExec {v : α} (he : blockExec c t a m pc = some (m', .pushRet v)) :
    ∃ i, pc = .push (.writeSlot v i) := by
  cases pc with
  | call pc =>
    cases a with
    | call a =>
      obtain ⟨r, -, h⟩ := Option.map_eq_some_iff.mp he
      cases (Prod.mk.inj h).2
    | _ => cases pc <;> cases he
  | push pc =>
    have hpc : (blockPushStep c m pc).2 = .pushRet v := (Prod.mk.inj (Option.some.inj he)).2
    rcases hr : (pushStep c m pc).2 with pc' | _ | _
    · simp [blockPushStep, hr] at hpc
    · simp [blockPushStep, hr] at hpc
    · obtain ⟨w, i, rfl⟩ := pushStep_true hr
      cases hpc
      exact ⟨i, rfl⟩
  | pop pc =>
    have hpc : (blockPopStep c m pc).2 = .pushRet v := (Prod.mk.inj (Option.some.inj he)).2
    rcases hr : (popStep c m pc).2 with pc' | _ | _ <;> simp [blockPopStep, hr] at hpc
  | pushReadLow val high =>
    simp only [blockExec] at he
    split at he <;> cases he
  | popReadLow high =>
    simp only [blockExec] at he
    split at he <;> cases he
  | _ => cases he

theorem popRet_of_blockExec {v : α} (he : blockExec c t a m pc = some (m', .popRet v)) :
    ∃ i, pc = .pop (.clearSlot i v) := by
  cases pc with
  | call pc =>
    cases a with
    | call a =>
      obtain ⟨r, -, h⟩ := Option.map_eq_some_iff.mp he
      cases (Prod.mk.inj h).2
    | _ => cases pc <;> cases he
  | push pc =>
    have hpc : (blockPushStep c m pc).2 = .popRet v := (Prod.mk.inj (Option.some.inj he)).2
    rcases hr : (pushStep c m pc).2 with pc' | _ | _ <;> simp [blockPushStep, hr] at hpc
  | pop pc =>
    have hpc : (blockPopStep c m pc).2 = .popRet v := (Prod.mk.inj (Option.some.inj he)).2
    rcases hr : (popStep c m pc).2 with pc' | _ | w
    · simp [blockPopStep, hr] at hpc
    · simp [blockPopStep, hr] at hpc
    · obtain ⟨i, rfl⟩ := popStep_some hr
      cases hpc
      exact ⟨i, rfl⟩
  | pushReadLow val high =>
    simp only [blockExec] at he
    split at he <;> cases he
  | popReadLow high =>
    simp only [blockExec] at he
    split at he <;> cases he
  | _ => cases he

end Waiting

section Runs

variable [DecidableEq ι] {s : Config ι (Ring α) (BlockPc α)}
  {hist : List (Event ι (Config ι (Ring α) (BlockPc α)))}

/-- Thread `t` is in a call. -/
def InCall (t : ι) (s : Config ι (Ring α) (BlockPc α)) : Prop := s.loc t ≠ .call .idle

/-- Thread `t` puts `v` into the ring. -/
def Puts (t : ι) (v : α) (e : Event ι (Config ι (Ring α) (BlockPc α))) : Prop :=
  e.tid = t ∧ e.post.mem.pushed = e.pre.mem.pushed ++ [v]

/-- Thread `t` takes `v` out of the ring. -/
def Takes (t : ι) (v : α) (e : Event ι (Config ι (Ring α) (BlockPc α))) : Prop :=
  e.tid = t ∧ e.post.mem.popped = e.pre.mem.popped ++ [v]

/-- Thread `t` puts something in or takes something out. -/
def Moves (t : ι) (e : Event ι (Config ι (Ring α) (BlockPc α))) : Prop :=
  e.tid = t ∧ (e.post.mem.pushed ≠ e.pre.mem.pushed ∨ e.post.mem.popped ≠ e.pre.mem.popped)

/-- A push that returns has put its value into the ring. -/
theorem pushRet_during (run : Run BlockInit (blockProgram c).Step s hist) {t : ι} {v : α}
    (hret : s.loc t = .pushRet v) : During (InCall t) (Puts t v) hist := by
  have run : Run BlockInit ((blockProgram c).StepIf fun _ _ _ _ => True) s hist :=
    run.mono fun _ _ _ h => ⟨trivial, h⟩
  refine run.during_of_local (fun l => l = .pushRet v ∨ ∃ i, l = .push (.writeSlot v i))
    (· ≠ .call .idle) ?_ ?_ ?_ ?_ (.inl hret)
  · intro s h hm
    rw [h.2 t] at hm
    rcases hm with hm | ⟨i, hm⟩ <;> cases hm
  · intro a m l m' l' he hm
    have he : blockExec c t a m l = some (m', l') := he
    rcases hm with rfl | ⟨i, rfl⟩
    · obtain ⟨i, rfl⟩ := pushRet_of_blockExec he
      simp
    · rintro rfl
      cases claims_of_blockExec he with
      | same _ _ _ hslot => cases hslot
      | push _ _ hcall => exact hcall rfl
      | pop _ _ hcall => exact hcall rfl
  · intro l hm
    rcases hm with rfl | ⟨i, rfl⟩ <;> simp
  · intro s s' _ hs hn hm
    obtain ⟨a, he⟩ := hs.2.exec
    have he : blockExec c t a s.mem (s.loc t) = some (s'.mem, s'.loc t) := he
    rcases hm with hm | ⟨i, hm⟩
    · rw [hm] at he
      exact absurd (.inr (pushRet_of_blockExec he)) hn
    · have hclaims := claims_of_blockExec he
      rw [hm] at hclaims
      cases hclaims with
      | same _ _ _ hslot => cases hslot
      | push w j _ _ h hpushed _ =>
        cases h
        exact ⟨rfl, hpushed⟩
      | pop w j _ _ h _ _ => cases h

/-- A pop that returns has taken its value out of the ring. -/
theorem popRet_during (run : Run BlockInit (blockProgram c).Step s hist) {t : ι} {v : α}
    (hret : s.loc t = .popRet v) : During (InCall t) (Takes t v) hist := by
  have run : Run BlockInit ((blockProgram c).StepIf fun _ _ _ _ => True) s hist :=
    run.mono fun _ _ _ h => ⟨trivial, h⟩
  refine run.during_of_local (fun l => l = .popRet v ∨ ∃ i, l = .pop (.clearSlot i v))
    (· ≠ .call .idle) ?_ ?_ ?_ ?_ (.inl hret)
  · intro s h hm
    rw [h.2 t] at hm
    rcases hm with hm | ⟨i, hm⟩ <;> cases hm
  · intro a m l m' l' he hm
    have he : blockExec c t a m l = some (m', l') := he
    rcases hm with rfl | ⟨i, rfl⟩
    · obtain ⟨i, rfl⟩ := popRet_of_blockExec he
      simp
    · rintro rfl
      cases claims_of_blockExec he with
      | same _ _ _ hslot => cases hslot
      | push _ _ hcall => exact hcall rfl
      | pop _ _ hcall => exact hcall rfl
  · intro l hm
    rcases hm with rfl | ⟨i, rfl⟩ <;> simp
  · intro s s' _ hs hn hm
    obtain ⟨a, he⟩ := hs.2.exec
    have he : blockExec c t a s.mem (s.loc t) = some (s'.mem, s'.loc t) := he
    rcases hm with hm | ⟨i, hm⟩
    · rw [hm] at he
      exact absurd (.inr (popRet_of_blockExec he)) hn
    · have hclaims := claims_of_blockExec he
      rw [hm] at hclaims
      cases hclaims with
      | same _ _ _ hslot => cases hslot
      | push w j _ _ h _ _ => cases h
      | pop w j _ _ h _ hpopped =>
        cases h
        exact ⟨rfl, hpopped⟩

/-- No call moves two values. -/
theorem moves_le_one (run : Run BlockInit (blockProgram c).Step s hist) {t : ι}
    (hcall : InCall t s) : ¬ AtLeast (InCall t) (Moves t) 2 hist := by
  intro hn
  -- a call that has not claimed an index has one move left
  obtain ⟨k, -, hle⟩ : ∃ k, (k = if (s.loc t).attempt.claimed then 0 else 1) ∧ 2 + k ≤ 1 := by
    refine run.atLeast_le (fun _ => 1) (fun s k => k = if (s.loc t).attempt.claimed then 0 else 1)
      ?_ ?_ ?_ hcall hn
    · intro s h hb
      exact hb (h.2 t)
    · intro u s s' _ _ _ _
      refine ⟨_, rfl, ?_⟩
      split <;> omega
    · intro u s s' k _ hs hb hb' hk
      refine ⟨rfl, _, rfl, ?_⟩
      rw [hk]
      by_cases hut : u = t
      · subst hut
        obtain ⟨a, he⟩ := hs.exec
        have he : blockExec c u a s.mem (s.loc u) = some (s'.mem, s'.loc u) := he
        cases claims_of_blockExec he with
        | same hpushed hpopped h _ =>
          have hclaimed : (s'.loc u).attempt.claimed = (s.loc u).attempt.claimed := by
            rcases h with h | h
            · rw [not_claimed_of_wait he h hb', h]
              rfl
            · exact h
          rw [hclaimed]
          exact ⟨Nat.le_refl _, fun hP => absurd hP.2 (by simp [hpushed, hpopped])⟩
        | push v i _ hpc h _ _ =>
          rw [hpc, h]
          exact ⟨Nat.zero_le _, fun _ => Nat.zero_lt_one⟩
        | pop v i _ hpc h _ _ =>
          rw [hpc, h]
          exact ⟨Nat.zero_le _, fun _ => Nat.zero_lt_one⟩
      · rw [hs.loc_of_ne (Ne.symm hut)]
        exact ⟨Nat.le_refl _, fun hP => absurd hP.1 hut⟩
  omega

/-- The promises of a ring that is used with the waiting and the other operations. -/
structure BlockPromise (c : Capacity) (s : Config ι (Ring α) (BlockPc α))
    (hist : List (Event ι (Config ι (Ring α) (BlockPc α)))) : Prop where
  ring : RingPromise c (attempts s)
  /-- A push returns with its value in the ring. -/
  push : ∀ t v, s.loc t = .pushRet v → During (InCall t) (Puts t v) hist
  /-- A pop returns with the value that it has taken. -/
  pop : ∀ t v, s.loc t = .popRet v → During (InCall t) (Takes t v) hist
  /-- However often a call tries, it moves one value at most. -/
  once : ∀ t, InCall t s → ¬ AtLeast (InCall t) (Moves t) 2 hist

/-- **A bounded exactly-once FIFO for threads that wait**: in every interleaving of waiting
and trying operations with fewer than `2 ^ 64` pushes. -/
theorem lockfreeRingBuffer_blocking (run : Run BlockInit (blockProgram c).Step s hist)
    (hlen : s.mem.pushed.length < 2 ^ 64) : BlockPromise c s hist := by
  obtain ⟨hist', run'⟩ := attempts_run run
  constructor
  case ring => exact ringPromise_of_run run' hlen
  case push => exact fun t v hret => pushRet_during run hret
  case pop => exact fun t v hret => popRet_during run hret
  case once => exact fun t hcall => moves_le_one run hcall

/-- Thread 1 pops from an empty ring of two slots and goes round its loop once; then
thread 0 pushes 7, and the pop takes it. -/
theorem lockfreeRingBuffer_blocking_pop :
    ∃ (s : Config Nat (Ring Nat) (BlockPc Nat)) (hist : _),
      Run BlockInit (blockProgram two).Step s hist ∧ s.mem.pushed.length < 2 ^ 64 ∧
        s.loc 0 = .pushRet 7 ∧ s.loc 1 = .popRet 7 ∧ BlockPromise two s hist := by
  have hstart : Run BlockInit (blockProgram (ι := Nat) (α := Nat) two).Step blockInitial [] :=
    .start ⟨rfl, fun _ => rfl⟩
  have hwait : (blockProgram (α := Nat) two).runAlone 1
      (.pop :: List.replicate 6 (.call .step)) create
      (.call .idle) = some (create, .pop .readHigh) := rfl
  have hpush : (blockProgram (α := Nat) two).runAlone 0
      (.push 7 :: List.replicate 5 (.call .step)) create
      (.call .idle) = some (Ring.mk 1 0 (Function.update (fun _ => none) 0 (some 7)) [7] [],
        .pushRet 7) := rfl
  have hpop : (blockProgram (α := Nat) two).runAlone 1 (List.replicate 5 (.call .step))
      (Ring.mk 1 0 (Function.update (fun _ => none) 0 (some 7)) [7] []) (.pop .readHigh) =
        some (Ring.mk 1 1 (Function.update (Function.update (fun _ => none) 0 (some 7)) 0 none) [7]
          [7], .popRet 7) := rfl
  obtain ⟨hist, run⟩ := hstart.alone _ rfl hwait
  obtain ⟨hist, run⟩ := run.alone _ rfl hpush
  obtain ⟨hist, run⟩ := run.alone _ rfl hpop
  have hlen : [7].length < 2 ^ 64 := by decide
  exact ⟨_, hist, run, hlen, rfl, rfl, lockfreeRingBuffer_blocking run hlen⟩

/-! ## What a call waits for -/

/-- The attempts of a transition. -/
def attemptsEvent (e : Event ι (Config ι (Ring α) (BlockPc α))) :
    Event ι (Config ι (Ring α) (Pc α)) :=
  ⟨e.tid, attempts e.pre, attempts e.post⟩

/-- Thread `t` goes on after an attempt to push that has failed. -/
def PushRetries (t : ι) (e : Event ι (Config ι (Ring α) (BlockPc α))) : Prop :=
  e.tid = t ∧ ∃ v, e.pre.loc t = .pushReadHigh v

/-- Thread `t` goes on after an attempt to pop that has failed. -/
def PopRetries (t : ι) (e : Event ι (Config ι (Ring α) (BlockPc α))) : Prop :=
  e.tid = t ∧ e.pre.loc t = .popReadHigh

instance [DecidableEq α] (t : ι) :
    DecidablePred (InCall (α := α) t) := fun s =>
  inferInstanceAs (Decidable (s.loc t ≠ .call .idle))

instance [DecidableEq α] (t : ι) : DecidablePred (PopRetries (α := α) t) := fun e =>
  inferInstanceAs (Decidable (e.tid = t ∧ e.pre.loc t = .popReadHigh))

/-- Every failed attempt has met an obstacle of its own. -/
theorem atLeast_of_blocked (blocked : Ring α → Pc α → Prop)
    {obstacle : Event ι (Config ι (Ring α) (Pc α)) → Prop}
    {retries : Event ι (Config ι (Ring α) (BlockPc α)) → Prop} {t : ι}
    (hidle : ∀ m, ¬ blocked m .idle)
    (hcall : ∀ a m m' pc', exec c t a m .idle = some (m', pc') → ¬ blocked m' pc')
    (enter : ∀ u (s s' : Config ι (Ring α) (Pc α)), (ringAssertion c).Holds s →
      (ringAssertion c).Holds s' → s.mem.pushed.length < 2 ^ 64 → (ringProgram c).Step u s s' →
      ¬ blocked s.mem (s.loc t) → blocked s'.mem (s'.loc t) → obstacle ⟨u, s, s'⟩)
    (retry : ∀ u (s s' : Config ι (Ring α) (BlockPc α)), (blockProgram c).Step u s s' →
      retries ⟨u, s, s'⟩ → blocked s.mem (s.loc t).attempt ∧ (s'.loc t).attempt = .idle)
    (run : Run BlockInit (blockProgram c).Step s hist) (hlen : s.mem.pushed.length < 2 ^ 64)
    {n : Nat} (hn : AtLeast (InCall t) retries n hist) :
    AtLeast (InCall t) (fun e => obstacle (attemptsEvent e)) n hist := by
  classical
  have hback : ∀ u (s s' : Config ι (Ring α) (BlockPc α)), (blockProgram c).Step u s s' →
      s'.mem.pushed.length < 2 ^ 64 → s.mem.pushed.length < 2 ^ 64 :=
    fun u s s' hs h => Nat.lt_of_le_of_lt (pushed_le_of_blockStep hs) h
  -- a call that is blocked can afford to fail
  obtain ⟨k, hk, hle, -⟩ : ∃ k, AtLeast (InCall t) (fun e => obstacle (attemptsEvent e)) k hist ∧
      n ≤ 0 + 1 * k ∧ _ := by
    refine (run.bounded hback hlen).atLeast_of_credit
      (fun s => if blocked s.mem (s.loc t).attempt then 1 else 0) 0 1 ?_ ?_ ?_ hn
    · intro s h hb
      exact hb (h.2 t)
    · rintro u s s' - ⟨-, hs⟩ hb hb'
      have hloc : s.loc t = .call .idle := not_not.mp hb
      have hnot : ¬ blocked s'.mem (s'.loc t).attempt := by
        by_cases hut : u = t
        · subst hut
          obtain ⟨a, he⟩ := hs.exec
          rcases attempt_of_exec (t := u) he with ⟨-, -, h⟩ | ⟨b, h⟩
          · rw [h]
            exact hidle _
          · rw [hloc] at h
            exact hcall _ _ _ _ h
        · rw [hs.loc_of_ne (Ne.symm hut), hloc]
          exact hidle _
      rw [if_neg hnot]
    · rintro u s s' ⟨hist, run⟩ ⟨hlen', hs⟩ hb
      by_cases hP : retries ⟨u, s, s'⟩
      · obtain ⟨hblocked, hdone⟩ := retry u s s' hs hP
        rw [if_pos hblocked, hdone, if_neg (hidle _)]
        exact .inl Nat.zero_lt_one
      · refine .inr ⟨hP, ?_⟩
        by_cases hn : blocked s.mem (s.loc t).attempt
        · rw [if_pos hn]
          refine .inl ?_
          split <;> omega
        · by_cases hm : blocked s'.mem (s'.loc t).attempt
          · rw [if_neg hn, if_pos hm]
            refine .inr ⟨?_, Nat.le_refl _⟩
            have run : Run BlockInit (blockProgram c).Step s hist := run.mono fun _ _ _ h => h.2
            have hlen := hback u s s' hs hlen'
            obtain ⟨hist₁, run₁⟩ := attempts_run run
            obtain ⟨hist₂, run₂⟩ := attempts_run (run.next hs)
            rcases tryStep_of_blockStep hs with heq | hstep
            · have hsame : blocked (attempts s').mem ((attempts s').loc t) =
                  blocked (attempts s).mem ((attempts s).loc t) := by rw [heq]
              exact absurd (hsame ▸ hm) hn
            · exact enter u _ _ (lockfreeRingBuffer_invariant run₁ hlen)
                (lockfreeRingBuffer_invariant run₂ hlen') hlen hstep hn hm
          · rw [if_neg hm]
            exact .inl (Nat.zero_le _)
  exact hk.of_le (by omega)

/-- **No call waits for nothing**: a push that has gone round its loop `n` times has met at
least `n` obstacles (the ring full, a slot that a pop had not cleared yet, another
push that got through), and so has a pop (the ring empty, a value that a push had not
stored yet, another pop that got through). -/
theorem lockfreeRingBuffer_waits (run : Run BlockInit (blockProgram c).Step s hist)
    (hlen : s.mem.pushed.length < 2 ^ 64) (t : ι) (n : Nat) :
    (AtLeast (InCall t) (PushRetries t) n hist →
      AtLeast (InCall t) (fun e => PushObstacle c t (attemptsEvent e)) n hist) ∧
    (AtLeast (InCall t) (PopRetries t) n hist →
      AtLeast (InCall t) (fun e => PopObstacle t (attemptsEvent e)) n hist) := by
  constructor
  · intro hn
    refine atLeast_of_blocked (PushBlocked c) (fun m h => h)
      (fun a m m' pc' he => (not_blocked_of_call he).1) ?_ ?_ run hlen hn
    · intro u s s' hA hA' hlen hs hn hm
      exact pushObstacle_of_step hA hA' hlen hs hn hm
    · rintro u s s' hs ⟨rfl, v, hpc⟩
      obtain ⟨a, he⟩ := hs.exec
      have he : blockExec c u a s.mem (s.loc u) = some (s'.mem, s'.loc u) := he
      rw [hpc] at he ⊢
      rw [← (Prod.mk.inj (Option.some.inj he)).2]
      exact ⟨trivial, rfl⟩
  · intro hn
    refine atLeast_of_blocked PopBlocked (fun m h => h)
      (fun a m m' pc' he => (not_blocked_of_call he).2) ?_ ?_ run hlen hn
    · intro u s s' hA hA' _ hs hn hm
      exact popObstacle_of_step hA hA' hs hn hm
    · rintro u s s' hs ⟨rfl, hpc⟩
      obtain ⟨a, he⟩ := hs.exec
      have he : blockExec c u a s.mem (s.loc u) = some (s'.mem, s'.loc u) := he
      rw [hpc] at he ⊢
      rw [← (Prod.mk.inj (Option.some.inj he)).2]
      exact ⟨trivial, rfl⟩

/-- The pop of thread 1 has gone round its loop three times: it has met the empty ring, then the
push of thread 2 before its store, and then the pop of thread 3, which got 7. -/
theorem lockfreeRingBuffer_waits_three_rounds :
    ∃ (s : Config Nat (Ring Nat) (BlockPc Nat)) (hist : _),
      Run BlockInit (blockProgram two).Step s hist ∧ s.mem.pushed.length < 2 ^ 64 ∧
        s.loc 3 = .call (.popRet (some 7)) ∧ AtLeast (InCall 1) (PopRetries 1) 3 hist ∧
        AtLeast (InCall 1) (fun e => PopObstacle 1 (attemptsEvent e)) 3 hist := by
  have hstart : Run BlockInit (blockProgram (ι := Nat) (α := Nat) two).Step blockInitial [] :=
    .start ⟨rfl, fun _ => rfl⟩
  obtain ⟨s, hist, run, hlen, hret, hn⟩ := hstart.exists_of_history
    (q := fun s hist => s.mem.pushed.length < 2 ^ 64 ∧ s.loc 3 = .call (.popRet (some 7)) ∧
      AtLeast (InCall 1) (PopRetries 1) 3 hist)
    (List.flatten [(1, .pop) :: List.replicate 6 (1, .call .step),
      (2, .call (.trypush 7)) :: List.replicate 4 (2, .call .step),
      List.replicate 5 (1, .call .step), [(2, .call .step)], List.replicate 3 (1, .call .step),
      (3, .call .trypop) :: List.replicate 5 (3, .call .step), List.replicate 2 (1, .call .step)])
    (by decide +kernel)
  exact ⟨s, hist, run, hlen, hret, hn, (lockfreeRingBuffer_waits run hlen 1 3).2 hn⟩

end Runs

end FibConcurrent.LockfreeRingBuffer
