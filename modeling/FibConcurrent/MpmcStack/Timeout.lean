import FibConcurrent.MpmcStack.Correct

/-!
# MpmcStack — the functions with a timeout

`mpmc_stack_push_timeout`, `mpmc_stack_lifo_flush_timeout` and
`mpmc_stack_fifo_flush_timeout` count their attempts down from `tries`. The
program here is `stackProgram` with the locals that their callers see: `tries`
itself, and `*out`, which the flushes write.

The push tests the countdown behind its first attempt, so that `tries = 0` does
not keep it from one. A flush without `FIBER_XCHG_POINTER` reads the head into
`*out` before it knows that it gets the chain.
-/

namespace FibConcurrent.MpmcStack

open FibConcurrent.Machine

variable {ι ν : Type*}

/-- The locals of a thread, with the argument `tries` of its call, `*out`, and what
`*out` was before the call. -/
structure Locals (ν : Type*) where
  pc : Pc ν
  tries : Option Nat
  out : Option ν
  before : Option ν
deriving DecidableEq

/-- Between calls a client may also put anything into `*out`. -/
inductive TimeoutChoice (ν : Type*) where
  | assign (out : Option ν)
  | stack (c : Choice ν)

/-- The argument `tries` of the call that begins. -/
def Choice.tries : Choice ν → Option Nat
  | .push _ tries => tries
  | .flush _ tries => tries
  | _ => none

/-- What an access of a call with a timeout leaves in `*out`. -/
def outAfter [DecidableEq ν] (m : Memory ν) (out : Option ν) : Pc ν → Option ν
  -- `*out = mpmc_stack_lifo_flush(q)`
  | .flush (.exchange _) => m.head
  -- `*out = q->head`; the CAS comes after it.
  | .flush (.readHead _ _) => m.head
  -- `*out = mpmc_stack_reverse(*out)`, when its loop is done; an empty chain is its
  -- own reverse.
  | .flush (.writeNext head next _ _) => if next = none then some head else out
  | _ => out

/-- The locals behind an access at `l` in memory `m`. -/
def Locals.next [DecidableEq ν] (l : Locals ν) (c : Choice ν) (m : Memory ν) (pc' : Pc ν) :
    Locals ν :=
  match l.pc with
  | .idle => { pc := pc', tries := c.tries, out := l.out, before := l.out }
  | pc => { l with pc := pc', out := if l.tries.isSome then outAfter m l.out pc else l.out }

def timeoutExec [DecidableEq ν] (xchg : Bool) (t : ι) (c : TimeoutChoice ν) (m : Memory ν)
    (l : Locals ν) : Option (Memory ν × Locals ν) :=
  match c with
  | .assign out => if l.pc = .idle then some (m, { l with out := out }) else none
  | .stack c => (exec xchg t c m l.pc).map fun r => (r.1, l.next c m r.2)

/-- The interleavings of any number of threads on one stack, with the timeouts. -/
def timeoutProgram [DecidableEq ν] (xchg : Bool) :
    Program ι (TimeoutChoice ν) (Memory ν) (Locals ν) :=
  ⟨timeoutExec xchg⟩

/-- What `stackProgram` knows of a state. -/
def forget (s : Config ι (Memory ν) (Locals ν)) : Config ι (Memory ν) (Pc ν) :=
  ⟨s.mem, fun t => (s.loc t).pc⟩

/-- After `mpmc_stack_init`, with anything in `*out`. -/
def TimeoutInit (s : Config ι (Memory ν) (Locals ν)) : Prop := Init (forget s)

/-! ## What is promised -/

/-- At a CAS or an exchange on `head`. -/
def Pc.attempts : Pc ν → Bool
  | .push (.swapHead _ _ _) => true
  | .flush (.exchange _) => true
  | .flush (.swapHead _ _ _) => true
  | _ => false

/-- At one that succeeds. -/
def Swaps (m : Memory ν) : Pc ν → Prop
  | .push (.swapHead _ head _) => m.head = head
  | .flush (.exchange _) => True
  | .flush (.swapHead _ head _) => m.head = head
  | _ => False

/-- What the call returns: whether it is `MPMC_SUCCESS`. -/
def Pc.returned : Pc ν → Option Bool
  | .pushRet _ success => some success
  | .flushRet (.retry _) => some false
  | .flushRet (.success _ _ _) => some true
  | _ => none

/-- In a call with a timeout. -/
def Timed (t : ι) (s : Config ι (Memory ν) (Locals ν)) : Prop :=
  (s.loc t).pc ≠ .idle ∧ (s.loc t).tries.isSome

/-- An attempt of thread `t`. -/
def Attempt (t : ι) (e : Event ι (Config ι (Memory ν) (Locals ν))) : Prop :=
  e.tid = t ∧ (e.pre.loc t).pc.attempts

/-- A successful attempt of thread `t`. -/
def Success (t : ι) (e : Event ι (Config ι (Memory ν) (Locals ν))) : Prop :=
  e.tid = t ∧ Swaps e.pre.mem (e.pre.loc t).pc

/-- A step of thread `t` that does not leave the stack the chain that it was. -/
def Disturbs (t : ι) (e : Event ι (Config ι (Memory ν) (Locals ν))) : Prop :=
  e.tid = t ∧ ¬ ∃ nodes, Chain e.pre.mem.next e.pre.mem.head nodes ∧
    Chain e.post.mem.next e.post.mem.head nodes

instance (t : ι) (s : Config ι (Memory ν) (Locals ν)) [DecidableEq ν] : Decidable (Timed t s) :=
  inferInstanceAs (Decidable ((s.loc t).pc ≠ .idle ∧ (s.loc t).tries.isSome))

instance [DecidableEq ι] (t : ι) (e : Event ι (Config ι (Memory ν) (Locals ν))) :
    Decidable (Attempt t e) :=
  inferInstanceAs (Decidable (e.tid = t ∧ (e.pre.loc t).pc.attempts))

/-- A timeout bounds the attempts, in state `s` reached by `hist`. -/
structure TimeoutPromise (t : ι) (s : Config ι (Memory ν) (Locals ν))
    (hist : List (Event ι (Config ι (Memory ν) (Locals ν)))) : Prop where
  attempts : ∀ tries k, Timed t s → (s.loc t).tries = some tries →
    AtLeast (Timed t) (Attempt t) k hist → k ≤ tries
  success : ∀ b, Timed t s → (s.loc t).pc.returned = some b →
    (b = true ↔ During (Timed t) (Success t) hist)
  /-- A call that returns `MPMC_RETRY` has left no trace. -/
  retry : Timed t s → (s.loc t).pc.returned = some false →
    ¬ During (Timed t) (Disturbs t) hist ∧ (s.loc t).out = (s.loc t).before
  unlinked : ∀ n, Timed t s → (s.loc t).pc = .pushRet n false →
    ∃ nodes, Chain s.mem.next s.mem.head nodes ∧ n ∉ nodes
  out : ∀ order out batch, Timed t s → (s.loc t).pc = .flushRet (.success order out batch) →
    (s.loc t).out = out

/-- No attempt of a push with `tries = 0`, and no flush whose last attempt fails when
`*out` has been overwritten. -/
def KeepsTimeout [DecidableEq ν] (_t : ι) (m : Memory ν) (l : Locals ν) (_m' : Memory ν) : Prop :=
  match l.pc with
  | .push (.swapHead _ _ tries) => tries ≠ some 0
  | .flush (.swapHead _ head tries) => m.head = head ∨ retries tries ≠ none ∨ head = l.before
  | _ => True

instance [DecidableEq ν] (t : ι) (m : Memory ν) (l : Locals ν) (m' : Memory ν) :
    Decidable (KeepsTimeout t m l m') := by
  unfold KeepsTimeout
  split <;> infer_instance

variable [DecidableEq ν] {xchg : Bool} {m m' : Memory ν} {l l' : Locals ν} {t : ι}

/-! ## The steps of `stackProgram` behind it -/

/-- A step is one of `stackProgram`, or leaves everything but `*out` alone. -/
theorem timeoutExec_cases {c : TimeoutChoice ν}
    (he : timeoutExec xchg t c m l = some (m', l')) :
    (l.pc = .idle ∧ m' = m ∧ l'.pc = .idle ∧ l'.tries = l.tries) ∨
      ∃ c', exec xchg t c' m l.pc = some (m', l'.pc) ∧ l' = l.next c' m l'.pc := by
  cases c with
  | assign out =>
    obtain ⟨hidle, he⟩ := Option.ite_none_right_eq_some.mp he
    obtain ⟨rfl, rfl⟩ := Prod.mk.inj (Option.some.inj he)
    exact .inl ⟨hidle, rfl, hidle, rfl⟩
  | stack c =>
    obtain ⟨⟨m₁, pc'⟩, hexec, heq⟩ := Option.map_eq_some_iff.mp he
    obtain ⟨rfl, rfl⟩ := Prod.mk.inj heq
    have hpc : (l.next c m pc').pc = pc' := by
      unfold Locals.next
      split <;> rfl
    exact .inr ⟨c, by rw [hpc]; exact hexec, by rw [hpc]⟩

omit [DecidableEq ν] in
theorem Locals.next_of_busy [DecidableEq ν] (h : l.pc ≠ .idle) (c : Choice ν) (m : Memory ν)
    (pc' : Pc ν) : l.next c m pc' =
      { l with pc := pc', out := if l.tries.isSome then outAfter m l.out l.pc else l.out } := by
  unfold Locals.next
  split
  case h_1 hidle => exact absurd hidle h
  case h_2 => rfl

/-! ## One access of a call -/

section Access

variable {c : Choice ν} {pc pc' : Pc ν} {n : ν} {head : Option ν} {tries : Option Nat}

/-- What one access of a call can do. -/
inductive CallStep (m : Memory ν) : Pc ν → Memory ν → Pc ν → Prop
  | pushRead (n : ν) (tries : Option Nat) :
      CallStep m (.push (.readHead n tries)) m (.push (.writeNext n m.head tries))
  | pushWrite (n : ν) (head : Option ν) (tries : Option Nat) :
      CallStep m (.push (.writeNext n head tries))
        { m with next := Function.update m.next n head } (.push (.swapHead n head tries))
  | pushSwap (n : ν) (tries : Option Nat) :
      CallStep m (.push (.swapHead n m.head tries))
        { m with
          head := some n
          since := n :: m.since
          pushes := Function.update m.pushes n (m.pushes n + 1) } (.pushRet n true)
  | pushAgain {n : ν} {head : Option ν} {tries tries' : Option Nat} (lost : m.head ≠ head)
      (more : retries tries = some tries') :
      CallStep m (.push (.swapHead n head tries)) m (.push (.readHead n tries'))
  | pushGivesUp {n : ν} {head : Option ν} {tries : Option Nat} (lost : m.head ≠ head)
      (last : retries tries = none) :
      CallStep m (.push (.swapHead n head tries)) m (.pushRet n false)
  | flushExchange (order : Order) :
      CallStep m (.flush (.exchange order)) { m with head := none, since := [] }
        ((flushed order m.head m.since).elim .flush .flushRet)
  | flushRead (order : Order) (tries : Option Nat) :
      CallStep m (.flush (.readHead order tries)) m (.flush (.swapHead order m.head tries))
  | flushSwap (order : Order) (tries : Option Nat) :
      CallStep m (.flush (.swapHead order m.head tries)) { m with head := none, since := [] }
        ((flushed order m.head m.since).elim .flush .flushRet)
  | flushAgain {order : Order} {head : Option ν} {tries tries' : Option Nat}
      (lost : m.head ≠ head) (more : retries tries = some tries') :
      CallStep m (.flush (.swapHead order head tries)) m (.flush (.readHead order tries'))
  | flushGivesUp {order : Order} {head : Option ν} {tries : Option Nat} (lost : m.head ≠ head)
      (last : retries tries = none) :
      CallStep m (.flush (.swapHead order head tries)) m (.flushRet (.retry order))
  | reverseRead (head : ν) (fifo : Option ν) (batch : List ν) :
      CallStep m (.flush (.readNext head fifo batch)) m
        (.flush (.writeNext head (m.next head) fifo batch))
  | reverseWrite (head : ν) (next fifo : Option ν) (batch : List ν) :
      CallStep m (.flush (.writeNext head next fifo batch))
        { m with next := Function.update m.next head fifo }
        ((reverse next (some head) batch).elim .flush .flushRet)
  | returns {pc : Pc ν} {m' : Memory ν} (h : pc.returned.isSome) : CallStep m pc m' .idle

/-- **The accesses of a call**, once for all that follows. -/
theorem callStep_of_exec (he : exec xchg t c m pc = some (m', pc')) (hbusy : pc ≠ .idle) :
    CallStep m pc m' pc' := by
  cases pc with
  | idle => exact absurd rfl hbusy
  | push pc =>
    obtain ⟨rfl, rfl⟩ := Prod.mk.inj (Option.some.inj he)
    cases pc with
    | readHead n tries => exact .pushRead n tries
    | writeNext n head tries => exact .pushWrite n head tries
    | swapHead n head tries =>
      by_cases hswap : m.head = head
      · subst hswap
        simp only [pushStep, if_pos]
        exact .pushSwap n tries
      · simp only [pushStep, if_neg hswap]
        cases hr : retries tries with
        | some tries' => exact .pushAgain hswap hr
        | none => exact .pushGivesUp hswap hr
  | pushRet n success =>
    have hret : pc' = .idle := by
      cases success <;> exact (Prod.mk.inj (Option.some.inj he)).2.symm
    subst hret
    exact .returns rfl
  | flush pc =>
    obtain ⟨rfl, rfl⟩ := Prod.mk.inj (Option.some.inj he)
    cases pc with
    | exchange order => exact .flushExchange order
    | readHead order tries => exact .flushRead order tries
    | swapHead order head tries =>
      by_cases hswap : m.head = head
      · subst hswap
        simp only [flushStep, if_pos]
        exact .flushSwap order tries
      · simp only [flushStep, if_neg hswap]
        cases hr : retries tries with
        | some tries' => exact .flushAgain hswap hr
        | none => exact .flushGivesUp hswap hr
    | readNext head fifo batch => exact .reverseRead head fifo batch
    | writeNext head next fifo batch => exact .reverseWrite head next fifo batch
  | flushRet result =>
    have hret : pc' = .idle := by
      cases result <;> exact (Prod.mk.inj (Option.some.inj he)).2.symm
    subst hret
    cases result <;> exact .returns rfl

omit [DecidableEq ν] in
theorem retries_some {k : Nat} {tries' : Option Nat} (hk : 0 < k)
    (h : retries (some k) = some tries') : ∃ k', tries' = some k' ∧ 0 < k' ∧ k' < k := by
  simp only [retries, Option.ite_none_right_eq_some, Option.some.injEq] at h
  obtain ⟨hpos, rfl⟩ := h
  refine ⟨decrement k, rfl, hpos, ?_⟩
  unfold decrement
  omega

/-- The call has made no successful attempt so far. -/
def Pc.unsuccessful : Pc ν → Prop
  | .push _ => True
  | .pushRet _ success => success = false
  | .flush (.exchange _) => True
  | .flush (.readHead _ _) => True
  | .flush (.swapHead _ _ _) => True
  | .flushRet (.retry _) => True
  | _ => False

omit [DecidableEq ν] in
/-- A flush that has got its chain is through with its attempts. -/
theorem flushed_successful (order : Order) (head : Option ν) (batch : List ν) :
    ¬ ((flushed order head batch).elim Pc.flush Pc.flushRet).unsuccessful := by
  cases order with
  | lifo => exact id
  | fifo => cases head <;> exact id

omit [DecidableEq ν] in
theorem reverse_successful (head fifo : Option ν) (batch : List ν) :
    ¬ ((reverse head fifo batch).elim Pc.flush Pc.flushRet).unsuccessful := by
  cases head <;> exact id

/-- **A call without success so far** has not succeeded in this access either, and
has left the stack as it is. -/
theorem CallStep.unsuccessful {g : Ghost ι ν} (hs : CallStep m pc m' pc') (hI : Inv m g)
    (hT : ThreadFacts t m g pc) (hun : pc'.unsuccessful) :
    pc.unsuccessful ∧ ¬ Swaps m pc ∧ Chain m'.next m'.head m.since := by
  cases hs with
  | pushRead n tries => exact ⟨trivial, id, hI.live⟩
  | pushWrite n head tries =>
    -- the node is in the hands of the push, not in the stack
    have hplace : g n = .pushing t := hT.pc
    refine ⟨trivial, id, hI.live.congr fun x hx => Function.update_of_ne ?_ ..⟩
    rintro rfl
    rw [(hI.live_mem x).mp hx] at hplace
    cases hplace
  | pushSwap n tries => cases hun
  | pushAgain lost more => exact ⟨trivial, lost, hI.live⟩
  | pushGivesUp lost last => exact ⟨trivial, lost, hI.live⟩
  | flushExchange order => exact absurd hun (flushed_successful order m.head m.since)
  | flushRead order tries => exact ⟨trivial, id, hI.live⟩
  | flushSwap order tries => exact absurd hun (flushed_successful order m.head m.since)
  | flushAgain lost more => exact ⟨trivial, lost, hI.live⟩
  | flushGivesUp lost last => exact ⟨trivial, lost, hI.live⟩
  | reverseRead head fifo batch => cases hun
  | reverseWrite head next fifo batch =>
    exact absurd hun (reverse_successful next (some head) batch)
  | returns h => cases hun

/-- **The access that brings the success** is a successful attempt. -/
theorem CallStep.swaps (hs : CallStep m pc m' pc') (hun : pc.unsuccessful)
    (hidle : pc' ≠ .idle) (hun' : ¬ pc'.unsuccessful) : Swaps m pc := by
  cases hs with
  | pushSwap n tries => rfl
  | flushExchange order => trivial
  | flushSwap order tries => rfl
  | pushGivesUp lost last => exact absurd rfl hun'
  | reverseRead head fifo batch => cases hun
  | reverseWrite head next fifo batch => cases hun
  | returns h => exact absurd rfl hidle
  | _ => exact absurd trivial hun'

/-- The attempts that a call has left. -/
def AttemptsLeft : Pc ν → Nat → Prop
  | .push (.readHead _ tries), k => tries = some k
  | .push (.writeNext _ _ tries), k => tries = some k
  | .push (.swapHead _ _ tries), k => tries = some k
  -- The exchange does not fail, so there is no second one.
  | .flush (.exchange _), k => k = 1
  | .flush (.readHead _ tries), k => tries = some k ∧ 0 < k
  | .flush (.swapHead _ _ tries), k => tries = some k ∧ 0 < k
  | .idle, _ => False
  | _, k => k = 0

omit [DecidableEq ν] in
theorem attemptsLeft_start {order : Order} {tries : Nat} :
    ∃ k, AttemptsLeft ((flushStart xchg order (some tries)).elim Pc.flush Pc.flushRet : Pc ν) k ∧
      k ≤ tries := by
  unfold flushStart
  split
  case isTrue => exact ⟨0, rfl, Nat.zero_le tries⟩
  case isFalse h =>
    have hpos : 0 < tries := Nat.pos_of_ne_zero fun h0 => h (congrArg some h0)
    cases xchg
    · exact ⟨tries, ⟨rfl, hpos⟩, Nat.le_refl tries⟩
    · exact ⟨1, rfl, hpos⟩

omit [DecidableEq ν] in
theorem attemptsLeft_flushed (order : Order) (head : Option ν) (batch : List ν) :
    AttemptsLeft ((flushed order head batch).elim Pc.flush Pc.flushRet) 0 := by
  cases order with
  | lifo => rfl
  | fifo => cases head <;> rfl

omit [DecidableEq ν] in
theorem attemptsLeft_reverse (head fifo : Option ν) (batch : List ν) :
    AttemptsLeft ((reverse head fifo batch).elim Pc.flush Pc.flushRet) 0 := by
  cases head <;> rfl

/-- A call begins with `tries` attempts at most, -/
theorem exec_attemptsLeft_start {tries : Nat} (he : exec xchg t c m .idle = some (m', pc'))
    (hc : c.tries = some tries) : ∃ k, AttemptsLeft pc' k ∧ k ≤ tries := by
  cases c with
  | push n tries' =>
    cases hc
    obtain ⟨-, he⟩ := Option.ite_none_right_eq_some.mp he
    obtain ⟨-, rfl⟩ := Prod.mk.inj (Option.some.inj he)
    exact ⟨tries, rfl, Nat.le_refl tries⟩
  | flush order tries' =>
    cases hc
    obtain ⟨-, rfl⟩ := Prod.mk.inj (Option.some.inj he)
    exact attemptsLeft_start
  | _ => cases hc

/-- and without a success. -/
theorem exec_unsuccessful_start (he : exec xchg t c m .idle = some (m', pc')) (h : pc' ≠ .idle) :
    pc'.unsuccessful := by
  cases c with
  | push n tries =>
    obtain ⟨-, he⟩ := Option.ite_none_right_eq_some.mp he
    obtain ⟨-, rfl⟩ := Prod.mk.inj (Option.some.inj he)
    trivial
  | flush order tries =>
    obtain ⟨-, rfl⟩ := Prod.mk.inj (Option.some.inj he)
    unfold flushStart
    split
    case isTrue => trivial
    case isFalse => cases xchg <;> trivial
  | take n =>
    obtain ⟨-, he⟩ := Option.ite_none_right_eq_some.mp he
    exact absurd (Prod.mk.inj (Option.some.inj he)).2.symm h
  | write n next =>
    obtain ⟨-, he⟩ := Option.ite_none_right_eq_some.mp he
    exact absurd (Prod.mk.inj (Option.some.inj he)).2.symm h
  | step => cases he

/-- **Every attempt uses one up**, unless it is that of a push that had none. -/
theorem CallStep.attemptsLeft {k : Nat} (hs : CallStep m pc m' pc') (hidle : pc' ≠ .idle)
    (hk : AttemptsLeft pc k) (hzero : ∀ n head, pc ≠ .push (.swapHead n head (some 0))) :
    ∃ k', AttemptsLeft pc' k' ∧ k' ≤ k ∧ (pc.attempts → k' < k) := by
  have hpush : ∀ n head tries, pc = .push (.swapHead n head tries) → tries = some k → 0 < k := by
    intro n head tries hpc htries
    exact Nat.pos_of_ne_zero fun h0 => hzero n head (by rw [hpc, htries, h0])
  cases hs with
  | pushRead n tries => exact ⟨k, hk, Nat.le_refl k, fun h => absurd h Bool.false_ne_true⟩
  | pushWrite n head tries => exact ⟨k, hk, Nat.le_refl k, fun h => absurd h Bool.false_ne_true⟩
  | pushSwap n tries => exact ⟨0, rfl, Nat.zero_le k, fun _ => hpush n _ tries rfl hk⟩
  | pushAgain lost more =>
    obtain rfl := hk
    obtain ⟨k', rfl, -, hlt⟩ := retries_some (hpush _ _ _ rfl rfl) more
    exact ⟨k', rfl, Nat.le_of_lt hlt, fun _ => hlt⟩
  | pushGivesUp lost last => exact ⟨0, rfl, Nat.zero_le k, fun _ => hpush _ _ _ rfl hk⟩
  | flushExchange order =>
    obtain rfl : k = 1 := hk
    exact ⟨0, attemptsLeft_flushed order m.head m.since, Nat.zero_le 1, fun _ => Nat.one_pos⟩
  | flushRead order tries => exact ⟨k, hk, Nat.le_refl k, fun h => absurd h Bool.false_ne_true⟩
  | flushSwap order tries =>
    exact ⟨0, attemptsLeft_flushed order m.head m.since, Nat.zero_le k, fun _ => hk.2⟩
  | flushAgain lost more =>
    obtain ⟨rfl, hpos⟩ := hk
    obtain ⟨k', rfl, hpos', hlt⟩ := retries_some hpos more
    exact ⟨k', ⟨rfl, hpos'⟩, Nat.le_of_lt hlt, fun _ => hlt⟩
  | flushGivesUp lost last => exact ⟨0, rfl, Nat.zero_le k, fun _ => hk.2⟩
  | reverseRead head fifo batch =>
    exact ⟨0, rfl, Nat.zero_le k, fun h => absurd h Bool.false_ne_true⟩
  | reverseWrite head next fifo batch =>
    exact ⟨0, attemptsLeft_reverse next (some head) batch, Nat.zero_le k,
      fun h => absurd h Bool.false_ne_true⟩
  | returns h => exact absurd rfl hidle

end Access

/-! ## What is in `*out` -/

/-- What a call with a timeout has in `*out`, where `before` was. -/
def OutFacts (before out : Option ν) : Pc ν → Prop
  | .idle => True
  -- What the last attempt has left there is about to be overwritten.
  | .flush (.readHead _ _) => True
  | .flush (.swapHead _ head _) => out = head
  | .flush (.readNext _ _ _) => True
  | .flush (.writeNext _ _ _ _) => True
  | .flushRet (.success _ chain _) => out = chain
  | _ => out = before

section Out

variable {before out : Option ν}

omit [DecidableEq ν] in
/-- A chain that is not reversed is already there. -/
theorem outFacts_flushed (order : Order) (head : Option ν) (batch : List ν) :
    OutFacts before head ((flushed order head batch).elim Pc.flush Pc.flushRet) := by
  cases order with
  | lifo => rfl
  | fifo => cases head <;> trivial

omit [DecidableEq ν] in
theorem outFacts_start {order : Order} {tries : Option Nat} :
    OutFacts before before ((flushStart xchg order tries).elim Pc.flush Pc.flushRet) := by
  unfold flushStart
  split
  case isTrue => rfl
  case isFalse =>
    cases xchg
    · trivial
    · rfl

/-- **One access and what it leaves in `*out`**. Only the last attempt of a flush can
go wrong. -/
theorem CallStep.outFacts {pc pc' : Pc ν} (hs : CallStep m pc m' pc')
    (h : OutFacts before out pc)
    (hlast : ∀ order head tries, pc = .flush (.swapHead order head tries) →
      m.head = head ∨ retries tries ≠ none ∨ head = before) :
    OutFacts before (outAfter m out pc) pc' := by
  cases hs with
  | pushRead n tries => exact h
  | pushWrite n head tries => exact h
  | pushSwap n tries => exact h
  | pushAgain lost more => exact h
  | pushGivesUp lost last => exact h
  | flushExchange order => exact outFacts_flushed order m.head m.since
  | flushRead order tries => rfl
  | flushSwap order tries =>
    obtain rfl : out = m.head := h
    exact outFacts_flushed order m.head m.since
  | flushAgain lost more => trivial
  | flushGivesUp lost last =>
    rcases hlast _ _ _ rfl with heq | hmore | hsame
    · exact absurd heq lost
    · exact absurd last hmore
    · exact h.trans hsame
  | reverseRead head fifo batch => trivial
  | reverseWrite head next fifo batch => cases next <;> trivial
  | returns h => trivial

end Out

/-- The assertion about `*out`; the memory does not matter for it. -/
def outAssertion : Assertion ι (Memory ν) Unit (Locals ν) where
  shared _ _ := True
  thread _ _ _ l := l.tries.isSome → OutFacts l.before l.out l.pc

omit [DecidableEq ν] in
theorem outAssertion_init {s : Config ι (Memory ν) (Locals ν)} (h : TimeoutInit s) :
    outAssertion.Holds s := by
  obtain ⟨-, -, -, -, -, hloc⟩ := h
  refine ⟨(), trivial, fun t _ => ?_⟩
  have hidle : (s.loc t).pc = .idle := hloc t
  rw [hidle]
  trivial

theorem outAssertion_kept [DecidableEq ι] :
    (outAssertion (ι := ι) (ν := ν)).Kept (timeoutProgram xchg) KeepsTimeout := by
  intro t c m l m' l' g _ hl hok he
  refine ⟨g, trivial, ?_, fun u _ k hk => hk⟩
  rcases timeoutExec_cases he with ⟨-, -, hidle, -⟩ | ⟨c', he', hnext⟩
  · intro _
    show OutFacts l'.before l'.out l'.pc
    rw [hidle]
    trivial
  · by_cases hpc : l.pc = .idle
    · rw [hpc] at he'
      rw [hnext]
      unfold Locals.next
      simp only [hpc]
      intro hsome
      cases c' with
      | push n tries =>
        obtain ⟨-, he'⟩ := Option.ite_none_right_eq_some.mp he'
        rw [← (Prod.mk.inj (Option.some.inj he')).2]
        rfl
      | flush order tries =>
        rw [← (Prod.mk.inj (Option.some.inj he')).2]
        exact outFacts_start
      | _ => cases hsome
    · rw [hnext, Locals.next_of_busy hpc]
      intro hsome
      have hsome : l.tries.isSome := hsome
      show OutFacts l.before (if l.tries.isSome then outAfter m l.out l.pc else l.out) l'.pc
      rw [if_pos hsome]
      refine (callStep_of_exec he' hpc).outFacts (hl hsome) fun order head tries hflush => ?_
      unfold KeepsTimeout at hok
      rw [hflush] at hok
      exact hok

variable [DecidableEq ι] {s : Config ι (Memory ν) (Locals ν)}
  {hist : List (Event ι (Config ι (Memory ν) (Locals ν)))}

/-- **The invariant of the stack holds here too.** -/
theorem timeout_invariant {ok : ι → Memory ν → Locals ν → Memory ν → Prop}
    (run : Run TimeoutInit ((timeoutProgram xchg).StepIf ok) s hist) :
    stackAssertion.Holds (forget s) := by
  have hproject : ∀ t s s', (timeoutProgram (ν := ν) (ι := ι) xchg).StepIf ok t s s' →
      forget s' = forget s ∨ (stackProgram xchg).Step t (forget s) (forget s') := by
    intro t s s' ⟨_, c, hs⟩
    obtain ⟨m, l, he, rfl⟩ := Program.next_eq_some.mp hs
    have hloc : (fun u => (Function.update s.loc t l u).pc) =
        Function.update (fun u => (s.loc u).pc) t l.pc := by
      funext u
      by_cases hu : u = t
      · subst hu
        simp
      · simp [Function.update_of_ne hu]
    rcases timeoutExec_cases he with ⟨hidle, hm, hidle', -⟩ | ⟨c', he', -⟩
    · refine .inl ?_
      show Config.mk m (fun u => (Function.update s.loc t l u).pc) = _
      rw [hloc, hm, hidle', ← hidle, Function.update_eq_self t fun u => (s.loc u).pc]
      rfl
    · refine .inr ⟨c', Program.next_eq_some.mpr ⟨m, l.pc, he', ?_⟩⟩
      show Config.mk m (fun u => (Function.update s.loc t l u).pc) = _
      rw [hloc]
      rfl
  obtain ⟨hist', run'⟩ := run.project forget (fun _ h => h) hproject
  exact stack_invariant run'

/-! ## Steps of a call with a timeout -/

section Timed

variable {ok : ι → Memory ν → Locals ν → Memory ν → Prop} {s' : Config ι (Memory ν) (Locals ν)}

/-- A call with a timeout begins. -/
theorem timed_start (hs : (timeoutProgram xchg).StepIf ok t s s') (hn : ¬ Timed t s)
    (hb : Timed t s') : ∃ c tries, exec xchg t c s.mem .idle = some (s'.mem, (s'.loc t).pc) ∧
      c.tries = some tries ∧ (s'.loc t).tries = some tries := by
  obtain ⟨c, he⟩ := hs.2.exec
  rcases timeoutExec_cases he with ⟨-, -, hidle, -⟩ | ⟨c', he', hnext⟩
  · exact absurd hidle hb.1
  · by_cases hpc : (s.loc t).pc = .idle
    · have htries : (s'.loc t).tries = c'.tries := by
        rw [hnext]
        unfold Locals.next
        rw [hpc]
      obtain ⟨tries, h⟩ := Option.isSome_iff_exists.mp hb.2
      exact ⟨c', tries, hpc ▸ he', htries.symm.trans h, h⟩
    · have htries : (s'.loc t).tries = (s.loc t).tries := by rw [hnext, Locals.next_of_busy hpc]
      exact absurd ⟨hpc, htries ▸ hb.2⟩ hn

/-- A call with a timeout goes on. -/
theorem timed_step (hs : (timeoutProgram xchg).StepIf ok t s s') (hb : Timed t s) :
    ∃ c, exec xchg t c s.mem (s.loc t).pc = some (s'.mem, (s'.loc t).pc) ∧
      (s'.loc t).tries = (s.loc t).tries := by
  obtain ⟨c, he⟩ := hs.2.exec
  rcases timeoutExec_cases he with ⟨hidle, -⟩ | ⟨c', he', hnext⟩
  · exact absurd hidle hb.1
  · exact ⟨c', he', by rw [hnext, Locals.next_of_busy hb.1]⟩

omit [DecidableEq ι] [DecidableEq ν] in
theorem timed_congr {s s' : Config ι (Memory ν) (Locals ν)} (h : s'.loc t = s.loc t) :
    Timed t s' ↔ Timed t s := by
  unfold Timed
  rw [h]

end Timed

/-! ## Runs -/

variable (run : Run TimeoutInit ((timeoutProgram xchg).StepIf KeepsTimeout) s hist)

include run in
/-- The attempts of a call, and those that it has left. -/
theorem timed_attempts {k : Nat} (hb : Timed t s)
    (hk : AtLeast (Timed t) (Attempt t) k hist) :
    ∃ left, AttemptsLeft (s.loc t).pc left ∧ k + left ≤ (s.loc t).tries.getD 0 := by
  refine run.atLeast_le (fun s => (s.loc t).tries.getD 0) (fun s => AttemptsLeft (s.loc t).pc)
    ?_ ?_ ?_ hb hk
  case refine_1 =>
    intro s h0 hb
    obtain ⟨-, -, -, -, -, hloc⟩ := h0
    exact hb.1 (hloc t)
  case refine_2 =>
    intro u s s' _ hs hn hb
    by_cases hut : u = t
    · subst hut
      obtain ⟨c, tries, he, hc, htries⟩ := timed_start hs hn hb
      obtain ⟨k, hk, hle⟩ := exec_attemptsLeft_start he hc
      exact ⟨k, hk, by rw [htries]; exact hle⟩
    · exact absurd ((timed_congr (hs.2.loc_of_ne (Ne.symm hut))).mp hb) hn
  case refine_3 =>
    intro u s s' k _ hs hb hb' hk
    by_cases hut : u = t
    · subst hut
      obtain ⟨c, he, htries⟩ := timed_step hs hb
      have hstep := callStep_of_exec he hb.1
      obtain ⟨k', hk', hle, hlt⟩ := hstep.attemptsLeft hb'.1 hk fun n head hpc => by
        have hok := hs.1
        unfold KeepsTimeout at hok
        rw [hpc] at hok
        exact hok rfl
      exact ⟨by rw [htries], k', hk', hle, fun hP => hlt hP.2⟩
    · have hloc : s'.loc t = s.loc t := hs.2.loc_of_ne (Ne.symm hut)
      rw [hloc]
      exact ⟨rfl, k, hk, Nat.le_refl k, fun h => absurd h.1 hut⟩

include run in
/-- A call that has succeeded has made a successful attempt. -/
theorem during_success (hb : Timed t s) (hun : ¬ (s.loc t).pc.unsuccessful) :
    During (Timed t) (Success t) hist := by
  let busy : Locals ν → Prop := fun l => l.pc ≠ .idle ∧ l.tries.isSome
  refine run.during_of_local (t := t) (fun l => busy l ∧ ¬ l.pc.unsuccessful) busy ?_ ?_
    (fun _ h => h.1) ?_ ⟨hb, hun⟩
  case refine_1 =>
    intro s h0 h
    obtain ⟨-, -, -, -, -, hloc⟩ := h0
    exact h.1.1 (hloc t)
  case refine_2 =>
    intro c m l m' l' he h
    rcases timeoutExec_cases he with ⟨-, -, hidle, -⟩ | ⟨c', he', hnext⟩
    · exact absurd hidle h.1.1
    · have hpc : l.pc ≠ .idle := fun hidle =>
        h.2 (exec_unsuccessful_start (hidle ▸ he') h.1.1)
      refine ⟨hpc, ?_⟩
      have htries : l'.tries = l.tries := by rw [hnext, Locals.next_of_busy hpc]
      exact htries ▸ h.1.2
  case refine_3 =>
    intro s s' _ hs hn h
    by_cases hb : Timed t s
    · obtain ⟨c, he, -⟩ := timed_step hs hb
      have hbefore : (s.loc t).pc.unsuccessful := by
        by_contra hun
        exact hn ⟨hb, hun⟩
      exact ⟨rfl, (callStep_of_exec he hb.1).swaps hbefore h.1.1 h.2⟩
    · obtain ⟨c, tries, he, -, -⟩ := timed_start hs hb h.1
      exact absurd (exec_unsuccessful_start he h.1.1) h.2

include run in
/-- **A call without success so far** has neither made a successful attempt nor done
anything to the stack. -/
theorem not_during_unsuccessful (hb : Timed t s) (hun : (s.loc t).pc.unsuccessful) :
    ¬ During (Timed t) (fun e => Success t e ∨ Disturbs t e) hist := by
  refine run.not_during_of_mark (fun s => Timed t s ∧ (s.loc t).pc.unsuccessful) ?_ ⟨hb, hun⟩
  intro u s s' ⟨hist, run⟩ hs ⟨hb', hun'⟩ hb
  by_cases hut : u = t
  · subst hut
    obtain ⟨g, hI, hT⟩ := timeout_invariant run
    obtain ⟨c, he, -⟩ := timed_step hs hb
    obtain ⟨hun, hswaps, hchain⟩ := (callStep_of_exec he hb.1).unsuccessful hI (hT u) hun'
    refine ⟨⟨hb, hun⟩, ?_⟩
    rintro (⟨-, hswap⟩ | ⟨-, hnot⟩)
    · exact hswaps hswap
    · exact hnot ⟨s.mem.since, hI.live, hchain⟩
  · have hloc : s'.loc t = s.loc t := hs.2.loc_of_ne (Ne.symm hut)
    refine ⟨⟨hb, hloc ▸ hun'⟩, ?_⟩
    rintro (⟨h, -⟩ | ⟨h, -⟩) <;> exact hut h

omit [DecidableEq ν] [DecidableEq ι] in
/-- What a call returns tells whether it has succeeded. -/
theorem unsuccessful_of_returned {pc : Pc ν} {b : Bool} (h : pc.returned = some b) :
    pc.unsuccessful ↔ b = false := by
  cases pc with
  | pushRet n success =>
    cases h
    exact Iff.rfl
  | flushRet result => cases result <;> cases h <;> simp [Pc.unsuccessful]
  | _ => cases h

/-- **A timeout bounds the attempts**, in both builds, for any number of threads and
every interleaving in which no step is one of the two slips. -/
theorem timeout_bounds_attempts
    (run : Run TimeoutInit ((timeoutProgram xchg).StepIf KeepsTimeout) s hist) (t : ι) :
    TimeoutPromise t s hist := by
  obtain ⟨g, hI, hT⟩ := timeout_invariant run
  obtain ⟨_, -, hout⟩ := outAssertion_kept.run (fun _ h => outAssertion_init h) run
  constructor
  case attempts =>
    intro tries k hb htries hk
    obtain ⟨left, -, hle⟩ := timed_attempts run hb hk
    rw [htries] at hle
    exact Nat.le_trans (Nat.le_add_right k left) hle
  case success =>
    intro b hb hret
    constructor
    · intro h
      subst h
      exact during_success run hb fun hun =>
        absurd ((unsuccessful_of_returned hret).mp hun) (by decide)
    · intro hd
      by_contra h
      have hun := (unsuccessful_of_returned hret).mpr (Bool.eq_false_iff.mpr h)
      exact not_during_unsuccessful run hb hun (hd.imp fun _ => .inl)
  case retry =>
    intro hb hret
    have hun := (unsuccessful_of_returned hret).mpr rfl
    refine ⟨fun hd => not_during_unsuccessful run hb hun (hd.imp fun _ => .inr), ?_⟩
    have hfacts := hout t hb.2
    cases hpc : (s.loc t).pc with
    | pushRet n success =>
      rw [hpc] at hfacts
      exact hfacts
    | flushRet result =>
      rw [hpc] at hfacts hret
      cases result with
      | retry order => exact hfacts
      | success order out batch => cases hret
    | _ =>
      rw [hpc] at hret
      cases hret
  case unlinked =>
    intro n _ hpc
    refine ⟨s.mem.since, hI.live, fun hn => ?_⟩
    have hplace : g n = .pushing t := by
      have hp := (hT t).pc
      have hloc : (forget s).loc t = .pushRet n false := hpc
      rw [hloc] at hp
      exact hp rfl
    have hlive : g n = .live := (hI.live_mem n).mp hn
    rw [hplace] at hlive
    cases hlive
  case out =>
    intro order out batch hb hpc
    have hfacts := hout t hb.2
    rw [hpc] at hfacts
    exact hfacts

omit [DecidableEq ν] in
/-- The initial state of `stackProgram`, with NULL in every `*out`. -/
def timeoutInitial : Config ι (Memory ν) (Locals ν) :=
  ⟨(initial (ι := ι)).mem, fun _ => ⟨.idle, none, none, none⟩⟩

/-- A push with one attempt loses its race, and returns `MPMC_RETRY`. -/
theorem timeout_bounds_attempts_one :
    ∃ (s : Config Nat (Memory Nat) (Locals Nat)) (hist : _),
      Run TimeoutInit ((timeoutProgram false).StepIf KeepsTimeout) s hist ∧
        (s.loc 0).pc = .pushRet 3 false ∧ s.mem.head = some 4 ∧ TimeoutPromise 0 s hist := by
  have hstart : Run TimeoutInit ((timeoutProgram (ι := Nat) (ν := Nat) false).StepIf KeepsTimeout)
      timeoutInitial [] := .start init_initial
  obtain ⟨s, hist, run, hpc, hhead⟩ := hstart.exists_of_scheduleIf
    (q := fun s => (s.loc 0).pc = .pushRet 3 false ∧ s.mem.head = some 4)
    ((0, .stack (.push 3 (some 1))) :: (1, .stack (.push 4 (some 1))) ::
      [0, 0, 1, 1, 1, 0].map fun t => (t, .stack .step))
    (by decide +kernel)
  exact ⟨s, hist, run, hpc, hhead, timeout_bounds_attempts run 0⟩

/-- A push with `tries = 0` makes an attempt. Without `FIBER_XCHG_POINTER` a flush that
returns `MPMC_RETRY` leaves in `*out` the head that it has not got. -/
theorem timeout_attempts_without_tries :
    (∃ (s : Config Nat (Memory Nat) (Locals Nat)) (hist : _),
      Run TimeoutInit (timeoutProgram false).Step s hist ∧ (s.loc 0).tries = some 0 ∧
        (s.loc 0).pc = .pushRet 3 true ∧ ¬ TimeoutPromise 0 s hist) ∧
    ∃ (s : Config Nat (Memory Nat) (Locals Nat)) (hist : _),
      Run TimeoutInit (timeoutProgram false).Step s hist ∧ (s.loc 0).tries = some 1 ∧
        (s.loc 0).pc = .flushRet (.retry .lifo) ∧ (s.loc 0).out = some 4 ∧
        ¬ TimeoutPromise 0 s hist := by
  have hstart : Run TimeoutInit (timeoutProgram (ι := Nat) (ν := Nat) false).Step
      timeoutInitial [] := .start init_initial
  constructor
  · obtain ⟨s, hist, run, htries, hpc, hd⟩ := hstart.exists_of_history
      (q := fun s hist => (s.loc 0).tries = some 0 ∧ (s.loc 0).pc = .pushRet 3 true ∧
        During (Timed 0) (Attempt 0) hist)
      ((0, .stack (.push 3 (some 0))) :: List.replicate 3 (0, .stack .step))
      (by decide +kernel)
    have hbusy : Timed 0 s := ⟨by simp [hpc], by simp [htries]⟩
    refine ⟨s, hist, run, htries, hpc, fun h => ?_⟩
    exact absurd (h.attempts 0 1 hbusy htries hd.atLeast_one) (by decide)
  · obtain ⟨s, hist, run, htries, hpc, hout, hbefore⟩ := hstart.exists_of_schedule
      (q := fun s => (s.loc 0).tries = some 1 ∧ (s.loc 0).pc = .flushRet (.retry .lifo) ∧
        (s.loc 0).out = some 4 ∧ (s.loc 0).before = none)
      (List.flatten [[(1, .stack (.push 4 none))], List.replicate 4 (1, .stack .step),
        [(0, .stack (.flush .lifo (some 1))), (0, .stack .step), (1, .stack (.push 5 none))],
        List.replicate 3 (1, .stack .step), [(0, .stack .step)]])
      (by decide +kernel)
    have hbusy : Timed 0 s := ⟨by simp [hpc], by simp [htries]⟩
    refine ⟨s, hist, run, htries, hpc, hout, fun h => ?_⟩
    have hsame := (h.retry hbusy (by rw [hpc]; rfl)).2
    rw [hout, hbefore] at hsame
    cases hsame

end FibConcurrent.MpmcStack
