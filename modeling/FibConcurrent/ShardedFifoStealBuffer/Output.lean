import FibConcurrent.FifoStealBuffer.Correct
import FibConcurrent.ShardedFifoStealBuffer.Model

/-!
# ShardedFifoStealBuffer — what a failed take leaves in `*out`

A pop writes `*out` only when it has its item. A steal writes it before its CAS,
and leaves there what it has read when the CAS fails: an item that another
thread has taken.
-/

namespace FibConcurrent.ShardedFifoStealBuffer

open FibConcurrent.Machine FibConcurrent.Data
open FibConcurrent.FifoStealBuffer (Buffer PushPc PopPc StealPc StealResult pushStep popStep
  stealStep)

variable {ι α : Type*} [DecidableEq ι] {c : Capacity} {numShards : UInt32}

/-- Any memory, and every thread between calls. -/
def Init (s : Config ι (Memory ι α) (Pc α)) : Prop :=
  ∀ t, s.loc t = .idle

/-- No CAS of a steal fails after it has put another item into `*out`. -/
def NoneLost (t : ι) (m : Memory ι α) (pc : Pc α) (_m' : Memory ι α) : Prop :=
  match pc with
  | .steal shard (.swapLow low value) _ => (m.shards shard).low = low ∨ value = m.before t
  | _ => True

instance [DecidableEq α] (t : ι) (m : Memory ι α) (pc : Pc α) (m' : Memory ι α) :
    Decidable (NoneLost t m pc m') := by
  unfold NoneLost
  split <;> exact inferInstance

/-- What `*out` holds during a call: what it held before, unless the call has
put an item there that it can still claim. -/
def Kept (m : Memory ι α) (t : ι) : Pc α → Prop
  | .idle => True
  | .steal _ (.swapLow _ value) _ => m.out t = value
  | .ret code => code ≠ 1 → m.out t = m.before t
  | _ => m.out t = m.before t

section Steps

variable {m m' : Memory ι α} {t u : ι} {pc pc' : Pc α} {a : Choice α} {shard : Nat}

omit [DecidableEq ι] in
theorem pushAccess_out (m : Memory ι α) (shard : Nat) (p : PushPc α)
    (loop : Option (α × UInt32)) :
    (pushAccess c m shard p loop).1.out = m.out ∧
      (pushAccess c m shard p loop).1.before = m.before := by
  unfold pushAccess
  dsimp only
  split <;> exact ⟨rfl, rfl⟩

/-- The cells are private. -/
theorem exec_private (he : exec c numShards t a m pc = some (m', pc')) (hu : u ≠ t) :
    m'.out u = m.out u ∧ m'.before u = m.before u := by
  cases pc with
  | idle =>
    cases a <;> simp only [exec, reduceCtorEq, Option.some.injEq, Prod.mk.injEq] at he
    case assign value =>
      obtain ⟨rfl, -⟩ := he
      exact ⟨m.setOut_of_ne value hu, rfl⟩
    all_goals
      obtain ⟨rfl, -⟩ := he
      exact ⟨rfl, m.call_of_ne hu⟩
  | nextPush data i =>
    simp only [exec] at he
    split at he
    all_goals
      obtain ⟨rfl, -⟩ := Prod.mk.inj (Option.some.inj he)
      exact ⟨rfl, rfl⟩
  | push shard p loop =>
    obtain ⟨rfl, -⟩ : m' = (pushAccess c m shard p loop).1 ∧ pc' = _ :=
      Prod.ext_iff.mp (Option.some.inj he).symm
    obtain ⟨hout, hbefore⟩ := pushAccess_out (c := c) m shard p loop
    exact ⟨congrFun hout u, congrFun hbefore u⟩
  | nextPop i =>
    simp only [exec] at he
    split at he
    all_goals
      obtain ⟨rfl, -⟩ := Prod.mk.inj (Option.some.inj he)
      exact ⟨rfl, rfl⟩
  | pop shard p loop =>
    obtain ⟨rfl, -⟩ : m' = (popAccess c t m shard p loop).1 ∧ pc' = _ :=
      Prod.ext_iff.mp (Option.some.inj he).symm
    unfold popAccess
    dsimp only
    split
    · exact ⟨rfl, rfl⟩
    · exact ⟨Memory.setOut_of_ne _ _ hu, rfl⟩
    · exact ⟨rfl, rfl⟩
  | nextSteal loop =>
    simp only [exec] at he
    split at he
    all_goals
      obtain ⟨rfl, -⟩ := Prod.mk.inj (Option.some.inj he)
      exact ⟨rfl, rfl⟩
  | steal shard p loop =>
    obtain ⟨rfl, -⟩ : m' = (stealAccess c t m shard p loop).1 ∧ pc' = _ :=
      Prod.ext_iff.mp (Option.some.inj he).symm
    unfold stealAccess
    dsimp only
    split
    · exact ⟨Memory.setOut_of_ne _ _ hu, rfl⟩
    · exact ⟨rfl, rfl⟩
    · exact ⟨rfl, rfl⟩
    · exact ⟨rfl, rfl⟩
  | ret code =>
    obtain ⟨rfl, -⟩ := Prod.mk.inj (Option.some.inj he)
    exact ⟨rfl, rfl⟩

theorem kept_pop {p : PopPc} {loop : Option UInt32} (h : m.out t = m.before t) :
    Kept (popAccess c t m shard p loop).1 t (popAccess c t m shard p loop).2 := by
  unfold popAccess
  dsimp only
  split
  · exact h
  · exact fun hcode => absurd rfl hcode
  · cases loop with
    | none => exact fun _ => h
    | some i => exact h

/-- A steal claims what it has put into `*out`, or `*out` has not changed. -/
theorem kept_steal {p : StealPc α} {loop : Option (StealLoop α)}
    (h : Kept m t (.steal shard p loop)) (hok : NoneLost t m (.steal shard p loop) m') :
    Kept (stealAccess c t m shard p loop).1 t (stealAccess c t m shard p loop).2 := by
  have hfail : ∀ (b : Buffer α) (ret : StealResult α), m.out t = m.before t →
      Kept (m.setShard shard b) t
        (loop.elim (.ret (code ret)) fun loop => .nextSteal (loop.next ret)) := by
    intro b ret hout
    cases loop with
    | none => exact fun _ => hout
    | some loop => exact hout
  cases p with
  | readHigh => exact h
  | readLow high =>
    unfold stealAccess stealStep
    dsimp only
    by_cases hlt : high > (m.shards shard).low
    · rw [if_pos hlt]
      exact h
    · rw [if_neg hlt]
      exact hfail _ _ h
  | readSlot low => exact Memory.setOut_self ..
  | swapLow low value =>
    unfold stealAccess stealStep
    dsimp only
    by_cases hcas : (m.shards shard).low = low
    · rw [if_pos hcas]
      exact fun hcode => absurd rfl hcode
    · rw [if_neg hcas]
      have hout : m.out t = value := h
      rcases hok with hlow | hsame
      · exact absurd hlow hcas
      · exact hfail _ _ (hout.trans hsame)

theorem exec_kept (h : Kept m t pc) (hok : NoneLost t m pc m')
    (he : exec c numShards t a m pc = some (m', pc')) : Kept m' t pc' := by
  cases pc with
  | idle =>
    cases a <;> simp only [exec, reduceCtorEq, Option.some.injEq, Prod.mk.injEq] at he
    all_goals
      obtain ⟨rfl, rfl⟩ := he
      simp [Kept]
  | nextPush data i =>
    simp only [exec] at he
    split at he
    · obtain ⟨rfl, rfl⟩ := Prod.mk.inj (Option.some.inj he)
      exact h
    · obtain ⟨rfl, rfl⟩ := Prod.mk.inj (Option.some.inj he)
      exact fun _ => h
  | push shard p loop =>
    obtain ⟨rfl, rfl⟩ : m' = (pushAccess c m shard p loop).1 ∧ pc' = _ :=
      Prod.ext_iff.mp (Option.some.inj he).symm
    have h : m.out t = m.before t := h
    unfold pushAccess
    dsimp only
    split
    · exact h
    · exact fun _ => h
    · cases loop with
      | none => exact fun _ => h
      | some r => exact h
  | nextPop i =>
    simp only [exec] at he
    split at he
    · obtain ⟨rfl, rfl⟩ := Prod.mk.inj (Option.some.inj he)
      exact h
    · obtain ⟨rfl, rfl⟩ := Prod.mk.inj (Option.some.inj he)
      exact fun _ => h
  | pop shard p loop =>
    obtain ⟨rfl, rfl⟩ : m' = (popAccess c t m shard p loop).1 ∧ pc' = _ :=
      Prod.ext_iff.mp (Option.some.inj he).symm
    exact kept_pop h
  | nextSteal loop =>
    simp only [exec] at he
    split at he
    · obtain ⟨rfl, rfl⟩ := Prod.mk.inj (Option.some.inj he)
      exact h
    · obtain ⟨rfl, rfl⟩ := Prod.mk.inj (Option.some.inj he)
      exact fun _ => h
  | steal shard p loop =>
    obtain ⟨rfl, rfl⟩ : m' = (stealAccess c t m shard p loop).1 ∧ pc' = _ :=
      Prod.ext_iff.mp (Option.some.inj he).symm
    exact kept_steal h hok
  | ret code =>
    obtain ⟨rfl, rfl⟩ := Prod.mk.inj (Option.some.inj he)
    trivial

end Steps

/-! ## Runs -/

section Runs

variable {s : Config ι (Memory ι α) (Pc α)} {hist : List (Event ι (Config ι (Memory ι α) (Pc α)))}

/-- A take that failed has left `*out` as it was. -/
def OutputPromise (s : Config ι (Memory ι α) (Pc α)) : Prop :=
  ∀ t code, s.loc t = .ret code → code ≠ 1 → s.mem.out t = s.mem.before t

/-- **Failed takes leave `*out` alone**, from every state and in every
interleaving, as long as no steal loses its item to another thread after it has
written it there. -/
theorem failed_takes_keep_out
    (run : Run Init ((shardedProgram c numShards).StepIf NoneLost) s hist) :
    OutputPromise s := by
  have hkept : ∀ t, Kept s.mem t (s.loc t) := by
    apply run.invariant (I := fun s => ∀ t, Kept s.mem t (s.loc t))
    · intro s h t
      rw [h t]
      trivial
    · rintro t s s' ih ⟨hok, hs⟩ u
      obtain ⟨a, he⟩ := hs.exec
      by_cases hut : u = t
      · subst hut
        exact exec_kept (ih u) hok he
      · obtain ⟨hout, hbefore⟩ := exec_private he hut
        rw [hs.loc_of_ne hut]
        have hu := ih u
        unfold Kept at *
        rwa [hout, hbefore]
  intro t code hloc hcode
  have ht := hkept t
  rw [hloc] at ht
  exact ht hcode

end Runs

/-- Shard 0 holds the item 7, the others are empty; every `*out` holds 0. -/
def oneItem : Config Nat (Memory Nat Nat) (Pc Nat) where
  mem :=
    { shards := fun shard => ⟨if shard = 0 then 1 else 0, 0, fun _ => 7, [], [], []⟩
      nextShardPush := 0
      nextShardPop := 0
      out := fun _ => 0
      before := fun _ => 0 }
  loc _ := .idle

/-- Thread 0 takes the item by `sharded_fifo_steal_buffer_steal`, and thread 1
finds both shards empty. -/
theorem failed_takes_keep_out_empty :
    ∃ s hist, Run Init ((shardedProgram FifoStealBuffer.two 2).StepIf NoneLost) s hist ∧
      s.loc 1 = .ret 0 ∧ s.mem.out 0 = 7 ∧ OutputPromise s := by
  have hstart : Run Init ((shardedProgram (ι := Nat) (α := Nat) FifoStealBuffer.two 2).StepIf
      NoneLost) oneItem [] := .start fun _ => rfl
  obtain ⟨s, hist, run, hret, hout⟩ := hstart.exists_of_scheduleIf
    (q := fun s => s.loc 1 = .ret 0 ∧ s.mem.out 0 = 7)
    (List.flatten [(0, .shardedSteal 0) :: List.replicate 5 (0, .step),
      (1, .shardedSteal 5) :: List.replicate 7 (1, .step)])
    (by decide +kernel)
  exact ⟨s, hist, run, hret, hout, failed_takes_keep_out run⟩

/-- Threads 0 and 1 read the same item. The CAS of thread 0 succeeds, that of
thread 1 fails: it returns ABORT, and `*out` holds the item of thread 0. -/
theorem lost_steal_writes_out :
    ¬ ∀ s hist, Run Init (shardedProgram (ι := Nat) (α := Nat) FifoStealBuffer.two 2).Step s hist →
      OutputPromise s := by
  intro h
  have hstart : Run Init (shardedProgram (ι := Nat) (α := Nat) FifoStealBuffer.two 2).Step
      oneItem [] := .start fun _ => rfl
  obtain ⟨s, hist, run, hret, hout, hbefore⟩ := hstart.exists_of_schedule
    (q := fun s => s.loc 1 = .ret (-1) ∧ s.mem.out 1 = 7 ∧ s.mem.before 1 = 0)
    (List.flatten [(0, .steal 0) :: List.replicate 3 (0, .step),
      (1, .steal 0) :: List.replicate 3 (1, .step), [(0, .step), (1, .step)]])
    (by decide +kernel)
  have hkept := h s hist run 1 (-1) hret (by decide)
  rw [hout, hbefore] at hkept
  exact absurd hkept (by decide)

end FibConcurrent.ShardedFifoStealBuffer
