import FibConcurrent.ShardedFifoStealBuffer.Model
import Mathlib.Data.List.Nodup

/-!
# ShardedFifoStealBuffer — which shards a steal tries

`sharded_fifo_steal_buffer_steal` on its own: whatever the single shards answer,
which of them it asks, and what it makes of the answers. The bound of its loop is
`hint + num_shards` in 32 bits. Where the sum wraps around it is not above
`hint`, and the loop does not run at all.
-/

namespace FibConcurrent.ShardedFifoStealBuffer

open FibConcurrent.FifoStealBuffer (StealResult)

variable {α : Type*} {numShards hint : UInt32} {outcome : Nat → Nat → StealResult α}

theorem toNat_add_one {i stop : UInt32} (h : i < stop) : (i + 1).toNat = i.toNat + 1 := by
  have hlt : i.toNat < stop.toNat := h
  have hstop := stop.toNat_lt
  rw [UInt32.toNat_add]
  exact Nat.mod_eq_of_lt (by simp; omega)

theorem StealLoop.lt_of_shard {loop : StealLoop α} {shard : Nat}
    (h : loop.shard numShards = some shard) :
    loop.i < loop.stop ∧ shard = (loop.i % numShards).toNat := by
  obtain ⟨hlt, hshard⟩ := Option.ite_none_right_eq_some.mp h
  exact ⟨hlt, (Option.some.inj hshard).symm⟩

/-- The loop, from its `k`-th attempt on: the result, and the shards that it has
tried. `outcome k shard` is what attempt `k` returns, from that shard. -/
def stealLoop (numShards : UInt32) (outcome : Nat → Nat → StealResult α) (k : Nat)
    (loop : StealLoop α) : StealResult α × List Nat :=
  match _h : loop.shard numShards with
  | none => (loop.finalRet, [])
  | some shard =>
      match outcome k shard with
      | .success out => (.success out, [shard])
      | ret =>
          let r := stealLoop numShards outcome (k + 1) (loop.next ret)
          (r.1, shard :: r.2)
termination_by loop.stop.toNat - loop.i.toNat
decreasing_by
  obtain ⟨hi, -⟩ := StealLoop.lt_of_shard _h
  have hone := toNat_add_one hi
  have hlt : loop.i.toNat < loop.stop.toNat := hi
  simp only [StealLoop.next]
  omega

/-- `sharded_fifo_steal_buffer_steal`. -/
def shardedSteal (numShards hint : UInt32) (outcome : Nat → Nat → StealResult α) :
    StealResult α × List Nat :=
  stealLoop numShards outcome 0 (.start numShards hint)

/-! ## One attempt -/

section Loop

variable {k shard : Nat} {loop : StealLoop α}

theorem stealLoop_end (h : loop.shard numShards = none) :
    stealLoop numShards outcome k loop = (loop.finalRet, []) := by
  rw [stealLoop]
  split
  · rfl
  · next hsome => simp [h] at hsome

theorem stealLoop_success {out : α} (h : loop.shard numShards = some shard)
    (hout : outcome k shard = .success out) :
    stealLoop numShards outcome k loop = (.success out, [shard]) := by
  rw [stealLoop]
  split
  · next hnone => simp [h] at hnone
  · next hsome =>
    obtain rfl := Option.some.inj (h.symm.trans hsome)
    rw [hout]

theorem stealLoop_failure (h : loop.shard numShards = some shard)
    (hout : ∀ out, outcome k shard ≠ .success out) :
    stealLoop numShards outcome k loop =
      ((stealLoop numShards outcome (k + 1) (loop.next (outcome k shard))).1,
        shard :: (stealLoop numShards outcome (k + 1) (loop.next (outcome k shard))).2) := by
  rw [stealLoop]
  split
  · next hnone => simp [h] at hnone
  · next hsome =>
    obtain rfl := Option.some.inj (h.symm.trans hsome)
    split
    · next out heq => exact absurd heq (hout out)
    · rfl

end Loop

/-! ## The whole loop -/

/-- The shard of attempt `k`. -/
def shardAt (numShards hint : UInt32) (k : Nat) : Nat :=
  (hint.toNat + k) % numShards.toNat

/-- No attempt from `k` to before `n` succeeds. -/
def NoSuccess (numShards hint : UInt32) (outcome : Nat → Nat → StealResult α) (k n : Nat) : Prop :=
  ∀ j, k ≤ j → j < n → ∀ out, outcome j (shardAt numShards hint j) ≠ .success out

/-- The loop makes attempts `k` to `n - 1` in order, up to the first success. -/
inductive Visited (numShards hint : UInt32) (outcome : Nat → Nat → StealResult α) (k n : Nat)
    (finalRet : StealResult α) : StealResult α × List Nat → Prop
  | success (j : Nat) (out : α) (hkj : k ≤ j) (hjn : j < n)
      (hbefore : NoSuccess numShards hint outcome k j)
      (hout : outcome j (shardAt numShards hint j) = .success out) :
      Visited numShards hint outcome k n finalRet
        (.success out, (List.range' k (j + 1 - k)).map (shardAt numShards hint))
  | aborted (j : Nat) (hkj : k ≤ j) (hjn : j < n) (hnone : NoSuccess numShards hint outcome k n)
      (hout : outcome j (shardAt numShards hint j) = .abort) :
      Visited numShards hint outcome k n finalRet
        (.abort, (List.range' k (n - k)).map (shardAt numShards hint))
  | empty (hempty : ∀ j, k ≤ j → j < n → outcome j (shardAt numShards hint j) = .empty) :
      Visited numShards hint outcome k n finalRet
        (finalRet, (List.range' k (n - k)).map (shardAt numShards hint))

theorem noSuccess_cons {k n : Nat}
    (hk : ∀ out, outcome k (shardAt numShards hint k) ≠ .success out)
    (h : NoSuccess numShards hint outcome (k + 1) n) : NoSuccess numShards hint outcome k n := by
  intro j hkj hjn
  rcases Nat.eq_or_lt_of_le hkj with rfl | hlt
  · exact hk
  · exact h j hlt hjn

theorem range'_cons {k n : Nat} (h : k < n) :
    List.range' k (n - k) = k :: List.range' (k + 1) (n - (k + 1)) := by
  rw [show n - k = (n - (k + 1)) + 1 by omega]
  exact List.range'_succ ..

/-- Attempt `k` has failed, and the loop goes on. -/
theorem Visited.cons {k n : Nat} {loop : StealLoop α} {r : StealResult α × List Nat} (hk : k < n)
    (hout : ∀ out, outcome k (shardAt numShards hint k) ≠ .success out)
    (h : Visited numShards hint outcome (k + 1) n
      (loop.next (outcome k (shardAt numShards hint k))).finalRet r) :
    Visited numShards hint outcome k n loop.finalRet (r.1, shardAt numShards hint k :: r.2) := by
  cases h with
  | success j out hkj hjn hbefore hj =>
    have hvisited : Visited numShards hint outcome k n loop.finalRet _ :=
      .success j out (Nat.le_of_succ_le hkj) hjn (noSuccess_cons hout hbefore) hj
    rwa [range'_cons (by omega), List.map_cons] at hvisited
  | aborted j hkj hjn hnone hj =>
    have hvisited : Visited numShards hint outcome k n loop.finalRet _ :=
      .aborted j (Nat.le_of_succ_le hkj) hjn (noSuccess_cons hout hnone) hj
    rwa [range'_cons hk, List.map_cons] at hvisited
  | empty hempty =>
    have hnone : NoSuccess numShards hint outcome (k + 1) n := by
      intro j hkj hjn out
      rw [hempty j hkj hjn]
      exact nofun
    cases hret : outcome k (shardAt numShards hint k) with
    | success out => exact absurd hret (hout out)
    | abort =>
      have hvisited : Visited numShards hint outcome k n loop.finalRet _ :=
        .aborted k (Nat.le_refl k) hk (noSuccess_cons hout hnone) hret
      rwa [range'_cons hk, List.map_cons] at hvisited
    | empty =>
      have hvisited : Visited numShards hint outcome k n loop.finalRet _ := .empty fun j hkj hjn => by
        rcases Nat.eq_or_lt_of_le hkj with rfl | hlt
        · exact hret
        · exact hempty j hlt hjn
      rwa [range'_cons hk, List.map_cons] at hvisited

/-- **The loop visits all shards in order**, as long as its bound does not wrap
around. -/
theorem stealLoop_visited {k n : Nat} {loop : StealLoop α}
    (hi : loop.i.toNat = hint.toNat + k) (hstop : loop.stop.toNat = hint.toNat + n) (hk : k ≤ n) :
    Visited numShards hint outcome k n loop.finalRet (stealLoop numShards outcome k loop) := by
  obtain ⟨d, hd⟩ := Nat.exists_eq_add_of_le hk
  induction d generalizing k loop with
  | zero =>
    have hend : loop.shard numShards = none := by
      rw [StealLoop.shard, if_neg]
      rw [UInt32.lt_iff_toNat_lt]
      omega
    have hempty : Visited numShards hint outcome k n loop.finalRet _ :=
      .empty fun j hkj hjn => by omega
    rw [show n - k = 0 by omega] at hempty
    rw [stealLoop_end hend]
    exact hempty
  | succ d ih =>
    have hlt : loop.i < loop.stop := by
      rw [UInt32.lt_iff_toNat_lt]
      omega
    have hshard : loop.shard numShards = some (shardAt numShards hint k) := by
      rw [StealLoop.shard, if_pos hlt, UInt32.toNat_mod, hi]
      rfl
    by_cases hout : ∃ out, outcome k (shardAt numShards hint k) = .success out
    · obtain ⟨out, hout⟩ := hout
      have hvisited : Visited numShards hint outcome k n loop.finalRet _ :=
        .success k out (Nat.le_refl k) (by omega) (fun j hkj hjk => by omega) hout
      rw [show k + 1 - k = 1 by omega] at hvisited
      rw [stealLoop_success hshard hout]
      exact hvisited
    · have hout : ∀ out, outcome k (shardAt numShards hint k) ≠ .success out := fun out h =>
        hout ⟨out, h⟩
      rw [stealLoop_failure hshard hout]
      apply Visited.cons (by omega) hout
      apply ih
      · show (loop.i + 1).toNat = hint.toNat + (k + 1)
        rw [toNat_add_one hlt]
        omega
      · exact hstop
      · omega
      · omega

/-! ## What the loop promises: every shard once, from the hint on -/

/-- The steal has tried the shards from the hint on, each once at most, until
one succeeded, and returns what they have answered. -/
structure Visits (numShards hint : UInt32) (outcome : Nat → Nat → StealResult α)
    (r : StealResult α × List Nat) : Prop where
  /-- In order, and no more of them than there are. -/
  order : ∃ n ≤ numShards.toNat, r.2 = (List.range n).map (shardAt numShards hint)
  once : r.2.Nodup
  /-- The item is that of the first success, after which no shard was tried. -/
  success : ∀ out, r.1 = .success out ↔ ∃ j < numShards.toNat,
    outcome j (shardAt numShards hint j) = .success out ∧
      NoSuccess numShards hint outcome 0 j ∧ r.2.length = j + 1
  /-- EMPTY: all were tried, and found empty. -/
  empty : r.1 = .empty ↔ r.2.length = numShards.toNat ∧
    ∀ j < numShards.toNat, outcome j (shardAt numShards hint j) = .empty
  /-- ABORT: none succeeded, and one aborted. -/
  abort : r.1 = .abort ↔ NoSuccess numShards hint outcome 0 numShards.toNat ∧
    ∃ j < numShards.toNat, outcome j (shardAt numShards hint j) = .abort

theorem shardAt_injOn {i j : Nat} (hi : i < numShards.toNat) (hj : j < numShards.toNat)
    (h : shardAt numShards hint i = shardAt numShards hint j) : i = j := by
  have hmod : hint.toNat + i ≡ hint.toNat + j [MOD numShards.toNat] := h
  exact Nat.ModEq.eq_of_lt_of_lt (Nat.ModEq.add_left_cancel' _ hmod) hi hj

theorem nodup_visited {n : Nat} (hn : n ≤ numShards.toNat) :
    ((List.range n).map (shardAt numShards hint)).Nodup := by
  apply List.Nodup.map_on _ List.nodup_range
  intro i hi j hj h
  rw [List.mem_range] at hi hj
  exact shardAt_injOn (by omega) (by omega) h

theorem Visited.visits {r : StealResult α × List Nat}
    (h : Visited numShards hint outcome 0 numShards.toNat .empty r) :
    Visits numShards hint outcome r := by
  cases h with
  | success j out hkj hjn hbefore hj =>
    rw [Nat.sub_zero, ← List.range_eq_range']
    constructor
    case order => exact ⟨j + 1, hjn, rfl⟩
    case once => exact nodup_visited hjn
    case success =>
      intro out'
      constructor
      · rintro ⟨⟩
        exact ⟨j, hjn, hj, hbefore, by simp⟩
      · rintro ⟨j', -, hj', -, hlength⟩
        have heq : j' = j := by simpa using hlength.symm
        rw [heq] at hj'
        rw [← hj, hj']
    case empty =>
      refine ⟨nofun, fun ⟨_, hempty⟩ => ?_⟩
      rw [hempty j hjn] at hj
      cases hj
    case abort => exact ⟨nofun, fun ⟨hnone, _⟩ => absurd hj (hnone j hkj hjn out)⟩
  | aborted j hkj hjn hnone hj =>
    rw [Nat.sub_zero, ← List.range_eq_range']
    constructor
    case order => exact ⟨_, Nat.le_refl _, rfl⟩
    case once => exact nodup_visited (Nat.le_refl _)
    case success =>
      intro out
      refine ⟨nofun, fun ⟨j', hj'n, hj', _⟩ => ?_⟩
      exact absurd hj' (hnone j' (Nat.zero_le j') hj'n out)
    case empty =>
      refine ⟨nofun, fun ⟨_, hempty⟩ => ?_⟩
      rw [hempty j hjn] at hj
      cases hj
    case abort => exact ⟨fun _ => ⟨hnone, j, hjn, hj⟩, fun _ => rfl⟩
  | empty hempty =>
    rw [Nat.sub_zero, ← List.range_eq_range']
    constructor
    case order => exact ⟨_, Nat.le_refl _, rfl⟩
    case once => exact nodup_visited (Nat.le_refl _)
    case success =>
      intro out
      refine ⟨nofun, fun ⟨j, hjn, hj, _⟩ => ?_⟩
      rw [hempty j (Nat.zero_le j) hjn] at hj
      cases hj
    case empty =>
      exact ⟨fun _ => ⟨by simp, fun j hjn => hempty j (Nat.zero_le j) hjn⟩, fun _ => rfl⟩
    case abort =>
      refine ⟨nofun, fun ⟨_, j, hjn, hj⟩ => ?_⟩
      rw [hempty j (Nat.zero_le j) hjn] at hj
      cases hj

/-- Where the bound wraps around, nothing is tried. -/
theorem shardedSteal_wrapped (h : 2 ^ 32 ≤ hint.toNat + numShards.toNat) :
    shardedSteal numShards hint outcome = (.empty, []) := by
  have hhint := hint.toNat_lt
  have hshards := numShards.toNat_lt
  apply stealLoop_end
  rw [StealLoop.shard, if_neg]
  rw [UInt32.lt_iff_toNat_lt]
  show ¬ hint.toNat < (hint + numShards).toNat
  rw [UInt32.toNat_add]
  omega

/-- **A steal visits every shard** if and only if `hint + num_shards` does not
wrap around. -/
theorem sharded_steal_visits (hN : 1 ≤ numShards.toNat) :
    (∀ outcome : Nat → Nat → StealResult α,
      Visits numShards hint outcome (shardedSteal numShards hint outcome)) ↔
      hint.toNat + numShards.toNat < 2 ^ 32 := by
  constructor
  · intro hvisits
    by_contra hwrap
    have h := hvisits fun _ _ => .abort
    rw [shardedSteal_wrapped (by omega)] at h
    have habort := h.abort.mpr ⟨fun _ _ _ _ => nofun, 0, hN, rfl⟩
    cases habort
  · intro hlt outcome
    have hstop : (hint + numShards).toNat = hint.toNat + numShards.toNat := by
      rw [UInt32.toNat_add]
      exact Nat.mod_eq_of_lt hlt
    have hstart : (StealLoop.start (α := α) numShards hint).i.toNat = hint.toNat + 0 := rfl
    exact Visited.visits (stealLoop_visited hstart hstop (Nat.zero_le _))

/-- Three shards from hint 7: shards 1 and 2 abort, shard 0 has an item. -/
theorem sharded_steal_visits_three :
    Visits 3 7 (fun _ shard => if shard = 0 then .success 5 else .abort)
      (shardedSteal 3 7 fun _ shard => if shard = 0 then .success 5 else .abort) :=
  (sharded_steal_visits (by decide)).mpr (by decide) _

/-- From hint `2 ^ 32 - 1`, a steal from one shard that holds an item returns
EMPTY without having tried it. -/
theorem sharded_steal_skips :
    ¬ ∀ outcome : Nat → Nat → StealResult Nat,
      Visits 1 0xFFFFFFFF outcome (shardedSteal 1 0xFFFFFFFF outcome) := by
  intro h
  have hsuccess := (h fun _ _ => .success 5).empty.mp (by rw [shardedSteal_wrapped (by decide)])
  exact absurd (hsuccess.2 0 (by decide)) nofun

end FibConcurrent.ShardedFifoStealBuffer
