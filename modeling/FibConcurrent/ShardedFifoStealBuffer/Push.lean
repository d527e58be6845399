import FibConcurrent.Machine.Alone
import FibConcurrent.ShardedFifoStealBuffer.Model
import Mathlib.Algebra.Order.BigOperators.Group.Finset

/-!
# ShardedFifoStealBuffer — pushes without concurrent steals

A push on the sharded buffer tries every shard once, from the cursor on. It puts
the item behind those of the first shard that has room, and fails only if no
shard has any: then the cursor has gone once round.
-/

namespace FibConcurrent.ShardedFifoStealBuffer

open FibConcurrent.Machine FibConcurrent.Data
open FibConcurrent.FifoStealBuffer (Buffer PushPc pushStep)

variable {ι α : Type*} {c : Capacity}

/-! ## One shard -/

/-- `high - low`. -/
def count (b : Buffer α) : Nat := wrapSub b.high b.low

/-- What a buffer holds, the oldest item first. -/
def items (c : Capacity) (b : Buffer α) : List α :=
  (List.range (count b)).map fun k => b.buffer (c.slot ((b.low + k) % 2 ^ 64))

/-- An initialised buffer that no steal or pop is working on. -/
structure Settled (c : Capacity) (b : Buffer α) : Prop where
  high : b.high < 2 ^ 64
  low : b.low < 2 ^ 64
  fits : count b ≤ c.size

/-- What a push makes of a buffer with room. -/
def withPushed (c : Capacity) (b : Buffer α) (data : α) : Buffer α :=
  { b with
    buffer := Function.update b.buffer (c.slot b.high) data
    high := (b.high + 1) % 2 ^ 64
    pushed := b.pushed ++ [data] }

section Shard

variable {b : Buffer α} {data : α}

theorem size_le (c : Capacity) : c.size ≤ 2 ^ 31 :=
  Nat.pow_le_pow_right (by decide) (Nat.le_of_lt_succ c.lt)

/-- The counters wrap at a multiple of the size. -/
theorem slot_mod (c : Capacity) (i : Nat) : c.slot (i % 2 ^ 64) = c.slot i := by
  have hdvd : c.size ∣ 2 ^ 64 := Nat.pow_dvd_pow 2 (Nat.le_of_lt (Nat.lt_trans c.lt (by decide)))
  rw [c.slot_eq_mod, c.slot_eq_mod, Nat.mod_mod_of_dvd _ hdvd]

theorem high_eq (hb : Settled c b) : b.high = (b.low + count b) % 2 ^ 64 := by
  have hhigh := hb.high
  have hlow := hb.low
  unfold count wrapSub
  omega

theorem count_withPushed (hb : Settled c b) (hroom : count b < c.size) :
    count (withPushed c b data) = count b + 1 := by
  have hhigh := hb.high
  have hlow := hb.low
  have hsize := size_le c
  unfold count wrapSub withPushed at *
  dsimp only
  omega

/-- **A push appends**: the slot that it writes is not that of any item. -/
theorem items_withPushed (hb : Settled c b) (hroom : count b < c.size) :
    items c (withPushed c b data) = items c b ++ [data] := by
  have hslot : c.slot b.high = c.slot (b.low + count b) := by rw [high_eq hb, slot_mod]
  unfold items
  rw [count_withPushed hb hroom, List.range_succ, List.map_append, List.map_singleton]
  congr 1
  · apply List.map_congr_left
    intro k hk
    rw [List.mem_range] at hk
    show Function.update b.buffer (c.slot b.high) data (c.slot ((b.low + k) % 2 ^ 64)) = _
    have hne : c.slot (b.low + k) ≠ c.slot (b.low + count b) :=
      c.slot_ne (by omega) (by omega)
    rw [hslot, slot_mod, Function.update_of_ne hne]
  · show [Function.update b.buffer (c.slot b.high) data (c.slot ((b.low + count b) % 2 ^ 64))] = _
    rw [hslot, slot_mod, Function.update_self]

theorem settled_withPushed (hb : Settled c b) (hroom : count b < c.size) (data : α) :
    Settled c (withPushed c b data) where
  high := Nat.mod_lt _ (by decide)
  low := hb.low
  fits := by
    rw [count_withPushed hb hroom]
    exact hroom

end Shard

/-! ## The cursor -/

section Cursor

variable {numShards which : UInt32}

/-- The cursor goes round the shards. -/
theorem nextShard_toNat (h : which < numShards) :
    (nextShard numShards which).toNat = (which.toNat + 1) % numShards.toNat := by
  have hlt : which.toNat < numShards.toNat := UInt32.lt_iff_toNat_lt.mp h
  have hbound := numShards.toNat_lt
  have hsucc : (which + 1).toNat = which.toNat + 1 := by
    rw [UInt32.toNat_add, UInt32.toNat_one, Nat.mod_eq_of_lt (by omega)]
  unfold nextShard
  split
  case isTrue hge =>
    have hge : numShards.toNat ≤ (which + 1).toNat := UInt32.le_iff_toNat_le.mp hge
    rw [show which.toNat + 1 = numShards.toNat by omega, Nat.mod_self]
    rfl
  case isFalse hlt' =>
    have hlt' : ¬ numShards.toNat ≤ (which + 1).toNat := fun h => hlt' (UInt32.le_iff_toNat_le.mpr h)
    rw [hsucc, Nat.mod_eq_of_lt (by omega)]

theorem nextShard_lt (h : which < numShards) : nextShard numShards which < numShards := by
  have hlt : which.toNat < numShards.toNat := UInt32.lt_iff_toNat_lt.mp h
  rw [UInt32.lt_iff_toNat_lt, nextShard_toNat h]
  exact Nat.mod_lt _ (by omega)

end Cursor

/-! ## The loop -/

variable [DecidableEq ι] {numShards : UInt32} {t : ι} {m : Memory ι α} {data : α}

omit [DecidableEq ι] in
theorem setShard_self (m : Memory ι α) (shard : Nat) : m.setShard shard (m.shards shard) = m := by
  simp [Memory.setShard]

omit [DecidableEq ι] in
theorem setShard_setShard (m : Memory ι α) (shard : Nat) (b b' : Buffer α) :
    (m.setShard shard b).setShard shard b' = m.setShard shard b' := by
  simp [Memory.setShard]

omit [DecidableEq ι] in
@[simp] theorem setShard_shards_self (m : Memory ι α) (shard : Nat) (b : Buffer α) :
    (m.setShard shard b).shards shard = b := Function.update_self ..

section Push

variable {shard : Nat} {pc pc' : PushPc α} {b : Buffer α} {loop : Option (α × UInt32)}

/-- One access of a push, where the push goes on. -/
theorem exec_push (h : pushStep c (m.shards shard) pc = (b, .inl pc')) :
    (shardedProgram c numShards).exec t .step m (.push shard pc loop) =
      some (m.setShard shard b, .push shard pc' loop) := by
  show some (pushAccess c m shard pc loop) = _
  unfold pushAccess
  rw [h]

theorem exec_push_stored (h : pushStep c (m.shards shard) pc = (b, .inr true)) :
    (shardedProgram c numShards).exec t .step m (.push shard pc loop) =
      some (m.setShard shard b, .ret 1) := by
  show some (pushAccess c m shard pc loop) = _
  unfold pushAccess
  rw [h]

theorem exec_push_full {i : UInt32} (h : pushStep c (m.shards shard) pc = (b, .inr false)) :
    (shardedProgram c numShards).exec t .step m (.push shard pc (some (data, i))) =
      some (m.setShard shard b, .nextPush data (i + 1)) := by
  show some (pushAccess c m shard pc _) = _
  unfold pushAccess
  rw [h]
  rfl

theorem pushStep_room (h : count b < c.size) :
    pushStep c b (.readLow data b.high) = (b, .inl (.writeSlot data b.high)) := by
  unfold count at h
  simp [pushStep, h]

theorem pushStep_full (h : ¬ count b < c.size) :
    pushStep c b (.readLow data b.high) = (b, .inr false) := by
  unfold count at h
  simp [pushStep, h]

/-- The push on one shard within the loop. -/
theorem solo_shard {i : UInt32} :
    (shardedProgram c numShards).Solo t .step (m, .push shard (.readHigh data) (some (data, i)))
      (if count (m.shards shard) < c.size then
        (m.setShard shard (withPushed c (m.shards shard) data), .ret 1)
      else (m, .nextPush data (i + 1))) := by
  have hhigh : (shardedProgram c numShards).exec t .step m
      (.push shard (.readHigh data) (some (data, i))) = some (m.setShard shard (m.shards shard),
        .push shard (.readLow data (m.shards shard).high) (some (data, i))) := exec_push rfl
  rw [setShard_self] at hhigh
  refine .step hhigh ?_
  by_cases hroom : count (m.shards shard) < c.size
  · have hlow : (shardedProgram c numShards).exec t .step m
        (.push shard (.readLow data (m.shards shard).high) (some (data, i))) =
        some (m.setShard shard (m.shards shard),
          .push shard (.writeSlot data (m.shards shard).high) (some (data, i))) :=
      exec_push (pushStep_room hroom)
    rw [setShard_self] at hlow
    rw [if_pos hroom]
    let b₁ : Buffer α := { m.shards shard with
      buffer := Function.update (m.shards shard).buffer (c.slot (m.shards shard).high) data }
    have hslot : pushStep c (m.shards shard) (.writeSlot data (m.shards shard).high) =
        (b₁, .inl (.writeHigh data (m.shards shard).high)) := rfl
    have hwrite : pushStep c ((m.setShard shard b₁).shards shard)
        (.writeHigh data (m.shards shard).high) =
        (withPushed c (m.shards shard) data, .inr true) := by
      rw [setShard_shards_self]
      rfl
    have hdone : (shardedProgram c numShards).exec t .step (m.setShard shard b₁)
        (.push shard (.writeHigh data (m.shards shard).high) (some (data, i))) =
        some ((m.setShard shard b₁).setShard shard (withPushed c (m.shards shard) data), .ret 1) :=
      exec_push_stored hwrite
    rw [setShard_setShard] at hdone
    exact .step hlow (.step (exec_push hslot) (.step hdone (.refl _)))
  · have hlow : (shardedProgram c numShards).exec t .step m
        (.push shard (.readLow data (m.shards shard).high) (some (data, i))) =
        some (m.setShard shard (m.shards shard), .nextPush data (i + 1)) :=
      exec_push_full (pushStep_full hroom)
    rw [setShard_self] at hlow
    rw [if_neg hroom]
    exact .step hlow (.refl _)

end Push

/-- Every shard is in order, and the cursor is at one of them. -/
structure Ready (c : Capacity) (numShards : UInt32) (m : Memory ι α) : Prop where
  next : m.nextShardPush < numShards
  shards : ∀ shard < numShards.toNat, Settled c (m.shards shard)

/-- The shard of attempt `j` of a push. -/
def attempt (numShards : UInt32) (m : Memory ι α) (j : Nat) : Nat :=
  (m.nextShardPush.toNat + j) % numShards.toNat

/-- A memory with the cursor moved. -/
def Memory.setNext (m : Memory ι α) (which : UInt32) : Memory ι α :=
  { m with nextShardPush := which }

section Loop

/-- One round of the loop. -/
theorem solo_round (data : α) {i : UInt32} (hi : i < numShards) :
    (shardedProgram c numShards).Solo t .step (m, .nextPush data i)
      (if count (m.shards m.nextShardPush.toNat) < c.size then
        ((m.setNext (nextShard numShards m.nextShardPush)).setShard m.nextShardPush.toNat
          (withPushed c (m.shards m.nextShardPush.toNat) data), .ret 1)
      else (m.setNext (nextShard numShards m.nextShardPush), .nextPush data (i + 1))) := by
  have hnext : (shardedProgram c numShards).exec t .step m (.nextPush data i) =
      some (m.setNext (nextShard numShards m.nextShardPush),
        .push m.nextShardPush.toNat (.readHigh data) (some (data, i))) := if_pos hi
  exact .step hnext solo_shard

/-- **The loop from attempt `i` on**: it ends at the first shard with room, or it
has found none. `k` is where the cursor was at first. -/
theorem solo_loop (data : α) {k : Nat} {i : UInt32} (hi : i ≤ numShards)
    (hnext : m.nextShardPush < numShards)
    (hk : m.nextShardPush.toNat = (k + i.toNat) % numShards.toNat) :
    (∃ j, i.toNat ≤ j ∧ j < numShards.toNat ∧
      (∀ l, i.toNat ≤ l → l < j → ¬ count (m.shards ((k + l) % numShards.toNat)) < c.size) ∧
      count (m.shards ((k + j) % numShards.toNat)) < c.size ∧ ∃ which, which < numShards ∧
        (shardedProgram c numShards).Solo t .step (m, .nextPush data i)
          ((m.setNext which).setShard ((k + j) % numShards.toNat)
            (withPushed c (m.shards ((k + j) % numShards.toNat)) data), .ret 1)) ∨
    ((∀ l, i.toNat ≤ l → l < numShards.toNat →
        ¬ count (m.shards ((k + l) % numShards.toNat)) < c.size) ∧
      ∃ which, which < numShards ∧ which.toNat = (k + numShards.toNat) % numShards.toNat ∧
        (shardedProgram c numShards).Solo t .step (m, .nextPush data i)
          (m.setNext which, .ret 0)) := by
  have hile : i.toNat ≤ numShards.toNat := UInt32.le_iff_toNat_le.mp hi
  induction hd : numShards.toNat - i.toNat generalizing i m with
  | zero =>
    have hlast : ¬ i < numShards := by
      rw [UInt32.lt_iff_toNat_lt]
      omega
    have hret : (shardedProgram c numShards).exec t .step m (.nextPush data i) =
        some (m, .ret 0) := if_neg hlast
    refine .inr ⟨fun l hl hl' => by omega, m.nextShardPush, hnext, ?_, .step hret (.refl _)⟩
    rw [hk]
    congr 2
    omega
  | succ d ih =>
    have hlt : i.toNat < numShards.toNat := by omega
    have hbound := numShards.toNat_lt
    have hround := solo_round (c := c) (t := t) (m := m) data
      (UInt32.lt_iff_toNat_lt.mpr hlt)
    rw [hk] at hround
    by_cases hroom : count (m.shards ((k + i.toNat) % numShards.toNat)) < c.size
    · rw [if_pos hroom] at hround
      exact .inl ⟨i.toNat, Nat.le_refl _, hlt, fun l hl hl' => by omega, hroom, _,
        nextShard_lt hnext, hround⟩
    · rw [if_neg hroom] at hround
      have hsucc : (i + 1).toNat = i.toNat + 1 := by
        rw [UInt32.toNat_add, UInt32.toNat_one, Nat.mod_eq_of_lt (by omega)]
      have hfull : ∀ {p : Nat → Prop}, (∀ l, (i + 1).toNat ≤ l → p l) → p i.toNat →
          ∀ l, i.toNat ≤ l → p l := by
        intro p h h' l hl
        rcases Nat.eq_or_lt_of_le hl with rfl | hlt'
        · exact h'
        · exact h l (by omega)
      rcases ih (m := m.setNext (nextShard numShards m.nextShardPush)) (i := i + 1)
        (by rw [UInt32.le_iff_toNat_le]; omega) (nextShard_lt hnext)
        (by
          show (nextShard numShards m.nextShardPush).toNat = _
          rw [nextShard_toNat hnext, hk, Nat.mod_add_mod, hsucc, Nat.add_assoc])
        (by omega) (by omega) with
        ⟨j, hj, hjn, hnone, hsome, which, hwhich, hsolo⟩ | ⟨hnone, which, hwhich, hback, hsolo⟩
      · exact .inl ⟨j, by omega, hjn, hfull (fun l hl hl' => hnone l hl hl') fun _ => hroom,
          hsome, which, hwhich, hround.trans hsolo⟩
      · exact .inr ⟨hfull (fun l hl hl' => hnone l hl hl') fun _ => hroom, which, hwhich, hback,
          hround.trans hsolo⟩

end Loop

/-! ## A call -/

/-- What a push of `data` returns and leaves. -/
structure PushOutcome (c : Capacity) (numShards : UInt32) (m m' : Memory ι α) (data : α)
    (code : Int) : Prop where
  boolean : code = 1 ∨ code = 0
  stored : code = 1 ↔ ∃ shard < numShards.toNat, count (m.shards shard) < c.size
  /-- The item is the newest one of the first shard with room. -/
  appended : code = 1 → ∃ j < numShards.toNat,
    (∀ i < j, ¬ count (m.shards (attempt numShards m i)) < c.size) ∧
    count (m.shards (attempt numShards m j)) < c.size ∧
    items c (m'.shards (attempt numShards m j)) =
      items c (m.shards (attempt numShards m j)) ++ [data] ∧
    ∀ shard, shard ≠ attempt numShards m j → m'.shards shard = m.shards shard
  unchanged : code = 0 → m'.shards = m.shards ∧ m'.nextShardPush = m.nextShardPush
  ready : Ready c numShards m'

section Call

omit [DecidableEq ι] in
theorem Ready.attempt_lt (h : Ready c numShards m) (j : Nat) :
    attempt numShards m j < numShards.toNat := by
  have hlt : m.nextShardPush.toNat < numShards.toNat := UInt32.lt_iff_toNat_lt.mp h.next
  exact Nat.mod_lt _ (by omega)

omit [DecidableEq ι] in
/-- The attempts come to every shard. -/
theorem Ready.exists_attempt (h : Ready c numShards m) {shard : Nat}
    (hshard : shard < numShards.toNat) :
    ∃ j < numShards.toNat, attempt numShards m j = shard := by
  have hlt : m.nextShardPush.toNat < numShards.toNat := UInt32.lt_iff_toNat_lt.mp h.next
  unfold attempt
  by_cases hle : m.nextShardPush.toNat ≤ shard
  · refine ⟨shard - m.nextShardPush.toNat, by omega, ?_⟩
    rw [Nat.add_sub_cancel' hle, Nat.mod_eq_of_lt hshard]
  · refine ⟨shard + numShards.toNat - m.nextShardPush.toNat, by omega, ?_⟩
    rw [Nat.add_sub_cancel' (by omega), Nat.add_mod_right, Nat.mod_eq_of_lt hshard]

/-- **`sharded_fifo_steal_buffer_push`**, without concurrent steals. -/
theorem calls_push (h : Ready c numShards m) (data : α) :
    ∃ m' code, (shardedProgram c numShards).Calls t (.shardedPush data) .step (m, .idle)
      (m', .ret code) ∧ PushOutcome c numShards m m' data code := by
  have hlt : m.nextShardPush.toNat < numShards.toNat := UInt32.lt_iff_toNat_lt.mp h.next
  have hzero : (0 : UInt32) ≤ numShards := UInt32.le_iff_toNat_le.mpr (Nat.zero_le _)
  have hcursor : (m.call t).nextShardPush.toNat =
      (m.nextShardPush.toNat + (0 : UInt32).toNat) % numShards.toNat := by
    rw [UInt32.toNat_zero, Nat.add_zero, Nat.mod_eq_of_lt hlt]
    rfl
  rcases solo_loop (c := c) (t := t) (m := m.call t) data hzero h.next hcursor with
    ⟨j, -, hj, hfull, hroom, which, hwhich, hsolo⟩ | ⟨hfull, which, hwhich, hback, hsolo⟩
  · have hattempt := h.shards _ (h.attempt_lt j)
    refine ⟨_, _, ⟨_, rfl, hsolo⟩, ?_⟩
    constructor
    case boolean => exact .inl rfl
    case stored => exact ⟨fun _ => ⟨_, h.attempt_lt j, hroom⟩, fun _ => rfl⟩
    case appended =>
      intro _
      refine ⟨j, hj, fun i hi => hfull i (Nat.zero_le i) hi, hroom, ?_, fun shard hne => ?_⟩
      · show items c (Function.update m.shards _ _ _) = _
        rw [attempt, Function.update_self]
        exact items_withPushed hattempt hroom
      · exact Function.update_of_ne hne ..
    case unchanged => exact fun hcode => absurd hcode (by decide)
    case ready =>
      refine ⟨hwhich, fun shard hshard => ?_⟩
      show Settled c (Function.update m.shards (attempt numShards m j) _ shard)
      by_cases hs : shard = attempt numShards m j
      · subst hs
        rw [Function.update_self]
        exact settled_withPushed hattempt hroom data
      · rw [Function.update_of_ne hs]
        exact h.shards shard hshard
  · have hcode : ¬ (0 : Int) = 1 := by decide
    have hsame : which = m.nextShardPush := by
      apply UInt32.toNat_inj.mp
      rw [hback, Nat.add_mod_right, Nat.mod_eq_of_lt hlt]
    refine ⟨_, _, ⟨_, rfl, hsolo⟩, ?_⟩
    constructor
    case boolean => exact .inr rfl
    case stored =>
      refine ⟨fun h => absurd h hcode, fun ⟨shard, hshard, hroom⟩ => ?_⟩
      obtain ⟨j, hj, rfl⟩ := h.exists_attempt hshard
      exact absurd hroom (hfull j (Nat.zero_le j) hj)
    case appended => exact fun h => absurd h hcode
    case unchanged => exact fun _ => ⟨rfl, hsame⟩
    case ready => exact ⟨hwhich, h.shards⟩

/-- A push returns once, so that what holds of one return holds of every one. -/
theorem pushOutcome_of_calls {code : Int} (h : Ready c numShards m)
    (hcall : (shardedProgram c numShards).Calls t (.shardedPush data) .step (m, .idle)
      (m', .ret code)) :
    PushOutcome c numShards m m' data code := by
  have hfinal : ∀ (m : Memory ι α) (l : Pc α) m' l', (∃ code, l = .ret code) →
      (shardedProgram c numShards).exec t .step m l = some (m', l') →
      ¬ (∃ code, l' = .ret code) ∧
        (shardedProgram c numShards).exec t .step m' l' = none := by
    rintro m l m' l' ⟨code, rfl⟩ he
    obtain ⟨rfl, rfl⟩ := Prod.mk.inj (Option.some.inj he)
    exact ⟨by simp, rfl⟩
  obtain ⟨m₁, code₁, ⟨b, hb, hsolo⟩, hout⟩ := calls_push (t := t) h data
  obtain ⟨b', hb', hsolo'⟩ := hcall
  cases hb.symm.trans hb'
  have heq := Program.Solo.unique hfinal hsolo hsolo' ⟨_, rfl⟩ ⟨_, rfl⟩
  obtain ⟨rfl, hret⟩ := Prod.mk.inj heq
  cases hret
  exact hout

end Call

/-! ## Filling a buffer -/

/-- Pushes one after the other, each with what it returned. -/
inductive PushCalls (c : Capacity) (numShards : UInt32) (t : ι) :
    Memory ι α → List (α × Int) → Memory ι α → Prop
  | nil (m : Memory ι α) : PushCalls c numShards t m [] m
  | cons {m m₁ m' : Memory ι α} {data : α} {code : Int} {rest : List (α × Int)}
      (call : (shardedProgram c numShards).Calls t (.shardedPush data) .step (m, .idle)
        (m₁, .ret code))
      (calls : PushCalls c numShards t m₁ rest m') :
      PushCalls c numShards t m ((data, code) :: rest) m'

/-- The number of items in all shards. -/
def total (numShards : UInt32) (m : Memory ι α) : Nat :=
  ∑ shard ∈ Finset.range numShards.toNat, count (m.shards shard)

section Fill

variable {m' : Memory ι α}

theorem length_items (c : Capacity) (b : Buffer α) : (items c b).length = count b := by
  simp [items]

omit [DecidableEq ι] in
/-- A push that returns 1 adds one item. -/
theorem PushOutcome.total (h : PushOutcome c numShards m m' data 1) (hm : Ready c numShards m) :
    total numShards m' = total numShards m + 1 := by
  obtain ⟨j, -, -, -, happend, hothers⟩ := h.appended rfl
  have hmem : attempt numShards m j ∈ Finset.range numShards.toNat :=
    Finset.mem_range.mpr (hm.attempt_lt j)
  have hcount : count (m'.shards (attempt numShards m j)) =
      count (m.shards (attempt numShards m j)) + 1 := by
    rw [← length_items c, happend, List.length_append, length_items]
    rfl
  have hrest : ∑ shard ∈ (Finset.range numShards.toNat).erase (attempt numShards m j),
      count (m'.shards shard) =
      ∑ shard ∈ (Finset.range numShards.toNat).erase (attempt numShards m j),
      count (m.shards shard) :=
    Finset.sum_congr rfl fun shard hs => by rw [hothers shard (Finset.ne_of_mem_erase hs)]
  unfold ShardedFifoStealBuffer.total
  rw [← Finset.add_sum_erase _ _ hmem, ← Finset.add_sum_erase _ _ hmem, hcount, hrest]
  omega

omit [DecidableEq ι] in
/-- The buffer is full exactly if no shard has room. -/
theorem Ready.total_eq_iff (hm : Ready c numShards m) :
    total numShards m = numShards.toNat * c.size ↔
      ¬ ∃ shard < numShards.toNat, count (m.shards shard) < c.size := by
  have hfits : ∀ shard ∈ Finset.range numShards.toNat, count (m.shards shard) ≤ c.size :=
    fun shard hs => (hm.shards shard (Finset.mem_range.mp hs)).fits
  have hsum : ∑ _shard ∈ Finset.range numShards.toNat, c.size = numShards.toNat * c.size := by
    simp
  rw [← hsum, total, Finset.sum_eq_sum_iff_of_le hfits]
  constructor
  · intro h ⟨shard, hs, hroom⟩
    have := h shard (Finset.mem_range.mpr hs)
    omega
  · intro h shard hs
    by_contra hne
    have hle := hfits shard hs
    exact h ⟨shard, Finset.mem_range.mp hs, by omega⟩

/-- As many pushes succeed as there is room for. -/
theorem pushCalls_fill (l : List α) (hm : Ready c numShards m)
    (hl : total numShards m + l.length = numShards.toNat * c.size) :
    ∃ m', PushCalls c numShards t m (l.map (·, 1)) m' ∧ Ready c numShards m' ∧
      total numShards m' = numShards.toNat * c.size := by
  induction l generalizing m with
  | nil => exact ⟨m, .nil m, hm, hl⟩
  | cons data l ih =>
    rw [List.length_cons] at hl
    have hroom : ∃ shard < numShards.toNat, count (m.shards shard) < c.size := by
      by_contra hfull
      have := hm.total_eq_iff.mpr hfull
      omega
    obtain ⟨m₁, code, hcall, hout⟩ := calls_push (t := t) hm data
    obtain rfl := hout.stored.mpr hroom
    have htotal := hout.total hm
    obtain ⟨m', hcalls, hm', hfull⟩ := ih hout.ready (by omega)
    exact ⟨m', .cons hcall hcalls, hm', hfull⟩

/-- **A push uses all the room.** It fails only if every shard is full, and an
empty buffer takes as many items as its shards have slots, and not one more. -/
theorem sharded_push_uses_all_room (c : Capacity) (numShards : UInt32) (t : ι) :
    (∀ (m : Memory ι α) (data : α), Ready c numShards m →
      (∃ m' code, (shardedProgram c numShards).Calls t (.shardedPush data) .step (m, .idle)
        (m', .ret code)) ∧
      ∀ m' code, (shardedProgram c numShards).Calls t (.shardedPush data) .step (m, .idle)
        (m', .ret code) → PushOutcome c numShards m m' data code) ∧
    ∀ (m : Memory ι α) (l : List α) (data : α), Ready c numShards m →
      (∀ shard < numShards.toNat, count (m.shards shard) = 0) →
      l.length = numShards.toNat * c.size → ∃ m' m'',
        PushCalls c numShards t m (l.map (·, 1)) m' ∧
        (shardedProgram c numShards).Calls t (.shardedPush data) .step (m', .idle)
          (m'', .ret 0) := by
  constructor
  · intro m data hm
    constructor
    · obtain ⟨m', code, hcall, -⟩ := calls_push (t := t) hm data
      exact ⟨m', code, hcall⟩
    · exact fun m' code => pushOutcome_of_calls hm
  · intro m l data hm hempty hl
    have hzero : total numShards m = 0 :=
      Finset.sum_eq_zero fun shard hs => hempty shard (Finset.mem_range.mp hs)
    obtain ⟨m', hcalls, hm', hfull⟩ := pushCalls_fill (t := t) l hm (by omega)
    obtain ⟨m'', code, hcall, hout⟩ := calls_push (t := t) hm' data
    have hcode : code = 0 := hout.boolean.resolve_left fun h =>
      hm'.total_eq_iff.mp hfull (hout.stored.mp h)
    subst hcode
    exact ⟨m', m'', hcalls, hcall⟩

/-- Two shards of two slots take four items. -/
theorem sharded_push_uses_all_room_four :
    let m : Memory Unit Nat :=
      { shards := fun _ => ⟨0, 0, fun _ => 0, [], [], []⟩
        nextShardPush := 1, nextShardPop := 0, out := fun _ => 0, before := fun _ => 0 }
    let c : Capacity := ⟨1, by decide, by decide⟩
    (∃ m' code, (shardedProgram c 2).Calls () (.shardedPush 7) .step (m, .idle)
      (m', .ret code)) ∧
    ∃ m' m'', PushCalls c 2 () m [(7, 1), (8, 1), (9, 1), (10, 1)] m' ∧
      (shardedProgram c 2).Calls () (.shardedPush 11) .step (m', .idle) (m'', .ret 0) := by
  intro m c
  have hcount : wrapSub 0 0 = 0 := by decide
  have hm : Ready c 2 m :=
    ⟨by decide, fun _ _ => ⟨Nat.two_pow_pos 64, Nat.two_pow_pos 64,
      hcount.trans_le (Nat.zero_le _)⟩⟩
  have h := sharded_push_uses_all_room (α := Nat) c 2 ()
  exact ⟨(h.1 m 7 hm).1, h.2 m [7, 8, 9, 10] 11 hm (fun _ _ => hcount) rfl⟩

end Fill

end FibConcurrent.ShardedFifoStealBuffer
