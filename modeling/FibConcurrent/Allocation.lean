import FibConcurrent.ShardedFifoStealBuffer.Layout

/-!
# Allocation — what the constructors ask the allocator for

`fifo_steal_buffer_create` computes its number of bytes as `uint32_t`,
`sharded_fifo_steal_buffer_create` and `lockfree_ring_buffer_create` as `size_t`.
A slot is addressed through `index & power_of_2_mod`, so every slot up to
`power_of_2_mod` has to lie within these bytes.

The `power_of_2_mod` of a shard is what the header holds that
`sharded_fifo_steal_buffer_get_shard` reaches. That is not the header that the constructor has
written, except for the first shard (`ShardedFifoStealBuffer.Layout`): the masks of others are what
the allocator left there, and let an index address slots far behind the allocation.
-/

namespace FibConcurrent.Allocation

open FibConcurrent.Data FibConcurrent.ShardedFifoStealBuffer

/-- `malloc` or `calloc`: an address for a number of bytes, 0 where there is no
memory left. -/
structure Malloc where
  malloc : Nat → Nat
  aligned : ∀ size, malloc size % sizeofPointer = 0

/-- `size - 1`, as the constructors compute it. -/
def powerOf2Mod (powerOf2Size : Nat) : Nat := uint32 (uint32 (1 <<< powerOf2Size) + 2 ^ 32 - 1)

/-- `&fifo->buffer[index]`. -/
def slotAt (fifo index : Nat) : Nat := fifo + sizeofFifo + sizeofPointer * index

/-! ## `fifo_steal_buffer_create` -/

def requiredSize (powerOf2Size : Nat) : Nat :=
  uint32 (sizeT (sizeofFifo + sizeT (uint32 (1 <<< powerOf2Size) * sizeofPointer)))

/-- `fifo_steal_buffer_create`; a failed assertion has no result. -/
def fifoStealBufferCreate (a : Malloc) (m : Bytes) (powerOf2Size : Nat) :
    Option (Bytes × Nat) :=
  if powerOf2Size ≠ 0 ∧ powerOf2Size < 32 then
    let ret := a.malloc (requiredSize powerOf2Size)
    if ret ≠ 0 then (fifoStealBufferInit m ret powerOf2Size).map (·, ret)
    else some (m, 0)
  else none

/-- A buffer that has been created has the memory for all of its slots. -/
def FifoCovered (powerOf2Size : Nat) : Prop :=
  ∀ (a : Malloc) (m m' : Bytes) (ret : Nat),
    fifoStealBufferCreate a m powerOf2Size = some (m', ret) → ret ≠ 0 → ∀ index,
      slotAt ret (index &&& load m' (powerOf2ModAt ret) 4) + sizeofPointer ≤
        ret + requiredSize powerOf2Size

/-! ## `sharded_fifo_steal_buffer_create` -/

/-- `sharded_fifo_steal_buffer_create`. -/
def shardedFifoStealBufferCreate (a : Malloc) (m : Bytes) (numShards shardPowerOf2Size : Nat) :
    Option (Bytes × Nat) :=
  let ret := a.malloc (totalMemory numShards shardPowerOf2Size)
  if ret ≠ 0 then (create m ret numShards shardPowerOf2Size).map (·, ret)
  else some (m, 0)

/-- The mask is read from the header that `sharded_fifo_steal_buffer_get_shard` reaches. -/
def ShardedCovered (numShards shardPowerOf2Size : Nat) : Prop :=
  ∀ (a : Malloc) (m m' : Bytes) (ret : Nat),
    shardedFifoStealBufferCreate a m numShards shardPowerOf2Size = some (m', ret) → ret ≠ 0 →
    ∀ i < numShards, ∀ index,
      slotAt (getShard m' ret i) (index &&& load m' (powerOf2ModAt (getShard m' ret i)) 4) +
          sizeofPointer ≤ ret + totalMemory numShards shardPowerOf2Size

/-! ## `lockfree_ring_buffer_create` -/

def ringSizeAt (rb : Nat) : Nat := rb + 2 * cacheLineSize
def ringPowerOf2ModAt (rb : Nat) : Nat := rb + 2 * cacheLineSize + 4

/-- `sizeof(lockfree_ring_buffer_t)`: `buffer` begins here. -/
def sizeofRing : Nat := 8 + 2 * cacheLineSize

/-- `&rb->buffer[index]`. -/
def ringSlotAt (rb index : Nat) : Nat := rb + sizeofRing + sizeofPointer * index

def ringRequiredSize (powerOf2Size : Nat) : Nat :=
  sizeT (sizeofRing + sizeT (uint32 (1 <<< powerOf2Size) * sizeofPointer))

/-- `lockfree_ring_buffer_create`. -/
def lockfreeRingBufferCreate (a : Malloc) (m : Bytes) (powerOf2Size : Nat) :
    Option (Bytes × Nat) :=
  let ret := a.malloc (ringRequiredSize powerOf2Size)
  if powerOf2Size ≠ 0 ∧ powerOf2Size < 32 then
    if ret ≠ 0 then
      -- `calloc`
      let m₁ := cleared m ret (ringRequiredSize powerOf2Size)
      let m₂ := store m₁ (ringSizeAt ret) 4 (uint32 (1 <<< powerOf2Size))
      some (store m₂ (ringPowerOf2ModAt ret) 4 (powerOf2Mod powerOf2Size), ret)
    else some (m, 0)
  else none

def RingCovered (powerOf2Size : Nat) : Prop :=
  ∀ (a : Malloc) (m m' : Bytes) (ret : Nat),
    lockfreeRingBufferCreate a m powerOf2Size = some (m', ret) → ret ≠ 0 → ∀ index,
      ringSlotAt ret (index &&& load m' (ringPowerOf2ModAt ret) 4) + sizeofPointer ≤
        ret + ringRequiredSize powerOf2Size

section Covered

variable {base bound numShards powerOf2Size : Nat}

theorem powerOf2Mod_eq (hp : powerOf2Size < 32) :
    powerOf2Mod powerOf2Size = 2 ^ powerOf2Size - 1 := by
  have hlt := Nat.pow_lt_pow_right (a := 2) (by decide) hp
  have hpos := Nat.two_pow_pos powerOf2Size
  unfold powerOf2Mod
  rw [uint32_shift hp, uint32]
  omega

/-- The masked indices are those of the slots: the last one decides. -/
theorem masked_slots_le_iff :
    (∀ index, base + sizeofPointer * (index &&& (2 ^ powerOf2Size - 1)) + sizeofPointer ≤ bound) ↔
      base + 2 ^ powerOf2Size * sizeofPointer ≤ bound := by
  have hpos := Nat.two_pow_pos powerOf2Size
  unfold sizeofPointer
  constructor
  · intro h
    have hlast := h (2 ^ powerOf2Size - 1)
    rw [Nat.and_self] at hlast
    omega
  · intro h index
    have hlt := Nat.mod_lt index hpos
    rw [Nat.and_two_pow_sub_one_eq_mod]
    omega

/-! ### The buffer -/

/-- `uint32_t` holds the number of bytes up to `2^28` slots; above, only the
header is left of it. -/
theorem shardBytes_le_requiredSize_iff (hp : powerOf2Size < 32) :
    shardBytes powerOf2Size ≤ requiredSize powerOf2Size ↔ powerOf2Size ≤ 28 := by
  have hlt := Nat.pow_lt_pow_right (a := 2) (by decide) hp
  have hrequired : requiredSize powerOf2Size = uint32 (shardBytes powerOf2Size) := by
    unfold requiredSize shardBytes sizeT sizeofFifo sizeofPointer
    rw [uint32_shift hp, Nat.mod_eq_of_lt (by omega), Nat.mod_eq_of_lt (by omega)]
  rw [hrequired]
  unfold shardBytes uint32 sizeofFifo sizeofPointer
  constructor
  · intro hle
    by_contra hbig
    have hpow : 2 ^ powerOf2Size = 2 ^ 29 * 2 ^ (powerOf2Size - 29) := by
      rw [← Nat.pow_add]
      congr 1
      omega
    have hpos := Nat.two_pow_pos (powerOf2Size - 29)
    omega
  · intro hsmall
    have hle := Nat.pow_le_pow_right (n := 2) (by decide) hsmall
    omega

/-- What `fifo_steal_buffer_create` leaves where it returns a buffer. -/
theorem fifoStealBufferCreate_mask {a : Malloc} {m m' : Bytes} {ret : Nat}
    (hcreate : fifoStealBufferCreate a m powerOf2Size = some (m', ret)) (hret : ret ≠ 0) :
    load m' (powerOf2ModAt ret) 4 = 2 ^ powerOf2Size - 1 := by
  unfold fifoStealBufferCreate at hcreate
  split at hcreate
  case isTrue hp =>
    dsimp only at hcreate
    split at hcreate
    case isTrue haddr =>
      obtain ⟨m₁, hinit, heq⟩ := Option.map_eq_some_iff.mp hcreate
      obtain ⟨rfl, rfl⟩ := Prod.mk.inj heq
      obtain ⟨m₂, hinit₂, hempty, -⟩ :=
        fifoStealBufferInit_spec (m := m) haddr (a.aligned _) hp.1 hp.2
      obtain rfl := Option.some.inj (hinit.symm.trans hinit₂)
      exact hempty.powerOf2Mod
    case isFalse =>
      obtain ⟨-, rfl⟩ := Prod.mk.inj (Option.some.inj hcreate)
      exact absurd rfl hret
  case isFalse => cases hcreate

/-- There is always an allocator that returns memory. -/
def someMalloc : Malloc := ⟨fun _ => 16, fun _ => by decide⟩

theorem fifoStealBufferCreate_some (hp : powerOf2Size ≠ 0) (hp' : powerOf2Size < 32) (m : Bytes) :
    ∃ m', fifoStealBufferCreate someMalloc m powerOf2Size = some (m', 16) := by
  obtain ⟨m', hinit, -⟩ := fifoStealBufferInit_spec (m := m) (show 16 ≠ 0 by decide)
    (by decide) hp hp'
  exact ⟨m', by simp [fifoStealBufferCreate, someMalloc, hp, hp', hinit]⟩

/-- **The `uint32_t` of `fifo_steal_buffer_create`** is enough up to `2^28` slots. -/
theorem fifoCovered_iff (hp : powerOf2Size ≠ 0) (hp' : powerOf2Size < 32) :
    FifoCovered powerOf2Size ↔ powerOf2Size ≤ 28 := by
  rw [← shardBytes_le_requiredSize_iff hp']
  constructor
  · intro h
    obtain ⟨m', hcreate⟩ := fifoStealBufferCreate_some hp hp' fun _ => 0
    have hslots := h someMalloc _ m' 16 hcreate (by decide)
    simp only [fifoStealBufferCreate_mask hcreate (by decide), slotAt] at hslots
    have hend := masked_slots_le_iff.mp hslots
    unfold shardBytes
    omega
  · intro h a m m' ret hcreate hret index
    rw [fifoStealBufferCreate_mask hcreate hret]
    have hend : ret + sizeofFifo + 2 ^ powerOf2Size * sizeofPointer ≤
        ret + requiredSize powerOf2Size := by
      unfold shardBytes at h
      omega
    exact masked_slots_le_iff.mpr hend index

/-! ### The sharded buffer -/

/-- What `sharded_fifo_steal_buffer_create` leaves where it returns a buffer: the first header is
initialised, and what lies behind the headers is as it was. -/
theorem shardedCreate_spec {a : Malloc} {m m' : Bytes} {ret : Nat}
    (hcreate : shardedFifoStealBufferCreate a m numShards powerOf2Size = some (m', ret))
    (hret : ret ≠ 0) (hp : powerOf2Size ≠ 0) (hp' : powerOf2Size < 32) :
    load m' (memoryPerShardAt ret) 8 = shardBytes powerOf2Size ∧
      (0 < numShards →
        EmptyShard m' (shardsAt ret + sizeofFifo * (numShards - 1)) powerOf2Size) ∧
      ∀ b, shardsAt ret + sizeofFifo * numShards ≤ b → m' b = m b := by
  unfold shardedFifoStealBufferCreate at hcreate
  dsimp only at hcreate
  split at hcreate
  case isTrue haddr =>
    obtain ⟨m₁, hinit, heq⟩ := Option.map_eq_some_iff.mp hcreate
    obtain ⟨rfl, rfl⟩ := Prod.mk.inj heq
    obtain ⟨m₂, hinit₂, hspec⟩ := create_spec (a.aligned _) hp hp' numShards m
    obtain rfl := Option.some.inj (hinit.symm.trans hinit₂)
    exact hspec
  case isFalse =>
    obtain ⟨-, rfl⟩ := Prod.mk.inj (Option.some.inj hcreate)
    exact absurd rfl hret

theorem shardedCreate_some (hp : powerOf2Size ≠ 0) (hp' : powerOf2Size < 32) (m : Bytes) :
    ∃ m', shardedFifoStealBufferCreate someMalloc m numShards powerOf2Size = some (m', 16) := by
  obtain ⟨m', hinit, -⟩ := create_spec (show 16 % sizeofPointer = 0 by decide) hp hp' numShards m
  exact ⟨m', by simp [shardedFifoStealBufferCreate, someMalloc, hinit]⟩

/-- Of two or more shards one has its mask behind all headers that the constructor writes, and
ends where the allocation ends, or behind that. It is the last one, unless the place of the last
one has come round in `size_t`. -/
theorem exists_shard_behind_headers (hp : powerOf2Size ≠ 0) (hn : 1 < numShards)
    (hn' : numShards < 2 ^ 32) (hp' : powerOf2Size < 32) : ∃ j < numShards,
      shardBytes powerOf2Size * j < 2 ^ 64 ∧
      sizeofFifo * numShards ≤ shardBytes powerOf2Size * j + 20 ∧
      totalMemory numShards powerOf2Size ≤
        sizeofSharded + shardBytes powerOf2Size * j + shardBytes powerOf2Size := by
  have hpow : 2 ^ powerOf2Size ≤ 2 ^ 31 := Nat.pow_le_pow_right (by decide) (by omega)
  have htwo := Nat.pow_le_pow_right (n := 2) (by decide) (Nat.pos_of_ne_zero hp)
  have hmin : 40 ≤ shardBytes powerOf2Size := by
    unfold shardBytes sizeofFifo sizeofPointer
    omega
  have hmax : shardBytes powerOf2Size < 2 ^ 35 := by
    unfold shardBytes sizeofFifo sizeofPointer
    omega
  have htotal : totalMemory numShards powerOf2Size =
      sizeT (sizeofSharded + shardBytes powerOf2Size * numShards) := by
    rw [totalMemory, memoryPerShard_eq hp', Nat.mul_comm]
  rw [htotal]
  have hsizeT : ∀ n, sizeT n ≤ n ∧ sizeT n < 2 ^ 64 := fun n =>
    ⟨Nat.mod_le .., Nat.mod_lt _ (by decide)⟩
  obtain ⟨hle, hlt⟩ := hsizeT (sizeofSharded + shardBytes powerOf2Size * numShards)
  generalize shardBytes powerOf2Size = bytes at *
  unfold sizeofSharded cacheLineSize sizeofFifo at *
  by_cases hlast : bytes * (numShards - 1) < 2 ^ 64
  · have hheaders := Nat.mul_le_mul_right (numShards - 1) hmin
    have hend : bytes * numShards = bytes * (numShards - 1) + bytes := by
      conv_lhs => rw [show numShards = numShards - 1 + 1 by omega, Nat.mul_succ]
    exact ⟨numShards - 1, by omega, hlast, by omega, by omega⟩
  · -- the last place that is not past `2 ^ 64`
    have hfits : bytes * ((2 ^ 64 - 1) / bytes) ≤ 2 ^ 64 - 1 := Nat.mul_div_le ..
    have hnext : 2 ^ 64 - 1 < bytes * ((2 ^ 64 - 1) / bytes) + bytes := by
      simpa only [Nat.mul_succ] using Nat.lt_mul_div_succ (2 ^ 64 - 1) (show 0 < bytes by omega)
    have hj : (2 ^ 64 - 1) / bytes ≤ numShards - 1 := by
      by_contra h
      have := Nat.mul_le_mul_left bytes (Nat.le_of_lt (Nat.lt_of_not_le h))
      omega
    exact ⟨(2 ^ 64 - 1) / bytes, by omega, by omega, by omega, by omega⟩

/-- **`sharded_fifo_steal_buffer_create`** covers the slots of one shard, for which `size_t` is
always enough. -/
theorem shardedCovered_iff (hp : powerOf2Size ≠ 0) (hp' : powerOf2Size < 32)
    (hn : numShards < 2 ^ 32) : ShardedCovered numShards powerOf2Size ↔ numShards ≤ 1 := by
  have hpow : 2 ^ powerOf2Size ≤ 2 ^ 31 := Nat.pow_le_pow_right (by decide) (by omega)
  constructor
  · intro h
    by_contra hmany
    obtain ⟨j, hj, hfits, hheaders, htotal⟩ :=
      exists_shard_behind_headers hp (Nat.lt_of_not_le hmany) hn hp'
    obtain ⟨m', hcreate⟩ := @shardedCreate_some numShards _ hp hp' fun _ => 255
    obtain ⟨hload, -, hsame⟩ := shardedCreate_spec hcreate (by decide) hp hp'
    have hshard : getShard m' 16 j = shardsAt 16 + shardBytes powerOf2Size * j := by
      rw [getShard, hload, sizeT, Nat.mod_eq_of_lt hfits]
    -- the mask is what the allocator left there
    have hmask : load m' (powerOf2ModAt (getShard m' 16 j)) 4 = 2 ^ 32 - 1 := by
      have huntouched : load m' (powerOf2ModAt (shardsAt 16 + shardBytes powerOf2Size * j)) 4 =
          load (fun _ => 255) (powerOf2ModAt (shardsAt 16 + shardBytes powerOf2Size * j)) 4 := by
        refine load_congr fun b hb _ => hsame b ?_
        unfold powerOf2ModAt at hb
        omega
      rw [hshard, huntouched]
      simp only [load]
      decide
    have hend := h someMalloc _ m' 16 hcreate (by decide) j hj (2 ^ 32 - 1)
    rw [hmask, Nat.and_self, hshard] at hend
    unfold slotAt shardsAt at hend
    unfold shardBytes sizeofFifo sizeofPointer at *
    omega
  · intro hfew a m m' ret hcreate hret i hi index
    obtain rfl : numShards = 1 := by omega
    obtain rfl : i = 0 := by omega
    obtain ⟨hload, hempty, -⟩ := shardedCreate_spec hcreate hret hp hp'
    have hshard : getShard m' ret 0 = shardsAt ret := by
      rw [getShard, Nat.mul_zero]
      rfl
    have hmask : load m' (powerOf2ModAt (getShard m' ret 0)) 4 = 2 ^ powerOf2Size - 1 := by
      rw [hshard]
      exact (hempty Nat.one_pos).powerOf2Mod
    rw [hmask, hshard]
    refine masked_slots_le_iff.mpr ?_ index
    rw [totalMemory, memoryPerShard_eq hp', Nat.one_mul, sizeT]
    unfold shardsAt shardBytes sizeofSharded sizeofFifo sizeofPointer cacheLineSize
    omega

/-! ### The ring buffer -/

theorem lockfreeRingBufferCreate_mask {a : Malloc} {m m' : Bytes} {ret : Nat}
    (hcreate : lockfreeRingBufferCreate a m powerOf2Size = some (m', ret)) (hret : ret ≠ 0) :
    powerOf2Size < 32 ∧ load m' (ringPowerOf2ModAt ret) 4 = powerOf2Mod powerOf2Size := by
  unfold lockfreeRingBufferCreate at hcreate
  dsimp only at hcreate
  split at hcreate
  case isTrue hp =>
    split at hcreate
    case isTrue =>
      obtain ⟨rfl, rfl⟩ := Prod.mk.inj (Option.some.inj hcreate)
      exact ⟨hp.2, load_store (Nat.mod_lt _ (by decide))⟩
    case isFalse =>
      obtain ⟨-, rfl⟩ := Prod.mk.inj (Option.some.inj hcreate)
      exact absurd rfl hret
  case isFalse => cases hcreate

/-- **`lockfree_ring_buffer_create`** always asks for enough. -/
theorem ringCovered (powerOf2Size : Nat) : RingCovered powerOf2Size := by
  intro a m m' ret hcreate hret
  obtain ⟨hp, hmask⟩ := lockfreeRingBufferCreate_mask hcreate hret
  have hlt := Nat.pow_lt_pow_right (a := 2) (by decide) hp
  rw [hmask, powerOf2Mod_eq hp]
  apply masked_slots_le_iff.mpr
  unfold ringRequiredSize sizeT
  rw [uint32_shift hp]
  unfold sizeofRing sizeofPointer cacheLineSize
  omega

/-- **Which allocations cover every slot.** -/
theorem allocations_cover_slots_iff (hp : 1 ≤ powerOf2Size) (hp' : powerOf2Size < 32)
    (hn : numShards < 2 ^ 32) :
    (FifoCovered powerOf2Size ↔ powerOf2Size ≤ 28) ∧
      (ShardedCovered numShards powerOf2Size ↔ numShards ≤ 1) ∧ RingCovered powerOf2Size := by
  have hp₀ : powerOf2Size ≠ 0 := Nat.one_le_iff_ne_zero.mp hp
  exact ⟨fifoCovered_iff hp₀ hp', shardedCovered_iff hp₀ hp' hn, ringCovered powerOf2Size⟩

end Covered

/-- Eight slots, for a buffer, for one shard, and for a ring; a second shard is not covered. -/
theorem allocations_cover_eight_slots :
    FifoCovered 3 ∧ ShardedCovered 1 3 ∧ ¬ ShardedCovered 2 3 ∧ RingCovered 3 := by
  obtain ⟨hfifo, hone, hring⟩ :=
    @allocations_cover_slots_iff 1 3 (by decide) (by decide) (by decide)
  obtain ⟨-, htwo, -⟩ := @allocations_cover_slots_iff 2 3 (by decide) (by decide) (by decide)
  exact ⟨hfifo.mpr (by decide), hone.mpr (by decide), fun h => absurd (htwo.mp h) (by decide),
    hring⟩

/-- For `2^29` slots `fifo_steal_buffer_create` asks for the 24 bytes of the
header. -/
theorem fifo_create_truncates :
    ¬ ∀ p n, 1 ≤ p → p < 32 → n < 2 ^ 32 → FifoCovered p ∧ ShardedCovered n p ∧ RingCovered p := by
  intro h
  have hcovered := (h 29 0 (by decide) (by decide) (by decide)).1
  exact absurd ((fifoCovered_iff (by decide) (by decide)).mp hcovered) (by decide)

end FibConcurrent.Allocation
