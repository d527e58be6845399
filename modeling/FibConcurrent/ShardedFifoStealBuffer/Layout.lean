import FibConcurrent.Data.Bytes

/-!
# ShardedFifoStealBuffer — where the shards are

The shards of a sharded buffer are records of variable length behind its header.
`sharded_fifo_steal_buffer_create` initialises `&ret->shards[i]`, which C places
`sizeof(fifo_steal_buffer_t)` apart; the slots of a shard do not count in that.
`sharded_fifo_steal_buffer_get_shard` places the shards `memory_per_shard` apart,
slots included. The two agree on the first shard only.

Addresses are those of x86_64: pointers have 8 bytes, cache lines 64.
-/

namespace FibConcurrent.ShardedFifoStealBuffer

open FibConcurrent.Data

def sizeT (n : Nat) : Nat := n % 2 ^ 64

def uint32 (n : Nat) : Nat := n % 2 ^ 32

def sizeofPointer : Nat := 8

def cacheLineSize : Nat := 64

/-! ## `fifo_steal_buffer_t` -/

def highAt (fifo : Nat) : Nat := fifo
def lowAt (fifo : Nat) : Nat := fifo + 8
def sizeAt (fifo : Nat) : Nat := fifo + 16
def powerOf2ModAt (fifo : Nat) : Nat := fifo + 20

/-- `sizeof(fifo_steal_buffer_t)`: without the slots. -/
def sizeofFifo : Nat := 24

/-- `fifo_steal_buffer_init`; a failed assertion has no result. -/
def fifoStealBufferInit (m : Bytes) (fifo powerOf2Size : Nat) : Option Bytes :=
  if fifo ≠ 0 ∧ fifo % sizeofPointer = 0 ∧ powerOf2Size ≠ 0 ∧ powerOf2Size < 32 then
    let m₁ := store m (highAt fifo) 8 0
    let m₂ := store m₁ (lowAt fifo) 8 0
    let m₃ := store m₂ (sizeAt fifo) 4 (uint32 (1 <<< powerOf2Size))
    some (store m₃ (powerOf2ModAt fifo) 4 (uint32 (load m₃ (sizeAt fifo) 4 + 2 ^ 32 - 1)))
  else none

/-! ## `sharded_fifo_steal_buffer_t` -/

def numShardsAt (fifo : Nat) : Nat := fifo
def memoryPerShardAt (fifo : Nat) : Nat := fifo + 8
def nextShardPushAt (fifo : Nat) : Nat := fifo + 8 + cacheLineSize
def nextShardPopAt (fifo : Nat) : Nat := fifo + 12 + cacheLineSize

/-- `sizeof(sharded_fifo_steal_buffer_t)`: `shards` begins here. -/
def sizeofSharded : Nat := 8 + 2 * cacheLineSize

def shardsAt (fifo : Nat) : Nat := fifo + sizeofSharded

def memoryPerShard (shardPowerOf2Size : Nat) : Nat :=
  sizeT (sizeofFifo + uint32 (1 <<< shardPowerOf2Size) * sizeofPointer)

/-- What `sharded_fifo_steal_buffer_create` asks `malloc` for. -/
def totalMemory (numShards shardPowerOf2Size : Nat) : Nat :=
  sizeT (sizeofSharded + numShards * memoryPerShard shardPowerOf2Size)

/-- `sharded_fifo_steal_buffer_create`, when `malloc` has returned `ret`: `m` is
what the memory held before. -/
def create (m : Bytes) (ret numShards shardPowerOf2Size : Nat) : Option Bytes :=
  let m₁ := store m (nextShardPushAt ret) 4 0
  let m₂ := store m₁ (nextShardPopAt ret) 4 0
  let m₃ := store m₂ (numShardsAt ret) 4 numShards
  let m₄ := store m₃ (memoryPerShardAt ret) 8 (memoryPerShard shardPowerOf2Size)
  (List.range numShards).foldlM
    (fun m i => fifoStealBufferInit m (shardsAt ret + sizeofFifo * i) shardPowerOf2Size) m₄

/-- `sharded_fifo_steal_buffer_get_shard`. -/
def getShard (m : Bytes) (fifo index : Nat) : Nat :=
  shardsAt fifo + sizeT (load m (memoryPerShardAt fifo) 8 * index)

/-! ## The layout -/

/-- A shard's header and its slots. -/
def shardBytes (shardPowerOf2Size : Nat) : Nat :=
  sizeofFifo + 2 ^ shardPowerOf2Size * sizeofPointer

/-- An initialised, empty shard. -/
structure EmptyShard (m : Bytes) (fifo powerOf2Size : Nat) : Prop where
  high : load m (highAt fifo) 8 = 0
  low : load m (lowAt fifo) 8 = 0
  size : load m (sizeAt fifo) 4 = 2 ^ powerOf2Size
  powerOf2Mod : load m (powerOf2ModAt fifo) 4 = 2 ^ powerOf2Size - 1

/-- The shards that the operations reach are where they should be. -/
structure Separated (m : Bytes) (fifo numShards shardPowerOf2Size : Nat) : Prop where
  disjoint : ∀ i < numShards, ∀ j < numShards, i ≠ j →
    getShard m fifo i + shardBytes shardPowerOf2Size ≤ getShard m fifo j ∨
      getShard m fifo j + shardBytes shardPowerOf2Size ≤ getShard m fifo i
  inside : ∀ i < numShards, shardsAt fifo ≤ getShard m fifo i ∧
    getShard m fifo i + shardBytes shardPowerOf2Size ≤
      fifo + totalMemory numShards shardPowerOf2Size

/-- And they have been initialised. -/
structure Layout (m : Bytes) (fifo numShards shardPowerOf2Size : Nat) : Prop extends
    Separated m fifo numShards shardPowerOf2Size where
  initialised : ∀ i < numShards, EmptyShard m (getShard m fifo i) shardPowerOf2Size

section Layout

variable {m m' : Bytes} {fifo ret numShards shardPowerOf2Size : Nat}

theorem uint32_shift (hp : shardPowerOf2Size < 32) :
    uint32 (1 <<< shardPowerOf2Size) = 2 ^ shardPowerOf2Size := by
  have hlt := Nat.pow_lt_pow_right (a := 2) (by decide) hp
  rw [uint32, Nat.one_shiftLeft, Nat.mod_eq_of_lt hlt]

theorem memoryPerShard_eq (hp : shardPowerOf2Size < 32) :
    memoryPerShard shardPowerOf2Size = shardBytes shardPowerOf2Size := by
  have hlt := Nat.pow_lt_pow_right (a := 2) (by decide) hp
  unfold memoryPerShard shardBytes sizeT
  rw [uint32_shift hp]
  apply Nat.mod_eq_of_lt
  unfold sizeofFifo sizeofPointer
  omega

/-- **`fifo_steal_buffer_init`** writes its own header and nothing else. -/
theorem fifoStealBufferInit_spec (hfifo : fifo ≠ 0) (haligned : fifo % sizeofPointer = 0)
    (hp : shardPowerOf2Size ≠ 0) (hp' : shardPowerOf2Size < 32) :
    ∃ m', fifoStealBufferInit m fifo shardPowerOf2Size = some m' ∧
      EmptyShard m' fifo shardPowerOf2Size ∧
      ∀ b, b < fifo ∨ fifo + sizeofFifo ≤ b → m' b = m b := by
  have hlt := Nat.pow_lt_pow_right (a := 2) (by decide) hp'
  have hpos := Nat.two_pow_pos shardPowerOf2Size
  unfold fifoStealBufferInit
  rw [if_pos ⟨hfifo, haligned, hp, hp'⟩]
  dsimp only
  rw [load_store (by unfold uint32; omega), uint32_shift hp']
  have hmod : uint32 (2 ^ shardPowerOf2Size + 2 ^ 32 - 1) = 2 ^ shardPowerOf2Size - 1 := by
    unfold uint32
    omega
  rw [hmod]
  refine ⟨_, rfl, ⟨?_, ?_, ?_, load_store (by omega)⟩, fun b hb => ?_⟩
  · unfold highAt lowAt sizeAt powerOf2ModAt
    rw [load_store_of_disjoint (by omega), load_store_of_disjoint (by omega),
      load_store_of_disjoint (by omega), load_store (by decide)]
  · unfold highAt lowAt sizeAt powerOf2ModAt
    rw [load_store_of_disjoint (by omega), load_store_of_disjoint (by omega),
      load_store (by decide)]
  · unfold highAt lowAt sizeAt powerOf2ModAt
    rw [load_store_of_disjoint (by omega), load_store (by omega)]
  · unfold highAt lowAt sizeAt powerOf2ModAt
    unfold sizeofFifo at hb
    rw [store_of_outside (by omega), store_of_outside (by omega), store_of_outside (by omega),
      store_of_outside (by omega)]

/-- The loop of `sharded_fifo_steal_buffer_create` stays within the headers that
it takes for the shards'. -/
theorem initShards_spec (hret : ret % sizeofPointer = 0) (hp : shardPowerOf2Size ≠ 0)
    (hp' : shardPowerOf2Size < 32) (n : Nat) :
    ∃ m', (List.range n).foldlM (fun m i =>
        fifoStealBufferInit m (shardsAt ret + sizeofFifo * i) shardPowerOf2Size) m = some m' ∧
      (0 < n → EmptyShard m' (shardsAt ret + sizeofFifo * (n - 1)) shardPowerOf2Size) ∧
      ∀ b, b < shardsAt ret ∨ shardsAt ret + sizeofFifo * n ≤ b → m' b = m b := by
  induction n with
  | zero => exact ⟨m, rfl, nofun, fun _ _ => rfl⟩
  | succ n ih =>
    obtain ⟨m₁, hloop, -, hsame⟩ := ih
    have hpos : shardsAt ret + sizeofFifo * n ≠ 0 := by
      unfold shardsAt sizeofSharded cacheLineSize
      omega
    have haligned : (shardsAt ret + sizeofFifo * n) % sizeofPointer = 0 := by
      unfold shardsAt sizeofSharded cacheLineSize sizeofFifo
      unfold sizeofPointer at *
      omega
    obtain ⟨m₂, hinit, hempty, hother⟩ := fifoStealBufferInit_spec (m := m₁) hpos haligned hp hp'
    refine ⟨m₂, ?_, fun _ => hempty, fun b hb => ?_⟩
    · rw [List.range_succ, List.foldlM_append, hloop]
      simpa using hinit
    · rw [Nat.mul_add, Nat.mul_one] at hb
      rw [hother b (by omega), hsame b (by omega)]

/-- **What `create` does**: `memory_per_shard` is set, the headers behind the
first one are `sizeof(fifo_steal_buffer_t)` apart, and the rest of the memory is
as it was. -/
theorem create_spec (hret : ret % sizeofPointer = 0) (hp : shardPowerOf2Size ≠ 0)
    (hp' : shardPowerOf2Size < 32) (numShards : Nat) (m : Bytes) :
    ∃ m', create m ret numShards shardPowerOf2Size = some m' ∧
      load m' (memoryPerShardAt ret) 8 = shardBytes shardPowerOf2Size ∧
      (0 < numShards →
        EmptyShard m' (shardsAt ret + sizeofFifo * (numShards - 1)) shardPowerOf2Size) ∧
      ∀ b, shardsAt ret + sizeofFifo * numShards ≤ b → m' b = m b := by
  obtain ⟨m', hloop, hempty, hsame⟩ := initShards_spec (m := store (store (store (store m
    (nextShardPushAt ret) 4 0) (nextShardPopAt ret) 4 0) (numShardsAt ret) 4 numShards)
    (memoryPerShardAt ret) 8 (memoryPerShard shardPowerOf2Size)) hret hp hp' numShards
  refine ⟨m', hloop, ?_, hempty, fun b hb => ?_⟩
  · rw [load_congr fun b _ hb => hsame b (.inl ?_), load_store, memoryPerShard_eq hp']
    · unfold memoryPerShard sizeT
      omega
    · unfold memoryPerShardAt at hb
      unfold shardsAt sizeofSharded cacheLineSize
      omega
  · rw [hsame b (.inr hb)]
    unfold shardsAt sizeofSharded at hb
    rw [store_of_outside, store_of_outside, store_of_outside, store_of_outside]
    all_goals
      unfold nextShardPushAt nextShardPopAt numShardsAt memoryPerShardAt cacheLineSize at *
      omega

theorem getShard_eq {i : Nat}
    (hload : load m (memoryPerShardAt ret) 8 = shardBytes shardPowerOf2Size)
    (hi : i ≤ numShards)
    (htotal : sizeofSharded + numShards * shardBytes shardPowerOf2Size < 2 ^ 64) :
    getShard m ret i = shardsAt ret + shardBytes shardPowerOf2Size * i := by
  have hle := Nat.mul_le_mul_left (shardBytes shardPowerOf2Size) hi
  rw [Nat.mul_comm numShards] at htotal
  unfold getShard sizeT
  rw [hload, Nat.mod_eq_of_lt (by omega)]

/-- **The shards that the operations reach are separate**, for any number of
them. -/
theorem separated_of_load (hp : shardPowerOf2Size < 32)
    (hload : load m (memoryPerShardAt ret) 8 = shardBytes shardPowerOf2Size)
    (htotal : sizeofSharded + numShards * shardBytes shardPowerOf2Size < 2 ^ 64) :
    Separated m ret numShards shardPowerOf2Size := by
  have hnext : ∀ i j, i < j → shardBytes shardPowerOf2Size * i + shardBytes shardPowerOf2Size ≤
      shardBytes shardPowerOf2Size * j := fun i j hij => by
    have hle := Nat.mul_le_mul_left (shardBytes shardPowerOf2Size) (Nat.succ_le_of_lt hij)
    rwa [Nat.mul_succ] at hle
  constructor
  · intro i hi j hj hij
    rw [getShard_eq hload (Nat.le_of_lt hi) htotal, getShard_eq hload (Nat.le_of_lt hj) htotal]
    rcases Nat.lt_or_gt_of_ne hij with hlt | hgt
    · have := hnext i j hlt
      omega
    · have := hnext j i hgt
      omega
  · intro i hi
    have hle := hnext i numShards hi
    rw [getShard_eq hload (Nat.le_of_lt hi) htotal]
    refine ⟨Nat.le_add_right .., ?_⟩
    unfold totalMemory sizeT
    rw [memoryPerShard_eq hp, Nat.mod_eq_of_lt htotal, Nat.mul_comm numShards]
    unfold shardsAt
    omega

/-- The last of several shards ends up with whatever its memory held. -/
theorem load_last_shard (hret : ret % sizeofPointer = 0) (hp : shardPowerOf2Size ≠ 0)
    (hp' : shardPowerOf2Size < 32) (hn : 1 < numShards)
    (htotal : sizeofSharded + numShards * shardBytes shardPowerOf2Size < 2 ^ 64) (m : Bytes) :
    ∃ m', create m ret numShards shardPowerOf2Size = some m' ∧
      load m' (lowAt (getShard m' ret (numShards - 1))) 8 =
        load m (lowAt (shardsAt ret + shardBytes shardPowerOf2Size * (numShards - 1))) 8 := by
  obtain ⟨m', hcreate, hload, -, hsame⟩ := create_spec hret hp hp' numShards m
  refine ⟨m', hcreate, ?_⟩
  rw [getShard_eq hload (Nat.sub_le ..) htotal]
  apply load_congr
  intro b hb _
  apply hsame
  -- a slot behind the header of each shard before it is enough
  have hslot : 40 ≤ shardBytes shardPowerOf2Size := by
    have := Nat.pow_le_pow_right (n := 2) (by decide) (Nat.pos_of_ne_zero hp)
    unfold shardBytes sizeofFifo sizeofPointer
    omega
  have hle := Nat.mul_le_mul_right (numShards - 1) hslot
  unfold lowAt at hb
  unfold sizeofFifo
  omega

/-- **The constructor and the accessors agree for one shard only.** -/
theorem sharded_create_layout (hret : ret % sizeofPointer = 0) (hn : 1 ≤ numShards)
    (hp : 1 ≤ shardPowerOf2Size) (hp' : shardPowerOf2Size ≤ 31)
    (htotal : sizeofSharded + numShards * shardBytes shardPowerOf2Size < 2 ^ 64) :
    (∀ m m', create m ret numShards shardPowerOf2Size = some m' →
      Layout m' ret numShards shardPowerOf2Size) ↔ numShards = 1 := by
  have hp₀ : shardPowerOf2Size ≠ 0 := by omega
  have hp₁ : shardPowerOf2Size < 32 := by omega
  constructor
  · intro hlayout
    by_contra hmany
    obtain ⟨m', hcreate, hlow⟩ := load_last_shard hret hp₀ hp₁ (by omega) htotal fun _ => 255
    have hempty := (hlayout _ m' hcreate).initialised (numShards - 1) (by omega)
    rw [hempty.low] at hlow
    simp only [load] at hlow
    omega
  · rintro rfl m m' hcreate
    obtain ⟨m₁, hcreate₁, hload, hempty, -⟩ := create_spec hret hp₀ hp₁ 1 m
    obtain rfl := Option.some.inj (hcreate.symm.trans hcreate₁)
    refine ⟨separated_of_load hp₁ hload htotal, fun i hi => ?_⟩
    obtain rfl : i = 0 := by omega
    rw [getShard_eq hload (Nat.zero_le 1) htotal]
    exact hempty Nat.one_pos

end Layout

/-- One shard with two slots. -/
theorem sharded_create_layout_one :
    ∃ m', create (fun _ => 255) 16 1 1 = some m' ∧ Layout m' 16 1 1 := by
  have hrun : (create (fun _ => 255) 16 1 1).isSome = true := by decide +kernel
  obtain ⟨m', hcreate⟩ := Option.isSome_iff_exists.mp hrun
  exact ⟨m', hcreate, (sharded_create_layout (by decide) (by decide) (by decide) (by decide)
    (by decide)).mpr rfl _ m' hcreate⟩

/-- With two shards of two slots each, `high` of the second one lies where the
constructor has put the size of what it took for the second one. -/
theorem create_misses_shard :
    ¬ ∀ m m', create m 16 2 1 = some m' → Layout m' 16 2 1 := by
  intro h
  have hrun : (create (fun _ => 0) 16 2 1).any
      (fun m' => decide (load m' (highAt (getShard m' 16 1)) 8 ≠ 0)) = true := by
    decide +kernel
  obtain ⟨m', hcreate, hhigh⟩ := (Option.any_eq_true _ _).mp hrun
  exact of_decide_eq_true hhigh ((h _ m' hcreate).initialised 1 (by decide)).high

end FibConcurrent.ShardedFifoStealBuffer
