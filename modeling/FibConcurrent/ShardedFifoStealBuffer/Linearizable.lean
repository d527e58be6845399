import FibConcurrent.ShardedFifoStealBuffer.Refinement

/-!
# ShardedFifoStealBuffer — what clients see is a queue for each shard

A call on the sharded buffer, and one on a single buffer, takes effect at one shard: a push
puts its item behind those of a shard with room, a pop or a steal takes the oldest item of a
shard. A call on the sharded buffer that fails has looked at one shard after the other, and
there need not be an instant at which all of them were full, or empty.

No pop may come to a shard that holds exactly one item: it would drop the item and go on,
so that one call would take effect at two shards.
-/

namespace FibConcurrent.ShardedFifoStealBuffer

open FibConcurrent.Machine FibConcurrent.Data
open FibConcurrent.FifoStealBuffer (Buffer PushPc PopPc StealPc StealResult pushStep popStep
  stealStep bufferProgram PushLegal PopLegal StealLegal)

variable {ι α : Type*} {c : Capacity} {numShards : UInt32}

/-! ## A queue for each shard -/

/-- What a client asks for, of one shard or of all of them. -/
inductive Request (α : Type*) where
  | push (shard : Option Nat) (data : α)
  | pop (shard : Option Nat)
  | steal (shard : Option Nat)
deriving DecidableEq

/-- What the call returns, and what `*out` holds then, which means nothing to a client that
has pushed or whose call has failed. -/
structure Response (α : Type*) where
  code : Int
  out : α
deriving DecidableEq

/-- The shards that a call is about. -/
def Among (numShards : Nat) (shard : Option Nat) (k : Nat) : Prop :=
  shard.elim (k < numShards) (· = k)

/-- One operation on queues with room for `size` items each. -/
inductive ShardsLegal (size numShards : Nat) :
    (Nat → List α) → Request α → Response α → (Nat → List α) → Prop
  | store {q : Nat → List α} {shard : Option Nat} {k : Nat} (data out : α)
      (hk : Among numShards shard k) (h : (q k).length < size) :
      ShardsLegal size numShards q (.push shard data) ⟨1, out⟩
        (Function.update q k (q k ++ [data]))
  | full {q : Nat → List α} {shard : Option Nat} (data out : α)
      (h : ∀ k, shard = some k → (q k).length = size) :
      ShardsLegal size numShards q (.push shard data) ⟨0, out⟩ q
  | pop {q : Nat → List α} {shard : Option Nat} {k : Nat} {v : α} {l : List α}
      (hk : Among numShards shard k) (h : q k = v :: l) :
      ShardsLegal size numShards q (.pop shard) ⟨1, v⟩ (Function.update q k l)
  | empty {q : Nat → List α} {shard : Option Nat} (out : α)
      (h : ∀ k, shard = some k → q k = []) :
      ShardsLegal size numShards q (.pop shard) ⟨0, out⟩ q
  | steal {q : Nat → List α} {shard : Option Nat} {k : Nat} {v : α} {l : List α}
      (hk : Among numShards shard k) (h : q k = v :: l) :
      ShardsLegal size numShards q (.steal shard) ⟨1, v⟩ (Function.update q k l)
  | fail {q : Nat → List α} (shard : Option Nat) {code : Int} (out : α)
      (h : code = 0 ∨ code = -1) :
      ShardsLegal size numShards q (.steal shard) ⟨code, out⟩ q

/-- The queues, empty to begin with. -/
def shardsObject (α : Type*) (size numShards : Nat) :
    Object (Nat → List α) (Request α) (Response α) where
  start q := ∀ k, q k = []
  legal := ShardsLegal size numShards

/-- The shard that a call names, if it is not one on all of them. -/
def place {β : Type*} (shard : Nat) (loop : Option β) : Option Nat :=
  if loop.isSome then none else some shard

/-- All calls, seen from outside. -/
def shardedInterface : Interface ι (Memory ι α) (Pc α) (Request α) (Response α) where
  busy
    | .idle => false
    | _ => true
  op _ _
    | .nextPush data _ => .push none data
    | .push shard pc loop => .push (place shard loop) pc.data
    | .nextPop _ => .pop none
    | .pop shard _ loop => .pop (place shard loop)
    | .steal shard _ loop => .steal (place shard loop)
    | _ => .steal none
  result t m
    | .ret code => ⟨code, m.out t⟩
    | _ => ⟨0, m.out t⟩

/-- A pop that has claimed its index is done. One that has found nothing is done if it is
not to go on with the next shard. -/
def popClient (t : ι) (m : Memory ι α) (shard : Option Nat) :
    Option (Option α) → Client (Request α) (Response α)
  | some (some v) => .done ⟨1, v⟩
  | some none => shard.elim (.pending (.pop none)) fun _ => .done ⟨0, m.out t⟩
  | none => .pending (.pop shard)

def Pc.client (t : ι) (m : Memory ι α) : Pc α → Client (Request α) (Response α)
  | .idle => .idle
  | .nextPush data _ => .pending (.push none data)
  | .push shard pc loop => .pending (.push (place shard loop) pc.data)
  | .nextPop _ => .pending (.pop none)
  | .pop shard pc loop => popClient t m (place shard loop) (pc.answer (m.shards shard))
  | .nextSteal _ => .pending (.steal none)
  | .steal shard _ loop => .pending (.steal (place shard loop))
  | .ret code => .done ⟨code, m.out t⟩

/-- Fewer than `2 ^ 64 - 1` items are pushed to a shard, and no fetch-and-add comes while
exactly one item is left in its shard. -/
def SparesLast (_t : ι) (m : Memory ι α) (pc : Pc α) (m' : Memory ι α) : Prop :=
  match pc with
  | .push shard _ _ => (m'.shards shard).pushed.length + 1 < 2 ^ 64
  | .pop shard (.addLow _) _ => (m.shards shard).low + 1 ≠ (m.shards shard).high
  | _ => True

instance (t : ι) (m : Memory ι α) (pc : Pc α) (m' : Memory ι α) :
    Decidable (SparesLast t m pc m') :=
  match pc with
  | .push .. => Nat.decLt ..
  | .pop _ (.addLow _) _ => @instDecidableNot _ (Nat.decEq ..)
  | .pop _ .readHigh _ | .pop _ (.readLow _) _ | .pop _ (.writeLow _) _
  | .pop _ (.readSlot _) _ => .isTrue trivial
  | .idle | .nextPush .. | .nextPop _ | .nextSteal _ | .steal .. | .ret _ => .isTrue trivial

/-! ## The items in the shards -/

def Memory.queues (m : Memory ι α) (k : Nat) : List α := (m.shards k).queue

section Access

variable {m : Memory ι α} {t master : ι} {shard : Nat}

theorem setShard_shards_of_ne {k : Nat} (h : k ≠ shard) (m : Memory ι α) (b : Buffer α) :
    (m.setShard shard b).shards k = m.shards k := Function.update_of_ne h ..

theorem queues_setShard (m : Memory ι α) (shard : Nat) (b : Buffer α) :
    (m.setShard shard b).queues = Function.update m.queues shard b.queue := by
  funext k
  by_cases hk : k = shard
  · subst hk
    rw [Function.update_self, Memory.queues, setShard_shards_self]
  · rw [Function.update_of_ne hk]
    exact congrArg Buffer.queue (setShard_shards_of_ne hk ..)

/-- An access that leaves the queue of its shard as it is. -/
theorem queues_setShard_self {b : Buffer α} (h : b.queue = (m.shards shard).queue) :
    (m.setShard shard b).queues = m.queues := by
  rw [queues_setShard, h]
  exact Function.update_eq_self ..

theorem among_place {β : Type*} {loop : Option β}
    (h : ∀ l, loop = some l → shard < numShards.toNat) :
    Among numShards.toNat (place shard loop) shard := by
  cases loop with
  | none => exact rfl
  | some l => exact h l rfl

/-- Every access of a push is a move of the client. -/
theorem goes_of_push {p : PushPc α} {loop : Option (α × UInt32)}
    (hO : FifoStealBuffer.Ordered c (m.shards shard))
    (hle : (m.shards shard).low ≤ (m.shards shard).high)
    (hp : FifoStealBuffer.PushFacts c (m.shards shard) p)
    (hfacts : LoopFacts numShards m t (.push shard p loop))
    (hfew : ((pushAccess c m shard p loop).1.shards shard).pushed.length < 2 ^ 64) :
    (shardsObject α c.size numShards.toNat).Goes m.queues (Pc.client t m (.push shard p loop))
      (shardedInterface.labels t m (.push shard p loop) (pushAccess c m shard p loop).1
        (pushAccess c m shard p loop).2)
      (pushAccess c m shard p loop).1.queues
      (Pc.client t (pushAccess c m shard p loop).1 (pushAccess c m shard p loop).2) := by
  have hshards : (pushAccess c m shard p loop).1.shards shard =
      (pushStep c (m.shards shard) p).1 := by
    unfold pushAccess
    dsimp only
    split <;> exact setShard_shards_self ..
  rw [hshards] at hfew
  have hE := FifoStealBuffer.pushStep_effect hO hle hp hfew
  have hamong : Among numShards.toNat (place shard loop) shard :=
    among_place fun l hl => by
      subst hl
      exact hfacts.1
  unfold pushAccess
  dsimp only
  generalize (pushStep c (m.shards shard) p).1 = b, (pushStep c (m.shards shard) p).2 = r at hE
  rcases r with p' | _ | _
  · obtain ⟨-, hdata, hqueue⟩ := hE.next p' rfl
    show (shardsObject α c.size numShards.toNat).Goes m.queues
      (.pending (.push (place shard loop) p.data)) [] (m.setShard shard b).queues
      (.pending (.push (place shard loop) p'.data))
    rw [queues_setShard_self hqueue, hdata]
    exact .refl
  · -- no room in this shard
    have hlegal := hE.result false rfl
    generalize hqueue : b.queue = l at hlegal
    cases hlegal with | full hfull
    cases loop with
    | none =>
      show (shardsObject α c.size numShards.toNat).Goes m.queues
        (.pending (.push (some shard) p.data)) [] (m.setShard shard b).queues
        (.done ⟨0, m.out t⟩)
      rw [queues_setShard_self hqueue]
      refine .perform .refl (.full _ _ fun k hk => ?_)
      cases hk
      exact hfull
    | some r =>
      show (shardsObject α c.size numShards.toNat).Goes m.queues
        (.pending (.push none p.data)) [] (m.setShard shard b).queues
        (.pending (.push none r.1))
      rw [queues_setShard_self hqueue, ← hfacts.2]
      exact .refl
  · have hlegal := hE.result true rfl
    generalize hqueue : b.queue = l at hlegal
    cases hlegal with | store hroom
    show (shardsObject α c.size numShards.toNat).Goes m.queues
      (.pending (.push (place shard loop) p.data)) [] (m.setShard shard b).queues
      (.done ⟨1, m.out t⟩)
    rw [queues_setShard, hqueue]
    exact .perform .refl (.store _ _ hamong hroom)

variable [DecidableEq ι]

/-- What a pop stands for after an access. -/
theorem client_popAccess (p : PopPc) (loop : Option UInt32) :
    Pc.client t (popAccess c t m shard p loop).1 (popAccess c t m shard p loop).2 =
      popClient t m (place shard loop) ((popStep c (m.shards shard) p).2.elim
        (FifoStealBuffer.PopPc.answer (popStep c (m.shards shard) p).1) some) := by
  unfold popAccess
  dsimp only
  generalize (popStep c (m.shards shard) p).1 = b, (popStep c (m.shards shard) p).2 = r
  rcases r with p' | _ | v
  · show popClient t (m.setShard shard b) (place shard loop)
      (p'.answer ((m.setShard shard b).shards shard)) =
        popClient t m (place shard loop) (p'.answer b)
    rw [setShard_shards_self]
    rcases p'.answer b with _ | _ | v <;> rfl
  · cases loop <;> rfl
  · show Client.done (Response.mk 1 (((m.setShard shard b).setOut t v).out t)) = _
    rw [Memory.setOut_self]
    rfl

theorem queues_popAccess (p : PopPc) (loop : Option UInt32) :
    (popAccess c t m shard p loop).1.queues =
      Function.update m.queues shard (popStep c (m.shards shard) p).1.queue := by
  rw [← queues_setShard]
  unfold popAccess
  dsimp only
  split <;> rfl

/-- Every access of a pop is a move of the client. -/
theorem goes_of_pop {p : PopPc} {loop : Option UInt32}
    (hO : FifoStealBuffer.Ordered c (m.shards shard))
    (hp : FifoStealBuffer.PopKnows c (m.shards shard) p)
    (hfew : (m.shards shard).pushed.length + 1 < 2 ^ 64)
    (hspares : ∀ h, p = .addLow h → (m.shards shard).low + 1 ≠ (m.shards shard).high)
    (hfacts : LoopFacts numShards m t (.pop shard p loop)) :
    (shardsObject α c.size numShards.toNat).Goes m.queues (Pc.client t m (.pop shard p loop))
      (shardedInterface.labels t m (.pop shard p loop) (popAccess c t m shard p loop).1
        (popAccess c t m shard p loop).2)
      (popAccess c t m shard p loop).1.queues
      (Pc.client t (popAccess c t m shard p loop).1 (popAccess c t m shard p loop).2) := by
  have hE := FifoStealBuffer.popStep_effect hO hp hfew
  have hamong : Among numShards.toNat (place shard loop) shard :=
    among_place fun l hl => by
      subst hl
      exact hfacts
  have hlabels : shardedInterface.labels t m (.pop shard p loop)
      (popAccess c t m shard p loop).1 (popAccess c t m shard p loop).2 = [] := by
    unfold popAccess
    dsimp only
    rcases (popStep c (m.shards shard) p).2 with p' | _ | v
    · rfl
    · cases loop <;> rfl
    · rfl
  rw [hlabels, client_popAccess, queues_popAccess]
  show (shardsObject α c.size numShards.toNat).Goes m.queues
    (popClient t m (place shard loop) (p.answer (m.shards shard))) [] _ _
  rcases hE.answer with ⟨hanswer, hqueue⟩ | ⟨hnone, out, hsome, hlegal, hlast⟩
  · rw [hanswer, hqueue]
    show (shardsObject α c.size numShards.toNat).Goes m.queues _ []
      (Function.update m.queues shard (m.queues shard)) _
    rw [Function.update_eq_self]
    exact .refl
  · rw [hnone, hsome]
    have hlength := hO.length_queue
    have hmine : m.queues shard = (m.shards shard).queue := rfl
    generalize (popStep c (m.shards shard) p).1.queue = q' at hlegal
    generalize (m.shards shard).queue = q at hlegal hlength hmine
    cases hlegal with
    | take v w l => exact .perform .refl (.pop hamong hmine)
    | drop v =>
      -- the one pop that is excluded
      have hone : (m.shards shard).low + 1 = (m.shards shard).high := by
        have hlength : 1 = (m.shards shard).high - (m.shards shard).low := hlength
        omega
      obtain ⟨h, hpc⟩ := hlast hone
      exact absurd hone (hspares h hpc)
    | empty =>
      have hsame : Function.update m.queues shard [] = m.queues := by
        rw [← hmine]
        exact Function.update_eq_self ..
      rw [hsame]
      cases loop with
      | none =>
        refine .perform .refl (.empty _ fun k hk => ?_)
        cases hk
        exact hmine
      | some i => exact .refl

omit [DecidableEq ι] in
/-- A steal that succeeds has put its item into `*out`. -/
theorem success_of_stealStep {b : Buffer α} {p : StealPc α} {v : α}
    (h : (stealStep c b p).2 = .inr (.success v)) : ∃ low, p = .swapLow low v := by
  cases p with
  | readHigh => cases h
  | readLow high =>
    simp only [stealStep] at h
    split at h <;> cases h
  | readSlot low => cases h
  | swapLow low w =>
    simp only [stealStep] at h
    split at h
    · cases h
      exact ⟨low, rfl⟩
    · cases h

/-- Every access of a steal is a move of the client. -/
theorem goes_of_steal {p : StealPc α} {loop : Option (StealLoop α)}
    (hO : FifoStealBuffer.Ordered c (m.shards shard))
    (hp : FifoStealBuffer.StealFacts (m.shards shard) p)
    (hfew : (m.shards shard).pushed.length < 2 ^ 64)
    (hfacts : LoopFacts numShards m t (.steal shard p loop)) :
    (shardsObject α c.size numShards.toNat).Goes m.queues (Pc.client t m (.steal shard p loop))
      (shardedInterface.labels t m (.steal shard p loop) (stealAccess c t m shard p loop).1
        (stealAccess c t m shard p loop).2)
      (stealAccess c t m shard p loop).1.queues
      (Pc.client t (stealAccess c t m shard p loop).1 (stealAccess c t m shard p loop).2) := by
  have hE := FifoStealBuffer.stealStep_effect hO hp hfew
  obtain ⟨hout, hloop⟩ := hfacts
  have hamong : Among numShards.toNat (place shard loop) shard :=
    among_place fun l hl => (hloop l hl).1
  have hsuccess := fun v => success_of_stealStep (c := c) (b := m.shards shard) (p := p) (v := v)
  unfold stealAccess
  dsimp only
  generalize (stealStep c (m.shards shard) p).1 = b, (stealStep c (m.shards shard) p).2 = r
    at hE hsuccess
  rcases r with p' | result
  · have hqueue := queues_setShard_self (hE.next p' rfl).2
    cases p' with
    | swapLow low v =>
      show (shardsObject α c.size numShards.toNat).Goes m.queues
        (.pending (.steal (place shard loop))) [] (m.setShard shard b).queues
        (.pending (.steal (place shard loop)))
      rw [hqueue]
      exact .refl
    | _ =>
      show (shardsObject α c.size numShards.toNat).Goes m.queues
        (.pending (.steal (place shard loop))) [] (m.setShard shard b).queues
        (.pending (.steal (place shard loop)))
      rw [hqueue]
      exact .refl
  · have hlegal := hE.result result rfl
    have hmine : m.queues shard = (m.shards shard).queue := rfl
    generalize hqueue : b.queue = q' at hlegal
    generalize hq : (m.shards shard).queue = q at hlegal hmine
    cases hlegal with
    | take v =>
      obtain ⟨low, rfl⟩ := hsuccess v rfl
      show (shardsObject α c.size numShards.toNat).Goes m.queues
        (.pending (.steal (place shard loop))) [] (m.setShard shard b).queues
        (.done ⟨1, m.out t⟩)
      rw [queues_setShard, hqueue, hout low v rfl]
      exact .perform .refl (.steal hamong hmine)
    | empty =>
      have hsame := queues_setShard_self (hqueue.trans hq.symm)
      cases loop with
      | none =>
        show (shardsObject α c.size numShards.toNat).Goes m.queues
          (.pending (.steal (some shard))) [] (m.setShard shard b).queues (.done ⟨0, m.out t⟩)
        rw [hsame]
        exact .perform .refl (.fail _ _ (.inl rfl))
      | some l =>
        show (shardsObject α c.size numShards.toNat).Goes m.queues
          (.pending (.steal none)) [] (m.setShard shard b).queues (.pending (.steal none))
        rw [hsame]
        exact .refl
    | abort =>
      have hsame := queues_setShard_self (hqueue.trans hq.symm)
      cases loop with
      | none =>
        show (shardsObject α c.size numShards.toNat).Goes m.queues
          (.pending (.steal (some shard))) [] (m.setShard shard b).queues (.done ⟨-1, m.out t⟩)
        rw [hsame]
        exact .perform .refl (.fail _ _ (.inr rfl))
      | some l =>
        show (shardsObject α c.size numShards.toNat).Goes m.queues
          (.pending (.steal none)) [] (m.setShard shard b).queues (.pending (.steal none))
        rw [hsame]
        exact .refl

end Access

/-! ## Runs -/

section Runs

variable [DecidableEq ι] {master : ι} {m m' : Memory ι α} {t u : ι} {pc pc' : Pc α}
  {a : Choice α} {s s' : Config ι (Memory ι α) (Pc α)}
  {hist : List (Event ι (Config ι (Memory ι α) (Pc α)))}

/-- Only a push to the shard adds to its push history. -/
theorem pushed_of_exec (he : exec c numShards t a m pc = some (m', pc')) (k : Nat) :
    (m'.shards k).pushed = (m.shards k).pushed ∨ ∃ p loop, pc = .push k p loop := by
  have hset : ∀ {shard : Nat} {b : Buffer α}, b.pushed = (m.shards shard).pushed →
      ((m.setShard shard b).shards k).pushed = (m.shards k).pushed := by
    intro shard b hb
    by_cases hk : k = shard
    · subst hk
      rw [setShard_shards_self, hb]
    · rw [setShard_shards_of_ne hk]
  cases pc with
  | idle =>
    cases a <;> simp only [exec, reduceCtorEq, Option.some.injEq, Prod.mk.injEq] at he
    all_goals
      obtain ⟨rfl, -⟩ := he
      exact .inl rfl
  | nextPush data i =>
    simp only [exec] at he
    split at he
    all_goals
      obtain ⟨rfl, -⟩ := Prod.mk.inj (Option.some.inj he)
      exact .inl rfl
  | push shard p loop =>
    by_cases hk : k = shard
    · subst hk
      exact .inr ⟨p, loop, rfl⟩
    · obtain ⟨rfl, -⟩ := Prod.ext_iff.mp (Option.some.inj he).symm
      refine .inl ?_
      show ((pushAccess c m shard p loop).1.shards k).pushed = _
      unfold pushAccess
      dsimp only
      split <;> exact congrArg Buffer.pushed (setShard_shards_of_ne hk ..)
  | nextPop i =>
    simp only [exec] at he
    split at he
    all_goals
      obtain ⟨rfl, -⟩ := Prod.mk.inj (Option.some.inj he)
      exact .inl rfl
  | pop shard p loop =>
    obtain ⟨rfl, -⟩ := Prod.ext_iff.mp (Option.some.inj he).symm
    refine .inl ?_
    show ((popAccess c t m shard p loop).1.shards k).pushed = _
    have hpop := hset (FifoStealBuffer.pushed_of_popStep (c := c) (m.shards shard) p)
    unfold popAccess
    dsimp only
    split <;> exact hpop
  | nextSteal loop =>
    simp only [exec] at he
    split at he
    all_goals
      obtain ⟨rfl, -⟩ := Prod.mk.inj (Option.some.inj he)
      exact .inl rfl
  | steal shard p loop =>
    obtain ⟨rfl, -⟩ := Prod.ext_iff.mp (Option.some.inj he).symm
    refine .inl ?_
    show ((stealAccess c t m shard p loop).1.shards k).pushed = _
    have hsteal := hset (FifoStealBuffer.pushed_of_stealStep (c := c) (m.shards shard) p)
    unfold stealAccess
    dsimp only
    split <;> exact hsteal
  | ret code =>
    obtain ⟨rfl, -⟩ := Prod.mk.inj (Option.some.inj he)
    exact .inl rfl

theorem fewPushed
    (run : Run ShardsEmpty ((masterProgram c numShards master).StepIf SparesLast) s hist)
    (k : Nat) : (s.mem.shards k).pushed.length + 1 < 2 ^ 64 := by
  refine run.invariant (I := fun s => (s.mem.shards k).pushed.length + 1 < 2 ^ 64) ?_ ?_
  · rintro s ⟨-, -, hshards, -⟩
    obtain ⟨-, -, hpushed, -⟩ := hshards k
    rw [hpushed]
    exact Nat.one_lt_two_pow (by decide)
  · rintro t s s' h ⟨hok, hs⟩
    obtain ⟨a, he⟩ := hs.exec
    obtain ⟨-, he⟩ := Option.ite_none_right_eq_some.mp he
    rcases pushed_of_exec he k with hsame | ⟨p, loop, hpc⟩
    · rw [hsame]
      exact h
    · rw [hpc] at hok
      exact hok

/-- What holds at every shard. -/
theorem shard_queue
    (run : Run ShardsEmpty ((masterProgram c numShards master).StepIf SparesLast) s hist)
    (k : Nat) :
    FifoStealBuffer.Ordered c (s.mem.shards k) ∧
      ∀ t, FifoStealBuffer.ThreadKnows c master t (s.mem.shards k) ((s.loc t).at k) := by
  obtain ⟨hist', run'⟩ := shard_run (run.mono fun _ _ _ h => h.2) k
  exact FifoStealBuffer.fifoStealBuffer_queue
    (FifoStealBuffer.fewItems_of_run run' (fewPushed run k))

/-- What a thread stands for is not changed by the steps of others. -/
theorem client_of_others (he : exec c numShards t a m pc = some (m', pc'))
    (hpc : pc.masterOnly = true → t = master) {k : Pc α} (hk : k.masterOnly = true → u = master)
    (hut : u ≠ t) : k.client u m' = k.client u m := by
  have hout := (exec_private he hut).1
  cases k with
  | pop shard p loop =>
    have hpushed : (m'.shards shard).pushed = (m.shards shard).pushed := by
      rcases pushed_of_exec he shard with hsame | ⟨q, l, rfl⟩
      · exact hsame
      · exact absurd ((hk rfl).trans (hpc rfl).symm) hut
    have hanswer : p.answer (m'.shards shard) = p.answer (m.shards shard) := by
      cases p with
      | readSlot n =>
        show some (m'.shards shard).pushed[n - 1]? = some (m.shards shard).pushed[n - 1]?
        rw [hpushed]
      | _ => rfl
    show popClient u m' _ (p.answer (m'.shards shard)) = popClient u m _ (p.answer (m.shards shard))
    rw [hanswer]
    unfold popClient
    rw [hout]
  | ret code =>
    show Client.done (Response.mk code (m'.out u)) = .done ⟨code, m.out u⟩
    rw [hout]
  | _ => rfl

/-- Every access is a move of the client of the queues. -/
theorem goes_of_exec (he : exec c numShards t a m pc = some (m', pc'))
    (hknown : ∀ k, FifoStealBuffer.Ordered c (m.shards k) ∧
      FifoStealBuffer.ThreadKnows c master t (m.shards k) (pc.at k))
    (hfew : ∀ k, (m'.shards k).pushed.length + 1 < 2 ^ 64) (hok : SparesLast t m pc m')
    (hown : pc.masterOnly = true → t = master) (hfacts : LoopFacts numShards m t pc) :
    (shardsObject α c.size numShards.toNat).Goes m.queues (pc.client t m)
      (shardedInterface.labels t m pc m' pc') m'.queues (pc'.client t m') := by
  have hbound : ∀ k, (∀ p loop, pc ≠ .push k p loop) →
      (m.shards k).pushed.length + 1 < 2 ^ 64 := by
    intro k hne
    rcases pushed_of_exec he k with hsame | ⟨p, loop, hpc⟩
    · rw [← hsame]
      exact hfew k
    · exact absurd hpc (hne p loop)
  cases pc with
  | idle =>
    cases a <;> simp only [exec, reduceCtorEq, Option.some.injEq, Prod.mk.injEq] at he
    all_goals obtain ⟨rfl, rfl⟩ := he
    case assign value => exact .refl
    case push shard data => exact .call (Request.push (some shard) data) .refl
    case pop shard => exact .call (Request.pop (some shard)) .refl
    case steal shard => exact .call (Request.steal (some shard)) .refl
    case shardedPush data => exact .call (Request.push none data) .refl
    case shardedPop => exact .call (Request.pop none) .refl
    case shardedSteal hint => exact .call (Request.steal none) .refl
  | nextPush data i =>
    simp only [exec] at he
    split at he
    · obtain ⟨rfl, rfl⟩ := Prod.mk.inj (Option.some.inj he)
      exact .refl
    · obtain ⟨rfl, rfl⟩ := Prod.mk.inj (Option.some.inj he)
      exact .perform .refl (.full _ _ (by simp))
  | push shard p loop =>
    obtain ⟨rfl, rfl⟩ := Prod.ext_iff.mp (Option.some.inj he).symm
    obtain ⟨hO, hT⟩ := hknown shard
    have hp := hT.own (hown rfl)
    have hat : (Pc.push shard p loop).at shard = .push p := if_pos rfl
    rw [hat] at hp
    exact goes_of_push hO hp.1 hp.2 hfacts (Nat.lt_of_succ_lt (hfew shard))
  | nextPop i =>
    simp only [exec] at he
    split at he
    · obtain ⟨rfl, rfl⟩ := Prod.mk.inj (Option.some.inj he)
      exact .refl
    · obtain ⟨rfl, rfl⟩ := Prod.mk.inj (Option.some.inj he)
      exact .perform .refl (.empty _ (by simp))
  | pop shard p loop =>
    obtain ⟨rfl, rfl⟩ := Prod.ext_iff.mp (Option.some.inj he).symm
    obtain ⟨hO, hT⟩ := hknown shard
    have hp := hT.own (hown rfl)
    have hat : (Pc.pop shard p loop : Pc α).at shard = .pop p := if_pos rfl
    rw [hat] at hp
    refine goes_of_pop hO hp (hbound shard (by simp)) ?_ hfacts
    rintro h rfl
    exact hok
  | nextSteal loop =>
    simp only [exec] at he
    split at he
    · obtain ⟨rfl, rfl⟩ := Prod.mk.inj (Option.some.inj he)
      exact .refl
    · obtain ⟨rfl, rfl⟩ := Prod.mk.inj (Option.some.inj he)
      refine .perform .refl (.fail _ _ ?_)
      have hfailed := StealLoop.Sound.failed hfacts
      cases hret : loop.finalRet with
      | empty => exact .inl rfl
      | abort => exact .inr rfl
      | success v => exact absurd hret (hfailed v)
  | steal shard p loop =>
    obtain ⟨rfl, rfl⟩ := Prod.ext_iff.mp (Option.some.inj he).symm
    obtain ⟨hO, hT⟩ := hknown shard
    have hat : (Pc.steal shard p loop).at shard = .steal p := if_pos rfl
    exact goes_of_steal hO (hT.steal p hat) (Nat.lt_of_succ_lt (hbound shard (by simp))) hfacts
  | ret code =>
    obtain ⟨rfl, rfl⟩ := Prod.mk.inj (Option.some.inj he)
    exact .ret .refl

/-- **The sharded buffer is linearizable to a queue for each shard**: in every interleaving of
its master and any number of thieves, with calls on the sharded buffer and on single
buffers, the calls can be put into one sequence that keeps the order of calls of which one
returned before the other began, and in which every call that succeeds stores to a queue
with room, or takes the oldest item of a queue. -/
theorem shardedFifoStealBuffer_calls_linearizable
    (run : Run ShardsEmpty ((masterProgram c numShards master).StepIf SparesLast) s hist) :
    Linearizable (shardsObject α c.size numShards.toNat) (shardedInterface.trace hist) := by
  refine run.linearizable (shardsObject α c.size numShards.toNat) Pc.client
    (fun m q => m.queues = q) ?_ ?_ ?_
  · rintro s ⟨-, -, hshards, hidle⟩
    refine ⟨⟨s.mem.queues, fun k => ?_, rfl⟩, fun t => ?_⟩
    · obtain ⟨-, -, hpushed, -⟩ := hshards k
      rw [Memory.queues, Buffer.queue, hpushed, List.drop_nil]
    · rw [hidle t]
      rfl
  · rintro t s s' ⟨hist, hr⟩ ⟨-, hs⟩ u hut
    obtain ⟨-, hT⟩ := sharded_loops (hr.mono fun _ _ _ h => h.2)
    obtain ⟨a, he⟩ := hs.exec
    obtain ⟨-, he⟩ := Option.ite_none_right_eq_some.mp he
    exact client_of_others he (hT t).1 (hT u).1 hut
  · rintro t s s' q ⟨hist, hr⟩ hs rfl
    obtain ⟨-, hT⟩ := sharded_loops (hr.mono fun _ _ _ h => h.2)
    obtain ⟨a, he⟩ := hs.2.exec
    obtain ⟨-, he⟩ := Option.ite_none_right_eq_some.mp he
    refine ⟨s'.mem.queues, rfl, goes_of_exec he (fun k => ?_) (fewPushed (hr.next hs)) hs.1
      (hT t).1 (hT t).2⟩
    obtain ⟨hO, hknown⟩ := shard_queue hr k
    exact ⟨hO, hknown t⟩

/-- Shards that are initialised and empty, with `garbage` in every slot. -/
def emptyShards (garbage : α) : Config ι (Memory ι α) (Pc α) where
  mem :=
    { shards := fun _ =>
        { high := 0, low := 0, buffer := fun _ => garbage, pushed := [], claimed := [],
          taken := [] }
      nextShardPush := 0
      nextShardPop := 0
      out := fun _ => garbage
      before := fun _ => garbage }
  loc _ := .idle

/-- Two shards: the master pushes 7, 8 and 9 and pops 7, and a thief whose hint is 1
steals 8. -/
theorem shardedFifoStealBuffer_calls_linearizable_two :
    ∃ (s : Config Nat (Memory Nat Nat) (Pc Nat)) (hist : _),
      Run ShardsEmpty ((masterProgram FifoStealBuffer.two 2 0).StepIf SparesLast) s hist ∧
        shardedInterface.trace hist = [(0, .call (.push none 7)), (0, .ret ⟨1, 0⟩),
          (0, .call (.push none 8)), (0, .ret ⟨1, 0⟩), (0, .call (.push none 9)),
          (0, .ret ⟨1, 0⟩), (1, .call (.steal none)), (0, .call (.pop none)), (0, .ret ⟨1, 7⟩),
          (1, .ret ⟨1, 8⟩)] ∧
        Linearizable (shardsObject Nat FifoStealBuffer.two.size 2)
          (shardedInterface.trace hist) := by
  have hstart : Run ShardsEmpty
      ((masterProgram (ι := Nat) FifoStealBuffer.two 2 0).StepIf SparesLast) (emptyShards 0) [] :=
    .start ⟨rfl, rfl, fun _ => ⟨rfl, rfl, rfl, rfl, rfl⟩, fun _ => rfl⟩
  obtain ⟨s, hist, run, htrace⟩ := hstart.exists_of_historyIf
    (q := fun _ hist => shardedInterface.trace hist =
      [(0, .call (.push none 7)), (0, .ret ⟨1, 0⟩), (0, .call (.push none 8)), (0, .ret ⟨1, 0⟩),
        (0, .call (.push none 9)), (0, .ret ⟨1, 0⟩), (1, .call (.steal none)),
        (0, .call (.pop none)), (0, .ret ⟨1, 7⟩), (1, .ret ⟨1, 8⟩)])
    (List.flatten [(0, .shardedPush 7) :: List.replicate 6 (0, .step),
      (0, .shardedPush 8) :: List.replicate 6 (0, .step),
      (0, .shardedPush 9) :: List.replicate 6 (0, .step), [(1, .shardedSteal 1), (1, .step)],
      (0, .shardedPop) :: List.replicate 6 (0, .step), List.replicate 5 (1, .step)])
    (by decide +kernel)
  exact ⟨s, hist, run, htrace, shardedFifoStealBuffer_calls_linearizable run⟩

end Runs

end FibConcurrent.ShardedFifoStealBuffer
