import FibConcurrent.FifoStealBuffer.Linearizable
import FibConcurrent.ShardedFifoStealBuffer.Output
import FibConcurrent.ShardedFifoStealBuffer.Push

/-!
# ShardedFifoStealBuffer — every shard is a buffer with one master

One thread makes all the pushes and pops, the others steal. What happens to one shard, as
its threads move from shard to shard, is then a run of the buffer that is modelled in
`FifoStealBuffer` (`shard_run`): an access to the shard is an access there, and one that
leaves the shard returns there and is idle until it comes again.
-/

namespace FibConcurrent.ShardedFifoStealBuffer

open FibConcurrent.Machine FibConcurrent.Data
open FibConcurrent.FifoStealBuffer (Buffer PushPc PopPc StealPc StealResult pushStep popStep
  stealStep bufferProgram)

variable {ι α : Type*} {c : Capacity} {numShards : UInt32}

/-! ## One master -/

/-- `//master thread only!` -/
def Choice.masterOnly : Choice α → Bool
  | .push .. => true
  | .pop _ => true
  | .shardedPush _ => true
  | .shardedPop => true
  | _ => false

def Pc.masterOnly : Pc α → Bool
  | .push .. => true
  | .pop .. => true
  | .nextPush .. => true
  | .nextPop _ => true
  | _ => false

section Model

variable [DecidableEq ι] (c : Capacity) (numShards : UInt32) (master : ι)

def masterExec (t : ι) (a : Choice α) (m : Memory ι α) (pc : Pc α) :
    Option (Memory ι α × Pc α) :=
  if a.masterOnly = true → t = master then exec c numShards t a m pc else none

/-- The interleavings of one master and any number of thieves. -/
def masterProgram : Program ι (Choice α) (Memory ι α) (Pc α) := ⟨masterExec c numShards master⟩

end Model

/-- All shards are initialised and empty, and every thread is between calls. The slots hold
anything. (`sharded_fifo_steal_buffer_create` itself leaves only a single shard like that:
`ShardedFifoStealBuffer.Layout`.) -/
def ShardsEmpty (s : Config ι (Memory ι α) (Pc α)) : Prop :=
  s.mem.nextShardPush = 0 ∧ s.mem.nextShardPop = 0 ∧
    (∀ shard, (s.mem.shards shard).high = 0 ∧ (s.mem.shards shard).low = 0 ∧
      (s.mem.shards shard).pushed = [] ∧ (s.mem.shards shard).claimed = [] ∧
      (s.mem.shards shard).taken = []) ∧
    ∀ t, s.loc t = .idle

/-- What the loop over the shards of a steal knows of its locals. -/
structure StealLoop.Sound (numShards : UInt32) (loop : StealLoop α) : Prop where
  none : numShards = 0 → ¬ loop.i < loop.stop
  failed : ∀ v, loop.finalRet ≠ .success v

/-- What a thread knows of its locals: the loops stay among the shards, and a push
passes its item on. -/
def LoopFacts (numShards : UInt32) (m : Memory ι α) (t : ι) : Pc α → Prop
  | .push shard pc (some (data, _)) => shard < numShards.toNat ∧ pc.data = data
  | .pop shard _ (some _) => shard < numShards.toNat
  | .nextSteal loop => loop.Sound numShards
  | .steal shard pc loop => (∀ low v, pc = .swapLow low v → m.out t = v) ∧
      ∀ l, loop = some l → shard < numShards.toNat ∧ l.Sound numShards
  | _ => True

/-- The counters name shards, if there are any. -/
def CountersKnown (numShards : UInt32) (m : Memory ι α) : Prop :=
  0 < numShards → m.nextShardPush < numShards ∧ m.nextShardPop < numShards

def loopAssertion (numShards : UInt32) (master : ι) :
    Assertion ι (Memory ι α) Unit (Pc α) where
  shared m _ := CountersKnown numShards m
  thread t m _ pc := (pc.masterOnly = true → t = master) ∧ LoopFacts numShards m t pc

section Loops

variable {m m' : Memory ι α} {t u master : ι} {pc pc' : Pc α} {a : Choice α}

theorem pos_of_lt {i : UInt32} (h : i < numShards) : 0 < numShards := by
  rw [UInt32.lt_iff_toNat_lt] at h ⊢
  exact Nat.lt_of_le_of_lt (Nat.zero_le _) h

theorem StealLoop.sound_start (hint : UInt32) :
    (StealLoop.start numShards hint : StealLoop α).Sound numShards := by
  refine ⟨fun h => ?_, fun v => by simp [StealLoop.start]⟩
  subst h
  simp [StealLoop.start]

theorem StealLoop.Sound.next {loop : StealLoop α} (h : loop.Sound numShards)
    (hpos : 0 < numShards.toNat) (ret : StealResult α) :
    (loop.next ret).Sound numShards := by
  refine ⟨fun hzero => ?_, fun v => ?_⟩
  · rw [hzero] at hpos
    exact absurd hpos (by decide)
  · have hfailed := h.failed v
    cases ret with
    | abort => simp [StealLoop.next]
    | _ => exact hfailed

/-- The shard that a steal tries next. -/
theorem StealLoop.Sound.shard_lt {loop : StealLoop α} (h : loop.Sound numShards) {shard : Nat}
    (hshard : loop.shard numShards = some shard) : shard < numShards.toNat := by
  obtain ⟨hlt, hshard⟩ := Option.ite_none_right_eq_some.mp hshard
  obtain rfl := Option.some.inj hshard
  have hne : numShards ≠ 0 := fun hzero => h.none hzero hlt
  rw [UInt32.toNat_mod]
  refine Nat.mod_lt _ (Nat.pos_of_ne_zero fun hzero => hne ?_)
  exact UInt32.toNat_inj.mp (by rw [hzero]; rfl)

/-- A push passes its item on. -/
theorem data_of_pushStep {b : Buffer α} {p p' : PushPc α} (h : (pushStep c b p).2 = .inl p') :
    p'.data = p.data := by
  cases p with
  | readLow data high =>
    simp only [pushStep] at h
    split at h
    · cases h
      rfl
    · cases h
  | writeHigh data high => cases h
  | _ =>
    cases h
    rfl

variable [DecidableEq ι]

omit [DecidableEq ι] in
theorem pushAccess_facts {shard : Nat} {p : PushPc α} {loop : Option (α × UInt32)}
    (h : LoopFacts numShards m t (.push shard p loop)) :
    LoopFacts numShards (pushAccess c m shard p loop).1 t (pushAccess c m shard p loop).2 := by
  unfold pushAccess
  dsimp only
  cases hr : (pushStep c (m.shards shard) p).2 with
  | inl p' =>
    cases loop with
    | none => trivial
    | some l => exact ⟨h.1, (data_of_pushStep hr).trans h.2⟩
  | inr stored =>
    cases stored with
    | true => trivial
    | false => cases loop <;> trivial

theorem popAccess_facts {shard : Nat} {p : PopPc} {loop : Option UInt32}
    (h : LoopFacts numShards m t (.pop shard p loop)) :
    LoopFacts numShards (popAccess c t m shard p loop).1 t (popAccess c t m shard p loop).2 := by
  unfold popAccess
  dsimp only
  cases hr : (popStep c (m.shards shard) p).2 with
  | inl p' =>
    cases loop with
    | none => trivial
    | some i => exact h
  | inr out =>
    cases out with
    | some v => trivial
    | none => cases loop <;> trivial

theorem stealAccess_facts {shard : Nat} {p : StealPc α} {loop : Option (StealLoop α)}
    (h : LoopFacts numShards m t (.steal shard p loop)) :
    LoopFacts numShards (stealAccess c t m shard p loop).1 t
      (stealAccess c t m shard p loop).2 := by
  obtain ⟨hout, hloop⟩ := h
  have hfails : ∀ ret, LoopFacts numShards m t
      (loop.elim (.ret (code ret)) fun loop => .nextSteal (loop.next ret)) := by
    intro ret
    cases loop with
    | none => trivial
    | some l =>
      obtain ⟨hlt, hsound⟩ := hloop l rfl
      exact hsound.next (Nat.lt_of_le_of_lt (Nat.zero_le _) hlt) ret
  unfold stealAccess
  dsimp only
  cases hr : (stealStep c (m.shards shard) p).2 with
  | inl p' =>
    cases p' with
    | swapLow low v =>
      refine ⟨?_, hloop⟩
      rintro _ _ ⟨rfl⟩
      exact Memory.setOut_self ..
    | _ => exact ⟨by simp, hloop⟩
  | inr res =>
    cases res with
    | success v => trivial
    | empty =>
      cases loop with
      | none => trivial
      | some l => exact hfails .empty
    | abort =>
      cases loop with
      | none => trivial
      | some l => exact hfails .abort

/-- An access keeps the counters. -/
theorem access_counters (m : Memory ι α) (shard : Nat) (t : ι) :
    (∀ p loop, (pushAccess c m shard p loop).1.nextShardPush = m.nextShardPush ∧
      (pushAccess c m shard p loop).1.nextShardPop = m.nextShardPop) ∧
    (∀ p loop, (popAccess c t m shard p loop).1.nextShardPush = m.nextShardPush ∧
      (popAccess c t m shard p loop).1.nextShardPop = m.nextShardPop) ∧
    ∀ p loop, (stealAccess c t m shard p loop).1.nextShardPush = m.nextShardPush ∧
      (stealAccess c t m shard p loop).1.nextShardPop = m.nextShardPop := by
  refine ⟨fun p loop => ?_, fun p loop => ?_, fun p loop => ?_⟩
  · unfold pushAccess
    dsimp only
    split <;> exact ⟨rfl, rfl⟩
  · unfold popAccess
    dsimp only
    split <;> exact ⟨rfl, rfl⟩
  · unfold stealAccess
    dsimp only
    split <;> exact ⟨rfl, rfl⟩

omit [DecidableEq ι] in
theorem CountersKnown.congr (h : CountersKnown numShards m)
    (hsame : m'.nextShardPush = m.nextShardPush ∧ m'.nextShardPop = m.nextShardPop) :
    CountersKnown numShards m' := by
  unfold CountersKnown
  rw [hsame.1, hsame.2]
  exact h

/-- A steal never goes over to an operation of the master. -/
theorem masterOnly_of_steal (m : Memory ι α) (shard : Nat) (t : ι) (p : StealPc α)
    (loop : Option (StealLoop α)) :
    (stealAccess c t m shard p loop).2.masterOnly = false := by
  unfold stealAccess
  dsimp only
  split
  · rfl
  · rfl
  · rfl
  · cases loop <;> rfl

omit [DecidableEq ι] in
theorem LoopFacts.congr (h : LoopFacts numShards m t pc) (hout : m'.out t = m.out t) :
    LoopFacts numShards m' t pc := by
  cases pc with
  | steal shard p loop => exact ⟨fun low v hp => hout.trans (h.1 low v hp), h.2⟩
  | push shard p loop => cases loop <;> exact h
  | pop shard p loop => cases loop <;> exact h
  | _ => exact h

/-- **Every step keeps what the threads know of their loops.** -/
theorem loopAssertion_kept : (loopAssertion (α := α) numShards master).Kept
    (masterProgram c numShards master) fun _ _ _ _ => True := by
  intro t a m pc m' pc' g hI hL _ he
  obtain ⟨hmaster, he⟩ := Option.ite_none_right_eq_some.mp he
  obtain ⟨hown, hfacts⟩ := hL
  have hothers : ∀ u, u ≠ t → ∀ k,
      ((k.masterOnly = true → u = master) ∧ LoopFacts numShards m u k) →
      (k.masterOnly = true → u = master) ∧ LoopFacts numShards m' u k :=
    fun u hu k h => ⟨h.1, h.2.congr (exec_private he hu).1⟩
  suffices hstep : CountersKnown numShards m' ∧ (pc'.masterOnly = true → t = master) ∧
      LoopFacts numShards m' t pc' from ⟨g, hstep.1, hstep.2, hothers⟩
  have hcounters := access_counters (c := c) m
  cases pc with
  | idle =>
    cases a <;> simp only [exec, reduceCtorEq, Option.some.injEq, Prod.mk.injEq] at he
    all_goals obtain ⟨rfl, rfl⟩ := he
    case assign value => exact ⟨hI, by simp [Pc.masterOnly], trivial⟩
    case push shard data => exact ⟨hI, fun _ => hmaster rfl, trivial⟩
    case pop shard => exact ⟨hI, fun _ => hmaster rfl, trivial⟩
    case steal shard => exact ⟨hI, by simp [Pc.masterOnly], by simp [LoopFacts]⟩
    case shardedPush data => exact ⟨hI, fun _ => hmaster rfl, trivial⟩
    case shardedPop => exact ⟨hI, fun _ => hmaster rfl, trivial⟩
    case shardedSteal hint =>
      exact ⟨hI, by simp [Pc.masterOnly], StealLoop.sound_start hint⟩
  | nextPush data i =>
    simp only [exec] at he
    split at he
    · rename_i hlt
      obtain ⟨rfl, rfl⟩ := Prod.mk.inj (Option.some.inj he)
      have hpos := pos_of_lt hlt
      exact ⟨fun _ => ⟨nextShard_lt (hI hpos).1, (hI hpos).2⟩, fun _ => hown rfl,
        UInt32.lt_iff_toNat_lt.mp (hI hpos).1, rfl⟩
    · obtain ⟨rfl, rfl⟩ := Prod.mk.inj (Option.some.inj he)
      exact ⟨hI, by simp [Pc.masterOnly], trivial⟩
  | push shard p loop =>
    obtain ⟨rfl, rfl⟩ := Prod.ext_iff.mp (Option.some.inj he).symm
    exact ⟨hI.congr ((hcounters shard t).1 p loop), fun _ => hown rfl, pushAccess_facts hfacts⟩
  | nextPop i =>
    simp only [exec] at he
    split at he
    · rename_i hlt
      obtain ⟨rfl, rfl⟩ := Prod.mk.inj (Option.some.inj he)
      have hpos := pos_of_lt hlt
      exact ⟨fun _ => ⟨(hI hpos).1, nextShard_lt (hI hpos).2⟩, fun _ => hown rfl,
        UInt32.lt_iff_toNat_lt.mp (hI hpos).2⟩
    · obtain ⟨rfl, rfl⟩ := Prod.mk.inj (Option.some.inj he)
      exact ⟨hI, by simp [Pc.masterOnly], trivial⟩
  | pop shard p loop =>
    obtain ⟨rfl, rfl⟩ := Prod.ext_iff.mp (Option.some.inj he).symm
    exact ⟨hI.congr ((hcounters shard t).2.1 p loop), fun _ => hown rfl, popAccess_facts hfacts⟩
  | nextSteal loop =>
    simp only [exec] at he
    split at he
    · rename_i shard hshard
      obtain ⟨rfl, rfl⟩ := Prod.mk.inj (Option.some.inj he)
      refine ⟨hI, by simp [Pc.masterOnly], by simp, ?_⟩
      rintro _ ⟨rfl⟩
      exact ⟨StealLoop.Sound.shard_lt hfacts hshard, hfacts⟩
    · obtain ⟨rfl, rfl⟩ := Prod.mk.inj (Option.some.inj he)
      exact ⟨hI, by simp [Pc.masterOnly], trivial⟩
  | steal shard p loop =>
    obtain ⟨rfl, rfl⟩ := Prod.ext_iff.mp (Option.some.inj he).symm
    refine ⟨hI.congr ((hcounters shard t).2.2 p loop), fun h => ?_, stealAccess_facts hfacts⟩
    have hsteal := masterOnly_of_steal (c := c) m shard t p loop
    exact absurd (hsteal.symm.trans h) Bool.false_ne_true
  | ret code =>
    obtain ⟨rfl, rfl⟩ := Prod.mk.inj (Option.some.inj he)
    exact ⟨hI, by simp [Pc.masterOnly], trivial⟩

end Loops

/-! ## One shard -/

/-- What a thread does at shard `k`. -/
def Pc.at (k : Nat) : Pc α → FifoStealBuffer.Pc α
  | .push shard pc _ => if shard = k then .push pc else .idle
  | .pop shard pc _ => if shard = k then .pop pc else .idle
  | .steal shard pc _ => if shard = k then .steal pc else .idle
  | _ => .idle

/-- The system as shard `k` sees it. -/
def shardConfig (k : Nat) (s : Config ι (Memory ι α) (Pc α)) :
    Config ι (Buffer α) (FifoStealBuffer.Pc α) :=
  ⟨s.mem.shards k, fun t => (s.loc t).at k⟩

section Shard

variable [DecidableEq ι] {k : Nat} {m m' : Memory ι α} {t master : ι} {pc pc' : Pc α}
  {a : Choice α} {s s' : Config ι (Memory ι α) (Pc α)}

/-- What a step does to the rest of the system is a matter of its memory and its thread. -/
theorem shardConfig_eq (hs : (masterProgram c numShards master).Step t s s') :
    shardConfig k s' = ⟨s'.mem.shards k,
      Function.update (shardConfig k s).loc t ((s'.loc t).at k)⟩ := by
  refine congrArg (Config.mk (s'.mem.shards k)) (funext fun u => ?_)
  by_cases hut : u = t
  · subst hut
    rw [Function.update_self]
  · rw [Function.update_of_ne hut]
    exact congrArg (Pc.at k) (hs.loc_of_ne hut)

/-- A step of the thread at the shard. -/
theorem step_of_exec {b b' : Buffer α} {l : ι → FifoStealBuffer.Pc α}
    {q q' : FifoStealBuffer.Pc α} (act : FifoStealBuffer.Choice α)
    (h : FifoStealBuffer.exec c master t act b q = some (b', q')) :
    (bufferProgram c master).Step t ⟨b, Function.update l t q⟩ ⟨b', Function.update l t q'⟩ := by
  refine ⟨act, Program.next_eq_some.mpr ⟨b', q', ?_, ?_⟩⟩
  · show FifoStealBuffer.exec c master t act b (Function.update l t q t) = _
    rw [Function.update_self]
    exact h
  · show _ = Config.mk b' (Function.update (Function.update l t q) t q')
    rw [Function.update_idem]

/-- An access of a thread at one shard: the shard moves as the buffer does, and a thread
that leaves it returns there. -/
theorem access_moves {shard : Nat} {b : Buffer α} {q q' : FifoStealBuffer.Pc α}
    (hat : ∀ k, pc.at k = if shard = k then q else .idle)
    (hexec : FifoStealBuffer.exec c master t .step (m.shards shard) q = some (b, q'))
    (hm : m'.shards = Function.update m.shards shard b)
    (hat' : (∀ k, pc'.at k = if shard = k then q' else .idle) ∨
      FifoStealBuffer.exec c master t .step b q' = some (b, .idle) ∧ ∀ k, pc'.at k = .idle)
    (l : ι → FifoStealBuffer.Pc α) :
    Relation.ReflTransGen ((bufferProgram c master).Step t)
      ⟨m.shards k, Function.update l t (pc.at k)⟩
      ⟨m'.shards k, Function.update l t (pc'.at k)⟩ := by
  rw [hm, hat k]
  by_cases hk : shard = k
  · subst hk
    rw [if_pos rfl, Function.update_self]
    have hstep : (bufferProgram c master).Step t ⟨m.shards shard, Function.update l t q⟩
        ⟨b, Function.update l t q'⟩ := step_of_exec .step hexec
    rcases hat' with hat' | ⟨hret, hidle⟩
    · rw [hat' shard, if_pos rfl]
      exact .single hstep
    · rw [hidle shard]
      exact .tail (.single hstep) (step_of_exec .step hret)
  · have hidle : pc'.at k = .idle := by
      rcases hat' with hat' | ⟨-, hidle⟩
      · rw [hat' k, if_neg hk]
      · exact hidle k
    rw [if_neg hk, Function.update_of_ne (Ne.symm hk), hidle]

theorem push_moves (shard : Nat) (p : PushPc α) (loop : Option (α × UInt32))
    (l : ι → FifoStealBuffer.Pc α) :
    Relation.ReflTransGen ((bufferProgram c master).Step t)
      ⟨m.shards k, Function.update l t ((Pc.push shard p loop).at k)⟩
      ⟨(pushAccess c m shard p loop).1.shards k,
        Function.update l t ((pushAccess c m shard p loop).2.at k)⟩ := by
  have hexec : FifoStealBuffer.exec c master t .step (m.shards shard) (.push p) =
      some ((pushStep c (m.shards shard) p).1,
        (pushStep c (m.shards shard) p).2.elim .push .pushRet) := by
    show some ((pushStep c (m.shards shard) p).1, _) = _
    cases (pushStep c (m.shards shard) p).2 <;> rfl
  unfold pushAccess
  dsimp only
  generalize (pushStep c (m.shards shard) p).1 = b, (pushStep c (m.shards shard) p).2 = r
    at hexec
  rcases r with p' | _ | _
  · exact access_moves (fun _ => rfl) hexec rfl (.inl fun _ => rfl) l
  · refine access_moves (fun _ => rfl) hexec rfl (.inr ⟨rfl, fun k => ?_⟩) l
    cases loop <;> rfl
  · exact access_moves (fun _ => rfl) hexec rfl (.inr ⟨rfl, fun _ => rfl⟩) l

theorem pop_moves (shard : Nat) (p : PopPc) (loop : Option UInt32)
    (l : ι → FifoStealBuffer.Pc α) :
    Relation.ReflTransGen ((bufferProgram c master).Step t)
      ⟨m.shards k, Function.update l t ((Pc.pop shard p loop).at k)⟩
      ⟨(popAccess c t m shard p loop).1.shards k,
        Function.update l t ((popAccess c t m shard p loop).2.at k)⟩ := by
  have hexec : FifoStealBuffer.exec c master t .step (m.shards shard) (.pop p) =
      some ((popStep c (m.shards shard) p).1,
        (popStep c (m.shards shard) p).2.elim .pop .popRet) := by
    show some ((popStep c (m.shards shard) p).1, _) = _
    cases (popStep c (m.shards shard) p).2 <;> rfl
  unfold popAccess
  dsimp only
  generalize (popStep c (m.shards shard) p).1 = b, (popStep c (m.shards shard) p).2 = r at hexec
  rcases r with p' | _ | v
  · exact access_moves (fun _ => rfl) hexec rfl (.inl fun _ => rfl) l
  · refine access_moves (fun _ => rfl) hexec rfl (.inr ⟨rfl, fun k => ?_⟩) l
    cases loop <;> rfl
  · exact access_moves (fun _ => rfl) hexec rfl (.inr ⟨rfl, fun _ => rfl⟩) l

theorem steal_moves (shard : Nat) (p : StealPc α) (loop : Option (StealLoop α))
    (l : ι → FifoStealBuffer.Pc α) :
    Relation.ReflTransGen ((bufferProgram c master).Step t)
      ⟨m.shards k, Function.update l t ((Pc.steal shard p loop).at k)⟩
      ⟨(stealAccess c t m shard p loop).1.shards k,
        Function.update l t ((stealAccess c t m shard p loop).2.at k)⟩ := by
  have hexec : FifoStealBuffer.exec c master t .step (m.shards shard) (.steal p) =
      some ((stealStep c (m.shards shard) p).1,
        (stealStep c (m.shards shard) p).2.elim .steal .stealRet) := by
    show some ((stealStep c (m.shards shard) p).1, _) = _
    cases (stealStep c (m.shards shard) p).2 <;> rfl
  unfold stealAccess
  dsimp only
  generalize (stealStep c (m.shards shard) p).1 = b, (stealStep c (m.shards shard) p).2 = r
    at hexec
  rcases r with p' | result
  · cases p' <;> exact access_moves (fun _ => rfl) hexec rfl (.inl fun _ => rfl) l
  · cases result with
    | success v => exact access_moves (fun _ => rfl) hexec rfl (.inr ⟨rfl, fun _ => rfl⟩) l
    | _ =>
      refine access_moves (fun _ => rfl) hexec rfl (.inr ⟨rfl, fun k => ?_⟩) l
      cases loop <;> rfl

/-- A thread that comes to a shard calls an operation there. -/
theorem arrive_moves {shard : Nat} {q : FifoStealBuffer.Pc α} (act : FifoStealBuffer.Choice α)
    (hidle : ∀ k, pc.at k = .idle) (hat : ∀ k, pc'.at k = if shard = k then q else .idle)
    (hm : m'.shards = m.shards)
    (hexec : ∀ b, FifoStealBuffer.exec c master t act b .idle = some (b, q))
    (l : ι → FifoStealBuffer.Pc α) :
    Relation.ReflTransGen ((bufferProgram c master).Step t)
      ⟨m.shards k, Function.update l t (pc.at k)⟩
      ⟨m'.shards k, Function.update l t (pc'.at k)⟩ := by
  rw [hm, hidle k, hat k]
  by_cases hk : shard = k
  · rw [if_pos hk]
    exact .single (step_of_exec act (hexec _))
  · rw [if_neg hk]

/-- **Every step is matched at every shard.** -/
theorem shard_moves (he : masterExec c numShards master t a m pc = some (m', pc'))
    (hown : pc.masterOnly = true → t = master) (l : ι → FifoStealBuffer.Pc α) :
    Relation.ReflTransGen ((bufferProgram c master).Step t)
      ⟨m.shards k, Function.update l t (pc.at k)⟩
      ⟨m'.shards k, Function.update l t (pc'.at k)⟩ := by
  obtain ⟨hmaster, he⟩ := Option.ite_none_right_eq_some.mp he
  cases pc with
  | idle =>
    cases a <;> simp only [exec, reduceCtorEq, Option.some.injEq, Prod.mk.injEq] at he
    all_goals obtain ⟨rfl, rfl⟩ := he
    case push shard data =>
      exact arrive_moves (.push data) (fun _ => rfl) (fun _ => rfl) rfl
        (fun _ => if_pos (hmaster rfl)) l
    case pop shard =>
      exact arrive_moves .pop (fun _ => rfl) (fun _ => rfl) rfl
        (fun _ => if_pos (hmaster rfl)) l
    case steal shard =>
      exact arrive_moves .steal (fun _ => rfl) (fun _ => rfl) rfl (fun _ => rfl) l
    all_goals exact .refl
  | nextPush data i =>
    simp only [exec] at he
    split at he
    · obtain ⟨rfl, rfl⟩ := Prod.mk.inj (Option.some.inj he)
      exact arrive_moves (.push data) (fun _ => rfl) (fun _ => rfl) rfl
        (fun _ => if_pos (hown rfl)) l
    · obtain ⟨rfl, rfl⟩ := Prod.mk.inj (Option.some.inj he)
      exact .refl
  | push shard p loop =>
    obtain ⟨rfl, rfl⟩ := Prod.ext_iff.mp (Option.some.inj he).symm
    exact push_moves shard p loop l
  | nextPop i =>
    simp only [exec] at he
    split at he
    · obtain ⟨rfl, rfl⟩ := Prod.mk.inj (Option.some.inj he)
      exact arrive_moves .pop (fun _ => rfl) (fun _ => rfl) rfl (fun _ => if_pos (hown rfl)) l
    · obtain ⟨rfl, rfl⟩ := Prod.mk.inj (Option.some.inj he)
      exact .refl
  | pop shard p loop =>
    obtain ⟨rfl, rfl⟩ := Prod.ext_iff.mp (Option.some.inj he).symm
    exact pop_moves shard p loop l
  | nextSteal loop =>
    simp only [exec] at he
    split at he
    · obtain ⟨rfl, rfl⟩ := Prod.mk.inj (Option.some.inj he)
      exact arrive_moves .steal (fun _ => rfl) (fun _ => rfl) rfl (fun _ => rfl) l
    · obtain ⟨rfl, rfl⟩ := Prod.mk.inj (Option.some.inj he)
      exact .refl
  | steal shard p loop =>
    obtain ⟨rfl, rfl⟩ := Prod.ext_iff.mp (Option.some.inj he).symm
    exact steal_moves shard p loop l
  | ret code =>
    obtain ⟨rfl, rfl⟩ := Prod.mk.inj (Option.some.inj he)
    exact .refl

end Shard

section Runs

variable [DecidableEq ι] {master : ι} {s : Config ι (Memory ι α) (Pc α)}
  {hist : List (Event ι (Config ι (Memory ι α) (Pc α)))}

omit [DecidableEq ι] in
theorem loopAssertion_init (h : ShardsEmpty s) : (loopAssertion numShards master).Holds s := by
  obtain ⟨hpush, hpop, -, hidle⟩ := h
  refine ⟨(), fun hpos => ?_, fun t => ?_⟩
  · rw [hpush, hpop]
    exact ⟨hpos, hpos⟩
  · rw [hidle t]
    exact ⟨by simp [Pc.masterOnly], trivial⟩

theorem sharded_loops (run : Run ShardsEmpty (masterProgram c numShards master).Step s hist) :
    CountersKnown numShards s.mem ∧ ∀ t, ((s.loc t).masterOnly = true → t = master) ∧
      LoopFacts numShards s.mem t (s.loc t) := by
  have hrun : Run ShardsEmpty
      ((masterProgram c numShards master).StepIf fun _ _ _ _ => True) s hist :=
    run.mono fun _ _ _ h => Program.stepIf_true.mpr h
  obtain ⟨g, hI, hT⟩ := loopAssertion_kept.run (fun _ h => loopAssertion_init h) hrun
  exact ⟨hI, hT⟩

/-- **Every shard goes through a run of the buffer with one master.** -/
theorem shard_run (run : Run ShardsEmpty (masterProgram c numShards master).Step s hist) (k : Nat) :
    ∃ hist', Run FifoStealBuffer.Init (bufferProgram c master).Step (shardConfig k s) hist' := by
  refine run.simulate (shardConfig k) ?_ ?_
  · rintro s ⟨-, -, hshards, hidle⟩
    obtain ⟨hhigh, hlow, hpushed, hclaimed, htaken⟩ := hshards k
    refine ⟨hhigh, hlow, hpushed, hclaimed, htaken, fun t => ?_⟩
    exact congrArg (Pc.at k) (hidle t)
  · rintro t s s' ⟨hist, hr⟩ hs
    obtain ⟨a, he⟩ := hs.exec
    have hmoves := shard_moves (k := k) he ((sharded_loops hr).2 t).1 (shardConfig k s).loc
    rw [shardConfig_eq hs]
    have hself : shardConfig k s =
        ⟨s.mem.shards k, Function.update (shardConfig k s).loc t ((s.loc t).at k)⟩ :=
      congrArg (Config.mk (s.mem.shards k)) (Function.update_eq_self t _).symm
    rw [← hself] at hmoves
    exact hmoves

end Runs

end FibConcurrent.ShardedFifoStealBuffer
