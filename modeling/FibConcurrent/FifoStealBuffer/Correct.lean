import FibConcurrent.FifoStealBuffer.Calls
import FibConcurrent.FifoStealBuffer.Invariant

/-!
# FifoStealBuffer — the lost last item, and what holds without it

`fifo_steal_buffer_pop` rechecks with `new_low >= high` that nobody stole the
last item. It should ask `new_low > high`: when exactly one item is left, its
own addition makes `new_low` equal to `high`, and the item is dropped
(`fifoStealBuffer_drops_last`). In every run in which no pop adds to `low` in
such a state, nothing is lost or duplicated (`fifoStealBuffer_exactly_once`).
-/

namespace FibConcurrent.FifoStealBuffer

open FibConcurrent.Machine FibConcurrent.Data

variable {ι α : Type*} {c : Capacity} [DecidableEq ι] {master : ι}

/-- Fewer than `2 ^ 64` pushes after the step, and no pop that takes the last item. -/
def Careful (t : ι) (m : Buffer α) (pc : Pc α) (m' : Buffer α) : Prop :=
  m'.pushed.length < 2 ^ 64 ∧ NotLast t m pc m'

/-- Nothing is ever taken out of the push history. -/
theorem pushed_le_of_exec (c : Capacity) (master t : ι) {a : Choice α} {m m' : Buffer α}
    {pc pc' : Pc α} (he : exec c master t a m pc = some (m', pc')) :
    m.pushed.length ≤ m'.pushed.length := by
  cases pc with
  | idle =>
    cases a <;> simp only [exec, Option.ite_none_right_eq_some, Option.some.injEq, Prod.mk.injEq,
      reduceCtorEq] at he
    case steal => rw [← he.1]
    all_goals rw [← he.2.1]
  | push pc =>
    simp only [exec, Option.some.injEq, Prod.mk.injEq] at he
    rw [← he.1]
    cases pc with
    | readLow v h =>
      simp only [pushStep]
      split <;> exact Nat.le_refl _
    | writeHigh v h => simp [pushStep]
    | _ => exact Nat.le_refl _
  | pop pc =>
    simp only [exec, Option.some.injEq, Prod.mk.injEq] at he
    rw [← he.1]
    cases pc with
    | readLow h =>
      simp only [popStep]
      split <;> exact Nat.le_refl _
    | addLow h =>
      simp only [popStep]
      split <;> exact Nat.le_refl _
    | _ => exact Nat.le_refl _
  | steal pc =>
    simp only [exec, Option.some.injEq, Prod.mk.injEq] at he
    rw [← he.1]
    cases pc with
    | readLow h =>
      simp only [stealStep]
      split <;> exact Nat.le_refl _
    | swapLow l v =>
      simp only [stealStep]
      split <;> exact Nat.le_refl _
    | _ => exact Nat.le_refl _
  | _ =>
    simp only [exec, Option.some.injEq, Prod.mk.injEq] at he
    rw [← he.1]

/-- **Every careful step of every thread keeps the assertion.** -/
theorem bufferAssertion_kept :
    (bufferAssertion (α := α) c master).Kept (bufferProgram c master) Careful := by
  intro t a m pc m' pc' g hI hL hok he
  obtain ⟨hlen, hlast⟩ := hok
  have hfew : m.pushed.length < 2 ^ 64 :=
    Nat.lt_of_le_of_lt (pushed_le_of_exec c master t he) hlen
  have hown := hL.own
  have hstay : ∀ u, u ≠ t → ∀ k, ThreadFacts c master u m g k → ThreadFacts c master u m g k :=
    fun _ _ _ h => h
  simp only [bufferProgram, exec] at he
  cases pc with
  | idle =>
    cases a <;> simp only [Option.ite_none_right_eq_some, Option.some.injEq, Prod.mk.injEq,
      reduceCtorEq] at he
    case push v =>
      obtain ⟨rfl, rfl, rfl⟩ := he
      exact ⟨g, hI, ⟨by simp, fun _ _ => rfl, by simp, fun _ => ⟨hown rfl, trivial⟩⟩, hstay⟩
    case pop =>
      obtain ⟨rfl, rfl, rfl⟩ := he
      exact ⟨g, hI, ⟨by simp, by simp, fun _ _ => rfl, hown⟩, hstay⟩
    case steal =>
      obtain ⟨rfl, rfl⟩ := he
      refine ⟨g, hI, ⟨fun p hp => ?_, by simp, by simp, hown⟩, hstay⟩
      cases hp
      trivial
  | push pc =>
    simp only [Option.some.injEq, Prod.mk.injEq] at he
    obtain ⟨rfl, rfl⟩ := he
    have ht := hL.pushing pc rfl
    subst ht
    obtain ⟨hrest, hp⟩ := hown rfl
    obtain ⟨hI', hp', hk⟩ := pushStep_spec hI hrest hp hlen
    refine ⟨g, hI', ?_, fun u hu k h => ⟨fun p hp => (h.steal p hp).keep hk, h.pushing, h.popping,
      fun h => absurd h hu⟩⟩
    cases hnext : (pushStep c m pc).2 with
    | inl pc' => exact ⟨by simp, fun _ _ => rfl, by simp, fun _ => ⟨hrest, hp' pc' hnext⟩⟩
    | inr r => exact ⟨by simp, by simp, by simp, fun _ => hrest⟩
  | pop pc =>
    simp only [Option.some.injEq, Prod.mk.injEq] at he
    obtain ⟨rfl, rfl⟩ := he
    have ht := hL.popping pc rfl
    subst ht
    obtain ⟨g', hI', hp', hret, hk⟩ := popStep_spec hI (hown rfl)
      (fun h heq => hlast (by rw [heq]; rfl)) hfew
    refine ⟨g', hI', ?_, fun u hu k h => ⟨fun p hp => (h.steal p hp).keep hk, h.pushing, h.popping,
      fun h => absurd h hu⟩⟩
    cases hnext : (popStep c m pc).2 with
    | inl pc' => exact ⟨by simp, by simp, fun _ _ => rfl, fun _ => hp' pc' hnext⟩
    | inr r => exact ⟨by simp, by simp, by simp, fun _ => hret r hnext⟩
  | steal pc =>
    simp only [Option.some.injEq, Prod.mk.injEq] at he
    obtain ⟨rfl, rfl⟩ := he
    obtain ⟨hI', hp', hk, hkm⟩ := stealStep_spec hI (hL.steal pc rfl) hfew
    refine ⟨g, hI', ?_, fun u hu k h => ⟨fun p hp => (h.steal p hp).keep hk, h.pushing, h.popping,
      fun hm => (h.own hm).keep hkm⟩⟩
    cases hnext : (stealStep c m pc).2 with
    | inl pc' =>
      refine ⟨fun p hp => ?_, by simp, by simp, hown⟩
      cases hp
      exact hp' pc' hnext
    | inr r => exact ⟨by simp, by simp, by simp, hown⟩
  | _ =>
    simp only [Option.some.injEq, Prod.mk.injEq] at he
    obtain ⟨rfl, rfl⟩ := he
    exact ⟨g, hI, ⟨by simp, by simp, by simp, hown⟩, hstay⟩

omit [DecidableEq ι] in
theorem bufferAssertion_init {s : Config ι (Buffer α) (Pc α)} (h : Init s) :
    (bufferAssertion c master).Holds s := by
  obtain ⟨hhigh, hlow, hpushed, hclaimed, htaken, hidle⟩ := h
  refine ⟨⟨false, none⟩, ?_, fun t => ?_⟩
  · constructor <;> simp [hhigh, hlow, hpushed, hclaimed, htaken]
  · rw [hidle t]
    exact ⟨by simp, by simp, by simp, fun _ => ⟨rfl, rfl⟩⟩

/-! ## Runs -/

section Runs

variable {s : Config ι (Buffer α) (Pc α)} {hist : List (Event ι (Config ι (Buffer α) (Pc α)))}

theorem fifoStealBuffer_invariant
    (run : Run Init ((bufferProgram c master).StepIf Careful) s hist) :
    (bufferAssertion c master).Holds s :=
  bufferAssertion_kept.run (fun _ h => bufferAssertion_init h) run

omit [DecidableEq ι] in
/-- Who reads a slot reads what was pushed there. -/
theorem Inv.readsPushed {m m' : Buffer α} {g : Ghost} {t : ι} {pc : Pc α} (hI : Inv c m g)
    (hL : ThreadFacts c master t m g pc) (hlast : NotLast t m pc m')
    (hlen : m.pushed.length < 2 ^ 64) : ReadsPushed c m pc := by
  have hhigh := hI.high
  cases pc with
  | pop pc =>
    have hown := hL.own (hL.popping pc rfl)
    cases pc with
    | addLow h =>
      obtain ⟨hrest, rfl⟩ := hown
      obtain ⟨hne, hbound⟩ := hlast rfl
      show (m.low + 1) % 2 ^ 64 < m.high → _
      rw [Nat.mod_eq_of_lt hbound, Nat.add_sub_cancel]
      intro hlt
      refine ⟨?_, _, hI.slots m.low (Nat.le_refl _) (by omega)⟩
      rw [wrapSub_of_le (by omega) hbound, Nat.add_sub_cancel]
    | readSlot n =>
      obtain ⟨-, hpos, hle, -, hval⟩ := hown
      exact ⟨wrapSub_of_le hpos (by omega), hval⟩
    | _ => trivial
  | steal pc =>
    have hp := hL.steal pc rfl
    cases pc with
    | swapLow l v =>
      obtain ⟨-, -, hval⟩ := hp
      exact fun heq => hval heq.symm
    | _ => trivial
  | _ => trivial

/-- **`pushed` and `claimed` are what the calls have done.** -/
theorem linearizableTo_history
    (run : Run Init ((bufferProgram c master).StepIf Careful) s hist) :
    LinearizableTo (bufferHistory α) (bufferInterface.trace hist)
      (s.mem.pushed, s.mem.claimed) := by
  refine run.linearizableTo (bufferHistory α) (fun _ => Pc.client)
    (fun m => (m.pushed, m.claimed)) ?_ ?_ ?_
  · rintro s ⟨-, -, hpushed, hclaimed, -, hidle⟩
    refine ⟨Prod.ext hpushed hclaimed, fun t => ?_⟩
    rw [hidle t]
    rfl
  · rintro t s s' ⟨hist, hr⟩ ⟨-, hs⟩ u hut
    obtain ⟨g, -, hL⟩ := fifoStealBuffer_invariant hr
    obtain ⟨a, he⟩ := hs.exec
    exact client_of_others (t := t) he (hL t).pushing (hL u).popping hut
  · rintro t s s' ⟨hist, hr⟩ ⟨⟨hlen, hlast⟩, hs⟩
    obtain ⟨g, hI, hL⟩ := fifoStealBuffer_invariant hr
    obtain ⟨a, he⟩ := hs.exec
    have hfew : s.mem.pushed.length < 2 ^ 64 :=
      Nat.lt_of_le_of_lt (pushed_le_of_exec c master t he) hlen
    exact (move_of_exec (t := t) he (hI.readsPushed (hL t) hlast hfew)).goes

/-- Every pushed item is claimed. -/
def NoneAvailable (e : Event ι (Config ι (Buffer α) (Pc α))) : Prop :=
  e.pre.mem.claimed.length = e.pre.mem.pushed.length

/-- Thread `t` reads `low` while `size` items are stored. -/
def ObservesFull (c : Capacity) (t : ι) (e : Event ι (Config ι (Buffer α) (Pc α))) : Prop :=
  e.tid = t ∧ (∃ v h, e.pre.loc t = .push (.readLow v h)) ∧
    e.pre.mem.pushed.length = e.pre.mem.claimed.length + c.size

/-- A buffer that loses and duplicates nothing, in state `s` reached by `hist`. -/
structure BufferPromise (c : Capacity) (master : ι) (s : Config ι (Buffer α) (Pc α))
    (hist : List (Event ι (Config ι (Buffer α) (Pc α)))) : Prop where
  /-- No index is handed out twice. -/
  once : (s.mem.taken.map Prod.fst).Nodup
  /-- What is handed out for an index is the item that was pushed there. -/
  values : ∀ e ∈ s.mem.taken, s.mem.pushed[e.1]? = some e.2
  /-- Indices are claimed in push order. -/
  order : s.mem.claimed = List.range s.mem.claimed.length
  /-- `pushed` and `claimed` are what the calls have done: each pop or steal that has returned
  success has claimed an index and returned the item that was pushed there, and each push that has
  returned 1 has appended its item to `pushed`, once and at one instant of the call; no other call
  but one in progress has appended anything. -/
  calls : LinearizableTo (bufferHistory α) (bufferInterface.trace hist)
    (s.mem.pushed, s.mem.claimed)
  /-- Only claimed indices are handed out. -/
  claimed : ∀ e ∈ s.mem.taken, e.1 ∈ s.mem.claimed
  bounds : s.loc master = .idle → s.mem.low ≤ s.mem.high ∧ s.mem.high - s.mem.low ≤ c.size ∧
    s.mem.high = s.mem.pushed.length
  /-- Between operations of the master exactly the indices from `low` on are
  left, and their items are in their slots. -/
  left : s.loc master = .idle → ∀ i, i < s.mem.high →
    (i ∉ s.mem.taken.map Prod.fst ↔ s.mem.low ≤ i) ∧
    (s.mem.low ≤ i → s.mem.pushed[i]? = some (s.mem.buffer (c.slot i)))
  /-- A push fails only if it observed `size` items. -/
  pushFails : s.loc master = .pushRet false →
    During (fun s => s.loc master ≠ .idle) (ObservesFull c master) hist
  /-- A pop fails only if at some instant of the call no item was available. -/
  popFails : s.loc master = .popRet none →
    During (fun s => s.loc master ≠ .idle) NoneAvailable hist

theorem Inv.claimed_length {m : Buffer α} {g : Ghost} (hI : Inv c m g) :
    m.claimed.length = min m.low m.high := by
  rw [hI.claimed, List.length_range]

/-- The access at which a push finds the buffer full. -/
theorem pushFails_during (run : Run Init ((bufferProgram c master).StepIf Careful) s hist)
    (hret : s.loc master = .pushRet false) :
    During (fun s => s.loc master ≠ .idle) (ObservesFull c master) hist := by
  refine Run.during_of_local (· = .pushRet false) (· ≠ .idle) ?_ ?_ ?_ ?_ run hret
  · intro s h0 hm
    rw [h0.2.2.2.2.2 master] at hm
    cases hm
  · intro a m l m' l' he hl' hl
    subst hl hl'
    cases a <;> simp [bufferProgram, exec] at he
  · intro l hl
    simp [hl]
  · rintro s s' ⟨hist, hr⟩ hs hn hm
    obtain ⟨g, hI, hL⟩ := fifoStealBuffer_invariant hr
    obtain ⟨a, he⟩ := hs.2.exec
    have hfew := hs.1.1
    have hown := (hL master).own rfl
    rw [hm] at he
    cases hl : s.loc master with
    | idle => cases a <;> simp [hl, bufferProgram, exec] at he
    | pushRet b => simp [hl, bufferProgram, exec] at he
    | popRet r => simp [hl, bufferProgram, exec] at he
    | stealRet r => simp [hl, bufferProgram, exec] at he
    | pop pc =>
      simp only [hl, bufferProgram, exec, Option.some.injEq, Prod.mk.injEq] at he
      cases h : (popStep c s.mem pc).2 <;> simp [h] at he
    | steal pc =>
      simp only [hl, bufferProgram, exec, Option.some.injEq, Prod.mk.injEq] at he
      cases h : (stealStep c s.mem pc).2 <;> simp [h] at he
    | push pc =>
      rw [hl] at hown
      obtain ⟨hrest, hp⟩ := hown
      simp only [hl, bufferProgram, exec, Option.some.injEq, Prod.mk.injEq] at he
      cases pc with
      | readLow v h =>
        have hh : h = s.mem.high := hp
        have hle := hI.le hrest.1
        have hhigh := hI.high
        by_cases hroom : wrapSub h s.mem.low < c.size
        · simp [pushStep, hroom] at he
        · simp only [pushStep, if_neg hroom] at he
          rw [← he.1] at hfew
          rw [wrapSub_of_le (by omega) (by omega)] at hroom
          refine ⟨rfl, ⟨v, h, hl⟩, ?_⟩
          have hclaimed := hI.claimed_length
          have := hI.room
          show s.mem.pushed.length = s.mem.claimed.length + c.size
          omega
      | _ => simp [pushStep] at he

/-- The accesses at which a pop finds nothing left: its read of `low`, or its
addition to `low`. -/
theorem popFails_during (run : Run Init ((bufferProgram c master).StepIf Careful) s hist)
    (hret : s.loc master = .popRet none) :
    During (fun s => s.loc master ≠ .idle) NoneAvailable hist := by
  refine Run.during_of_local (fun l => l = .popRet none ∨ ∃ h, l = .pop (.writeLow h)) (· ≠ .idle)
    ?_ ?_ ?_ ?_ run (.inl hret)
  · intro s h0 hm
    rw [h0.2.2.2.2.2 master] at hm
    simp at hm
  · intro a m l m' l' he hl' hl
    subst hl
    rcases hl' with rfl | ⟨h, rfl⟩ <;> cases a <;> simp [bufferProgram, exec] at he
  · intro l hl
    rcases hl with rfl | ⟨h, rfl⟩ <;> simp
  · rintro s s' ⟨hist, hr⟩ hs hn hm
    obtain ⟨g, hI, hL⟩ := fifoStealBuffer_invariant hr
    obtain ⟨a, he⟩ := hs.2.exec
    have hlast := hs.1.2
    have hown := (hL master).own rfl
    have hhigh := hI.high
    have hclaimed := hI.claimed_length
    generalize s'.loc master = l' at he hm
    cases hl : s.loc master with
    | idle =>
      cases a <;> simp [hl, bufferProgram, exec] at he
      all_goals
        rw [← he.2] at hm
        simp at hm
    | pushRet b =>
      simp [hl, bufferProgram, exec] at he
      rw [← he.2] at hm
      simp at hm
    | popRet r =>
      simp [hl, bufferProgram, exec] at he
      rw [← he.2] at hm
      simp at hm
    | stealRet r =>
      simp [hl, bufferProgram, exec] at he
      rw [← he.2] at hm
      simp at hm
    | push pc =>
      simp only [hl, bufferProgram, exec, Option.some.injEq, Prod.mk.injEq] at he
      rw [← he.2] at hm
      cases h : (pushStep c s.mem pc).2 <;> simp [h] at hm
    | steal pc =>
      simp only [hl, bufferProgram, exec, Option.some.injEq, Prod.mk.injEq] at he
      rw [← he.2] at hm
      cases h : (stealStep c s.mem pc).2 <;> simp [h] at hm
    | pop pc =>
      rw [hl] at hown
      simp only [hl, bufferProgram, exec, Option.some.injEq, Prod.mk.injEq] at he
      rw [← he.2] at hm
      show s.mem.claimed.length = s.mem.pushed.length
      cases pc with
      | readLow h =>
        obtain ⟨hrest, hh⟩ := hown
        have hle := hI.le hrest.1
        by_cases hlt : h > s.mem.low
        · simp [popStep, hlt] at hm
        · omega
      | addLow h =>
        obtain ⟨hrest, hh⟩ := hown
        have hle := hI.le hrest.1
        obtain ⟨hne, hbound⟩ := hlast (by rw [hl]; rfl)
        by_cases hge : (s.mem.low + 1) % 2 ^ 64 ≥ h
        · rw [Nat.mod_eq_of_lt hbound] at hge
          omega
        · simp only [popStep, if_neg hge] at hm
          simp at hm
      | writeLow h => exact absurd (.inr ⟨h, hl⟩) hn
      | _ => simp [popStep] at hm

/-- **Nothing is lost or duplicated in careful runs**: any number of thieves,
fewer than `2 ^ 64` pushes, and no pop that adds to `low` when exactly one item
is left. -/
theorem fifoStealBuffer_exactly_once
    (run : Run Init ((bufferProgram c master).StepIf NotLast) s hist)
    (hlen : s.mem.pushed.length < 2 ^ 64) : BufferPromise c master s hist := by
  have hcareful : Run Init ((bufferProgram c master).StepIf Careful) s hist := by
    refine (run.bounded ?_ hlen).mono fun t s s' h => ⟨⟨h.1, h.2.1⟩, h.2.2⟩
    intro t s s' hs h
    obtain ⟨a, he⟩ := hs.2.exec
    exact Nat.lt_of_le_of_lt (pushed_le_of_exec c master t he) h
  obtain ⟨g, hI, hL⟩ := fifoStealBuffer_invariant hcareful
  have hnodup : (s.mem.taken.map Prod.fst ++ g.owed.toList).Nodup := by
    rw [hI.handed.nodup_iff, hI.claimed]
    exact List.nodup_range
  have hrest : s.loc master = .idle → Rests g := by
    intro hidle
    have hown := (hL master).own rfl
    rw [hidle] at hown
    exact hown
  constructor
  case once => exact (List.nodup_append.mp hnodup).1
  case values => exact hI.values
  case order => rw [hI.claimed_length, ← hI.claimed]
  case calls => exact linearizableTo_history hcareful
  case claimed =>
    intro e he
    exact hI.handed.subset (List.mem_append_left _ (List.mem_map_of_mem he))
  case bounds =>
    intro hidle
    have hle := hI.le (hrest hidle).1
    have := hI.room
    exact ⟨hle, by omega, hI.high⟩
  case left =>
    intro hidle i hi
    obtain ⟨hover, howed⟩ := hrest hidle
    have hle := hI.le hover
    refine ⟨?_, fun hlow => hI.slots i hlow hi⟩
    have hmem : i ∈ s.mem.taken.map Prod.fst ↔ i < s.mem.low := by
      have hperm := hI.handed
      rw [howed, Option.toList_none, List.append_nil] at hperm
      rw [hperm.mem_iff, hI.claimed, List.mem_range]
      omega
    rw [hmem]
    omega
  case pushFails => exact pushFails_during hcareful
  case popFails => exact popFails_during hcareful

end Runs

/-- `fifo_steal_buffer_init(fifo, 1)`. -/
def two : Capacity := ⟨1, by omega, by omega⟩

/-- The master pushes 7 and 8 and pops 7, while thread 1 steals 8; a further pop
finds nothing. -/
theorem fifoStealBuffer_exactly_once_pop_and_steal :
    ∃ (s : Config Nat (Buffer Nat) (Pc Nat)) (hist : _),
      Run Init ((bufferProgram two 0).StepIf NotLast) s hist ∧ s.mem.pushed.length < 2 ^ 64 ∧
        s.mem.taken = [(1, 8), (0, 7)] ∧ s.loc 0 = .popRet none ∧ BufferPromise two 0 s hist := by
  have hstart : Run Init ((bufferProgram (ι := Nat) two 0).StepIf NotLast) (initial 0) [] :=
    .start ⟨rfl, rfl, rfl, rfl, rfl, fun _ => rfl⟩
  obtain ⟨s, hist, run, hpushed, htaken, hpop⟩ := hstart.exists_of_scheduleIf
    (q := fun s => s.mem.pushed = [7, 8] ∧ s.mem.taken = [(1, 8), (0, 7)] ∧
      s.loc 0 = .popRet none)
    (List.flatten [[(0, .push 7)], List.replicate 5 (0, .step), [(0, .push 8)],
      List.replicate 5 (0, .step), [(0, .pop)], List.replicate 3 (0, .step), [(1, .steal)],
      List.replicate 4 (1, .step), List.replicate 2 (0, .step), [(0, .pop)],
      List.replicate 2 (0, .step)])
    (by decide +kernel)
  have hlen : s.mem.pushed.length < 2 ^ 64 := by
    rw [hpushed]
    decide
  exact ⟨s, hist, run, hlen, htaken, hpop, fifoStealBuffer_exactly_once run hlen⟩

/-- **The last item is dropped**: the master pushes 7 into an empty buffer, and
its next pop returns 0 and leaves `low = high`. -/
theorem fifoStealBuffer_drops_last : ¬ ∀ (s : Config Nat (Buffer Nat) (Pc Nat)) hist,
    Run Init (bufferProgram two 0).Step s hist → s.mem.pushed.length < 2 ^ 64 →
      BufferPromise two 0 s hist := by
  intro hclaim
  have hstart : Run Init (bufferProgram (ι := Nat) two 0).Step (initial 0) [] :=
    .start ⟨rfl, rfl, rfl, rfl, rfl, fun _ => rfl⟩
  obtain ⟨s, hist, run, hpushed, hhigh, hlow, htaken, hidle⟩ := hstart.exists_of_schedule
    (q := fun s => s.mem.pushed = [7] ∧ s.mem.high = 1 ∧ s.mem.low = 1 ∧ s.mem.taken = [] ∧
      s.loc 0 = .idle)
    (List.flatten [[(0, .push 7)], List.replicate 5 (0, .step), [(0, .pop)],
      List.replicate 5 (0, .step)])
    (by decide +kernel)
  have hlen : s.mem.pushed.length < 2 ^ 64 := by
    rw [hpushed]
    decide
  obtain ⟨hleft, -⟩ := (hclaim s hist run hlen).left hidle 0 (by omega)
  rw [htaken, hlow] at hleft
  simp at hleft

end FibConcurrent.FifoStealBuffer
