import FibConcurrent.LockfreeRingBuffer.Calls
import FibConcurrent.LockfreeRingBuffer.Invariant

/-!
# LockfreeRingBuffer — a bounded exactly-once FIFO

Every access keeps the assertion (`ringAssertion_kept`); what runs with fewer
than `2 ^ 64` pushes promise (`ringPromise_of_run`, `lockfreeRingBuffer_exactly_once`) is read
off it. `lockfree_ring_buffer_size` reads `high` first, to look less than or equal to the actual
size, but it takes the difference as an `int64_t`: when more than `2 ^ 63` pops fall between the two
reads, one that is more negative than that comes out positive, and far above the capacity
(`lockfreeRingBuffer_size_unbounded`).
-/

namespace FibConcurrent.LockfreeRingBuffer

open FibConcurrent.Machine FibConcurrent.Data

variable {ι α : Type*} {c : Capacity}

/-- Fewer than `2 ^ 64` pushes have succeeded after the step. -/
def FewPushes (_t : ι) (_m : Ring α) (_pc : Pc α) (m' : Ring α) : Prop :=
  m'.pushed.length < 2 ^ 64

/-- Nothing is ever taken out of the push history. -/
theorem pushed_le_of_exec {t : ι} {a : Choice α} {m m' : Ring α} {pc pc' : Pc α}
    (he : exec c t a m pc = some (m', pc')) : m.pushed.length ≤ m'.pushed.length := by
  cases pc with
  | idle =>
    cases a <;> simp only [exec, Option.some.injEq, Prod.mk.injEq, reduceCtorEq] at he
    all_goals rw [← he.1]
  | push pc =>
    simp only [exec, Option.some.injEq, Prod.mk.injEq] at he
    rw [← he.1]
    cases pc with
    | readSlot v l h =>
      simp only [pushStep]
      split <;> exact Nat.le_refl _
    | swapHigh v l h =>
      simp only [pushStep]
      split <;> simp
    | _ => exact Nat.le_refl _
  | pop pc =>
    simp only [exec, Option.some.injEq, Prod.mk.injEq] at he
    rw [← he.1]
    cases pc with
    | readSlot h l =>
      simp only [popStep]
      repeat' split
      all_goals exact Nat.le_refl _
    | swapLow l v =>
      simp only [popStep]
      split <;> exact Nat.le_refl _
    | _ => exact Nat.le_refl _
  | _ =>
    simp only [exec, Option.some.injEq, Prod.mk.injEq] at he
    rw [← he.1]

/-- **Every step of every thread keeps the assertion.** -/
theorem ringAssertion_kept :
    (ringAssertion (ι := ι) (α := α) c).Kept (ringProgram c) FewPushes := by
  intro t a m pc m' pc' g hI hL hlen he
  have hfew : m.pushed.length < 2 ^ 64 := Nat.lt_of_le_of_lt (pushed_le_of_exec (t := t) he) hlen
  have hcall := hL.call
  have hw := hL.writing
  have hc := hL.clearing
  have hstay : ∀ u, u ≠ t → ∀ k, ThreadFacts c u m g k → ThreadFacts c u m g k :=
    fun _ _ _ h => h
  simp only [ringProgram, exec] at he
  cases pc with
  | idle =>
    cases a <;> simp only [Option.some.injEq, Prod.mk.injEq, reduceCtorEq] at he
    all_goals
      obtain ⟨rfl, rfl⟩ := he
      exact ⟨g, hI, ⟨trivial, fun i hi => by simpa using hw i hi,
        fun i hi => by simpa using hc i hi⟩, hstay⟩
  | push pc =>
    simp only [Option.some.injEq, Prod.mk.injEq] at he
    obtain ⟨rfl, rfl⟩ := he
    obtain ⟨g', hI', hp, hw', hc', hk⟩ :=
      pushStep_spec hI hcall (fun i hi => by simpa using hw i hi) hlen
    refine ⟨g', hI', ⟨?_, fun i hi => ?_, fun i hi => ?_⟩, fun u hu k h => h.keep (hk u hu)⟩
    · cases hnext : (pushStep c m pc).2 with
      | inl pc' => exact hp pc' hnext
      | inr r => trivial
    · obtain ⟨v, hv⟩ := hw' i hi
      exact ⟨v, by rw [hv]⟩
    · simpa using hc i (hc' ▸ hi)
  | pop pc =>
    simp only [Option.some.injEq, Prod.mk.injEq] at he
    obtain ⟨rfl, rfl⟩ := he
    obtain ⟨g', hI', hp, hc', hw', hk⟩ :=
      popStep_spec hI hcall (fun i hi => by simpa using hc i hi) hfew
    refine ⟨g', hI', ⟨?_, fun i hi => ?_, fun i hi => ?_⟩, fun u hu k h => h.keep (hk u hu)⟩
    · cases hnext : (popStep c m pc).2 with
      | inl pc' => exact hp pc' hnext
      | inr r => trivial
    · simpa using hw i (hw' ▸ hi)
    · obtain ⟨v, hv⟩ := hc' i hi
      exact ⟨v, by rw [hv]⟩
  | size pc =>
    simp only [Option.some.injEq, Prod.mk.injEq] at he
    obtain ⟨rfl, rfl⟩ := he
    obtain ⟨hp, hret⟩ := sizeStep_spec hI hcall hfew
    refine ⟨g, hI, ⟨?_, fun i hi => by simpa using hw i hi, fun i hi => by simpa using hc i hi⟩,
      hstay⟩
    cases hnext : sizeStep m pc with
    | inl pc' => exact hp pc' hnext
    | inr r => exact hret r.1 r.2 hnext
  | _ =>
    simp only [Option.some.injEq, Prod.mk.injEq] at he
    obtain ⟨rfl, rfl⟩ := he
    exact ⟨g, hI, ⟨trivial, fun i hi => by simpa using hw i hi,
      fun i hi => by simpa using hc i hi⟩, hstay⟩

theorem ringAssertion_init {s : Config ι (Ring α) (Pc α)} (h : Init s) :
    (ringAssertion c).Holds s := by
  obtain ⟨hmem, hidle⟩ := h
  refine ⟨⟨fun _ => none, fun _ => none⟩, ?_, fun t => ?_⟩
  · rw [hmem]
    constructor <;> simp [create]
  · rw [hidle t]
    exact ⟨trivial, by simp, by simp⟩

/-! ## An operation that runs alone -/

section Alone

variable {t : ι} {m : Ring α} {g : Ghost ι}

/-- With no index claimed and room left, the slot of the next index is null. -/
theorem Inv.slot_high_of_room (hI : Inv c m g) (hc : ∀ i, g.clearing i = none)
    (hroom : m.high < m.low + c.size) : m.buffer (c.slot m.high) = none := by
  by_cases hfirst : m.high < c.size
  · exact hI.slot_fresh m.high (Nat.le_refl _) hfirst
  · have hlap : c.slot m.high = c.slot (m.high - c.size) := by
      rw [← c.slot_add_size (m.high - c.size)]
      congr 1
      omega
    rw [hlap]
    exact hI.slot_taken _ (by omega) (by omega) (hc _)

/-- With no index claimed and a value left, the slot of the oldest index holds it. -/
theorem Inv.slot_low_of_stored (hI : Inv c m g) (hw : ∀ i, g.writing i = none)
    (hlt : m.low < m.high) : ∃ v, m.buffer (c.slot m.low) = some v := by
  have hlen : m.low < m.pushed.length := hI.high ▸ hlt
  refine ⟨m.pushed[m.low], ?_⟩
  rw [hI.slot_stored m.low hlt hI.room (hw _) (.inl (Nat.le_refl _)),
    List.getElem?_eq_getElem hlen]

/-- A push alone, finding a null slot and room. -/
theorem runAlone_trypush (hslot : m.buffer (c.slot m.high) = none)
    (hroom : wrapSub m.high m.low < c.size) (v : α) :
    (ringProgram c).runAlone t (.trypush v :: List.replicate 5 .step) m .idle =
      some ({ m with
        high := (m.high + 1) % 2 ^ 64
        pushed := m.pushed ++ [v]
        buffer := Function.update m.buffer (c.slot m.high) (some v) }, .pushRet true) := by
  have hok : m.buffer (c.slot m.high) = none ∧ wrapSub m.high m.low < c.size := ⟨hslot, hroom⟩
  simp [Program.runAlone, ringProgram, exec, pushStep, List.replicate, hok, swapCounter]

/-- A pop alone, finding a value. -/
theorem runAlone_trypop {v : α} (hslot : m.buffer (c.slot m.low) = some v)
    (hlt : m.low < m.high) :
    (ringProgram c).runAlone t (.trypop :: List.replicate 5 .step) m .idle =
      some ({ m with
        low := (m.low + 1) % 2 ^ 64
        popped := m.popped ++ [v]
        buffer := Function.update m.buffer (c.slot m.low) none }, .popRet (some v)) := by
  simp [Program.runAlone, ringProgram, exec, popStep, List.replicate, hslot, hlt, swapCounter]

theorem trypush_alone (hI : Inv c m g) (hc : ∀ i, g.clearing i = none)
    (hlen : m.pushed.length < 2 ^ 64) (v : α) :
    ∃ k m' stored, (ringProgram c).runAlone t (.trypush v :: List.replicate k .step) m .idle =
        some (m', .pushRet stored) ∧
      (stored = false ↔ m.pushed.length = m.popped.length + c.size) := by
  have hhigh := hI.high
  have hlow := hI.low
  have hle := hI.le
  have hroom := hI.room
  have hsub : wrapSub m.high m.low = m.high - m.low := wrapSub_of_le hle (by omega)
  by_cases hfull : m.high < m.low + c.size
  · refine ⟨5, _, true, runAlone_trypush (hI.slot_high_of_room hc hfull) (by omega) v, ?_⟩
    simp only [Bool.true_eq_false, false_iff]
    omega
  · have hno : ¬ (m.buffer (c.slot m.high) = none ∧ wrapSub m.high m.low < c.size) := by
      rintro ⟨-, h⟩
      omega
    refine ⟨3, m, false, ?_, ?_⟩
    · simp only [Program.runAlone, ringProgram, exec, pushStep, List.replicate,
        Option.bind_some, if_neg hno]
    · simp only [true_iff]
      omega

theorem trypop_alone (hI : Inv c m g) (hw : ∀ i, g.writing i = none) :
    ∃ k m' val, (ringProgram c).runAlone t (.trypop :: List.replicate k .step) m .idle =
        some (m', .popRet val) ∧ (val = none ↔ m.pushed.length = m.popped.length) := by
  have hhigh := hI.high
  have hlow := hI.low
  have hle := hI.le
  by_cases hlt : m.low < m.high
  · obtain ⟨v, hslot⟩ := hI.slot_low_of_stored hw hlt
    refine ⟨5, _, some v, runAlone_trypop hslot hlt, ?_⟩
    simp only [reduceCtorEq, false_iff]
    omega
  · refine ⟨3, m, none, ?_, ?_⟩
    · cases hslot : m.buffer (c.slot m.low) <;>
        simp [Program.runAlone, ringProgram, exec, popStep, List.replicate, hslot, hlt]
    · simp only [true_iff]
      omega

end Alone

/-! ## The size -/

/-- What `lockfree_ring_buffer_size` has read from `high`, when it reads `low`. -/
def Pc.sizeHigh : Pc α → Option Nat
  | .size (.readLow high _) => some high
  | _ => none

/-- When `lockfree_ring_buffer_size` reads it, `low` is at most `2 ^ 63` past the `high` that was
read before, or so near to `2 ^ 64` past it that the difference has come round to a size again. -/
def SizeInRange (c : Capacity) (_t : ι) (m : Ring α) (pc : Pc α) (_m' : Ring α) : Prop :=
  ∀ high ∈ pc.sizeHigh, m.low ≤ high + 2 ^ 63 ∨ high + 2 ^ 64 ≤ m.low + c.size

instance (t : ι) (m : Ring α) (pc : Pc α) (m' : Ring α) : Decidable (SizeInRange c t m pc m') :=
  inferInstanceAs (Decidable (∀ high ∈ pc.sizeHigh, _ ∨ _))

/-- The condition is exact. -/
theorem sizeStep_le_iff {m : Ring α} {g : Ghost ι} {high k n gap : Nat} (hI : Inv c m g)
    (hp : SizeFacts c m (.readLow high k)) (hlen : m.pushed.length < 2 ^ 64)
    (he : sizeStep m (.readLow high k) = .inr (n, gap)) :
    n ≤ c.size ↔ m.low ≤ high + 2 ^ 63 ∨ high + 2 ^ 64 ≤ m.low + c.size := by
  have hhigh := hI.high
  have hle := hI.le
  obtain ⟨-, -, hle', hroom⟩ := hp
  obtain ⟨rfl, -⟩ := Prod.mk.inj (Sum.inr.inj he)
  unfold clampedSize
  by_cases hcmp : m.low ≤ high
  · rw [wrapSub_of_le hcmp (by omega)]
    split <;> omega
  · rw [wrapSub_of_lt (by omega)]
    split <;> omega

/-- The access at which a size is decided. -/
theorem readLow_of_exec {t : ι} {a : Choice α} {m m' : Ring α} {pc : Pc α} {n gap : Nat}
    (he : exec c t a m pc = some (m', .sizeRet n gap)) :
    ∃ high k, pc = .size (.readLow high k) ∧ sizeStep m (.readLow high k) = .inr (n, gap) := by
  cases pc with
  | idle => cases a <;> simp [exec] at he
  | push pc =>
    obtain ⟨-, heq⟩ := Prod.mk.inj (Option.some.inj he)
    cases hnext : (pushStep c m pc).2 <;> simp [hnext] at heq
  | pop pc =>
    obtain ⟨-, heq⟩ := Prod.mk.inj (Option.some.inj he)
    cases hnext : (popStep c m pc).2 <;> simp [hnext] at heq
  | size pc =>
    obtain ⟨-, heq⟩ := Prod.mk.inj (Option.some.inj he)
    cases pc with
    | readHigh => simp [sizeStep] at heq
    | readLow high k =>
      obtain ⟨rfl, rfl⟩ := Pc.sizeRet.inj heq
      exact ⟨high, k, rfl, rfl⟩
  | _ => simp [exec] at he

/-! ## A size call that is suspended between its reads -/

theorem one_lt_thirtyTwo : 1 < 32 := by decide

/-- `lockfree_ring_buffer_create(1)`: two slots. -/
def two : Capacity := ⟨1, Nat.one_pos, one_lt_thirtyTwo⟩

/-- After `n` pushes, each popped again: the ring is empty. -/
def cycled (n : Nat) : Ring Nat where
  high := n
  low := n
  buffer := fun _ => none
  pushed := List.replicate n 7
  popped := List.replicate n 7

/-- What a thread does to push a value and to pop it again. -/
def pushPop : List (Choice Nat) :=
  (.trypush 7 :: List.replicate 5 .step) ++ ([.step] ++
    ((.trypop :: List.replicate 5 .step) ++ [.step]))

theorem cycled_succ (t n : Nat) (hn : n + 1 < 2 ^ 64) :
    (ringProgram two).runAlone t pushPop (cycled n) .idle = some (cycled (n + 1), .idle) := by
  have hsub : wrapSub n n = 0 := by
    rw [wrapSub_of_le (Nat.le_refl n) (by omega), Nat.sub_self]
  have hpush := runAlone_trypush (c := two) (t := t) (m := cycled n) rfl
    (by rw [show wrapSub (cycled n).high (cycled n).low = 0 from hsub]; exact two.size_pos) 7
  have hmod : (n + 1) % 2 ^ 64 = n + 1 := Nat.mod_eq_of_lt hn
  unfold pushPop
  rw [Program.runAlone_append hpush]
  generalize hm : ({ cycled n with
    high := ((cycled n).high + 1) % 2 ^ 64
    pushed := (cycled n).pushed ++ [7]
    buffer := Function.update (cycled n).buffer (two.slot (cycled n).high) (some 7) } : Ring Nat) = m
  have hret : (ringProgram two).runAlone t [.step] m (.pushRet true) = some (m, .idle) := rfl
  have hlow : m.low = n := by rw [← hm]; rfl
  have hhigh : m.high = n + 1 := by rw [← hm]; exact hmod
  have hpop := runAlone_trypop (c := two) (t := t) (m := m) (v := 7)
    (by rw [hlow, ← hm]; exact Function.update_self ..) (by omega)
  rw [Program.runAlone_append hret, Program.runAlone_append hpop]
  have hpushed : m.pushed = List.replicate (n + 1) 7 := by
    rw [← hm]
    exact List.replicate_succ'.symm
  have hpopped : m.popped ++ [7] = List.replicate (n + 1) 7 := by
    rw [← hm]
    exact List.replicate_succ'.symm
  have hbuffer : Function.update m.buffer (two.slot m.low) none = fun _ => none := by
    rw [hlow, ← hm]
    show Function.update (Function.update (fun _ => none) (two.slot n) (some 7)) (two.slot n) none =
      fun _ => none
    rw [Function.update_idem, Function.update_eq_self_iff]
  rw [hbuffer, hpopped, hlow, hmod]
  show some (({ m with low := n + 1, popped := _, buffer := _ } : Ring Nat), Pc.idle) = _
  rw [hhigh, hpushed]
  rfl

/-- Thread 0 has read `high` of the new ring, and thread 1 goes on from there. -/
theorem run_cycled (n : Nat) (hn : n < 2 ^ 64) : ∃ hist, Run Init (ringProgram two).Step
    ⟨cycled n, Function.update (fun _ => .idle) 0 (.size (.readLow 0 0))⟩ hist := by
  induction n with
  | zero =>
    have hstart : Run Init (ringProgram (ι := Nat) (α := Nat) two).Step initial [] :=
      .start ⟨rfl, fun _ => rfl⟩
    exact hstart.alone (t := 0) [.size, .step] rfl rfl
  | succ n ih =>
    obtain ⟨hist, run⟩ := ih (by omega)
    obtain ⟨hist', run'⟩ := run.alone (t := 1) pushPop (by simp) (cycled_succ 1 n hn)
    refine ⟨hist', ?_⟩
    rwa [Function.update_eq_self_iff.mpr] at run'
    simp

/-! ## Runs -/

section Runs

variable [DecidableEq ι] {s : Config ι (Ring α) (Pc α)}
  {hist : List (Event ι (Config ι (Ring α) (Pc α)))}

/-- The assertion holds in every state that is reached with fewer than `2 ^ 64`
pushes. -/
theorem lockfreeRingBuffer_invariant (run : Run Init (ringProgram c).Step s hist)
    (hlen : s.mem.pushed.length < 2 ^ 64) : (ringAssertion c).Holds s := by
  have hback : ∀ t (s s' : Config ι (Ring α) (Pc α)), (ringProgram c).Step t s s' →
      s'.mem.pushed.length < 2 ^ 64 → s.mem.pushed.length < 2 ^ 64 := by
    intro t s s' hs h
    obtain ⟨a, he⟩ := hs.exec
    exact Nat.lt_of_le_of_lt (pushed_le_of_exec (t := t) he) h
  exact ringAssertion_kept.run (fun _ h => ringAssertion_init h) (run.bounded hback hlen)

/-- What the ring promises in every state `s`. -/
structure RingPromise (c : Capacity) (s : Config ι (Ring α) (Pc α)) : Prop where
  bounds : s.mem.low ≤ s.mem.high ∧ s.mem.high - s.mem.low ≤ c.size
  /-- The counters count the successful swaps, and the k-th pop took the value
  of the k-th push. -/
  order : s.mem.high = s.mem.pushed.length ∧ s.mem.low = s.mem.popped.length ∧
    s.mem.popped = s.mem.pushed.take s.mem.low
  /-- A value that is pushed and not popped is in its slot, or its push is still
  about to store it there. -/
  stored : ∀ i, s.mem.low ≤ i → i < s.mem.high → s.mem.buffer (c.slot i) = s.mem.pushed[i]? ∨
    ∃ t v, s.loc t = .push (.writeSlot v i) ∧ s.mem.pushed[i]? = some v
  /-- A push stores its value over null, before the value is popped. -/
  store : ∀ t v i, s.loc t = .push (.writeSlot v i) → s.mem.low ≤ i ∧ i < s.mem.high ∧
    s.mem.buffer (c.slot i) = none ∧ s.mem.pushed[i]? = some v
  /-- A pop clears its own value, before a later push has claimed the slot. -/
  clear : ∀ t v i, s.loc t = .pop (.clearSlot i v) → i < s.mem.low ∧
    s.mem.high ≤ i + c.size ∧ s.mem.buffer (c.slot i) = some v ∧ s.mem.pushed[i]? = some v
  /-- The size is at most the capacity, if at most `2 ^ 63` pops fell between
  its two reads. -/
  size : ∀ t n gap, s.loc t = .sizeRet n gap → gap ≤ 2 ^ 63 → n ≤ c.size
  /-- With no operation in progress a push fails exactly on a full ring. -/
  push_alone : (∀ u, s.loc u = .idle) → ∀ (t : ι) v, ∃ k m' stored,
    (ringProgram c).runAlone t (.trypush v :: List.replicate k .step) s.mem .idle =
      some (m', .pushRet stored) ∧
    (stored = false ↔ s.mem.pushed.length = s.mem.popped.length + c.size)
  /-- With no operation in progress a pop fails exactly on an empty ring. -/
  pop_alone : (∀ u, s.loc u = .idle) → ∀ t : ι, ∃ k m' val,
    (ringProgram c).runAlone t (.trypop :: List.replicate k .step) s.mem .idle =
      some (m', .popRet val) ∧
    (val = none ↔ s.mem.pushed.length = s.mem.popped.length)

theorem ringPromise_of_run (run : Run Init (ringProgram c).Step s hist)
    (hlen : s.mem.pushed.length < 2 ^ 64) : RingPromise c s := by
  obtain ⟨g, hI, hL⟩ := lockfreeRingBuffer_invariant run hlen
  have hle := hI.le
  have hroom := hI.room
  have hcall : ∀ t pc, s.loc t = pc → threadFacts c t s.mem g pc := fun t pc h =>
    h ▸ (hL t).call
  have hquiet : (∀ u, s.loc u = .idle) → (∀ i, g.writing i = none) ∧ ∀ i, g.clearing i = none := by
    intro hidle
    constructor
    · intro i
      cases h : g.writing i with
      | none => rfl
      | some t =>
        obtain ⟨v, hv⟩ := (hL t).writing i h
        simp [hidle t] at hv
    · intro i
      cases h : g.clearing i with
      | none => rfl
      | some t =>
        obtain ⟨v, hv⟩ := (hL t).clearing i h
        simp [hidle t] at hv
  constructor
  case bounds => exact ⟨hle, by omega⟩
  case order => exact ⟨hI.high, hI.low, hI.popped⟩
  case stored =>
    intro i hi hlt
    cases hw : g.writing i with
    | none => exact .inl (hI.slot_stored i hlt (by omega) hw (.inl hi))
    | some t =>
      obtain ⟨v, hv⟩ := (hL t).writing i hw
      exact .inr ⟨t, v, hv, (hcall t _ hv).2⟩
  case store =>
    intro t v i ht
    obtain ⟨hw, hv⟩ := hcall t _ ht
    have hne : g.writing i ≠ none := by simp [show g.writing i = some t from hw]
    exact ⟨(hI.writing i hne).1, (hI.writing i hne).2, hI.slot_writing i hne, hv⟩
  case clear =>
    intro t v i ht
    obtain ⟨hc, hv⟩ := hcall t _ ht
    have hne : g.clearing i ≠ none := by simp [show g.clearing i = some t from hc]
    obtain ⟨w, hw, hslot⟩ := hI.slot_clearing hne
    have heq : w = v := Option.some.inj (hw.symm.trans hv)
    exact ⟨(hI.clearing i hne).1, (hI.clearing i hne).2, heq ▸ hslot, hv⟩
  case size => exact fun t n gap ht => hcall t _ ht
  case push_alone =>
    intro hidle t v
    exact trypush_alone hI (hquiet hidle).2 hlen v
  case pop_alone =>
    intro hidle t
    exact trypop_alone hI (hquiet hidle).1

/-- The promises of a bounded exactly-once FIFO in state `s`, reached by `hist`. -/
structure FifoPromise (c : Capacity) (s : Config ι (Ring α) (Pc α))
    (hist : List (Event ι (Config ι (Ring α) (Pc α)))) : Prop extends RingPromise c s where
  /-- `pushed` and `popped` are what the calls have done: each pop that has returned a value has
  appended this value to `popped`, and each push that has returned 1 its value to `pushed`, once and
  at one instant of the call; no other call but one in progress has appended anything. -/
  calls : LinearizableTo (ringHistory α) (tryInterface.trace hist) (s.mem.pushed, s.mem.popped)
  /-- The size is never more than the capacity. -/
  size_le : ∀ t n gap, s.loc t = .sizeRet n gap → n ≤ c.size

theorem size_le_of_run (run : Run Init ((ringProgram c).StepIf (SizeInRange c)) s hist)
    (hlen : s.mem.pushed.length < 2 ^ 64) {t : ι} {n gap : Nat}
    (hret : s.loc t = .sizeRet n gap) : n ≤ c.size := by
  have hall : s.mem.pushed.length < 2 ^ 64 →
      ∀ t n gap, s.loc t = .sizeRet n gap → n ≤ c.size := by
    refine run.invariant_hist (J := fun s _ => s.mem.pushed.length < 2 ^ 64 →
      ∀ t n gap, s.loc t = .sizeRet n gap → n ≤ c.size) ?_ ?_
    · rintro s ⟨-, hidle⟩ - t n gap ht
      rw [hidle t] at ht
      cases ht
    · intro u s s' hist hr ih hs hlen t n gap ht
      obtain ⟨a, he⟩ := hs.2.exec
      have hfew : s.mem.pushed.length < 2 ^ 64 :=
        Nat.lt_of_le_of_lt (pushed_le_of_exec (t := u) he) hlen
      by_cases hut : u = t
      · subst hut
        rw [ht] at he
        obtain ⟨high, k, hpc, hstep⟩ := readLow_of_exec (t := u) he
        obtain ⟨g, hI, hL⟩ := lockfreeRingBuffer_invariant (hr.mono fun _ _ _ h => h.2) hfew
        have hcall := (hL u).call
        rw [hpc] at hcall
        exact (sizeStep_le_iff hI hcall hfew hstep).mpr (hs.1 high (by rw [hpc]; rfl))
      · rw [hs.2.loc_of_ne (Ne.symm hut)] at ht
        exact ih hfew t n gap ht
  exact hall hlen t n gap hret

/-- **`lockfree_ring_buffer` is a bounded exactly-once FIFO**, for any number of
threads and fewer than `2 ^ 64` pushes, in every run in which `low` does not run away between the
two reads of `lockfree_ring_buffer_size`. -/
theorem lockfreeRingBuffer_exactly_once
    (run : Run Init ((ringProgram c).StepIf (SizeInRange c)) s hist)
    (hlen : s.mem.pushed.length < 2 ^ 64) : FifoPromise c s hist := by
  have hrun : Run Init (ringProgram c).Step s hist := run.mono fun _ _ _ h => h.2
  exact ⟨ringPromise_of_run hrun hlen, linearizableTo_history hrun,
    fun t n gap => size_le_of_run run hlen⟩

end Runs

/-- Thread 1 pushes 7 and pops it again between the two reads of thread 0, which reports 0, and has
pushed 8 and 9 before thread 0 reports 2. -/
theorem lockfreeRingBuffer_exactly_once_sizes :
    ∃ (s : Config Nat (Ring Nat) (Pc Nat)) (hist : _),
      Run Init ((ringProgram two).StepIf (SizeInRange two)) s hist ∧
        s.mem.pushed.length < 2 ^ 64 ∧ s.mem.pushed = [7, 8, 9] ∧ s.loc 0 = .sizeRet 2 0 ∧
        s.loc 1 = .pushRet false ∧ FifoPromise two s hist := by
  have hstart : Run Init ((ringProgram (ι := Nat) (α := Nat) two).StepIf (SizeInRange two))
      initial [] := .start ⟨rfl, fun _ => rfl⟩
  obtain ⟨s, hist, run, hlen, hpushed, hsize, hfull⟩ := hstart.exists_of_historyIf
    (q := fun s _ => s.mem.pushed.length < 2 ^ 64 ∧ s.mem.pushed = [7, 8, 9] ∧
      s.loc 0 = .sizeRet 2 0 ∧ s.loc 1 = .pushRet false)
    (List.flatten [[(0, .size), (0, .step)], (1, .trypush 7) :: List.replicate 6 (1, .step),
      (1, .trypop) :: List.replicate 6 (1, .step), [(0, .step), (0, .step)],
      (1, .trypush 8) :: List.replicate 6 (1, .step),
      (1, .trypush 9) :: List.replicate 6 (1, .step), [(0, .size), (0, .step), (0, .step)],
      (1, .trypush 10) :: List.replicate 3 (1, .step)])
    (by decide +kernel)
  exact ⟨s, hist, run, hlen, hpushed, hsize, hfull, lockfreeRingBuffer_exactly_once run hlen⟩

/-- After `2 ^ 63 + 1` pushes and pops between the two reads, a ring of two
slots reports `2 ^ 63 - 1` values. -/
theorem lockfreeRingBuffer_size_unbounded : ¬ ∀ (s : Config Nat (Ring Nat) (Pc Nat)) hist,
    Run Init (ringProgram two).Step s hist → s.mem.pushed.length < 2 ^ 64 →
      FifoPromise two s hist := by
  intro hclaim
  obtain ⟨n, hn⟩ : ∃ n, n = 2 ^ 63 + 1 := ⟨_, rfl⟩
  obtain ⟨hist, run⟩ := run_cycled n (by omega)
  have hsize : clampedSize 0 n = 2 ^ 63 - 1 := by
    unfold clampedSize
    rw [wrapSub_of_lt (by omega), if_pos (by omega)]
    omega
  have hread : (ringProgram two).runAlone 0 [.step] (cycled n) (.size (.readLow 0 0)) =
      some (cycled n, .sizeRet (2 ^ 63 - 1) n) := by
    rw [← hsize]
    simp [Program.runAlone, ringProgram, exec, sizeStep, cycled]
  obtain ⟨hist', run'⟩ := run.alone (t := 0) [.step] (by simp) hread
  have hpushed : (cycled n).pushed.length = n := List.length_replicate
  have hpromise := hclaim _ _ run' (by rw [hpushed]; omega)
  have hle := hpromise.size_le 0 (2 ^ 63 - 1) n (by simp)
  have htwo : two.size = 2 := rfl
  omega

end FibConcurrent.LockfreeRingBuffer
