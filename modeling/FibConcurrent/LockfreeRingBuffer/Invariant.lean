import FibConcurrent.LockfreeRingBuffer.Model

/-!
# LockfreeRingBuffer — slots that lag behind the counters

A claimed index is `writing` until its push has stored the value, and
`clearing` until its pop has nulled the slot. Only the latest index of each
slot matters (`high ≤ i + size`): its slot is null while it is written, holds
its value from then on until it is cleared, and is null again afterwards. A push
finds a null slot and fewer than `size` values, so the index one lap earlier
has been cleared; a pop finds a non-null slot, so its index has been written.
-/

namespace FibConcurrent.LockfreeRingBuffer

open FibConcurrent.Machine FibConcurrent.Data

variable {ι α : Type*} {c : Capacity}

/-- Ghost: the indices claimed by a push that has not stored its value, and by
a pop that has not cleared its slot. -/
structure Ghost (ι : Type*) where
  writing : Nat → Option ι
  clearing : Nat → Option ι

structure Inv (c : Capacity) (m : Ring α) (g : Ghost ι) : Prop where
  high : m.high = m.pushed.length
  low : m.low = m.popped.length
  le : m.low ≤ m.high
  room : m.high ≤ m.low + c.size
  popped : m.popped = m.pushed.take m.low
  writing : ∀ i, g.writing i ≠ none → m.low ≤ i ∧ i < m.high
  clearing : ∀ i, g.clearing i ≠ none → i < m.low ∧ m.high ≤ i + c.size
  slot_writing : ∀ i, g.writing i ≠ none → m.buffer (c.slot i) = none
  slot_stored : ∀ i, i < m.high → m.high ≤ i + c.size → g.writing i = none →
    m.low ≤ i ∨ g.clearing i ≠ none → m.buffer (c.slot i) = m.pushed[i]?
  slot_taken : ∀ i, i < m.low → m.high ≤ i + c.size → g.clearing i = none →
    m.buffer (c.slot i) = none
  slot_fresh : ∀ i, m.high ≤ i → i < c.size → m.buffer (c.slot i) = none

def PushFacts (c : Capacity) (t : ι) (m : Ring α) (g : Ghost ι) : PushPc α → Prop
  | .readLow _ => True
  | .readHigh _ l => l ≤ m.low
  | .readSlot _ l h => l ≤ m.low ∧ l ≤ h ∧ h ≤ m.high
  | .swapHigh _ l h => l ≤ m.low ∧ h ≤ m.high ∧ h < l + c.size ∧
      (h = m.high → m.buffer (c.slot h) = none)
  | .writeSlot v h => g.writing h = some t ∧ m.pushed[h]? = some v

def PopFacts (c : Capacity) (t : ι) (m : Ring α) (g : Ghost ι) : PopPc α → Prop
  | .readHigh => True
  | .readLow h => h ≤ m.high
  | .readSlot h l => h ≤ m.high ∧ l ≤ m.low
  | .swapLow l v => l ≤ m.low ∧ l < m.high ∧ (l = m.low → m.buffer (c.slot l) = some v)
  | .clearSlot l v => g.clearing l = some t ∧ m.pushed[l]? = some v

def SizeFacts (c : Capacity) (m : Ring α) : SizePc → Prop
  | .readHigh => True
  | .readLow h k => k ≤ h ∧ k ≤ m.popped.length ∧ h ≤ m.high ∧ h ≤ m.low + c.size

/-- What thread `t` may rely on at each program point. -/
def threadFacts (c : Capacity) (t : ι) (m : Ring α) (g : Ghost ι) : Pc α → Prop
  | .push pc => PushFacts c t m g pc
  | .pop pc => PopFacts c t m g pc
  | .size pc => SizeFacts c m pc
  | .sizeRet n gap => gap ≤ 2 ^ 63 → n ≤ c.size
  | .idle => True
  | .pushRet _ => True
  | .popRet _ => True

/-- A thread knows what its call has established, and the only claimed slot it
has still to store to or to clear is the one its next access is about. -/
structure ThreadFacts (c : Capacity) (t : ι) (m : Ring α) (g : Ghost ι) (pc : Pc α) : Prop where
  call : threadFacts c t m g pc
  writing : ∀ i, g.writing i = some t → ∃ v, pc = .push (.writeSlot v i)
  clearing : ∀ i, g.clearing i = some t → ∃ v, pc = .pop (.clearSlot i v)

def ringAssertion (c : Capacity) : Assertion ι (Ring α) (Ghost ι) (Pc α) where
  shared := Inv c
  thread := ThreadFacts c

/-! ## What the accesses of others leave alone -/

structure Keeps (c : Capacity) (u : ι) (m : Ring α) (g : Ghost ι) (m' : Ring α) (g' : Ghost ι) :
    Prop where
  high : m.high ≤ m'.high
  low : m.low ≤ m'.low
  pushed : m.pushed <+: m'.pushed
  popped : m.popped.length ≤ m'.popped.length
  writing : ∀ i, g'.writing i = some u ↔ g.writing i = some u
  clearing : ∀ i, g'.clearing i = some u ↔ g.clearing i = some u
  slot_high : m'.high = m.high → m.high < m.low + c.size → m.buffer (c.slot m.high) = none →
    m'.buffer (c.slot m.high) = none
  slot_low : m'.low = m.low → m.low < m.high → ∀ v, m.buffer (c.slot m.low) = some v →
    m'.buffer (c.slot m.low) = some v

section Keeps

variable {u : ι} {m m' : Ring α} {g g' : Ghost ι}

theorem keeps_refl (u : ι) (m : Ring α) (g : Ghost ι) : Keeps c u m g m g :=
  ⟨Nat.le_refl _, Nat.le_refl _, List.prefix_rfl, Nat.le_refl _, fun _ => Iff.rfl, fun _ => Iff.rfl,
    fun _ _ h => h, fun _ _ _ h => h⟩

theorem Keeps.getElem? {i : Nat} {v : α} (hk : Keeps c u m g m' g') (h : m.pushed[i]? = some v) :
    m'.pushed[i]? = some v := by
  obtain ⟨rest, hrest⟩ := hk.pushed
  have hlt : i < m.pushed.length := (List.getElem?_eq_some_iff.mp h).1
  rw [← hrest, List.getElem?_append_left hlt]
  exact h

theorem threadFacts.keep {pc : Pc α} (h : threadFacts c u m g pc) (hk : Keeps c u m g m' g') :
    threadFacts c u m' g' pc := by
  have hhigh := hk.high
  have hlow := hk.low
  have hpop := hk.popped
  cases pc with
  | push pc =>
    cases pc with
    | readLow v => trivial
    | readHigh v l => exact Nat.le_trans h hlow
    | readSlot v l h₀ => exact ⟨h.1.trans hlow, h.2.1, h.2.2.trans hhigh⟩
    | swapHigh v l h₀ =>
      obtain ⟨hl, hh, hroom, hslot⟩ := h
      refine ⟨hl.trans hlow, hh.trans hhigh, hroom, fun heq => ?_⟩
      have hcur : h₀ = m.high := by omega
      subst hcur
      exact hk.slot_high heq.symm (by omega) (hslot rfl)
    | writeSlot v h₀ => exact ⟨(hk.writing _).mpr h.1, hk.getElem? h.2⟩
  | pop pc =>
    cases pc with
    | readHigh => trivial
    | readLow h₀ => exact Nat.le_trans h hhigh
    | readSlot h₀ l => exact ⟨h.1.trans hhigh, h.2.trans hlow⟩
    | swapLow l v =>
      obtain ⟨hl, hlt, hslot⟩ := h
      refine ⟨hl.trans hlow, by omega, fun heq => ?_⟩
      have hcur : l = m.low := by omega
      subst hcur
      exact hk.slot_low heq.symm hlt v (hslot rfl)
    | clearSlot l v => exact ⟨(hk.clearing _).mpr h.1, hk.getElem? h.2⟩
  | size pc =>
    cases pc with
    | readHigh => trivial
    | readLow h₀ k =>
      obtain ⟨h1, h2, h3, h4⟩ := h
      exact ⟨h1, by omega, by omega, by omega⟩
  | sizeRet n gap => exact h
  | _ => trivial

theorem ThreadFacts.keep {pc : Pc α} (h : ThreadFacts c u m g pc) (hk : Keeps c u m g m' g') :
    ThreadFacts c u m' g' pc :=
  ⟨h.call.keep hk, fun i hi => h.writing i ((hk.writing i).mp hi),
    fun i hi => h.clearing i ((hk.clearing i).mp hi)⟩

/-- Moving one entry of `t` leaves what other threads have claimed alone. -/
theorem update_claim {claims : Nat → Option ι} {t : ι} {i : Nat} {x : Option ι}
    (hold : claims i = none ∨ claims i = some t) (hx : x = none ∨ x = some t) (hu : u ≠ t)
    (j : Nat) : Function.update claims i x j = some u ↔ claims j = some u := by
  by_cases hj : j = i
  · subst hj
    rw [Function.update_self]
    rcases hold with hold | hold <;> rcases hx with hx | hx <;> simp [hold, hx, Ne.symm hu]
  · rw [Function.update_of_ne hj]

end Keeps

/-! ## The four accesses that write -/

section Step

variable {t : ι} {m : Ring α} {g : Ghost ι}

/-- An index whose slot still waits to be cleared holds its value. -/
theorem Inv.slot_clearing (hI : Inv c m g) {i : Nat} (hi : g.clearing i ≠ none) :
    ∃ v, m.pushed[i]? = some v ∧ m.buffer (c.slot i) = some v := by
  obtain ⟨hlt, hroom⟩ := hI.clearing i hi
  have hlen : i < m.pushed.length := by
    have := hI.high
    have := hI.le
    omega
  have hw : g.writing i = none := by
    by_contra hw
    have := (hI.writing i hw).1
    omega
  have hslot := hI.slot_stored i (by have := hI.le; omega) hroom hw (.inr hi)
  exact ⟨m.pushed[i], List.getElem?_eq_getElem hlen, by
    rw [hslot, List.getElem?_eq_getElem hlen]⟩

/-- A push claims the next index: its slot is null and nobody waits to clear it. -/
theorem Inv.claimHigh {v : α} (hI : Inv c m g) (hroom : m.high < m.low + c.size)
    (hslot : m.buffer (c.slot m.high) = none) :
    Inv c { m with high := m.high + 1, pushed := m.pushed ++ [v] }
        { g with writing := Function.update g.writing m.high (some t) } := by
  have hhigh := hI.high
  have hle := hI.le
  have hold : ∀ i, i < m.high → (m.pushed ++ [v])[i]? = m.pushed[i]? := fun i hi =>
    List.getElem?_append_left (by omega)
  constructor
  case high => simp [hhigh]
  case low => exact hI.low
  case le =>
    show m.low ≤ m.high + 1
    omega
  case room =>
    show m.high + 1 ≤ m.low + c.size
    omega
  case popped =>
    show m.popped = (m.pushed ++ [v]).take m.low
    rw [List.take_append_of_le_length (by omega)]
    exact hI.popped
  case writing =>
    intro i hi
    show m.low ≤ i ∧ i < m.high + 1
    by_cases h : i = m.high
    · omega
    · have := hI.writing i (by simpa [h] using hi)
      omega
  case clearing =>
    intro i hi
    obtain ⟨h1, h2⟩ := hI.clearing i hi
    refine ⟨h1, ?_⟩
    show m.high + 1 ≤ i + c.size
    -- the index one lap earlier shares the slot, which is null
    by_contra hlap
    obtain ⟨w, -, hw⟩ := hI.slot_clearing hi
    have heq : m.high = i + c.size := by omega
    rw [heq, c.slot_add_size, hw] at hslot
    cases hslot
  case slot_writing =>
    intro i hi
    by_cases h : i = m.high
    · rw [h]
      exact hslot
    · exact hI.slot_writing i (by simpa [h] using hi)
  case slot_stored =>
    intro i hi hlap hw hor
    have hne : i ≠ m.high := by
      rintro rfl
      simp at hw
    have hlt : i < m.high := by
      have : i < m.high + 1 := hi
      omega
    show m.buffer (c.slot i) = (m.pushed ++ [v])[i]?
    have hlap' : m.high + 1 ≤ i + c.size := hlap
    rw [hold i hlt]
    exact hI.slot_stored i hlt (by omega) (by simpa [hne] using hw) hor
  case slot_taken =>
    intro i hi hlap hc
    have hlap' : m.high + 1 ≤ i + c.size := hlap
    exact hI.slot_taken i hi (by omega) hc
  case slot_fresh =>
    intro i hi
    have hi' : m.high + 1 ≤ i := hi
    exact hI.slot_fresh i (by omega)

/-- A pop claims the oldest index: its slot holds its value. -/
theorem Inv.claimLow {v : α} (hI : Inv c m g) (hlt : m.low < m.high)
    (hslot : m.buffer (c.slot m.low) = some v) :
    m.pushed[m.low]? = some v ∧
    Inv c { m with low := m.low + 1, popped := m.popped ++ [v] }
        { g with clearing := Function.update g.clearing m.low (some t) } := by
  have hhigh := hI.high
  have hroom := hI.room
  have hw : g.writing m.low = none := by
    by_contra hw
    rw [hI.slot_writing _ hw] at hslot
    cases hslot
  have hval : m.pushed[m.low]? = some v := by
    rw [← hI.slot_stored m.low hlt hroom hw (.inl (Nat.le_refl _)), hslot]
  refine ⟨hval, ?_⟩
  constructor
  case high => exact hhigh
  case low => simp [hI.low]
  case le => exact hlt
  case room =>
    show m.high ≤ m.low + 1 + c.size
    omega
  case popped =>
    show m.popped ++ [v] = m.pushed.take (m.low + 1)
    rw [List.take_add_one, hval, ← hI.popped]
    rfl
  case writing =>
    intro i hi
    obtain ⟨h1, h2⟩ := hI.writing i hi
    have hne : i ≠ m.low := by
      rintro rfl
      exact hi hw
    show m.low + 1 ≤ i ∧ i < m.high
    omega
  case clearing =>
    intro i hi
    show i < m.low + 1 ∧ m.high ≤ i + c.size
    by_cases h : i = m.low
    · omega
    · have := hI.clearing i (by simpa [h] using hi)
      omega
  case slot_writing => exact hI.slot_writing
  case slot_stored =>
    intro i hi hlap hwi hor
    refine hI.slot_stored i hi hlap hwi ?_
    by_cases h : i = m.low
    · omega
    · rcases hor with hor | hor
      · have : m.low + 1 ≤ i := hor
        omega
      · exact .inr (by simpa [h] using hor)
  case slot_taken =>
    intro i hi hlap hc
    have hne : i ≠ m.low := by
      rintro rfl
      simp at hc
    have hi' : i < m.low + 1 := hi
    exact hI.slot_taken i (by omega) hlap (by simpa [hne] using hc)
  case slot_fresh => exact hI.slot_fresh

/-- A push stores its value. -/
theorem Inv.writeSlot {h : Nat} {v : α} (hI : Inv c m g) (hw : g.writing h = some t)
    (hv : m.pushed[h]? = some v) :
    Inv c { m with buffer := Function.update m.buffer (c.slot h) (some v) }
        { g with writing := Function.update g.writing h none } := by
  obtain ⟨hge, hlt⟩ := hI.writing h (by simp [hw])
  have hroom := hI.room
  have hle := hI.le
  -- another index of the current lap lives in another slot
  have hother : ∀ i, i ≠ h → i < m.high → m.high ≤ i + c.size →
      Function.update m.buffer (c.slot h) (some v) (c.slot i) = m.buffer (c.slot i) := by
    intro i hne hi hlap
    apply Function.update_of_ne
    rcases Nat.lt_or_gt_of_ne hne with hlt' | hgt
    · exact c.slot_ne hlt' (by omega)
    · exact (c.slot_ne hgt (by omega)).symm
  constructor
  case high => exact hI.high
  case low => exact hI.low
  case le => exact hle
  case room => exact hroom
  case popped => exact hI.popped
  case writing =>
    intro i hi
    by_cases hne : i = h
    · subst hne
      exact ⟨hge, hlt⟩
    · exact hI.writing i (by simpa [hne] using hi)
  case clearing => exact hI.clearing
  case slot_writing =>
    intro i hi
    have hne : i ≠ h := by
      rintro rfl
      simp at hi
    have hi' : g.writing i ≠ none := by simpa [hne] using hi
    obtain ⟨h1, h2⟩ := hI.writing i hi'
    show Function.update m.buffer (c.slot h) (some v) (c.slot i) = none
    rw [hother i hne h2 (by omega)]
    exact hI.slot_writing i hi'
  case slot_stored =>
    intro i hi hlap hwi hor
    show Function.update m.buffer (c.slot h) (some v) (c.slot i) = m.pushed[i]?
    by_cases hne : i = h
    · rw [hne, Function.update_self, hv]
    · rw [hother i hne hi hlap]
      exact hI.slot_stored i hi hlap (by simpa [hne] using hwi) hor
  case slot_taken =>
    intro i hi hlap hc
    have hi' : i < m.low := hi
    show Function.update m.buffer (c.slot h) (some v) (c.slot i) = none
    rw [hother i (by omega) (by omega) hlap]
    exact hI.slot_taken i hi hlap hc
  case slot_fresh =>
    intro i hi hs
    have hi' : m.high ≤ i := hi
    show Function.update m.buffer (c.slot h) (some v) (c.slot i) = none
    rw [Function.update_of_ne (c.slot_ne (by omega) (by omega)).symm]
    exact hI.slot_fresh i hi hs

/-- A pop clears its slot. -/
theorem Inv.clearSlot {l : Nat} (hI : Inv c m g) (hc : g.clearing l = some t) :
    Inv c { m with buffer := Function.update m.buffer (c.slot l) none }
        { g with clearing := Function.update g.clearing l none } := by
  obtain ⟨hlt, hlap⟩ := hI.clearing l (by simp [hc])
  have hle := hI.le
  have hroom := hI.room
  have hnone : ∀ i, m.buffer (c.slot i) = none →
      Function.update m.buffer (c.slot l) none (c.slot i) = none := by
    intro i hi
    by_cases h : c.slot i = c.slot l
    · rw [h, Function.update_self]
    · rw [Function.update_of_ne h, hi]
  have hother : ∀ i, i ≠ l → i < m.high → m.high ≤ i + c.size →
      Function.update m.buffer (c.slot l) none (c.slot i) = m.buffer (c.slot i) := by
    intro i hne hi hlapi
    apply Function.update_of_ne
    rcases Nat.lt_or_gt_of_ne hne with hlt' | hgt
    · exact c.slot_ne hlt' (by omega)
    · exact (c.slot_ne hgt (by omega)).symm
  constructor
  case high => exact hI.high
  case low => exact hI.low
  case le => exact hle
  case room => exact hroom
  case popped => exact hI.popped
  case writing => exact hI.writing
  case clearing =>
    intro i hi
    by_cases hne : i = l
    · subst hne
      exact ⟨hlt, hlap⟩
    · exact hI.clearing i (by simpa [hne] using hi)
  case slot_writing => exact fun i hi => hnone i (hI.slot_writing i hi)
  case slot_stored =>
    intro i hi hlapi hwi hor
    have hne : i ≠ l := by
      rintro rfl
      rcases hor with hor | hor
      · have : m.low ≤ i := hor
        omega
      · simp at hor
    show Function.update m.buffer (c.slot l) none (c.slot i) = m.pushed[i]?
    rw [hother i hne hi hlapi]
    exact hI.slot_stored i hi hlapi hwi (by simpa [hne] using hor)
  case slot_taken =>
    intro i hi hlapi hci
    by_cases hne : i = l
    · rw [hne]
      exact Function.update_self ..
    · exact hnone i (hI.slot_taken i hi hlapi (by simpa [hne] using hci))
  case slot_fresh => exact fun i hi hs => hnone i (hI.slot_fresh i hi hs)

/-! ## One access of an operation -/

theorem swapCounter_of_eq {x : Nat} (hx : x + 1 < 2 ^ 64) : swapCounter x x = some (x + 1) := by
  simp only [swapCounter, if_true, Nat.mod_eq_of_lt hx]

theorem swapCounter_of_ne {x y : Nat} (h : x ≠ y) : swapCounter x y = none := by
  simp [swapCounter, h]

theorem pushStep_spec {pc : PushPc α} (hI : Inv c m g) (hp : PushFacts c t m g pc)
    (ho : ∀ i, g.writing i = some t → ∃ v, pc = .writeSlot v i)
    (hlen : (pushStep c m pc).1.pushed.length < 2 ^ 64) :
    ∃ g', Inv c (pushStep c m pc).1 g' ∧
      (∀ pc', (pushStep c m pc).2 = .inl pc' → PushFacts c t (pushStep c m pc).1 g' pc') ∧
      (∀ i, g'.writing i = some t → ∃ v, (pushStep c m pc).2 = .inl (.writeSlot v i)) ∧
      g'.clearing = g.clearing ∧ ∀ u, u ≠ t → Keeps c u m g (pushStep c m pc).1 g' := by
  have hself : ∀ u, u ≠ t → Keeps c u m g m g := fun u _ => keeps_refl u m g
  have hhigh := hI.high
  have hle := hI.le
  cases pc with
  | readLow v =>
    refine ⟨g, hI, ?_, fun i hi => by simpa using ho i hi, rfl, hself⟩
    rintro _ ⟨rfl⟩
    exact Nat.le_refl _
  | readHigh v l =>
    refine ⟨g, hI, ?_, fun i hi => by simpa using ho i hi, rfl, hself⟩
    rintro _ ⟨rfl⟩
    have hl : l ≤ m.low := hp
    exact ⟨hl, by show l ≤ m.high; omega, Nat.le_refl _⟩
  | readSlot v l h =>
    obtain ⟨hl, hlh, hh⟩ := hp
    have hsub : wrapSub h l = h - l := by
      have hlen' : m.pushed.length < 2 ^ 64 := by
        have : (pushStep c m (.readSlot v l h)).1 = m := by
          simp only [pushStep]
          split <;> rfl
        rwa [this] at hlen
      exact wrapSub_of_le hlh (by omega)
    by_cases hok : m.buffer (c.slot h) = none ∧ wrapSub h l < c.size
    · have hstep : pushStep c m (.readSlot v l h) = (m, .inl (.swapHigh v l h)) := by
        simp only [pushStep, if_pos hok]
      rw [hstep]
      refine ⟨g, hI, ?_, fun i hi => by simpa using ho i hi, rfl, hself⟩
      rintro _ ⟨rfl⟩
      exact ⟨hl, hh, by omega, fun _ => hok.1⟩
    · have hstep : pushStep c m (.readSlot v l h) = (m, .inr false) := by
        simp only [pushStep, if_neg hok]
      rw [hstep]
      exact ⟨g, hI, by simp, fun i hi => by simpa using ho i hi, rfl, hself⟩
  | swapHigh v l h =>
    obtain ⟨hl, hh, hroom, hslot⟩ := hp
    by_cases heq : m.high = h
    · -- the claim succeeds
      subst heq
      have hlt : m.high + 1 < 2 ^ 64 := by
        by_contra hbig
        have : (pushStep c m (.swapHigh v l m.high)).1.pushed = m.pushed ++ [v] := by
          simp [pushStep, swapCounter]
        rw [this, List.length_append, List.length_singleton] at hlen
        omega
      have hstep : pushStep c m (.swapHigh v l m.high) =
          ({ m with high := m.high + 1, pushed := m.pushed ++ [v] }, .inl (.writeSlot v m.high)) := by
        simp only [pushStep, swapCounter_of_eq hlt]
      rw [hstep]
      have hfree : g.writing m.high = none := by
        by_contra h
        have := (hI.writing m.high h).2
        omega
      refine ⟨_, hI.claimHigh (t := t) (v := v) (by omega) (hslot rfl), ?_, fun i hi => ?_, rfl,
        fun u hu => ?_⟩
      · rintro _ ⟨rfl⟩
        exact ⟨by simp, by simp [hhigh]⟩
      · by_cases hne : i = m.high
        · exact ⟨v, by rw [hne]⟩
        · simpa using ho i (by simpa [hne] using hi)
      · exact ⟨Nat.le_succ _, Nat.le_refl _, List.prefix_append .., Nat.le_refl _,
          update_claim (.inl hfree) (.inr rfl) hu, fun _ => Iff.rfl,
          fun h => absurd h (Nat.succ_ne_self _), fun _ _ _ h => h⟩
    · have hstep : pushStep c m (.swapHigh v l h) = (m, .inr false) := by
        simp only [pushStep, swapCounter_of_ne heq]
      rw [hstep]
      exact ⟨g, hI, by simp, fun i hi => by simpa using ho i hi, rfl, hself⟩
  | writeSlot v h =>
    obtain ⟨hw, hv⟩ := hp
    obtain ⟨hge, hlt⟩ := hI.writing h (by simp [hw])
    refine ⟨_, hI.writeSlot hw hv, fun pc' hpc => by simp [pushStep] at hpc, fun i hi => ?_, rfl,
      fun u hu => ⟨Nat.le_refl _, Nat.le_refl _, List.prefix_rfl, Nat.le_refl _,
        update_claim (.inr hw) (.inl rfl) hu, fun _ => Iff.rfl, fun _ hroom hslot => ?_,
        fun _ _ w hslot => ?_⟩⟩
    · have hne : i ≠ h := by
        rintro rfl
        simp at hi
      obtain ⟨w, hw'⟩ := ho i (by simpa [hne] using hi)
      simp [hne.symm] at hw'
    · exact (Function.update_of_ne (c.slot_ne hlt (by omega)).symm ..).trans hslot
    · have hne : c.slot m.low ≠ c.slot h := by
        intro heq
        rw [heq, hI.slot_writing h (by simp [hw])] at hslot
        cases hslot
      exact (Function.update_of_ne hne ..).trans hslot

theorem popStep_spec {pc : PopPc α} (hI : Inv c m g) (hp : PopFacts c t m g pc)
    (ho : ∀ i, g.clearing i = some t → ∃ v, pc = .clearSlot i v)
    (hlen : m.pushed.length < 2 ^ 64) :
    ∃ g', Inv c (popStep c m pc).1 g' ∧
      (∀ pc', (popStep c m pc).2 = .inl pc' → PopFacts c t (popStep c m pc).1 g' pc') ∧
      (∀ i, g'.clearing i = some t → ∃ v, (popStep c m pc).2 = .inl (.clearSlot i v)) ∧
      g'.writing = g.writing ∧ ∀ u, u ≠ t → Keeps c u m g (popStep c m pc).1 g' := by
  have hself : ∀ u, u ≠ t → Keeps c u m g m g := fun u _ => keeps_refl u m g
  have hhigh := hI.high
  have hle := hI.le
  cases pc with
  | readHigh =>
    refine ⟨g, hI, ?_, fun i hi => by simpa using ho i hi, rfl, hself⟩
    rintro _ ⟨rfl⟩
    exact Nat.le_refl _
  | readLow h =>
    refine ⟨g, hI, ?_, fun i hi => by simpa using ho i hi, rfl, hself⟩
    rintro _ ⟨rfl⟩
    exact ⟨hp, Nat.le_refl _⟩
  | readSlot h l =>
    obtain ⟨hh, hl⟩ := hp
    cases hslot : m.buffer (c.slot l) with
    | none =>
      have hstep : popStep c m (.readSlot h l) = (m, .inr none) := by
        simp only [popStep, hslot]
      rw [hstep]
      exact ⟨g, hI, by simp, fun i hi => by simpa using ho i hi, rfl, hself⟩
    | some v =>
      by_cases hlt : h > l
      · have hstep : popStep c m (.readSlot h l) = (m, .inl (.swapLow l v)) := by
          simp only [popStep, hslot, if_pos hlt]
        rw [hstep]
        refine ⟨g, hI, ?_, fun i hi => by simpa using ho i hi, rfl, hself⟩
        rintro _ ⟨rfl⟩
        exact ⟨hl, by show l < m.high; omega, fun _ => hslot⟩
      · have hstep : popStep c m (.readSlot h l) = (m, .inr none) := by
          simp only [popStep, hslot, if_neg hlt]
        rw [hstep]
        exact ⟨g, hI, by simp, fun i hi => by simpa using ho i hi, rfl, hself⟩
  | swapLow l v =>
    obtain ⟨hl, hlt, hslot⟩ := hp
    by_cases heq : m.low = l
    · -- the claim succeeds
      subst heq
      have hstep : popStep c m (.swapLow m.low v) =
          ({ m with low := m.low + 1, popped := m.popped ++ [v] }, .inl (.clearSlot m.low v)) := by
        simp only [popStep, swapCounter_of_eq (show m.low + 1 < 2 ^ 64 by omega)]
      rw [hstep]
      obtain ⟨hval, hI'⟩ := hI.claimLow (t := t) hlt (hslot rfl)
      have hfree : g.clearing m.low = none := by
        by_contra h
        have := (hI.clearing m.low h).1
        omega
      refine ⟨_, hI', ?_, fun i hi => ?_, rfl, fun u hu => ?_⟩
      · rintro _ ⟨rfl⟩
        exact ⟨by simp, hval⟩
      · by_cases hne : i = m.low
        · exact ⟨v, by rw [hne]⟩
        · simpa using ho i (by simpa [hne] using hi)
      · exact ⟨Nat.le_refl _, Nat.le_succ _, List.prefix_rfl, by simp, fun _ => Iff.rfl,
          update_claim (.inl hfree) (.inr rfl) hu, fun _ _ h => h,
          fun h => absurd h (Nat.succ_ne_self _)⟩
    · have hstep : popStep c m (.swapLow l v) = (m, .inr none) := by
        simp only [popStep, swapCounter_of_ne heq]
      rw [hstep]
      exact ⟨g, hI, by simp, fun i hi => by simpa using ho i hi, rfl, hself⟩
  | clearSlot l v =>
    obtain ⟨hc, -⟩ := hp
    obtain ⟨hlt, hlap⟩ := hI.clearing l (by simp [hc])
    refine ⟨_, hI.clearSlot hc, fun pc' hpc => by simp [popStep] at hpc, fun i hi => ?_, rfl,
      fun u hu => ⟨Nat.le_refl _, Nat.le_refl _, List.prefix_rfl, Nat.le_refl _, fun _ => Iff.rfl,
        update_claim (.inr hc) (.inl rfl) hu, fun _ _ hslot => ?_, fun _ hlow w hslot => ?_⟩⟩
    · have hne : i ≠ l := by
        rintro rfl
        simp at hi
      obtain ⟨w, hw⟩ := ho i (by simpa [hne] using hi)
      simp [hne.symm] at hw
    · show Function.update m.buffer (c.slot l) none (c.slot m.high) = none
      by_cases h : c.slot m.high = c.slot l
      · rw [h, Function.update_self]
      · rw [Function.update_of_ne h, hslot]
    · exact (Function.update_of_ne (c.slot_ne hlt (by omega)).symm ..).trans hslot

/-- The size is at most the capacity, unless more than `2 ^ 63` pops fell
between the two reads. -/
theorem sizeStep_spec {pc : SizePc} (hI : Inv c m g) (hp : SizeFacts c m pc)
    (hlen : m.pushed.length < 2 ^ 64) :
    (∀ pc', sizeStep m pc = .inl pc' → SizeFacts c m pc') ∧
      ∀ n gap, sizeStep m pc = .inr (n, gap) → gap ≤ 2 ^ 63 → n ≤ c.size := by
  have hhigh := hI.high
  have hlow := hI.low
  have hle := hI.le
  cases pc with
  | readHigh =>
    refine ⟨?_, fun n gap h => by simp [sizeStep] at h⟩
    rintro _ ⟨rfl⟩
    exact ⟨by omega, Nat.le_refl _, Nat.le_refl _, hI.room⟩
  | readLow h k =>
    obtain ⟨hkh, hkpop, hh, hroom⟩ := hp
    refine ⟨fun pc' hpc => by simp [sizeStep] at hpc, ?_⟩
    rintro n gap ⟨rfl, rfl⟩ hgap
    unfold clampedSize
    by_cases hcmp : m.low ≤ h
    · rw [wrapSub_of_le hcmp (by omega)]
      split <;> omega
    · rw [wrapSub_of_lt (by omega)]
      split <;> omega

end Step

end FibConcurrent.LockfreeRingBuffer
