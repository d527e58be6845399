import FibConcurrent.FifoStealBuffer.Model

/-!
# FifoStealBuffer — what holds while no pop takes the last item

`low` runs ahead of `high` only between a fetch-and-add that came too late and
the store that undoes it (`undoing`), and a claimed index is missing among those
handed out only while the pop that claimed it has not read its slot (`owed`).
Both are the master's own business. A thief's snapshot of `low` is below
`high`, so undoing never brings `low` back to it.
-/

namespace FibConcurrent.FifoStealBuffer

open FibConcurrent.Machine FibConcurrent.Data

variable {ι α : Type*} {c : Capacity}

/-- Ghost: whether the master has added too much, and the index it has claimed
but not read. -/
structure Ghost where
  undoing : Bool
  owed : Option Nat

structure Inv (c : Capacity) (m : Buffer α) (g : Ghost) : Prop where
  high : m.high = m.pushed.length
  le : g.undoing = false → m.low ≤ m.high
  undoing : g.undoing = true → m.low = m.high + 1
  room : m.high ≤ m.low + c.size
  claimed : m.claimed = List.range (min m.low m.high)
  values : ∀ e ∈ m.taken, m.pushed[e.1]? = some e.2
  handed : (m.taken.map Prod.fst ++ g.owed.toList).Perm m.claimed
  slots : ∀ i, m.low ≤ i → i < m.high → m.pushed[i]? = some (m.buffer (c.slot i))

/-- Outside a pop that has claimed something or added too much. -/
def Rests (g : Ghost) : Prop := g.undoing = false ∧ g.owed = none

def PushFacts (c : Capacity) (m : Buffer α) : PushPc α → Prop
  | .readHigh _ => True
  | .readLow _ h => h = m.high
  | .writeSlot _ h => h = m.high ∧ h < m.low + c.size
  | .writeHigh v h => h = m.high ∧ h < m.low + c.size ∧ m.buffer (c.slot h) = v

def PopFacts (c : Capacity) (m : Buffer α) (g : Ghost) : PopPc → Prop
  | .readHigh => Rests g
  | .readLow h => Rests g ∧ h = m.high
  | .addLow h => Rests g ∧ h = m.high
  | .writeLow h => g.undoing = true ∧ g.owed = none ∧ h = m.high
  | .readSlot n => g.undoing = false ∧ 1 ≤ n ∧ n ≤ m.high ∧ g.owed = some (n - 1) ∧
      m.pushed[n - 1]? = some (m.buffer (c.slot (n - 1)))

/-- What the master knows at each program point. -/
def MasterFacts (c : Capacity) (m : Buffer α) (g : Ghost) : Pc α → Prop
  | .push pc => Rests g ∧ PushFacts c m pc
  | .pop pc => PopFacts c m g pc
  | _ => Rests g

def StealFacts (m : Buffer α) : StealPc α → Prop
  | .readHigh => True
  | .readLow h => h ≤ m.high
  | .readSlot l => l ≤ m.low ∧ l < m.high
  | .swapLow l v => l ≤ m.low ∧ l < m.high ∧ (l = m.low → m.pushed[l]? = some v)

structure ThreadFacts (c : Capacity) (master t : ι) (m : Buffer α) (g : Ghost) (pc : Pc α) :
    Prop where
  steal : ∀ p, pc = .steal p → StealFacts m p
  pushing : ∀ p, pc = .push p → t = master
  popping : ∀ p, pc = .pop p → t = master
  own : t = master → MasterFacts c m g pc

def bufferAssertion (c : Capacity) (master : ι) : Assertion ι (Buffer α) Ghost (Pc α) where
  shared := Inv c
  thread := ThreadFacts c master

/-! ## What the accesses of others leave alone -/

/-- What the master's accesses leave alone for a thief: an index below `high`
that `low` has passed stays passed. -/
structure KeepsSteal (m m' : Buffer α) : Prop where
  high : m.high ≤ m'.high
  pushed : m.pushed <+: m'.pushed
  low : ∀ l, l < m.high → l ≤ m.low → l ≤ m'.low ∧ (l = m'.low → l = m.low)

/-- What a thief leaves alone for the master. -/
structure KeepsMaster (m m' : Buffer α) : Prop where
  high : m'.high = m.high
  pushed : m'.pushed = m.pushed
  buffer : m'.buffer = m.buffer
  low : m.low ≤ m'.low

section Keeps

variable {m m' : Buffer α} {g : Ghost}

theorem keepsSteal_refl (m : Buffer α) : KeepsSteal m m :=
  ⟨Nat.le_refl _, List.prefix_rfl, fun _ _ hl => ⟨hl, fun h => h⟩⟩

theorem keepsMaster_refl (m : Buffer α) : KeepsMaster m m := ⟨rfl, rfl, rfl, Nat.le_refl _⟩

theorem StealFacts.keep {pc : StealPc α} (h : StealFacts m pc) (hk : KeepsSteal m m') :
    StealFacts m' pc := by
  cases pc with
  | readHigh => trivial
  | readLow h₀ => exact Nat.le_trans h hk.high
  | readSlot l => exact ⟨(hk.low l h.2 h.1).1, Nat.lt_of_lt_of_le h.2 hk.high⟩
  | swapLow l v =>
    obtain ⟨hl, hlt, hv⟩ := h
    obtain ⟨hl', hcur⟩ := hk.low l hlt hl
    refine ⟨hl', Nat.lt_of_lt_of_le hlt hk.high, fun heq => ?_⟩
    obtain ⟨rest, hrest⟩ := hk.pushed
    have hval := hv (hcur heq)
    rw [← hrest, List.getElem?_append_left (List.getElem?_eq_some_iff.mp hval).1]
    exact hval

theorem MasterFacts.keep {pc : Pc α} (h : MasterFacts c m g pc) (hk : KeepsMaster m m') :
    MasterFacts c m' g pc := by
  have hlow := hk.low
  cases pc with
  | push pc =>
    obtain ⟨hrest, hp⟩ := h
    refine ⟨hrest, ?_⟩
    cases pc with
    | readHigh v => trivial
    | readLow v h₀ => exact Eq.trans hp hk.high.symm
    | writeSlot v h₀ =>
      obtain ⟨hh, hroom⟩ := hp
      exact ⟨hh.trans hk.high.symm, by omega⟩
    | writeHigh v h₀ =>
      obtain ⟨hh, hroom, hv⟩ := hp
      exact ⟨hh.trans hk.high.symm, by omega, hk.buffer ▸ hv⟩
  | pop pc =>
    cases pc with
    | readHigh => exact h
    | readLow h₀ => exact ⟨h.1, h.2.trans hk.high.symm⟩
    | addLow h₀ => exact ⟨h.1, h.2.trans hk.high.symm⟩
    | writeLow h₀ => exact ⟨h.1, h.2.1, h.2.2.trans hk.high.symm⟩
    | readSlot n =>
      unfold MasterFacts PopFacts
      rw [hk.high, hk.pushed, hk.buffer]
      exact h
  | _ => exact h

end Keeps

/-! ## What one access does to the buffer -/

section Effect

variable {m : Buffer α} {g : Ghost} {v : α}

/-- A push stores to a slot that no index in the buffer uses. -/
theorem Inv.writeSlot (hI : Inv c m g) (hroom : m.high < m.low + c.size) :
    Inv c { m with buffer := Function.update m.buffer (c.slot m.high) v } g := by
  refine { hI with slots := fun i hi hi' => ?_ }
  have hlow : m.low ≤ i := hi
  have hlt : i < m.high := hi'
  show m.pushed[i]? = some (Function.update m.buffer (c.slot m.high) v (c.slot i))
  rw [Function.update_of_ne (c.slot_ne hlt (by omega))]
  exact hI.slots i hlow hlt

/-- The stored item becomes visible. -/
theorem Inv.publish (hI : Inv c m g) (hg : g.undoing = false)
    (hroom : m.high < m.low + c.size) (hv : m.buffer (c.slot m.high) = v) :
    Inv c { m with high := m.high + 1, pushed := m.pushed ++ [v] } g := by
  have hhigh := hI.high
  have hle := hI.le hg
  refine { hI with
    high := by simp [hhigh]
    le := fun _ => Nat.le_succ_of_le hle
    undoing := fun h => ?_
    room := hroom
    claimed := ?_
    values := fun e he => ?_
    slots := fun i hi hi' => ?_ }
  · rw [hg] at h
    cases h
  · show m.claimed = List.range (min m.low (m.high + 1))
    rw [hI.claimed, Nat.min_eq_left hle, Nat.min_eq_left (Nat.le_succ_of_le hle)]
  · have hval := hI.values e he
    show (m.pushed ++ [v])[e.1]? = some e.2
    rw [List.getElem?_append_left (List.getElem?_eq_some_iff.mp hval).1]
    exact hval
  · have hi'' : i < m.high + 1 := hi'
    show (m.pushed ++ [v])[i]? = some (m.buffer (c.slot i))
    by_cases heq : i = m.high
    · subst heq
      rw [hv, hhigh]
      simp
    · rw [List.getElem?_append_left (by omega)]
      exact hI.slots i hi (by omega)

/-- `low` moves past an item that is left: whoever moves it has claimed the item. -/
theorem Inv.claim (hI : Inv c m g) (hlt : m.low < m.high) (howed : g.owed = none) :
    Inv c { m with low := m.low + 1, claimed := m.claimed ++ [m.low] }
      { g with owed := some m.low } := by
  have hroom := hI.room
  refine { hI with
    le := fun _ => hlt
    undoing := fun h => ?_
    room := ?_
    claimed := ?_
    handed := ?_
    slots := fun i hi => ?_ }
  · have hundoing := hI.undoing h
    omega
  · show m.high ≤ m.low + 1 + c.size
    omega
  · show m.claimed ++ [m.low] = List.range (min (m.low + 1) m.high)
    rw [hI.claimed, Nat.min_eq_left (Nat.le_of_lt hlt), Nat.min_eq_left hlt, List.range_succ]
  · have hperm := hI.handed
    rw [howed] at hperm
    simp only [Option.toList_none, List.append_nil] at hperm
    exact hperm.append_right _
  · have hi' : m.low + 1 ≤ i := hi
    exact hI.slots i (by omega)

/-- A claimed item is handed out. -/
theorem Inv.take {i : Nat} (hI : Inv c m g) (howed : g.owed = some i)
    (hv : m.pushed[i]? = some v) :
    Inv c { m with taken := m.taken ++ [(i, v)] } { g with owed := none } := by
  refine { hI with values := fun e he => ?_, handed := ?_ }
  · rcases List.mem_append.mp he with he | he
    · exact hI.values e he
    · rw [List.mem_singleton.mp he]
      exact hv
  · have hperm := hI.handed
    rw [howed] at hperm
    simpa using hperm

/-- A steal claims an item and hands it out in one access, whatever the master
has claimed. -/
theorem Inv.steal (hI : Inv c m g) (hlt : m.low < m.high) (hv : m.pushed[m.low]? = some v) :
    Inv c { m with
      low := m.low + 1
      claimed := m.claimed ++ [m.low]
      taken := m.taken ++ [(m.low, v)] } g := by
  have hroom := hI.room
  refine { hI with
    le := fun _ => hlt
    undoing := fun h => ?_
    room := ?_
    claimed := ?_
    values := fun e he => ?_
    handed := ?_
    slots := fun i hi => ?_ }
  · have hundoing := hI.undoing h
    omega
  · show m.high ≤ m.low + 1 + c.size
    omega
  · show m.claimed ++ [m.low] = List.range (min (m.low + 1) m.high)
    rw [hI.claimed, Nat.min_eq_left (Nat.le_of_lt hlt), Nat.min_eq_left hlt, List.range_succ]
  · rcases List.mem_append.mp he with he | he
    · exact hI.values e he
    · rw [List.mem_singleton.mp he]
      exact hv
  · show ((m.taken ++ [(m.low, v)]).map Prod.fst ++ g.owed.toList).Perm (m.claimed ++ [m.low])
    rw [List.map_append, List.append_assoc]
    refine (List.Perm.append_left _ List.perm_append_comm).trans ?_
    rw [← List.append_assoc]
    exact hI.handed.append_right _
  · have hi' : m.low + 1 ≤ i := hi
    exact hI.slots i (by omega)

/-- The fetch-and-add of a pop that came too late. -/
theorem Inv.overrun (hI : Inv c m g) (hlow : m.low = m.high) :
    Inv c { m with low := m.low + 1 } { g with undoing := true } := by
  refine { hI with
    le := fun h => Bool.noConfusion h
    undoing := fun _ => congrArg (· + 1) hlow
    room := ?_
    claimed := ?_
    slots := fun i hi hi' => ?_ }
  · show m.high ≤ m.low + 1 + c.size
    omega
  · show m.claimed = List.range (min (m.low + 1) m.high)
    rw [hI.claimed, hlow, Nat.min_self, Nat.min_eq_right (Nat.le_succ _)]
  · have h1 : m.low + 1 ≤ i := hi
    have h2 : i < m.high := hi'
    omega

/-- `fifo->low = high` undoes it. -/
theorem Inv.undo (hI : Inv c m g) (hg : g.undoing = true) :
    Inv c { m with low := m.high } { g with undoing := false } := by
  have hlow := hI.undoing hg
  refine { hI with
    le := fun _ => Nat.le_refl _
    undoing := fun h => Bool.noConfusion h
    room := Nat.le_add_right ..
    claimed := ?_
    slots := fun i hi hi' => absurd hi' (Nat.not_lt.mpr hi) }
  show m.claimed = List.range (min m.high m.high)
  rw [hI.claimed, hlow, Nat.min_eq_right (Nat.le_succ _), Nat.min_self]

theorem keepsSteal_buffer {b : Nat → α} : KeepsSteal m { m with buffer := b } :=
  ⟨Nat.le_refl _, List.prefix_rfl, fun _ _ hl => ⟨hl, fun h => h⟩⟩

/-- `low` moves on, and never to an index that a thief has seen. -/
theorem keepsSteal_low {x : Nat} {l₁ : List Nat} {l₂ : List (Nat × α)}
    (hlow : ∀ l, l < m.high → l ≤ m.low → l < x) :
    KeepsSteal m { m with low := x, claimed := l₁, taken := l₂ } := by
  refine ⟨Nat.le_refl _, List.prefix_rfl, fun l hlt hl => ?_⟩
  have hx := hlow l hlt hl
  refine ⟨Nat.le_of_lt hx, fun heq => ?_⟩
  have heq : l = x := heq
  omega

end Effect

/-! ## One access of an operation -/

section Step

variable {m : Buffer α} {g : Ghost}

theorem pushStep_spec {pc : PushPc α} (hI : Inv c m g) (hg : Rests g) (hp : PushFacts c m pc)
    (hlen : (pushStep c m pc).1.pushed.length < 2 ^ 64) :
    Inv c (pushStep c m pc).1 g ∧
      (∀ pc', (pushStep c m pc).2 = .inl pc' → PushFacts c (pushStep c m pc).1 pc') ∧
      KeepsSteal m (pushStep c m pc).1 := by
  have hhigh := hI.high
  have hle := hI.le hg.1
  cases pc with
  | readHigh v =>
    refine ⟨hI, ?_, keepsSteal_refl m⟩
    rintro _ ⟨rfl⟩
    rfl
  | readLow v h =>
    have hh : h = m.high := hp
    by_cases hok : wrapSub h m.low < c.size
    · have hstep : pushStep c m (.readLow v h) = (m, .inl (.writeSlot v h)) := by
        simp only [pushStep, if_pos hok]
      rw [hstep] at hlen ⊢
      refine ⟨hI, ?_, keepsSteal_refl m⟩
      rintro _ ⟨rfl⟩
      have hfew : m.pushed.length < 2 ^ 64 := hlen
      rw [wrapSub_of_le (by omega) (by omega)] at hok
      exact ⟨hh, by show h < m.low + c.size; omega⟩
    · have hstep : pushStep c m (.readLow v h) = (m, .inr false) := by
        simp only [pushStep, if_neg hok]
      rw [hstep]
      exact ⟨hI, by simp, keepsSteal_refl m⟩
  | writeSlot v h =>
    obtain ⟨rfl, hroom⟩ := hp
    refine ⟨hI.writeSlot hroom, ?_, keepsSteal_buffer⟩
    rintro _ ⟨rfl⟩
    exact ⟨rfl, hroom, Function.update_self ..⟩
  | writeHigh v h =>
    obtain ⟨rfl, hroom, hv⟩ := hp
    have hlt : m.high + 1 < 2 ^ 64 := by
      have hlen : (m.pushed ++ [v]).length < 2 ^ 64 := hlen
      rw [List.length_append, List.length_singleton] at hlen
      omega
    have hstep : pushStep c m (.writeHigh v m.high) =
        ({ m with high := m.high + 1, pushed := m.pushed ++ [v] }, .inr true) := by
      simp only [pushStep, Nat.mod_eq_of_lt hlt]
    rw [hstep]
    exact ⟨hI.publish hg.1 hroom hv, by simp,
      ⟨Nat.le_succ _, List.prefix_append .., fun _ _ hl => ⟨hl, fun h => h⟩⟩⟩

theorem stealStep_spec {pc : StealPc α} (hI : Inv c m g) (hp : StealFacts m pc)
    (hlen : m.pushed.length < 2 ^ 64) :
    Inv c (stealStep c m pc).1 g ∧
      (∀ pc', (stealStep c m pc).2 = .inl pc' → StealFacts (stealStep c m pc).1 pc') ∧
      KeepsSteal m (stealStep c m pc).1 ∧ KeepsMaster m (stealStep c m pc).1 := by
  have hhigh := hI.high
  cases pc with
  | readHigh =>
    refine ⟨hI, ?_, keepsSteal_refl m, keepsMaster_refl m⟩
    rintro _ ⟨rfl⟩
    exact Nat.le_refl _
  | readLow h =>
    have hh : h ≤ m.high := hp
    by_cases hlt : h > m.low
    · have hstep : stealStep c m (.readLow h) = (m, .inl (.readSlot m.low)) := by
        simp only [stealStep, if_pos hlt]
      rw [hstep]
      refine ⟨hI, ?_, keepsSteal_refl m, keepsMaster_refl m⟩
      rintro _ ⟨rfl⟩
      exact ⟨Nat.le_refl _, by show m.low < m.high; omega⟩
    · have hstep : stealStep c m (.readLow h) = (m, .inr .empty) := by
        simp only [stealStep, if_neg hlt]
      rw [hstep]
      exact ⟨hI, by simp, keepsSteal_refl m, keepsMaster_refl m⟩
  | readSlot l =>
    obtain ⟨hl, hlt⟩ := hp
    refine ⟨hI, ?_, keepsSteal_refl m, keepsMaster_refl m⟩
    rintro _ ⟨rfl⟩
    exact ⟨hl, hlt, fun heq => hI.slots l (Nat.le_of_eq heq.symm) hlt⟩
  | swapLow l v =>
    obtain ⟨hl, hlt, hv⟩ := hp
    by_cases heq : m.low = l
    · -- the oldest item goes to this thief
      subst heq
      have hmod : (m.low + 1) % 2 ^ 64 = m.low + 1 := Nat.mod_eq_of_lt (by omega)
      have hstep : stealStep c m (.swapLow m.low v) = ({ m with
          low := m.low + 1
          claimed := m.claimed ++ [m.low]
          taken := m.taken ++ [(m.low, v)] }, .inr (.success v)) := by
        simp only [stealStep, if_true, hmod]
      rw [hstep]
      exact ⟨hI.steal hlt (hv rfl), by simp, keepsSteal_low fun l _ hl => Nat.lt_succ_of_le hl,
        ⟨rfl, rfl, rfl, Nat.le_succ _⟩⟩
    · have hstep : stealStep c m (.swapLow l v) = (m, .inr .abort) := by
        simp only [stealStep, if_neg heq]
      rw [hstep]
      exact ⟨hI, by simp, keepsSteal_refl m, keepsMaster_refl m⟩

theorem popStep_spec {pc : PopPc} (hI : Inv c m g) (hp : PopFacts c m g pc)
    (hok : ∀ h, pc = .addLow h → m.low + 1 ≠ m.high ∧ m.low + 1 < 2 ^ 64)
    (hlen : m.pushed.length < 2 ^ 64) :
    ∃ g', Inv c (popStep c m pc).1 g' ∧
      (∀ pc', (popStep c m pc).2 = .inl pc' → PopFacts c (popStep c m pc).1 g' pc') ∧
      (∀ r, (popStep c m pc).2 = .inr r → Rests g') ∧ KeepsSteal m (popStep c m pc).1 := by
  have hhigh := hI.high
  cases pc with
  | readHigh =>
    refine ⟨g, hI, ?_, fun r h => by simp [popStep] at h, keepsSteal_refl m⟩
    rintro _ ⟨rfl⟩
    exact ⟨hp, rfl⟩
  | readLow h =>
    by_cases hlt : h > m.low
    · have hstep : popStep c m (.readLow h) = (m, .inl (.addLow h)) := by
        simp only [popStep, if_pos hlt]
      rw [hstep]
      refine ⟨g, hI, ?_, by simp, keepsSteal_refl m⟩
      rintro _ ⟨rfl⟩
      exact hp
    · have hstep : popStep c m (.readLow h) = (m, .inr none) := by
        simp only [popStep, if_neg hlt]
      rw [hstep]
      exact ⟨g, hI, by simp, fun _ _ => hp.1, keepsSteal_refl m⟩
  | addLow h =>
    obtain ⟨⟨hundoing, howed⟩, rfl⟩ := hp
    obtain ⟨hne, hbound⟩ := hok m.high rfl
    have hle := hI.le hundoing
    have hmod : (m.low + 1) % 2 ^ 64 = m.low + 1 := Nat.mod_eq_of_lt hbound
    have hkeep : ∀ l, l < m.high → l ≤ m.low → l < m.low + 1 := fun l _ => Nat.lt_succ_of_le
    by_cases hge : m.low + 1 ≥ m.high
    · -- nothing was left: `low` is one ahead until the next access
      have hstep : popStep c m (.addLow m.high) =
          ({ m with low := m.low + 1 }, .inl (.writeLow m.high)) := by
        simp only [popStep, hmod, if_pos hge]
      rw [hstep]
      refine ⟨_, hI.overrun (by omega), ?_, by simp, keepsSteal_low hkeep⟩
      rintro _ ⟨rfl⟩
      exact ⟨rfl, howed, rfl⟩
    · have hlt : m.low < m.high := by omega
      have hsub : wrapSub (m.low + 1) 1 = m.low := by
        rw [wrapSub_of_le (by omega) (by omega), Nat.add_sub_cancel]
      have hstep : popStep c m (.addLow m.high) = ({ m with
          low := m.low + 1, claimed := m.claimed ++ [m.low] }, .inl (.readSlot (m.low + 1))) := by
        simp only [popStep, hmod, if_neg hge, hsub]
      rw [hstep]
      refine ⟨_, hI.claim hlt howed, ?_, by simp, keepsSteal_low hkeep⟩
      rintro _ ⟨rfl⟩
      exact ⟨hundoing, Nat.le_add_left .., hlt, rfl, hI.slots m.low (Nat.le_refl _) hlt⟩
  | writeLow h =>
    obtain ⟨hundoing, howed, rfl⟩ := hp
    exact ⟨_, hI.undo hundoing, fun pc' h => by simp [popStep] at h, fun _ _ => ⟨rfl, howed⟩,
      keepsSteal_low fun l hlt _ => hlt⟩
  | readSlot n =>
    obtain ⟨hundoing, hpos, hle, howed, hval⟩ := hp
    have hsub : wrapSub n 1 = n - 1 := wrapSub_of_le hpos (by omega)
    have hstep : popStep c m (.readSlot n) = ({ m with
        taken := m.taken ++ [(n - 1, m.buffer (c.slot (n - 1)))] },
        .inr (some (m.buffer (c.slot (n - 1))))) := by
      simp only [popStep, hsub]
    rw [hstep]
    exact ⟨_, hI.take howed hval, by simp, fun _ _ => ⟨hundoing, rfl⟩,
      ⟨Nat.le_refl _, List.prefix_rfl, fun _ _ hl => ⟨hl, fun h => h⟩⟩⟩

end Step

end FibConcurrent.FifoStealBuffer
