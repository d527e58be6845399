import FibConcurrent.FifoStealBuffer.Correct

/-!
# FifoStealBuffer — what clients see is a queue that loses its last item

Here no pop is excluded. A pop that comes when exactly one item is left drops that
item and returns 0; everything else that the buffer does is what a bounded queue would do. A
pop has taken effect at its fetch-and-add, before it reads the slot.

The histories of claimed indices say nothing about an item that is dropped, so the
invariant is another one than in `Invariant`: the items from `low` on are in their slots.
-/

namespace FibConcurrent.FifoStealBuffer

open FibConcurrent.Machine FibConcurrent.Data

variable {ι α : Type*} {c : Capacity}

/-! ## The queue -/

/-- `fifo_steal_buffer_push` on a queue with room for `size` items. -/
inductive PushLegal (size : Nat) (data : α) : List α → Bool → List α → Prop
  | store (l : List α) (h : l.length < size) : PushLegal size data l true (l ++ [data])
  | full (l : List α) (h : l.length = size) : PushLegal size data l false l

/-- `fifo_steal_buffer_pop`: the last item is not returned. -/
inductive PopLegal : List α → Option α → List α → Prop
  | take (v w : α) (l : List α) : PopLegal (v :: w :: l) (some v) (w :: l)
  | drop (v : α) : PopLegal [v] none []
  | empty : PopLegal [] none []

/-- `fifo_steal_buffer_steal` may fail at any time. -/
inductive StealLegal : List α → StealResult α → List α → Prop
  | take (v : α) (l : List α) : StealLegal (v :: l) (.success v) l
  | empty (l : List α) : StealLegal l .empty l
  | abort (l : List α) : StealLegal l .abort l

inductive BufferLegal (size : Nat) : List α → Request α → Response α → List α → Prop
  | push {data : α} {l l' : List α} {stored : Bool} (h : PushLegal size data l stored l') :
      BufferLegal size l (.push data) (.pushed stored) l'
  | pop {l l' : List α} {out : Option α} (h : PopLegal l out l') :
      BufferLegal size l .pop (.popped out) l'
  | steal {l l' : List α} {result : StealResult α} (h : StealLegal l result l') :
      BufferLegal size l .steal (.stolen result) l'

/-- The queue, empty to begin with. -/
def bufferObject (α : Type*) (size : Nat) : Object (List α) (Request α) (Response α) where
  start l := l = []
  legal := BufferLegal size

/-! ## The items in the buffer -/

/-- The items that have been pushed and neither claimed nor dropped. -/
def Buffer.queue (m : Buffer α) : List α := m.pushed.drop m.low

structure Ordered (c : Capacity) (m : Buffer α) : Prop where
  high : m.high = m.pushed.length
  low : m.low ≤ m.high + 1
  room : m.high ≤ m.low + c.size
  slots : ∀ i, m.low ≤ i → i < m.high → m.pushed[i]? = some (m.buffer (c.slot i))

/-- What the master knows during a pop: `low` has run past `high` at most until it is set
back. -/
def PopKnows (c : Capacity) (m : Buffer α) : PopPc → Prop
  | .readHigh => m.low ≤ m.high
  | .readLow h => m.low ≤ m.high ∧ h = m.high
  | .addLow h => m.low ≤ m.high ∧ h = m.high
  | .writeLow h => m.high ≤ m.low ∧ h = m.high
  | .readSlot n => m.low ≤ m.high ∧ 1 ≤ n ∧ n ≤ m.high ∧
      m.pushed[n - 1]? = some (m.buffer (c.slot (n - 1)))

def MasterKnows (c : Capacity) (m : Buffer α) : Pc α → Prop
  | .push pc => m.low ≤ m.high ∧ PushFacts c m pc
  | .pop pc => PopKnows c m pc
  | _ => m.low ≤ m.high

structure ThreadKnows (c : Capacity) (master t : ι) (m : Buffer α) (pc : Pc α) : Prop where
  steal : ∀ p, pc = .steal p → StealFacts m p
  pushing : ∀ p, pc = .push p → t = master
  popping : ∀ p, pc = .pop p → t = master
  own : t = master → MasterKnows c m pc

def queueAssertion (c : Capacity) (master : ι) : Assertion ι (Buffer α) Unit (Pc α) where
  shared m _ := Ordered c m
  thread t m _ := ThreadKnows c master t m

section Queue

variable {m : Buffer α} {v : α}

theorem Ordered.length_queue (hO : Ordered c m) : m.queue.length = m.high - m.low := by
  rw [Buffer.queue, List.length_drop, hO.high]

theorem Ordered.queue_eq_nil (hO : Ordered c m) (h : m.high ≤ m.low) : m.queue = [] := by
  rw [Buffer.queue, List.drop_eq_nil_iff, ← hO.high]
  exact h

/-- The oldest item is in the slot of `low`. -/
theorem Ordered.queue_cons (hO : Ordered c m) (h : m.low < m.high)
    (hv : m.pushed[m.low]? = some v) : m.queue = v :: m.pushed.drop (m.low + 1) := by
  have hlt : m.low < m.pushed.length := hO.high ▸ h
  rw [List.getElem?_eq_getElem hlt] at hv
  rw [Buffer.queue, List.drop_eq_getElem_cons hlt, Option.some.inj hv]

/-- A push stores to a slot that no item in the buffer uses. -/
theorem Ordered.writeSlot (hO : Ordered c m) (hroom : m.high < m.low + c.size) :
    Ordered c { m with buffer := Function.update m.buffer (c.slot m.high) v } := by
  refine { hO with slots := fun i hi hi' => ?_ }
  have hlow : m.low ≤ i := hi
  have hlt : i < m.high := hi'
  show m.pushed[i]? = some (Function.update m.buffer (c.slot m.high) v (c.slot i))
  rw [Function.update_of_ne (c.slot_ne hlt (by omega))]
  exact hO.slots i hlow hlt

/-- The stored item becomes visible. -/
theorem Ordered.publish (hO : Ordered c m) (hle : m.low ≤ m.high)
    (hroom : m.high < m.low + c.size) (hv : m.buffer (c.slot m.high) = v) :
    Ordered c { m with high := m.high + 1, pushed := m.pushed ++ [v] } := by
  have hhigh := hO.high
  refine ⟨by simp [hhigh], ?_, hroom, fun i hi hi' => ?_⟩
  · show m.low ≤ m.high + 1 + 1
    omega
  · have hi'' : i < m.high + 1 := hi'
    show (m.pushed ++ [v])[i]? = some (m.buffer (c.slot i))
    by_cases heq : i = m.high
    · subst heq
      rw [hv, hhigh]
      simp
    · rw [List.getElem?_append_left (by omega)]
      exact hO.slots i hi (by omega)

/-- `low` moves, but not below where it was, or to the end. -/
theorem Ordered.moveLow {x : Nat} {l₁ : List Nat} {l₂ : List (Nat × α)} (hO : Ordered c m)
    (hx : x ≤ m.high + 1) (hlow : m.low ≤ x ∨ x = m.high) :
    Ordered c { m with low := x, claimed := l₁, taken := l₂ } := by
  have hroom := hO.room
  refine ⟨hO.high, hx, ?_, fun i hi hi' => ?_⟩
  · show m.high ≤ x + c.size
    omega
  · have hi : x ≤ i := hi
    have hi' : i < m.high := hi'
    exact hO.slots i (by omega) hi'

end Queue

/-! ## What one access does to the queue -/

structure PushEffect (c : Capacity) (m : Buffer α) (pc : PushPc α) (m' : Buffer α)
    (r : PushPc α ⊕ Bool) : Prop where
  ordered : Ordered c m'
  le : m'.low ≤ m'.high
  keeps : KeepsSteal m m'
  next : ∀ pc', r = .inl pc' → PushFacts c m' pc' ∧ pc'.data = pc.data ∧ m'.queue = m.queue
  result : ∀ stored, r = .inr stored → PushLegal c.size pc.data m.queue stored m'.queue

/-- A pop answers once, and then sees to it that the answer comes true. If one item is left, it
answers at its fetch-and-add. -/
structure PopEffect (c : Capacity) (m : Buffer α) (pc : PopPc) (m' : Buffer α)
    (r : PopPc ⊕ Option α) : Prop where
  ordered : Ordered c m'
  keeps : KeepsSteal m m'
  next : ∀ pc', r = .inl pc' → PopKnows c m' pc'
  rest : ∀ out, r = .inr out → m'.low ≤ m'.high
  answer : (r.elim (PopPc.answer m') some = pc.answer m ∧ m'.queue = m.queue) ∨
    pc.answer m = none ∧ ∃ out, r.elim (PopPc.answer m') some = some out ∧
      PopLegal m.queue out m'.queue ∧ (m.low + 1 = m.high → ∃ h, pc = .addLow h)

structure StealEffect (c : Capacity) (m m' : Buffer α) (r : StealPc α ⊕ StealResult α) :
    Prop where
  ordered : Ordered c m'
  keeps : KeepsSteal m m'
  master : KeepsMaster m m'
  le : m.low ≤ m.high → m'.low ≤ m'.high
  next : ∀ pc', r = .inl pc' → StealFacts m' pc' ∧ m'.queue = m.queue
  result : ∀ res, r = .inr res → StealLegal m.queue res m'.queue

section Effect

variable {m : Buffer α}

theorem pushStep_effect {pc : PushPc α} (hO : Ordered c m) (hle : m.low ≤ m.high)
    (hp : PushFacts c m pc) (hlen : (pushStep c m pc).1.pushed.length < 2 ^ 64) :
    PushEffect c m pc (pushStep c m pc).1 (pushStep c m pc).2 := by
  have hhigh := hO.high
  have hroom := hO.room
  have hlength := hO.length_queue
  cases pc with
  | readHigh v =>
    refine ⟨hO, hle, keepsSteal_refl m, ?_, by simp [pushStep]⟩
    rintro _ ⟨rfl⟩
    exact ⟨rfl, rfl, rfl⟩
  | readLow v h =>
    have hh : h = m.high := hp
    have hsub : wrapSub h m.low < c.size ↔ m.high < m.low + c.size := by
      have hlen : m.pushed.length < 2 ^ 64 := by
        refine Nat.lt_of_le_of_lt ?_ hlen
        simp only [pushStep]
        split <;> exact Nat.le_refl _
      rw [wrapSub_of_le (by omega) (by omega)]
      omega
    by_cases hok : wrapSub h m.low < c.size
    · have hstep : pushStep c m (.readLow v h) = (m, .inl (.writeSlot v h)) := by
        simp only [pushStep, if_pos hok]
      rw [hstep]
      refine ⟨hO, hle, keepsSteal_refl m, ?_, by simp⟩
      rintro _ ⟨rfl⟩
      exact ⟨⟨hh, hh ▸ hsub.mp hok⟩, rfl, rfl⟩
    · have hstep : pushStep c m (.readLow v h) = (m, .inr false) := by
        simp only [pushStep, if_neg hok]
      rw [hstep]
      refine ⟨hO, hle, keepsSteal_refl m, by simp, ?_⟩
      rintro _ ⟨rfl⟩
      rw [hsub] at hok
      exact .full _ (by omega)
  | writeSlot v h =>
    obtain ⟨rfl, hroom⟩ := hp
    refine ⟨hO.writeSlot hroom, hle, keepsSteal_buffer, ?_, by simp [pushStep]⟩
    rintro _ ⟨rfl⟩
    exact ⟨⟨rfl, hroom, Function.update_self ..⟩, rfl, rfl⟩
  | writeHigh v h =>
    obtain ⟨rfl, hroom, hv⟩ := hp
    have hlt : m.high + 1 < 2 ^ 64 := by
      have hlen : (m.pushed ++ [v]).length < 2 ^ 64 := hlen
      rw [List.length_append, List.length_singleton] at hlen
      omega
    have hstep : pushStep c m (.writeHigh v m.high) =
        ({ m with high := m.high + 1, pushed := m.pushed ++ [v] }, .inr true) := by
      simp only [pushStep, Nat.mod_eq_of_lt hlt]
    rw [hstep]
    refine ⟨hO.publish hle hroom hv, Nat.le_succ_of_le hle,
      ⟨Nat.le_succ _, List.prefix_append .., fun _ _ hl => ⟨hl, fun h => h⟩⟩, by simp, ?_⟩
    rintro _ ⟨rfl⟩
    have hqueue : (m.pushed ++ [v]).drop m.low = m.queue ++ [v] :=
      List.drop_append_of_le_length (by omega)
    show PushLegal c.size v m.queue true ((m.pushed ++ [v]).drop m.low)
    rw [hqueue]
    exact .store _ (by omega)

theorem stealStep_effect {pc : StealPc α} (hO : Ordered c m) (hp : StealFacts m pc)
    (hlen : m.pushed.length < 2 ^ 64) :
    StealEffect c m (stealStep c m pc).1 (stealStep c m pc).2 := by
  have hhigh := hO.high
  cases pc with
  | readHigh =>
    refine ⟨hO, keepsSteal_refl m, keepsMaster_refl m, id, ?_, by simp [stealStep]⟩
    rintro _ ⟨rfl⟩
    exact ⟨Nat.le_refl _, rfl⟩
  | readLow h =>
    have hh : h ≤ m.high := hp
    by_cases hlt : h > m.low
    · have hstep : stealStep c m (.readLow h) = (m, .inl (.readSlot m.low)) := by
        simp only [stealStep, if_pos hlt]
      rw [hstep]
      refine ⟨hO, keepsSteal_refl m, keepsMaster_refl m, id, ?_, by simp⟩
      rintro _ ⟨rfl⟩
      exact ⟨⟨Nat.le_refl _, Nat.lt_of_lt_of_le hlt hh⟩, rfl⟩
    · have hstep : stealStep c m (.readLow h) = (m, .inr .empty) := by
        simp only [stealStep, if_neg hlt]
      rw [hstep]
      refine ⟨hO, keepsSteal_refl m, keepsMaster_refl m, id, by simp, ?_⟩
      rintro _ ⟨rfl⟩
      exact .empty _
  | readSlot l =>
    obtain ⟨hl, hlt⟩ := hp
    refine ⟨hO, keepsSteal_refl m, keepsMaster_refl m, id, ?_, by simp [stealStep]⟩
    rintro _ ⟨rfl⟩
    exact ⟨⟨hl, hlt, fun heq => hO.slots l (Nat.le_of_eq heq.symm) hlt⟩, rfl⟩
  | swapLow l v =>
    obtain ⟨hl, hlt, hv⟩ := hp
    by_cases heq : m.low = l
    · -- the oldest item goes to this thief
      subst heq
      have hmod : (m.low + 1) % 2 ^ 64 = m.low + 1 := Nat.mod_eq_of_lt (by omega)
      have hstep : stealStep c m (.swapLow m.low v) = ({ m with
          low := m.low + 1
          claimed := m.claimed ++ [m.low]
          taken := m.taken ++ [(m.low, v)] }, .inr (.success v)) := by
        simp only [stealStep, if_true, hmod]
      rw [hstep]
      refine ⟨hO.moveLow (by omega) (.inl (Nat.le_succ _)),
        keepsSteal_low fun l _ hl => Nat.lt_succ_of_le hl, ⟨rfl, rfl, rfl, Nat.le_succ _⟩,
        fun _ => hlt, by simp, ?_⟩
      rintro _ ⟨rfl⟩
      rw [hO.queue_cons hlt (hv rfl)]
      exact .take ..
    · have hstep : stealStep c m (.swapLow l v) = (m, .inr .abort) := by
        simp only [stealStep, if_neg heq]
      rw [hstep]
      refine ⟨hO, keepsSteal_refl m, keepsMaster_refl m, id, by simp, ?_⟩
      rintro _ ⟨rfl⟩
      exact .abort _

theorem popStep_effect {pc : PopPc} (hO : Ordered c m) (hp : PopKnows c m pc)
    (hlen : m.pushed.length + 1 < 2 ^ 64) :
    PopEffect c m pc (popStep c m pc).1 (popStep c m pc).2 := by
  have hhigh := hO.high
  cases pc with
  | readHigh =>
    refine ⟨hO, keepsSteal_refl m, ?_, by simp [popStep], .inl ⟨rfl, rfl⟩⟩
    rintro _ ⟨rfl⟩
    exact ⟨hp, rfl⟩
  | readLow h =>
    obtain ⟨hle, rfl⟩ := hp
    by_cases hlt : m.high > m.low
    · have hstep : popStep c m (.readLow m.high) = (m, .inl (.addLow m.high)) := by
        simp only [popStep, if_pos hlt]
      rw [hstep]
      refine ⟨hO, keepsSteal_refl m, ?_, by simp, .inl ⟨rfl, rfl⟩⟩
      rintro _ ⟨rfl⟩
      exact ⟨hle, rfl⟩
    · have hstep : popStep c m (.readLow m.high) = (m, .inr none) := by
        simp only [popStep, if_neg hlt]
      rw [hstep]
      refine ⟨hO, keepsSteal_refl m, by simp, fun _ _ => hle,
        .inr ⟨rfl, none, rfl, ?_, fun _ => by omega⟩⟩
      rw [hO.queue_eq_nil (by omega)]
      exact .empty
  | addLow h =>
    obtain ⟨hle, rfl⟩ := hp
    have hmod : (m.low + 1) % 2 ^ 64 = m.low + 1 := Nat.mod_eq_of_lt (by omega)
    have hkeep : ∀ l, l < m.high → l ≤ m.low → l < m.low + 1 := fun l _ => Nat.lt_succ_of_le
    by_cases hge : m.low + 1 ≥ m.high
    · -- too late for the last item, or nothing was left anyway
      have hstep : popStep c m (.addLow m.high) =
          ({ m with low := m.low + 1 }, .inl (.writeLow m.high)) := by
        simp only [popStep, hmod, if_pos hge]
      rw [hstep]
      have hO' : Ordered c { m with low := m.low + 1 } :=
        hO.moveLow (by omega) (.inl (Nat.le_succ _))
      refine ⟨hO', keepsSteal_low hkeep, ?_, by simp,
        .inr ⟨rfl, none, rfl, ?_, fun _ => ⟨m.high, rfl⟩⟩⟩
      · rintro _ ⟨rfl⟩
        exact ⟨hge, rfl⟩
      · rw [hO'.queue_eq_nil hge]
        by_cases hlast : m.low < m.high
        · have hv := hO.slots m.low (Nat.le_refl _) hlast
          rw [hO.queue_cons hlast hv, List.drop_eq_nil_of_le (by omega)]
          exact .drop _
        · rw [hO.queue_eq_nil (by omega)]
          exact .empty
    · have hlt : m.low < m.high := by omega
      have hsub : wrapSub (m.low + 1) 1 = m.low := by
        rw [wrapSub_of_le (by omega) (by omega), Nat.add_sub_cancel]
      have hstep : popStep c m (.addLow m.high) = ({ m with
          low := m.low + 1, claimed := m.claimed ++ [m.low] }, .inl (.readSlot (m.low + 1))) := by
        simp only [popStep, hmod, if_neg hge, hsub]
      rw [hstep]
      have hv := hO.slots m.low (Nat.le_refl _) hlt
      have hw := hO.slots (m.low + 1) (Nat.le_succ _) (by omega)
      have hO' : Ordered c { m with low := m.low + 1, claimed := m.claimed ++ [m.low] } :=
        hO.moveLow (by omega) (.inl (Nat.le_succ _))
      refine ⟨hO', keepsSteal_low hkeep, ?_, by simp,
        .inr ⟨rfl, some (m.buffer (c.slot m.low)), congrArg some hv, ?_, fun _ => ⟨m.high, rfl⟩⟩⟩
      · rintro _ ⟨rfl⟩
        exact ⟨hlt, Nat.le_add_left .., hlt, hv⟩
      · have hnext : m.low + 1 < m.high := by omega
        rw [hO.queue_cons hlt hv]
        have hqueue := hO'.queue_cons hnext hw
        show PopLegal (m.buffer (c.slot m.low) :: m.pushed.drop (m.low + 1)) _
          (m.pushed.drop (m.low + 1))
        rw [show m.pushed.drop (m.low + 1) = _ from hqueue]
        exact .take ..
  | writeLow h =>
    obtain ⟨hge, rfl⟩ := hp
    have hO' : Ordered c { m with low := m.high } := hO.moveLow (Nat.le_succ _) (.inr rfl)
    refine ⟨hO', keepsSteal_low fun l hlt _ => hlt, by simp [popStep],
      fun _ _ => Nat.le_refl _, .inl ⟨rfl, ?_⟩⟩
    rw [hO.queue_eq_nil hge]
    exact hO'.queue_eq_nil (Nat.le_refl _)
  | readSlot n =>
    obtain ⟨hle, hpos, hn, hv⟩ := hp
    have hsub : wrapSub n 1 = n - 1 := wrapSub_of_le hpos (by omega)
    have hstep : popStep c m (.readSlot n) = ({ m with
        taken := m.taken ++ [(n - 1, m.buffer (c.slot (n - 1)))] },
        .inr (some (m.buffer (c.slot (n - 1))))) := by
      simp only [popStep, hsub]
    rw [hstep]
    exact ⟨hO.moveLow hO.low (.inl (Nat.le_refl _)),
      ⟨Nat.le_refl _, List.prefix_rfl, fun _ _ hl => ⟨hl, fun h => h⟩⟩, by simp,
      fun _ _ => hle, .inl ⟨congrArg some hv.symm, rfl⟩⟩

end Effect

/-! ## Every access keeps the queue -/

section Keeps

variable {m m' : Buffer α} {r : StealPc α ⊕ StealResult α}

theorem PushFacts.keep {pc : PushPc α} (h : PushFacts c m pc) (hk : KeepsMaster m m') :
    PushFacts c m' pc := by
  have hlow := hk.low
  cases pc with
  | readHigh v => trivial
  | readLow v h₀ => exact Eq.trans h hk.high.symm
  | writeSlot v h₀ =>
    obtain ⟨hh, hroom⟩ := h
    exact ⟨hh.trans hk.high.symm, by omega⟩
  | writeHigh v h₀ =>
    obtain ⟨hh, hroom, hv⟩ := h
    exact ⟨hh.trans hk.high.symm, by omega, hk.buffer ▸ hv⟩

/-- What the master knows stands against steals. -/
theorem MasterKnows.keep {pc : Pc α} (h : MasterKnows c m pc) (hE : StealEffect c m m' r) :
    MasterKnows c m' pc := by
  have hk := hE.master
  cases pc with
  | push pc => exact ⟨hE.le h.1, h.2.keep hk⟩
  | pop pc =>
    cases pc with
    | readHigh => exact hE.le h
    | readLow h₀ => exact ⟨hE.le h.1, h.2.trans hk.high.symm⟩
    | addLow h₀ => exact ⟨hE.le h.1, h.2.trans hk.high.symm⟩
    | writeLow h₀ =>
      refine ⟨?_, h.2.trans hk.high.symm⟩
      rw [hk.high]
      exact Nat.le_trans h.1 hk.low
    | readSlot n =>
      obtain ⟨hle, hpos, hn, hv⟩ := h
      refine ⟨hE.le hle, hpos, hk.high.symm ▸ hn, ?_⟩
      rw [hk.pushed, hk.buffer]
      exact hv
  | _ => exact hE.le h

end Keeps

section Runs

variable [DecidableEq ι] {master : ι} {s : Config ι (Buffer α) (Pc α)}
  {hist : List (Event ι (Config ι (Buffer α) (Pc α)))}

/-- Fewer than `2 ^ 64 - 1` items are pushed, so that a fetch-and-add on `low` does not wrap
around even when it comes too late. -/
def FewItems (_t : ι) (_m : Buffer α) (_pc : Pc α) (m' : Buffer α) : Prop :=
  m'.pushed.length + 1 < 2 ^ 64

/-- **Every step of every thread keeps the items from `low` on in their slots.** -/
theorem queueAssertion_kept :
    (queueAssertion (α := α) c master).Kept (bufferProgram c master) FewItems := by
  intro t a m pc m' pc' g hO hL hlen he
  have hle : m.pushed.length ≤ m'.pushed.length := pushed_le_of_exec c master t he
  have hfew : m.pushed.length + 1 < 2 ^ 64 := Nat.lt_of_le_of_lt (Nat.succ_le_succ hle) hlen
  have hown := hL.own
  have hstay : ∀ u, u ≠ t → ∀ k, ThreadKnows c master u m k → ThreadKnows c master u m k :=
    fun _ _ _ h => h
  simp only [bufferProgram, exec] at he
  cases pc with
  | idle =>
    cases a <;> simp only [Option.ite_none_right_eq_some, Option.some.injEq, Prod.mk.injEq,
      reduceCtorEq] at he
    case push v =>
      obtain ⟨rfl, rfl, rfl⟩ := he
      exact ⟨g, hO, ⟨by simp, fun _ _ => rfl, by simp, fun _ => ⟨hown rfl, trivial⟩⟩, hstay⟩
    case pop =>
      obtain ⟨rfl, rfl, rfl⟩ := he
      exact ⟨g, hO, ⟨by simp, by simp, fun _ _ => rfl, hown⟩, hstay⟩
    case steal =>
      obtain ⟨rfl, rfl⟩ := he
      refine ⟨g, hO, ⟨fun p hp => ?_, by simp, by simp, hown⟩, hstay⟩
      cases hp
      trivial
  | push pc =>
    simp only [Option.some.injEq, Prod.mk.injEq] at he
    obtain ⟨rfl, rfl⟩ := he
    have ht := hL.pushing pc rfl
    subst ht
    obtain ⟨hle, hp⟩ := hown rfl
    have hE := pushStep_effect hO hle hp (Nat.lt_of_succ_lt hlen)
    refine ⟨g, hE.ordered, ?_, fun u hu k h => ⟨fun p hp => (h.steal p hp).keep hE.keeps,
      h.pushing, h.popping, fun h => absurd h hu⟩⟩
    cases hnext : (pushStep c m pc).2 with
    | inl pc' => exact ⟨by simp, fun _ _ => rfl, by simp, fun _ => ⟨hE.le, (hE.next pc' hnext).1⟩⟩
    | inr r => exact ⟨by simp, by simp, by simp, fun _ => hE.le⟩
  | pop pc =>
    simp only [Option.some.injEq, Prod.mk.injEq] at he
    obtain ⟨rfl, rfl⟩ := he
    have ht := hL.popping pc rfl
    subst ht
    have hE := popStep_effect hO (hown rfl) hfew
    refine ⟨g, hE.ordered, ?_, fun u hu k h => ⟨fun p hp => (h.steal p hp).keep hE.keeps,
      h.pushing, h.popping, fun h => absurd h hu⟩⟩
    cases hnext : (popStep c m pc).2 with
    | inl pc' => exact ⟨by simp, by simp, fun _ _ => rfl, fun _ => hE.next pc' hnext⟩
    | inr r => exact ⟨by simp, by simp, by simp, fun _ => hE.rest r hnext⟩
  | steal pc =>
    simp only [Option.some.injEq, Prod.mk.injEq] at he
    obtain ⟨rfl, rfl⟩ := he
    have hE := stealStep_effect hO (hL.steal pc rfl) (Nat.lt_of_succ_lt hfew)
    refine ⟨g, hE.ordered, ?_, fun u hu k h => ⟨fun p hp => (h.steal p hp).keep hE.keeps,
      h.pushing, h.popping, fun hm => (h.own hm).keep hE⟩⟩
    cases hnext : (stealStep c m pc).2 with
    | inl pc' =>
      refine ⟨fun p hp => ?_, by simp, by simp, fun hm => hE.le (hown hm)⟩
      cases hp
      exact (hE.next pc' hnext).1
    | inr r => exact ⟨by simp, by simp, by simp, fun hm => hE.le (hown hm)⟩
  | _ =>
    simp only [Option.some.injEq, Prod.mk.injEq] at he
    obtain ⟨rfl, rfl⟩ := he
    exact ⟨g, hO, ⟨by simp, by simp, by simp, hown⟩, hstay⟩

omit [DecidableEq ι] in
theorem queueAssertion_init (h : Init s) : (queueAssertion c master).Holds s := by
  obtain ⟨hhigh, hlow, hpushed, -, -, hidle⟩ := h
  refine ⟨(), ⟨?_, ?_, ?_, ?_⟩, fun t => ?_⟩
  · rw [hhigh, hpushed]
    rfl
  · omega
  · omega
  · omega
  · rw [hidle t]
    exact ⟨by simp, by simp, by simp, fun _ => by show s.mem.low ≤ s.mem.high; omega⟩

/-- The bound held all along. -/
theorem fewItems_of_run (run : Run Init (bufferProgram c master).Step s hist)
    (hlen : s.mem.pushed.length + 1 < 2 ^ 64) :
    Run Init ((bufferProgram c master).StepIf FewItems) s hist := by
  have hback : ∀ t (s s' : Config ι (Buffer α) (Pc α)), (bufferProgram c master).Step t s s' →
      s'.mem.pushed.length + 1 < 2 ^ 64 → s.mem.pushed.length + 1 < 2 ^ 64 := by
    intro t s s' hs h
    obtain ⟨a, he⟩ := hs.exec
    exact Nat.lt_of_le_of_lt (Nat.succ_le_succ (pushed_le_of_exec c master t he)) h
  exact run.bounded hback hlen

theorem fifoStealBuffer_queue (run : Run Init ((bufferProgram c master).StepIf FewItems) s hist) :
    Ordered c s.mem ∧ ∀ t, ThreadKnows c master t s.mem (s.loc t) := by
  obtain ⟨g, hO, hT⟩ := queueAssertion_kept.run (fun _ h => queueAssertion_init h) run
  exact ⟨hO, hT⟩

end Runs

/-! ## Calls -/

section Calls

variable {m m' : Buffer α} {pc pc' : Pc α} {t master : ι}

/-- Every access is a move of the client of a queue that holds `Buffer.queue`. -/
theorem goes_of_exec [DecidableEq ι] {a : Choice α}
    (he : exec c master t a m pc = some (m', pc')) (hO : Ordered c m)
    (hT : ThreadKnows c master t m pc) (hlen : m'.pushed.length + 1 < 2 ^ 64) :
    (bufferObject α c.size).Goes m.queue (pc.client m) (bufferInterface.labels t m pc m' pc')
      m'.queue (pc'.client m') := by
  have hle : m.pushed.length ≤ m'.pushed.length := pushed_le_of_exec c master t he
  cases pc with
  | idle =>
    cases a with
    | push data =>
      obtain ⟨-, h⟩ := Option.ite_none_right_eq_some.mp he
      obtain ⟨rfl, rfl⟩ := Prod.mk.inj (Option.some.inj h)
      exact .call (Request.push data) .refl
    | pop =>
      obtain ⟨-, h⟩ := Option.ite_none_right_eq_some.mp he
      obtain ⟨rfl, rfl⟩ := Prod.mk.inj (Option.some.inj h)
      exact .call Request.pop .refl
    | steal =>
      obtain ⟨rfl, rfl⟩ := Prod.mk.inj (Option.some.inj he)
      exact .call Request.steal .refl
    | step => cases he
  | push pc =>
    obtain ⟨rfl, rfl⟩ := Prod.mk.inj (Option.some.inj he)
    obtain ⟨hlow, hp⟩ := hT.own (hT.pushing pc rfl)
    have hE := pushStep_effect hO hlow hp (Nat.lt_of_succ_lt hlen)
    cases hr : (pushStep c m pc).2 with
    | inl pc' =>
      obtain ⟨-, hdata, hqueue⟩ := hE.next pc' hr
      rw [hqueue]
      show (bufferObject α c.size).Goes _ (.pending (.push pc.data)) [] _
        (.pending (.push pc'.data))
      rw [hdata]
      exact .refl
    | inr stored => exact .perform .refl (.push (hE.result stored hr))
  | pop pc =>
    obtain ⟨rfl, hpc'⟩ := Prod.mk.inj (Option.some.inj he)
    have hE := popStep_effect hO (hT.own (hT.popping pc rfl))
      (Nat.lt_of_le_of_lt (Nat.succ_le_succ hle) hlen)
    have hclient : pc' = (popStep c m pc).2.elim Pc.pop Pc.popRet := by
      rw [← hpc']
      cases (popStep c m pc).2 <;> rfl
    have hlabels : bufferInterface.labels t m (.pop pc) (popStep c m pc).1 pc' = [] := by
      rw [hclient]
      cases (popStep c m pc).2 <;> rfl
    rw [hlabels, hclient, client_pop]
    show (bufferObject α c.size).Goes _
      ((pc.answer m).elim (.pending .pop) fun out => .done (.popped out)) [] _ _
    rcases hE.answer with ⟨hanswer, hqueue⟩ | ⟨hnone, out, hsome, hlegal, -⟩
    · rw [hanswer, hqueue]
      exact .refl
    · rw [hnone, hsome]
      exact .perform .refl (.pop hlegal)
  | steal pc =>
    obtain ⟨rfl, rfl⟩ := Prod.mk.inj (Option.some.inj he)
    have hE := stealStep_effect hO (hT.steal pc rfl)
      (Nat.lt_of_succ_lt (Nat.lt_of_le_of_lt (Nat.succ_le_succ hle) hlen))
    cases hr : (stealStep c m pc).2 with
    | inl pc' =>
      rw [(hE.next pc' hr).2]
      exact .refl
    | inr result => exact .perform .refl (.steal (hE.result result hr))
  | _ =>
    obtain ⟨rfl, rfl⟩ := Prod.mk.inj (Option.some.inj he)
    exact .ret .refl

variable [DecidableEq ι] {s : Config ι (Buffer α) (Pc α)}
  {hist : List (Event ι (Config ι (Buffer α) (Pc α)))}

/-- **`fifo_steal_buffer` is linearizable to a queue that loses its last item**: in every
interleaving of its master and any number of thieves the calls can be put into one
sequence that keeps the order of calls of which one returned before the other began, and in
which a push fails exactly if there is no room, and a pop takes the oldest item except that
it drops a last one and returns 0. -/
theorem fifoStealBuffer_calls_linearizable (run : Run Init (bufferProgram c master).Step s hist)
    (hlen : s.mem.pushed.length + 1 < 2 ^ 64) :
    Linearizable (bufferObject α c.size) (bufferInterface.trace hist) := by
  refine (fewItems_of_run run hlen).linearizable (bufferObject α c.size) (fun _ => Pc.client)
    (fun m x => m.queue = x) ?_ ?_ ?_
  · rintro s ⟨-, -, hpushed, -, -, hidle⟩
    refine ⟨⟨[], rfl, ?_⟩, fun t => ?_⟩
    · rw [Buffer.queue, hpushed, List.drop_nil]
    · rw [hidle t]
      rfl
  · rintro t s s' ⟨hist, hr⟩ ⟨-, hs⟩ u hut
    obtain ⟨-, hT⟩ := fifoStealBuffer_queue hr
    obtain ⟨a, he⟩ := hs.exec
    exact client_of_others (t := t) he (hT t).pushing (hT u).popping hut
  · rintro t s s' x ⟨hist, hr⟩ ⟨hfew, hs⟩ rfl
    obtain ⟨hO, hT⟩ := fifoStealBuffer_queue hr
    obtain ⟨a, he⟩ := hs.exec
    exact ⟨s'.mem.queue, rfl, goes_of_exec (t := t) he hO (hT t) hfew⟩

/-- The master pushes 7 and 8. Thread 1 steals 7 during the pop of the master, which then
drops 8 and answers 0. -/
theorem fifoStealBuffer_calls_linearizable_drop :
    ∃ (s : Config Nat (Buffer Nat) (Pc Nat)) (hist : _),
      Run Init (bufferProgram two 0).Step s hist ∧ s.mem.pushed.length + 1 < 2 ^ 64 ∧
        bufferInterface.trace hist = [(0, .call (.push 7)), (0, .ret (.pushed true)),
          (0, .call (.push 8)), (0, .ret (.pushed true)), (0, .call .pop), (1, .call .steal),
          (1, .ret (.stolen (.success 7))), (0, .ret (.popped none))] ∧
        Linearizable (bufferObject Nat two.size) (bufferInterface.trace hist) := by
  have hstart : Run Init (bufferProgram (ι := Nat) two 0).Step (initial 0) [] :=
    .start ⟨rfl, rfl, rfl, rfl, rfl, fun _ => rfl⟩
  obtain ⟨s, hist, run, hlen, htrace⟩ := hstart.exists_of_history
    (q := fun s hist => s.mem.pushed.length + 1 < 2 ^ 64 ∧ bufferInterface.trace hist =
      [(0, .call (.push 7)), (0, .ret (.pushed true)), (0, .call (.push 8)),
        (0, .ret (.pushed true)), (0, .call .pop), (1, .call .steal),
        (1, .ret (.stolen (.success 7))), (0, .ret (.popped none))])
    (List.flatten [(0, .push 7) :: List.replicate 5 (0, .step),
      (0, .push 8) :: List.replicate 5 (0, .step), [(0, .pop), (0, .step), (0, .step)],
      (1, .steal) :: List.replicate 5 (1, .step), List.replicate 3 (0, .step)])
    (by decide +kernel)
  exact ⟨s, hist, run, hlen, htrace, fifoStealBuffer_calls_linearizable run hlen⟩

end Calls

end FibConcurrent.FifoStealBuffer
