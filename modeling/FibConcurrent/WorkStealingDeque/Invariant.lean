import FibConcurrent.WorkStealingDeque.Model

/-!
# WorkStealingDeque — what holds while every pop drains its store of `bottom`

The ghost remembers which element belongs to which index (`val`), how far the
deque reaches (`limit`), and up to where thieves may take elements (`free`):
one less than `limit` while a pop that needs no CAS is about to read its slot.

The owner works on the memory as it sees it, with its own buffer applied
(`Window`). A thief works on what has drained: whatever it reads there, now or
after more has drained, is the element at the index (`Visible`). A store of the
owner is checked once, in `StoreOk`, against both.
-/

namespace FibConcurrent.WorkStealingDeque

open FibConcurrent.Machine FibConcurrent.Data

variable {ι α : Type*}

structure Ghost (α : Type*) where
  val : Int → α
  limit : Int
  free : Int

/-- From now on array `a` holds `x` at index `i`, whatever drains. -/
def SlotOk (a : Nat) (i : Int) (x : α) : Memory α → List (Store α) → Prop :=
  Always write fun m _ => m.get a i = x

/-- Whichever array is read, it is one of the first `A`, and from then on it
holds `x` at index `i`. -/
def CellOk (A : Nat) (i : Int) (x : α) : Memory α → List (Store α) → Prop :=
  Always write fun m buf => m.underlyingArray ≤ A ∧ SlotOk m.underlyingArray i x m buf

/-- Whatever has drained, the indices a thief finds below `bottom` are taken by
thieves only, and it finds their elements. -/
def Visible (A : Nat) (g : Ghost α) : Memory α → List (Store α) → Prop :=
  Always write fun m buf => m.bottom ≤ g.free ∧
    ∀ i, m.top ≤ i → i < m.bottom → CellOk A i (g.val i) m buf

/-- The deque as its owner sees it. -/
structure Window (v : Memory α) (g : Ghost α) : Prop where
  array : v.underlyingArray < 31
  top : v.top ≤ g.free
  free : g.free ≤ g.limit
  bottom : v.bottom ≤ g.free
  room : g.limit - v.top ≤ sizeMinusOne v.underlyingArray
  slots : ∀ i, v.top ≤ i → i < g.limit → v.get v.underlyingArray i = g.val i

structure Inv [DecidableEq α] (m : Memory α) (buf : List (Store α)) (log : List (DequeOp α))
    (g : Ghost α) : Prop where
  log : Replays dequeApply [] log (segment g.val m.top g.limit)
  window : Window (drained write m buf) g
  visible : Visible (drained write m buf).underlyingArray g m buf

/-! ## What the threads know -/

/-- Nothing is being popped. -/
def Rests (v : Memory α) (g : Ghost α) : Prop := v.bottom = g.limit ∧ g.free = g.limit

/-- `bottom` is one too low, and the last element is still there for everybody. -/
def Popping (v : Memory α) (g : Ghost α) : Prop := v.bottom + 1 = g.limit ∧ g.free = g.limit

/-- `bottom` is one too low, and the last element belongs to the owner. -/
def Reserved (v : Memory α) (g : Ghost α) : Prop := v.bottom + 1 = g.limit ∧ g.free = v.bottom

/-- The next larger array holds what is left of the elements below `i`. -/
structure Copied (v : Memory α) (g : Ghost α) (newA : Nat) (i : Int) : Prop where
  next : newA = v.underlyingArray + 1
  lt : newA < 31
  slots : ∀ j, v.top ≤ j → j < i → v.get newA j = g.val j

def GrowFacts (v : Memory α) (g : Ghost α) : GrowPc α → Prop
  | .create a start stop =>
      Rests v g ∧ a = v.underlyingArray ∧ start ≤ v.top ∧ stop = g.limit
  | .get a newA i stop =>
      Rests v g ∧ a = v.underlyingArray ∧ stop = g.limit ∧ i < stop ∧ Copied v g newA i
  | .put a newA i stop p =>
      Rests v g ∧ a = v.underlyingArray ∧ stop = g.limit ∧ i < stop ∧ Copied v g newA i ∧
        (v.top ≤ i → p = g.val i)

/-- What `wsd_circular_array_grow` returns. -/
def GrownFacts (v : Memory α) (g : Ghost α) (result : Option Nat) : Prop :=
  Rests v g ∧ ∀ a, result = some a → Copied v g a g.limit

/-- There is room for one more element in the array. -/
def Room (v : Memory α) (g : Ghost α) : Prop :=
  g.limit - v.top < sizeMinusOne v.underlyingArray

def PushFacts (p : α) (v : Memory α) (g : Ghost α) : PushPc α → Prop
  | .readBottom => Rests v g
  | .readTop b => Rests v g ∧ b = g.limit
  | .readArray b t => Rests v g ∧ b = g.limit ∧ t ≤ v.top
  | .grow b pc => b = g.limit ∧ GrowFacts v g pc
  | .readOld b a => Rests v g ∧ b = g.limit ∧ Copied v g a g.limit
  | .writeArray b a _ => Rests v g ∧ b = g.limit ∧ Copied v g a g.limit
  | .put b a _ => Rests v g ∧ b = g.limit ∧ a = v.underlyingArray ∧ Room v g
  | .barrier b _ => Rests v g ∧ b = g.limit ∧ Room v g ∧ v.get v.underlyingArray b = p
  | .writeBottom b _ => Rests v g ∧ b = g.limit ∧ Room v g ∧ v.get v.underlyingArray b = p

def GrowDequeFacts (v : Memory α) (g : Ghost α) : GrowDequePc α → Prop
  | .readBottom => Rests v g
  | .readTop b => Rests v g ∧ b = g.limit
  | .readArray b t => Rests v g ∧ b = g.limit ∧ t ≤ v.top
  | .readOld b t => Rests v g ∧ b = g.limit ∧ t ≤ v.top
  | .readSource b t _ => Rests v g ∧ b = g.limit ∧ t ≤ v.top
  | .grow _ pc => GrowFacts v g pc
  | .writeArray a _ => Rests v g ∧ Copied v g a g.limit

def PopFacts (v : Memory α) (g : Ghost α) : PopPc α → Prop
  | .readBottom => Rests v g
  | .readArray b => Rests v g ∧ b + 1 = g.limit
  | .writeBottom b a => Rests v g ∧ b + 1 = g.limit ∧ a = v.underlyingArray
  | .barrier b a => Popping v g ∧ b = v.bottom ∧ a = v.underlyingArray
  | .readTop b a => Popping v g ∧ b = v.bottom ∧ a = v.underlyingArray
  | .get b a t => b = v.bottom ∧ a = v.underlyingArray ∧ t ≤ v.top ∧
      (t < b → Reserved v g) ∧ (b ≤ t → Popping v g ∧ t = b)
  | .swapTop t ret => Popping v g ∧ t = v.bottom ∧ t ≤ v.top ∧ (v.top = t → ret = g.val t)
  | .settle b _ => Popping v g ∧ b = g.limit

/-- What the owner knows, about the memory as it sees it. -/
def OwnerFacts (v : Memory α) (g : Ghost α) : Pc α → Prop
  | .push _ p pc => PushFacts p v g pc
  | .grow pc => GrowDequeFacts v g pc
  | .pop pc => PopFacts v g pc
  | .steal _ => False
  | _ => Rests v g

/-- What a thief knows: its `t` is still `top`, or its CAS will fail. -/
def StealFacts (m : Memory α) (buf : List (Store α)) (g : Ghost α) : StealPc α → Prop
  | .readTop => True
  | .barrier t => t ≤ m.top
  | .readBottom t => t ≤ m.top
  | .readArray t b => t ≤ m.top ∧ (m.top = t → t < b →
      t < g.free ∧ CellOk (drained write m buf).underlyingArray t (g.val t) m buf)
  | .get t a => t ≤ m.top ∧ (m.top = t →
      t < g.free ∧ a ≤ (drained write m buf).underlyingArray ∧ SlotOk a t (g.val t) m buf)
  | .swapTop t ret => t ≤ m.top ∧ (m.top = t → t < g.free ∧ ret = g.val t)

def ThiefFacts (m : Memory α) (buf : List (Store α)) (g : Ghost α) : Pc α → Prop
  | .push _ _ _ => False
  | .grow _ => False
  | .pop _ => False
  | .steal pc => StealFacts m buf g pc
  | _ => True

/-! ## Buffers -/

section Buffers

variable {m : Memory α} {buf : List (Store α)} {w : Store α} {g : Ghost α} {a A : Nat} {i : Int}
  {x : α}

@[simp] theorem top_write (w : Store α) (m : Memory α) : (write w m).top = m.top := by
  cases w <;> rfl

/-- Only a CAS changes `top`. -/
@[simp] theorem top_drained (m : Memory α) (buf : List (Store α)) :
    (drained write m buf).top = m.top := by
  induction buf generalizing m with
  | nil => rfl
  | cons w buf ih => rw [drained_cons, ih, top_write]

theorem get_write_put_self (a : Nat) (i : Int) (p : α) (m : Memory α) :
    (write (.put a i p) m).get a i = p := by
  simp [write, Memory.get]

theorem get_write_put_of_ne {b : Nat} {j : Int} (h : b = a → cell a j ≠ cell a i) (p : α)
    (m : Memory α) : (write (.put a i p) m).get b j = m.get b j := by
  unfold write Memory.get
  by_cases hb : b = a
  · subst hb
    simp [h rfl]
  · simp [hb]

theorem write_setTop (t : Int) (w : Store α) (m : Memory α) :
    write w (m.setTop t) = (write w m).setTop t := by
  cases w <;> rfl

theorem drained_setTop (t : Int) (m : Memory α) (buf : List (Store α)) :
    drained write (m.setTop t) buf = (drained write m buf).setTop t :=
  drained_map (f := (Memory.setTop · t)) (write_setTop t)

theorem SlotOk.setTop (h : SlotOk a i x m buf) (t : Int) : SlotOk a i x (m.setTop t) buf :=
  Always.map (f := (Memory.setTop · t)) (write_setTop t) (fun _ _ h => h) h

theorem CellOk.setTop (h : CellOk A i x m buf) (t : Int) : CellOk A i x (m.setTop t) buf :=
  Always.map (f := (Memory.setTop · t)) (write_setTop t) (fun _ _ h => ⟨h.1, h.2.setTop t⟩) h

end Buffers

/-! ## What the owner's accesses leave alone -/

/-- What a thief that is about to take the first element may rely on. -/
structure KeepsHead (m : Memory α) (buf : List (Store α)) (g : Ghost α) (m' : Memory α)
    (buf' : List (Store α)) (g' : Ghost α) : Prop where
  free : m.top < g'.free
  val : g'.val m.top = g.val m.top
  array : (drained write m buf).underlyingArray ≤ (drained write m' buf').underlyingArray
  cell : CellOk (drained write m buf).underlyingArray m.top (g.val m.top) m buf →
    CellOk (drained write m' buf').underlyingArray m.top (g.val m.top) m' buf'
  slot : ∀ a, a ≤ (drained write m buf).underlyingArray →
    SlotOk a m.top (g.val m.top) m buf → SlotOk a m.top (g.val m.top) m' buf'

structure KeepsSteal (m : Memory α) (buf : List (Store α)) (g : Ghost α) (m' : Memory α)
    (buf' : List (Store α)) (g' : Ghost α) : Prop where
  top : m.top ≤ m'.top
  head : m'.top = m.top → m.top < g.free → KeepsHead m buf g m' buf' g'

section Keeps

variable {m m' : Memory α} {buf buf' : List (Store α)} {g g' : Ghost α}

/-- Nothing has changed in the memory. -/
theorem keepsSteal_same (hval : g'.val = g.val) (hfree : m.top < g.free → m.top < g'.free) :
    KeepsSteal m buf g m buf g' :=
  ⟨Int.le_refl _, fun _ hlt => ⟨hfree hlt, by rw [hval], Nat.le_refl _, fun h => h, fun _ _ h => h⟩⟩

/-- Another thief's element is gone. -/
theorem keepsSteal_of_lt (h : m.top < m'.top) : KeepsSteal m buf g m' buf' g' :=
  ⟨Int.le_of_lt h, fun heq => by omega⟩

theorem StealFacts.keep {pc : StealPc α} (h : StealFacts m buf g pc)
    (hk : KeepsSteal m buf g m' buf' g') : StealFacts m' buf' g' pc := by
  have htop := hk.top
  cases pc with
  | readTop => trivial
  | barrier t => exact Int.le_trans h htop
  | readBottom t => exact Int.le_trans h htop
  | readArray t b =>
    obtain ⟨ht, hcell⟩ := h
    refine ⟨Int.le_trans ht htop, fun heq hlt => ?_⟩
    obtain rfl : m.top = t := by omega
    obtain ⟨hfree, hc⟩ := hcell rfl hlt
    have hh := hk.head heq hfree
    rw [hh.val]
    exact ⟨hh.free, hh.cell hc⟩
  | get t a =>
    obtain ⟨ht, hslot⟩ := h
    refine ⟨Int.le_trans ht htop, fun heq => ?_⟩
    obtain rfl : m.top = t := by omega
    obtain ⟨hfree, ha, hs⟩ := hslot rfl
    have hh := hk.head heq hfree
    rw [hh.val]
    exact ⟨hh.free, Nat.le_trans ha hh.array, hh.slot a ha hs⟩
  | swapTop t ret =>
    obtain ⟨ht, hret⟩ := h
    refine ⟨Int.le_trans ht htop, fun heq => ?_⟩
    obtain rfl : m.top = t := by omega
    obtain ⟨hfree, hv⟩ := hret rfl
    have hh := hk.head heq hfree
    rw [hh.val]
    exact ⟨hh.free, hv⟩

theorem ThiefFacts.keep {pc : Pc α} (h : ThiefFacts m buf g pc)
    (hk : KeepsSteal m buf g m' buf' g') : ThiefFacts m' buf' g' pc := by
  cases pc with
  | steal pc => exact StealFacts.keep h hk
  | _ => exact h

end Keeps

/-! ## What a thief's CAS leaves alone -/

section SetTop

variable {v : Memory α} {g : Ghost α} {t : Int}

theorem Copied.setTop {newA : Nat} {i : Int} (h : Copied v g newA i) (ht : v.top ≤ t) :
    Copied (v.setTop t) g newA i := by
  refine ⟨h.next, h.lt, fun j hj hji => ?_⟩
  have hj' : t ≤ j := hj
  exact h.slots j (by omega) hji

theorem Room.setTop (h : Room v g) (ht : v.top ≤ t) : Room (v.setTop t) g := by
  unfold Room at *
  show g.limit - t < sizeMinusOne v.underlyingArray
  omega

theorem GrowFacts.setTop {pc : GrowPc α} (h : GrowFacts v g pc) (ht : v.top ≤ t) :
    GrowFacts (v.setTop t) g pc := by
  cases pc with
  | create a start stop =>
    obtain ⟨hr, ha, hstart, hstop⟩ := h
    exact ⟨hr, ha, Int.le_trans hstart ht, hstop⟩
  | get a newA i stop =>
    obtain ⟨hr, ha, hstop, hi, hc⟩ := h
    exact ⟨hr, ha, hstop, hi, hc.setTop ht⟩
  | put a newA i stop p =>
    obtain ⟨hr, ha, hstop, hi, hc, hp⟩ := h
    exact ⟨hr, ha, hstop, hi, hc.setTop ht, fun htop => hp (Int.le_trans ht htop)⟩

theorem OwnerFacts.setTop {pc : Pc α} (h : OwnerFacts v g pc) (ht : v.top ≤ t) :
    OwnerFacts (v.setTop t) g pc := by
  cases pc with
  | push autogrow p pc =>
    cases pc with
    | readArray b t₀ => exact ⟨h.1, h.2.1, Int.le_trans h.2.2 ht⟩
    | grow b pc => exact ⟨h.1, h.2.setTop ht⟩
    | readOld b a => exact ⟨h.1, h.2.1, h.2.2.setTop ht⟩
    | writeArray b a old => exact ⟨h.1, h.2.1, h.2.2.setTop ht⟩
    | put b a old => exact ⟨h.1, h.2.1, h.2.2.1, h.2.2.2.setTop ht⟩
    | barrier b old => exact ⟨h.1, h.2.1, h.2.2.1.setTop ht, h.2.2.2⟩
    | writeBottom b old => exact ⟨h.1, h.2.1, h.2.2.1.setTop ht, h.2.2.2⟩
    | _ => exact h
  | grow pc =>
    cases pc with
    | readArray b t₀ => exact ⟨h.1, h.2.1, Int.le_trans h.2.2 ht⟩
    | readOld b t₀ => exact ⟨h.1, h.2.1, Int.le_trans h.2.2 ht⟩
    | readSource b t₀ old => exact ⟨h.1, h.2.1, Int.le_trans h.2.2 ht⟩
    | grow old pc => exact GrowFacts.setTop h ht
    | writeArray a old => exact ⟨h.1, h.2.setTop ht⟩
    | _ => exact h
  | pop pc =>
    cases pc with
    | get b a t₀ => exact ⟨h.1, h.2.1, Int.le_trans h.2.2.1 ht, h.2.2.2⟩
    | swapTop t₀ ret =>
      obtain ⟨hp, hb, ht₀, hret⟩ := h
      refine ⟨hp, hb, Int.le_trans ht₀ ht, fun heq => hret ?_⟩
      have heq' : t = t₀ := heq
      omega
    | _ => exact h
  | _ => exact h

end SetTop

end FibConcurrent.WorkStealingDeque
