import FibConcurrent.WorkStealingDeque.Invariant

/-!
# WorkStealingDeque — one access of each operation

What the memory can do in one step: the owner's oldest store drains
(`Inv.drain`), a store of the owner enters its buffer (`Inv.store`), a CAS takes
the first element (`Inv.advance`), and two steps that only the ghost notices:
a pop reserves the last element for itself, and takes it.

`OwnerOk` says what an access of the owner has to establish; there is one lemma
for each function of the source, and none looks into another.
-/

namespace FibConcurrent.WorkStealingDeque

open FibConcurrent.Machine FibConcurrent.Data

variable {α : Type*}

/-! ## Stores of the owner -/

section Stores

variable {m v : Memory α} {buf : List (Store α)} {w : Store α} {g g' : Ghost α}

/-- What a store of the owner may do to the deque as the owner sees it. -/
structure StoreOk (v : Memory α) (w : Store α) (g g' : Ghost α) : Prop where
  window : Window (write w v) g'
  array : v.underlyingArray ≤ (write w v).underlyingArray
  free : g.free ≤ g'.free
  val : ∀ i, v.top ≤ i → i < g.free → g'.val i = g.val i
  keep : ∀ i a, v.top ≤ i → i < g.free → a ≤ v.underlyingArray → v.get a i = g.val i →
    (write w v).get a i = g.val i

theorem SlotOk.store {a : Nat} {i : Int} (hs : StoreOk (drained write m buf) w g g')
    (ha : a ≤ (drained write m buf).underlyingArray) (htop : m.top ≤ i) (hfree : i < g.free)
    (h : SlotOk a i (g.val i) m buf) : SlotOk a i (g.val i) m (buf ++ [w]) := by
  have hlast : (drained write m buf).get a i = g.val i := Always.last h
  refine Always.concat h (fun _ _ _ h => h) ?_
  exact hs.keep i a (by rw [top_drained]; exact htop) hfree ha hlast

theorem CellOk.store {i : Int} (hs : StoreOk (drained write m buf) w g g') (htop : m.top ≤ i)
    (hfree : i < g.free)
    (h : CellOk (drained write m buf).underlyingArray i (g.val i) m buf) :
    CellOk (write w (drained write m buf)).underlyingArray i (g.val i) m (buf ++ [w]) := by
  have htop' : (drained write m buf).top ≤ i := by rw [top_drained]; exact htop
  refine Always.concat h (fun m' buf' hm' hc => ?_) ⟨Nat.le_refl _, ?_⟩
  · rw [← hm'] at hs htop' hc ⊢
    rw [top_drained] at htop'
    exact ⟨Nat.le_trans hc.1 hs.array, hc.2.store hs hc.1 htop' hfree⟩
  · -- drained to the end, a thief finds what the owner sees
    have hwin := hs.window
    have hfree' := hs.free
    have hlimit := hwin.free
    rw [← hs.val i htop' hfree]
    exact hwin.slots i (by rw [top_write]; exact htop') (by omega)

/-- A new value of `bottom`. -/
theorem storeOk_bottom {b : Int} (hw : Window v g) (hb : b ≤ g.free) :
    StoreOk v (.bottom b) g g :=
  ⟨⟨hw.array, hw.top, hw.free, hb, hw.room, hw.slots⟩, Nat.le_refl _, Int.le_refl _,
    fun _ _ _ => rfl, fun _ _ _ _ _ h => h⟩

/-- The new array is put in place. -/
theorem storeOk_underlyingArray {newA : Nat} (hw : Window v g) (hc : Copied v g newA g.limit) :
    StoreOk v (.underlyingArray newA) g g := by
  have hroom := hw.room
  have hpow : sizeMinusOne v.underlyingArray ≤ sizeMinusOne newA := by
    rw [hc.next]
    unfold sizeMinusOne
    have := Int.pow_pos (n := 2) (by omega) (m := v.underlyingArray)
    omega
  refine ⟨⟨hc.lt, hw.top, hw.free, hw.bottom, ?_, hc.slots⟩, ?_, Int.le_refl _,
    fun _ _ _ => rfl, fun _ _ _ _ _ h => h⟩
  · show g.limit - v.top ≤ sizeMinusOne newA
    omega
  · show v.underlyingArray ≤ newA
    rw [hc.next]
    exact Nat.le_succ _

/-- A slot that no index of the deque uses: in a fresh array, or of the first
index past the end. -/
theorem storeOk_put {a : Nat} {i : Int} {p : α} (hw : Window v g)
    (hfree : ∀ j b, v.top ≤ j → j < g.limit → b ≤ v.underlyingArray → b = a →
      cell a j ≠ cell a i) : StoreOk v (.put a i p) g g := by
  have hlimit := hw.free
  refine ⟨⟨hw.array, hw.top, hw.free, hw.bottom, hw.room, fun j hj hlim => ?_⟩, Nat.le_refl _,
    Int.le_refl _, fun _ _ _ => rfl, fun j b hj hjf hb h => ?_⟩
  · have hkeep := get_write_put_of_ne (m := v)
      (fun h => hfree j v.underlyingArray hj hlim (Nat.le_refl _) h) p
    exact hkeep.trans (hw.slots j hj hlim)
  · rw [get_write_put_of_ne fun h => hfree j b hj (by omega) hb h]
    exact h

end Stores

variable [DecidableEq α]

/-! ## What one step does to the invariant -/

section Memory

variable {m : Memory α} {buf : List (Store α)} {log : List (DequeOp α)} {w : Store α}
  {g g' : Ghost α}

theorem Inv.drain (h : Inv m (w :: buf) log g) :
    Inv (write w m) buf log g ∧ KeepsSteal m (w :: buf) g (write w m) buf g := by
  refine ⟨⟨?_, h.window, Always.drain h.visible⟩, ?_, fun _ hlt => ?_⟩
  · rw [top_write]
    exact h.log
  · rw [top_write]
  · exact ⟨hlt, rfl, Nat.le_refl _, fun hc => Always.drain hc, fun a _ hs => Always.drain hs⟩

/-- **A store of the owner enters its buffer.** -/
theorem Inv.store (ops : List (DequeOp α)) (h : Inv m buf log g)
    (hs : StoreOk (drained write m buf) w g g')
    (hlog : Replays dequeApply [] (log ++ ops) (segment g'.val m.top g'.limit)) :
    Inv m (buf ++ [w]) (log ++ ops) g' ∧ KeepsSteal m buf g m (buf ++ [w]) g' := by
  have hfree' := hs.free
  constructor
  · refine ⟨hlog, by rw [drained_concat]; exact hs.window, ?_⟩
    rw [drained_concat]
    refine Always.concat h.visible (fun m' buf' hm' hv => ?_) ⟨hs.window.bottom, fun i hi hib => ?_⟩
    · obtain ⟨hbottom, hcell⟩ := hv
      refine ⟨Int.le_trans hbottom hfree', fun i hi hib => ?_⟩
      have hfree : i < g.free := by omega
      have hc := hcell i hi hib
      rw [← hm'] at hs hc ⊢
      rw [hs.val i (by rw [top_drained]; exact hi) hfree]
      exact hc.store hs hi hfree
    · have hwin := hs.window
      have hbottom := hwin.bottom
      have hlimit := hwin.free
      exact ⟨Nat.le_refl _, hwin.slots i hi (by omega)⟩
  · refine ⟨Int.le_refl _, fun _ hlt => ?_⟩
    have htop : (drained write m buf).top ≤ m.top := by rw [top_drained]
    refine ⟨by omega, hs.val _ htop hlt, ?_, ?_, ?_⟩
    · rw [drained_concat]
      exact hs.array
    · rw [drained_concat]
      exact fun hc => hc.store hs (Int.le_refl _) hlt
    · exact fun a ha hslot => hslot.store hs ha (Int.le_refl _) hlt

/-- **A CAS takes the first element.** -/
theorem Inv.advance {o : DequeOp α} (h : Inv m buf log g) (hlt : m.top < g.free)
    (ho : dequeApply (segment g.val m.top g.limit) o =
      some (segment g.val (m.top + 1) g.limit)) :
    Inv (m.setTop (m.top + 1)) buf (log ++ [o]) g ∧
      KeepsSteal m buf g (m.setTop (m.top + 1)) buf g := by
  have hwin := h.window
  have hroom := hwin.room
  rw [top_drained] at hroom
  constructor
  · refine ⟨h.log.concat ho, ?_, ?_⟩
    · rw [drained_setTop]
      refine ⟨hwin.array, hlt, hwin.free, hwin.bottom, ?_, fun i hi hlim => ?_⟩
      · show g.limit - (m.top + 1) ≤ sizeMinusOne (drained write m buf).underlyingArray
        omega
      · have hi' : m.top + 1 ≤ i := hi
        exact hwin.slots i (by rw [top_drained]; omega) hlim
    · rw [drained_setTop]
      refine Always.map (f := (Memory.setTop · (m.top + 1))) (write_setTop _) ?_
        (h.visible.imp (Q := fun m' buf' => m'.top = m.top ∧ _) fun m' buf' hm' hv => ⟨?_, hv⟩)
      · rintro m' buf' ⟨htop, hbottom, hcell⟩
        refine ⟨hbottom, fun i hi hib => ?_⟩
        have hi' : m.top + 1 ≤ i := hi
        exact (hcell i (by omega) hib).setTop _
      · rw [← top_drained m' buf', hm', top_drained]
  · exact keepsSteal_of_lt (Int.lt_succ m.top)

end Memory

/-! ## What an access of the owner has to establish -/

section OwnerOk

variable {ℓ ℓ' : Type*} {m : Memory α} {buf : List (Store α)} {log : List (DequeOp α)}
  {g : Ghost α}

/-- One access of the owner keeps the invariant and what the thieves know, and
establishes `Q` about the memory as the owner sees it. -/
def OwnerOk (m : Memory α) (buf : List (Store α)) (log : List (DequeOp α)) (g : Ghost α)
    (Q : Memory α → Ghost α → ℓ → Prop) : Step α ℓ → Prop
  | .load k => ∃ g', Inv m buf (log ++ (k (drained write m buf)).2) g' ∧
      KeepsSteal m buf g m buf g' ∧ Q (drained write m buf) g' (k (drained write m buf)).1
  | .store w l ops => ∃ g', Inv m (buf ++ [w]) (log ++ ops) g' ∧
      KeepsSteal m buf g m (buf ++ [w]) g' ∧ Q (write w (drained write m buf)) g' l
  | .rmw k => buf = [] → ∃ g', Inv (k m).1 [] (log ++ (k m).2.2) g' ∧
      KeepsSteal m [] g (k m).1 [] g' ∧ Q (k m).1 g' (k m).2.1
  | .fence l => Q (drained write m buf) g l
  | .skip l => Q (drained write m buf) g l

theorem OwnerOk.imp {Q Q' : Memory α → Ghost α → ℓ → Prop} {a : Step α ℓ}
    (h : OwnerOk m buf log g Q a) (hQ : ∀ v g l, Q v g l → Q' v g l) :
    OwnerOk m buf log g Q' a := by
  cases a with
  | load k =>
    obtain ⟨g', hI, hk, hq⟩ := h
    exact ⟨g', hI, hk, hQ _ _ _ hq⟩
  | store w l ops =>
    obtain ⟨g', hI, hk, hq⟩ := h
    exact ⟨g', hI, hk, hQ _ _ _ hq⟩
  | rmw k =>
    intro hbuf
    obtain ⟨g', hI, hk, hq⟩ := h hbuf
    exact ⟨g', hI, hk, hQ _ _ _ hq⟩
  | fence l => exact hQ _ _ _ h
  | skip l => exact hQ _ _ _ h

theorem OwnerOk.map {Q : Memory α → Ghost α → ℓ' → Prop} {f : ℓ → ℓ'} {a : Step α ℓ}
    (h : OwnerOk m buf log g (fun v g l => Q v g (f l)) a) : OwnerOk m buf log g Q (a.map f) := by
  cases a <;> exact h

/-- A load that adds nothing to the history. -/
theorem ownerOk_load {Q : Memory α → Ghost α → ℓ → Prop} {k : Memory α → ℓ × List (DequeOp α)}
    (hI : Inv m buf log g) (hk : (k (drained write m buf)).2 = [])
    (hQ : Q (drained write m buf) g (k (drained write m buf)).1) :
    OwnerOk m buf log g Q (.load k) := by
  refine ⟨g, ?_, keepsSteal_same rfl fun h => h, hQ⟩
  rw [hk, List.append_nil]
  exact hI

/-- A store that adds nothing to the history. -/
theorem ownerOk_store {Q : Memory α → Ghost α → ℓ → Prop} {w : Store α} {l : ℓ}
    (hI : Inv m buf log g) (hs : StoreOk (drained write m buf) w g g)
    (hQ : Q (write w (drained write m buf)) g l) : OwnerOk m buf log g Q (.store w l []) := by
  obtain ⟨hI', hk⟩ := hI.store [] hs (by rw [List.append_nil]; exact hI.log)
  exact ⟨g, hI', hk, hQ⟩

end OwnerOk

/-! ## The functions of the source -/

section Specs

variable {m : Memory α} {buf : List (Store α)} {log : List (DequeOp α)} {g : Ghost α}
  {malloc autogrow : Bool} {p : α}

omit [DecidableEq α] in
theorem copyFrom_spec {v : Memory α} {newA : Nat} {i stop : Int} (hr : Rests v g)
    (hstop : stop = g.limit) (hc : Copied v g newA i) :
    Sum.elim (GrowFacts v g) (GrownFacts v g) (copyFrom v.underlyingArray newA i stop) := by
  unfold copyFrom
  by_cases hi : i < stop
  · rw [if_pos hi]
    exact ⟨hr, rfl, hstop, hi, hc⟩
  · rw [if_neg hi]
    refine ⟨hr, fun a ha => ?_⟩
    obtain rfl := Option.some.inj ha
    exact ⟨hc.next, hc.lt, fun j hj hlim => hc.slots j hj (by omega)⟩

theorem growStep_spec {pc : GrowPc α} (hI : Inv m buf log g)
    (hp : GrowFacts (drained write m buf) g pc) :
    OwnerOk m buf log g
      (fun v g' r => g' = g ∧ Sum.elim (GrowFacts v g) (GrownFacts v g) r)
      (growStep malloc pc) := by
  cases pc with
  | create a start stop =>
    obtain ⟨hr, rfl, hstart, hstop⟩ := hp
    generalize hv : drained write m buf = v at hr hstart
    refine ⟨rfl, ?_⟩
    show Sum.elim (GrowFacts (drained write m buf) g) (GrownFacts (drained write m buf) g)
      (if malloc && v.underlyingArray + 1 < 31 then
        copyFrom v.underlyingArray (v.underlyingArray + 1) start stop else .inr none)
    rw [hv]
    by_cases hmalloc : (malloc && decide (v.underlyingArray + 1 < 31)) = true
    · rw [if_pos hmalloc]
      rw [Bool.and_eq_true, decide_eq_true_eq] at hmalloc
      -- nothing below `start` is left in the deque
      exact copyFrom_spec hr hstop ⟨rfl, hmalloc.2, fun j hj hjs => by omega⟩
    · rw [if_neg hmalloc]
      exact ⟨hr, by simp⟩
  | get a newA i stop =>
    obtain ⟨hr, rfl, hstop, hi, hc⟩ := hp
    refine ownerOk_load hI rfl ⟨rfl, hr, rfl, hstop, hi, hc, fun htop => ?_⟩
    exact hI.window.slots i htop (by omega)
  | put a newA i stop q =>
    obtain ⟨hr, rfl, hstop, hi, hc, hq⟩ := hp
    have hnext := hc.next
    have hlt := hc.lt
    have hroom := hI.window.room
    have hfresh : StoreOk (drained write m buf) (.put newA i q) g g := by
      refine storeOk_put hI.window fun j b _ _ hb hba => ?_
      omega
    refine ownerOk_store hI hfresh ⟨rfl, ?_⟩
    refine copyFrom_spec (v := write (.put newA i q) (drained write m buf)) hr hstop
      ⟨hnext, hlt, fun j hj hji => ?_⟩
    have hj' : (drained write m buf).top ≤ j := hj
    by_cases hij : j = i
    · subst hij
      rw [get_write_put_self]
      exact hq hj'
    · have hsize : sizeMinusOne (drained write m buf).underlyingArray < 2 ^ newA := by
        rw [hnext]
        unfold sizeMinusOne
        have := Int.pow_pos (n := 2) (by omega) (m := (drained write m buf).underlyingArray)
        omega
      rw [get_write_put_of_ne fun _ => cell_ne (by omega) (show j < i by omega) (by omega)]
      exact hc.slots j hj' (by omega)

theorem pushStep_spec {pc : PushPc α} (hI : Inv m buf log g)
    (hp : PushFacts p (drained write m buf) g pc) :
    OwnerOk m buf log g (fun v g => Sum.elim (PushFacts p v g) (fun _ => Rests v g))
      (pushStep malloc autogrow p pc) := by
  have hwin := hI.window
  cases pc with
  | readBottom => exact ownerOk_load hI rfl ⟨hp, hp.1⟩
  | readTop b => exact ownerOk_load hI rfl ⟨hp.1, hp.2, Int.le_refl _⟩
  | readArray b t =>
    obtain ⟨hr, hb, ht⟩ := hp
    refine ownerOk_load hI rfl ?_
    by_cases hfull : b - t ≥ sizeMinusOne (drained write m buf).underlyingArray
    · simp only [if_pos hfull]
      cases autogrow with
      | true => exact ⟨hb, hr, rfl, ht, hb⟩
      | false => exact hr
    · simp only [if_neg hfull]
      refine ⟨hr, hb, rfl, ?_⟩
      unfold Room
      omega
  | grow b pc =>
    obtain ⟨hb, hg⟩ := hp
    rw [pushStep]
    apply OwnerOk.map
    refine (growStep_spec hI hg).imp fun v g' r hr => ?_
    obtain ⟨rfl, hr⟩ := hr
    match r, hr with
    | .inl pc', hr => exact ⟨hb, hr⟩
    | .inr none, hr => exact hr.1
    | .inr (some a), hr => exact ⟨hr.1, hb, hr.2 a rfl⟩
  | readOld b a => exact ownerOk_load hI rfl hp
  | writeArray b a old =>
    obtain ⟨hr, hb, hc⟩ := hp
    refine ownerOk_store hI (storeOk_underlyingArray hwin hc) ⟨hr, hb, rfl, ?_⟩
    have hroom := hwin.room
    show g.limit - (drained write m buf).top < sizeMinusOne a
    rw [hc.next]
    unfold sizeMinusOne at *
    have := Int.pow_pos (n := 2) (by omega) (m := (drained write m buf).underlyingArray)
    omega
  | put b a old =>
    obtain ⟨hr, rfl, rfl, hroom⟩ := hp
    have harray := hwin.array
    have hpast : StoreOk (drained write m buf)
        (.put (drained write m buf).underlyingArray g.limit p) g g := by
      refine storeOk_put hwin fun j b hj hlim _ _ => cell_ne (by omega) hlim ?_
      unfold Room sizeMinusOne at hroom
      omega
    exact ownerOk_store hI hpast ⟨hr, rfl, hroom, get_write_put_self ..⟩
  | barrier b old => exact hp
  | writeBottom b old =>
    obtain ⟨⟨hbottom, hfree⟩, rfl, hroom, hval⟩ := hp
    have hlimit : (drained write m buf).top ≤ g.limit := by
      have := hwin.top
      omega
    have hsame : ∀ i, i < g.limit → Function.update g.val g.limit p i = g.val i :=
      fun i hi => Function.update_of_ne (by omega) ..
    have hs : StoreOk (drained write m buf) (.bottom (g.limit + 1)) g
        ⟨Function.update g.val g.limit p, g.limit + 1, g.limit + 1⟩ := by
      refine ⟨⟨hwin.array, ?_, Int.le_refl _, Int.le_refl _, ?_, fun i hi hlim => ?_⟩,
        Nat.le_refl _, ?_, fun i _ hi => hsame i (by omega), fun _ _ _ _ _ h => h⟩
      · show (drained write m buf).top ≤ g.limit + 1
        omega
      · unfold Room at hroom
        show g.limit + 1 - (drained write m buf).top ≤
          sizeMinusOne (drained write m buf).underlyingArray
        omega
      · have hlim' : i < g.limit + 1 := hlim
        show (drained write m buf).get (drained write m buf).underlyingArray i =
          Function.update g.val g.limit p i
        by_cases hi' : i = g.limit
        · rw [hi', hval, Function.update_self]
        · rw [hsame i (by omega)]
          exact hwin.slots i hi (by omega)
      · show g.free ≤ g.limit + 1
        omega
    rw [top_drained] at hlimit
    obtain ⟨hI', hk⟩ := hI.store [.push p] hs
      (hI.log.concat (dequeApply_push hlimit p))
    exact ⟨_, hI', hk, rfl, rfl⟩

theorem growDequeStep_spec {pc : GrowDequePc α} (hI : Inv m buf log g)
    (hp : GrowDequeFacts (drained write m buf) g pc) :
    OwnerOk m buf log g (fun v g => Sum.elim (GrowDequeFacts v g) (fun _ => Rests v g))
      (growDequeStep malloc pc) := by
  cases pc with
  | readBottom => exact ownerOk_load hI rfl ⟨hp, hp.1⟩
  | readTop b => exact ownerOk_load hI rfl ⟨hp.1, hp.2, Int.le_refl _⟩
  | readArray b t =>
    refine ownerOk_load hI rfl ?_
    by_cases hfull : (b - t) % 2 ^ 64 ≥ sizeMinusOne (drained write m buf).underlyingArray
    · simp only [if_pos hfull]
      exact hp
    · simp only [if_neg hfull]
      exact hp.1
  | readOld b t => exact ownerOk_load hI rfl hp
  | readSource b t old => exact ownerOk_load hI rfl ⟨hp.1, rfl, hp.2.2, hp.2.1⟩
  | grow old pc =>
    rw [growDequeStep]
    apply OwnerOk.map
    refine (growStep_spec hI hp).imp fun v g' r hr => ?_
    obtain ⟨rfl, hr⟩ := hr
    match r, hr with
    | .inl pc', hr => exact hr
    | .inr none, hr => exact hr.1
    | .inr (some a), hr => exact ⟨hr.1, hr.2 a rfl⟩
  | writeArray a old =>
    obtain ⟨hr, hc⟩ := hp
    exact ownerOk_store hI (storeOk_underlyingArray hI.window hc) hr

/-- **A pop**, provided its load of `top` finds the owner's buffer drained. -/
theorem popStep_spec {arch : Arch} {pc : PopPc α} (hI : Inv m buf log g)
    (hp : PopFacts (drained write m buf) g pc) (hdrained : ∀ b a, pc = .readTop b a → buf = []) :
    OwnerOk m buf log g (fun v g => Sum.elim (PopFacts v g) (fun _ => Rests v g))
      (popStep arch pc) := by
  have hwin := hI.window
  cases pc with
  | readBottom =>
    have hbottom := hp.1
    exact ownerOk_load hI rfl ⟨hp, by omega⟩
  | readArray b => exact ownerOk_load hI rfl ⟨hp.1, hp.2, rfl⟩
  | writeBottom b a =>
    obtain ⟨⟨hbottom, hfree⟩, hb, ha⟩ := hp
    exact ownerOk_store hI (storeOk_bottom hwin (by omega)) ⟨⟨hb, hfree⟩, rfl, ha⟩
  | barrier b a =>
    cases arch with
    | x86 => exact hp
    | x86_64 => exact hp
  | readTop b a =>
    obtain rfl := hdrained b a rfl
    obtain ⟨⟨hbottom, hfree⟩, rfl, ha⟩ := hp
    have htop := hwin.top
    rw [drained_nil] at *
    by_cases hsize : m.bottom - m.top < 0
    · refine ownerOk_load hI rfl ?_
      rw [drained_nil]
      simp only [if_pos hsize]
      exact ⟨⟨hbottom, hfree⟩, by omega⟩
    · by_cases hlast : m.top = m.bottom
      · refine ownerOk_load hI rfl ?_
        rw [drained_nil]
        simp only [if_neg hsize]
        exact ⟨rfl, ha, Int.le_refl _, fun h => by omega, fun _ => ⟨⟨hbottom, hfree⟩, hlast⟩⟩
      · -- the last element is reserved: every thief that comes now sees the new `bottom`
        let g' : Ghost α := { g with free := m.bottom }
        have hI' : Inv m [] log g' := by
          refine ⟨hI.log, ⟨hwin.array, ?_, ?_, Int.le_refl _, hwin.room, hwin.slots⟩,
            Int.le_refl _, (Always.now hI.visible).2⟩
          · show m.top ≤ m.bottom
            omega
          · show m.bottom ≤ g.limit
            omega
        refine ⟨g', by rw [List.append_nil]; exact hI',
          keepsSteal_same rfl fun _ => by show m.top < m.bottom; omega, ?_⟩
        rw [drained_nil]
        simp only [if_neg hsize]
        exact ⟨rfl, ha, Int.le_refl _, fun _ => ⟨hbottom, rfl⟩, fun h => by omega⟩
  | get b a t =>
    obtain ⟨rfl, rfl, ht, hres, hpop⟩ := hp
    by_cases hsize : (drained write m buf).bottom - t > 0
    · obtain ⟨hbottom, hfree⟩ := hres (by omega)
      have htop := hwin.top
      have hval := hwin.slots (drained write m buf).bottom (by omega) (by omega)
      let g' : Ghost α := { g with limit := (drained write m buf).bottom }
      have hlog := hI.log
      have hroom := hwin.room
      refine ⟨g', ⟨?_, ⟨hwin.array, htop, ?_, hwin.bottom, ?_, fun i hi hlim => ?_⟩, hI.visible⟩,
        keepsSteal_same rfl fun h => h, ?_⟩
      · rw [← hbottom] at hlog
        simp only [if_pos hsize, hval]
        rw [top_drained] at htop
        exact hlog.concat (dequeApply_pop (by omega))
      · show g.free ≤ (drained write m buf).bottom
        omega
      · show (drained write m buf).bottom - (drained write m buf).top ≤ _
        omega
      · have hlim' : i < (drained write m buf).bottom := hlim
        exact hwin.slots i hi (by omega)
      · simp only [if_pos hsize]
        exact ⟨rfl, hfree⟩
    · obtain ⟨hpop', htb⟩ := hpop (by omega)
      refine ownerOk_load hI ?_ ?_
      · simp only [if_neg hsize]
      · simp only [if_neg hsize]
        refine ⟨hpop', htb, ht, fun htop => ?_⟩
        have hbottom := hpop'.1
        rw [← htb]
        exact hwin.slots t (by omega) (by omega)
  | swapTop t ret =>
    intro hbuf
    subst hbuf
    rw [drained_nil] at *
    obtain ⟨⟨hbottom, hfree⟩, htb, ht, hret⟩ := hp
    have htop := hwin.top
    by_cases hcas : m.top = t
    · have hlog := hI.log
      have hone : g.limit = m.top + 1 := by omega
      obtain ⟨hI', hk⟩ := hI.advance (o := .pop ret) (by omega) (by
        rw [hone, hret hcas, hcas]
        exact (dequeApply_pop (Int.le_refl t)).trans (by rw [segment_self, segment_self]))
      simp only [← hcas, if_true]
      exact ⟨g, hI', hk, ⟨hbottom, hfree⟩, hone.symm⟩
    · simp only [if_neg hcas]
      exact ⟨g, by rw [List.append_nil]; exact hI, keepsSteal_same rfl fun h => h,
        ⟨hbottom, hfree⟩, by omega⟩
  | settle b result =>
    obtain ⟨⟨hbottom, hfree⟩, hb⟩ := hp
    exact ownerOk_store hI (storeOk_bottom hwin (by omega)) ⟨hb, hfree⟩

/-- **A steal**, on the memory as it is: thieves have nothing buffered. -/
theorem stealStep_load {pc : StealPc α} {k : Memory α → (StealPc α ⊕ TakeResult α) × _}
    (hI : Inv m buf log g) (hp : StealFacts m buf g pc) (hpc : stealStep pc = .load k) :
    (k m).2 = [] ∧ Sum.elim (StealFacts m buf g) (fun _ => True) (k m).1 := by
  obtain ⟨hbottom, hcell⟩ := Always.now hI.visible
  cases pc with
  | readTop =>
    cases hpc
    exact ⟨rfl, Int.le_refl _⟩
  | barrier t => cases hpc
  | readBottom t =>
    cases hpc
    refine ⟨rfl, hp, ?_⟩
    rintro rfl hlt
    exact ⟨by omega, hcell _ (Int.le_refl _) hlt⟩
  | readArray t b =>
    cases hpc
    refine ⟨rfl, ?_⟩
    by_cases hsize : b - t ≤ 0
    · simp only [if_pos hsize]
      trivial
    · simp only [if_neg hsize]
      obtain ⟨ht, hc⟩ := hp
      refine ⟨ht, fun heq => ?_⟩
      obtain ⟨hfree, hc'⟩ := hc heq (by omega)
      exact ⟨hfree, (Always.now hc').1, (Always.now hc').2⟩
  | get t a =>
    cases hpc
    obtain ⟨ht, hs⟩ := hp
    refine ⟨rfl, ht, fun heq => ?_⟩
    obtain ⟨hfree, -, hslot⟩ := hs heq
    exact ⟨hfree, Always.now hslot⟩
  | swapTop t ret => cases hpc

end Specs

end FibConcurrent.WorkStealingDeque
