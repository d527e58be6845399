import FibConcurrent.HazardPointer.Correct
import FibConcurrent.Machine.Buffering
import FibConcurrent.WorkStealingDeque.Model

/-!
# HazardPointer — on the store buffers of x86

`hazard_pointer_using` stores the node in a slot and asks `store_load_barrier` to make
it visible before its caller looks whether the node is still in use. With the
barrier of `ARCH_x86` it is visible. For `ARCH_x86_64` the barrier is empty: the store may
still be in the buffer when the caller has looked, no scan sees it, and the node is
reclaimed under the caller's hands (`hazard_pointer_unseen`). What is promised holds in every
run in which a slot is found in use only once its store is in memory.

Only the slots are written by plain stores that other threads read. The fields of a new
record are in memory before the locked instruction that links it, and what a thread keeps
for itself it reads from its own buffer.
-/

namespace FibConcurrent.HazardPointer

open FibConcurrent.Machine FibConcurrent.Data
open WorkStealingDeque (Arch)

variable {ι ν : Type*}

/-- A store to a slot. -/
structure SlotStore (ι ν : Type*) where
  record : ι
  n : Nat
  value : Option ν
deriving DecidableEq

/-- `store_load_barrier` is a locked instruction, or nothing. -/
def storeLoadBarrier : Arch → Bool
  | .x86 => true
  | .x86_64 => false

section Model

variable [DecidableEq ι]

/-- The store drains. -/
def SlotStore.write (w : SlotStore ι ν) (m : Memory ι ν) : Memory ι ν :=
  { m with
    hazardPointers := Function.update m.hazardPointers w.record
      (Function.update (m.hazardPointers w.record) w.n w.value) }

def slotBuffering (arch : Arch) :
    Buffering ι (Choice ν) (Memory ι ν) (SlotStore ι ν) (Pc ι ν) where
  write := SlotStore.write
  keep m m' := { m' with hazardPointers := m.hazardPointers }
  store
    | t, .use node n, .idle => some ⟨t, n, some node⟩
    | t, .doneUsing n, .idle => some ⟨t, n, none⟩
    | _, _, _ => none
  locked
    | .create (.swapHead _) => true
    | .create (.addThreshold _) => true
    | _ => false
  fence
    | .use .., .idle => storeLoadBarrier arch
    | _, _ => false

/-- The whole state of the records under total store order. -/
abbrev Tso (ι ν : Type*) := Buffers ι (Memory ι ν) (SlotStore ι ν)

variable [LinearOrder ν]

/-- The interleavings of any number of threads among store buffers. -/
def tsoProgram (arch : Arch) (pointersPerThread : Nat) :
    Program ι (TsoChoice (Choice ν)) (Tso ι ν) (Fenced (Pc ι ν)) :=
  (slotBuffering arch).program (hazardProgram pointersPerThread)

omit [DecidableEq ι] [LinearOrder ν] in
/-- No record yet, and nothing buffered. -/
def InitTso (s : Config ι (Tso ι ν) (Fenced (Pc ι ν))) : Prop :=
  s.mem.mem = initialMemory ∧ (∀ t, s.mem.buf t = []) ∧ ∀ t, s.loc t = .ready .unregistered

/-- Without a fence: the client finds a node in use only once its slot is in memory. -/
def Visible (arch : Arch) (t : ι) (b : Tso ι ν) (_l : Fenced (Pc ι ν)) (b' : Tso ι ν) : Prop :=
  storeLoadBarrier arch = false →
    ∀ w ∈ b.buf t, b'.mem.checked t w.n = true → b.mem.checked t w.n = true

omit [DecidableEq ι] [LinearOrder ν] in
instance (arch : Arch) (t : ι) (b : Tso ι ν) (l : Fenced (Pc ι ν)) (b' : Tso ι ν) :
    Decidable (Visible arch t b l b') :=
  inferInstanceAs (Decidable (_ = false → ∀ w ∈ b.buf t, _ = true → _ = true))

end Model

/-! ## The slots that protect -/

/-- The records with nothing in the slots that have not been checked. -/
def certain (m : Memory ι ν) : Memory ι ν :=
  { m with hazardPointers := fun t n => if m.checked t n then m.hazardPointers t n else none }

section Certain

variable [DecidableEq ι] {arch : Arch} {m : Memory ι ν} {b : Tso ι ν} {t u : ι} {n : Nat} {x : ν}

omit [DecidableEq ι] in
theorem protects_certain : Protects (certain m) t n x ↔ Protects m t n x := by
  unfold Protects
  show m.checked t n = true ∧ (if m.checked t n then m.hazardPointers t n else none) = some x ↔ _
  constructor
  · rintro ⟨hc, hs⟩
    rw [if_pos hc] at hs
    exact ⟨hc, hs⟩
  · rintro ⟨hc, hs⟩
    rw [if_pos hc]
    exact ⟨hc, hs⟩

/-- A store drains to a slot that has not been checked since. -/
theorem certain_write {w : SlotStore ι ν} (hw : m.checked w.record w.n = false) :
    certain (w.write m) = certain m := by
  have hslots : (certain (w.write m)).hazardPointers = (certain m).hazardPointers := by
    funext u k
    show (if m.checked u k then (w.write m).hazardPointers u k else none) =
      if m.checked u k then m.hazardPointers u k else none
    by_cases hc : m.checked u k = true
    · rw [if_pos hc, if_pos hc, SlotStore.write]
      dsimp only
      by_cases hu : u = w.record
      · subst hu
        have hk : k ≠ w.n := by
          rintro rfl
          rw [hw] at hc
          cases hc
        rw [Function.update_self, Function.update_of_ne hk]
      · rw [Function.update_of_ne hu]
    · rw [if_neg hc, if_neg hc]
  show { m with hazardPointers := (certain (w.write m)).hazardPointers } = certain m
  rw [hslots]
  rfl

/-- A slot is filled or cleared: from now on it is not certain. -/
theorem certain_uncheck (m : Memory ι ν) (t : ι) (n : Nat) :
    certain { m with
      checked := Function.update m.checked t (Function.update (m.checked t) n false) } =
      doneUsing t (certain m) n := by
  have hslots : (fun u k =>
      if Function.update m.checked t (Function.update (m.checked t) n false) u k then
        m.hazardPointers u k else none) =
      Function.update (certain m).hazardPointers t
        (Function.update ((certain m).hazardPointers t) n none) := by
    funext u k
    by_cases hu : u = t
    · subst hu
      rw [Function.update_self, Function.update_self]
      by_cases hk : k = n
      · subst hk
        rw [Function.update_self, Function.update_self]
        rfl
      · rw [Function.update_of_ne hk, Function.update_of_ne hk]
        rfl
    · rw [Function.update_of_ne hu, Function.update_of_ne hu]
      rfl
  show { m with
    checked := Function.update m.checked t (Function.update (m.checked t) n false)
    hazardPointers := _ } = _
  rw [hslots]
  rfl

/-- A slot is found in use: it holds what memory has there. -/
theorem certain_markChecked (hs : m.hazardPointers t n = some x) :
    certain (markChecked t m n) = markChecked t (usingSlot t (certain m) x n) n := by
  have hslots : (certain (markChecked t m n)).hazardPointers =
      Function.update (certain m).hazardPointers t
        (Function.update ((certain m).hazardPointers t) n (some x)) := by
    funext u k
    show (if Function.update m.checked t (Function.update (m.checked t) n true) u k then
      m.hazardPointers u k else none) = _
    by_cases hu : u = t
    · subst hu
      rw [Function.update_self, Function.update_self]
      by_cases hk : k = n
      · subst hk
        rw [Function.update_self, Function.update_self]
        exact hs
      · rw [Function.update_of_ne hk, Function.update_of_ne hk]
        rfl
    · rw [Function.update_of_ne hu, Function.update_of_ne hu]
      rfl
  show { markChecked t m n with
    hazardPointers := (certain (markChecked t m n)).hazardPointers } = _
  rw [hslots]
  simp [markChecked, usingSlot, certain]

/-- The threads differ in what they see in the slots only. -/
theorem view_eq (b : Tso ι ν) : (slotBuffering arch).view t b =
    { b.mem with hazardPointers := ((slotBuffering arch).view t b).hazardPointers } := by
  obtain ⟨mem, buf⟩ := b
  unfold Buffering.view
  dsimp only
  generalize buf t = stores
  induction stores generalizing mem with
  | nil => rfl
  | cons w rest ih =>
    rw [drained_cons]
    exact ih ((slotBuffering arch).write w mem)

/-- A slot with no store of `t` under way is seen by `t` as it is in memory. -/
theorem view_slot (h : ∀ w ∈ b.buf t, w.record = u → w.n ≠ n) :
    ((slotBuffering arch).view t b).hazardPointers u n = b.mem.hazardPointers u n := by
  obtain ⟨mem, buf⟩ := b
  unfold Buffering.view
  dsimp only at h ⊢
  generalize buf t = stores at h ⊢
  induction stores generalizing mem with
  | nil => rfl
  | cons w rest ih =>
    rw [drained_cons, ih _ fun v hv => h v (List.mem_cons_of_mem _ hv)]
    show Function.update mem.hazardPointers w.record
      (Function.update (mem.hazardPointers w.record) w.n w.value) u n = _
    have hw := h w List.mem_cons_self
    by_cases hu : u = w.record
    · subst hu
      rw [Function.update_self, Function.update_of_ne (Ne.symm (hw rfl))]
    · rw [Function.update_of_ne hu]

/-- A slot that `t` is about to clear is empty for `t`. -/
theorem view_slot_none (hnone : ∀ w ∈ b.buf t, w.record = t ∧ w.value = none)
    (hn : ∃ w ∈ b.buf t, w.n = n) :
    ((slotBuffering arch).view t b).hazardPointers t n = none := by
  have hdrained : ∀ (stores : List (SlotStore ι ν)) (m : Memory ι ν),
      (∀ w ∈ stores, w.record = t ∧ w.value = none) →
      (m.hazardPointers t n = none ∨ ∃ w ∈ stores, w.n = n) →
      (drained SlotStore.write m stores).hazardPointers t n = none := by
    intro stores
    induction stores with
    | nil =>
      rintro m - (hm | ⟨w, hw, -⟩)
      · exact hm
      · cases hw
    | cons w rest ih =>
      intro m hall hor
      obtain ⟨hrecord, hvalue⟩ := hall w List.mem_cons_self
      refine ih _ (fun v hv => hall v (List.mem_cons_of_mem _ hv)) ?_
      have hwrite : (w.write m).hazardPointers t n =
          if n = w.n then none else m.hazardPointers t n := by
        show Function.update m.hazardPointers w.record
          (Function.update (m.hazardPointers w.record) w.n w.value) t n = _
        rw [hrecord, hvalue, Function.update_self, Function.update_apply]
      rw [hwrite]
      rcases hor with hm | ⟨v, hv, hvn⟩
      · exact .inl (by rw [hm, ite_self])
      · rcases List.mem_cons.mp hv with rfl | hv
        · exact .inl (if_pos hvn.symm)
        · exact .inr ⟨v, hv, hvn⟩
  exact hdrained _ _ hnone (.inr hn)

end Certain

/-! ## The invariant -/

/-- The records that scans can rely on keep the invariant; a store that is under way is one to
a slot that has not been checked since. -/
structure TsoInv (pointersPerThread : Nat) (b : Tso ι ν) (g : Ghost ι ν) : Prop where
  certain : Inv pointersPerThread (certain b.mem) g
  slots : ∀ t n x, b.mem.hazardPointers t n = some x → n < pointersPerThread
  pending : ∀ t, ∀ w ∈ b.buf t, w.record = t ∧ w.n < pointersPerThread ∧
    b.mem.checked t w.n = false

section Steps

variable [DecidableEq ι] {arch : Arch} {pointersPerThread : Nat} {m m' : Memory ι ν}
  {b b' : Tso ι ν} {g : Ghost ι ν} {t u : ι} {n : Nat} {c : Choice ν} {pc pc' : Pc ι ν}

/-- A slot that has been checked looks the same to all threads. -/
theorem TsoInv.view_of_checked (hI : TsoInv pointersPerThread b g) (hc : b.mem.checked u n = true) :
    ((slotBuffering arch).view t b).hazardPointers u n = b.mem.hazardPointers u n := by
  refine view_slot fun w hw hu hn => ?_
  obtain ⟨rfl, -, hunchecked⟩ := hI.pending t w hw
  rw [hu, hn, hc] at hunchecked
  cases hunchecked

/-- The accesses to slots. -/
def Pc.atSlot : Choice ν → Pc ι ν → Bool
  | .use .., .idle => true
  | .doneUsing _, .idle => true
  | .check _, .idle => true
  | _, .scan (.readSlot ..) => true
  | _, _ => false

omit [DecidableEq ι] in
theorem Keeps.trans {m m' m'' : Memory ι ν} {g g' g'' : Ghost ι ν} (h : Keeps u m g m' g')
    (h' : Keeps u m' g' m'' g'') : Keeps u m g m'' g'' where
  next := h'.next.trans h.next
  retired := h'.retired.trans h.retired
  held := h'.held.trans h.held
  chain := h.chain.trans h'.chain
  absent hu := h'.absent (h.absent hu)
  protects x hx v n hp :=
    h.protects x hx v n (h'.protects x (h.held.symm ▸ hx) v n hp)

variable [LinearOrder ν]

/-- Every other access does what it does whatever the slots hold. -/
theorem exec_slots {h : ι → Nat → Option ν} {k : ι → Nat → Bool} (hpc : pc.atSlot c = false) :
    exec pointersPerThread t c { m with hazardPointers := h, checked := k } pc =
      (exec pointersPerThread t c m pc).map fun r =>
        ({ r.1 with hazardPointers := h, checked := k }, r.2) := by
  cases pc with
  | unregistered => cases c <;> rfl
  | create pc =>
    cases pc with
    | readHead =>
      simp only [exec, createStep]
      cases m.head <;> rfl
    | count curHead cur threads =>
      simp only [exec, createStep]
      cases m.next cur <;> rfl
    | swapHead curHead =>
      simp only [exec, createStep]
      split <;> rfl
    | addThreshold cur => rfl
    | readNext cur => rfl
  | idle =>
    cases c with
    | free x =>
      simp only [exec]
      split <;> rfl
    | use x n => cases hpc
    | check n => cases hpc
    | doneUsing n => cases hpc
    | _ => rfl
  | readThreshold => rfl
  | scan pc =>
    cases pc with
    | readHead => rcases m with ⟨_ | head, _⟩ <;> rfl
    | readThreshold head => rfl
    | readSlot cur i plist => cases c <;> cases hpc
    | readNext cur plist =>
      simp only [exec, scanStep]
      cases m.next cur <;> rfl
    | detach plist => rfl
    | process plist node =>
      cases node with
      | nil => rfl
      | cons x next =>
        simp only [exec, scanStep]
        split <;> rfl

/-- And it leaves the slots as they are. -/
theorem exec_keeps_slots (hpc : pc.atSlot c = false)
    (he : exec pointersPerThread t c m pc = some (m', pc')) :
    m' = { m' with hazardPointers := m.hazardPointers, checked := m.checked } := by
  have he' : exec pointersPerThread t c
      { m with hazardPointers := m.hazardPointers, checked := m.checked } pc = some (m', pc') := he
  rw [exec_slots hpc, he] at he'
  exact (Prod.mk.inj (Option.some.inj he')).1.symm

/-- What a step of `t` keeps, and what it must not reclaim. -/
structure Kept (pointersPerThread : Nat) (t : ι) (b : Tso ι ν) (g : Ghost ι ν) (b' : Tso ι ν)
    (pc' : Pc ι ν) : Prop where
  next : ∃ g', TsoInv pointersPerThread b' g' ∧
    ThreadFacts pointersPerThread t (certain b'.mem) g' pc' ∧
    ∀ u, u ≠ t → Keeps u (certain b.mem) g (certain b'.mem) g'
  spares : ∀ x, b'.mem.gced x ≠ b.mem.gced x → ∀ u n, ¬ Protects b.mem u n x

/-- An access to anything but the slots. -/
theorem rest_spec (hI : TsoInv pointersPerThread b g)
    (hT : ThreadFacts pointersPerThread t (certain b.mem) g pc) (hpc : pc.atSlot c = false)
    (he : exec pointersPerThread t c ((slotBuffering arch).view t b) pc = some (m', pc')) :
    Kept pointersPerThread t b g
      ⟨{ m' with hazardPointers := b.mem.hazardPointers }, b.buf⟩ pc' := by
  -- the same access among the certain slots
  have hview : (slotBuffering arch).view t b = { certain b.mem with
      hazardPointers := ((slotBuffering arch).view t b).hazardPointers
      checked := b.mem.checked } := view_eq b
  rw [hview, exec_slots hpc] at he
  obtain ⟨⟨m₁, pc₁⟩, he₁, heq⟩ := Option.map_eq_some_iff.mp he
  obtain ⟨rfl, rfl⟩ := Prod.mk.inj heq
  have hsame : certain { m₁ with
      hazardPointers := b.mem.hazardPointers, checked := b.mem.checked } = m₁ :=
    (exec_keeps_slots hpc he₁).symm
  obtain ⟨⟨g', hI', hT', hk⟩, hspares⟩ := exec_spec hI.certain hT he₁
  refine ⟨⟨g', ⟨?_, hI.slots, hI.pending⟩, ?_, ?_⟩, fun x hx u n hp => ?_⟩
  · exact hsame.symm ▸ hI'
  · exact hsame.symm ▸ hT'
  · exact hsame.symm ▸ hk
  · exact hspares x hx u n (protects_certain.mpr hp)

/-- A slot is filled or cleared, and the store goes to the buffer. -/
theorem store_spec (hI : TsoInv pointersPerThread b g) (hn : n < pointersPerThread)
    (hT : ThreadFacts pointersPerThread t (certain b.mem) g .idle) (value : Option ν) :
    Kept pointersPerThread t b g
      ⟨{ b.mem with
          checked := Function.update b.mem.checked t (Function.update (b.mem.checked t) n false) },
        Function.update b.buf t (b.buf t ++ [⟨t, n, value⟩])⟩ .idle := by
  obtain ⟨hI', hk⟩ := doneUsing_spec (t := t) (n := n) hI.certain
  have hsame := certain_uncheck b.mem t n
  refine ⟨⟨g, ⟨?_, hI.slots, fun u w hw => ?_⟩, ?_, fun u _ => ?_⟩, fun x hx => absurd rfl hx⟩
  · exact hsame.symm ▸ hI'
  · -- the new store is one to a slot that is not checked any more
    by_cases hu : u = t
    · subst hu
      simp only [Function.update_self] at hw ⊢
      rcases List.mem_append.mp hw with hw | hw
      · obtain ⟨hrecord, hlt, hunchecked⟩ := hI.pending u w hw
        refine ⟨hrecord, hlt, ?_⟩
        by_cases hwn : w.n = n
        · rw [hwn, Function.update_self]
        · rw [Function.update_of_ne hwn]
          exact hunchecked
      · rw [List.mem_singleton.mp hw]
        exact ⟨rfl, hn, Function.update_self ..⟩
    · simp only [Function.update_of_ne hu] at hw ⊢
      exact hI.pending u w hw
  · exact hsame.symm ▸ ⟨hT.held, hT.pc⟩
  · exact hsame.symm ▸ hk u

/-- A slot is found in use, with its store in memory. -/
theorem check_spec (hI : TsoInv pointersPerThread b g)
    (hT : ThreadFacts pointersPerThread t (certain b.mem) g .idle) {x : ν}
    (hs : b.mem.hazardPointers t n = some x) (hx : b.mem.freed x = b.mem.gced x)
    (hdrained : ∀ w ∈ b.buf t, w.n ≠ n) :
    Kept pointersPerThread t b g ⟨markChecked t b.mem n, b.buf⟩ .idle := by
  obtain ⟨hI₁, hk₁⟩ := usingSlot_spec (x := x) hI.certain hT.pc (hI.slots t n x hs)
  have hslot : (usingSlot t (certain b.mem) x n).hazardPointers t n = some x :=
    hazardPointers_usingSlot.1
  obtain ⟨hI₂, hk₂⟩ := markChecked_spec hI₁ hslot hx
  have hsame := certain_markChecked hs
  refine ⟨⟨g, ⟨?_, hI.slots, fun u w hw => ?_⟩, ?_, fun u _ => ?_⟩, fun x hx => absurd rfl hx⟩
  · exact hsame.symm ▸ hI₂
  · obtain ⟨hrecord, hlt, hunchecked⟩ := hI.pending u w hw
    refine ⟨hrecord, hlt, ?_⟩
    show Function.update b.mem.checked t (Function.update (b.mem.checked t) n true) u w.n = false
    by_cases hu : u = t
    · subst hu
      rw [Function.update_self, Function.update_of_ne (hdrained w hw)]
      exact hunchecked
    · rw [Function.update_of_ne hu]
      exact hunchecked
  · exact hsame.symm ▸ ⟨hT.held, hT.pc⟩
  · rw [hsame]
    exact (hk₁ u).trans (hk₂ u)

/-- A scan reads a slot: what it may miss there is not certain. -/
theorem readSlot_spec {cur : ι} {i : Nat} {plist : List ν} (hI : TsoInv pointersPerThread b g)
    (hT : ThreadFacts pointersPerThread t (certain b.mem) g (.scan (.readSlot cur i plist))) :
    ThreadFacts pointersPerThread t (certain b.mem) g (.scan (slotsFrom pointersPerThread cur (i + 1)
      (plist ++ (((slotBuffering arch).view t b).hazardPointers cur i).toList))) := by
  obtain ⟨hheld, ht, hvisit⟩ := hT
  obtain ⟨pre, rest, hchain, hsee⟩ := Visiting.readSlot hvisit
  refine ⟨?_, ht, slotsFrom_spec ⟨pre, rest, hchain, fun x hx u n hp => ?_⟩⟩
  · unfold slotsFrom
    split <;> exact hheld
  · rcases hsee x hx u n hp with hmem | hlater
    · left
      rcases List.mem_append.mp hmem with hmem | hmem
      · exact List.mem_append_left _ hmem
      · -- the slot is certain, so the scan sees what is in memory
        have hs : (if b.mem.checked cur i then b.mem.hazardPointers cur i else none) = some x :=
          Option.mem_toList.mp hmem
        obtain ⟨hc, hs⟩ := Option.ite_none_right_eq_some.mp hs
        refine List.mem_append_right _ (Option.mem_toList.mpr ?_)
        rw [hI.view_of_checked hc]
        exact hs
    · exact .inr hlater

/-- **Every access**, if a slot that is found in use is in memory. -/
theorem act_spec (hI : TsoInv pointersPerThread b g)
    (hT : ThreadFacts pointersPerThread t (certain b.mem) g pc)
    (hlocked : (slotBuffering (ν := ν) (ι := ι) arch).locked pc = true → b.buf t = [])
    (he : exec pointersPerThread t c ((slotBuffering arch).view t b) pc = some (m', pc'))
    (hdrained : ∀ n, pc = .idle → c = .check n → ∀ w ∈ b.buf t, w.n ≠ n) :
    Kept pointersPerThread t b g
      ⟨if (slotBuffering (ν := ν) (ι := ι) arch).locked pc then m' else
          { m' with hazardPointers := b.mem.hazardPointers },
        Function.update b.buf t (b.buf t ++ ((slotBuffering arch).store t c pc).toList)⟩ pc' := by
  have hmem : (if (slotBuffering (ν := ν) (ι := ι) arch).locked pc then m' else
      { m' with hazardPointers := b.mem.hazardPointers }) =
      { m' with hazardPointers := b.mem.hazardPointers } := by
    by_cases hl : (slotBuffering (ν := ν) (ι := ι) arch).locked pc = true
    · rw [if_pos hl]
      have hpc : pc.atSlot c = false := by
        cases pc with
        | create pc => cases c <;> rfl
        | _ => cases hl
      have hsame := exec_keeps_slots hpc he
      rw [Buffering.view, hlocked hl, drained_nil] at hsame
      have hslots := congrArg Memory.hazardPointers hsame
      rw [← show m'.hazardPointers = b.mem.hazardPointers from hslots]
    · rw [if_neg hl]
  rw [hmem]
  by_cases hpc : pc.atSlot c = false
  · have hstore : (slotBuffering (ν := ν) (ι := ι) arch).store t c pc = none := by
      cases pc with
      | idle => cases c <;> first | rfl | cases hpc
      | _ => cases c <;> rfl
    rw [hstore, Option.toList_none, List.append_nil, Function.update_eq_self]
    exact rest_spec hI hT hpc he
  · cases pc with
    | idle =>
      cases c with
      | use x n =>
        rw [view_eq] at he
        obtain ⟨hn, he⟩ := Option.ite_none_right_eq_some.mp he
        obtain ⟨rfl, rfl⟩ := Prod.mk.inj (Option.some.inj he)
        exact store_spec hI hn hT (some x)
      | doneUsing n =>
        rw [view_eq] at he
        obtain ⟨hn, he⟩ := Option.ite_none_right_eq_some.mp he
        obtain ⟨rfl, rfl⟩ := Prod.mk.inj (Option.some.inj he)
        exact store_spec hI hn hT none
      | check n =>
        obtain ⟨x, hs, he⟩ := Option.bind_eq_some_iff.mp he
        have hdr := hdrained n rfl rfl
        rw [view_slot fun w hw _ => hdr w hw] at hs
        rw [view_eq] at he
        obtain ⟨hx, he⟩ := Option.ite_none_right_eq_some.mp he
        obtain ⟨rfl, rfl⟩ := Prod.mk.inj (Option.some.inj he)
        have hspec := check_spec hI hT hs hx hdr
        rw [show (slotBuffering (ν := ν) (ι := ι) arch).store t (.check n) .idle = none from rfl,
          Option.toList_none, List.append_nil, Function.update_eq_self]
        exact hspec
      | _ => exact absurd rfl hpc
    | scan pc =>
      cases pc with
      | readSlot cur i plist =>
        have hT' : ThreadFacts pointersPerThread t (certain b.mem) g
            (.scan (slotsFrom pointersPerThread cur (i + 1)
              (plist ++ (((slotBuffering arch).view t b).hazardPointers cur i).toList))) :=
          readSlot_spec hI hT
        have hstore : (slotBuffering (ν := ν) (ι := ι) arch).store t c
            (.scan (.readSlot cur i plist)) = none := by
          cases c <;> rfl
        have hsame : { (slotBuffering arch).view t b with
            hazardPointers := b.mem.hazardPointers } = b.mem := by
          rw [view_eq]
        obtain ⟨rfl, rfl⟩ := Prod.mk.inj (Option.some.inj he)
        rw [hstore, Option.toList_none, List.append_nil, Function.update_eq_self, hsame]
        exact ⟨⟨g, hI, hT', fun u _ => keeps_refl ..⟩, fun x hx => absurd rfl hx⟩
      | _ => cases c <;> exact absurd rfl hpc
    | _ => cases c <;> exact absurd rfl hpc

end Steps

/-! ## Runs -/

section Runs

variable [DecidableEq ι] [LinearOrder ν] {arch : Arch} {pointersPerThread : Nat}

omit [DecidableEq ι] in
/-- What a thread relies on; with a fence, nothing but clearings are under way between its
calls. -/
structure TsoFacts (arch : Arch) (pointersPerThread : Nat) (t : ι) (b : Tso ι ν) (g : Ghost ι ν)
    (l : Fenced (Pc ι ν)) : Prop where
  facts : ThreadFacts pointersPerThread t (certain b.mem) g l.loc
  settled : storeLoadBarrier arch = true → ∀ pc, l = .ready pc → ∀ w ∈ b.buf t, w.value = none

omit [DecidableEq ι] in
def tsoAssertion (arch : Arch) (pointersPerThread : Nat) :
    Assertion ι (Tso ι ν) (Ghost ι ν) (Fenced (Pc ι ν)) where
  shared := TsoInv pointersPerThread
  thread := TsoFacts arch pointersPerThread

/-- **Every step**, and what it must not reclaim. -/
theorem tso_step {t : ι} {c : TsoChoice (Choice ν)} {b b' : Tso ι ν} {g : Ghost ι ν}
    {l l' : Fenced (Pc ι ν)} (hI : TsoInv pointersPerThread b g)
    (hT : TsoFacts arch pointersPerThread t b g l) (hok : Visible arch t b l b')
    (he : (slotBuffering arch).exec (hazardProgram pointersPerThread) t c b l = some (b', l')) :
    Kept pointersPerThread t b g b' l'.loc ∧
      (storeLoadBarrier arch = true → ∀ pc, l' = .ready pc → ∀ w ∈ b'.buf t, w.value = none) ∧
      ∀ u, u ≠ t → b'.buf u = b.buf u := by
  rcases Buffering.exec_cases he with ⟨w, rest, rfl, hbuf, rfl, rfl⟩ |
    ⟨d, pc, rfl, rfl, hbuf, rfl, rfl⟩ |
    ⟨d, pc, m, pc', rfl, rfl, hlocked, hexec, rfl, rfl⟩
  · -- a store drains to a slot that is not certain
    have hmem : w ∈ b.buf t := hbuf ▸ List.mem_cons_self
    have hrest : ∀ v ∈ rest, v ∈ b.buf t := fun v hv => hbuf ▸ List.mem_cons_of_mem _ hv
    obtain ⟨hrecord, hlt, hunchecked⟩ := hI.pending t w hmem
    have hsame : certain (w.write b.mem) = certain b.mem := certain_write (hrecord ▸ hunchecked)
    refine ⟨⟨⟨g, ⟨?_, fun u n x hs => ?_, fun u v hv => ?_⟩, ?_, fun u _ => ?_⟩,
      fun x hx => absurd rfl hx⟩, fun ha pc hpc v hv => ?_, fun u hu => Function.update_of_ne hu ..⟩
    · exact hsame.symm ▸ hI.certain
    · rcases slot_of_update hs with ⟨-, rfl, -⟩ | hs
      · exact hlt
      · exact hI.slots u n x hs
    · dsimp only at hv
      by_cases hu : u = t
      · subst hu
        rw [Function.update_self] at hv
        exact hI.pending u v (hrest v hv)
      · rw [Function.update_of_ne hu] at hv
        exact hI.pending u v hv
    · exact hsame.symm ▸ hT.facts
    · exact hsame.symm ▸ keeps_refl ..
    · dsimp only at hv
      rw [Function.update_self] at hv
      exact hT.settled ha pc hpc v (hrest v hv)
  · refine ⟨⟨⟨g, hI, hT.facts, fun u _ => keeps_refl ..⟩, fun x hx => absurd rfl hx⟩,
      fun _ _ _ w hw => ?_, fun _ _ => rfl⟩
    rw [hbuf] at hw
    cases hw
  · have hdrained : ∀ n, pc = .idle → d = .check n → ∀ w ∈ b.buf t, w.n ≠ n := by
      rintro n rfl rfl w hw rfl
      obtain ⟨hrecord, -, hunchecked⟩ := hI.pending t w hw
      obtain ⟨x, hs, hexec⟩ := Option.bind_eq_some_iff.mp hexec
      cases ha : storeLoadBarrier arch with
      | true =>
        -- the store clears the slot
        have hnone : ((slotBuffering arch).view t b).hazardPointers t w.n = none :=
          view_slot_none (fun v hv => ⟨(hI.pending t v hv).1, hT.settled ha _ rfl v hv⟩)
            ⟨w, hw, rfl⟩
        rw [hnone] at hs
        cases hs
      | false =>
        obtain ⟨-, hexec⟩ := Option.ite_none_right_eq_some.mp hexec
        obtain ⟨rfl, -⟩ := Prod.mk.inj (Option.some.inj hexec)
        have hchecked := hok ha w hw (by simp [slotBuffering, markChecked])
        rw [hunchecked] at hchecked
        cases hchecked
    refine ⟨?_, fun ha k hk w hw => ?_, fun u hu => Function.update_of_ne hu ..⟩
    · have hspec := act_spec hI hT.facts hlocked hexec hdrained
      have hloc : (if (slotBuffering (ν := ν) (ι := ι) arch).fence d pc then Fenced.fence pc'
          else .ready pc').loc = pc' := by
        split <;> rfl
      rw [hloc]
      exact hspec
    · dsimp only at hw
      rw [Function.update_self] at hw
      rcases List.mem_append.mp hw with hw | hw
      · exact hT.settled ha pc rfl w hw
      · -- after a store to fill a slot the thread is at the fence
        cases pc with
        | idle =>
          cases d with
          | use x n =>
            have hfence : (slotBuffering (ν := ν) (ι := ι) arch).fence (.use x n) .idle = true := ha
            rw [if_pos hfence] at hk
            cases hk
          | doneUsing n =>
            obtain rfl := List.mem_singleton.mp hw
            rfl
          | _ => cases hw
        | _ => cases d <;> cases hw

theorem tsoAssertion_kept :
    (tsoAssertion (ι := ι) (ν := ν) arch pointersPerThread).Kept
      (tsoProgram arch pointersPerThread) (Visible arch) := by
  intro t c b l b' l' g hI hT hok he
  obtain ⟨⟨⟨g', hI', hT', hk⟩, -⟩, hsettled, hbuf⟩ := tso_step hI hT hok he
  refine ⟨g', hI', ⟨hT', hsettled⟩, fun u hu k hk' => ⟨hk'.facts.keep (hk u hu), ?_⟩⟩
  rw [hbuf u hu]
  exact hk'.settled

omit [DecidableEq ι] in
theorem tsoAssertion_init {s : Config ι (Tso ι ν) (Fenced (Pc ι ν))} (h : InitTso s) :
    (tsoAssertion arch pointersPerThread).Holds s := by
  obtain ⟨hmem, hbuf, hloc⟩ := h
  have hcertain : certain s.mem.mem = initialMemory := by
    rw [hmem]
    rfl
  obtain ⟨g, hI, hT⟩ : (hazardAssertion pointersPerThread).Holds
      ⟨initialMemory, fun _ : ι => (.unregistered : Pc ι ν)⟩ :=
    hazardAssertion_init ⟨rfl, fun _ => rfl⟩
  refine ⟨g, ⟨?_, fun t n x hs => ?_, fun t w hw => ?_⟩, fun t => ⟨?_, fun _ pc _ w hw => ?_⟩⟩
  · exact hcertain.symm ▸ hI
  · rw [hmem] at hs
    cases hs
  · rw [hbuf t] at hw
    cases hw
  · rw [hcertain, hloc t]
    exact hT t
  · rw [hbuf t] at hw
    cases hw

variable {s : Config ι (Tso ι ν) (Fenced (Pc ι ν))}
  {hist : List (Event ι (Config ι (Tso ι ν) (Fenced (Pc ι ν))))}

/-- Hazard pointers that protect among store buffers, in state `s` reached by `hist`. -/
structure TsoPromise (arch : Arch) (s : Config ι (Tso ι ν) (Fenced (Pc ι ν)))
    (hist : List (Event ι (Config ι (Tso ι ν) (Fenced (Pc ι ν))))) : Prop where
  /-- No `gc_function` was called of a node that its user sees in a checked slot. -/
  protects : ∀ e ∈ hist, ∀ x, e.post.mem.mem.gced x ≠ e.pre.mem.mem.gced x →
    ∀ t n, e.pre.mem.mem.checked t n = true →
      ((slotBuffering arch).view t e.pre.mem).hazardPointers t n ≠ some x
  /-- All threads see the same in a checked slot. -/
  visible : ∀ t n, s.mem.mem.checked t n = true → ∀ u,
    ((slotBuffering arch).view u s.mem).hazardPointers t n = s.mem.mem.hazardPointers t n
  once : ∀ x, s.mem.mem.gced x ≤ s.mem.mem.freed x
  /-- A retired node waits in one thread's list until it is reclaimed. -/
  waits : ∀ x, s.mem.mem.freed x ≠ s.mem.mem.gced x → s.mem.mem.freed x = s.mem.mem.gced x + 1 ∧
    ∃ t, (s.mem.mem.retiredList t ++ (s.loc t).loc.detached).count x = 1 ∧
      ∀ u, u ≠ t → x ∉ s.mem.mem.retiredList u ++ (s.loc u).loc.detached

/-- **Hazard pointers protect on the store buffers of x86**, in every run with the barrier of
`ARCH_x86`, and without it in every run in which a slot is found in use only once it is in
memory. -/
theorem hazard_pointers_protect_tso
    (run : Run InitTso ((tsoProgram arch pointersPerThread).StepIf (Visible arch)) s hist) :
    TsoPromise arch s hist := by
  obtain ⟨g, hI, hT⟩ := tsoAssertion_kept.run (fun _ h => tsoAssertion_init h) run
  have hmem : ∀ t x, x ∈ s.mem.mem.retiredList t ++ (s.loc t).loc.detached ↔ x ∈ g.held t :=
    fun t x => (hT t).facts.held.mem_iff
  constructor
  case protects =>
    intro e he x hx t n hc hs
    obtain ⟨hstep, hist', run'⟩ := run.of_mem he
    obtain ⟨g', hI', hT'⟩ := tsoAssertion_kept.run (fun _ h => tsoAssertion_init h) run'
    obtain ⟨c, hexec⟩ := hstep.2.exec
    obtain ⟨⟨-, hspares⟩, -⟩ := tso_step hI' (hT' e.tid) hstep.1 hexec
    rw [hI'.view_of_checked hc] at hs
    exact hspares x hx t n ⟨hc, hs⟩
  case visible => exact fun t n hc u => hI.view_of_checked hc
  case once =>
    intro x
    rcases hI.certain.passed x with ⟨heq, -⟩ | ⟨heq, -⟩
    · exact Nat.le_of_eq heq.symm
    · exact heq ▸ Nat.le_succ _
  case waits =>
    intro x hx
    rcases hI.certain.passed x with ⟨heq, -⟩ | ⟨heq, t, ht⟩
    · exact absurd heq hx
    · refine ⟨heq, t, ?_, fun u hu hxu => ?_⟩
      · refine ((hT t).facts.held.count_eq x).trans ?_
        exact List.count_eq_one_of_mem (hI.certain.heldNodup t) ht
      · exact hu (hI.certain.heldDisjoint u t x ((hmem u x).mp hxu) ht)

end Runs

/-- Nothing has happened yet. -/
def initialTso : Config Nat (Tso Nat Nat) (Fenced (Pc Nat Nat)) where
  mem := ⟨initialMemory, fun _ => []⟩
  loc _ := .ready .unregistered

theorem initialTso_init : InitTso initialTso := ⟨rfl, fun _ => rfl, fun _ => rfl⟩

/-- Threads 0 and 1 create a record each. -/
def twoRecords : List (Nat × TsoChoice (Choice Nat)) :=
  List.flatten [[(0, .act .create)], List.replicate 2 (0, .act .step), [(1, .act .create)],
    List.replicate 5 (1, .act .step)]

/-- Without a fence thread 0 looks at node 7 after its slot has drained; thread 1 retires the node,
and its scan leaves it waiting. -/
theorem hazard_pointers_protect_tso_drained :
    ∃ (s : Config Nat (Tso Nat Nat) (Fenced (Pc Nat Nat))) (hist : _),
      Run InitTso ((tsoProgram .x86_64 1).StepIf (Visible .x86_64)) s hist ∧
        s.mem.mem.freed 7 = 1 ∧ s.mem.mem.gced 7 = 0 ∧ TsoPromise .x86_64 s hist := by
  have hstart : Run InitTso ((tsoProgram (ι := Nat) (ν := Nat) .x86_64 1).StepIf (Visible .x86_64))
      initialTso [] := .start initialTso_init
  obtain ⟨s, hist, run, hfreed, hgced⟩ := hstart.exists_of_scheduleIf
    (q := fun s => s.mem.mem.freed 7 = 1 ∧ s.mem.mem.gced 7 = 0)
    (List.flatten [twoRecords, [(0, .act (.use 7 0)), (0, .drain), (0, .act (.check 0)),
      (1, .act (.free 7)), (1, .act .step), (1, .act .scan)], List.replicate 9 (1, .act .step)])
    (by decide +kernel)
  exact ⟨s, hist, run, hfreed, hgced, hazard_pointers_protect_tso run⟩

/-- **A node is reclaimed under its user's hands**: the store to the slot is still in the buffer of
thread 0, which has found node 7 in use, when thread 1 retires the node and scans. -/
theorem hazard_pointer_unseen :
    ¬ ∀ (s : Config Nat (Tso Nat Nat) (Fenced (Pc Nat Nat))) hist,
      Run InitTso (tsoProgram .x86_64 1).Step s hist → TsoPromise .x86_64 s hist := by
  intro hclaim
  have hstart : Run InitTso (tsoProgram (ι := Nat) (ν := Nat) .x86_64 1).Step initialTso [] :=
    .start initialTso_init
  obtain ⟨s, hist, run, e, he, hgced, hchecked, hseen⟩ := hstart.exists_of_history
    (q := fun _ hist => ∃ e ∈ hist, e.post.mem.mem.gced 7 ≠ e.pre.mem.mem.gced 7 ∧
      e.pre.mem.mem.checked 0 0 = true ∧
      ((slotBuffering .x86_64).view 0 e.pre.mem).hazardPointers 0 0 = some 7)
    (List.flatten [twoRecords, [(0, .act (.use 7 0)), (0, .act (.check 0)), (1, .act (.free 7)),
      (1, .act .step), (1, .act .scan)], List.replicate 8 (1, .act .step)])
    (by decide +kernel)
  exact (hclaim s hist run).protects e he 7 hgced 0 0 hchecked hseen

end FibConcurrent.HazardPointer
