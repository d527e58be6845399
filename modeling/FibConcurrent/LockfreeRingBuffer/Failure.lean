import FibConcurrent.LockfreeRingBuffer.Correct

/-!
# LockfreeRingBuffer — why an operation fails

`lockfree_ring_buffer_trypush` and `lockfree_ring_buffer_trypop` read the two
counters and the slot one after the other, and give up if what they see does not fit
together. They never do so for nothing (`lockfreeRingBuffer_failures`): at some instant
of a push that fails the ring was full, or the pop that had taken the value one lap
earlier had not cleared the slot yet, or another push got through; and likewise for
pops.

The proof marks a call as blocked as soon as it is bound to fail: it is then
entered from an unblocked state either by an access of another thread that gets
through, or by an access of its own that sees the reason.
-/

namespace FibConcurrent.LockfreeRingBuffer

open FibConcurrent.Machine FibConcurrent.Data

variable {ι α : Type*} {c : Capacity}

/-- What is in the way of a push of thread `t`. -/
inductive PushObstacle (c : Capacity) (t : ι) (e : Event ι (Config ι (Ring α) (Pc α))) : Prop
  | full (h : e.pre.mem.pushed.length = e.pre.mem.popped.length + c.size)
  | notCleared (u : ι) (i : Nat) (v : α) (hu : e.pre.loc u = .pop (.clearSlot i v))
      (hi : e.pre.mem.pushed.length = i + c.size)
  | overtaken (ht : e.tid ≠ t) (h : e.pre.mem.pushed.length < e.post.mem.pushed.length)

/-- What is in the way of a pop of thread `t`. -/
inductive PopObstacle (t : ι) (e : Event ι (Config ι (Ring α) (Pc α))) : Prop
  | empty (h : e.pre.mem.pushed.length = e.pre.mem.popped.length)
  | notStored (u : ι) (v : α) (hu : e.pre.loc u = .push (.writeSlot v e.pre.mem.popped.length))
  | overtaken (ht : e.tid ≠ t) (h : e.pre.mem.popped.length < e.post.mem.popped.length)

/-- The push is going to fail, or has failed. -/
def PushBlocked (c : Capacity) (m : Ring α) : Pc α → Prop
  | .push (.readHigh _ low) => low + c.size ≤ m.high
  | .push (.readSlot _ low high) => high < m.high ∨ low + c.size ≤ high
  | .push (.swapHigh _ _ high) => high < m.high
  | .pushRet false => True
  | _ => False

/-- The pop is going to fail, or has failed. -/
def PopBlocked (m : Ring α) : Pc α → Prop
  | .pop (.readLow high) => high ≤ m.low
  | .pop (.readSlot high low) => low < m.low ∨ high ≤ low
  | .pop (.swapLow low _) => low < m.low
  | .popRet none => True
  | _ => False

section Reasons

variable {m : Ring α} {g : Ghost ι}

/-- The slot of the next index is in use: the ring is full, or the slot has been claimed by
a pop that has still to clear it. -/
theorem Inv.slot_high_in_use (hI : Inv c m g) (h : m.buffer (c.slot m.high) ≠ none) :
    m.high = m.low + c.size ∨ ∃ i, g.clearing i ≠ none ∧ m.high = i + c.size := by
  have hroom := hI.room
  have hlap : c.size ≤ m.high := by
    by_contra hlt
    exact h (hI.slot_fresh m.high (Nat.le_refl _) (by omega))
  have hslot : c.slot m.high = c.slot (m.high - c.size) := by
    rw [← c.slot_add_size (m.high - c.size), Nat.sub_add_cancel hlap]
  by_cases hlow : m.high - c.size < m.low
  · refine .inr ⟨m.high - c.size, fun hc => h ?_, by omega⟩
    rw [hslot]
    exact hI.slot_taken _ hlow (by omega) hc
  · exact .inl (by omega)

/-- The slot of the oldest index is null: the push that has claimed it has still to store
its value. -/
theorem Inv.slot_low_null (hI : Inv c m g) (hlt : m.low < m.high)
    (h : m.buffer (c.slot m.low) = none) : g.writing m.low ≠ none := by
  intro hw
  have hstored := hI.slot_stored m.low hlt hI.room hw (.inl (Nat.le_refl _))
  rw [h, List.getElem?_eq_getElem (hI.high ▸ hlt)] at hstored
  cases hstored

end Reasons

/-- A call does not begin blocked. -/
theorem not_blocked_of_call {t : ι} {a : Choice α} {m m' : Ring α} {pc' : Pc α}
    (he : exec c t a m .idle = some (m', pc')) : ¬ PushBlocked c m' pc' ∧ ¬ PopBlocked m' pc' := by
  cases a with
  | step => cases he
  | _ =>
    obtain ⟨rfl, rfl⟩ := Prod.mk.inj (Option.some.inj he)
    exact ⟨fun h => h, fun h => h⟩

section Steps

variable [DecidableEq ι] {s s' : Config ι (Ring α) (Pc α)} {t u : ι}

/-- A push is blocked by an access of its own. -/
theorem pushObstacle_of_own (hA : (ringAssertion c).Holds s) (hlen : s.mem.pushed.length < 2 ^ 64)
    (hs : (ringProgram c).Step t s s') (hn : ¬ PushBlocked c s.mem (s.loc t))
    (hm : PushBlocked c s'.mem (s'.loc t)) : PushObstacle c t ⟨t, s, s'⟩ := by
  obtain ⟨g, hI, hL⟩ := hA
  obtain ⟨a, he⟩ := hs.exec
  have he : exec c t a s.mem (s.loc t) = some (s'.mem, s'.loc t) := he
  have hfacts := (hL t).call
  have hhigh := hI.high
  have hlow := hI.low
  have hroom := hI.room
  generalize s'.mem = m', s'.loc t = pc' at he hm
  cases hpc : s.loc t with
  | idle => exact absurd hm (not_blocked_of_call (hpc ▸ he)).1
  | push pc =>
    rw [hpc] at he hn hfacts
    obtain ⟨rfl, rfl⟩ := Prod.mk.inj (Option.some.inj he)
    cases pc with
    | readLow val =>
      have hfull : s.mem.low + c.size ≤ s.mem.high := hm
      exact .full (by show s.mem.pushed.length = s.mem.popped.length + c.size; omega)
    | readHigh val low =>
      rcases hm with hlt | hle
      · exact absurd hlt (Nat.lt_irrefl _)
      · exact absurd hle hn
    | readSlot val low high =>
      obtain ⟨-, hle, hh⟩ := hfacts
      obtain ⟨hcur, hspace⟩ := not_or.mp hn
      have heq : high = s.mem.high := by omega
      subst heq
      have hsub : wrapSub s.mem.high low = s.mem.high - low := wrapSub_of_le hle (by omega)
      by_cases hslot : s.mem.buffer (c.slot s.mem.high) = none
      · have hok : s.mem.buffer (c.slot s.mem.high) = none ∧ wrapSub s.mem.high low < c.size :=
          ⟨hslot, by omega⟩
        simp only [pushStep, if_pos hok] at hm
        exact absurd hm hcur
      · rcases hI.slot_high_in_use hslot with hfull | ⟨i, hc, hi⟩
        · exact .full (by show s.mem.pushed.length = s.mem.popped.length + c.size; omega)
        · obtain ⟨u, hu⟩ := Option.ne_none_iff_exists'.mp hc
          obtain ⟨v, hv⟩ := (hL u).clearing i hu
          exact .notCleared u i v hv (hhigh.symm.trans hi)
    | swapHigh val low high =>
      obtain ⟨-, hh, -⟩ := hfacts
      have heq : s.mem.high = high := Nat.le_antisymm (Nat.le_of_not_lt hn) hh
      simp only [pushStep, swapCounter, if_pos heq] at hm
      exact hm.elim
    | writeSlot val high => exact hm.elim
  | pop pc =>
    rw [hpc] at he
    obtain ⟨rfl, rfl⟩ := Prod.mk.inj (Option.some.inj he)
    cases hr : (popStep c s.mem pc).2 <;> rw [hr] at hm <;> exact hm.elim
  | size pc =>
    rw [hpc] at he
    obtain ⟨rfl, rfl⟩ := Prod.mk.inj (Option.some.inj he)
    cases hr : sizeStep s.mem pc <;> rw [hr] at hm <;> exact hm.elim
  | _ =>
    rw [hpc] at he
    obtain ⟨rfl, rfl⟩ := Prod.mk.inj (Option.some.inj he)
    exact hm.elim

omit [DecidableEq ι] in
/-- A push is blocked by an access of another thread. -/
theorem pushObstacle_of_other (hA : (ringAssertion c).Holds s) (hA' : (ringAssertion c).Holds s')
    (hut : u ≠ t) {pc : Pc α} (hn : ¬ PushBlocked c s.mem pc) (hm : PushBlocked c s'.mem pc) :
    PushObstacle c t ⟨u, s, s'⟩ := by
  obtain ⟨g, hI, -⟩ := hA
  obtain ⟨g', hI', -⟩ := hA'
  have hhigh := hI.high
  have hhigh' := hI'.high
  refine .overtaken hut ?_
  show s.mem.pushed.length < s'.mem.pushed.length
  cases pc with
  | push pc =>
    cases pc with
    | readHigh val low =>
      have hnow : low + c.size ≤ s'.mem.high := hm
      have hbefore : ¬ low + c.size ≤ s.mem.high := hn
      omega
    | readSlot val low high =>
      obtain ⟨hcur, hspace⟩ := not_or.mp hn
      rcases hm with hlt | hle
      · omega
      · exact absurd hle hspace
    | swapHigh val low high =>
      have hnow : high < s'.mem.high := hm
      have hbefore : ¬ high < s.mem.high := hn
      omega
    | _ => exact hm.elim
  | pushRet stored =>
    cases stored with
    | true => exact hm.elim
    | false => exact absurd trivial hn
  | _ => exact hm.elim

theorem pushObstacle_of_step (hA : (ringAssertion c).Holds s) (hA' : (ringAssertion c).Holds s')
    (hlen : s.mem.pushed.length < 2 ^ 64) (hs : (ringProgram c).Step u s s')
    (hn : ¬ PushBlocked c s.mem (s.loc t)) (hm : PushBlocked c s'.mem (s'.loc t)) :
    PushObstacle c t ⟨u, s, s'⟩ := by
  by_cases hut : u = t
  · subst hut
    exact pushObstacle_of_own hA hlen hs hn hm
  · rw [hs.loc_of_ne (Ne.symm hut)] at hm
    exact pushObstacle_of_other hA hA' hut hn hm

/-- A pop is blocked by an access of its own. -/
theorem popObstacle_of_own (hA : (ringAssertion c).Holds s) (hs : (ringProgram c).Step t s s')
    (hn : ¬ PopBlocked s.mem (s.loc t)) (hm : PopBlocked s'.mem (s'.loc t)) :
    PopObstacle t ⟨t, s, s'⟩ := by
  obtain ⟨g, hI, hL⟩ := hA
  obtain ⟨a, he⟩ := hs.exec
  have he : exec c t a s.mem (s.loc t) = some (s'.mem, s'.loc t) := he
  have hfacts := (hL t).call
  have hhigh := hI.high
  have hlow := hI.low
  have hle := hI.le
  generalize s'.mem = m', s'.loc t = pc' at he hm
  cases hpc : s.loc t with
  | idle => exact absurd hm (not_blocked_of_call (hpc ▸ he)).2
  | push pc =>
    rw [hpc] at he
    obtain ⟨rfl, rfl⟩ := Prod.mk.inj (Option.some.inj he)
    cases hr : (pushStep c s.mem pc).2 <;> rw [hr] at hm <;> exact hm.elim
  | pop pc =>
    rw [hpc] at he hn hfacts
    obtain ⟨rfl, rfl⟩ := Prod.mk.inj (Option.some.inj he)
    cases pc with
    | readHigh =>
      have hempty : s.mem.high ≤ s.mem.low := hm
      exact .empty (by show s.mem.pushed.length = s.mem.popped.length; omega)
    | readLow high =>
      rcases hm with hlt | hle
      · exact absurd hlt (Nat.lt_irrefl _)
      · exact absurd hle hn
    | readSlot high low =>
      obtain ⟨hh, hl⟩ := hfacts
      obtain ⟨hcur, hmore⟩ := not_or.mp hn
      have heq : low = s.mem.low := by omega
      subst heq
      cases hslot : s.mem.buffer (c.slot s.mem.low) with
      | some ret =>
        simp only [popStep, hslot, if_pos (Nat.lt_of_not_le hmore)] at hm
        exact absurd hm hcur
      | none =>
        have hw := hI.slot_low_null (by omega) hslot
        obtain ⟨u, hu⟩ := Option.ne_none_iff_exists'.mp hw
        obtain ⟨v, hv⟩ := (hL u).writing _ hu
        exact .notStored u v (hlow ▸ hv)
    | swapLow low ret =>
      obtain ⟨hl, -⟩ := hfacts
      have heq : s.mem.low = low := Nat.le_antisymm (Nat.le_of_not_lt hn) hl
      simp only [popStep, swapCounter, if_pos heq] at hm
      exact hm.elim
    | clearSlot low ret => exact hm.elim
  | size pc =>
    rw [hpc] at he
    obtain ⟨rfl, rfl⟩ := Prod.mk.inj (Option.some.inj he)
    cases hr : sizeStep s.mem pc <;> rw [hr] at hm <;> exact hm.elim
  | _ =>
    rw [hpc] at he
    obtain ⟨rfl, rfl⟩ := Prod.mk.inj (Option.some.inj he)
    exact hm.elim

omit [DecidableEq ι] in
/-- A pop is blocked by an access of another thread. -/
theorem popObstacle_of_other (hA : (ringAssertion c).Holds s) (hA' : (ringAssertion c).Holds s')
    (hut : u ≠ t) {pc : Pc α} (hn : ¬ PopBlocked s.mem pc) (hm : PopBlocked s'.mem pc) :
    PopObstacle t ⟨u, s, s'⟩ := by
  obtain ⟨g, hI, -⟩ := hA
  obtain ⟨g', hI', -⟩ := hA'
  have hlow := hI.low
  have hlow' := hI'.low
  refine .overtaken hut ?_
  show s.mem.popped.length < s'.mem.popped.length
  cases pc with
  | pop pc =>
    cases pc with
    | readLow high =>
      have hnow : high ≤ s'.mem.low := hm
      have hbefore : ¬ high ≤ s.mem.low := hn
      omega
    | readSlot high low =>
      obtain ⟨hcur, hmore⟩ := not_or.mp hn
      rcases hm with hlt | hle
      · omega
      · exact absurd hle hmore
    | swapLow low ret =>
      have hnow : low < s'.mem.low := hm
      have hbefore : ¬ low < s.mem.low := hn
      omega
    | _ => exact hm.elim
  | popRet val =>
    cases val with
    | some v => exact hm.elim
    | none => exact absurd trivial hn
  | _ => exact hm.elim

theorem popObstacle_of_step (hA : (ringAssertion c).Holds s) (hA' : (ringAssertion c).Holds s')
    (hs : (ringProgram c).Step u s s') (hn : ¬ PopBlocked s.mem (s.loc t))
    (hm : PopBlocked s'.mem (s'.loc t)) : PopObstacle t ⟨u, s, s'⟩ := by
  by_cases hut : u = t
  · subst hut
    exact popObstacle_of_own hA hs hn hm
  · rw [hs.loc_of_ne (Ne.symm hut)] at hm
    exact popObstacle_of_other hA hA' hut hn hm

end Steps

section Runs

variable [DecidableEq ι] {s : Config ι (Ring α) (Pc α)}
  {hist : List (Event ι (Config ι (Ring α) (Pc α)))}

/-- A call that is blocked met an obstacle, if it takes one to become blocked. -/
theorem during_of_blocked (blocked : Ring α → Pc α → Prop)
    {obstacle : Event ι (Config ι (Ring α) (Pc α)) → Prop} {t : ι}
    (hidle : ∀ m, ¬ blocked m .idle)
    (hcall : ∀ a m m' pc', exec c t a m .idle = some (m', pc') → ¬ blocked m' pc')
    (enter : ∀ u (s s' : Config ι (Ring α) (Pc α)), (ringAssertion c).Holds s →
      (ringAssertion c).Holds s' → s.mem.pushed.length < 2 ^ 64 → (ringProgram c).Step u s s' →
      ¬ blocked s.mem (s.loc t) → blocked s'.mem (s'.loc t) → obstacle ⟨u, s, s'⟩)
    (run : Run Init (ringProgram c).Step s hist) (hlen : s.mem.pushed.length < 2 ^ 64)
    (hm : blocked s.mem (s.loc t)) : During (fun s => s.loc t ≠ .idle) obstacle hist := by
  have hback : ∀ u (s s' : Config ι (Ring α) (Pc α)), (ringProgram c).Step u s s' →
      s'.mem.pushed.length < 2 ^ 64 → s.mem.pushed.length < 2 ^ 64 := by
    intro u s s' hs h
    obtain ⟨a, he⟩ := hs.exec
    exact Nat.lt_of_le_of_lt (pushed_le_of_exec (t := u) he) h
  refine (run.bounded hback hlen).during_of_mark (fun s => blocked s.mem (s.loc t)) ?_ ?_ ?_ hm
  · intro s h hb
    rw [h.2 t] at hb
    exact hidle _ hb
  · rintro u s s' ⟨-, hs⟩ hb hloc
    by_cases hut : u = t
    · subst hut
      obtain ⟨a, he⟩ := hs.exec
      rw [hloc] at he
      exact hcall a _ _ _ he hb
    · rw [hs.loc_of_ne (Ne.symm hut), hloc] at hb
      exact hidle _ hb
  · rintro u s s' ⟨hist, run⟩ ⟨hlen', hs⟩ hn hb
    have run : Run Init (ringProgram c).Step s hist := run.mono fun _ _ _ h => h.2
    have hlen := hback u s s' hs hlen'
    exact enter u s s' (lockfreeRingBuffer_invariant run hlen)
      (lockfreeRingBuffer_invariant (run.next hs) hlen') hlen hs hn hb

/-- **No operation fails for nothing**: during every push that returns 0 the ring was full,
or a pop had not cleared the slot yet that the push was about to use, or another
push got through; during every pop that returns null the ring was empty, or a push had
not stored the oldest value yet, or another pop got through. -/
theorem lockfreeRingBuffer_failures (run : Run Init (ringProgram c).Step s hist)
    (hlen : s.mem.pushed.length < 2 ^ 64) (t : ι) :
    (s.loc t = .pushRet false → During (fun s => s.loc t ≠ .idle) (PushObstacle c t) hist) ∧
      (s.loc t = .popRet none → During (fun s => s.loc t ≠ .idle) (PopObstacle t) hist) := by
  constructor
  · intro hret
    refine during_of_blocked (PushBlocked c) (fun m h => h)
      (fun a m m' pc' he => (not_blocked_of_call he).1) ?_ run hlen (by rw [hret]; trivial)
    intro u s s' hA hA' hlen hs hn hm
    exact pushObstacle_of_step hA hA' hlen hs hn hm
  · intro hret
    refine during_of_blocked PopBlocked (fun m h => h)
      (fun a m m' pc' he => (not_blocked_of_call he).2) ?_ run hlen (by rw [hret]; trivial)
    intro u s s' hA hA' _ hs hn hm
    exact popObstacle_of_step hA hA' hs hn hm

/-- A pop of thread 1 that finds the index of thread 0's push claimed and its slot
still null gives up. -/
theorem lockfreeRingBuffer_failures_notStored :
    ∃ (s : Config Nat (Ring Nat) (Pc Nat)) (hist : _), Run Init (ringProgram two).Step s hist ∧
      s.loc 1 = .popRet none ∧ s.mem.pushed = [7] ∧ s.mem.popped = [] ∧
      During (fun s => s.loc 1 ≠ .idle) (PopObstacle 1) hist := by
  have hstart : Run Init (ringProgram (ι := Nat) (α := Nat) two).Step initial [] :=
    .start ⟨rfl, fun _ => rfl⟩
  have hpush : (ringProgram two).runAlone 0 (.trypush 7 :: List.replicate 4 .step) create .idle =
      some ({ create with high := 1, pushed := [7] }, .push (.writeSlot 7 0)) := rfl
  have hpop : (ringProgram two).runAlone 1 (.trypop :: List.replicate 3 .step)
      { create with high := 1, pushed := [7] } .idle =
      some ({ create with high := 1, pushed := [7] }, .popRet none) := rfl
  obtain ⟨hist, run⟩ := hstart.alone _ rfl hpush
  obtain ⟨hist, run⟩ := run.alone _ rfl hpop
  exact ⟨_, hist, run, rfl, rfl, rfl,
    (lockfreeRingBuffer_failures run (show 1 < 2 ^ 64 by omega) 1).2 rfl⟩

end Runs

end FibConcurrent.LockfreeRingBuffer
