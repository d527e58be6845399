import FibConcurrent.Machine.Alone
import FibConcurrent.WorkStealingDeque.CircularArray
import FibConcurrent.WorkStealingDeque.Correct

/-!
# WorkStealingDeque — the two ways to grow

`wsd_work_stealing_grow` before a push, and the push that grows by itself, test
for a full array each in its own way: one compares the size with the unsigned
`size_minus_one`, one casts `size_minus_one` to a signed number. Between calls
`top ≤ bottom ≤ top + size_minus_one`, so that the tests agree, and one of them is
enough to make room. Both ways then lead to the same memory.
-/

namespace FibConcurrent.WorkStealingDeque

open FibConcurrent.Machine FibConcurrent.Data

variable {ι α : Type*} [DecidableEq ι] [DecidableEq α] {arch : Arch} {owner : ι} {c : Choice α}

/-! ## The copying loop -/

/-- The memory after `n` elements have been copied, from index `i` on. -/
def copied (m : Memory α) (a newA : Nat) (i : Int) : Nat → Memory α
  | 0 => m
  | n + 1 => copied (write (.put newA i (m.get a i)) m) a newA (i + 1) n

/-- What `wsd_circular_array_grow` returns. -/
def grownArray (malloc : Bool) (a : Nat) : Option Nat :=
  if malloc && a + 1 < 31 then some (a + 1) else none

/-- The program points `f pc` are those of `wsd_circular_array_grow` within a
caller that goes on at `g` with what it returns. -/
def Within (arch : Arch) (owner : ι) (c : Choice α) (f : GrowPc α → Pc α)
    (g : Option Nat → Pc α) : Prop :=
  ∀ pc, access arch owner owner c (f pc) = some ((growStep c.malloc pc).map (Sum.elim f g))

theorem within_push (p : α) (b : Int) :
    Within arch owner c (fun pc => .push true p (.grow b pc)) fun
      | none => .pushRet .failed
      | some a => .push true p (.readOld b a) := by
  intro pc
  simp only [access, pushStep, Access.map_map]
  congr 2
  funext r
  rcases r with pc | _ | a <;> rfl

theorem within_grow (old : Nat) :
    Within arch owner c (fun pc => .grow (.grow old pc)) fun
      | none => .growRet .null
      | some a => .grow (.writeArray a old) := by
  intro pc
  simp only [access, growDequeStep, Access.map_map]
  congr 2
  funext r
  rcases r with pc | _ | a <;> rfl

section Copy

variable {f : GrowPc α → Pc α} {g : Option Nat → Pc α} {s : Sc α} {a newA : Nat}

omit [DecidableEq ι] [DecidableEq α] in
/-- The copies only touch slots. -/
theorem copied_fields (m : Memory α) (a newA : Nat) (i : Int) (n : Nat) :
    (copied m a newA i n).top = m.top ∧ (copied m a newA i n).bottom = m.bottom ∧
      (copied m a newA i n).underlyingArray = m.underlyingArray := by
  induction n generalizing m i with
  | zero => exact ⟨rfl, rfl, rfl⟩
  | succ n ih => exact ih (write (.put newA i (m.get a i)) m) (i + 1)

theorem solo_copy (hf : Within arch owner c f g) {i stop : Int} {n : Nat}
    (hn : i + n = stop) :
    (dequeText arch owner).sc.Solo owner c
      (s, Sum.elim f g (copyFrom a newA i stop))
      (⟨copied s.mem a newA i n, s.log⟩, g (some newA)) := by
  induction n generalizing s i with
  | zero =>
    have hlast : ¬ i < stop := by omega
    rw [copyFrom, if_neg hlast]
    exact .refl _
  | succ n ih =>
    have hmore : i < stop := by omega
    have hget : (dequeText arch owner).sc.exec owner c s (f (.get a newA i stop)) =
        some (s, f (.put a newA i stop (s.mem.get a i))) := by
      show ((access arch owner owner c _).map _) = _
      rw [hf]
      simp [growStep, Access.map, Access.sc]
    have hput : (dequeText arch owner).sc.exec owner c s
        (f (.put a newA i stop (s.mem.get a i))) =
        some (⟨write (.put newA i (s.mem.get a i)) s.mem, s.log⟩,
          Sum.elim f g (copyFrom a newA (i + 1) stop)) := by
      show ((access arch owner owner c _).map _) = _
      rw [hf]
      simp [growStep, Access.map, Access.sc, dequeText]
    rw [copyFrom, if_pos hmore]
    exact .step hget (.step hput (ih (by omega)))

/-- `wsd_circular_array_grow` within either caller. -/
theorem solo_grow (hf : Within arch owner c f g) {t b : Int} (htb : t ≤ b) :
    (dequeText arch owner).sc.Solo owner c (s, f (.create a t b))
      (match grownArray c.malloc a with
        | none => (s, g none)
        | some newA => (⟨copied s.mem a newA t (b - t).toNat, s.log⟩, g (some newA))) := by
  have hcreate : (dequeText arch owner).sc.exec owner c s (f (.create a t b)) =
      some (s, Sum.elim f g (if c.malloc && a + 1 < 31 then copyFrom a (a + 1) t b
        else .inr none)) := by
    show ((access arch owner owner c _).map _) = _
    rw [hf]
    simp [growStep, Access.map, Access.sc]
  refine .step hcreate ?_
  unfold grownArray
  split
  · exact solo_copy hf (by omega)
  · exact .refl _

end Copy

/-! ## The loop is that of `wsd_circular_array_grow` -/

/-- The arrays of a deque as records of their own. -/
def arrays (m : Memory α) : Nat → CircularArray α := fun a =>
  ⟨BitVec.ofNat 64 a, BitVec.ofNat 64 (2 ^ a), BitVec.ofNat 64 (2 ^ a - 1), m.data a⟩

section Arrays

variable {m : Memory α} {a : Nat}

omit [DecidableEq α] in
theorem arrays_hasSize (ha : a < 64) : HasSize (arrays m a) a := by
  have hlt := Nat.pow_lt_pow_right (a := 2) (by decide) ha
  constructor
  case logSize => rfl
  case size =>
    show (BitVec.ofNat 64 (2 ^ a)).toNat = 2 ^ a
    rw [BitVec.toNat_ofNat, Nat.mod_eq_of_lt hlt]
  case sizeMinusOne =>
    show (BitVec.ofNat 64 (2 ^ a - 1)).toNat = 2 ^ a - 1
    rw [BitVec.toNat_ofNat, Nat.mod_eq_of_lt (by omega)]

omit [DecidableEq α] in
theorem arrays_slot (ha : a < 64) (i : Int) :
    (BitVec.ofInt 64 i &&& (arrays m a).sizeMinusOne).toNat = cell a i := by
  rw [BitVec.toNat_and, (arrays_hasSize ha).sizeMinusOne, BitVec.toNat_ofInt]
  rfl

omit [DecidableEq α] in
theorem arrays_get (ha : a < 64) (i : Int) :
    circularArrayGet (arrays m) a (BitVec.ofInt 64 i) = m.get a i := by
  unfold circularArrayGet
  rw [arrays_slot ha]
  rfl

omit [DecidableEq α] in
theorem arrays_put (ha : a < 64) (i : Int) (p : α) :
    arrays (write (.put a i p) m) = circularArrayPut (arrays m) a (BitVec.ofInt 64 i) p := by
  unfold circularArrayPut
  rw [arrays_slot ha]
  funext b
  by_cases hb : b = a
  · subst hb
    simp [arrays, write]
  · simp [arrays, write, hb]

omit [DecidableEq α] in
/-- **The copying loop of the deque** is `wsd_circular_array_grow`'s. -/
theorem arrays_copied {newA : Nat} {i : Int} {n : Nat} (ha : a < 64) (hnew : newA < 64)
    (hi : 0 ≤ i) (hn : i + n < 2 ^ 64) :
    arrays (copied m a newA i n) =
      circularArrayCopy (arrays m) a newA (BitVec.ofInt 64 i) (BitVec.ofInt 64 (i + n)) := by
  induction n generalizing m i with
  | zero =>
    rw [circularArrayCopy, if_neg]
    · rfl
    · rw [Int.natCast_zero, Int.add_zero]
      exact BitVec.lt_irrefl _
  | succ n ih =>
    have hlt : BitVec.ofInt 64 i < BitVec.ofInt 64 (i + (n + 1 : Nat)) := by
      rw [BitVec.lt_def, BitVec.toNat_ofInt, BitVec.toNat_ofInt]
      omega
    have hsucc : BitVec.ofInt 64 i + 1 = BitVec.ofInt 64 (i + 1) := by
      rw [BitVec.ofInt_add]
      rfl
    have hstop : i + 1 + (n : Int) = i + (n + 1 : Nat) := by omega
    rw [copied, ih (by omega) (by omega), hstop, arrays_put hnew]
    conv_rhs => rw [circularArrayCopy, if_pos hlt, arrays_get ha, hsucc]

end Arrays

/-! ## The calls -/

/-- Where a deque is between calls. -/
structure Settled (m : Memory α) : Prop where
  array : m.underlyingArray < 31
  le : m.top ≤ m.bottom
  room : m.bottom - m.top ≤ sizeMinusOne m.underlyingArray

/-- The array is full. -/
def Full (m : Memory α) : Prop := m.bottom - m.top ≥ sizeMinusOne m.underlyingArray

instance (m : Memory α) : Decidable (Full m) :=
  inferInstanceAs (Decidable (m.bottom - m.top ≥ sizeMinusOne m.underlyingArray))

/-- A memory whose array has been replaced by `newA`, with its elements copied. -/
def replaced (m : Memory α) (newA : Nat) : Memory α :=
  write (.underlyingArray newA)
    (copied m m.underlyingArray newA m.top (m.bottom - m.top).toNat)

section Replaced

variable {m : Memory α} {newA : Nat}

omit [DecidableEq α] in
@[simp] theorem replaced_top : (replaced m newA).top = m.top :=
  (copied_fields m m.underlyingArray newA m.top _).1

omit [DecidableEq α] in
@[simp] theorem replaced_bottom : (replaced m newA).bottom = m.bottom :=
  (copied_fields m m.underlyingArray newA m.top _).2.1

omit [DecidableEq α] in
@[simp] theorem replaced_underlyingArray : (replaced m newA).underlyingArray = newA := rfl

omit [DecidableEq α] in
/-- A larger array is not full. -/
theorem not_full_replaced (hs : Settled m) (hnew : newA = m.underlyingArray + 1) :
    ¬ Full (replaced m newA) := by
  have hroom := hs.room
  have hpos : (0 : Int) < 2 ^ m.underlyingArray := Int.pow_pos (by decide)
  unfold Full sizeMinusOne at *
  rw [replaced_top, replaced_bottom, replaced_underlyingArray, hnew, pow_succ]
  omega

omit [DecidableEq α] in
/-- **No element is lost**: the larger array has those from `top` to `bottom`. -/
theorem replaced_elements (hs : Settled m) (hnew : newA = m.underlyingArray + 1)
    (htop : 0 ≤ m.top) (hbottom : m.bottom < 2 ^ 64) {i : Int} (hi : m.top ≤ i)
    (hi' : i < m.bottom) : (replaced m newA).get newA i = m.get m.underlyingArray i := by
  have hroom := hs.room
  have harray := hs.array
  have ha : m.underlyingArray < 64 := by omega
  have hnewA : newA < 64 := by omega
  have hlen : m.top + ((m.bottom - m.top).toNat : Int) = m.bottom := by
    have := hs.le
    omega
  have hcopied := arrays_copied (m := m) ha hnewA htop (n := (m.bottom - m.top).toNat) (by omega)
  rw [hlen] at hcopied
  have hpow : ((2 ^ m.underlyingArray : Nat) : Int) = 2 ^ m.underlyingArray := by push_cast; rfl
  have hpow' : 2 ^ newA = 2 * 2 ^ m.underlyingArray := by rw [hnew, Nat.pow_succ']
  have hnat : ∀ j : Int, 0 ≤ j → j < 2 ^ 64 → (BitVec.ofInt 64 j).toNat = j.toNat := by
    intro j hj hj'
    rw [BitVec.toNat_ofInt, Int.emod_eq_of_lt hj (by exact_mod_cast hj')]
  have htopN := hnat m.top htop (by omega)
  have hbottomN := hnat m.bottom (by omega) (by omega)
  have hiN := hnat i (by omega) (by omega)
  unfold sizeMinusOne at hroom
  have hwindow : circularArrayGet (circularArrayCopy (arrays m) m.underlyingArray newA
      (BitVec.ofInt 64 m.top) (BitVec.ofInt 64 m.bottom)) newA (BitVec.ofInt 64 i) =
      circularArrayGet (arrays m) m.underlyingArray (BitVec.ofInt 64 i) := by
    apply circularArrayCopy_window (by omega) (arrays_hasSize hnewA) (by omega) (BitVec.le_refl _)
    · rw [BitVec.le_def]
      omega
    · intro j hj hj'
      exact absurd hj' (Nat.not_lt_of_le hj)
    · rw [BitVec.le_def]
      omega
    · rw [BitVec.lt_def]
      omega
  rw [← arrays_get ha, ← hwindow, ← hcopied, arrays_get hnewA]
  rfl

end Replaced

/-- A memory with `p` pushed, and the history of that. -/
def pushed (s : Sc α) (p : α) : Sc α :=
  ⟨write (.bottom (s.mem.bottom + 1)) (write (.put s.mem.underlyingArray s.mem.bottom p) s.mem),
    s.log ++ [.push p]⟩

omit [DecidableEq α] in
/-- A push into an array that is not full leaves the elements alone. -/
theorem pushed_elements {s : Sc α} {p : α} (ha : s.mem.underlyingArray < 64)
    (hroom : ¬ Full s.mem) {i : Int} (hi : s.mem.top ≤ i) (hi' : i < s.mem.bottom) :
    (pushed s p).mem.get s.mem.underlyingArray i = s.mem.get s.mem.underlyingArray i := by
  unfold Full sizeMinusOne at hroom
  have hcell : cell s.mem.underlyingArray i ≠ cell s.mem.underlyingArray s.mem.bottom :=
    cell_ne (Nat.le_of_lt ha) hi' (by omega)
  simp [pushed, write, Memory.get, hcell]

section Calls

variable {s : Sc α} {p : α} {autogrow : Bool}

/-- The end of a push, from the store of the element on. -/
theorem solo_put {b : Int} {a : Nat} {old : Option Nat} (hb : b = s.mem.bottom)
    (ha : a = s.mem.underlyingArray) :
    (dequeText arch owner).sc.Solo owner c (s, .push autogrow p (.put b a old))
      (pushed s p, .pushRet (.pushed old)) := by
  subst hb ha
  have hput : (dequeText arch owner).sc.exec owner c s
      (.push autogrow p (.put s.mem.bottom s.mem.underlyingArray old)) =
      some (⟨write (.put s.mem.underlyingArray s.mem.bottom p) s.mem, s.log ++ []⟩,
        .push autogrow p (.barrier s.mem.bottom old)) := rfl
  rw [List.append_nil] at hput
  exact .step hput (.step rfl (.step rfl (.refl _)))

/-- A load changes neither memory nor history. -/
theorem exec_load {pc : Pc α} {k : Memory α → Pc α}
    (h : access arch owner owner c pc = some (.load fun m => (k m, []))) :
    (dequeText arch owner).sc.exec owner c s pc = some (s, k s.mem) := by
  show (access arch owner owner c pc).map _ = _
  rw [h]
  simp [Access.sc]

/-- The first three loads of a push decide whether the array is full. -/
theorem calls_push {b : Sc α × Pc α}
    (h : (dequeText arch owner).sc.Solo owner c
      (s, if Full s.mem then
          if autogrow then .push true p (.grow s.mem.bottom
            (.create s.mem.underlyingArray s.mem.top s.mem.bottom)) else .pushRet .failed
        else .push autogrow p (.put s.mem.bottom s.mem.underlyingArray none)) b) :
    (dequeText arch owner).sc.Calls owner (.push autogrow p) c (s, .idle) b := by
  have hcall : (dequeText arch owner).sc.exec owner (.push autogrow p) s .idle =
      some (s, .push autogrow p .readBottom) := by
    simp [Text.sc, Text.scExec, dequeText, access, Access.sc]
  refine ⟨_, hcall, .step (exec_load rfl) (.step (exec_load rfl) (.step (exec_load rfl) ?_))⟩
  convert h using 2
  dsimp only
  by_cases hfull : s.mem.bottom - s.mem.top ≥ sizeMinusOne s.mem.underlyingArray
  · rw [if_pos hfull, if_pos (show Full s.mem from hfull)]
    cases autogrow <;> rfl
  · rw [if_neg hfull, if_neg (show ¬ Full s.mem from hfull)]
    rfl

/-- `wsd_work_stealing_deque_push_bottom`. -/
theorem calls_push_bottom :
    (dequeText arch owner).sc.Calls owner (.push false p) c (s, .idle)
      (if Full s.mem then (s, .pushRet .failed)
      else (pushed s p, .pushRet (.pushed none))) := by
  apply calls_push
  by_cases hfull : Full s.mem
  · rw [if_pos hfull, if_pos hfull]
    exact .refl _
  · rw [if_neg hfull, if_neg hfull]
    exact solo_put rfl rfl

/-- A push that has grown the array puts it in place. -/
theorem solo_writeArray {newA : Nat} :
    (dequeText arch owner).sc.Solo owner c
      (⟨copied s.mem s.mem.underlyingArray newA s.mem.top (s.mem.bottom - s.mem.top).toNat, s.log⟩,
        .push true p (.readOld s.mem.bottom newA))
      (⟨replaced s.mem newA, s.log⟩,
        .push true p (.put s.mem.bottom newA (some s.mem.underlyingArray))) := by
  have harray := (copied_fields s.mem s.mem.underlyingArray newA s.mem.top
    (s.mem.bottom - s.mem.top).toNat).2.2
  refine .step (exec_load rfl) ?_
  dsimp only [Sum.elim_inl]
  rw [harray]
  have hwrite : (dequeText arch owner).sc.exec owner c
      (⟨copied s.mem s.mem.underlyingArray newA s.mem.top
        (s.mem.bottom - s.mem.top).toNat, s.log⟩ : Sc α)
      (.push true p (.writeArray s.mem.bottom newA s.mem.underlyingArray)) =
      some (⟨replaced s.mem newA, s.log ++ []⟩,
        .push true p (.put s.mem.bottom newA (some s.mem.underlyingArray))) := rfl
  rw [List.append_nil] at hwrite
  exact .step hwrite (.refl _)

/-- `wsd_work_stealing_deque_push_bottom_autogrow`. -/
theorem calls_push_bottom_autogrow (hs : Settled s.mem) :
    (dequeText arch owner).sc.Calls owner (.push true p) c (s, .idle)
      (if Full s.mem then
        match grownArray c.malloc s.mem.underlyingArray with
        | none => (s, .pushRet .failed)
        | some newA => (pushed ⟨replaced s.mem newA, s.log⟩ p,
            .pushRet (.pushed (some s.mem.underlyingArray)))
      else (pushed s p, .pushRet (.pushed none))) := by
  apply calls_push
  by_cases hfull : Full s.mem
  · rw [if_pos hfull, if_pos hfull]
    refine (solo_grow (within_push p s.mem.bottom) hs.le).trans ?_
    cases grownArray c.malloc s.mem.underlyingArray with
    | none => exact .refl _
    | some newA =>
      refine solo_writeArray.trans (solo_put ?_ rfl)
      exact replaced_bottom.symm
  · rw [if_neg hfull, if_neg hfull]
    exact solo_put rfl rfl

/-- `wsd_work_stealing_grow`. -/
theorem calls_grow (hs : Settled s.mem) :
    (dequeText arch owner).sc.Calls owner .grow c (s, .idle)
      (if Full s.mem then
        match grownArray c.malloc s.mem.underlyingArray with
        | none => (s, .growRet .null)
        | some newA => (⟨replaced s.mem newA, s.log⟩, .growRet (.grown s.mem.underlyingArray))
      else (s, .growRet .abort)) := by
  have hcall : (dequeText arch owner).sc.exec owner .grow s .idle =
      some (s, .grow .readBottom) := by
    simp [Text.sc, Text.scExec, dequeText, access, Access.sc]
  -- the difference is not negative, so the unsigned comparison is the signed one
  have hmod : (s.mem.bottom - s.mem.top) % 2 ^ 64 = s.mem.bottom - s.mem.top := by
    have hle := hs.le
    have hroom := hs.room
    have hpow : (2 : Int) ^ s.mem.underlyingArray ≤ 2 ^ 31 := by
      exact_mod_cast Nat.pow_le_pow_right (n := 2) (by decide) (Nat.le_of_lt hs.array)
    unfold sizeMinusOne at hroom
    exact Int.emod_eq_of_lt (by omega) (by omega)
  have hdecide : (dequeText arch owner).sc.exec owner c s
      (.grow (.readArray s.mem.bottom s.mem.top)) =
      some (s, if Full s.mem then .grow (.readOld s.mem.bottom s.mem.top)
        else .growRet .abort) := by
    refine (exec_load rfl).trans ?_
    dsimp only
    rw [hmod]
    by_cases hfull : s.mem.bottom - s.mem.top ≥ sizeMinusOne s.mem.underlyingArray
    · rw [if_pos hfull, if_pos (show Full s.mem from hfull)]
      rfl
    · rw [if_neg hfull, if_neg (show ¬ Full s.mem from hfull)]
      rfl
  refine ⟨_, hcall, .step (exec_load rfl) (.step (exec_load rfl) (.step hdecide ?_))⟩
  by_cases hfull : Full s.mem
  · rw [if_pos hfull, if_pos hfull]
    refine .step (exec_load rfl) (.step (exec_load rfl) ?_)
    refine (solo_grow (within_grow s.mem.underlyingArray) hs.le).trans ?_
    cases grownArray c.malloc s.mem.underlyingArray with
    | none => exact .refl _
    | some newA =>
      have hwrite : (dequeText arch owner).sc.exec owner c
          (⟨copied s.mem s.mem.underlyingArray newA s.mem.top
            (s.mem.bottom - s.mem.top).toNat, s.log⟩ : Sc α)
          (.grow (.writeArray newA s.mem.underlyingArray)) =
          some (⟨replaced s.mem newA, s.log ++ []⟩, .growRet (.grown s.mem.underlyingArray)) := rfl
      rw [List.append_nil] at hwrite
      exact .step hwrite (.refl _)
  · rw [if_neg hfull, if_neg hfull]
    exact .refl _

end Calls

/-- The same deque in two memories. -/
structure SameDeque (m m' : Memory α) : Prop where
  top : m'.top = m.top
  bottom : m'.bottom = m.bottom
  array : m'.underlyingArray = m.underlyingArray
  elements : ∀ i, m.top ≤ i → i < m.bottom →
    m'.get m'.underlyingArray i = m.get m.underlyingArray i

omit [DecidableEq α] in
theorem SameDeque.refl (m : Memory α) : SameDeque m m := ⟨rfl, rfl, rfl, fun _ _ _ => rfl⟩

/-- What the two paths have in common: `gr` and `r` are the results of growing and
pushing, `r'` is that of the push that grows, and `s₂` and `s₂'` are what they leave
of `s`. -/
structure PathsAgree (s s₂ s₂' : Memory α) (gr : GrowResult) (r r' : PushResult) : Prop where
  result : r = .failed ↔ r' = .failed
  deque : SameDeque s₂ s₂'
  old : ∀ a, gr = .grown a ↔ r' = .pushed (some a)
  null : gr = .null ↔ r' = .failed
  unchanged : r' = .failed → SameDeque s s₂ ∧ SameDeque s s₂'
  /-- No element is lost, for as long as an `int64_t` holds `bottom`. -/
  kept : s.bottom < 2 ^ 63 → ∀ i, s.top ≤ i → i < s.bottom →
    s₂.get s₂.underlyingArray i = s.get s.underlyingArray i

section Paths

variable {s : Config ι (Sc α) (Pc α)} {hist : List (Event ι (Config ι (Sc α) (Pc α)))}

theorem deque_settled (run : Run InitSc (dequeText arch owner).sc.Step s hist)
    (hidle : s.loc owner = .idle) : Settled s.mem.mem := by
  obtain ⟨g, ⟨-, hI⟩, hT⟩ := deque_invariant run
  have hwin := hI.window
  simp only [Shared.buffered, drained_nil] at hwin
  have hrest := (hT owner).own rfl
  rw [hidle] at hrest
  have hbottom : s.mem.mem.bottom = g.limit := hrest.1
  have htop := hwin.top
  have hfree := hwin.free
  have hroom := hwin.room
  exact ⟨hwin.array, by omega, by omega⟩

theorem top_nonneg (run : Run InitSc (dequeText arch owner).sc.Step s hist) :
    0 ≤ s.mem.mem.top := by
  refine Run.invariant (I := fun s => 0 ≤ s.mem.mem.top) ?_ ?_ run
  · rintro s ⟨⟨logSize, garbage, -, hmem⟩, -⟩
    show 0 ≤ s.mem.mem.top
    rw [hmem]
    exact Int.le_refl 0
  · intro t s s' hnonneg hstep
    obtain ⟨c, he⟩ := hstep.exec
    exact Int.le_trans hnonneg (top_le_of_exec he)

/-- **The two growing paths agree** in every state that the owner's operations and
steals lead to, whether or not the allocation succeeds. -/
theorem grow_push_agrees_with_autogrow (run : Run InitSc (dequeText arch owner).sc.Step s hist)
    (hidle : ∀ t, s.loc t = .idle) (p : α) (c : Choice α) :
    ∃ gr r r' s₁ s₂ s₂',
      (dequeText arch owner).sc.Calls owner .grow c (s.mem, .idle) (s₁, .growRet gr) ∧
      (dequeText arch owner).sc.Calls owner (.push false p) c (s₁, .idle) (s₂, .pushRet r) ∧
      (dequeText arch owner).sc.Calls owner (.push true p) c (s.mem, .idle) (s₂', .pushRet r') ∧
      PathsAgree s.mem.mem s₂.mem s₂'.mem gr r r' := by
  have hs := deque_settled run (hidle owner)
  have hgrow : (dequeText arch owner).sc.Calls owner .grow c (s.mem, .idle) _ := calls_grow hs
  have hauto : (dequeText arch owner).sc.Calls owner (.push true p) c (s.mem, .idle) _ :=
    calls_push_bottom_autogrow hs
  by_cases hfull : Full s.mem.mem
  · rw [if_pos hfull] at hgrow hauto
    cases hnew : grownArray c.malloc s.mem.mem.underlyingArray with
    | none =>
      -- no memory for the larger array: the deque is still full for the push
      rw [hnew] at hgrow hauto
      have hpush : (dequeText arch owner).sc.Calls owner (.push false p) c (s.mem, .idle) _ :=
        calls_push_bottom
      rw [if_pos hfull] at hpush
      refine ⟨_, _, _, _, _, _, hgrow, hpush, hauto, ?_⟩
      exact ⟨by simp, .refl _, by simp, by simp, fun _ => ⟨.refl _, .refl _⟩,
        fun _ _ _ _ => rfl⟩
    | some newA =>
      rw [hnew] at hgrow hauto
      have hnext : newA = s.mem.mem.underlyingArray + 1 := by
        unfold grownArray at hnew
        exact (Option.some.inj (Option.ite_none_right_eq_some.mp hnew).2).symm
      have hroom : ¬ Full (replaced s.mem.mem newA) := not_full_replaced hs hnext
      have hpush : (dequeText arch owner).sc.Calls owner (.push false p) c
          (⟨replaced s.mem.mem newA, s.mem.log⟩, .idle) _ := calls_push_bottom
      rw [if_neg hroom] at hpush
      refine ⟨_, _, _, _, _, _, hgrow, hpush, hauto, ?_⟩
      refine ⟨by simp, .refl _, by simp, by simp, by simp, fun hbottom i hi hi' => ?_⟩
      have harray := hs.array
      have hput := pushed_elements (s := ⟨replaced s.mem.mem newA, s.mem.log⟩) (p := p)
        (show newA < 64 by omega) hroom (by simpa using hi) (by simpa using hi')
      exact hput.trans (replaced_elements hs hnext (top_nonneg run) (by omega) hi hi')
  · rw [if_neg hfull] at hgrow hauto
    have hpush : (dequeText arch owner).sc.Calls owner (.push false p) c (s.mem, .idle) _ :=
      calls_push_bottom
    rw [if_neg hfull] at hpush
    refine ⟨_, _, _, _, _, _, hgrow, hpush, hauto, ?_⟩
    have harray := hs.array
    exact ⟨by simp, .refl _, by simp, by simp, by simp,
      fun _ i hi hi' => pushed_elements (by omega) hfull hi hi'⟩

end Paths

/-! ## A full deque -/

/-- A new deque of 256 slots, after the owner has pushed the numbers below `n`. -/
def filled : Nat → Sc Nat
  | 0 => initialSc.mem
  | n + 1 => pushed (filled n) n

@[simp] theorem filled_top (n : Nat) : (filled n).mem.top = 0 := by
  induction n with
  | zero => rfl
  | succ n ih => exact ih

@[simp] theorem filled_underlyingArray (n : Nat) : (filled n).mem.underlyingArray = 8 := by
  induction n with
  | zero => rfl
  | succ n ih => exact ih

@[simp] theorem filled_bottom (n : Nat) : (filled n).mem.bottom = n := by
  induction n with
  | zero => rfl
  | succ n ih =>
    show (filled n).mem.bottom + 1 = (n + 1 : Nat)
    omega

theorem full_filled_iff (n : Nat) : Full (filled n).mem ↔ 255 ≤ n := by
  unfold Full sizeMinusOne
  rw [filled_top, filled_bottom, filled_underlyingArray]
  omega

/-- The pushes up to a full array are a run. -/
theorem run_filled {n : Nat} (hn : n ≤ 255) :
    ∃ hist, Run InitSc (dequeText .x86_64 0).sc.Step
      (⟨filled n, fun _ => .idle⟩ : Config Nat (Sc Nat) (Pc Nat)) hist := by
  induction n with
  | zero => exact ⟨[], .start ⟨⟨8, fun _ _ => 0, by omega, rfl⟩, fun _ => rfl⟩⟩
  | succ n ih =>
    obtain ⟨hist, run⟩ := ih (by omega)
    have hroom : ¬ Full (filled n).mem := fun h => by
      have := (full_filled_iff n).mp h
      omega
    have hpush : (dequeText .x86_64 0).sc.Calls 0 (.push false n) .step (filled n, .idle) _ :=
      calls_push_bottom
    rw [if_neg hroom] at hpush
    obtain ⟨hist', run'⟩ := run.calls hpush
    have hreturn : (dequeText .x86_64 0).sc.Step 0
        ⟨filled (n + 1), Function.update (fun _ => .idle) 0 (.pushRet (.pushed none))⟩
        ⟨filled (n + 1), fun _ => .idle⟩ :=
      ⟨.step, Program.next_eq_some.mpr ⟨filled (n + 1), .idle, by simp [Text.sc, Text.scExec,
        dequeText, access, Access.sc], by simp⟩⟩
    exact ⟨_, run'.next hreturn⟩

def Pc.returned : Pc α → Prop
  | .pushRet _ | .growRet _ => True
  | _ => False

/-- A call returns once. -/
theorem calls_unique {call c : Choice α} {a b b' : Sc α × Pc α}
    (hidle : access arch owner owner c .idle = none)
    (h : (dequeText arch owner).sc.Calls owner call c a b)
    (h' : (dequeText arch owner).sc.Calls owner call c a b') (hret : b.2.returned)
    (hret' : b'.2.returned) : b = b' := by
  obtain ⟨a₁, ha, hsolo⟩ := h
  obtain ⟨a₁', ha', hsolo'⟩ := h'
  cases ha.symm.trans ha'
  refine Program.Solo.unique (fun m l m' l' hl he => ?_) hsolo hsolo' hret hret'
  obtain ⟨rfl, rfl⟩ : m' = m ∧ l' = .idle := by
    cases l with
    | pushRet result => simpa [Text.sc, Text.scExec, dequeText, access, Access.sc, eq_comm] using he
    | growRet result => simpa [Text.sc, Text.scExec, dequeText, access, Access.sc, eq_comm] using he
    | _ => cases hl
  refine ⟨id, ?_⟩
  show (access arch owner owner c .idle).map _ = none
  rw [hidle]
  rfl

/-- 255 elements are in the array of 256: with memory it is replaced, without it both ways give
up. -/
theorem grow_push_agrees_with_autogrow_full :
    (∃ s₁ s₂ s₂',
      (dequeText .x86_64 0).sc.Calls 0 .grow .step (filled 255, .idle)
        (s₁, .growRet (.grown 8)) ∧
      (dequeText .x86_64 0).sc.Calls 0 (.push false 255) .step (s₁, .idle)
        (s₂, .pushRet (.pushed none)) ∧
      (dequeText .x86_64 0).sc.Calls 0 (.push true 255) .step (filled 255, .idle)
        (s₂', .pushRet (.pushed (some 8))) ∧
      PathsAgree (filled 255).mem s₂.mem s₂'.mem (.grown 8) (.pushed none)
        (.pushed (some 8))) ∧
    ∃ s₁ s₂ s₂',
      (dequeText .x86_64 0).sc.Calls 0 .grow .mallocFails (filled 255, .idle)
        (s₁, .growRet .null) ∧
      (dequeText .x86_64 0).sc.Calls 0 (.push false 255) .mallocFails (s₁, .idle)
        (s₂, .pushRet .failed) ∧
      (dequeText .x86_64 0).sc.Calls 0 (.push true 255) .mallocFails (filled 255, .idle)
        (s₂', .pushRet .failed) ∧
      PathsAgree (filled 255).mem s₂.mem s₂'.mem .null .failed .failed := by
  obtain ⟨hist, run⟩ := run_filled (n := 255) (by decide)
  have hfull : Full (filled 255).mem := (full_filled_iff 255).mpr (by decide)
  have harray : (filled 255).mem.underlyingArray = 8 := filled_underlyingArray 255
  generalize filled 255 = s at *
  have hs : Settled s.mem := deque_settled run rfl
  constructor
  · obtain ⟨gr, r, r', s₁, s₂, s₂', hgrow, hpush, hauto, hagree⟩ :=
      grow_push_agrees_with_autogrow run (fun _ => rfl) 255 .step
    have hnew : grownArray (Choice.step (α := Nat)).malloc s.mem.underlyingArray = some 9 := by
      rw [harray]
      rfl
    have hspec : (dequeText .x86_64 0).sc.Calls 0 .grow .step (s, .idle) _ := calls_grow hs
    rw [if_pos hfull, hnew, harray] at hspec
    cases calls_unique rfl hgrow hspec trivial trivial
    obtain rfl := (hagree.old 8).mp rfl
    have hpushed := calls_unique rfl hpush calls_push_bottom trivial
      (by split <;> trivial)
    obtain rfl : r = .pushed none := by
      split at hpushed
      · cases hpushed
        cases hagree.result.mp rfl
      · cases hpushed
        rfl
    exact ⟨_, _, _, hgrow, hpush, hauto, hagree⟩
  · obtain ⟨gr, r, r', s₁, s₂, s₂', hgrow, hpush, hauto, hagree⟩ :=
      grow_push_agrees_with_autogrow run (fun _ => rfl) 255 .mallocFails
    have hspec : (dequeText .x86_64 0).sc.Calls 0 .grow .mallocFails (s, .idle) _ := calls_grow hs
    rw [if_pos hfull] at hspec
    cases calls_unique rfl hgrow hspec trivial trivial
    obtain rfl := hagree.null.mp rfl
    obtain rfl := hagree.result.mpr rfl
    exact ⟨_, _, _, hgrow, hpush, hauto, hagree⟩

end FibConcurrent.WorkStealingDeque
