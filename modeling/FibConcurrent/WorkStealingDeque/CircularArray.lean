import FibConcurrent.Data.Deque

/-!
# WorkStealingDeque — circular arrays

`wsd_circular_array_t` on its own, with `size_t` indices. An array of `2 ^ k`
elements keeps the element of index `i` in the slot `i & size_minus_one`;
`wsd_circular_array_grow` copies a window of indices into an array of twice the
size, where they have other slots.

The arrays are records of a heap, so that what happens to the others can be
said.
-/

namespace FibConcurrent.WorkStealingDeque

open FibConcurrent.Data

/-- `wsd_circular_array_t`. -/
structure CircularArray (α : Type*) where
  logSize : BitVec 64
  size : BitVec 64
  sizeMinusOne : BitVec 64
  data : Nat → α

variable {ρ α : Type*} [DecidableEq ρ]

/-- `wsd_circular_array_get`. -/
def circularArrayGet (h : ρ → CircularArray α) (a : ρ) (i : BitVec 64) : α :=
  (h a).data (i &&& (h a).sizeMinusOne).toNat

/-- `wsd_circular_array_put`. -/
def circularArrayPut (h : ρ → CircularArray α) (a : ρ) (i : BitVec 64) (p : α) :
    ρ → CircularArray α :=
  Function.update h a
    { h a with data := Function.update (h a).data (i &&& (h a).sizeMinusOne).toNat p }

/-- `1 << log_size`: an `int`, which is then converted to `size_t`. -/
def dataSize (logSize : BitVec 64) : BitVec 64 := ((1 : BitVec 32) <<< logSize).signExtend 64

/-- `wsd_circular_array_create`; the slots are as `malloc` returned them. -/
def circularArrayCreate (h : ρ → CircularArray α) (malloc : Option ρ) (logSize : BitVec 64) :
    (ρ → CircularArray α) × Option ρ :=
  match malloc with
  | none => (h, none)
  | some a => (Function.update h a
      { logSize := logSize
        size := dataSize logSize
        sizeMinusOne := dataSize logSize - 1
        data := (h a).data }, some a)

/-- The loop of `wsd_circular_array_grow`. -/
def circularArrayCopy (h : ρ → CircularArray α) (a newA : ρ) (i stop : BitVec 64) :
    ρ → CircularArray α :=
  if i < stop then
    circularArrayCopy (circularArrayPut h newA i (circularArrayGet h a i)) a newA (i + 1) stop
  else h
termination_by stop.toNat - i.toNat
decreasing_by
  have hlt : i.toNat < stop.toNat := ‹i < stop›
  have := stop.isLt
  rw [BitVec.toNat_add]
  simp only [BitVec.ofNat_eq_ofNat, BitVec.toNat_ofNat]
  omega

/-- `wsd_circular_array_grow`; a failed assertion has no result. -/
def circularArrayGrow (h : ρ → CircularArray α) (malloc : Option ρ) (a : ρ)
    (start stop : BitVec 64) : Option ((ρ → CircularArray α) × Option ρ) :=
  if start ≤ stop then
    some (match circularArrayCreate h malloc ((h a).logSize + 1) with
      | (h₁, none) => (h₁, none)
      | (h₁, some newA) => (circularArrayCopy h₁ a newA start stop, some newA))
  else none

/-! ## Slots -/

/-- An array of `2 ^ k` elements. -/
structure HasSize (a : CircularArray α) (k : Nat) : Prop where
  logSize : a.logSize = BitVec.ofNat 64 k
  size : a.size.toNat = 2 ^ k
  sizeMinusOne : a.sizeMinusOne.toNat = 2 ^ k - 1

section Slots

variable {h : ρ → CircularArray α} {a b : ρ} {k : Nat} {i j : BitVec 64} {p : α}

omit [DecidableEq ρ] in
theorem HasSize.le (hk : HasSize (h a) k) : k ≤ 64 := by
  have hlt := (h a).size.isLt
  rw [hk.size] at hlt
  exact Nat.le_of_lt ((Nat.pow_lt_pow_iff_right (by decide)).mp hlt)

omit [DecidableEq ρ] in
theorem HasSize.slot (hk : HasSize (h a) k) (i : BitVec 64) :
    (i &&& (h a).sizeMinusOne).toNat = cell k i.toNat := by
  have hlt : (i.toNat : Int) < 2 ^ 64 := by exact_mod_cast i.isLt
  rw [BitVec.toNat_and, hk.sizeMinusOne, cell, Int.emod_eq_of_lt (Int.natCast_nonneg _) hlt,
    Int.toNat_natCast]

theorem circularArrayGet_put_self (h : ρ → CircularArray α) (a : ρ) (i : BitVec 64) (p : α) :
    circularArrayGet (circularArrayPut h a i p) a i = p := by
  simp [circularArrayGet, circularArrayPut]

theorem circularArrayGet_put_of_ne_array (hne : b ≠ a) (i j : BitVec 64) (p : α) :
    circularArrayGet (circularArrayPut h a i p) b j = circularArrayGet h b j := by
  simp [circularArrayGet, circularArrayPut, hne]

/-- **A put leaves the other indices of its window alone.** -/
theorem circularArrayGet_put_of_lt (hk : HasSize (h a) k) (hij : i < j ∨ j < i)
    (hji : i.toNat < j.toNat + 2 ^ k) (hij' : j.toNat < i.toNat + 2 ^ k) :
    circularArrayGet (circularArrayPut h a i p) a j = circularArrayGet h a j := by
  have hpow : ((2 ^ k : Nat) : Int) = 2 ^ k := by push_cast; rfl
  have hcell : cell k j.toNat ≠ cell k i.toNat := by
    rcases hij with hlt | hlt
    · have hlt' : i.toNat < j.toNat := hlt
      exact (cell_ne hk.le (by omega) (by omega)).symm
    · have hlt' : j.toNat < i.toNat := hlt
      exact cell_ne hk.le (by omega) (by omega)
  simp only [circularArrayGet, circularArrayPut, Function.update_self]
  rw [hk.slot, hk.slot, Function.update_of_ne hcell]

theorem HasSize.put (hk : HasSize (h b) k) (a : ρ) (i : BitVec 64) (p : α) :
    HasSize (circularArrayPut h a i p b) k := by
  unfold circularArrayPut
  by_cases hb : b = a
  · subst hb
    rw [Function.update_self]
    exact { hk with }
  · rwa [Function.update_of_ne hb]

theorem dataSize_toNat (hk : k < 31) : (dataSize (BitVec.ofNat 64 k)).toNat = 2 ^ k := by
  have hlt := Nat.pow_lt_pow_right (a := 2) (by decide) hk
  have hone : ((1 : BitVec 32) <<< BitVec.ofNat 64 k).toNat = 2 ^ k := by
    rw [BitVec.shiftLeft_eq', BitVec.toNat_shiftLeft, BitVec.toNat_ofNat,
      Nat.mod_eq_of_lt (show k < 2 ^ 64 by omega), Nat.shiftLeft_eq]
    simp only [BitVec.ofNat_eq_ofNat, BitVec.toNat_ofNat]
    omega
  have hsign : ((1 : BitVec 32) <<< BitVec.ofNat 64 k).msb = false := by
    rw [BitVec.msb_eq_false_iff_two_mul_lt, hone]
    omega
  rw [dataSize, BitVec.signExtend_eq_setWidth_of_msb_false hsign, BitVec.toNat_setWidth, hone]
  omega

/-- What `wsd_circular_array_create` returns, as long as `1 << log_size` is an `int`. -/
theorem circularArrayCreate_hasSize (h : ρ → CircularArray α) (a : ρ) (hk : k < 31) :
    HasSize ((circularArrayCreate h (some a) (BitVec.ofNat 64 k)).1 a) k := by
  have hsize := dataSize_toNat hk
  have hpos := Nat.two_pow_pos k
  simp only [circularArrayCreate, Function.update_self]
  constructor
  case logSize => rfl
  case size => exact hsize
  case sizeMinusOne =>
    have hone : (1 : BitVec 64) ≤ dataSize (BitVec.ofNat 64 k) := by
      rw [BitVec.le_def, hsize]
      exact hpos
    show (dataSize (BitVec.ofNat 64 k) - 1).toNat = 2 ^ k - 1
    rw [BitVec.toNat_sub_of_le hone, hsize]
    rfl

end Slots

/-! ## The copying loop -/

section Copy

variable {h : ρ → CircularArray α} {a newA b : ρ} {k : Nat} {start i stop : BitVec 64}

theorem toNat_add_one_of_lt (hi : i < stop) : (i + 1).toNat = i.toNat + 1 := by
  have hlt : i.toNat < stop.toNat := hi
  have := stop.isLt
  rw [BitVec.toNat_add]
  simp only [BitVec.ofNat_eq_ofNat, BitVec.toNat_ofNat]
  omega

/-- It writes to the new array only. -/
theorem circularArrayCopy_of_ne (hne : b ≠ newA) :
    circularArrayCopy h a newA i stop b = h b := by
  induction h, i using circularArrayCopy.induct a newA stop with
  | case1 h i hi ih =>
    rw [circularArrayCopy, if_pos hi, ih, circularArrayPut, Function.update_of_ne hne]
  | case2 h i hi => rw [circularArrayCopy, if_neg hi]

theorem circularArrayCopy_hasSize (hk : HasSize (h newA) k) :
    HasSize (circularArrayCopy h a newA i stop newA) k := by
  induction h, i using circularArrayCopy.induct a newA stop with
  | case1 h i hi ih =>
    rw [circularArrayCopy, if_pos hi]
    exact ih (hk.put ..)
  | case2 h i hi => rwa [circularArrayCopy, if_neg hi]

/-- **It copies the whole window**: what has been copied stays, as no two indices
of the window share a slot of the new array. -/
theorem circularArrayCopy_window (hne : a ≠ newA) (hk : HasSize (h newA) k)
    (hwindow : stop.toNat ≤ start.toNat + 2 ^ k) (hstart : start ≤ i) (hstop : i ≤ stop)
    (hcopied : ∀ j, start ≤ j → j < i → circularArrayGet h newA j = circularArrayGet h a j)
    {j : BitVec 64} (hj : start ≤ j) (hj' : j < stop) :
    circularArrayGet (circularArrayCopy h a newA i stop) newA j = circularArrayGet h a j := by
  induction h, i using circularArrayCopy.induct a newA stop with
  | case1 h i hi ih =>
    have hsucc := toNat_add_one_of_lt hi
    have hlt : i.toNat < stop.toNat := hi
    have hle : start.toNat ≤ i.toNat := hstart
    rw [circularArrayCopy, if_pos hi, ih (hk.put ..), circularArrayGet_put_of_ne_array hne]
    · rw [BitVec.le_def] at *
      omega
    · rw [BitVec.le_def]
      omega
    · intro l hl hl'
      have hl₁ : start.toNat ≤ l.toNat := hl
      have hl₂ : l.toNat < (i + 1).toNat := hl'
      rw [circularArrayGet_put_of_ne_array hne]
      by_cases heq : l = i
      · subst heq
        exact circularArrayGet_put_self ..
      · have hne' : l.toNat ≠ i.toNat := fun hv => heq (BitVec.eq_of_toNat_eq hv)
        have hlt' : l.toNat < i.toNat := by omega
        rw [circularArrayGet_put_of_lt hk (.inr hlt') (by omega) (by omega)]
        exact hcopied l hl hlt'
  | case2 h i hi =>
    have heq : i = stop := by
      have hle : i.toNat ≤ stop.toNat := hstop
      have hge : ¬ i.toNat < stop.toNat := hi
      exact BitVec.eq_of_toNat_eq (by omega)
    rw [circularArrayCopy, if_neg hi]
    exact hcopied j hj (heq ▸ hj')

/-- **Growing preserves the window**, wherever it lies in the array: the new
array has twice the size and the same elements, the old one is as it was, and the
next push will not overwrite any of them. -/
theorem circular_array_grow_window {malloc : Option ρ} (hk : HasSize (h a) k) (hint : k + 1 < 31)
    (hle : start ≤ stop) (hsize : (stop - start).toNat ≤ (h a).size.toNat)
    (hfresh : malloc ≠ some a) :
    ∃ h', circularArrayGrow h malloc a start stop = some (h', malloc) ∧ h' a = h a ∧
      ∀ newA, malloc = some newA → (h' newA).size.toNat = 2 ^ (k + 1) ∧
        (∀ i, start ≤ i → i < stop → circularArrayGet h' newA i = circularArrayGet h a i) ∧
        ∀ p i, start ≤ i → i < stop →
          circularArrayGet (circularArrayPut h' newA stop p) newA i = circularArrayGet h' newA i := by
  have hwindow : stop.toNat ≤ start.toNat + 2 ^ k := by
    have hle' : start.toNat ≤ stop.toNat := hle
    rw [hk.size, BitVec.toNat_sub_of_le hle] at hsize
    omega
  have hpow : 2 ^ (k + 1) = 2 * 2 ^ k := Nat.pow_succ'
  have hpos := Nat.two_pow_pos k
  have hlog : (h a).logSize + 1 = BitVec.ofNat 64 (k + 1) := by
    rw [hk.logSize, BitVec.ofNat_add]
    rfl
  unfold circularArrayGrow
  rw [if_pos hle, hlog]
  cases malloc with
  | none => exact ⟨h, rfl, rfl, nofun⟩
  | some newA =>
    have hne : a ≠ newA := fun heq => hfresh (by rw [heq])
    have hcreated := circularArrayCreate_hasSize h newA hint
    have hold : (circularArrayCreate h (some newA) (BitVec.ofNat 64 (k + 1))).1 a = h a :=
      Function.update_of_ne hne ..
    set h₁ := (circularArrayCreate h (some newA) (BitVec.ofNat 64 (k + 1))).1
    have hgrown : HasSize (circularArrayCopy h₁ a newA start stop newA) (k + 1) :=
      circularArrayCopy_hasSize hcreated
    refine ⟨circularArrayCopy h₁ a newA start stop, rfl,
      (circularArrayCopy_of_ne hne).trans hold, ?_⟩
    rintro _ ⟨⟩
    refine ⟨hgrown.size, fun i hi hi' => ?_, fun p i hi hi' => ?_⟩
    · have hkeep : circularArrayGet h₁ a i = circularArrayGet h a i := by
        simp only [circularArrayGet, hold]
      rw [circularArrayCopy_window hne hcreated (by omega) (BitVec.le_refl _) hle _ hi hi', hkeep]
      intro j hj hj'
      exact absurd hj' (Nat.not_lt_of_le hj)
    · have hi₁ : start.toNat ≤ i.toNat := hi
      have hi₂ : i.toNat < stop.toNat := hi'
      exact circularArrayGet_put_of_lt hgrown (.inr hi') (by omega) (by omega)

end Copy

/-- Arrays of two elements. -/
def twoElements : Nat → CircularArray Nat := fun _ => ⟨1, 2, 1, fun slot => 10 + slot⟩

/-- The window of the indices 1 and 2 wraps in the old array, not in the new one. -/
theorem circular_array_grow_window_two :
    ∃ h', circularArrayGrow twoElements (some 1) 0 1 3 = some (h', some 1) ∧
      (h' 1).size.toNat = 4 ∧ circularArrayGet h' 1 1 = 11 ∧ circularArrayGet h' 1 2 = 10 := by
  obtain ⟨h', hgrow, -, hnew⟩ := circular_array_grow_window (h := twoElements) (a := 0) (k := 1)
    (show HasSize (twoElements 0) 1 from ⟨rfl, rfl, rfl⟩) (by decide)
    (show (1 : BitVec 64) ≤ 3 by decide) (by decide) (show some 1 ≠ some 0 by decide)
  obtain ⟨hsize, hsame, -⟩ := hnew 1 rfl
  exact ⟨h', hgrow, hsize, hsame 1 (by decide) (by decide), hsame 2 (by decide) (by decide)⟩

end FibConcurrent.WorkStealingDeque
