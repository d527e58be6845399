import Mathlib.Data.Nat.ModEq
import Mathlib.Logic.Function.Basic

/-!
# Data — power-of-two rings

Counters that only grow name the cells of a ring: index `i` lives in the slot
`i &&& (size - 1)`. Two indices less than a whole size apart live in different
slots (`Capacity.slot_ne`), so a window of at most `size` indices never meets
itself. The counters are 64-bit words; `wrapSub` is their difference as the
machine computes it.
-/

namespace FibConcurrent.Data

/-- A power of two below `2 ^ 32`, as the create functions accept it. -/
structure Capacity where
  powerOf2Size : Nat
  pos : 0 < powerOf2Size
  lt : powerOf2Size < 32

namespace Capacity

variable (c : Capacity) {i j : Nat}

def size : Nat := 2 ^ c.powerOf2Size

/-- `power_of_2_mod`. -/
def mask : Nat := c.size - 1

/-- The slot of index `i`. -/
def slot (i : Nat) : Nat := i &&& c.mask

theorem size_pos : 0 < c.size := Nat.two_pow_pos _

theorem slot_eq_mod (i : Nat) : c.slot i = i % c.size :=
  Nat.and_two_pow_sub_one_eq_mod i c.powerOf2Size

/-- One lap later the slot is the same. -/
theorem slot_add_size (i : Nat) : c.slot (i + c.size) = c.slot i := by
  rw [slot_eq_mod, slot_eq_mod, Nat.add_mod_right]

/-- **Indices of one window live in different slots.** -/
theorem slot_ne (hij : i < j) (hji : j < i + c.size) : c.slot i ≠ c.slot j := by
  intro h
  rw [slot_eq_mod, slot_eq_mod] at h
  have hdvd : c.size ∣ j - i := (Nat.modEq_iff_dvd' (Nat.le_of_lt hij)).mp h
  have hzero : j - i = 0 := Nat.eq_zero_of_dvd_of_lt hdvd (by omega)
  omega

end Capacity

/-- `a - b` in `uint64_t`. -/
def wrapSub (a b : Nat) : Nat := (a + 2 ^ 64 - b) % 2 ^ 64

theorem wrapSub_of_le {a b : Nat} (h : b ≤ a) (ha : a < 2 ^ 64) : wrapSub a b = a - b := by
  unfold wrapSub
  rw [show a + 2 ^ 64 - b = a - b + 2 ^ 64 by omega, Nat.add_mod_right]
  exact Nat.mod_eq_of_lt (by omega)

theorem wrapSub_of_lt {a b : Nat} (h : a < b) :
    wrapSub a b = a + 2 ^ 64 - b := by
  unfold wrapSub
  exact Nat.mod_eq_of_lt (by omega)

end FibConcurrent.Data
