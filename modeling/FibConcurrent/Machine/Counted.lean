import Mathlib.Data.Nat.ModEq

/-!
# Machine — counted pointers and the double-word compare-and-swap

A pointer that is always replaced together with a counter, the counter going up
by one each time. The counter has `w` bits and wraps around: two values of it
tell the same count apart from a later one only if fewer than `2 ^ w`
replacements lie between them (`eq_of_counter_eq`).
-/

namespace FibConcurrent.Machine

variable {w : Nat} {π : Type*}

/-- `pointer_pair_t`: a counter and a pointer next to it, swapped as one word. -/
structure Counted (w : Nat) (π : Type*) where
  counter : BitVec w
  ptr : π
deriving DecidableEq

/-- `compare_and_swap2`: the new content of the location, and the result. -/
def compareAndSwap2 [DecidableEq π] (location original new : Counted w π) :
    Counted w π × Bool :=
  if location = original then (new, true) else (location, false)

@[simp] theorem compareAndSwap2_self [DecidableEq π] (p q : Counted w π) :
    compareAndSwap2 p p q = (q, true) := by
  simp [compareAndSwap2]

theorem compareAndSwap2_of_ne [DecidableEq π] {p o : Counted w π} (h : p ≠ o)
    (q : Counted w π) : compareAndSwap2 p o q = (p, false) := by
  simp [compareAndSwap2, h]

/-- Equal wrapped counters are equal counts, unless the counter went all the
way round. -/
theorem eq_of_counter_eq {a b : Nat} (h : BitVec.ofNat w a = BitVec.ofNat w b) (hab : a ≤ b)
    (hlt : b < a + 2 ^ w) : a = b := by
  have hmod : a % 2 ^ w = b % 2 ^ w := by
    simpa using congrArg BitVec.toNat h
  have hdvd : 2 ^ w ∣ b - a := (Nat.modEq_iff_dvd' hab).mp hmod
  have hzero : b - a = 0 := Nat.eq_zero_of_dvd_of_lt hdvd (by omega)
  omega

end FibConcurrent.Machine
