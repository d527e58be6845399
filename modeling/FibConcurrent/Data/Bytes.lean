import Mathlib.Data.Nat.ModEq
import Mathlib.Logic.Function.Basic

/-!
# Data — byte-addressed memory

Little-endian loads and stores of any width over a memory of bytes. A store is
read back by a load of the same width, and a load elsewhere does not see it.
-/

namespace FibConcurrent.Data

/-- What each address holds. -/
abbrev Bytes := Nat → Fin 256

/-- The number in the `width` bytes from `a` on. -/
def load (m : Bytes) (a : Nat) : Nat → Nat
  | 0 => 0
  | width + 1 => (m a).val + 256 * load m (a + 1) width

/-- Write `v` to the `width` bytes from `a` on. -/
def store (m : Bytes) (a : Nat) : Nat → Nat → Bytes
  | 0, _ => m
  | width + 1, v => Function.update (store m (a + 1) width (v / 256)) a (Fin.ofNat 256 v)

/-- The `width` bytes from `a` on are zero. -/
def cleared (m : Bytes) (a width : Nat) : Bytes :=
  fun b => if a ≤ b ∧ b < a + width then 0 else m b

section Bytes

variable {m m' : Bytes} {a b width v : Nat}

theorem store_of_outside (h : b < a ∨ a + width ≤ b) : store m a width v b = m b := by
  induction width generalizing a v with
  | zero => rfl
  | succ width ih =>
    have hne : b ≠ a := by omega
    rw [store, Function.update_of_ne hne]
    exact ih (by omega)

/-- A load depends on its own bytes only. -/
theorem load_congr (h : ∀ b, a ≤ b → b < a + width → m' b = m b) :
    load m' a width = load m a width := by
  induction width generalizing a with
  | zero => rfl
  | succ width ih =>
    rw [load, load, h a (Nat.le_refl a) (by omega),
      ih fun b hab hb => h b (by omega) (by omega)]

theorem load_store_of_disjoint {width' : Nat} (h : b + width' ≤ a ∨ a + width ≤ b) :
    load (store m a width v) b width' = load m b width' := by
  apply load_congr
  intro c hbc hc
  exact store_of_outside (by omega)

theorem load_store (hv : v < 256 ^ width) : load (store m a width v) a width = v := by
  induction width generalizing a v with
  | zero =>
    rw [Nat.pow_zero] at hv
    simp only [load]
    omega
  | succ width ih =>
    have hrest : load (store m a (width + 1) v) (a + 1) width = v / 256 := by
      rw [load_congr (m := store m (a + 1) width (v / 256))]
      · apply ih
        rw [Nat.pow_succ] at hv
        exact Nat.div_lt_of_lt_mul (by rwa [Nat.mul_comm])
      · intro b hab _
        exact Function.update_of_ne (by omega) ..
    rw [load, hrest, store, Function.update_self]
    show v % 256 + 256 * (v / 256) = v
    omega

end Bytes

end FibConcurrent.Data
