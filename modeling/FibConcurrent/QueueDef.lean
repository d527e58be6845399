import Mathlib.Data.Nat.Log
import Mathlib.Data.Nat.ModEq

/-!
# QueueDef — sizes of queues

`queue_size_is_valid` takes the powers of two from 2 on. `size_to_power_of_2`
shifts a one to the left as often as its argument can be shifted to the right, so
it rounds down to a power of two. Its header promises 2 for what is smaller.

A `size_t` has `w` bits.
-/

namespace FibConcurrent.QueueDef

/-- `qerr_t`, with the codes that are returned here. -/
abbrev QerrT := BitVec 32

def qerrOk : QerrT := 0
def qerrBadsize : QerrT := 3

variable {w : Nat}

/-- `is_power_2`: `n - 1` wraps at 0. -/
def isPower2 (n : BitVec w) : Bool := ((n - 1) &&& n) == 0

def queueSizeIsValid (qSize : BitVec w) : QerrT :=
  if qSize ≤ 1 ∨ !isPower2 qSize then qerrBadsize else qerrOk

theorem toNat_shiftRight_one_lt {qSize : BitVec w} (h : qSize >>> 1 ≠ 0) :
    (qSize >>> 1).toNat < qSize.toNat := by
  have hpos : (qSize >>> 1).toNat ≠ 0 := fun hz => h (BitVec.eq_of_toNat_eq hz)
  rw [BitVec.toNat_ushiftRight, Nat.shiftRight_eq_div_pow] at *
  omega

/-- The loop of `size_to_power_of_2`. -/
def sizeToPowerOf2Loop (qSize v : BitVec w) : BitVec w :=
  if qSize >>> 1 ≠ 0 then sizeToPowerOf2Loop (qSize >>> 1) (v <<< 1) else v
termination_by qSize.toNat
decreasing_by exact toNat_shiftRight_one_lt ‹_›

def sizeToPowerOf2 (qSize : BitVec w) : BitVec w := sizeToPowerOf2Loop qSize 1

/-! ## The validator -/

theorem toNat_one (h : 1 < w) : (1 : BitVec w).toNat = 1 := by
  have hlt := Nat.pow_lt_pow_right (a := 2) (by decide) h
  simpa using Nat.mod_eq_of_lt (show 1 < 2 ^ w by omega)

/-- Only with two bits there is a value above 1. -/
theorem one_lt_of_two_le {n : BitVec w} (h : 2 ≤ n.toNat) : 1 < w := by
  by_contra hw
  have hle := Nat.pow_le_pow_right (n := 2) (by decide) (Nat.le_of_not_lt hw)
  have := n.isLt
  omega

theorem le_one_iff (n : BitVec w) : n ≤ 1 ↔ n.toNat ≤ 1 := by
  rw [BitVec.le_def]
  constructor
  · intro h
    have hle : (1 : BitVec w).toNat ≤ 1 := by simpa using Nat.mod_le 1 (2 ^ w)
    omega
  · intro h
    match w, n with
    | 0, n => simp [BitVec.of_length_zero]
    | w + 1, n => simpa using h

/-- Above 1, where `n - 1` does not wrap, the test is exact. -/
theorem isPower2_iff {n : BitVec w} (h : 2 ≤ n.toNat) :
    isPower2 n = true ↔ n.toNat.isPowerOfTwo := by
  have hone := toNat_one (one_lt_of_two_le h)
  have hsub : (n - 1).toNat = n.toNat - 1 := by
    rw [BitVec.toNat_sub_of_le (by rw [BitVec.le_def, hone]; omega), hone]
  rw [← Nat.and_sub_one_eq_zero_iff_isPowerOfTwo (by omega), isPower2, beq_iff_eq,
    ← BitVec.toNat_inj, BitVec.toNat_and, hsub, Nat.and_comm]
  simp

/-- **The legal sizes**: the powers of two from 2 on. -/
theorem queueSizeIsValid_iff (n : BitVec w) :
    queueSizeIsValid n = qerrOk ↔ ∃ k, 1 ≤ k ∧ n.toNat = 2 ^ k := by
  unfold queueSizeIsValid
  by_cases hsmall : n.toNat ≤ 1
  · rw [if_pos (.inl ((le_one_iff n).mpr hsmall))]
    constructor
    · intro h
      exact absurd h (by decide)
    · intro ⟨k, hk, heq⟩
      have := Nat.pow_le_pow_right (n := 2) (by decide) hk
      omega
  · have hpower := isPower2_iff (n := n) (by omega)
    by_cases hn : isPower2 n = true
    · obtain ⟨k, hk⟩ := hpower.mp hn
      rw [if_neg (by rw [le_one_iff, hn]; simpa using hsmall)]
      simp only [true_iff]
      exact ⟨k, Nat.one_le_iff_ne_zero.mpr fun h0 => by simp [hk, h0] at hsmall, hk⟩
    · rw [if_pos (.inr (by simpa using hn))]
      constructor
      · intro h
        exact absurd h (by decide)
      · intro ⟨k, _, heq⟩
        exact absurd (hpower.mpr ⟨k, heq⟩) hn

/-! ## The rounding loop -/

/-- The loop multiplies `v` by the power of two that `qSize` is rounded to, if
that leaves no bit out. -/
theorem sizeToPowerOf2Loop_toNat (qSize v : BitVec w)
    (hfits : v.toNat * 2 ^ Nat.log 2 qSize.toNat < 2 ^ w) :
    (sizeToPowerOf2Loop qSize v).toNat = v.toNat * 2 ^ Nat.log 2 qSize.toNat := by
  induction qSize, v using sizeToPowerOf2Loop.induct with
  | case1 qSize v hmore ih =>
    have hhalf : (qSize >>> 1).toNat = qSize.toNat / 2 := by
      rw [BitVec.toNat_ushiftRight, Nat.shiftRight_eq_div_pow, Nat.pow_one]
    have hpos : qSize.toNat / 2 ≠ 0 := fun hz =>
      hmore (BitVec.eq_of_toNat_eq (by rw [hhalf, hz]; simp))
    have hlog : Nat.log 2 qSize.toNat = Nat.log 2 (qSize.toNat / 2) + 1 :=
      Nat.log_of_one_lt_of_le (by decide) (by omega)
    rw [hlog, Nat.pow_succ, Nat.mul_comm (2 ^ _) 2, ← Nat.mul_assoc] at hfits ⊢
    have hdouble : (v <<< 1).toNat = v.toNat * 2 := by
      have hle := Nat.le_mul_of_pos_right (v.toNat * 2)
        (Nat.two_pow_pos (Nat.log 2 (qSize.toNat / 2)))
      rw [BitVec.toNat_shiftLeft, Nat.shiftLeft_eq, Nat.pow_one, Nat.mod_eq_of_lt (by omega)]
    rw [sizeToPowerOf2Loop, if_pos hmore, ih (by rwa [hdouble, hhalf]), hdouble, hhalf]
  | case2 qSize v hlast =>
    have hsmall : qSize.toNat < 2 := by
      have hz := congrArg BitVec.toNat (Decidable.not_not.mp hlast)
      rw [BitVec.toNat_ushiftRight, Nat.shiftRight_eq_div_pow] at hz
      simp only [Nat.pow_one, BitVec.ofNat_eq_ofNat, BitVec.toNat_ofNat, Nat.zero_mod] at hz
      omega
    rw [sizeToPowerOf2Loop, if_neg hlast, Nat.log_of_lt hsmall]
    simp

/-- `size_to_power_of_2` rounds down; everything below 2 becomes 1. -/
theorem sizeToPowerOf2_toNat (h : 1 < w) (n : BitVec w) :
    (sizeToPowerOf2 n).toNat = 2 ^ Nat.log 2 n.toNat := by
  have hone := toNat_one h
  have hlt : 2 ^ Nat.log 2 n.toNat < 2 ^ w := by
    by_cases hz : n.toNat = 0
    · simpa [hz] using Nat.pow_lt_pow_right (a := 2) (by decide) (Nat.lt_trans Nat.one_pos h)
    · exact Nat.lt_of_le_of_lt (Nat.pow_log_le_self 2 hz) n.isLt
  rw [sizeToPowerOf2, sizeToPowerOf2Loop_toNat n 1 (by rwa [hone, Nat.one_mul]), hone, Nat.one_mul]

/-- Below 2 the loop is left at once, whatever the width. -/
theorem sizeToPowerOf2_of_lt_two {n : BitVec w} (h : n.toNat < 2) : sizeToPowerOf2 n = 1 := by
  have hlast : n >>> 1 = 0 := BitVec.eq_of_toNat_eq (by
    rw [BitVec.toNat_ushiftRight, Nat.shiftRight_eq_div_pow]
    simpa using h)
  rw [sizeToPowerOf2, sizeToPowerOf2Loop, if_neg (Decidable.not_not.mpr hlast)]

/-- What header and validator say of the rounding of `n`. -/
structure RoundsToValid (n : BitVec w) : Prop where
  legal : queueSizeIsValid n = qerrOk ↔ ∃ k, 1 ≤ k ∧ n.toNat = 2 ^ k
  accepted : queueSizeIsValid (sizeToPowerOf2 n) = qerrOk
  bounds : 2 ≤ n.toNat →
    (sizeToPowerOf2 n).toNat ≤ n.toNat ∧ n.toNat < 2 * (sizeToPowerOf2 n).toNat
  small : n.toNat < 2 → (sizeToPowerOf2 n).toNat = 2
  idempotent : sizeToPowerOf2 (sizeToPowerOf2 n) = sizeToPowerOf2 n

/-- **Rounding and validation agree from 2 on, and only there.** -/
theorem rounds_to_valid_iff (n : BitVec w) : RoundsToValid n ↔ 2 ≤ n.toNat := by
  constructor
  · intro h
    by_contra hsmall
    have hlt : n.toNat < 2 := by omega
    have hone : (1 : BitVec w).toNat ≤ 1 := (le_one_iff 1).mp (BitVec.le_refl 1)
    have htwo := h.small hlt
    rw [sizeToPowerOf2_of_lt_two hlt] at htwo
    omega
  · intro h
    have hw := one_lt_of_two_le h
    have hv := sizeToPowerOf2_toNat hw n
    have hlog : 1 ≤ Nat.log 2 n.toNat := Nat.log_pos (by decide) h
    constructor
    case legal => exact queueSizeIsValid_iff n
    case accepted => exact (queueSizeIsValid_iff _).mpr ⟨_, hlog, hv⟩
    case bounds =>
      intro _
      have hlt := Nat.lt_pow_succ_log_self (b := 2) (by decide) n.toNat
      rw [hv]
      rw [Nat.pow_succ] at hlt
      exact ⟨Nat.pow_log_le_self 2 (by omega), by omega⟩
    case small =>
      intro hlt
      omega
    case idempotent =>
      apply BitVec.eq_of_toNat_eq
      rw [sizeToPowerOf2_toNat hw, hv, Nat.log_pow (by decide)]

/-- `size_to_power_of_2(0)` is 1, which `queue_size_is_valid` refuses. -/
theorem rounding_below_two_invalid : ¬ ∀ n : BitVec 64, RoundsToValid n := by
  intro h
  have hzero := (h 0).accepted
  rw [sizeToPowerOf2_of_lt_two (by decide)] at hzero
  exact absurd hzero (by decide)

end FibConcurrent.QueueDef
