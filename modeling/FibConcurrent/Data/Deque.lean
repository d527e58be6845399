import FibConcurrent.Data.Sequential
import Mathlib.Data.Int.ModEq
import Mathlib.Data.List.Perm.Subperm
import Mathlib.Logic.Function.Basic

/-!
# Data — deques

The sequential deque: a push appends, a steal returns the first element and a
pop the last one. A log that can be replayed takes nothing that was not pushed,
and nothing twice (`Replays.takes_perm`).

A deque in an array is a window of indices that only move one at a time
(`segment`); the cell of index `i` in an array of `2 ^ k` cells is `cell k i`,
and indices of one window have different cells (`cell_ne`).
-/

namespace FibConcurrent.Data

variable {α : Type*}

/-- The operations of a deque, each with the element it pushed or returned. -/
inductive DequeOp (α : Type*) where
  | push (p : α)
  | steal (p : α)
  | pop (p : α)
deriving DecidableEq

def dequeApply [DecidableEq α] (l : List α) : DequeOp α → Option (List α)
  | .push p => some (l ++ [p])
  | .steal p => if l.head? = some p then some l.tail else none
  | .pop p => if l.getLast? = some p then some l.dropLast else none

/-- The elements pushed, in order. -/
def pushes (log : List (DequeOp α)) : List α :=
  log.filterMap fun
    | .push p => some p
    | _ => none

/-- The elements returned, in order. -/
def takes (log : List (DequeOp α)) : List α :=
  log.filterMap fun
    | .push _ => none
    | .steal p => some p
    | .pop p => some p

/-- **What has been taken and what is left is what was pushed.** -/
theorem Replays.takes_perm [DecidableEq α] {log : List (DequeOp α)} {l l' : List α}
    (h : Replays dequeApply l log l') : (takes log ++ l').Perm (l ++ pushes log) := by
  induction log generalizing l with
  | nil =>
    have hl : l = l' := replays_nil.mp h
    subst hl
    simp [takes, pushes]
  | cons o log ih =>
    obtain ⟨l₁, ho, hrest⟩ := Option.bind_eq_some_iff.mp h
    have ih' := ih hrest
    cases o with
    | push p =>
      obtain rfl := Option.some.inj ho
      rw [List.append_assoc] at ih'
      exact ih'
    | steal p =>
      obtain ⟨hp, hl⟩ := Option.ite_none_right_eq_some.mp ho
      obtain rfl := Option.some.inj hl
      obtain ⟨rest, rfl⟩ := List.head?_eq_some_iff.mp hp
      exact List.Perm.cons p ih'
    | pop p =>
      obtain ⟨hp, hl⟩ := Option.ite_none_right_eq_some.mp ho
      obtain rfl := Option.some.inj hl
      obtain ⟨front, rfl⟩ := List.getLast?_eq_some_iff.mp hp
      rw [List.dropLast_concat] at ih'
      have hswap : (front ++ [p] ++ pushes log).Perm (p :: (front ++ pushes log)) := by
        rw [List.append_assoc]
        exact List.perm_middle
      exact (List.Perm.cons p ih').trans hswap.symm

/-- Nothing is taken that was not pushed, and nothing twice. -/
theorem Replays.takes_subperm [DecidableEq α] {log : List (DequeOp α)} {l : List α}
    (h : Replays dequeApply [] log l) : (takes log).Subperm (pushes log) :=
  ((List.sublist_append_left _ l).subperm).trans h.takes_perm.subperm

/-! ## Windows of indices -/

/-- The values at the indices from `lo` up to, but not including, `hi`. -/
def segment (val : Int → α) (lo hi : Int) : List α :=
  (List.range (hi - lo).toNat).map fun k : Nat => val (lo + k)

section Segment

variable {val val' : Int → α} {lo hi : Int}

@[simp] theorem length_segment : (segment val lo hi).length = (hi - lo).toNat := by
  simp [segment]

theorem segment_self (val : Int → α) (i : Int) : segment val i i = [] := by
  simp [segment]

theorem segment_of_le (h : hi ≤ lo) : segment val lo hi = [] := by
  have hlen : (hi - lo).toNat = 0 := by omega
  simp [segment, hlen]

theorem segment_congr (h : ∀ i, lo ≤ i → i < hi → val i = val' i) :
    segment val lo hi = segment val' lo hi := by
  apply List.map_congr_left
  intro k hk
  rw [List.mem_range] at hk
  exact h _ (by omega) (by omega)

theorem segment_head (h : lo < hi) : segment val lo hi = val lo :: segment val (lo + 1) hi := by
  have hlen : (hi - lo).toNat = (hi - (lo + 1)).toNat + 1 := by omega
  unfold segment
  rw [hlen, List.range_succ_eq_map, List.map_cons, List.map_map]
  congr 1
  · simp
  · apply List.map_congr_left
    intro k _
    show val (lo + ((k + 1 : Nat) : Int)) = val (lo + 1 + k)
    rw [show lo + ((k + 1 : Nat) : Int) = lo + 1 + k by omega]

theorem segment_last (h : lo ≤ hi) :
    segment val lo (hi + 1) = segment val lo hi ++ [val hi] := by
  have hlen : (hi + 1 - lo).toNat = (hi - lo).toNat + 1 := by omega
  unfold segment
  rw [hlen, List.range_succ, List.map_append, List.map_singleton,
    show lo + ((hi - lo).toNat : Int) = hi by omega]

variable [DecidableEq α]

theorem dequeApply_push (h : lo ≤ hi) (p : α) :
    dequeApply (segment val lo hi) (.push p) =
      some (segment (Function.update val hi p) lo (hi + 1)) := by
  have hsame : segment (Function.update val hi p) lo hi = segment val lo hi :=
    segment_congr fun i _ hi' => Function.update_of_ne (by omega) ..
  rw [segment_last h, hsame, Function.update_self]
  rfl

theorem dequeApply_steal (h : lo < hi) :
    dequeApply (segment val lo hi) (.steal (val lo)) = some (segment val (lo + 1) hi) := by
  rw [segment_head h]
  simp [dequeApply]

theorem dequeApply_pop (h : lo ≤ hi) :
    dequeApply (segment val lo (hi + 1)) (.pop (val hi)) = some (segment val lo hi) := by
  rw [segment_last h]
  simp [dequeApply]

end Segment

/-! ## Cells of a circular array -/

/-- `i & size_minus_one` in an array of `2 ^ k` cells, for a signed index that is
converted to 64 unsigned bits. -/
def cell (k : Nat) (i : Int) : Nat := (i % 2 ^ 64).toNat &&& (2 ^ k - 1)

theorem cell_eq_emod {k : Nat} (hk : k ≤ 64) (i : Int) : (cell k i : Int) = i % 2 ^ k := by
  have hpos : (0 : Int) ≤ i % 2 ^ 64 := Int.emod_nonneg _ (by decide)
  have hdvd : (2 : Int) ^ k ∣ 2 ^ 64 := pow_dvd_pow 2 hk
  unfold cell
  rw [Nat.and_two_pow_sub_one_eq_mod, Int.natCast_mod, Int.toNat_of_nonneg hpos]
  push_cast
  exact Int.emod_emod_of_dvd i hdvd

/-- **Indices of one window have different cells.** -/
theorem cell_ne {k : Nat} {i j : Int} (hk : k ≤ 64) (hij : i < j) (hji : j - i < 2 ^ k) :
    cell k i ≠ cell k j := by
  intro h
  have hmod : i % 2 ^ k = j % 2 ^ k := by
    rw [← cell_eq_emod hk, ← cell_eq_emod hk, h]
  have hdvd : (2 : Int) ^ k ∣ j - i := Int.ModEq.dvd hmod
  have hle := Int.le_of_dvd (by omega) hdvd
  omega

end FibConcurrent.Data
