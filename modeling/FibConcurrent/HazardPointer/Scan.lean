import FibConcurrent.HazardPointer.Invariant
import Mathlib.Order.WithBot

/-!
# HazardPointer — `hazard_pointer_scan` on the heap

The scan as the code runs it when nothing else moves: the records and the
retired nodes are chained through their `next` fields, `plist` is an allocated
block with an index into it, and `binary_search` has signed bounds. A failed
assertion, a loop that runs out of fuel and an access outside of a block have no
result, so that whatever has one made none of them.

`malloc`, `qsort` and the `gc_function`s are parameters. The counts of a record are `Nat`, as in
`HazardPointer.Model`: no `size_t` of theirs can wrap, since `2 * N * K` is less than the bytes of
the slots in `N` records.
-/

namespace FibConcurrent.HazardPointer.Scan

open FibConcurrent.Data

variable {ρ ν : Type*}

/-! ## The heap -/

/-- `hazard_pointer_thread_record_t`; the slots are its flexible array. -/
structure Record (ρ ν : Type*) where
  next : Option ρ
  retireThreshold : Nat
  retiredCount : Nat
  retiredList : Option ν
  plistSize : Nat
  plist : Option (List (Option ν))
  hazardPointers : List (Option ν)

/-- The records, the list they are in, the `next` fields of the hazard nodes,
and the nodes whose `gc_function` was called, in this order. -/
structure Heap (ρ ν : Type*) where
  head : Option ρ
  record : ρ → Record ρ ν
  next : ν → Option ν
  gced : List ν

/-- The address in a pointer: NULL is below all others. -/
def uintptr (p : Option ν) : WithBot ν := p

theorem uintptr_injective : Function.Injective (uintptr (ν := ν)) := fun _ _ h => h

section Functions

variable [LinearOrder ν]

/-- `hazard_pointer_compare`. -/
def hazardPointerCompare (one two : Option ν) : Int :=
  if uintptr one = uintptr two then 0 else if uintptr one < uintptr two then -1 else 1

/-- The loop of `binary_search`, for at most `fuel` rounds. -/
def binarySearchLoop (haystack : List (Option ν)) (haystackSize : Int) (needle : Option ν) :
    Nat → Int → Int → Option Bool
  | 0, _, _ => none
  | fuel + 1, start, stop =>
      if start ≤ stop then
        if (0 ≤ start ∧ start < haystackSize) ∧ (0 ≤ stop ∧ stop < haystackSize) then
          let middle := (start + stop) / 2
          if 0 ≤ middle ∧ middle < haystackSize then
            match haystack[middle.toNat]? with
            | none => none
            | some middleValue =>
                if uintptr middleValue > uintptr needle then
                  binarySearchLoop haystack haystackSize needle fuel start (middle - 1)
                else if uintptr middleValue < uintptr needle then
                  binarySearchLoop haystack haystackSize needle fuel (middle + 1) stop
                else some true
          else none
        else none
      else some false

def binarySearch (fuel : Nat) (haystack : List (Option ν)) (haystackSize : Int)
    (needle : Option ν) : Option Bool :=
  if haystackSize = 0 then some false
  else binarySearchLoop haystack haystackSize needle fuel 0 (haystackSize - 1)

/-- The loop over the slots of one record: `plist` and `index` after it. -/
def gatherSlots : List (Option ν) → List (Option ν) → Nat → Option (List (Option ν) × Nat)
  | [], plist, index => some (plist, index)
  | none :: slots, plist, index => gatherSlots slots plist index
  | some h :: slots, plist, index =>
      if index < plist.length then gatherSlots slots (plist.set index (some h)) (index + 1)
      else none

variable [DecidableEq ρ]

/-- The loop over the records, for at most `fuel` of them. -/
def gatherRecords (record : ρ → Record ρ ν) (maxPointers : Nat) :
    Nat → Option ρ → List (Option ν) → Nat → Option (List (Option ν) × Nat)
  | 0, _, _, _ => none
  | _ + 1, none, plist, index => some (plist, index)
  | fuel + 1, some curRecord, plist, index =>
      if index < maxPointers then
        (gatherSlots (record curRecord).hazardPointers plist index).bind fun r =>
          gatherRecords record maxPointers fuel (record curRecord).next r.1 r.2
      else none

variable (gc : ν → (ν → Option ν) → ν → Option ν) (hptr : ρ)

/-- The loop over the nodes that were retired, for at most `fuel` of them. -/
def processNodes (plist : List (Option ν)) (index : Nat) :
    Nat → Option ν → Heap ρ ν → Option (Heap ρ ν)
  | 0, _, _ => none
  | _ + 1, none, h => some h
  | fuel + 1, some node, h =>
      (binarySearch fuel plist index (some node)).bind fun isHazardous =>
        if isHazardous then
          let r := h.record hptr
          processNodes plist index fuel (h.next node) { h with
            next := Function.update h.next node r.retiredList
            record := Function.update h.record hptr
              { r with retiredList := some node, retiredCount := r.retiredCount + 1 } }
        else
          processNodes plist index fuel (h.next node)
            { h with next := gc node h.next, gced := h.gced ++ [node] }

variable (malloc : Nat → List (Option ν))
  (qsort : (Option ν → Option ν → Int) → List (Option ν) → List (Option ν))

/-- The scratch array of `hptr`, when it has room for `maxPointers`. -/
def scratch (r : Record ρ ν) (maxPointers : Nat) : Nat × List (Option ν) :=
  match r.plist with
  | none => (maxPointers, malloc maxPointers)
  | some plist =>
      if r.plistSize < maxPointers then (maxPointers, malloc maxPointers)
      else (r.plistSize, plist)

/-- `hazard_pointer_scan`. -/
def hazardPointerScan (fuel : Nat) (h : Heap ρ ν) : Option (Heap ρ ν) :=
  h.head.bind fun head =>
    let maxPointers := (h.record head).retireThreshold / 2
    let r := h.record hptr
    let block := scratch malloc r maxPointers
    (gatherRecords h.record maxPointers fuel (some head) block.2 0).bind fun gathered =>
      let index := gathered.2
      let plist := qsort hazardPointerCompare (gathered.1.take index) ++ gathered.1.drop index
      processNodes gc hptr plist index fuel r.retiredList { h with
        record := Function.update h.record hptr { r with
          plistSize := block.1, plist := some plist, retiredList := none, retiredCount := 0 } }

end Functions

/-! ## `binary_search` -/

theorem hazardPointerCompare_le [LinearOrder ν] {one two : Option ν} :
    hazardPointerCompare one two ≤ 0 ↔ uintptr one ≤ uintptr two := by
  unfold hazardPointerCompare
  split
  · next heq => simp [heq]
  · next hne =>
    split
    · next hlt => simp [hlt.le]
    · next hge => simpa using lt_of_le_of_ne (not_lt.mp hge) (Ne.symm hne)

section BinarySearch

variable [LinearOrder ν] {haystack : List (Option ν)} {needle : Option ν} {size : Nat}

theorem binarySearchLoop_eq (hs : ((haystack.take size).map uintptr).Pairwise (· ≤ ·))
    (hle : size ≤ haystack.length) {fuel : Nat} {start stop : Int}
    (h : Bounded ((haystack.take size).map uintptr) (uintptr needle) start stop)
    (hpos : 0 < fuel) (hfuel : stop - start + 1 < fuel) :
    binarySearchLoop haystack size needle fuel start stop =
      some (decide (uintptr needle ∈ (haystack.take size).map uintptr)) := by
  have hlength : ((haystack.take size).map uintptr).length = size := by simp [hle]
  have hnonneg := h.nonneg
  have hstop := h.lt
  rw [hlength] at hstop
  induction fuel generalizing start stop with
  | zero => omega
  | succ fuel ih =>
    rw [binarySearchLoop]
    by_cases hgo : start ≤ stop
    · rw [if_pos hgo, if_pos (by omega)]
      dsimp only
      rw [if_pos (by omega)]
      have hmiddle : ((start + stop) / 2).toNat < size := by omega
      have hread : haystack[((start + stop) / 2).toNat]? =
          some haystack[((start + stop) / 2).toNat] :=
        List.getElem?_eq_getElem (by omega)
      have hv : ((haystack.take size).map uintptr)[((start + stop) / 2).toNat]? =
          some (uintptr haystack[((start + stop) / 2).toNat]) := by
        rw [List.getElem?_map, List.getElem?_take_of_lt hmiddle, hread]
        rfl
      rw [hread]
      dsimp only
      by_cases hgt : uintptr haystack[((start + stop) / 2).toNat] > uintptr needle
      · rw [if_pos hgt]
        refine ih ⟨hnonneg, by rw [hlength]; omega, h.low, fun i w hi hmi => ?_⟩ (by omega)
          (by omega) hnonneg (by omega)
        exact lt_of_lt_of_le hgt (le_of_getElem? hs hv hi (by omega))
      · rw [if_neg hgt]
        by_cases hlt : uintptr haystack[((start + stop) / 2).toNat] < uintptr needle
        · rw [if_pos hlt]
          refine ih ⟨by omega, by rw [hlength]; omega, fun i w hi hmi => ?_, h.high⟩ (by omega)
            (by omega) (by omega) (by omega)
          exact lt_of_le_of_lt (le_of_getElem? hs hi hv (by omega)) hlt
        · rw [if_neg hlt]
          have heq := le_antisymm (not_lt.mp hgt) (not_lt.mp hlt)
          rw [heq] at hv
          rw [decide_eq_true (List.mem_of_getElem? hv)]
    · rw [if_neg hgo, decide_eq_false (h.not_mem (by omega))]

/-- **`binary_search` terminates and decides membership** in the sorted array
of `size` entries, an empty one included, without leaving it. -/
theorem binarySearch_eq (hs : ((haystack.take size).map uintptr).Pairwise (· ≤ ·))
    (hle : size ≤ haystack.length) {fuel : Nat} (hfuel : size < fuel) :
    binarySearch fuel haystack size needle = some (decide (needle ∈ haystack.take size)) := by
  have hmem : uintptr needle ∈ (haystack.take size).map uintptr ↔ needle ∈ haystack.take size :=
    List.mem_map_of_injective uintptr_injective
  unfold binarySearch
  by_cases hzero : size = 0
  · subst hzero
    simp
  · rw [if_neg (by omega)]
    rw [binarySearchLoop_eq hs hle ⟨Int.le_refl _, ?_, fun i v _ hi => by omega, ?_⟩ (by omega)
      (by omega),
      decide_eq_decide.mpr hmem]
    · rw [List.length_map, List.length_take, Nat.min_eq_left hle]
      omega
    · intro i v hi hlast
      obtain ⟨hlt, -⟩ := List.getElem?_eq_some_iff.mp hi
      simp at hlt
      omega

end BinarySearch

/-! ## Filling `plist` -/

section Gather

variable {plist : List (Option ν)} {index : Nat}

/-- The pointers that are not NULL. -/
def filled (slots : List (Option ν)) : List (Option ν) :=
  slots.filter Option.isSome

theorem length_filled_le (slots : List (Option ν)) : (filled slots).length ≤ slots.length :=
  List.length_filter_le ..

/-- A store behind the first `index` entries. -/
theorem take_set_succ {p : Option ν} (h : index < plist.length) :
    (plist.set index p).take (index + 1) = plist.take index ++ [p] := by
  rw [List.take_add_one, List.take_set_of_le (Nat.le_refl index), List.getElem?_set_self h]
  rfl

theorem gatherSlots_spec {slots : List (Option ν)}
    (hroom : index + (filled slots).length ≤ plist.length) :
    ∃ plist', gatherSlots slots plist index = some (plist', index + (filled slots).length) ∧
      plist'.length = plist.length ∧
      plist'.take (index + (filled slots).length) = plist.take index ++ filled slots := by
  induction slots generalizing plist index with
  | nil => exact ⟨plist, rfl, rfl, by simp [filled]⟩
  | cons p slots ih =>
    cases p with
    | none => exact ih hroom
    | some h =>
      have hfilled : filled (some h :: slots) = some h :: filled slots := rfl
      rw [hfilled, List.length_cons] at hroom
      have hlt : index < plist.length := by omega
      have hroom' : index + 1 + (filled slots).length ≤ (plist.set index (some h)).length := by
        rw [List.length_set]
        omega
      obtain ⟨plist', hgather, hlength, htake⟩ := ih hroom'
      rw [gatherSlots, if_pos hlt, hfilled, List.length_cons, ← Nat.add_assoc,
        Nat.add_right_comm]
      refine ⟨plist', hgather, hlength.trans List.length_set, ?_⟩
      rw [htake, take_set_succ hlt, List.append_assoc]
      rfl

variable {record : ρ → Record ρ ν} {maxPointers slotCount : Nat}

/-- What the scan finds in the slots of `chain`. -/
def hazards (record : ρ → Record ρ ν) (chain : List ρ) : List (Option ν) :=
  chain.flatMap fun r => filled (record r).hazardPointers

theorem mem_hazards {chain : List ρ} {x : ν} :
    some x ∈ hazards record chain ↔ ∃ r ∈ chain, some x ∈ (record r).hazardPointers := by
  simp [hazards, filled]

/-- **The records are gathered without leaving `plist`**, if it was sized for
all their slots; the assertion in the loop holds. -/
theorem gatherRecords_spec {chain : List ρ}
    (hchain : Linked (fun r => (record r).next) chain)
    (hslots : ∀ r ∈ chain, (record r).hazardPointers.length = slotCount) (hpos : 0 < slotCount)
    (hmax : index + slotCount * chain.length ≤ maxPointers)
    (hroom : maxPointers ≤ plist.length) :
    ∃ plist', plist'.length = plist.length ∧
      plist'.take (index + (hazards record chain).length) =
        plist.take index ++ hazards record chain ∧
      ∀ fuel, chain.length < fuel →
        gatherRecords record maxPointers fuel chain.head? plist index =
          some (plist', index + (hazards record chain).length) := by
  induction chain generalizing plist index with
  | nil =>
    refine ⟨plist, rfl, by simp [hazards], fun fuel hfuel => ?_⟩
    obtain ⟨fuel, rfl⟩ := Nat.exists_eq_add_one.mpr hfuel
    rfl
  | cons r chain ih =>
    obtain ⟨hnext, hchain⟩ := linked_cons.mp hchain
    rw [List.length_cons] at hmax
    rw [Nat.mul_add, Nat.mul_one] at hmax
    have hfirst := length_filled_le (record r).hazardPointers
    rw [hslots r List.mem_cons_self] at hfirst
    have hfits : index + (filled (record r).hazardPointers).length ≤ plist.length := by omega
    obtain ⟨plist₁, hgather, hlength, htake⟩ := gatherSlots_spec hfits
    have hmax' : index + (filled (record r).hazardPointers).length + slotCount * chain.length ≤
        maxPointers := by omega
    obtain ⟨plist₂, hlength', htake', hgather'⟩ := ih hchain
      (fun r' hr' => hslots r' (List.mem_cons_of_mem _ hr')) hmax' (hlength ▸ hroom)
    have hcons : hazards record (r :: chain) =
        filled (record r).hazardPointers ++ hazards record chain := List.flatMap_cons
    have hnext : (record r).next = chain.head? := hnext
    rw [hcons, List.length_append, ← Nat.add_assoc]
    refine ⟨plist₂, hlength'.trans hlength, ?_, fun fuel hfuel => ?_⟩
    · rw [htake', htake, List.append_assoc]
    · obtain ⟨fuel, rfl⟩ := Nat.exists_eq_add_one.mpr (Nat.zero_lt_of_lt hfuel)
      rw [List.head?_cons, gatherRecords, if_pos (by omega), hgather, Option.bind_some, hnext]
      exact hgather' fuel (Nat.lt_of_succ_lt_succ hfuel)

end Gather

/-! ## Relinking the retired nodes -/

variable [LinearOrder ν] [DecidableEq ρ]

/-- A `gc_function` may do what it likes with its own node and with nodes that
are not waiting, but not with the others of `nodes`. -/
def OwnNodeOnly (gc : ν → (ν → Option ν) → ν → Option ν) (nodes : List ν) : Prop :=
  ∀ x next, ∀ y ∈ nodes, y ≠ x → gc x next y = next y

/-- `retired_list` of a record, and its length. -/
def Record.keep (r : Record ρ ν) (kept : List ν) : Record ρ ν :=
  { r with retiredList := kept.head?, retiredCount := kept.length }

section Process

variable {gc : ν → (ν → Option ν) → ν → Option ν} {hptr : ρ} {plist found : List (Option ν)}
  {index : Nat} {nodes : List ν} {h : Heap ρ ν} {r : Record ρ ν}

/-- **The nodes are looked up one by one**: `todo` is still to be followed and
`kept` is linked again. The link of a node is read before the node goes to
either. -/
theorem processNodes_spec (hgc : OwnNodeOnly gc nodes)
    (hsearch : ∀ fuel x, index < fuel →
      binarySearch fuel plist index (some x) = some (decide (some x ∈ found)))
    {todo kept : List ν} (htodo : Linked h.next todo) (hkept : Linked h.next kept)
    (hr : h.record hptr = r.keep kept) (hnd : (todo ++ kept).Nodup) (hsub : todo ++ kept ⊆ nodes) :
    ∃ next, Linked next ((todo.filter (some · ∈ found)).reverse ++ kept) ∧
      ∀ fuel, todo.length + index < fuel →
        processNodes gc hptr plist index fuel todo.head? h = some { h with
          next := next
          gced := h.gced ++ todo.filter (some · ∉ found)
          record := Function.update h.record hptr
            (r.keep ((todo.filter (some · ∈ found)).reverse ++ kept)) } := by
  induction todo generalizing h kept with
  | nil =>
    refine ⟨h.next, hkept, fun fuel hfuel => ?_⟩
    obtain ⟨fuel, rfl⟩ := Nat.exists_eq_add_one.mpr (Nat.zero_lt_of_lt hfuel)
    simp [processNodes, ← hr]
  | cons x todo ih =>
    obtain ⟨hnext, htodo⟩ := linked_cons.mp htodo
    obtain ⟨hx, hnd'⟩ := List.nodup_cons.mp hnd
    have hsub' : todo ++ kept ⊆ nodes := fun y hy => hsub (List.mem_cons_of_mem _ hy)
    have hxtodo : x ∉ todo := fun hmem => hx (List.mem_append_left _ hmem)
    have hxkept : x ∉ kept := fun hmem => hx (List.mem_append_right _ hmem)
    have hlookup : ∀ fuel, todo.length + 1 + index < fuel + 1 →
        binarySearch fuel plist index (some x) = some (decide (some x ∈ found)) := fun fuel hfuel =>
      hsearch fuel x (by omega)
    by_cases hfound : some x ∈ found
    · -- hazardous: `x` is linked in front of `kept`
      obtain ⟨next, hlinked, hrun⟩ := ih
        (h := { h with
          next := Function.update h.next x (h.record hptr).retiredList
          record := Function.update h.record hptr { h.record hptr with
            retiredList := some x, retiredCount := (h.record hptr).retiredCount + 1 } })
        (htodo.update_next hxtodo)
        (linked_cons.mpr ⟨by simp [hr, Record.keep], hkept.update_next hxkept⟩)
        (by simp [hr, Record.keep]) (List.perm_middle.nodup_iff.mpr hnd)
        (fun y hy => hsub (List.perm_middle.subset hy))
      refine ⟨next, ?_, fun fuel hfuel => ?_⟩
      · simpa [hfound] using hlinked
      · obtain ⟨fuel, rfl⟩ := Nat.exists_eq_add_one.mpr (Nat.zero_lt_of_lt hfuel)
        rw [List.head?_cons, processNodes, hlookup fuel hfuel, Option.bind_some, hnext,
          if_pos (decide_eq_true hfound)]
        dsimp only at hrun ⊢
        rw [List.length_cons] at hfuel
        rw [hrun fuel (by omega)]
        simp [hfound, List.append_assoc]
    · -- its `gc_function` is called
      have hothers : ∀ y ∈ todo ++ kept, gc x h.next y = h.next y := fun y hy =>
        hgc x h.next y (hsub' hy) (ne_of_mem_of_not_mem hy hx)
      obtain ⟨next, hlinked, hrun⟩ := ih
        (h := { h with next := gc x h.next, gced := h.gced ++ [x] })
        (htodo.congr fun y hy => hothers y (List.mem_append_left _ hy))
        (hkept.congr fun y hy => hothers y (List.mem_append_right _ hy)) hr hnd' hsub'
      refine ⟨next, ?_, fun fuel hfuel => ?_⟩
      · simpa [hfound] using hlinked
      · obtain ⟨fuel, rfl⟩ := Nat.exists_eq_add_one.mpr (Nat.zero_lt_of_lt hfuel)
        rw [List.head?_cons, processNodes, hlookup fuel hfuel, Option.bind_some, hnext,
          if_neg (by simp [hfound])]
        dsimp only at hrun ⊢
        rw [List.length_cons] at hfuel
        rw [hrun fuel (by omega)]
        simp [hfound, List.append_assoc]

end Process

/-! ## The scan -/

/-- What the scan is called with: `chain` are the records from `head`, with
`slotCount` slots each, and `retired` the nodes in the retired list. -/
structure Ready (h : Heap ρ ν) (hptr : ρ) (chain : List ρ) (slotCount : Nat) (retired : List ν) :
    Prop where
  head : h.head = chain.head?
  nonempty : chain ≠ []
  linked : Linked (fun r => (h.record r).next) chain
  slots : ∀ r ∈ chain, (h.record r).hazardPointers.length = slotCount
  positive : 0 < slotCount
  threshold : ∀ head, h.head = some head →
    2 * chain.length * slotCount ≤ (h.record head).retireThreshold
  plist : ∀ plist, (h.record hptr).plist = some plist →
    plist.length = (h.record hptr).plistSize
  retiredList : (h.record hptr).retiredList = retired.head?
  distinct : retired.Nodup
  retiredLinked : Linked h.next retired

/-- What the C library promises: a block of the size asked for, and a sorted
permutation. -/
structure Libc (malloc : Nat → List (Option ν))
    (qsort : (Option ν → Option ν → Int) → List (Option ν) → List (Option ν)) : Prop where
  length : ∀ n, (malloc n).length = n
  perm : ∀ l, (qsort hazardPointerCompare l).Perm l
  sorted : ∀ l, (qsort hazardPointerCompare l).Pairwise fun a b => hazardPointerCompare a b ≤ 0

/-- `x` is in a slot of one of the records. -/
def InSlot (h : Heap ρ ν) (chain : List ρ) (x : ν) : Prop :=
  ∃ r ∈ chain, some x ∈ (h.record r).hazardPointers

/-- What the scan has made of the heap `h`. -/
structure Partitioned (h : Heap ρ ν) (hptr : ρ) (chain : List ρ) (retired : List ν)
    (h' : Heap ρ ν) : Prop where
  /-- The nodes that are in some slot are in the retired list, and counted. -/
  kept : ∃ kept, (h'.record hptr).retiredList = kept.head? ∧ Linked h'.next kept ∧ kept.Nodup ∧
    (h'.record hptr).retiredCount = kept.length ∧ ∀ x, x ∈ kept ↔ x ∈ retired ∧ InSlot h chain x
  /-- The `gc_function` of each of the others has been called once. -/
  called : ∃ called, h'.gced = h.gced ++ called ∧ called.Nodup ∧
    ∀ x, x ∈ called ↔ x ∈ retired ∧ ¬ InSlot h chain x
  slots : ∀ r, (h'.record r).hazardPointers = (h.record r).hazardPointers
  others : ∀ r, r ≠ hptr → h'.record r = h.record r
  plist : ∀ plist, (h'.record hptr).plist = some plist →
    plist.length = (h'.record hptr).plistSize

section Scan

variable {gc : ν → (ν → Option ν) → ν → Option ν} {malloc : Nat → List (Option ν)}
  {qsort : (Option ν → Option ν → Int) → List (Option ν) → List (Option ν)} {h : Heap ρ ν}
  {hptr : ρ} {chain : List ρ} {slotCount : Nat} {retired : List ν}

omit [DecidableEq ρ] in
/-- The scratch array has room, and its size is recorded. -/
theorem scratch_spec (hc : Libc malloc qsort) {r : Record ρ ν} (maxPointers : Nat)
    (hr : ∀ plist, r.plist = some plist → plist.length = r.plistSize) :
    (scratch malloc r maxPointers).2.length = (scratch malloc r maxPointers).1 ∧
      maxPointers ≤ (scratch malloc r maxPointers).1 := by
  unfold scratch
  cases hplist : r.plist with
  | none => exact ⟨hc.length maxPointers, Nat.le_refl _⟩
  | some plist =>
    dsimp only
    by_cases hlt : r.plistSize < maxPointers
    · rw [if_pos hlt]
      exact ⟨hc.length maxPointers, Nat.le_refl _⟩
    · rw [if_neg hlt]
      exact ⟨hr plist hplist, not_lt.mp hlt⟩

omit [DecidableEq ρ] in
/-- `qsort` sorts the first entries in place. -/
theorem sorted_spec (hc : Libc malloc qsort) {block found : List (Option ν)}
    (hfound : block.take found.length = found) :
    (qsort hazardPointerCompare found ++ block.drop found.length).length = block.length ∧
      ∀ fuel x, found.length < fuel →
        binarySearch fuel (qsort hazardPointerCompare found ++ block.drop found.length)
          found.length (some x) = some (decide (some x ∈ found)) := by
  have hperm := hc.perm found
  have htake : (qsort hazardPointerCompare found ++ block.drop found.length).take found.length =
      qsort hazardPointerCompare found := by
    rw [← hperm.length_eq]
    exact List.take_left
  have hlength : (qsort hazardPointerCompare found ++ block.drop found.length).length =
      block.length := by
    have hle : found.length ≤ block.length := by
      rw [← hfound, List.length_take]
      omega
    rw [List.length_append, hperm.length_eq, List.length_drop]
    omega
  refine ⟨hlength, fun fuel x hfuel => ?_⟩
  rw [binarySearch_eq ?_ ?_ hfuel, htake, decide_eq_decide.mpr hperm.mem_iff]
  · rw [htake]
    exact List.pairwise_map.mpr ((hc.sorted found).imp hazardPointerCompare_le.mp)
  · rw [List.length_append, hperm.length_eq]
    omega

/-- **A scan alone** has a result, and it partitions the retired list. -/
theorem hazardPointerScan_spec (hc : Libc malloc qsort)
    (hready : Ready h hptr chain slotCount retired) (hgc : OwnNodeOnly gc retired) :
    ∃ fuel₀ h', (∀ fuel ≥ fuel₀, hazardPointerScan gc hptr malloc qsort fuel h = some h') ∧
      Partitioned h hptr chain retired h' := by
  obtain ⟨head, rest, hchain⟩ := List.exists_cons_of_ne_nil hready.nonempty
  have hhead : h.head = some head := by
    rw [hready.head, hchain]
    rfl
  have hthreshold := hready.threshold head hhead
  rw [Nat.mul_assoc, Nat.mul_comm chain.length] at hthreshold
  obtain ⟨hsized, hroom⟩ := scratch_spec hc ((h.record head).retireThreshold / 2) hready.plist
  -- the slots that are in use, in front of `plist`
  have hmax : 0 + slotCount * chain.length ≤ (h.record head).retireThreshold / 2 := by omega
  obtain ⟨block, hblock, htake, hgather⟩ := gatherRecords_spec hready.linked hready.slots
    hready.positive hmax (hsized ▸ hroom)
  rw [Nat.zero_add, List.take_zero, List.nil_append] at htake
  obtain ⟨hlength, hsearch⟩ := sorted_spec hc htake
  -- the retired list is detached and processed
  obtain ⟨r, hr⟩ : ∃ r : Record ρ ν, r = { h.record hptr with
      plistSize := (scratch malloc (h.record hptr) ((h.record head).retireThreshold / 2)).1
      plist := some (qsort hazardPointerCompare (hazards h.record chain) ++
        block.drop (hazards h.record chain).length) } := ⟨_, rfl⟩
  obtain ⟨next, hkept, hprocess⟩ := processNodes_spec (r := r)
    (h := { h with record := Function.update h.record hptr (r.keep []) })
    hgc hsearch hready.retiredLinked linked_nil (Function.update_self ..)
    (by simpa using hready.distinct) (by simp)
  simp only [Function.update_idem, List.append_nil] at hkept hprocess
  refine ⟨chain.length + retired.length + (hazards h.record chain).length + 1, { h with
    next := next
    gced := h.gced ++ retired.filter (some · ∉ hazards h.record chain)
    record := Function.update h.record hptr
      (r.keep (retired.filter (some · ∈ hazards h.record chain)).reverse) },
    fun fuel hfuel => ?_, ?_⟩
  · have hgather := hgather fuel (by omega)
    rw [hchain, List.head?_cons, ← hchain, Nat.zero_add] at hgather
    rw [hazardPointerScan, hhead, Option.bind_some]
    dsimp only
    rw [hgather, Option.bind_some]
    dsimp only
    rw [htake, hready.retiredList]
    have hdetach := hprocess fuel (by omega)
    rw [hr, hhead] at hdetach
    rw [hr]
    exact hdetach
  · constructor
    case kept =>
      refine ⟨(retired.filter (some · ∈ hazards h.record chain)).reverse, ?_, hkept, ?_, ?_, ?_⟩
      · simp [Record.keep]
      · exact List.nodup_reverse.mpr (hready.distinct.filter _)
      · simp [Record.keep]
      · intro x
        simp [InSlot, mem_hazards]
    case called =>
      refine ⟨retired.filter (some · ∉ hazards h.record chain), rfl, hready.distinct.filter _, ?_⟩
      intro x
      simp [InSlot, mem_hazards]
    case slots =>
      intro u
      by_cases hu : u = hptr
      · subst hu
        simp [Record.keep, hr]
      · simp [hu]
    case others =>
      intro u hu
      exact Function.update_of_ne hu ..
    case plist =>
      intro plist hplist
      simp only [Function.update_self, Record.keep, hr, Option.some.injEq] at hplist ⊢
      rw [← hplist, hlength, hblock, hsized]

/-- **`hazard_pointer_scan` partitions the retired list exactly**, within the
bounds of its scratch array, and `binary_search` decides membership in every
sorted array. -/
theorem hazard_pointer_scan_partitions (hc : Libc malloc qsort)
    (hready : Ready h hptr chain slotCount retired) (hgc : OwnNodeOnly gc retired) :
    (∃ fuel₀ h', (∀ fuel ≥ fuel₀, hazardPointerScan gc hptr malloc qsort fuel h = some h') ∧
      Partitioned h hptr chain retired h') ∧
      ∀ (haystack : List (Option ν)) (size : Nat) (needle : Option ν), size ≤ haystack.length →
        (haystack.take size).Pairwise (fun a b => hazardPointerCompare a b ≤ 0) →
        ∃ fuel₀, ∀ fuel ≥ fuel₀,
          binarySearch fuel haystack size needle = some (decide (needle ∈ haystack.take size)) := by
  constructor
  · exact hazardPointerScan_spec hc hready hgc
  · intro haystack size needle hle hsorted
    refine ⟨size + 1, fun fuel hfuel => binarySearch_eq ?_ hle (by omega)⟩
    exact List.pairwise_map.mpr (hsorted.imp hazardPointerCompare_le.mp)

end Scan

/-- Two records with two slots each: node 5 is in two slots, node 9 in one. Of
the retired nodes 5, 7 and 9 only 7 is reclaimed. -/
theorem hazard_pointer_scan_partitions_two :
    ∃ fuel₀, ∃ h h' : Heap Nat Nat,
      (∀ fuel ≥ fuel₀, hazardPointerScan (fun x next => Function.update next x none) 0
        (fun n => List.replicate n none)
        (fun compare l => l.mergeSort fun a b => decide (compare a b ≤ 0)) fuel h = some h') ∧
      Partitioned h 0 [1, 0] [5, 7, 9] h' := by
  have hc : Libc (fun n => List.replicate n (none : Option Nat))
      (fun compare l => l.mergeSort fun a b => decide (compare a b ≤ 0)) := by
    refine ⟨fun n => List.length_replicate, fun l => List.mergeSort_perm .., fun l => ?_⟩
    have htrans : ∀ a b c : Option Nat, decide (hazardPointerCompare a b ≤ 0) →
        decide (hazardPointerCompare b c ≤ 0) → decide (hazardPointerCompare a c ≤ 0) := by
      intro a b c hab hbc
      simp only [decide_eq_true_eq, hazardPointerCompare_le] at hab hbc ⊢
      exact le_trans hab hbc
    have htotal : ∀ a b : Option Nat, (decide (hazardPointerCompare a b ≤ 0) ||
        decide (hazardPointerCompare b a ≤ 0)) = true := by
      intro a b
      simpa [hazardPointerCompare_le] using le_total (uintptr a) (uintptr b)
    exact (List.pairwise_mergeSort htrans htotal l).imp of_decide_eq_true
  have hready : Ready (ρ := Nat) (ν := Nat)
      ⟨some 1, fun r => ⟨if r = 1 then some 0 else none, 8, 3, if r = 0 then some 5 else none, 0,
        none, if r = 1 then [some 5, some 9] else [none, some 5]⟩,
        fun x => if x = 5 then some 7 else if x = 7 then some 9 else none, []⟩
      0 [1, 0] 2 [5, 7, 9] := by
    constructor
    case linked => exact ⟨.inl ⟨rfl, rfl⟩, rfl, rfl⟩
    case retiredLinked => exact ⟨.inl ⟨rfl, rfl⟩, .inl ⟨rfl, rfl⟩, rfl, rfl⟩
    case slots => decide
    case threshold =>
      rintro head ⟨⟩
      decide
    all_goals decide
  have hgc : OwnNodeOnly (fun x next => Function.update next x none) [5, 7, 9] :=
    fun x next y _ hy => Function.update_of_ne hy ..
  obtain ⟨⟨fuel₀, h', hrun, hpartition⟩, -⟩ := hazard_pointer_scan_partitions hc hready hgc
  exact ⟨fuel₀, _, h', hrun, hpartition⟩

end FibConcurrent.HazardPointer.Scan
