import FibConcurrent.HazardPointer.Scan

/-!
# HazardPointer — records and nodes that come to an end

`hazard_pointer_scan`, `hazard_pointer_free` and the two functions that destroy
records, on a heap where things end: a record that was freed and a node that was
handed to its `gc_function` are gone, and an access to either has no result. So a
run that has one follows no dangling pointer, frees no record twice and reclaims
no node twice.

A record finds the list of all records through a pointer to a variable, which
`hazard_pointer_thread_record_destroy_all` redirects to a local one. The counts are those of
`HazardPointer.Scan`, and `Nat` for the same reason.
-/

namespace FibConcurrent.HazardPointer.Destroy

open FibConcurrent.Data

variable {ρ ν β : Type*}

/-- The variables that `head` of a record may point to: the client's, or `cur` of
`hazard_pointer_thread_record_destroy_all`. -/
inductive HeadVar where
  | shared
  | cur
deriving DecidableEq

/-- `hazard_pointer_thread_record_t`. -/
structure Record (ρ ν : Type*) extends Scan.Record ρ ν where
  head : HeadVar

/-- An object that begins with a `hazard_node_t`. -/
structure Node (ν β : Type*) where
  next : Option ν
  object : β

/-- The records and nodes that there still are, the nodes whose `gc_function` was
called and the records that were freed, in this order. -/
structure Heap (ρ ν β : Type*) where
  head : Option ρ
  cur : Option ρ
  record : ρ → Option (Record ρ ν)
  node : ν → Option (Node ν β)
  gced : List ν
  freed : List ρ

/-- `*head` -/
def Heap.deref (h : Heap ρ ν β) : HeadVar → Option ρ
  | .shared => h.head
  | .cur => h.cur

section Functions

variable [LinearOrder ν] [DecidableEq ρ]

/-- The loop of a scan over the records, for at most `fuel` of them. -/
def gatherRecords (record : ρ → Option (Record ρ ν)) (maxPointers : Nat) :
    Nat → Option ρ → List (Option ν) → Nat → Option (List (Option ν) × Nat)
  | 0, _, _, _ => none
  | _ + 1, none, plist, index => some (plist, index)
  | fuel + 1, some curRecord, plist, index =>
      if index < maxPointers then
        (record curRecord).bind fun r =>
          (Scan.gatherSlots r.hazardPointers plist index).bind fun gathered =>
            gatherRecords record maxPointers fuel r.next gathered.1 gathered.2
      else none

/-- The loop of a scan over the nodes that were retired, for at most `fuel` of them. -/
def processNodes (hptr : ρ) (plist : List (Option ν)) (index : Nat) :
    Nat → Option ν → Heap ρ ν β → Option (Heap ρ ν β)
  | 0, _, _ => none
  | _ + 1, none, h => some h
  | fuel + 1, some node, h =>
      (h.node node).bind fun n =>
        (Scan.binarySearch fuel plist index (some node)).bind fun isHazardous =>
          if isHazardous then
            (h.record hptr).bind fun r =>
              processNodes hptr plist index fuel n.next { h with
                node := Function.update h.node node (some { n with next := r.retiredList })
                record := Function.update h.record hptr (some { r with
                  retiredList := some node, retiredCount := r.retiredCount + 1 }) }
          else
            -- The node is in the hands of its `gc_function`.
            processNodes hptr plist index fuel n.next { h with
              node := Function.update h.node node none, gced := h.gced ++ [node] }

variable (malloc : Nat → List (Option ν))
  (qsort : (Option ν → Option ν → Int) → List (Option ν) → List (Option ν)) (fuel : Nat)

/-- `hazard_pointer_scan`. -/
def hazardPointerScan (hptr : ρ) (h : Heap ρ ν β) : Option (Heap ρ ν β) :=
  (h.record hptr).bind fun r =>
    (h.deref r.head).bind fun head =>
      (h.record head).bind fun headRecord =>
        let maxPointers := headRecord.retireThreshold / 2
        let block := Scan.scratch malloc r.toRecord maxPointers
        (gatherRecords h.record maxPointers fuel (some head) block.2 0).bind fun gathered =>
          let index := gathered.2
          let plist := qsort Scan.hazardPointerCompare (gathered.1.take index) ++
            gathered.1.drop index
          processNodes hptr plist index fuel r.retiredList { h with
            record := Function.update h.record hptr (some { r with
              plistSize := block.1, plist := some plist, retiredList := none, retiredCount := 0 }) }

/-- `hazard_pointer_free`. -/
def hazardPointerFree (hptr : ρ) (node : ν) (h : Heap ρ ν β) : Option (Heap ρ ν β) :=
  (h.node node).bind fun n =>
    (h.record hptr).bind fun r =>
      let h' := { h with
        node := Function.update h.node node (some { n with next := r.retiredList })
        record := Function.update h.record hptr (some { r with
          retiredList := some node, retiredCount := r.retiredCount + 1 }) }
      if r.retiredCount + 1 ≥ r.retireThreshold then hazardPointerScan malloc qsort fuel hptr h'
      else some h'

/-- `hazard_pointer_thread_record_destroy`; the scratch array goes with its record. -/
def hazardPointerThreadRecordDestroy : Option ρ → Heap ρ ν β → Option (Heap ρ ν β)
  | none, h => some h
  | some hptr, h =>
      (hazardPointerScan malloc qsort fuel hptr h).bind fun h =>
        (h.record hptr).bind fun _ =>
          some { h with
            record := Function.update h.record hptr none, freed := h.freed ++ [hptr] }

/-- The loop of `hazard_pointer_thread_record_destroy_all`, for at most as many
records. -/
def destroyAllLoop : Nat → Heap ρ ν β → Option (Heap ρ ν β)
  | 0, _ => none
  | rounds + 1, h =>
      match h.cur with
      | none => some h
      | some cur =>
          (h.record cur).bind fun r =>
            (hazardPointerThreadRecordDestroy malloc qsort fuel (some cur) { h with
              record := Function.update h.record cur (some { r with head := .cur }) }).bind
              fun h => destroyAllLoop rounds { h with cur := r.next }

/-- `hazard_pointer_thread_record_destroy_all`. -/
def hazardPointerThreadRecordDestroyAll (head : Option ρ) (h : Heap ρ ν β) :
    Option (Heap ρ ν β) :=
  destroyAllLoop malloc qsort fuel fuel { h with cur := head }

end Functions

/-! ## A heap that nobody works on -/

/-- `r->next`, or nothing if `r` is gone. -/
def Heap.nextRecord (h : Heap ρ ν β) (r : ρ) : Option ρ := (h.record r).bind fun x => x.next

/-- `node->next` -/
def Heap.nextNode (h : Heap ρ ν β) (node : ν) : Option ν := (h.node node).bind fun n => n.next

/-- `*r->head` -/
def Heap.headOf (h : Heap ρ ν β) (r : ρ) : Option ρ := (h.record r).bind fun x => h.deref x.head

/-- A record whose slots are NULL, with the nodes of its retired list. -/
structure Record.Idle (r : Record ρ ν) (slotCount threshold : Nat) (retired : List ν) : Prop where
  slots : r.hazardPointers = List.replicate slotCount none
  threshold : r.retireThreshold = threshold
  retiredList : r.retiredList = retired.head?

/-- The records of `chain` with their retired lists, and other nodes that are still
there; all the nodes are distinct. -/
structure Quiet (h : Heap ρ ν β) (slotCount threshold : Nat) (chain : List ρ) (nodes : List ν)
    (retired : ρ → List ν) : Prop where
  record : ∀ r ∈ chain, ∃ x, h.record r = some x ∧ x.Idle slotCount threshold (retired r)
  linked : Linked h.nextRecord chain
  node : ∀ x ∈ nodes ++ chain.flatMap retired, ∃ n, h.node x = some n
  retiredLinked : ∀ r ∈ chain, Linked h.nextNode (retired r)
  distinct : (nodes ++ chain.flatMap retired).Nodup

/-- A heap with one record changed. -/
def Heap.setRecord [DecidableEq ρ] (h : Heap ρ ν β) (r : ρ) (x : Record ρ ν) : Heap ρ ν β :=
  { h with record := Function.update h.record r (some x) }

/-- A heap whose nodes `l` have been handed to their `gc_function`s, in this order. -/
def Heap.collect [DecidableEq ν] (h : Heap ρ ν β) (l : List ν) : Heap ρ ν β :=
  { h with node := fun x => if x ∈ l then none else h.node x, gced := h.gced ++ l }

/-- A heap where `node` has been put in front of the retired list of `hptr`. -/
def Heap.retire [DecidableEq ρ] [DecidableEq ν] (h : Heap ρ ν β) (hptr : ρ) (x : Record ρ ν)
    (node : ν) (n : Node ν β) : Heap ρ ν β :=
  { h.setRecord hptr { x with
      retiredList := some node, retiredCount := x.retiredCount + 1 } with
    node := Function.update h.node node (some { n with next := x.retiredList }) }

section Lists

variable [DecidableEq ρ] {chain : List ρ} (nodes : List ν) (retired : ρ → List ν) {r : ρ}

/-- The nodes in one list, and those in the others. -/
theorem perm_update (l : List ν) (hnd : chain.Nodup) (hr : r ∈ chain) :
    (nodes ++ chain.flatMap (Function.update retired r l)).Perm
      (l ++ (nodes ++ (chain.erase r).flatMap retired)) := by
  have hothers : (chain.erase r).flatMap (Function.update retired r l) =
      (chain.erase r).flatMap retired := by
    refine List.flatMap_congr fun u hu => Function.update_of_ne ?_ ..
    rintro rfl
    exact absurd hu (hnd.not_mem_erase)
  have hfirst := (List.perm_cons_erase hr).flatMap_right (Function.update retired r l)
  rw [List.flatMap_cons, Function.update_self, hothers] at hfirst
  exact (hfirst.append_left nodes).trans (List.perm_append_comm_assoc nodes l _)

theorem perm_retired (hnd : chain.Nodup) (hr : r ∈ chain) :
    (nodes ++ chain.flatMap retired).Perm
      (retired r ++ (nodes ++ (chain.erase r).flatMap retired)) := by
  have h := perm_update nodes retired (retired r) hnd hr
  rwa [Function.update_eq_self] at h

end Lists

section Scan

variable {h : Heap ρ ν β} {slotCount threshold : Nat} {chain : List ρ} {nodes : List ν}
  {retired : ρ → List ν} {hptr : ρ} {plist : List (Option ν)} {x : Record ρ ν}

/-! ## A scan reclaims everything -/

theorem gatherSlots_null (n : Nat) (plist : List (Option ν)) (index : Nat) :
    Scan.gatherSlots (List.replicate n none) plist index = some (plist, index) := by
  induction n with
  | zero => rfl
  | succ n ih => exact ih

/-- No slot is in use, so that nothing is gathered. -/
theorem gatherRecords_null (plist : List (Option ν)) {maxPointers : Nat} (hpos : 0 < maxPointers)
    (hrecord : ∀ r ∈ chain, ∃ x, h.record r = some x ∧ x.Idle slotCount threshold (retired r))
    (hlinked : Linked h.nextRecord chain) :
    ∀ fuel, chain.length < fuel →
      gatherRecords h.record maxPointers fuel chain.head? plist 0 = some (plist, 0) := by
  induction chain with
  | nil =>
    intro fuel hfuel
    obtain ⟨fuel, rfl⟩ := Nat.exists_eq_add_one.mpr hfuel
    rfl
  | cons r chain ih =>
    intro fuel hfuel
    obtain ⟨fuel, rfl⟩ := Nat.exists_eq_add_one.mpr (Nat.zero_lt_of_lt hfuel)
    obtain ⟨hnext, hlinked⟩ := linked_cons.mp hlinked
    obtain ⟨x, hx, hidle⟩ := hrecord r List.mem_cons_self
    have hnext : x.next = chain.head? := by
      rw [Heap.nextRecord, hx] at hnext
      exact hnext
    rw [List.head?_cons, gatherRecords, if_pos hpos, hx, Option.bind_some, hidle.slots,
      gatherSlots_null, Option.bind_some, hnext]
    exact ih (fun u hu => hrecord u (List.mem_cons_of_mem _ hu)) hlinked fuel
      (Nat.lt_of_succ_lt_succ hfuel)

theorem Quiet.idle (hq : Quiet h slotCount threshold chain nodes retired) (hr : hptr ∈ chain)
    (hx : h.record hptr = some x) : x.Idle slotCount threshold (retired hptr) := by
  obtain ⟨y, hy, hidle⟩ := hq.record hptr hr
  cases hx.symm.trans hy
  exact hidle

variable [LinearOrder ν] [DecidableEq ρ]

/-- With nothing gathered, no node is found hazardous. -/
theorem processNodes_null {l : List ν} (hnode : ∀ x ∈ l, ∃ n, h.node x = some n)
    (hlinked : Linked h.nextNode l) :
    ∀ fuel, l.length < fuel →
      processNodes hptr plist 0 fuel l.head? h = some (h.collect l) := by
  induction l generalizing h with
  | nil =>
    intro fuel hfuel
    obtain ⟨fuel, rfl⟩ := Nat.exists_eq_add_one.mpr hfuel
    simp [processNodes, Heap.collect]
  | cons y l ih =>
    intro fuel hfuel
    obtain ⟨fuel, rfl⟩ := Nat.exists_eq_add_one.mpr (Nat.zero_lt_of_lt hfuel)
    have hy : y ∉ l := (List.nodup_cons.mp hlinked.nodup).1
    obtain ⟨hnext, hlinked⟩ := linked_cons.mp hlinked
    obtain ⟨n, hn⟩ := hnode y List.mem_cons_self
    have hnext : n.next = l.head? := by
      rw [Heap.nextNode, hn] at hnext
      exact hnext
    have hsame : ∀ x ∈ l, Function.update h.node y none x = h.node x := fun x hx =>
      Function.update_of_ne (ne_of_mem_of_not_mem hx hy) ..
    have hrest := ih (h := { h with
        node := Function.update h.node y none, gced := h.gced ++ [y] })
      (fun x hx => by
        obtain ⟨n, hn⟩ := hnode x (List.mem_cons_of_mem _ hx)
        exact ⟨n, (hsame x hx).trans hn⟩)
      (hlinked.congr fun x hx => by
        show (Function.update h.node y none x).bind _ = _
        rw [hsame x hx]
        rfl)
      fuel (Nat.lt_of_succ_lt_succ hfuel)
    have hfalse : Scan.binarySearch fuel plist ((0 : Nat) : Int) (some y) = some false := if_pos rfl
    rw [List.head?_cons, processNodes, hn, Option.bind_some, hfalse, Option.bind_some, hnext]
    refine hrest.trans (congrArg some ?_)
    unfold Heap.collect
    congr 1
    · funext x
      by_cases hx : x ∈ l
      · simp [hx]
      · by_cases hxy : x = y
        · simp [hxy]
        · simp [hx, hxy]
    · simp

variable (malloc : Nat → List (Option ν))
  (qsort : (Option ν → Option ν → Int) → List (Option ν) → List (Option ν))

/-- **A scan reclaims the whole retired list**, and nothing of what it follows is
gone. -/
theorem hazardPointerScan_null (hq : Quiet h slotCount threshold chain nodes retired)
    (hhptr : hptr ∈ chain) (hx : h.record hptr = some x) (hhead : h.headOf hptr = chain.head?)
    (hpos : 0 < threshold / 2) :
    ∃ x', x'.Idle slotCount threshold [] ∧ x'.next = x.next ∧ x'.head = x.head ∧
      ∀ fuel, chain.length + (retired hptr).length < fuel →
        hazardPointerScan malloc qsort fuel hptr h =
          some ((h.setRecord hptr x').collect (retired hptr)) := by
  obtain ⟨first, rest, hchain⟩ := List.exists_cons_of_ne_nil (List.ne_nil_of_mem hhptr)
  have hderef : h.deref x.head = some first := by
    rw [Heap.headOf, hx, hchain] at hhead
    exact hhead
  obtain ⟨y, hy, hfirst⟩ := hq.record first (hchain ▸ List.mem_cons_self)
  have hidle := hq.idle hhptr hx
  have hmax : y.retireThreshold / 2 = threshold / 2 := by rw [hfirst.threshold]
  obtain ⟨block, hblock⟩ : ∃ block, block = Scan.scratch malloc x.toRecord (threshold / 2) :=
    ⟨_, rfl⟩
  refine ⟨{ x with
    plistSize := block.1
    plist := some (qsort Scan.hazardPointerCompare (block.2.take 0) ++ block.2.drop 0)
    retiredList := none
    retiredCount := 0 }, ⟨hidle.slots, hidle.threshold, rfl⟩, rfl, rfl, fun fuel hfuel => ?_⟩
  have hgather := gatherRecords_null block.2 hpos hq.record hq.linked fuel (by omega)
  rw [hchain, List.head?_cons] at hgather
  rw [hazardPointerScan, hx, Option.bind_some, hderef, Option.bind_some, hy, Option.bind_some]
  dsimp only
  rw [hmax, ← hblock, hgather, Option.bind_some, hidle.retiredList]
  refine processNodes_null (h := h.setRecord hptr _) (fun z hz => ?_) ?_ fuel (by omega)
  · exact hq.node z (List.mem_append_right _ (List.mem_flatMap.mpr ⟨hptr, hhptr, hz⟩))
  · exact hq.retiredLinked hptr hhptr

omit [LinearOrder ν] in
theorem nextRecord_setRecord (hx : h.record hptr = some x) {x' : Record ρ ν}
    (hnext : x'.next = x.next) (r : ρ) : (h.setRecord hptr x').nextRecord r = h.nextRecord r := by
  show (Function.update h.record hptr (some x') r).bind _ = _
  by_cases hr : r = hptr
  · subst hr
    rw [Function.update_self, Heap.nextRecord, hx]
    exact hnext
  · rw [Function.update_of_ne hr]
    rfl

omit [LinearOrder ν] in
theorem headOf_setRecord (hx : h.record hptr = some x) {x' : Record ρ ν}
    (hhead : x'.head = x.head) : (h.setRecord hptr x').headOf hptr = h.headOf hptr := by
  show (Function.update h.record hptr (some x') hptr).bind (fun x => h.deref x.head) = _
  rw [Function.update_self, Heap.headOf, hx, Option.bind_some, Option.bind_some, hhead]

omit [LinearOrder ν] in
/-- What is left of the other lists does not depend on the one that was reclaimed. -/
theorem Quiet.collect [DecidableEq ν] (hq : Quiet h slotCount threshold chain nodes retired)
    (hhptr : hptr ∈ chain) (hx : h.record hptr = some x) {x' : Record ρ ν}
    (hidle : x'.Idle slotCount threshold []) (hnext : x'.next = x.next) :
    Quiet ((h.setRecord hptr x').collect (retired hptr)) slotCount threshold chain nodes
      (Function.update retired hptr []) := by
  have hnd := hq.linked.nodup
  have hperm := perm_retired nodes retired hnd hhptr
  have hperm' := perm_update nodes retired [] hnd hhptr
  obtain ⟨-, hothers, hdisjoint⟩ := List.nodup_append.mp (hperm.nodup_iff.mp hq.distinct)
  have hkept : ∀ y ∈ nodes ++ (chain.erase hptr).flatMap retired,
      ((h.setRecord hptr x').collect (retired hptr)).node y = h.node y := fun y hy =>
    if_neg fun hmem => hdisjoint y hmem y hy rfl
  constructor
  case record =>
    intro r hr
    show ∃ x, Function.update h.record hptr (some x') r = some x ∧ _
    by_cases hrh : r = hptr
    · subst hrh
      exact ⟨x', Function.update_self .., by rw [Function.update_self]; exact hidle⟩
    · rw [Function.update_of_ne hrh, Function.update_of_ne hrh]
      exact hq.record r hr
  case linked => exact hq.linked.congr fun r _ => nextRecord_setRecord hx hnext r
  case node =>
    intro y hy
    have hy' : y ∈ nodes ++ (chain.erase hptr).flatMap retired := hperm'.subset hy
    rw [hkept y hy']
    exact hq.node y (hperm.symm.subset (List.mem_append_right _ hy'))
  case retiredLinked =>
    intro r hr
    by_cases hrh : r = hptr
    · subst hrh
      rw [Function.update_self]
      exact linked_nil
    · rw [Function.update_of_ne hrh]
      refine (hq.retiredLinked r hr).congr fun y hy => ?_
      have hy' : y ∈ nodes ++ (chain.erase hptr).flatMap retired := List.mem_append_right _
        (List.mem_flatMap.mpr ⟨r, (List.mem_erase_of_ne hrh).mpr hr, hy⟩)
      rw [Heap.nextNode, hkept y hy']
      rfl
  case distinct => exact hperm'.nodup_iff.mpr hothers

omit [LinearOrder ν] in
/-- A node is put in front of a retired list. -/
theorem Quiet.retire [DecidableEq ν] {node : ν} {n : Node ν β}
    (hq : Quiet h slotCount threshold chain (node :: nodes) retired) (hhptr : hptr ∈ chain)
    (hx : h.record hptr = some x) (hn : h.node node = some n) :
    Quiet (h.retire hptr x node n)
      slotCount threshold chain nodes (Function.update retired hptr (node :: retired hptr)) := by
  have hnd := hq.linked.nodup
  have hidle := hq.idle hhptr hx
  have hperm : (nodes ++ chain.flatMap (Function.update retired hptr (node :: retired hptr))).Perm
      (node :: nodes ++ chain.flatMap retired) :=
    (perm_update nodes retired _ hnd hhptr).trans
      ((perm_retired nodes retired hnd hhptr).symm.cons node)
  have hout : ∀ r ∈ chain, node ∉ retired r := fun r hr hmem =>
    (List.nodup_cons.mp hq.distinct).1
      (List.mem_append_right _ (List.mem_flatMap.mpr ⟨r, hr, hmem⟩))
  have hkept : ∀ r ∈ chain, Linked
      ({ h with node := Function.update h.node node (some { n with next := x.retiredList }) } :
        Heap ρ ν β).nextNode (retired r) := fun r hr =>
    (hq.retiredLinked r hr).congr fun y hy => by
      show (Function.update h.node node _ y).bind _ = _
      rw [Function.update_of_ne (ne_of_mem_of_not_mem hy (hout r hr))]
      rfl
  constructor
  case record =>
    intro r hr
    show ∃ x, Function.update h.record hptr _ r = some x ∧ _
    by_cases hrh : r = hptr
    · subst hrh
      rw [Function.update_self, Function.update_self]
      exact ⟨_, rfl, hidle.slots, hidle.threshold, rfl⟩
    · rw [Function.update_of_ne hrh, Function.update_of_ne hrh]
      exact hq.record r hr
  case linked =>
    have hsame : ∀ r, (h.setRecord hptr { x with
        retiredList := some node, retiredCount := x.retiredCount + 1 }).nextRecord r =
        h.nextRecord r := nextRecord_setRecord hx rfl
    exact hq.linked.congr fun r _ => hsame r
  case node =>
    intro y hy
    show ∃ m, Function.update h.node node _ y = some m
    by_cases hyn : y = node
    · subst hyn
      exact ⟨_, Function.update_self ..⟩
    · rw [Function.update_of_ne hyn]
      exact hq.node y (hperm.subset hy)
  case retiredLinked =>
    intro r hr
    by_cases hrh : r = hptr
    · subst hrh
      rw [Function.update_self]
      refine linked_cons.mpr ⟨?_, hkept r hr⟩
      show (Function.update h.node node _ node).bind _ = _
      rw [Function.update_self]
      exact hidle.retiredList
    · rw [Function.update_of_ne hrh]
      exact hkept r hr
  case distinct => exact hperm.nodup_iff.mpr hq.distinct

/-- What has become of the nodes `l`, which record `hptr` has retired: some were
reclaimed at once, and the others are in its retired list. -/
structure Retires (h h' : Heap ρ ν β) (slotCount threshold : Nat) (chain : List ρ)
    (nodes : List ν) (retired : ρ → List ν) (hptr : ρ) (l called kept : List ν) : Prop where
  quiet : Quiet h' slotCount threshold chain nodes (Function.update retired hptr kept)
  gced : h'.gced = h.gced ++ called
  perm : (called ++ kept).Perm (l ++ retired hptr)
  node : ∀ y ∈ nodes, h'.node y = h.node y
  headOf : h'.headOf hptr = h.headOf hptr
  head : h'.head = h.head
  freed : h'.freed = h.freed

omit [LinearOrder ν] in
theorem retires_retire [DecidableEq ν] {node : ν} {n : Node ν β}
    (hq : Quiet h slotCount threshold chain (node :: nodes) retired) (hhptr : hptr ∈ chain)
    (hx : h.record hptr = some x) (hn : h.node node = some n) :
    Retires h (h.retire hptr x node n) slotCount threshold chain nodes retired hptr [node] []
      (node :: retired hptr) := by
  constructor
  case quiet => exact hq.retire hhptr hx hn
  case gced => exact (List.append_nil _).symm
  case perm => exact List.Perm.refl _
  case node =>
    intro y hy
    have hout : node ∉ nodes := fun hmem =>
      (List.nodup_cons.mp hq.distinct).1 (List.mem_append_left _ hmem)
    exact Function.update_of_ne (ne_of_mem_of_not_mem hy hout) ..
  case headOf => exact headOf_setRecord hx rfl
  case head => rfl
  case freed => rfl

omit [LinearOrder ν] in
/-- A scan reclaims what was in the retired list. -/
theorem Retires.collect [DecidableEq ν] {h₁ : Heap ρ ν β} {l called kept : List ν}
    (hr : Retires h h₁ slotCount threshold chain nodes retired hptr l called kept)
    (hhptr : hptr ∈ chain) (hx : h₁.record hptr = some x) {x' : Record ρ ν}
    (hidle : x'.Idle slotCount threshold []) (hnext : x'.next = x.next)
    (hhead : x'.head = x.head) :
    Retires h ((h₁.setRecord hptr x').collect kept) slotCount threshold chain nodes retired hptr l
      (called ++ kept) [] := by
  have hself : Function.update retired hptr kept hptr = kept := Function.update_self ..
  constructor
  case quiet =>
    have hquiet := hr.quiet.collect hhptr hx hidle hnext
    rw [Function.update_idem, hself] at hquiet
    exact hquiet
  case gced =>
    rw [← List.append_assoc, ← hr.gced]
    rfl
  case perm =>
    rw [List.append_nil]
    exact hr.perm
  case node =>
    intro y hy
    have hy' : y ∉ kept := fun hmem => (List.nodup_append.mp hr.quiet.distinct).2.2 y hy y
      (List.mem_flatMap.mpr ⟨hptr, hhptr, hself.symm ▸ hmem⟩) rfl
    exact (if_neg hy').trans (hr.node y hy)
  case headOf => exact (headOf_setRecord hx hhead).trans hr.headOf
  case head => exact hr.head
  case freed => exact hr.freed

omit [LinearOrder ν] in
/-- First `l₁` is retired, and then `l₂`. -/
theorem Retires.trans {h₁ h₂ : Heap ρ ν β} {l₁ l₂ called₁ called₂ kept₁ kept₂ : List ν}
    (hr₁ : Retires h h₁ slotCount threshold chain (l₂ ++ nodes) retired hptr l₁ called₁ kept₁)
    (hr₂ : Retires h₁ h₂ slotCount threshold chain nodes (Function.update retired hptr kept₁) hptr
      l₂ called₂ kept₂) :
    Retires h h₂ slotCount threshold chain nodes retired hptr (l₁ ++ l₂) (called₁ ++ called₂)
      kept₂ := by
  constructor
  case quiet =>
    have hquiet := hr₂.quiet
    rw [Function.update_idem] at hquiet
    exact hquiet
  case gced => rw [hr₂.gced, hr₁.gced, List.append_assoc]
  case perm =>
    have hrest := hr₂.perm
    rw [Function.update_self] at hrest
    calc called₁ ++ called₂ ++ kept₂
      _ = called₁ ++ (called₂ ++ kept₂) := List.append_assoc ..
      List.Perm _ (called₁ ++ (l₂ ++ kept₁)) := hrest.append_left called₁
      List.Perm _ (l₂ ++ (called₁ ++ kept₁)) := List.perm_append_comm_assoc ..
      List.Perm _ (l₂ ++ (l₁ ++ retired hptr)) := hr₁.perm.append_left l₂
      List.Perm _ (l₁ ++ (l₂ ++ retired hptr)) := List.perm_append_comm_assoc ..
      _ = l₁ ++ l₂ ++ retired hptr := (List.append_assoc ..).symm
  case node =>
    exact fun y hy => (hr₂.node y hy).trans (hr₁.node y (List.mem_append_right _ hy))
  case headOf => exact hr₂.headOf.trans hr₁.headOf
  case head => exact hr₂.head.trans hr₁.head
  case freed => exact hr₂.freed.trans hr₁.freed

/-- **`hazard_pointer_free`**, whether or not it comes to a scan. -/
theorem hazardPointerFree_spec {node : ν}
    (hq : Quiet h slotCount threshold chain (node :: nodes) retired) (hhptr : hptr ∈ chain)
    (hhead : h.headOf hptr = chain.head?) (hpos : 0 < threshold / 2) :
    ∃ h' called kept, (∀ fuel, chain.length + (retired hptr).length + 1 < fuel →
        hazardPointerFree malloc qsort fuel hptr node h = some h') ∧
      Retires h h' slotCount threshold chain nodes retired hptr [node] called kept := by
  obtain ⟨x, hx, -⟩ := hq.record hptr hhptr
  obtain ⟨n, hn⟩ := hq.node node List.mem_cons_self
  have hr := retires_retire hq hhptr hx hn
  have hfree : ∀ fuel, hazardPointerFree malloc qsort fuel hptr node h =
      if x.retiredCount + 1 ≥ x.retireThreshold then
        hazardPointerScan malloc qsort fuel hptr (h.retire hptr x node n)
      else some (h.retire hptr x node n) := by
    intro fuel
    rw [hazardPointerFree, hn, Option.bind_some, hx, Option.bind_some]
    rfl
  by_cases hscan : x.retiredCount + 1 ≥ x.retireThreshold
  · have hrecord : (h.retire hptr x node n).record hptr = some { x with
        retiredList := some node, retiredCount := x.retiredCount + 1 } := Function.update_self ..
    obtain ⟨x', hidle, hnext, hhead', hrun⟩ := hazardPointerScan_null malloc qsort hr.quiet hhptr
      hrecord (hr.headOf.trans hhead) hpos
    rw [Function.update_self, List.length_cons] at hrun
    refine ⟨_, _, _, fun fuel hfuel => ?_, hr.collect hhptr hrecord hidle hnext hhead'⟩
    rw [hfree, if_pos hscan]
    exact hrun fuel (by omega)
  · refine ⟨_, _, _, fun fuel _ => ?_, hr⟩
    rw [hfree, if_neg hscan]

/-! ## All records are destroyed -/

omit [LinearOrder ν] in
/-- A record is changed in what does not matter here. -/
theorem Quiet.setRecord (hq : Quiet h slotCount threshold chain nodes retired)
    (hx : h.record hptr = some x) {x' : Record ρ ν} (hnext : x'.next = x.next)
    (hidle : x'.Idle slotCount threshold (retired hptr)) :
    Quiet (h.setRecord hptr x') slotCount threshold chain nodes retired := by
  refine ⟨fun r hr => ?_, hq.linked.congr fun r _ => nextRecord_setRecord hx hnext r, hq.node,
    hq.retiredLinked, hq.distinct⟩
  show ∃ x, Function.update h.record hptr (some x') r = some x ∧ _
  by_cases hrh : r = hptr
  · subst hrh
    exact ⟨x', Function.update_self .., hidle⟩
  · rw [Function.update_of_ne hrh]
    exact hq.record r hr

omit [LinearOrder ν] in
/-- **The first record is freed**, when its retired list is empty. -/
theorem Quiet.free {r : ρ} {rest : List ρ} {freed : List ρ} {cur : Option ρ}
    (hq : Quiet h slotCount threshold (r :: rest) nodes (Function.update retired r [])) :
    Quiet { h with record := Function.update h.record r none, freed := freed, cur := cur }
      slotCount threshold rest nodes retired := by
  obtain ⟨hr, -⟩ := List.nodup_cons.mp hq.linked.nodup
  have hne : ∀ u ∈ rest, u ≠ r := fun u hu => ne_of_mem_of_not_mem hu hr
  have hlists : ∀ u ∈ rest, Function.update retired r [] u = retired u := fun u hu =>
    Function.update_of_ne (hne u hu) ..
  have hnodes : (r :: rest).flatMap (Function.update retired r []) = rest.flatMap retired := by
    rw [List.flatMap_cons, Function.update_self, List.nil_append]
    exact List.flatMap_congr hlists
  have hnode := hq.node
  have hdistinct := hq.distinct
  rw [hnodes] at hnode hdistinct
  refine ⟨fun u hu => ?_, ?_, hnode, fun u hu => ?_, hdistinct⟩
  · show ∃ x, Function.update h.record r none u = some x ∧ _
    rw [Function.update_of_ne (hne u hu), ← hlists u hu]
    exact hq.record u (List.mem_cons_of_mem _ hu)
  · refine (linked_cons.mp hq.linked).2.congr fun u hu => ?_
    show (Function.update h.record r none u).bind _ = _
    rw [Function.update_of_ne (hne u hu)]
    rfl
  · rw [← hlists u hu]
    exact hq.retiredLinked u (List.mem_cons_of_mem _ hu)

/-- **`hazard_pointer_thread_record_destroy`** of the first record. -/
theorem hazardPointerThreadRecordDestroy_spec {r : ρ} {rest : List ρ}
    (hq : Quiet h slotCount threshold (r :: rest) nodes retired) (hhead : h.headOf r = some r)
    (hpos : 0 < threshold / 2) :
    ∃ h', (∀ fuel, rest.length + 1 + (retired r).length < fuel →
        hazardPointerThreadRecordDestroy malloc qsort fuel (some r) h = some h') ∧
      (∀ cur, Quiet { h' with cur := cur } slotCount threshold rest nodes retired) ∧
      h'.gced = h.gced ++ retired r ∧ h'.freed = h.freed ++ [r] := by
  have hr : r ∈ r :: rest := List.mem_cons_self
  obtain ⟨x, hx, -⟩ := hq.record r hr
  obtain ⟨x', hidle, hnext, -, hscan⟩ := hazardPointerScan_null malloc qsort hq hr hx hhead
    hpos
  have hafter := hq.collect hr hx hidle hnext
  refine ⟨{ (h.setRecord r x').collect (retired r) with
    record := Function.update ((h.setRecord r x').collect (retired r)).record r none
    freed := h.freed ++ [r] }, fun fuel hfuel => ?_, fun cur => hafter.free, rfl, rfl⟩
  have hrecord : ((h.setRecord r x').collect (retired r)).record r = some x' :=
    Function.update_self ..
  rw [hazardPointerThreadRecordDestroy, hscan fuel hfuel, Option.bind_some, hrecord]
  rfl

/-- **The loop frees the records one by one**, each after a scan that sees only those
behind it. -/
theorem destroyAllLoop_spec (hq : Quiet h slotCount threshold chain [] retired)
    (hcur : h.cur = chain.head?) (hpos : 0 < threshold / 2) :
    ∃ h', (∀ fuel rounds, chain.length + (chain.flatMap retired).length < fuel →
        chain.length < rounds → destroyAllLoop malloc qsort fuel rounds h = some h') ∧
      h'.gced = h.gced ++ chain.flatMap retired ∧ h'.freed = h.freed ++ chain := by
  induction chain generalizing h with
  | nil =>
    refine ⟨h, fun fuel rounds _ hrounds => ?_, by simp, by simp⟩
    obtain ⟨rounds, rfl⟩ := Nat.exists_eq_add_one.mpr hrounds
    have hcur : h.cur = none := hcur
    rw [destroyAllLoop, hcur]
  | cons r rest ih =>
    have hcur : h.cur = some r := hcur
    obtain ⟨x, hx, hidle⟩ := hq.record r List.mem_cons_self
    have hnext : x.next = rest.head? := by
      have hnext := (linked_cons.mp hq.linked).1
      rw [Heap.nextRecord, hx] at hnext
      exact hnext
    -- with `cur->head = &cur` the record is the head of its own list
    obtain ⟨y, hy⟩ : ∃ y : Record ρ ν, y = { x with head := .cur } := ⟨_, rfl⟩
    have hquiet : Quiet (h.setRecord r y) slotCount threshold (r :: rest) [] retired := by
      refine hq.setRecord hx (by rw [hy]) ?_
      rw [hy]
      exact ⟨hidle.slots, hidle.threshold, hidle.retiredList⟩
    have hhead : (h.setRecord r y).headOf r = some r := by
      show (Function.update h.record r (some y) r).bind _ = _
      rw [Function.update_self, hy]
      exact hcur
    obtain ⟨h₁, hdestroy, hquiet₁, hgced₁, hfreed₁⟩ := hazardPointerThreadRecordDestroy_spec
      malloc qsort hquiet hhead hpos
    obtain ⟨h', hrun, hgced, hfreed⟩ := ih (hquiet₁ x.next) hnext
    refine ⟨h', fun fuel rounds hfuel hrounds => ?_, ?_, ?_⟩
    · obtain ⟨rounds, rfl⟩ := Nat.exists_eq_add_one.mpr (Nat.zero_lt_of_lt hrounds)
      rw [List.flatMap_cons, List.length_append, List.length_cons] at hfuel
      rw [List.length_cons] at hrounds
      rw [destroyAllLoop, hcur]
      dsimp only
      rw [hx, Option.bind_some, ← hy]
      have hdestroy := hdestroy fuel (by omega)
      rw [Heap.setRecord, hcur] at hdestroy
      rw [hdestroy, Option.bind_some]
      exact hrun fuel rounds (by omega) (by omega)
    · rw [hgced, List.flatMap_cons, ← List.append_assoc]
      exact congrArg (· ++ _) hgced₁
    · rw [hfreed]
      show h₁.freed ++ rest = _
      rw [hfreed₁, List.append_assoc]
      rfl

end Scan

end FibConcurrent.HazardPointer.Destroy
