import FibConcurrent.HazardPointer.Invariant

/-!
# HazardPointer — one access of each operation

One lemma for each function of the source: it keeps the invariant and what the
other threads rely on. `ScanEffect` is what the owner of a node has to know
about the scans of others: they call no `gc_function` of a protected node.
-/

namespace FibConcurrent.HazardPointer

open FibConcurrent.Machine FibConcurrent.Data

variable {ι ν : Type*} [DecidableEq ι] {pointersPerThread : Nat} {m : Memory ι ν}
  {g : Ghost ι ν} {t : ι}

/-! ## Slots -/

section Slots

variable {x : ν} {n : Nat}

/-- What a slot holds after it has been filled or cleared. -/
theorem slot_of_update {h : Option ν} {u : ι} {k : Nat} {y : ν}
    (hs : Function.update m.hazardPointers t (Function.update (m.hazardPointers t) n h) u k =
      some y) : u = t ∧ k = n ∧ h = some y ∨ m.hazardPointers u k = some y := by
  by_cases hu : u = t
  · subst hu
    rw [Function.update_self] at hs
    by_cases hk : k = n
    · subst hk
      rw [Function.update_self] at hs
      exact .inl ⟨rfl, rfl, hs⟩
    · rw [Function.update_of_ne hk] at hs
      exact .inr hs
  · rw [Function.update_of_ne hu] at hs
    exact .inr hs

/-- A slot that has been filled or cleared protects nothing. -/
theorem protects_of_update {h : Option ν} {u : ι} {k : Nat} {y : ν}
    (hp : Protects { m with
      hazardPointers :=
        Function.update m.hazardPointers t (Function.update (m.hazardPointers t) n h)
      checked := Function.update m.checked t (Function.update (m.checked t) n false) } u k y) :
    Protects m u k y := by
  obtain ⟨hc, hs⟩ := hp
  have hc : Function.update m.checked t (Function.update (m.checked t) n false) u k = true := hc
  have hs : Function.update m.hazardPointers t (Function.update (m.hazardPointers t) n h) u k =
    some y := hs
  by_cases hu : u = t
  · subst hu
    rw [Function.update_self] at hc hs
    by_cases hk : k = n
    · subst hk
      rw [Function.update_self] at hc
      cases hc
    · rw [Function.update_of_ne hk] at hc hs
      exact ⟨hc, hs⟩
  · rw [Function.update_of_ne hu] at hc hs
    exact ⟨hc, hs⟩

/-- One slot is filled. -/
theorem hazardPointers_usingSlot :
    (usingSlot t m x n).hazardPointers t n = some x ∧ ∀ u k, (u, k) ≠ (t, n) →
      (usingSlot t m x n).hazardPointers u k = m.hazardPointers u k := by
  refine ⟨by simp [usingSlot], fun u k huk => ?_⟩
  by_cases hu : u = t
  · subst hu
    have hk : k ≠ n := fun hk => huk (by rw [hk])
    simp [usingSlot, hk]
  · simp [usingSlot, hu]

theorem usingSlot_spec (hI : Inv pointersPerThread m g) (ht : t ∈ g.chain)
    (hn : n < pointersPerThread) :
    Inv pointersPerThread (usingSlot t m x n) g ∧ ∀ u, Keeps u m g (usingSlot t m x n) g := by
  refine ⟨{ hI with slots := fun u k y hs => ?_ }, fun u => ⟨rfl, rfl, rfl, List.suffix_refl _,
      fun h => h,
      fun _ _ _ _ hp => protects_of_update hp⟩⟩
  rcases slot_of_update hs with ⟨rfl, rfl, -⟩ | hs
  · exact ⟨ht, hn⟩
  · exact hI.slots u k y hs

theorem doneUsing_spec (hI : Inv pointersPerThread m g) :
    Inv pointersPerThread (doneUsing t m n) g ∧ ∀ u, Keeps u m g (doneUsing t m n) g := by
  refine ⟨{ hI with slots := fun u k y hs => ?_ }, fun u => ⟨rfl, rfl, rfl, List.suffix_refl _,
      fun h => h,
      fun _ _ _ _ hp => protects_of_update hp⟩⟩
  rcases slot_of_update hs with ⟨-, -, hs⟩ | hs
  · cases hs
  · exact hI.slots u k y hs

/-- A client's check adds a protection, but not of a node that is retired. -/
theorem markChecked_spec (hI : Inv pointersPerThread m g) (hs : m.hazardPointers t n = some x)
    (hx : m.freed x = m.gced x) :
    Inv pointersPerThread (markChecked t m n) g ∧ ∀ u, Keeps u m g (markChecked t m n) g := by
  refine ⟨{ hI with }, fun u => ⟨rfl, rfl, rfl, List.suffix_refl _, fun h => h,
    fun y hy v k hp => ?_⟩⟩
  obtain ⟨hc, hsy⟩ := hp
  have hc : Function.update m.checked t (Function.update (m.checked t) n true) v k = true := hc
  have hsy : m.hazardPointers v k = some y := hsy
  refine ⟨?_, hsy⟩
  by_cases hv : v = t
  · subst hv
    rw [Function.update_self] at hc
    by_cases hk : k = n
    · -- then `y` is the node checked, and retired by `u`
      subst hk
      obtain rfl := Option.some.inj (hs.symm.trans hsy)
      rcases hI.passed x with ⟨-, hnone⟩ | ⟨hpassed, -⟩
      · exact absurd hy (hnone u)
      · omega
    · rwa [Function.update_of_ne hk] at hc
  · rwa [Function.update_of_ne hv] at hc

end Slots

/-! ## Creating a record -/

/-- What the creation of `t`'s record leaves alone. -/
theorem keeps_of_create {u : ι} {v : Option ι} {f : ι → Nat} (hu : u ≠ t) :
    Keeps u m g { m with next := Function.update m.next t v, retireThreshold := f } g :=
  ⟨Function.update_of_ne hu .., rfl, rfl, List.suffix_refl _, fun h => h, fun _ _ _ _ hp => hp⟩

omit [DecidableEq ι] in
theorem keeps_of_threshold {f : ι → Nat} (u : ι) :
    Keeps u m g { m with retireThreshold := f } g :=
  ⟨rfl, rfl, rfl, List.suffix_refl _, fun h => h, fun _ _ _ _ hp => hp⟩

/-- The fields of a record that is not linked. -/
theorem Inv.of_create {v : Option ι} {f : ι → Nat} (hI : Inv pointersPerThread m g)
    (ht : t ∉ g.chain) : Inv pointersPerThread
      { m with next := Function.update m.next t v, retireThreshold := f } g :=
  { hI with linked := hI.linked.update_next ht }

omit [DecidableEq ι] in
theorem Inv.of_threshold {f : ι → Nat} (hI : Inv pointersPerThread m g) :
    Inv pointersPerThread { m with retireThreshold := f } g :=
  { hI with }

theorem createStep_spec [LinearOrder ν] {pc : CreatePc ι} (hI : Inv pointersPerThread m g)
    (hp : PcFacts pointersPerThread m g t (.create pc)) :
    ∃ g', g'.held = g.held ∧ Inv pointersPerThread (createStep pointersPerThread t m pc).1 g' ∧
      PcFacts pointersPerThread (createStep pointersPerThread t m pc).1 g' t
        ((createStep pointersPerThread t m pc).2.elim .idle .create) ∧
      (∀ u, u ≠ t → Keeps u m g (createStep pointersPerThread t m pc).1 g') := by
  cases pc with
  | readHead =>
    simp only [createStep]
    split
    · exact ⟨g, rfl, hI.of_create hp, ⟨hp, Function.update_self ..⟩,
        fun u hu => keeps_of_create hu⟩
    · next hhead =>
      refine ⟨g, rfl, hI.of_create hp, ⟨hp, ?_⟩, fun u hu => keeps_of_create hu⟩
      rw [← hhead]
      exact Function.update_self ..
  | count curHead cur threads =>
    cases hnext : m.next cur with
    | none =>
      simp only [createStep, hnext]
      exact ⟨g, rfl, hI.of_threshold, hp, fun u _ => keeps_of_threshold u⟩
    | some cur' =>
      simp only [createStep, hnext]
      exact ⟨g, rfl, hI, hp, fun u _ => keeps_refl u m g⟩
  | swapHead curHead =>
    obtain ⟨ht, hnext⟩ := hp
    by_cases hcas : m.head = curHead
    · -- the new record becomes the head
      simp only [createStep, if_pos hcas]
      refine ⟨⟨t :: g.chain, g.held⟩, rfl, ⟨rfl, ?_, ?_, fun u n x hs => ?_, hI.heldNodup,
        hI.heldDisjoint, hI.passed⟩, ?_, fun u hu => ⟨rfl, rfl, rfl, List.suffix_cons .., ?_,
        fun _ _ _ _ hp => hp⟩⟩
      · refine linked_cons.mpr ⟨?_, hI.linked⟩
        rw [hnext, ← hcas, hI.head]
      · exact List.nodup_cons.mpr ⟨ht, hI.nodup⟩
      · obtain ⟨hu, hn⟩ := hI.slots u n x hs
        exact ⟨List.mem_cons_of_mem _ hu, hn⟩
      · cases curHead <;> exact List.mem_cons_self
      · intro hnot hmem
        rcases List.mem_cons.mp hmem with rfl | hmem
        · exact hu rfl
        · exact hnot hmem
    · simp only [createStep, if_neg hcas]
      exact ⟨g, rfl, hI, ht, fun u _ => keeps_refl u m g⟩
  | addThreshold cur => exact ⟨g, rfl, hI.of_threshold, hp, fun u _ => keeps_of_threshold u⟩
  | readNext cur =>
    refine ⟨g, rfl, hI, ?_, fun u _ => keeps_refl u m g⟩
    simp only [createStep]
    cases m.next cur <;> exact hp

/-! ## Retiring and scanning -/

variable [LinearOrder ν]

theorem retire_spec {x : ν} (hI : Inv pointersPerThread m g) (hx : m.freed x = m.gced x) :
    Inv pointersPerThread (retire t m x)
        { g with held := Function.update g.held t (x :: g.held t) } ∧
      ∀ u, u ≠ t → Keeps u m g (retire t m x)
        { g with held := Function.update g.held t (x :: g.held t) } := by
  have hnone : ∀ u, x ∉ g.held u := by
    rcases hI.passed x with ⟨-, hnone⟩ | ⟨hpassed, -⟩
    · exact hnone
    · omega
  -- a node is held by one thread only, before and after
  have hmem : ∀ u y, y ∈ Function.update g.held t (x :: g.held t) u ↔
      (u = t ∧ y = x) ∨ y ∈ g.held u := by
    intro u y
    by_cases hu : u = t
    · subst hu
      simp
    · simp [hu]
  refine ⟨{ hI with
    heldNodup := fun u => ?_
    heldDisjoint := fun u v y hy hy' => ?_
    passed := fun y => ?_ }, fun u hu => ⟨rfl, Function.update_of_ne hu ..,
      Function.update_of_ne hu ..,
      List.suffix_refl _, fun h => h, fun _ _ _ _ hp => hp⟩⟩
  · show (Function.update g.held t (x :: g.held t) u).Nodup
    by_cases hu : u = t
    · subst hu
      rw [Function.update_self]
      exact List.nodup_cons.mpr ⟨hnone u, hI.heldNodup u⟩
    · rw [Function.update_of_ne hu]
      exact hI.heldNodup u
  · rcases (hmem u y).mp hy with ⟨rfl, rfl⟩ | hyu
    · rcases (hmem v y).mp hy' with ⟨rfl, -⟩ | hyv
      · rfl
      · exact absurd hyv (hnone v)
    · rcases (hmem v y).mp hy' with ⟨rfl, rfl⟩ | hyv
      · exact absurd hyu (hnone u)
      · exact hI.heldDisjoint u v y hyu hyv
  · show Function.update m.freed x (m.freed x + 1) y = m.gced y ∧ _ ∨
      Function.update m.freed x (m.freed x + 1) y = m.gced y + 1 ∧ _
    by_cases hyx : y = x
    · subst hyx
      right
      refine ⟨?_, t, (hmem t y).mpr (.inl ⟨rfl, rfl⟩)⟩
      rw [Function.update_self, hx]
    · have hfreed : Function.update m.freed x (m.freed x + 1) y = m.freed y :=
        Function.update_of_ne hyx ..
      rcases hI.passed y with ⟨heq, hno⟩ | ⟨heq, u, hu⟩
      · left
        refine ⟨hfreed.trans heq, fun u hu => ?_⟩
        rcases (hmem u y).mp hu with ⟨-, rfl⟩ | hu
        · exact hyx rfl
        · exact hno u hu
      · right
        exact ⟨hfreed.trans heq, u, (hmem u y).mpr (.inr hu)⟩

/-- A `gc_function` is called of a retired node. -/
theorem reclaim_spec {x : ν} (hI : Inv pointersPerThread m g) (hxt : x ∈ g.held t) :
    Inv pointersPerThread { m with gced := Function.update m.gced x (m.gced x + 1) }
        { g with held := Function.update g.held t ((g.held t).erase x) } ∧
      ∀ u, u ≠ t → Keeps u m g { m with gced := Function.update m.gced x (m.gced x + 1) }
        { g with held := Function.update g.held t ((g.held t).erase x) } := by
  have hmem : ∀ u y, y ∈ Function.update g.held t ((g.held t).erase x) u ↔
      y ≠ x ∧ y ∈ g.held u := by
    intro u y
    by_cases hu : u = t
    · subst hu
      rw [Function.update_self]
      exact (hI.heldNodup u).mem_erase_iff
    · rw [Function.update_of_ne hu]
      refine ⟨fun hy => ⟨?_, hy⟩, fun hy => hy.2⟩
      rintro rfl
      exact hu (hI.heldDisjoint u t y hy hxt)
  refine ⟨{ hI with
    heldNodup := fun u => ?_
    heldDisjoint := fun u v y hy hy' => ?_
    passed := fun y => ?_ }, fun u hu => ⟨rfl, rfl, Function.update_of_ne hu .., List.suffix_refl _,
      fun h => h, fun _ _ _ _ hp => hp⟩⟩
  · show (Function.update g.held t ((g.held t).erase x) u).Nodup
    by_cases hu : u = t
    · subst hu
      rw [Function.update_self]
      exact (hI.heldNodup u).erase x
    · rw [Function.update_of_ne hu]
      exact hI.heldNodup u
  · exact hI.heldDisjoint u v y ((hmem u y).mp hy).2 ((hmem v y).mp hy').2
  · show m.freed y = Function.update m.gced x (m.gced x + 1) y ∧ _ ∨
      m.freed y = Function.update m.gced x (m.gced x + 1) y + 1 ∧ _
    by_cases hyx : y = x
    · subst hyx
      left
      rw [Function.update_self]
      refine ⟨?_, fun u hu => ((hmem u y).mp hu).1 rfl⟩
      rcases hI.passed y with ⟨-, hno⟩ | ⟨hpassed, -⟩
      · exact absurd hxt (hno t)
      · exact hpassed
    · rw [Function.update_of_ne hyx]
      rcases hI.passed y with ⟨heq, hno⟩ | ⟨heq, u, hu⟩
      · exact .inl ⟨heq, fun u hu => hno u ((hmem u y).mp hu).2⟩
      · exact .inr ⟨heq, u, (hmem u y).mpr ⟨hyx, hu⟩⟩

/-- What a scan does to the nodes: `gc_function` is called of unprotected nodes
that were retired. -/
structure ScanEffect (m m' : Memory ι ν) : Prop where
  hazardPointers : m'.hazardPointers = m.hazardPointers
  checked : m'.checked = m.checked
  freed : m'.freed = m.freed
  gced : ∀ x, m'.gced x = m.gced x ∨ m'.gced x = m.gced x + 1 ∧
    m.freed x = m.gced x + 1 ∧ ∀ u n, ¬ Protects m u n x

omit [DecidableEq ι] [LinearOrder ν] in
theorem scanEffect_refl (m : Memory ι ν) : ScanEffect m m := ⟨rfl, rfl, rfl, fun _ => .inl rfl⟩

omit [DecidableEq ι] in
/-- The head of the loop over the slots of a record. -/
theorem slotsFrom_spec {cur : ι} {i : Nat} {plist : List ν} (h : Visiting m g t cur i plist) :
    ScanFacts pointersPerThread m g t (slotsFrom pointersPerThread cur i plist) := by
  unfold slotsFrom
  by_cases hi : i < pointersPerThread
  · rw [if_pos hi]
    exact h
  · rw [if_neg hi]
    obtain ⟨pre, rest, hchain, hsee⟩ := h
    refine ⟨pre, rest, hchain, fun x hx u n hp => ?_⟩
    rcases hsee x hx u n hp with hmem | ⟨rfl, hle⟩ | hrest
    · exact .inl hmem
    · exact .inr (.inl ⟨rfl, by omega⟩)
    · exact .inr (.inr hrest)

omit [DecidableEq ι] [LinearOrder ν] in
/-- When the scan reads `head`, all records with a protecting slot are behind it. -/
theorem visiting_head {head : ι} (hI : Inv pointersPerThread m g) (hhead : m.head = some head) :
    Visiting m g t head 0 [] := by
  have hchain := hI.head
  rw [hhead] at hchain
  obtain ⟨rest, hrest⟩ := List.head?_eq_some_iff.mp hchain.symm
  refine ⟨[], rest, hrest, fun x _ u n hp => ?_⟩
  obtain ⟨hu, -⟩ := hI.slots u n x hp.2
  rw [hrest] at hu
  rcases List.mem_cons.mp hu with rfl | hu
  · exact .inr (.inl ⟨rfl, Nat.zero_le n⟩)
  · exact .inr (.inr hu)

omit [DecidableEq ι] [LinearOrder ν] in
/-- One slot further. -/
theorem Visiting.readSlot {cur : ι} {i : Nat} {plist : List ν}
    (h : Visiting m g t cur i plist) :
    Visiting m g t cur (i + 1) (plist ++ (m.hazardPointers cur i).toList) := by
  obtain ⟨pre, rest, hchain, hsee⟩ := h
  refine ⟨pre, rest, hchain, fun x hx u n hp => ?_⟩
  rcases hsee x hx u n hp with hmem | ⟨rfl, hle⟩ | hrest
  · exact .inl (List.mem_append_left _ hmem)
  · by_cases hn : n = i
    · subst hn
      left
      rw [hp.2]
      simp
    · exact .inr (.inl ⟨rfl, by omega⟩)
  · exact .inr (.inr hrest)

omit [DecidableEq ι] [LinearOrder ν] in
/-- One record further, or the end of the list. -/
theorem Visiting.readNext {cur : ι} {plist : List ν} (hI : Inv pointersPerThread m g)
    (h : Visiting m g t cur pointersPerThread plist) :
    (∀ c, m.next cur = some c → Visiting m g t c 0 plist) ∧
      (m.next cur = none → Covered m (m.retiredList t) plist) := by
  obtain ⟨pre, rest, hchain, hsee⟩ := h
  have hlinked := hI.linked
  rw [hchain] at hlinked
  have hnext := hlinked.next_of_append
  -- the slots of `cur` itself have all been read
  have hrest : ∀ x ∈ m.retiredList t, ∀ u n, Protects m u n x → x ∈ plist ∨ u ∈ rest := by
    intro x hx u n hp
    rcases hsee x hx u n hp with hmem | ⟨rfl, hle⟩ | hrest
    · exact .inl hmem
    · obtain ⟨-, hn⟩ := hI.slots u n x hp.2
      omega
    · exact .inr hrest
  constructor
  · intro c hc
    rw [hc] at hnext
    obtain ⟨rest', rfl⟩ := List.head?_eq_some_iff.mp hnext.symm
    refine ⟨pre ++ [cur], rest', by rw [hchain, List.append_assoc]; rfl, fun x hx u n hp => ?_⟩
    rcases hrest x hx u n hp with hmem | hmem
    · exact .inl hmem
    · rcases List.mem_cons.mp hmem with rfl | hmem
      · exact .inr (.inl ⟨rfl, Nat.zero_le n⟩)
      · exact .inr (.inr hmem)
  · intro hc
    rw [hc] at hnext
    obtain rfl := List.head?_eq_none_iff.mp hnext.symm
    intro x hx u n hp
    rcases hrest x hx u n hp with hmem | hmem
    · exact hmem
    · cases hmem

omit [LinearOrder ν] in
/-- What a change of private fields of `t` leaves alone. -/
theorem keeps_of_private {u : ι} (hu : u ≠ t) {l : List ν} {c : ι → Nat} {p : ι → Nat} :
    Keeps u m g { m with
      retiredList := Function.update m.retiredList t l, retiredCount := c, plistSize := p } g :=
  ⟨rfl, Function.update_of_ne hu .., rfl, List.suffix_refl _, fun h => h, fun _ _ _ _ hp => hp⟩

/-- **One access of a scan.** -/
theorem scanStep_spec {pc : ScanPc ι ν} {m' : Memory ι ν} {r : Option (ScanPc ι ν)}
    (hI : Inv pointersPerThread m g) (hT : ThreadFacts pointersPerThread t m g (.scan pc))
    (he : scanStep pointersPerThread t m pc = some (m', r)) :
    ∃ g', Inv pointersPerThread m' g' ∧
      ThreadFacts pointersPerThread t m' g' (r.elim .idle .scan) ∧
      (∀ u, u ≠ t → Keeps u m g m' g') ∧ ScanEffect m m' := by
  obtain ⟨hheld, ht, hp⟩ := hT
  cases pc with
  | readHead =>
    obtain ⟨head, hhead, he⟩ := Option.map_eq_some_iff.mp he
    obtain ⟨rfl, rfl⟩ := Prod.mk.inj he
    exact ⟨g, hI, ⟨hheld, ht, visiting_head hI hhead⟩, fun u _ => keeps_refl u m g,
      scanEffect_refl m⟩
  | readThreshold head =>
    obtain ⟨rfl, rfl⟩ := Prod.mk.inj (Option.some.inj he)
    refine ⟨g, { hI with }, ⟨?_, ht, slotsFrom_spec hp⟩, fun u _ => ⟨rfl, rfl, rfl,
      List.suffix_refl _, fun h => h,
        fun _ _ _ _ hp => hp⟩, ⟨rfl, rfl, rfl, fun _ => .inl rfl⟩⟩
    show (m.retiredList t ++ (Pc.scan (slotsFrom pointersPerThread head 0 [])).detached).Perm _
    unfold slotsFrom
    split <;> exact hheld
  | readSlot cur i plist =>
    obtain ⟨rfl, rfl⟩ := Prod.mk.inj (Option.some.inj he)
    refine ⟨g, hI, ⟨?_, ht, slotsFrom_spec (Visiting.readSlot hp)⟩, fun u _ => keeps_refl u m g,
      scanEffect_refl m⟩
    unfold slotsFrom
    dsimp only [Option.elim]
    split <;> exact hheld
  | readNext cur plist =>
    obtain ⟨hsome, hnone⟩ := Visiting.readNext hI hp
    simp only [scanStep] at he
    cases hnext : m.next cur with
    | some c =>
      simp only [hnext, Option.some.injEq, Prod.mk.injEq] at he
      obtain ⟨rfl, rfl⟩ := he
      refine ⟨g, hI, ⟨?_, ht, slotsFrom_spec (hsome c hnext)⟩, fun u _ => keeps_refl u m g,
        scanEffect_refl m⟩
      unfold slotsFrom
      dsimp only [Option.elim]
      split <;> exact hheld
    | none =>
      simp only [hnext, Option.some.injEq, Prod.mk.injEq] at he
      obtain ⟨rfl, rfl⟩ := he
      exact ⟨g, hI, ⟨hheld, ht, hnone hnext⟩, fun u _ => keeps_refl u m g, scanEffect_refl m⟩
  | detach plist =>
    obtain ⟨rfl, rfl⟩ := Prod.mk.inj (Option.some.inj he)
    refine ⟨g, { hI with }, ⟨?_, ht, pairwise_qsort plist,
      fun x hx u n hp' => mem_qsort.mpr (hp x hx u n hp')⟩,
      fun u hu => keeps_of_private hu, ⟨rfl, rfl, rfl, fun _ => .inl rfl⟩⟩
    show (Function.update m.retiredList t [] t ++ m.retiredList t).Perm _
    rw [Function.update_self]
    simpa [Pc.detached] using hheld
  | process plist node =>
    obtain ⟨hsorted, hcovered⟩ := hp
    cases node with
    | nil =>
      obtain ⟨rfl, rfl⟩ := Prod.mk.inj (Option.some.inj he)
      exact ⟨g, hI, ⟨hheld, ht⟩, fun u _ => keeps_refl u m g, scanEffect_refl m⟩
    | cons x next =>
      have hcov' : Covered m next plist := fun y hy => hcovered y (List.mem_cons_of_mem _ hy)
      have hperm : (x :: (m.retiredList t ++ next)).Perm (g.held t) :=
        List.perm_middle.symm.trans hheld
      simp only [scanStep] at he
      by_cases hfound : binarySearch plist x = true
      · -- hazardous: back to the retired list
        rw [if_pos hfound] at he
        obtain ⟨rfl, rfl⟩ := Prod.mk.inj (Option.some.inj he)
        refine ⟨g, { hI with }, ⟨?_, ht, hsorted, hcov'⟩, fun u hu => keeps_of_private hu,
          ⟨rfl, rfl, rfl, fun _ => .inl rfl⟩⟩
        show (Function.update m.retiredList t (x :: m.retiredList t) t ++ next).Perm _
        rw [Function.update_self]
        exact hperm
      · rw [if_neg hfound] at he
        obtain ⟨rfl, rfl⟩ := Prod.mk.inj (Option.some.inj he)
        have hxt : x ∈ g.held t := hperm.subset List.mem_cons_self
        have hpassed : m.freed x = m.gced x + 1 := by
          rcases hI.passed x with ⟨-, hno⟩ | ⟨hpassed, -⟩
          · exact absurd hxt (hno t)
          · exact hpassed
        have hfree : ∀ u n, ¬ Protects m u n x := fun u n hpr =>
          hfound ((binarySearch_iff hsorted).mpr (hcovered x List.mem_cons_self u n hpr))
        obtain ⟨hI', hkeep⟩ := reclaim_spec hI hxt
        refine ⟨_, hI', ⟨?_, ht, hsorted, hcov'⟩, hkeep, ⟨rfl, rfl, rfl, fun y => ?_⟩⟩
        · show (m.retiredList t ++ next).Perm (Function.update g.held t ((g.held t).erase x) t)
          rw [Function.update_self]
          exact (List.cons_perm_iff_perm_erase.mp hperm).2
        · by_cases hyx : y = x
          · subst hyx
            exact .inr ⟨Function.update_self .., hpassed, hfree⟩
          · exact .inl (Function.update_of_ne hyx ..)

/-- A scan never fails its assertion: its own record is in the list. -/
theorem scanStep_isSome (hI : Inv pointersPerThread m g) (ht : t ∈ g.chain) (pc : ScanPc ι ν) :
    (scanStep pointersPerThread t m pc).isSome = true := by
  cases pc with
  | readHead =>
    obtain ⟨a, l, hchain⟩ := List.exists_cons_of_ne_nil (List.ne_nil_of_mem ht)
    simp [scanStep, hI.head, hchain]
  | readNext cur plist =>
    simp only [scanStep]
    split <;> rfl
  | process plist node =>
    cases node with
    | nil => rfl
    | cons x next =>
      simp only [scanStep]
      split <;> rfl
  | _ => rfl

omit [LinearOrder ν] in
/-- The creation of a record has nothing to do with nodes. -/
theorem createStep_effect (pc : CreatePc ι) :
    ScanEffect m (createStep pointersPerThread t m pc).1 ∧
      (createStep pointersPerThread t m pc).1.retiredList = m.retiredList := by
  cases pc with
  | readHead =>
    simp only [createStep]
    split <;> exact ⟨⟨rfl, rfl, rfl, fun _ => .inl rfl⟩, rfl⟩
  | count curHead cur threads =>
    simp only [createStep]
    split <;> exact ⟨⟨rfl, rfl, rfl, fun _ => .inl rfl⟩, rfl⟩
  | swapHead curHead =>
    simp only [createStep]
    split <;> exact ⟨⟨rfl, rfl, rfl, fun _ => .inl rfl⟩, rfl⟩
  | addThreshold cur => exact ⟨⟨rfl, rfl, rfl, fun _ => .inl rfl⟩, rfl⟩
  | readNext cur => exact ⟨scanEffect_refl m, rfl⟩

/-- **One step inside an operation**, or into a creation or a scan: everything
but what clients do to their slots and nodes. -/
theorem exec_internal {c : Choice ν} {m' : Memory ι ν} {pc pc' : Pc ι ν}
    (hI : Inv pointersPerThread m g) (hT : ThreadFacts pointersPerThread t m g pc)
    (hpc : pc = .idle → c = .scan) (he : exec pointersPerThread t c m pc = some (m', pc')) :
    ∃ g', Inv pointersPerThread m' g' ∧ ThreadFacts pointersPerThread t m' g' pc' ∧
      (∀ u, u ≠ t → Keeps u m g m' g') ∧ ScanEffect m m' := by
  cases pc with
  | unregistered =>
    cases c <;> simp only [exec, reduceCtorEq, Option.some.injEq, Prod.mk.injEq] at he
    obtain ⟨rfl, rfl⟩ := he
    exact ⟨g, hI, ⟨hT.held, hT.pc⟩, fun u _ => keeps_refl u m g, scanEffect_refl m⟩
  | create pc =>
    obtain ⟨rfl, rfl⟩ := Prod.mk.inj (Option.some.inj he)
    obtain ⟨g', hheld, hI', hp, hk⟩ := createStep_spec hI hT.pc
    obtain ⟨heffect, hretired⟩ := createStep_effect (m := m) (t := t) pc
    refine ⟨g', hI', ⟨?_, hp⟩, hk, heffect⟩
    rw [hretired, hheld]
    cases (createStep pointersPerThread t m pc).2 <;> exact hT.held
  | idle =>
    obtain rfl := hpc rfl
    simp only [exec, Option.some.injEq, Prod.mk.injEq] at he
    obtain ⟨rfl, rfl⟩ := he
    exact ⟨g, hI, ⟨hT.held, hT.pc, trivial⟩, fun u _ => keeps_refl u m g, scanEffect_refl m⟩
  | readThreshold =>
    simp only [exec, Option.some.injEq, Prod.mk.injEq] at he
    obtain ⟨rfl, rfl⟩ := he
    refine ⟨g, hI, ?_, fun u _ => keeps_refl u m g, scanEffect_refl m⟩
    split
    · exact ⟨hT.held, hT.pc, trivial⟩
    · exact ⟨hT.held, hT.pc⟩
  | scan pc =>
    obtain ⟨⟨m₁, r⟩, hstep, heq⟩ := Option.map_eq_some_iff.mp he
    obtain ⟨rfl, rfl⟩ := Prod.mk.inj heq
    exact scanStep_spec hI hT hstep

end FibConcurrent.HazardPointer
