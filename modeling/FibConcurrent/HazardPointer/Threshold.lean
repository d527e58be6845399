import FibConcurrent.HazardPointer.Correct
import FibConcurrent.HazardPointer.Moves

/-!
# HazardPointer — the thresholds while threads register

A new record computes its threshold from the records it has counted before its
CAS, and then adds its share to the thresholds behind it, one after the other,
possibly while those who registered before are still adding theirs. What a
record has not received yet is what the records in front of it still owe it
(`owed`): the threshold and these debts always sum up to `2 * K * N`.

A scan sizes its scratch array by the threshold of the head it starts at, which
covers the records from there on; records that are linked later come in front of
it and are not visited.
-/

namespace FibConcurrent.HazardPointer

open FibConcurrent.Machine FibConcurrent.Data

variable {ι ν : Type*} [DecidableEq ι] {pointersPerThread : Nat}

/-! ## Debts -/

/-- How many of the records still owe `r` their share. -/
def debts (owed : ι → List ι) (chain : List ι) (r : ι) : Nat :=
  chain.countP fun u => decide (r ∈ owed u)

/-- The thresholds of the linked records. -/
structure Thresholds (pointersPerThread : Nat) (m : Memory ι ν) (chain : List ι)
    (owed : ι → List ι) : Prop where
  total : ∀ r ∈ chain, m.retireThreshold r + 2 * pointersPerThread * debts owed chain r =
    2 * pointersPerThread * chain.length
  behind : ∀ pre u rest, chain = pre ++ u :: rest → owed u <:+ rest
  unlinked : ∀ u, u ∉ chain → owed u = []

section Debts

variable {owed : ι → List ι} {chain pre rest : List ι} {r u : ι} {m : Memory ι ν}

theorem debts_append : debts owed (pre ++ rest) r = debts owed pre r + debts owed rest r := by
  simp [debts]

theorem debts_le : debts owed chain r ≤ chain.length := List.countP_le_length

theorem debts_eq_zero (h : ∀ u ∈ chain, r ∉ owed u) : debts owed chain r = 0 := by
  apply List.countP_eq_zero.mpr
  intro u hu
  simpa using h u hu

/-- Only records in front of `r` owe it anything. -/
theorem Thresholds.debts_le_front (hT : Thresholds pointersPerThread m chain owed)
    (hnd : chain.Nodup) (hchain : chain = pre ++ r :: rest) : debts owed chain r ≤ pre.length := by
  have hzero : debts owed (r :: rest) r = 0 := by
    apply debts_eq_zero
    intro u hu hr
    obtain ⟨mid, rest', hmid⟩ := List.append_of_mem hu
    have hsplit : chain = (pre ++ mid) ++ u :: rest' := by
      rw [hchain, hmid, List.append_assoc]
    have hrest := (hT.behind _ u rest' hsplit).subset hr
    -- `r` stands at or in front of `u`, and behind it
    have hnd' : (r :: rest).Nodup := (List.nodup_append.mp (hchain ▸ hnd)).2.1
    rw [hmid] at hnd'
    cases mid with
    | nil =>
      cases hmid
      exact (List.nodup_cons.mp hnd').1 hrest
    | cons a mid =>
      cases hmid
      apply (List.nodup_cons.mp hnd').1
      exact List.mem_append_right _ (List.mem_cons_of_mem _ hrest)
  have hle : debts owed pre r ≤ pre.length := debts_le
  rw [hchain, debts_append, hzero]
  omega

/-- A threshold covers the records from its own on, and at most all. -/
theorem Thresholds.bounds (hT : Thresholds pointersPerThread m chain owed) (hnd : chain.Nodup)
    (hchain : chain = pre ++ r :: rest) :
    2 * pointersPerThread * (rest.length + 1) ≤ m.retireThreshold r ∧
      m.retireThreshold r ≤ 2 * pointersPerThread * chain.length := by
  have htotal := hT.total r (by simp [hchain])
  have hfront := Nat.mul_le_mul_left (2 * pointersPerThread) (hT.debts_le_front hnd hchain)
  have hlength : 2 * pointersPerThread * chain.length =
      2 * pointersPerThread * pre.length + 2 * pointersPerThread * (rest.length + 1) := by
    rw [hchain, List.length_append, List.length_cons, Nat.mul_add]
  omega

/-- The head is owed nothing. -/
theorem Thresholds.head (hT : Thresholds pointersPerThread m chain owed) (hnd : chain.Nodup)
    (hchain : chain = r :: rest) :
    m.retireThreshold r = 2 * pointersPerThread * chain.length := by
  obtain ⟨hle, hge⟩ := hT.bounds hnd (show chain = [] ++ r :: rest from hchain)
  rw [hchain, List.length_cons] at hge ⊢
  omega

/-- When everything is paid, all thresholds are right. -/
theorem Thresholds.settled (hT : Thresholds pointersPerThread m chain owed)
    (hpaid : ∀ u, owed u = []) (hr : r ∈ chain) :
    m.retireThreshold r = 2 * pointersPerThread * chain.length := by
  have hzero : debts owed chain r = 0 := by
    apply debts_eq_zero
    intro u _
    rw [hpaid u]
    exact List.not_mem_nil
  have htotal := hT.total r hr
  rw [hzero] at htotal
  exact htotal

/-- **A new head** owes its share to all the others. -/
theorem Thresholds.register (hT : Thresholds pointersPerThread m chain owed) (hu : u ∉ chain)
    (hthreshold : m.retireThreshold u = 2 * (chain.length + 1) * pointersPerThread) :
    Thresholds pointersPerThread m (u :: chain) (Function.update owed u chain) := by
  have hother : ∀ v ∈ chain, Function.update owed u chain v = owed v := fun v hv =>
    Function.update_of_ne (ne_of_mem_of_not_mem hv hu) ..
  have hdebts : ∀ r, debts (Function.update owed u chain) chain r = debts owed chain r := by
    intro r
    apply List.countP_congr
    intro v hv
    rw [hother v hv]
  constructor
  · intro r hr
    have hcons : debts (Function.update owed u chain) (u :: chain) r =
        debts owed chain r + if r ∈ chain then 1 else 0 := by
      rw [← hdebts r]
      simp [debts, List.countP_cons]
    rw [hcons, List.length_cons]
    rcases List.mem_cons.mp hr with rfl | hr
    · have hzero : debts owed chain r = 0 := by
        apply debts_eq_zero
        intro v hv hrv
        obtain ⟨pre, rest, hchain⟩ := List.append_of_mem hv
        have hrest := (hT.behind pre v rest hchain).subset hrv
        apply hu
        rw [hchain]
        exact List.mem_append_right _ (List.mem_cons_of_mem _ hrest)
      rw [hzero, if_neg hu, hthreshold, Nat.add_zero, Nat.mul_zero, Nat.add_zero,
        Nat.mul_right_comm]
    · have htotal := hT.total r hr
      rw [if_pos hr, Nat.mul_add, Nat.mul_add, Nat.mul_one]
      omega
  · intro pre v rest hchain
    cases pre with
    | nil =>
      cases hchain
      have hself : Function.update owed u chain u = chain := Function.update_self ..
      exact hself.symm ▸ List.suffix_refl chain
    | cons a pre =>
      cases hchain
      have hv : v ∈ pre ++ v :: rest := by simp
      rw [hother v hv]
      exact hT.behind pre v rest rfl
  · intro v hv
    have hne : v ≠ u := by
      rintro rfl
      exact hv List.mem_cons_self
    rw [Function.update_of_ne hne]
    exact hT.unlinked v fun h => hv (List.mem_cons_of_mem _ h)

/-- What is owed goes to records behind the debtor's. -/
theorem Thresholds.owed_suffix {cur : ι} {rest' : List ι}
    (hT : Thresholds pointersPerThread m chain owed) (howed : owed u = cur :: rest') :
    cur :: rest' <:+ chain := by
  have hu : u ∈ chain := by
    by_contra hu
    rw [hT.unlinked u hu] at howed
    cases howed
  obtain ⟨pre, rest, hchain⟩ := List.append_of_mem hu
  have hsuffix := hT.behind pre u rest hchain
  rw [howed] at hsuffix
  apply hsuffix.trans
  rw [hchain]
  exact ⟨pre ++ [u], by simp⟩

/-- **An atomic add** pays one debt. -/
theorem Thresholds.pay {cur : ι} {rest' : List ι}
    (hT : Thresholds pointersPerThread m chain owed) (hnd : chain.Nodup)
    (howed : owed u = cur :: rest') :
    Thresholds pointersPerThread { m with
      retireThreshold := Function.update m.retireThreshold cur
        (m.retireThreshold cur + 2 * pointersPerThread) }
      chain (Function.update owed u rest') := by
  have hu : u ∈ chain := by
    by_contra hu
    rw [hT.unlinked u hu] at howed
    cases howed
  obtain ⟨pre, rest, hchain⟩ := List.append_of_mem hu
  have hcur : cur ∉ rest' :=
    (List.nodup_cons.mp ((hT.owed_suffix howed).sublist.nodup hnd)).1
  -- nobody else's debts change
  have hdebts : ∀ r, debts owed chain r =
      debts (Function.update owed u rest') chain r + if r = cur then 1 else 0 := by
    intro r
    have hu' : u ∉ pre ++ rest := by
      rw [hchain] at hnd
      exact (List.nodup_cons.mp (List.nodup_middle.mp hnd)).1
    have hsame : ∀ l, u ∉ l → debts (Function.update owed u rest') l r = debts owed l r := by
      intro l hl
      apply List.countP_congr
      intro v hv
      rw [Function.update_of_ne (ne_of_mem_of_not_mem hv hl)]
    have hpre := hsame pre fun h => hu' (List.mem_append_left _ h)
    have hrest := hsame rest fun h => hu' (List.mem_append_right _ h)
    have hself : debts owed (u :: rest) r =
        debts (Function.update owed u rest') (u :: rest) r + if r = cur then 1 else 0 := by
      have hcons : ∀ o : ι → List ι, debts o (u :: rest) r =
          debts o rest r + if r ∈ o u then 1 else 0 := by
        intro o
        simp [debts, List.countP_cons]
      rw [hcons, hcons, hrest, howed, Function.update_self]
      by_cases hr : r = cur
      · subst hr
        simp [hcur]
      · simp [hr]
    rw [hchain, debts_append, debts_append, hpre, hself]
    omega
  constructor
  · intro r hr
    have htotal := hT.total r hr
    rw [hdebts r, Nat.mul_add] at htotal
    show Function.update m.retireThreshold cur _ r + _ = _
    by_cases hrc : r = cur
    · subst hrc
      rw [if_pos rfl] at htotal
      rw [Function.update_self]
      omega
    · rw [if_neg hrc] at htotal
      rw [Function.update_of_ne hrc]
      omega
  · intro pre' v rest'' hchain'
    by_cases hv : v = u
    · subst hv
      rw [Function.update_self]
      have hsuffix' := hT.behind pre' v rest'' hchain'
      rw [howed] at hsuffix'
      exact (List.suffix_cons cur rest').trans hsuffix'
    · rw [Function.update_of_ne hv]
      exact hT.behind pre' v rest'' hchain'
  · intro v hv
    have hne : v ≠ u := by
      rintro rfl
      exact hv hu
    rw [Function.update_of_ne hne]
    exact hT.unlinked v hv

end Debts

/-! ## The assertion -/

/-- `plist` has at most one entry for each slot that the scan has read. -/
def Gathered (pointersPerThread : Nat) (chain : List ι) : ScanPc ι ν → Prop
  | .readSlot cur i plist => i < pointersPerThread ∧ ∃ pre rest, chain = pre ++ cur :: rest ∧
      plist.length ≤ pointersPerThread * pre.length + i
  | .readNext cur plist => ∃ pre rest, chain = pre ++ cur :: rest ∧
      plist.length ≤ pointersPerThread * pre.length + pointersPerThread
  | .detach plist => plist.length ≤ pointersPerThread * chain.length
  | .process plist _ => plist.length ≤ pointersPerThread * chain.length
  | _ => True

/-- What a thread has found out about the records, and what it still owes them. -/
def RecordFacts (pointersPerThread : Nat) (m : Memory ι ν) (chain : List ι) (owed : ι → List ι)
    (t : ι) : Pc ι ν → Prop
  | .create (.count curHead cur threads) => ∃ pre mid rest, chain = pre ++ (mid ++ cur :: rest) ∧
      (mid ++ [cur]).head? = curHead ∧ threads = mid.length + 1
  | .create (.swapHead curHead) => ∃ l, l <:+ chain ∧ l.head? = curHead ∧
      m.retireThreshold t = 2 * (l.length + 1) * pointersPerThread
  | .create (.addThreshold cur) => ∃ rest, owed t = cur :: rest
  | .create (.readNext cur) => ∃ pre rest, chain = pre ++ cur :: rest ∧ owed t = rest
  | .scan pc => owed t = [] ∧ Gathered pointersPerThread chain pc
  | _ => owed t = []

omit [DecidableEq ι] in
/-- Only a creation owes anything. -/
theorem owed_of_settled {m : Memory ι ν} {chain : List ι} {owed : ι → List ι} {t : ι}
    {pc : Pc ι ν} (h : RecordFacts pointersPerThread m chain owed t pc)
    (hpc : ∀ p, pc ≠ .create p) : owed t = [] := by
  cases pc with
  | create p => exact absurd rfl (hpc p)
  | scan p => exact h.1
  | _ => exact h

/-- What `u` may rely on. -/
structure KeepsRecord (u : ι) (m : Memory ι ν) (chain : List ι) (owed : ι → List ι)
    (m' : Memory ι ν) (chain' : List ι) (owed' : ι → List ι) : Prop where
  threshold : u ∉ chain → m'.retireThreshold u = m.retireThreshold u
  owed : owed' u = owed u
  chain : chain <:+ chain'

/-- A step of `t` keeps the thresholds right, for some new state of the debts. -/
def KeepsThresholds (pointersPerThread : Nat) (t : ι) (m : Memory ι ν) (chain : List ι)
    (owed : ι → List ι) (m' : Memory ι ν) (chain' : List ι) (pc' : Pc ι ν) : Prop :=
  ∃ owed', Thresholds pointersPerThread m' chain' owed' ∧
    RecordFacts pointersPerThread m' chain' owed' t pc' ∧
    ∀ u, u ≠ t → KeepsRecord u m chain owed m' chain' owed'

section Facts

variable [LinearOrder ν] {owed owed' : ι → List ι} {chain chain' : List ι} {t u : ι}
  {m m' : Memory ι ν} {g g' : Ghost ι ν} {pc pc' : Pc ι ν}

omit [DecidableEq ι] [LinearOrder ν] in
theorem keepsRecord_refl (u : ι) (m : Memory ι ν) (chain : List ι) (owed : ι → List ι) :
    KeepsRecord u m chain owed m chain owed :=
  ⟨fun _ => rfl, rfl, List.suffix_refl _⟩

omit [DecidableEq ι] [LinearOrder ν] in
theorem Gathered.keep {p : ScanPc ι ν} (h : Gathered pointersPerThread chain p)
    (hchain : chain <:+ chain') : Gathered pointersPerThread chain' p := by
  obtain ⟨new, rfl⟩ := hchain
  have hmore : ∀ n, n ≤ pointersPerThread * chain.length →
      n ≤ pointersPerThread * (new ++ chain).length := by
    intro n hn
    rw [List.length_append, Nat.mul_add]
    omega
  cases p with
  | readSlot cur i plist =>
    obtain ⟨hi, pre, rest, hsplit, hle⟩ := h
    refine ⟨hi, new ++ pre, rest, by rw [hsplit, List.append_assoc], ?_⟩
    rw [List.length_append, Nat.mul_add]
    omega
  | readNext cur plist =>
    obtain ⟨pre, rest, hsplit, hle⟩ := h
    refine ⟨new ++ pre, rest, by rw [hsplit, List.append_assoc], ?_⟩
    rw [List.length_append, Nat.mul_add]
    omega
  | detach plist => exact hmore _ h
  | process plist node => exact hmore _ h
  | _ => trivial

omit [DecidableEq ι] in
theorem RecordFacts.keep (h : RecordFacts pointersPerThread m g.chain owed u pc)
    (hT : PcFacts pointersPerThread m g u pc) (hk : KeepsRecord u m g.chain owed m' chain' owed') :
    RecordFacts pointersPerThread m' chain' owed' u pc := by
  have howed := hk.owed
  obtain ⟨new, hnew⟩ := hk.chain
  cases pc with
  | create pc =>
    cases pc with
    | readHead => exact howed.trans h
    | count curHead cur threads =>
      obtain ⟨pre, mid, rest, hchain, hhead, hthreads⟩ := h
      refine ⟨new ++ pre, mid, rest, ?_, hhead, hthreads⟩
      rw [← hnew, hchain, List.append_assoc]
    | swapHead curHead =>
      obtain ⟨l, hl, hhead, hthreshold⟩ := h
      exact ⟨l, hl.trans hk.chain, hhead, (hk.threshold hT.1).trans hthreshold⟩
    | addThreshold cur =>
      obtain ⟨rest, hrest⟩ := h
      exact ⟨rest, howed.trans hrest⟩
    | readNext cur =>
      obtain ⟨pre, rest, hchain, hrest⟩ := h
      refine ⟨new ++ pre, rest, ?_, howed.trans hrest⟩
      rw [← hnew, hchain, List.append_assoc]
  | scan pc => exact ⟨howed.trans h.1, h.2.keep hk.chain⟩
  | _ => exact howed.trans h

/-! ## Steps -/

omit [LinearOrder ν] in
/-- Other thresholds do not matter. -/
theorem Thresholds.congr (hT : Thresholds pointersPerThread m chain owed)
    (hm : ∀ r ∈ chain, m'.retireThreshold r = m.retireThreshold r) :
    Thresholds pointersPerThread m' chain owed :=
  ⟨fun r hr => by rw [hm r hr]; exact hT.total r hr, hT.behind, hT.unlinked⟩

omit [DecidableEq ι] [LinearOrder ν] in
/-- The chain is what `head` and the links say. -/
theorem Inv.chain_eq (hI : Inv pointersPerThread m g) (hI' : Inv pointersPerThread m' g')
    (hhead : m'.head = m.head) (hnext : ∀ r ∈ g.chain, m'.next r = m.next r) :
    g'.chain = g.chain := by
  apply hI'.linked.unique (hI.linked.congr hnext)
  rw [← hI'.head, ← hI.head, hhead]

omit [DecidableEq ι] [LinearOrder ν] in
/-- A thread without a linked record owes nothing, and nobody sees its threshold. -/
theorem keepsRecord_of_unlinked (owed : ι → List ι) (ht : t ∉ chain)
    (hm : ∀ r, r ≠ t → m'.retireThreshold r = m.retireThreshold r) :
    (∀ r ∈ chain, m'.retireThreshold r = m.retireThreshold r) ∧
      ∀ u, u ≠ t → KeepsRecord u m chain owed m' chain owed :=
  ⟨fun r hr => hm r (ne_of_mem_of_not_mem hr ht),
    fun u hu => ⟨fun _ => hm u hu, rfl, List.suffix_refl _⟩⟩

omit [LinearOrder ν] in
/-- A creation reads the head, and counts nothing if there is no record. -/
theorem readHead_records
    (hI : Inv pointersPerThread m g)
    (hI' : Inv pointersPerThread (createStep pointersPerThread t m .readHead).1 g')
    (ht : t ∉ g.chain) (hT : Thresholds pointersPerThread m g.chain owed) :
    KeepsThresholds pointersPerThread t m g.chain owed
      (createStep pointersPerThread t m .readHead).1 g'.chain
      ((createStep pointersPerThread t m .readHead).2.elim .idle .create : Pc ι ν) := by
  have hchain : g'.chain = g.chain := by
    apply hI.chain_eq hI'
    · simp only [createStep]
      split <;> rfl
    · intro r hr
      have hrt := ne_of_mem_of_not_mem hr ht
      simp only [createStep]
      split <;> exact Function.update_of_ne hrt ..
  have hthreshold : ∀ r, r ≠ t →
      (createStep pointersPerThread t m .readHead).1.retireThreshold r = m.retireThreshold r := by
    intro r hr
    simp only [createStep]
    split
    · rfl
    · exact Function.update_of_ne hr ..
  obtain ⟨hsame, hkeep⟩ := keepsRecord_of_unlinked owed ht hthreshold
  rw [hchain]
  refine ⟨owed, hT.congr hsame, ?_, hkeep⟩
  have hhead := hI.head
  cases hh : m.head with
  | none =>
    simp only [createStep, hh]
    exact ⟨[], List.nil_suffix, rfl, Function.update_self ..⟩
  | some cur =>
    simp only [createStep, hh]
    obtain ⟨rest, hrest⟩ := List.head?_eq_some_iff.mp (hhead.symm.trans hh)
    exact ⟨[], [], rest, hrest, rfl, rfl⟩

omit [LinearOrder ν] in
/-- One record more is counted; behind the last one the threshold is known. -/
theorem count_records {curHead : Option ι} {cur : ι} {threads : Nat}
    (hI : Inv pointersPerThread m g)
    (hI' : Inv pointersPerThread (createStep pointersPerThread t m (.count curHead cur threads)).1 g')
    (ht : t ∉ g.chain) (hT : Thresholds pointersPerThread m g.chain owed)
    (hF : RecordFacts pointersPerThread m g.chain owed t
      (.create (.count curHead cur threads) : Pc ι ν)) :
    KeepsThresholds pointersPerThread t m g.chain owed
      (createStep pointersPerThread t m (.count curHead cur threads)).1 g'.chain
      ((createStep pointersPerThread t m (.count curHead cur threads)).2.elim .idle .create :
        Pc ι ν) := by
  obtain ⟨pre, mid, rest, hsplit, hmid, hthreads⟩ := hF
  have hlinked := hI.linked
  rw [hsplit, ← List.append_assoc] at hlinked
  have hnext : m.next cur = rest.head? := hlinked.next_of_append
  have hchain : g'.chain = g.chain := by
    cases hc : m.next cur <;> apply hI.chain_eq hI' <;> simp [createStep, hc]
  rw [hchain]
  cases hc : m.next cur with
  | some cur' =>
    simp only [createStep, hc]
    refine ⟨owed, hT, ?_, fun u _ => keepsRecord_refl u m g.chain owed⟩
    obtain ⟨rest', rfl⟩ := List.head?_eq_some_iff.mp (hnext.symm.trans hc)
    refine ⟨pre, mid ++ [cur], rest', ?_, ?_, ?_⟩
    · rw [hsplit, List.append_assoc]
      rfl
    · rw [List.append_assoc, ← hmid]
      cases mid <;> rfl
    · rw [List.length_append, hthreads]
      rfl
  | none =>
    simp only [createStep, hc]
    have hother : ∀ r, r ≠ t → Function.update m.retireThreshold t
        (2 * (threads + 1) * pointersPerThread) r = m.retireThreshold r := fun r hr =>
      Function.update_of_ne hr ..
    refine ⟨owed, hT.congr fun r hr => hother r (ne_of_mem_of_not_mem hr ht), ?_, fun u hu =>
      ⟨fun _ => hother u hu, rfl, List.suffix_refl _⟩⟩
    obtain rfl := List.head?_eq_none_iff.mp (hnext.symm.trans hc)
    refine ⟨mid ++ [cur], ⟨pre, hsplit.symm⟩, hmid, ?_⟩
    rw [List.length_append, hthreads]
    exact Function.update_self ..

omit [LinearOrder ν] in
/-- **The CAS of a registration**: the new head owes its share to all the
others, or nothing has happened. -/
theorem register_records {curHead : Option ι}
    (hI : Inv pointersPerThread m g)
    (hI' : Inv pointersPerThread (createStep pointersPerThread t m (.swapHead curHead)).1 g')
    (ht : t ∉ g.chain) (hnext : m.next t = curHead)
    (hT : Thresholds pointersPerThread m g.chain owed)
    (hF : RecordFacts pointersPerThread m g.chain owed t (.create (.swapHead curHead) : Pc ι ν)) :
    KeepsThresholds pointersPerThread t m g.chain owed
      (createStep pointersPerThread t m (.swapHead curHead)).1 g'.chain
      ((createStep pointersPerThread t m (.swapHead curHead)).2.elim .idle .create : Pc ι ν) := by
  obtain ⟨l, hl, hhead, hthreshold⟩ := hF
  by_cases hcas : m.head = curHead
  · -- nobody has registered since, so all records were counted
    have hcounted : l = g.chain := by
      apply (hI.linked.of_suffix hl).unique hI.linked
      rw [hhead, ← hcas, hI.head]
    rw [hcounted] at hthreshold
    have hchain : g'.chain = t :: g.chain := by
      apply hI'.linked.unique
      · simp only [createStep, if_pos hcas]
        refine linked_cons.mpr ⟨?_, hI.linked⟩
        rw [hnext, ← hcas, hI.head]
      · rw [← hI'.head]
        simp only [createStep, if_pos hcas]
        rfl
    rw [hchain]
    simp only [createStep, if_pos hcas]
    refine ⟨Function.update owed t g.chain, (hT.register ht hthreshold).congr fun _ _ => rfl, ?_,
      fun u hu => ⟨fun _ => rfl, Function.update_of_ne hu .., List.suffix_cons ..⟩⟩
    cases curHead with
    | none =>
      have hnil := List.head?_eq_none_iff.mp (hI.head.symm.trans hcas)
      show Function.update owed t g.chain t = []
      rw [Function.update_self, hnil]
    | some cur =>
      obtain ⟨rest, hrest⟩ := List.head?_eq_some_iff.mp (hI.head.symm.trans hcas)
      refine ⟨rest, ?_⟩
      rw [Function.update_self, hrest]
  · have hchain : g'.chain = g.chain := by
      apply hI.chain_eq hI' <;> simp [createStep, hcas]
    simp only [createStep, if_neg hcas]
    rw [hchain]
    exact ⟨owed, hT, hT.unlinked t ht, fun u _ => keepsRecord_refl u m g.chain owed⟩

/-- **One access of the creation of a record.** -/
theorem createStep_records {pc : CreatePc ι} (hI : Inv pointersPerThread m g)
    (hI' : Inv pointersPerThread (createStep pointersPerThread t m pc).1 g')
    (hp : PcFacts pointersPerThread m g t (.create pc))
    (hT : Thresholds pointersPerThread m g.chain owed)
    (hF : RecordFacts pointersPerThread m g.chain owed t (.create pc)) :
    KeepsThresholds pointersPerThread t m g.chain owed (createStep pointersPerThread t m pc).1
      g'.chain ((createStep pointersPerThread t m pc).2.elim .idle .create) := by
  cases pc with
  | readHead => exact readHead_records hI hI' hp hT
  | count curHead cur threads => exact count_records hI hI' hp.1 hT hF
  | swapHead curHead => exact register_records hI hI' hp.1 hp.2 hT hF
  | addThreshold cur =>
    obtain ⟨rest, howed⟩ := hF
    have hchain : g'.chain = g.chain := hI.chain_eq hI' rfl fun _ _ => rfl
    rw [hchain]
    refine ⟨Function.update owed t rest, hT.pay hI.nodup howed, ?_, fun u hu => ⟨fun huc => ?_,
      Function.update_of_ne hu .., List.suffix_refl _⟩⟩
    · obtain ⟨pre, hsplit⟩ := hT.owed_suffix howed
      exact ⟨pre, rest, hsplit.symm, Function.update_self ..⟩
    · have hcur : cur ∈ g.chain := (hT.owed_suffix howed).subset List.mem_cons_self
      exact Function.update_of_ne (ne_of_mem_of_not_mem hcur huc).symm ..
  | readNext cur =>
    obtain ⟨pre, rest, hsplit, howed⟩ := hF
    have hchain : g'.chain = g.chain := hI.chain_eq hI' rfl fun _ _ => rfl
    rw [hchain]
    refine ⟨owed, hT, ?_, fun u _ => keepsRecord_refl u m g.chain owed⟩
    have hlinked := hI.linked
    rw [hsplit] at hlinked
    have hnext : m.next cur = rest.head? := hlinked.next_of_append
    simp only [createStep]
    cases hc : m.next cur with
    | none =>
      rw [List.head?_eq_none_iff.mp (hnext.symm.trans hc)] at howed
      exact howed
    | some c =>
      obtain ⟨rest', hrest⟩ := List.head?_eq_some_iff.mp (hnext.symm.trans hc)
      exact ⟨rest', howed.trans hrest⟩

omit [DecidableEq ι] [LinearOrder ν] in
/-- The head of the loop over the slots of a record. -/
theorem gathered_slotsFrom {pre rest : List ι} {cur : ι} {i : Nat} {plist : List ν}
    (hi : i ≤ pointersPerThread) (hchain : chain = pre ++ cur :: rest)
    (hle : plist.length ≤ pointersPerThread * pre.length + i) :
    Gathered pointersPerThread chain (slotsFrom pointersPerThread cur i plist) := by
  unfold slotsFrom
  by_cases hlt : i < pointersPerThread
  · rw [if_pos hlt]
    exact ⟨hlt, pre, rest, hchain, hle⟩
  · rw [if_neg hlt]
    exact ⟨pre, rest, hchain, by omega⟩

/-- **One access of a scan** adds at most one entry, for the slot it reads. -/
theorem ScanMoves.gathered {p : ScanPc ι ν} {r : Option (ScanPc ι ν)}
    (he : ScanMoves pointersPerThread t m p m' r) (hI : Inv pointersPerThread m g)
    (hp : ScanFacts pointersPerThread m g t p) (h : Gathered pointersPerThread g.chain p) :
    ∀ p' ∈ r, Gathered pointersPerThread g.chain p' := by
  intro p' hr
  cases he with
  | readHead => cases hr; trivial
  | readThreshold head size =>
    cases hr
    obtain ⟨pre, rest, hsplit, -⟩ := hp
    exact gathered_slotsFrom (Nat.zero_le _) hsplit (Nat.zero_le _)
  | readSlot cur i plist =>
    cases hr
    obtain ⟨hi, pre, rest, hsplit, hle⟩ := h
    have hone : (m.hazardPointers cur i).toList.length ≤ 1 := by
      cases m.hazardPointers cur i <;> simp
    apply gathered_slotsFrom hi hsplit
    rw [List.length_append]
    omega
  | @readNext cur cur' plist hc =>
    cases hr
    obtain ⟨pre, rest, hsplit, hle⟩ := h
    have hlinked := hI.linked
    rw [hsplit] at hlinked
    obtain ⟨rest', rfl⟩ := List.head?_eq_some_iff.mp (hlinked.next_of_append.symm.trans hc)
    have hsplit' : g.chain = (pre ++ [cur]) ++ cur' :: rest' := by
      rw [hsplit, List.append_assoc]
      rfl
    apply gathered_slotsFrom (Nat.zero_le _) hsplit'
    · rw [List.length_append, Nat.mul_add]
      simpa using hle
  | lastRecord plist hc =>
    cases hr
    obtain ⟨pre, rest, hsplit, hle⟩ := h
    have hlinked := hI.linked
    rw [hsplit] at hlinked
    obtain rfl := List.head?_eq_none_iff.mp (hlinked.next_of_append.symm.trans hc)
    show plist.length ≤ pointersPerThread * g.chain.length
    rw [hsplit, List.length_append, Nat.mul_add]
    simpa using hle
  | detach plist =>
    cases hr
    have hlength : (qsort plist).length = plist.length :=
      (List.perm_insertionSort (· ≤ ·) plist).length_eq
    show (qsort plist).length ≤ pointersPerThread * g.chain.length
    rw [hlength]
    exact h
  | done plist => cases hr
  | hazardous next hfound => cases hr; exact h
  | reclaim next hfound => cases hr; exact h

/-- **Every step of every thread keeps the thresholds right.** -/
theorem Moves.threshold (he : Moves pointersPerThread t m pc m' pc')
    (hI : Inv pointersPerThread m g) (hI' : Inv pointersPerThread m' g')
    (hp : PcFacts pointersPerThread m g t pc)
    (hT : Thresholds pointersPerThread m g.chain owed)
    (hF : RecordFacts pointersPerThread m g.chain owed t pc) :
    KeepsThresholds pointersPerThread t m g.chain owed m' g'.chain pc' := by
  by_cases hpc : ∃ p, pc = .create p
  · obtain ⟨p, rfl⟩ := hpc
    cases he
    exact createStep_records hI hI' hp hT hF
  · obtain ⟨hhead, hnext, hthreshold⟩ := he.records fun p h => hpc ⟨p, h⟩
    have hchain : g'.chain = g.chain := hI.chain_eq hI' hhead fun r _ => congrFun hnext r
    rw [hchain]
    refine ⟨owed, hT.congr fun r _ => congrFun hthreshold r, ?_, fun u _ =>
      ⟨fun _ => congrFun hthreshold u, rfl, List.suffix_refl _⟩⟩
    cases he with
    | create p => exact absurd ⟨p, rfl⟩ hpc
    | callScan => exact ⟨hF, trivial⟩
    | full h => exact ⟨hF, trivial⟩
    | @scan p _ r h =>
      have hgathered := h.gathered hI hp.2 hF.2
      cases r with
      | none => exact hF.1
      | some p => exact ⟨hF.1, hgathered p rfl⟩
    | _ => exact hF

end Facts

def thresholdAssertion [LinearOrder ν] (pointersPerThread : Nat) :
    Assertion ι (Memory ι ν) (Ghost ι ν × (ι → List ι)) (Pc ι ν) where
  shared m g := Inv pointersPerThread m g.1 ∧ Thresholds pointersPerThread m g.1.chain g.2
  thread t m g pc :=
    ThreadFacts pointersPerThread t m g.1 pc ∧ RecordFacts pointersPerThread m g.1.chain g.2 t pc

section Runs

variable [LinearOrder ν]

theorem thresholdAssertion_kept :
    (thresholdAssertion (ι := ι) (ν := ν) pointersPerThread).Kept
      (hazardProgram pointersPerThread) (fun _ _ _ _ => True) := by
  intro t c m pc m' pc' g hS hL _ he
  obtain ⟨hI, hT⟩ := hS
  obtain ⟨hthread, hrecord⟩ := hL
  obtain ⟨⟨g', hI', hthread', hk⟩, -⟩ := exec_spec hI hthread he
  obtain ⟨owed', hT', hrecord', hk'⟩ := (moves_of_exec he).threshold hI hI' hthread.pc
    hT hrecord
  refine ⟨⟨g', owed'⟩, ⟨hI', hT'⟩, ⟨hthread', hrecord'⟩, fun u hu k hL => ?_⟩
  exact ⟨hL.1.keep (hk u hu), hL.2.keep hL.1.pc (hk' u hu)⟩

theorem thresholdAssertion_init {s : Config ι (Memory ι ν) (Pc ι ν)} (h : Init s) :
    (thresholdAssertion pointersPerThread).Holds s := by
  obtain ⟨g, hI, hL⟩ : (hazardAssertion pointersPerThread).Holds s := hazardAssertion_init h
  have hchain : g.chain = [] := by
    apply List.head?_eq_none_iff.mp
    rw [← hI.head, h.1]
    rfl
  refine ⟨⟨g, fun _ => []⟩, ⟨hI, ?_⟩, fun t => ⟨hL t, ?_⟩⟩
  · rw [hchain]
    exact ⟨by simp, by simp, fun _ _ => rfl⟩
  · rw [h.2 t]
    rfl

variable {s : Config ι (Memory ι ν) (Pc ι ν)}
  {hist : List (Event ι (Config ι (Memory ι ν) (Pc ι ν)))}

theorem threshold_invariant (run : Run Init (hazardProgram pointersPerThread).Step s hist) :
    (thresholdAssertion pointersPerThread).Holds s := by
  have hrun : Run Init ((hazardProgram pointersPerThread).StepIf fun _ _ _ _ => True) s hist :=
    run.mono fun t s s' h => Program.stepIf_true.mpr h
  exact thresholdAssertion_kept.run (fun _ h => thresholdAssertion_init h) hrun

/-! ## The scratch array of a scan -/

def Pc.scanning : Pc ι ν → Bool
  | .scan _ => true
  | _ => false

/-- Thread `t` is inside `hazard_pointer_scan`. -/
def scans (t : ι) (s : Config ι (Memory ι ν) (Pc ι ν)) : Prop :=
  (s.loc t).scanning = true

instance (t : ι) : DecidablePred (scans (ν := ν) t) := fun s =>
  inferInstanceAs (Decidable ((s.loc t).scanning = true))

/-- How long `plist` can become: all slots may be in use that are not read yet. -/
def MayFill (pointersPerThread : Nat) (m : Memory ι ν) : ScanPc ι ν → Nat → Prop
  | .readSlot cur i plist, n => ∃ l, Linked m.next (cur :: l) ∧
      n = plist.length + (pointersPerThread - i) + pointersPerThread * l.length
  | .readNext cur plist, n => ∃ l, Linked m.next (cur :: l) ∧
      n = plist.length + pointersPerThread * l.length
  | _, _ => False

section MayFill

variable {m m' : Memory ι ν} {g g' : Ghost ι ν} {t cur : ι} {p p' : ScanPc ι ν} {n : Nat}
  {pc : Pc ι ν}

omit [LinearOrder ν] [DecidableEq ι] in
theorem mayFill_slotsFrom {i : Nat} {plist : List ν}
    (h : MayFill pointersPerThread m (slotsFrom pointersPerThread cur i plist) n) :
    ∃ l, Linked m.next (cur :: l) ∧
      n = plist.length + (pointersPerThread - i) + pointersPerThread * l.length := by
  unfold slotsFrom at h
  by_cases hi : i < pointersPerThread
  · rw [if_pos hi] at h
    exact h
  · rw [if_neg hi] at h
    obtain ⟨l, hl, hn⟩ := h
    exact ⟨l, hl, by omega⟩

omit [DecidableEq ι] in
/-- The links behind a linked record never change. -/
theorem MayFill.back (h : MayFill pointersPerThread m' p n) (hI : Inv pointersPerThread m g)
    (hI' : Inv pointersPerThread m' g') (hchain : g.chain <:+ g'.chain)
    (hp : ScanFacts pointersPerThread m g t p) : MayFill pointersPerThread m p n := by
  have hback : ∀ cur i plist l, Visiting m g t cur i plist → Linked m'.next (cur :: l) →
      Linked m.next (cur :: l) := by
    intro cur i plist l hvisit hl
    obtain ⟨pre, rest, hsplit, -⟩ := hvisit
    have hsuffix : cur :: rest <:+ g.chain := ⟨pre, hsplit.symm⟩
    rw [hl.unique (hI'.linked.of_suffix (hsuffix.trans hchain)) rfl]
    exact hI.linked.of_suffix hsuffix
  cases p with
  | readSlot cur i plist =>
    obtain ⟨l, hl, hn⟩ := h
    exact ⟨l, hback cur i plist l hp hl, hn⟩
  | readNext cur plist =>
    obtain ⟨l, hl, hn⟩ := h
    exact ⟨l, hback cur pointersPerThread plist l hp hl, hn⟩
  | _ => exact h

/-- A slot that is read adds one entry at most, and the first record's threshold
covers all records from there on. -/
theorem ScanMoves.mayFill {owed : ι → List ι} (he : ScanMoves pointersPerThread t m p m' (some p'))
    (hI : Inv pointersPerThread m g) (hT : Thresholds pointersPerThread m g.chain owed)
    (hp : ScanFacts pointersPerThread m g t p) (hG : Gathered pointersPerThread g.chain p)
    (h : MayFill pointersPerThread m' p' n) :
    (∃ k, MayFill pointersPerThread m p k ∧ n ≤ k) ∨
      ∃ head, p = .readThreshold head ∧ n ≤ m.retireThreshold head / 2 := by
  cases he with
  | readThreshold head size =>
    right
    obtain ⟨l, hl, hn⟩ := mayFill_slotsFrom h
    obtain ⟨pre, rest, hsplit, -⟩ := hp
    have hlinked : Linked m.next (head :: rest) := hI.linked.of_suffix ⟨pre, hsplit.symm⟩
    have hrest : head :: l = head :: rest := hl.unique hlinked rfl
    obtain ⟨hle, -⟩ := hT.bounds hI.nodup hsplit
    refine ⟨head, rfl, ?_⟩
    rw [hn, (List.cons.inj hrest).2, List.length_nil]
    rw [Nat.mul_assoc, Nat.mul_add, Nat.mul_one] at hle
    omega
  | readSlot cur i plist =>
    left
    obtain ⟨l, hl, hn⟩ := mayFill_slotsFrom h
    have hone : (m.hazardPointers cur i).toList.length ≤ 1 := by
      cases m.hazardPointers cur i <;> simp
    have hi : i < pointersPerThread := hG.1
    refine ⟨_, ⟨l, hl, rfl⟩, ?_⟩
    rw [hn, List.length_append]
    omega
  | @readNext cur cur' plist hnext =>
    left
    obtain ⟨l, hl, hn⟩ := mayFill_slotsFrom h
    refine ⟨_, ⟨cur' :: l, linked_cons.mpr ⟨hnext, hl⟩, rfl⟩, ?_⟩
    rw [hn, List.length_cons, Nat.mul_add, Nat.mul_one]
    omega
  | _ => exact h.elim

/-- The slots are read inside a scan that is under way. -/
theorem Moves.mayFill {pc' : Pc ι ν} (he : Moves pointersPerThread t m pc m' pc')
    (hpc' : pc' = .scan p') (h : MayFill pointersPerThread m' p' n) :
    ∃ p, pc = .scan p ∧ ScanMoves pointersPerThread t m p m' (some p') := by
  cases he with
  | create p => cases hr : (createStep pointersPerThread t m p).2 <;> simp [hr] at hpc'
  | @scan p _ r hmove =>
    cases r with
    | none => cases hpc'
    | some p₁ =>
      cases hpc'
      exact ⟨p, rfl, hmove⟩
  | callScan => cases hpc'; exact h.elim
  | full => cases hpc'; exact h.elim
  | _ => cases hpc'

end MayFill

/-- While `t` reads the slots, `plist` is shorter than half the threshold that
the scan read at its head. -/
theorem scan_sized (run : Run Init (hazardProgram pointersPerThread).Step s hist) {t cur : ι}
    {i : Nat} {plist : List ν} (hloc : s.loc t = .scan (.readSlot cur i plist)) :
    During (scans t) (fun e => e.tid = t ∧ ∃ head,
      e.pre.loc t = .scan (.readThreshold head) ∧
        plist.length < e.pre.mem.retireThreshold head / 2) hist := by
  apply run.during_of_mark fun s => ∃ p n, s.loc t = .scan p ∧
    MayFill pointersPerThread s.mem p n ∧ plist.length < n
  · rintro s ⟨-, hidle⟩ ⟨p, n, hp, -⟩
    rw [hidle t] at hp
    cases hp
  · rintro u s s' hs ⟨p, n, hp, hfill, -⟩
    by_cases hut : u = t
    · subst hut
      obtain ⟨c, he⟩ := hs.exec
      obtain ⟨p₀, hp₀, -⟩ := (moves_of_exec he).mayFill hp hfill
      unfold scans
      rw [hp₀]
      rfl
    · have hsame : s'.loc t = s.loc t := hs.loc_of_ne (Ne.symm hut)
      unfold scans
      rw [← hsame, hp]
      rfl
  · rintro u s s' ⟨hist₀, run₀⟩ hs hnot ⟨p, n, hp, hfill, hlt⟩
    obtain ⟨⟨g, owed⟩, ⟨hI, hT⟩, hL⟩ := threshold_invariant run₀
    obtain ⟨⟨g', -⟩, ⟨hI', -⟩, -⟩ := threshold_invariant (run₀.next hs)
    obtain ⟨c, he⟩ := hs.exec
    by_cases hut : u = t
    · subst hut
      obtain ⟨p₀, hp₀, hstep⟩ := (moves_of_exec he).mayFill hp hfill
      have hthread := (hL u).1.pc
      have hrecord := (hL u).2
      rw [hp₀] at hthread hrecord
      rcases hstep.mayFill hI hT hthread.2 hrecord.2 hfill with
        ⟨k, hk, hle⟩ | ⟨head, rfl, hle⟩
      · exact absurd ⟨p₀, k, hp₀, hk, lt_of_lt_of_le hlt hle⟩ hnot
      · exact ⟨rfl, head, hp₀, lt_of_lt_of_le hlt hle⟩
    · have hsame : s'.loc t = s.loc t := hs.loc_of_ne (Ne.symm hut)
      rw [hsame] at hp
      have hthread := (hL t).1.pc
      rw [hp] at hthread
      obtain ⟨⟨g₁, hI₁, -, hk⟩, -⟩ := exec_spec hI (hL u).1 he
      have hback := hfill.back hI hI₁ (hk t (Ne.symm hut)).chain hthread.2
      exact absurd ⟨p, n, hp, hback, hlt⟩ hnot
  · obtain ⟨⟨g, owed⟩, ⟨hI, -⟩, hL⟩ := threshold_invariant run
    have hthread := (hL t).1.pc
    have hrecord := (hL t).2
    rw [hloc] at hthread hrecord
    obtain ⟨-, pre, rest, hsplit, -⟩ := hthread
    have hi : i < pointersPerThread := hrecord.2.1
    exact ⟨_, _, hloc, ⟨rest, hI.linked.of_suffix ⟨pre, hsplit.symm⟩, rfl⟩, by omega⟩

/-! ## The promise -/

/-- The thresholds of the linked records `chain`, newest first. -/
structure RecordThresholds (pointersPerThread : Nat)
    (s : Config ι (Memory ι ν) (Pc ι ν)) (chain : List ι) : Prop where
  /-- `chain` is what `head` and the `next` fields link, each record once. -/
  head : s.mem.head = chain.head?
  linked : Linked s.mem.next chain
  nodup : chain.Nodup
  /-- The head's threshold is right, whoever is registering. -/
  atHead : ∀ r, s.mem.head = some r →
    s.mem.retireThreshold r = 2 * pointersPerThread * chain.length
  /-- A record's threshold covers the records from it to the end of the list. -/
  covers : ∀ pre r rest, chain = pre ++ r :: rest →
    2 * pointersPerThread * (r :: rest).length ≤ s.mem.retireThreshold r
  /-- It is never too large. -/
  atMost : ∀ r ∈ chain, s.mem.retireThreshold r ≤ 2 * pointersPerThread * chain.length
  /-- When nobody is registering, all are right. -/
  settled : (∀ t pc, s.loc t ≠ .create pc) →
    ∀ r ∈ chain, s.mem.retireThreshold r = 2 * pointersPerThread * chain.length

structure ThresholdPromise (pointersPerThread : Nat) (s : Config ι (Memory ι ν) (Pc ι ν))
    (hist : List (Event ι (Config ι (Memory ι ν) (Pc ι ν)))) : Prop where
  records : ∃ chain, RecordThresholds pointersPerThread s chain
  /-- Before each slot that a scan reads, `plist` has a free entry among the
  `max_pointers` that it was sized for. -/
  sized : ∀ t cur i plist, s.loc t = .scan (.readSlot cur i plist) →
    During (scans t) (fun e => e.tid = t ∧ ∃ head,
      e.pre.loc t = .scan (.readThreshold head) ∧
        plist.length < e.pre.mem.retireThreshold head / 2) hist

/-- **Registration keeps the thresholds right**, for any number of threads that
register, scan and use their slots, in every interleaving of their accesses. -/
theorem hazard_pointer_thresholds
    (run : Run Init (hazardProgram pointersPerThread).Step s hist) :
    ThresholdPromise pointersPerThread s hist := by
  constructor
  case sized =>
    intro t cur i plist hloc
    exact scan_sized run hloc
  case records =>
    obtain ⟨⟨g, owed⟩, ⟨hI, hT⟩, hL⟩ := threshold_invariant run
    refine ⟨g.chain, hI.head, hI.linked, hI.nodup, ?_, ?_, ?_, ?_⟩
    · intro r hr
      obtain ⟨rest, hrest⟩ := List.head?_eq_some_iff.mp (hI.head.symm.trans hr)
      exact hT.head hI.nodup hrest
    · intro pre r rest hsplit
      exact (hT.bounds hI.nodup hsplit).1
    · intro r hr
      obtain ⟨pre, rest, hsplit⟩ := List.append_of_mem hr
      exact (hT.bounds hI.nodup hsplit).2
    · intro hnone r hr
      exact hT.settled (fun u => owed_of_settled (hL u).2 (hnone u)) hr

end Runs

/-- Three threads with two slots each register at the same time: all three count
an empty list, and two of them find another record at `head` when they swap.
Thread 0 scans while the others have not finished. -/
theorem hazard_pointer_thresholds_three :
    ∃ (s : Config Nat (Memory Nat Nat) (Pc Nat Nat)) (hist : _),
      Run Init (hazardProgram 2).Step s hist ∧ s.mem.head = some 2 ∧
        s.mem.retireThreshold 0 = 8 ∧ ThresholdPromise 2 s hist := by
  have hstart : Run Init (hazardProgram (ι := Nat) (ν := Nat) 2).Step
      ⟨initialMemory, fun _ => .unregistered⟩ [] := .start ⟨rfl, fun _ => rfl⟩
  obtain ⟨s, hist, run, hhead, hthreshold⟩ := hstart.exists_of_schedule
    (q := fun s => s.mem.head = some 2 ∧ s.mem.retireThreshold 0 = 8)
    (List.flatten [[(0, .create), (1, .create), (2, .create), (0, .step), (1, .step), (2, .step),
      (0, .step), (0, .use 7 1), (0, .scan), (0, .step), (0, .step), (0, .step)],
      List.replicate 4 (1, .step), List.replicate 5 (2, .step), [(1, .step)]])
    (by decide +kernel)
  exact ⟨s, hist, run, hhead, hthreshold, hazard_pointer_thresholds run⟩

end FibConcurrent.HazardPointer
