import FibConcurrent.HazardPointer.Threshold
import Mathlib.Algebra.Group.Action.Defs
import Mathlib.Algebra.Order.BigOperators.Group.List
import Mathlib.Algebra.Order.Ring.Nat

/-!
# HazardPointer — how much garbage can wait

All threads that take part have registered before the first node is retired.
What survives a scan is in the scan's `plist`, and a node is in one retired list
only once: at most one node survives for each slot. A scan that starts at the
threshold reclaims all the others, so the retired lists stay bounded however
long the run is and however the slots change meanwhile.
-/

namespace FibConcurrent.HazardPointer

open FibConcurrent.Machine FibConcurrent.Data

variable {ι ν : Type*} [DecidableEq ι] [LinearOrder ν] {pointersPerThread records : Nat}

/-- All `records` threads that take part have registered, in any interleaving,
and no node has been retired. -/
structure Registered (pointersPerThread records : Nat) (s : Config ι (Memory ι ν) (Pc ι ν)) :
    Prop where
  reached : ∃ hist, Run Init (hazardProgram pointersPerThread).Step s hist
  settled : ∀ t pc, s.loc t ≠ .create pc
  fresh : ∀ x, s.mem.freed x = 0
  records : ∃ chain, s.mem.head = chain.head? ∧ Linked s.mem.next chain ∧ chain.length = records

/-- The threads that registered go on, no other one comes. -/
def Participates (_ : ι) (_ : Memory ι ν) (pc : Pc ι ν) (_ : Memory ι ν) : Prop :=
  pc ≠ .unregistered

instance (t : ι) (m : Memory ι ν) (pc : Pc ι ν) (m' : Memory ι ν) [DecidableEq ν] :
    Decidable (Participates t m pc m') :=
  inferInstanceAs (Decidable (pc ≠ .unregistered))

/-! ## The retired list of a thread -/

/-- How long the retired list is: below twice `limit` between calls, and after a
scan has looked its nodes up, as long as `plist` at most. -/
def Waits (limit : Nat) (m : Memory ι ν) (t : ι) : Pc ι ν → Prop
  | .unregistered => m.retiredList t = []
  | .create _ => False
  | .idle => (m.retiredList t).length < 2 * limit
  | .scan (.process plist _) => m.retiredList t ⊆ plist
  | _ => (m.retiredList t).length ≤ 2 * limit

/-- `retired_count` is the length of `retired_list`. -/
def Counted (m : Memory ι ν) (t : ι) : Prop :=
  m.retiredCount t = (m.retiredList t).length

section Steps

variable {m m' : Memory ι ν} {t u : ι} {pc pc' : Pc ι ν} {limit : Nat}

theorem Moves.settled (he : Moves pointersPerThread t m pc m' pc') (hreg : pc ≠ .unregistered)
    (hpc : ∀ p, pc ≠ .create p) : ∀ p, pc' ≠ .create p := by
  cases he with
  | register => exact absurd rfl hreg
  | create p => exact absurd rfl (hpc p)
  | @scan p _ r h => cases r <;> exact fun _ => nofun
  | _ => exact fun _ => nofun

omit [LinearOrder ν] in
theorem createStep_lists (pointersPerThread : Nat) (t : ι) (m : Memory ι ν) (p : CreatePc ι) :
    (createStep pointersPerThread t m p).1.retiredList = m.retiredList ∧
      (createStep pointersPerThread t m p).1.retiredCount = m.retiredCount := by
  cases p with
  | readHead =>
    simp only [createStep]
    split <;> exact ⟨rfl, rfl⟩
  | count curHead cur threads =>
    simp only [createStep]
    split <;> exact ⟨rfl, rfl⟩
  | swapHead curHead =>
    simp only [createStep]
    split <;> exact ⟨rfl, rfl⟩
  | addThreshold cur => exact ⟨rfl, rfl⟩
  | readNext cur => exact ⟨rfl, rfl⟩

/-- Retired lists are private. -/
theorem Moves.private (he : Moves pointersPerThread t m pc m' pc') (hu : u ≠ t) :
    m'.retiredList u = m.retiredList u ∧ m'.retiredCount u = m.retiredCount u := by
  cases he with
  | create p =>
    obtain ⟨hlist, hcount⟩ := createStep_lists pointersPerThread t m p
    exact ⟨congrFun hlist u, congrFun hcount u⟩
  | free node => exact ⟨Function.update_of_ne hu .., Function.update_of_ne hu ..⟩
  | scan h =>
    cases h with
    | detach plist => exact ⟨Function.update_of_ne hu .., Function.update_of_ne hu ..⟩
    | hazardous next hfound => exact ⟨Function.update_of_ne hu .., Function.update_of_ne hu ..⟩
    | _ => exact ⟨rfl, rfl⟩
  | _ => exact ⟨rfl, rfl⟩

omit [LinearOrder ν] in
/-- A node and its count go in together. -/
theorem counted_update {c : ι → Nat} {l : ι → List ν} {n : Nat} {nodes : List ν}
    (hc : c = Function.update m.retiredCount t n) (hl : l = Function.update m.retiredList t nodes)
    (hn : n = nodes.length) : c t = (l t).length := by
  rw [hc, hl, Function.update_self, Function.update_self, hn]

theorem Moves.counted (he : Moves pointersPerThread t m pc m' pc') (h : Counted m t) :
    Counted m' t := by
  cases he with
  | create p =>
    obtain ⟨hlist, hcount⟩ := createStep_lists pointersPerThread t m p
    unfold Counted
    rw [hlist, hcount]
    exact h
  | free node => exact counted_update rfl rfl (congrArg (· + 1) h)
  | scan hmove =>
    cases hmove with
    | detach plist => exact counted_update rfl rfl rfl
    | hazardous next hfound => exact counted_update rfl rfl (congrArg (· + 1) h)
    | _ => exact h
  | _ => exact h

omit [LinearOrder ν] [DecidableEq ι] in
theorem waits_slotsFrom {cur : ι} {i : Nat} {plist : List ν}
    (h : (m.retiredList t).length ≤ 2 * limit) :
    Waits limit m t (.scan (slotsFrom pointersPerThread cur i plist)) := by
  unfold slotsFrom
  split <;> exact h

omit [LinearOrder ν] [DecidableEq ι] in
theorem waits_congr (hlist : m'.retiredList u = m.retiredList u) (h : Waits limit m u pc) :
    Waits limit m' u pc := by
  unfold Waits at *
  rwa [hlist]

/-- A scan leaves what it finds in `plist`. -/
theorem ScanMoves.waits {p : ScanPc ι ν} {r : Option (ScanPc ι ν)}
    (he : ScanMoves pointersPerThread t m p m' r) (hlimit : 0 < limit)
    (hnd : (m.retiredList t).Nodup)
    (hplist : ∀ plist node, p = .process plist node →
      plist.length ≤ limit ∧ plist.Pairwise (· ≤ ·))
    (h : Waits limit m t (.scan p)) : Waits limit m' t (r.elim .idle .scan) := by
  cases he with
  | readHead hhead => exact h
  | readThreshold head size => exact waits_slotsFrom h
  | readSlot cur i plist => exact waits_slotsFrom h
  | readNext plist hnext => exact waits_slotsFrom h
  | lastRecord plist hnext => exact h
  | detach plist =>
    show Function.update m.retiredList t [] t ⊆ qsort plist
    rw [Function.update_self]
    exact List.nil_subset _
  | done plist =>
    obtain ⟨hle, -⟩ := hplist plist [] rfl
    have hlength := (List.subperm_of_subset hnd h).length_le
    show (m.retiredList t).length < 2 * limit
    omega
  | @hazardous plist node next hfound =>
    obtain ⟨-, hsorted⟩ := hplist plist _ rfl
    show Function.update m.retiredList t _ t ⊆ plist
    rw [Function.update_self]
    exact List.cons_subset.mpr ⟨(binarySearch_iff hsorted).mp hfound, h⟩
  | reclaim next hfound => exact h

/-- **A step of a thread keeps its retired list bounded.** -/
theorem Moves.waits (he : Moves pointersPerThread t m pc m' pc') (hlimit : 0 < limit)
    (hreg : pc ≠ .unregistered) (hcount : Counted m t) (ht : m.retireThreshold t = 2 * limit)
    (hnd : (m.retiredList t).Nodup)
    (hplist : ∀ plist node, pc = .scan (.process plist node) →
      plist.length ≤ limit ∧ plist.Pairwise (· ≤ ·))
    (h : Waits limit m t pc) : Waits limit m' t pc' := by
  cases he with
  | register => exact absurd rfl hreg
  | create p => exact h.elim
  | free node =>
    show (Function.update m.retiredList t _ t).length ≤ 2 * limit
    rw [Function.update_self]
    exact h
  | callScan => exact Nat.le_of_lt h
  | room hlt =>
    rw [hcount, ht] at hlt
    exact hlt
  | scan hmove =>
    exact hmove.waits hlimit hnd (fun plist node hp => hplist plist node (by rw [hp])) h
  | _ => exact h

end Steps

/-! ## Runs -/

section Runs

variable {s : Config ι (Memory ι ν) (Pc ι ν)}
  {hist : List (Event ι (Config ι (Memory ι ν) (Pc ι ν)))}

theorem counted_invariant (run : Run Init (hazardProgram pointersPerThread).Step s hist) (t : ι) :
    Counted s.mem t := by
  induction run with
  | start h =>
    rw [h.1]
    rfl
  | @next s s' u hist _ hs ih =>
    obtain ⟨c, he⟩ := hs.exec
    have hmoves := moves_of_exec he
    by_cases hut : u = t
    · subst hut
      exact hmoves.counted ih
    · obtain ⟨hlist, hcount⟩ := hmoves.private (Ne.symm hut)
      unfold Counted
      rw [hlist, hcount]
      exact ih

/-- The participants' run continues the one in which they registered. -/
theorem reached_of_registered
    (run : Run (Registered pointersPerThread records)
      ((hazardProgram pointersPerThread).StepIf Participates) s hist) :
    ∃ hist', Run Init (hazardProgram pointersPerThread).Step s hist' := by
  apply run.invariant
  · intro s h
    exact h.reached
  · rintro t s s' ⟨hist', run'⟩ hs
    exact ⟨_, run'.next hs.2⟩

/-- What holds once all threads have registered. -/
structure Settled (records limit : Nat) (s : Config ι (Memory ι ν) (Pc ι ν)) : Prop where
  settled : ∀ t pc, s.loc t ≠ .create pc
  records : ∃ chain, s.mem.head = chain.head? ∧ Linked s.mem.next chain ∧ chain.length = records
  waits : ∀ t, Waits limit s.mem t (s.loc t)

/-- What the earlier invariants say about a state in which nobody registers. -/
structure Snapshot (pointersPerThread records : Nat) (s : Config ι (Memory ι ν) (Pc ι ν))
    (g : Ghost ι ν) : Prop where
  inv : Inv pointersPerThread s.mem g
  facts : ∀ t, ThreadFacts pointersPerThread t s.mem g (s.loc t)
  gathered : ∀ t p, s.loc t = .scan p → Gathered pointersPerThread g.chain p
  length : g.chain.length = records
  threshold : ∀ t ∈ g.chain, s.mem.retireThreshold t = 2 * (records * pointersPerThread)

theorem Settled.snapshot {limit : Nat} (h : Settled records limit s)
    (run : Run Init (hazardProgram pointersPerThread).Step s hist) :
    ∃ g, Snapshot pointersPerThread records s g := by
  obtain ⟨⟨g, owed⟩, ⟨hI, hT⟩, hL⟩ := threshold_invariant run
  obtain ⟨chain, hhead, hlinked, hlength⟩ := h.records
  have hchain : g.chain.length = records := by
    rw [hI.linked.unique hlinked (hI.head.symm.trans hhead)]
    exact hlength
  refine ⟨g, hI, fun t => (hL t).1, fun t p hp => ?_, hchain, fun t ht => ?_⟩
  · have hrecord := (hL t).2
    rw [hp] at hrecord
    exact hrecord.2
  · rw [hT.settled (fun u => owed_of_settled (hL u).2 (h.settled u)) ht, hchain,
      Nat.mul_assoc, Nat.mul_comm pointersPerThread]

namespace Snapshot

variable {g : Ghost ι ν} {t : ι}

omit [DecidableEq ι] in
theorem nodup (h : Snapshot pointersPerThread records s g) : (waiting s t).Nodup :=
  (h.facts t).held.nodup_iff.mpr (h.inv.heldNodup t)

omit [DecidableEq ι] in
/-- Whoever is past registering has a linked record. -/
theorem linked (h : Snapshot pointersPerThread records s g) (hreg : s.loc t ≠ .unregistered)
    (hpc : ∀ p, s.loc t ≠ .create p) : t ∈ g.chain := by
  have hp := (h.facts t).pc
  cases hloc : s.loc t with
  | unregistered => exact absurd hloc hreg
  | create p => exact absurd hloc (hpc p)
  | scan p =>
    rw [hloc] at hp
    exact hp.1
  | idle =>
    rw [hloc] at hp
    exact hp
  | readThreshold =>
    rw [hloc] at hp
    exact hp

omit [DecidableEq ι] in
theorem plist (h : Snapshot pointersPerThread records s g) {plist node : List ν}
    (hloc : s.loc t = .scan (.process plist node)) :
    plist.length ≤ records * pointersPerThread ∧ plist.Pairwise (· ≤ ·) := by
  have hgathered : plist.length ≤ pointersPerThread * g.chain.length := h.gathered t _ hloc
  have hp := (h.facts t).pc
  rw [hloc] at hp
  rw [h.length, Nat.mul_comm] at hgathered
  exact ⟨hgathered, hp.2.1⟩

end Snapshot

theorem settled_of_registered (h : Registered pointersPerThread records s) {limit : Nat}
    (hlimit : records ≠ 0 → 0 < limit) : Settled records limit s := by
  refine ⟨h.settled, h.records, fun t => ?_⟩
  obtain ⟨hist, run⟩ := h.reached
  obtain ⟨g, hI, hL⟩ := hazard_invariant run
  -- nobody holds anything
  have hheld : g.held t = [] := by
    apply List.eq_nil_iff_forall_not_mem.mpr
    intro x hx
    rcases hI.passed x with ⟨-, hno⟩ | ⟨heq, -⟩
    · exact hno t hx
    · rw [h.fresh x] at heq
      omega
  have hlist : s.mem.retiredList t = [] := by
    have hperm := (hL t).held
    rw [hheld] at hperm
    exact (List.append_eq_nil_iff.mp hperm.eq_nil).1
  have hidle : s.loc t = .idle → 0 < limit := by
    intro hidle
    have ht : t ∈ g.chain := by
      have hp := (hL t).pc
      rw [hidle] at hp
      exact hp
    obtain ⟨chain, hhead, hlinked, hlength⟩ := h.records
    rw [hI.linked.unique hlinked (hI.head.symm.trans hhead)] at ht
    apply hlimit
    rw [← hlength]
    exact List.length_pos_of_mem ht |>.ne'
  cases hloc : s.loc t with
  | unregistered => exact hlist
  | create p => exact absurd hloc (h.settled t p)
  | idle =>
    show (s.mem.retiredList t).length < 2 * limit
    have hlimit := hidle hloc
    rw [hlist, List.length_nil]
    omega
  | readThreshold =>
    show (s.mem.retiredList t).length ≤ 2 * limit
    simp [hlist]
  | scan p =>
    cases p with
    | process plist node =>
      show s.mem.retiredList t ⊆ plist
      simp [hlist]
    | _ =>
      show (s.mem.retiredList t).length ≤ 2 * limit
      simp [hlist]

theorem settled_invariant (hK : 0 < pointersPerThread)
    (run : Run (Registered pointersPerThread records)
      ((hazardProgram pointersPerThread).StepIf Participates) s hist) :
    Settled records (records * pointersPerThread) s := by
  apply run.invariant_hist (J := fun s _ => Settled records (records * pointersPerThread) s)
  · intro s h
    exact settled_of_registered h fun hrecords => Nat.mul_pos (Nat.pos_of_ne_zero hrecords) hK
  · rintro t s s' hist run h ⟨hreg, hs⟩
    obtain ⟨hist', run'⟩ := reached_of_registered run
    obtain ⟨g, hsnap⟩ := h.snapshot run'
    obtain ⟨c, he⟩ := hs.exec
    have hmoves := moves_of_exec he
    obtain ⟨hhead, hnext, -⟩ := hmoves.records (h.settled t)
    have ht := hsnap.linked hreg (h.settled t)
    have hlimit : 0 < records * pointersPerThread := by
      rw [← hsnap.length]
      exact Nat.mul_pos (List.length_pos_of_mem ht) hK
    constructor
    · intro u
      by_cases hut : u = t
      · subst hut
        exact hmoves.settled hreg (h.settled u)
      · rw [hs.loc_of_ne hut]
        exact h.settled u
    · rw [hhead, hnext]
      exact h.records
    · intro u
      by_cases hut : u = t
      · subst hut
        exact hmoves.waits hlimit hreg (counted_invariant run' u) (hsnap.threshold u ht)
          hsnap.nodup.of_append_left (fun plist node hloc => hsnap.plist hloc) (h.waits u)
      · rw [hs.loc_of_ne hut]
        exact waits_congr (hmoves.private hut).1 (h.waits u)

/-! ## What a scan reclaims -/

omit [DecidableEq ι] [LinearOrder ν] in
@[simp] theorem detached_slotsFrom {cur : ι} {i : Nat} {plist : List ν} :
    (Pc.scan (slotsFrom pointersPerThread cur i plist)).detached = [] := by
  unfold slotsFrom
  split <;> rfl

/-- A scan keeps the nodes that wait, or takes one out and calls its `gc_function`. -/
theorem ScanMoves.reclaims {m m' : Memory ι ν} {t : ι} {p p' : ScanPc ι ν}
    (he : ScanMoves pointersPerThread t m p m' (some p')) :
    (m'.retiredList t ++ (Pc.scan p').detached).Perm (m.retiredList t ++ (Pc.scan p).detached) ∨
      ∃ x, m'.gced x = m.gced x + 1 ∧
        (x :: (m'.retiredList t ++ (Pc.scan p').detached)).Perm
          (m.retiredList t ++ (Pc.scan p).detached) := by
  cases he with
  | detach plist =>
    left
    show (Function.update m.retiredList t [] t ++ m.retiredList t).Perm (m.retiredList t ++ [])
    rw [Function.update_self, List.append_nil]
    exact List.Perm.refl _
  | @hazardous plist node next hfound =>
    left
    show (Function.update m.retiredList t (node :: m.retiredList t) t ++ next).Perm
      (m.retiredList t ++ node :: next)
    rw [Function.update_self]
    exact List.perm_middle.symm
  | @reclaim plist node next hfound =>
    right
    exact ⟨node, Function.update_self .., List.perm_middle.symm⟩
  | readHead hhead => exact .inl (List.Perm.refl _)
  | lastRecord plist hnext => exact .inl (List.Perm.refl _)
  | readThreshold head size =>
    left
    rw [detached_slotsFrom]
    exact List.Perm.refl _
  | readSlot cur i plist =>
    left
    rw [detached_slotsFrom]
    exact List.Perm.refl _
  | readNext plist hnext =>
    left
    rw [detached_slotsFrom]
    exact List.Perm.refl _

theorem Moves.continues {m m' : Memory ι ν} {t : ι} {pc pc' : Pc ι ν}
    (he : Moves pointersPerThread t m pc m' pc') (hpc : pc.scanning = true)
    (hpc' : pc'.scanning = true) :
    ∃ p p', pc = .scan p ∧ pc' = .scan p' ∧ ScanMoves pointersPerThread t m p m' (some p') := by
  cases he with
  | @scan p _ r hmove =>
    cases r with
    | none => cases hpc'
    | some p' => exact ⟨p, p', rfl, rfl, hmove⟩
  | _ => cases hpc

/-- `hazard_pointer_free` calls a scan when the list has reached the threshold. -/
theorem Moves.triggers {m m' : Memory ι ν} {t : ι} {pc pc' : Pc ι ν}
    (he : Moves pointersPerThread t m pc m' pc') (hpc : pc = .readThreshold)
    (hpc' : pc'.scanning = true) :
    m' = m ∧ pc' = .scan .readHead ∧ m.retireThreshold t ≤ m.retiredCount t := by
  cases he with
  | full h => exact ⟨rfl, rfl, h⟩
  | room h => cases hpc'
  | _ => cases hpc

/-- In its scan `t` has called the `gc_function` of `x`. -/
def Reclaimed (t : ι) (hist : List (Event ι (Config ι (Memory ι ν) (Pc ι ν)))) (x : ν) : Prop :=
  During (scans t) (fun e => e.tid = t ∧ e.post.mem.gced x = e.pre.mem.gced x + 1) hist

/-- What `t` held when its scan began has been reclaimed, or waits. -/
def Handed (limit : Nat) (t : ι) (s : Config ι (Memory ι ν) (Pc ι ν))
    (hist : List (Event ι (Config ι (Memory ι ν) (Pc ι ν)))) : Prop :=
  ∃ reclaimed, (reclaimed ++ waiting s t).Nodup ∧
    2 * limit ≤ (reclaimed ++ waiting s t).length ∧ ∀ x ∈ reclaimed, Reclaimed t hist x

/-- **A triggered scan hands on what it does not find**: it began with a full
list, and nothing is lost. -/
theorem handed_of_triggered (hK : 0 < pointersPerThread)
    (run : Run (Registered pointersPerThread records)
      ((hazardProgram pointersPerThread).StepIf Participates) s hist) {t : ι} (ht : scans t s)
    (hbegan : Began (scans t) (fun s => s.loc t = .readThreshold) s hist) :
    Handed (records * pointersPerThread) t s hist := by
  refine run.invariant_hist (J := fun s hist => scans t s →
    Began (scans t) (fun s => s.loc t = .readThreshold) s hist →
      Handed (records * pointersPerThread) t s hist) ?_ ?_ ht hbegan
  · intro s _ ht hloc
    have hloc : s.loc t = .readThreshold := hloc
    simp [scans, hloc, Pc.scanning] at ht
  · rintro u s s' hist run ih ⟨hreg, hs⟩ ht hbegan
    have hbegan := (began_cons ht).mp hbegan
    have hsettled := settled_invariant hK run
    obtain ⟨hist₀, run₀⟩ := reached_of_registered run
    obtain ⟨g, hsnap⟩ := hsettled.snapshot run₀
    obtain ⟨c, he⟩ := hs.exec
    have hmoves := moves_of_exec he
    by_cases hut : u = t
    · subst hut
      by_cases hbusy : scans u s
      · -- one step further
        obtain ⟨reclaimed, hnd, hlength, hgced⟩ := ih hbusy hbegan
        obtain ⟨p, p', hp, hp', hmove⟩ := hmoves.continues hbusy ht
        have hold : ∀ x ∈ reclaimed, Reclaimed u (⟨u, s, s'⟩ :: hist) x := fun x hx =>
          .later hbusy (hgced x hx)
        unfold waiting at hnd hlength
        rw [hp] at hnd hlength
        unfold Handed waiting
        rw [hp']
        rcases hmove.reclaims with hperm | ⟨x, hx, hperm⟩
        · have hall := hperm.append_left reclaimed
          exact ⟨reclaimed, hall.nodup_iff.mpr hnd, hall.length_eq ▸ hlength, hold⟩
        · have hall := List.perm_middle.symm.trans (hperm.append_left reclaimed)
          refine ⟨x :: reclaimed, hall.nodup_iff.mpr hnd, hall.length_eq ▸ hlength, ?_⟩
          intro y hy
          rcases List.mem_cons.mp hy with rfl | hy
          · exact .here hbusy ⟨rfl, hx⟩
          · exact hold y hy
      · -- the scan begins, with a full list
        have hloc := (began_of_not_busy hbusy).mp hbegan
        obtain ⟨hmem, hloc', hfull⟩ := hmoves.triggers hloc ht
        have hlinked := hsnap.linked hreg (hsettled.settled u)
        have hwaiting : waiting s' u = waiting s u := by
          unfold waiting
          rw [hmem, hloc, hloc']
          rfl
        refine ⟨[], ?_, ?_, fun x hx => absurd hx List.not_mem_nil⟩
        · rw [List.nil_append, hwaiting]
          exact hsnap.nodup
        · rw [hsnap.threshold u hlinked, counted_invariant run₀ u] at hfull
          rw [List.nil_append, hwaiting, waiting, List.length_append]
          omega
    · have hloc : s'.loc t = s.loc t := hs.loc_of_ne (Ne.symm hut)
      have hbusy : scans t s := by
        unfold scans at *
        rwa [← hloc]
      have hwaiting : waiting s' t = waiting s t := by
        unfold waiting
        rw [hloc, (hmoves.private (Ne.symm hut)).1]
      obtain ⟨reclaimed, hnd, hlength, hgced⟩ := ih hbusy hbegan
      rw [← hwaiting] at hnd hlength
      exact ⟨reclaimed, hnd, hlength, fun x hx => .later hbusy (hgced x hx)⟩

/-! ## The promise -/

omit [DecidableEq ι] in
/-- Between operations the retired lists hold all the garbage. -/
theorem Snapshot.garbage {g : Ghost ι ν} {limit : Nat}
    (h : Snapshot pointersPerThread records s g) (hw : ∀ t, Waits limit s.mem t (s.loc t))
    (hquiet : ∀ t, s.loc t = .idle ∨ s.loc t = .unregistered) :
    (g.chain.flatMap s.mem.retiredList).Nodup ∧
      (∀ x, x ∈ g.chain.flatMap s.mem.retiredList ↔ s.mem.freed x ≠ s.mem.gced x) ∧
      (g.chain.flatMap s.mem.retiredList).length ≤ records * (2 * limit - 1) := by
  have hperm : ∀ t, (s.mem.retiredList t).Perm (g.held t) := by
    intro t
    have hheld := (h.facts t).held
    rcases hquiet t with hloc | hloc <;> simpa [hloc, Pc.detached] using hheld
  refine ⟨List.nodup_flatMap.mpr ⟨fun t _ => ?_, ?_⟩, fun x => ?_, ?_⟩
  · exact (hperm t).nodup_iff.mpr (h.inv.heldNodup t)
  · apply h.inv.nodup.imp
    intro t u htu x hxt hxu
    exact htu (h.inv.heldDisjoint t u x ((hperm t).mem_iff.mp hxt) ((hperm u).mem_iff.mp hxu))
  · rw [List.mem_flatMap]
    constructor
    · rintro ⟨t, -, hx⟩
      rcases h.inv.passed x with ⟨-, hno⟩ | ⟨heq, -⟩
      · exact absurd ((hperm t).mem_iff.mp hx) (hno t)
      · omega
    · intro hx
      rcases h.inv.passed x with ⟨heq, -⟩ | ⟨-, t, ht⟩
      · exact absurd heq hx
      · have hmem := (hperm t).mem_iff.mpr ht
        rcases hquiet t with hloc | hloc
        · have hp := (h.facts t).pc
          rw [hloc] at hp
          exact ⟨t, hp, hmem⟩
        · -- a thread without a record has retired nothing
          have hnil := hw t
          rw [hloc] at hnil
          have hnil : s.mem.retiredList t = [] := hnil
          rw [hnil] at hmem
          cases hmem
  · have hlength : (g.chain.map fun t => (s.mem.retiredList t).length).length = g.chain.length :=
      List.length_map ..
    rw [List.length_flatMap, ← h.length, ← smul_eq_mul, ← hlength]
    apply List.sum_le_card_nsmul
    intro n hn
    obtain ⟨t, ht, rfl⟩ := List.mem_map.mp hn
    have hp := (h.facts t).pc
    have hwt := hw t
    rcases hquiet t with hloc | hloc
    · rw [hloc] at hwt
      exact Nat.le_sub_one_of_lt hwt
    · rw [hloc] at hp
      exact absurd ht hp

/-- What `records` threads with `pointersPerThread` slots each can count on. -/
structure GarbagePromise (pointersPerThread records : Nat) (s : Config ι (Memory ι ν) (Pc ι ν))
    (hist : List (Event ι (Config ι (Memory ι ν) (Pc ι ν)))) : Prop where
  /-- After every return the list is counted, and shorter than the threshold. -/
  below : ∀ t, s.loc t = .idle →
    s.mem.retiredCount t = (s.mem.retiredList t).length ∧
      s.mem.retiredCount t < s.mem.retireThreshold t ∧
      s.mem.retireThreshold t = 2 * records * pointersPerThread
  /-- A scan that `hazard_pointer_free` has called, when it has looked up all
  nodes: it has handed so many different ones to their `gc_function`. -/
  reclaims : ∀ t plist, s.loc t = .scan (.process plist []) →
    Began (scans t) (fun s => s.loc t = .readThreshold) s hist →
    ∃ reclaimed : List ν, reclaimed.Nodup ∧ records * pointersPerThread ≤ reclaimed.length ∧
      ∀ x ∈ reclaimed, During (scans t)
        (fun e => e.tid = t ∧ e.post.mem.gced x = e.pre.mem.gced x + 1) hist
  /-- Between operations, so many nodes at most are retired and not reclaimed. -/
  bounded : (∀ t, s.loc t = .idle ∨ s.loc t = .unregistered) →
    ∃ garbage : List ν, garbage.Nodup ∧ (∀ x, x ∈ garbage ↔ s.mem.freed x ≠ s.mem.gced x) ∧
      garbage.length ≤ records * (2 * records * pointersPerThread - 1)

/-- **Garbage is bounded**: any number of threads register, and then retire,
scan and change their slots for as long as they like, in any interleaving. -/
theorem hazard_pointer_garbage (hK : 0 < pointersPerThread)
    (run : Run (Registered pointersPerThread records)
      ((hazardProgram pointersPerThread).StepIf Participates) s hist) :
    GarbagePromise pointersPerThread records s hist := by
  have hsettled := settled_invariant hK run
  obtain ⟨hist₀, run₀⟩ := reached_of_registered run
  obtain ⟨g, hsnap⟩ := hsettled.snapshot run₀
  constructor
  case below =>
    intro t hloc
    have hcount := counted_invariant run₀ t
    have hwaits := hsettled.waits t
    rw [hloc] at hwaits
    have hlinked := hsnap.linked (t := t) (by simp [hloc]) (by simp [hloc])
    have hthreshold := hsnap.threshold t hlinked
    refine ⟨hcount, ?_, by rw [hthreshold, Nat.mul_assoc]⟩
    rw [hthreshold, hcount]
    exact hwaits
  case reclaims =>
    intro t plist hloc hbegan
    have hscans : scans t s := by
      unfold scans
      rw [hloc]
      rfl
    obtain ⟨reclaimed, hnd, hlength, hgced⟩ := handed_of_triggered hK run hscans hbegan
    refine ⟨reclaimed, (List.nodup_append.mp hnd).1, ?_, hgced⟩
    -- what is left was found in `plist`, each node once
    have hwaits := hsettled.waits t
    rw [hloc] at hwaits
    have hleft := (List.subperm_of_subset hsnap.nodup.of_append_left hwaits).length_le
    obtain ⟨hplist, -⟩ := hsnap.plist hloc
    have hwaiting : waiting s t = s.mem.retiredList t := by
      unfold waiting
      rw [hloc]
      exact List.append_nil _
    rw [List.length_append, hwaiting] at hlength
    omega
  case bounded =>
    intro hquiet
    obtain ⟨hnd, hmem, hlength⟩ := hsnap.garbage hsettled.waits hquiet
    rw [Nat.mul_assoc]
    exact ⟨_, hnd, hmem, hlength⟩

end Runs

/-- Two threads with one slot each. Thread 1 keeps node 3 in its slot while
thread 0 retires nodes 0 to 3; the fourth reaches the threshold, and the scan
reclaims the other three. -/
theorem hazard_pointer_garbage_two :
    ∃ (s : Config (Fin 2) (Memory (Fin 2) (Fin 4)) (Pc (Fin 2) (Fin 4))) (hist : _),
      Run (Registered 1 2) ((hazardProgram 1).StepIf Participates) s hist ∧
        s.loc 0 = .scan (.process [3] []) ∧ s.mem.gced 0 = 1 ∧ s.mem.gced 2 = 1 ∧
        GarbagePromise 1 2 s hist := by
  have hstart : Run Init (hazardProgram (ι := Fin 2) (ν := Fin 4) 1).Step
      ⟨initialMemory, fun _ => .unregistered⟩ [] := .start ⟨rfl, fun _ => rfl⟩
  obtain ⟨s₀, hist₀, run₀, ⟨hloc, hfresh, hhead, hnext, hlast⟩, hrest⟩ := hstart.exists_of_schedule
    (q := fun s₀ : Config (Fin 2) (Memory (Fin 2) (Fin 4)) (Pc (Fin 2) (Fin 4)) =>
      ((∀ t, s₀.loc t = .idle) ∧ (∀ x, s₀.mem.freed x = 0) ∧
      s₀.mem.head = some 1 ∧ s₀.mem.next 1 = some 0 ∧ s₀.mem.next 0 = none) ∧
      ((hazardProgram 1).runScheduleIf Participates (List.flatten [[(1, .use 3 0), (0, .free 3),
        (0, .step), (0, .free 2), (0, .step), (0, .free 1), (0, .step), (0, .free 0)],
        List.replicate 12 (0, .step)]) s₀).any (fun s =>
          decide (s.loc 0 = .scan (.process [3] []) ∧ s.mem.gced 0 = 1 ∧ s.mem.gced 2 = 1)) = true)
    (List.flatten [(0, .create) :: List.replicate 2 (0, .step),
      (1, .create) :: List.replicate 5 (1, .step)])
    (by decide +kernel)
  have hregistered : Registered 1 2 s₀ := by
    refine ⟨⟨_, run₀⟩, fun t pc => ?_, hfresh, [1, 0], hhead, ?_, rfl⟩
    · rw [hloc t]
      exact nofun
    · exact linked_cons.mpr ⟨hnext, linked_cons.mpr ⟨hlast, linked_nil⟩⟩
  obtain ⟨s, hist, run, hscan, hzero, htwo⟩ := Run.exists_of_scheduleIf (.start hregistered) _ hrest
  exact ⟨s, hist, run, hscan, hzero, htwo, hazard_pointer_garbage (by decide) run⟩

end FibConcurrent.HazardPointer
