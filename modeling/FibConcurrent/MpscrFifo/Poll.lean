import FibConcurrent.Machine.Alone
import FibConcurrent.MpscrFifo.Correct
import Mathlib.Data.Fintype.EquivFin
import Mathlib.Data.Nat.ModEq

/-!
# MpscrFifo — which fifos a call looks at

`mpscr_fifo_trypop` looks at `counter % num_producers`, `num_producers` times in a
row. `counter` is a `size_t`; where it wraps during the call, and
`num_producers` does not divide `2 ^ w`, the residues do not go on where they were:
some fifo is looked at twice and another one not at all.
-/

namespace FibConcurrent.MpscrFifo

open FibConcurrent.Machine FibConcurrent.Data

variable {n w : Nat} {ν α : Type*}

/-! ## Residues of a counter that wraps -/

section Residues

variable [NeZero n] {c : Nat}

/-- The fifo of attempt `j`, when the counter was `c` before the call. -/
def visited (n : Nat) [NeZero n] (w c j : Nat) : Fin n := Fin.ofNat n ((c + j) % 2 ^ w)

omit [NeZero n] in
/-- `n` consecutive numbers have different residues. -/
theorem eq_of_mod_eq {i j : Nat} (hi : i < n) (hj : j < n) (h : (c + i) % n = (c + j) % n) :
    i = j := by
  have hmod : i % n = j % n := Nat.ModEq.add_left_cancel' c h
  rwa [Nat.mod_eq_of_lt hi, Nat.mod_eq_of_lt hj] at hmod

theorem visited_injective (h : n ∣ 2 ^ w ∨ c + n ≤ 2 ^ w) :
    Function.Injective fun j : Fin n => visited n w c j := by
  intro i j hij
  have hval : (c + i) % 2 ^ w % n = (c + j) % 2 ^ w % n := congrArg Fin.val hij
  apply Fin.ext
  rcases h with hdvd | hle
  · rw [Nat.mod_mod_of_dvd _ hdvd, Nat.mod_mod_of_dvd _ hdvd] at hval
    exact eq_of_mod_eq i.isLt j.isLt hval
  · have hi := i.isLt
    have hj := j.isLt
    rw [Nat.mod_eq_of_lt (a := c + i) (by omega), Nat.mod_eq_of_lt (a := c + j) (by omega)] at hval
    exact eq_of_mod_eq hi hj hval

/-- **A wrap that does not fit is noticed**: either the residue 0 comes twice, or
`n - 1` is left out. -/
theorem not_bijective_of_wrap (hc : c < 2 ^ w) (hdvd : ¬ n ∣ 2 ^ w) (hwrap : 2 ^ w < c + n) :
    ¬ Function.Bijective fun j : Fin n => visited n w c j := by
  intro ⟨hinj, hsurj⟩
  have hn : 0 < n := Nat.pos_of_ne_zero (NeZero.ne n)
  obtain ⟨k, hk⟩ : ∃ k, c + k = 2 ^ w := ⟨2 ^ w - c, by omega⟩
  have hr : 2 ^ w % n ≠ 0 := fun h => hdvd (Nat.dvd_of_mod_eq_zero h)
  have hdiv := Nat.div_add_mod (2 ^ w) n
  have hkval : (c + k) % 2 ^ w % n = 0 := by rw [hk, Nat.mod_self, Nat.zero_mod]
  by_cases hlt : 2 ^ w % n < k
  · -- the last multiple of `n` below `2 ^ w` is among the first `k` numbers
    have hfirst : (c + (k - 2 ^ w % n)) % 2 ^ w % n = 0 := by
      have hlast : c + (k - 2 ^ w % n) = n * (2 ^ w / n) := by omega
      rw [hlast, Nat.mod_eq_of_lt (a := n * (2 ^ w / n)) (b := 2 ^ w) (by omega)]
      exact Nat.mul_mod_right ..
    have heq : (⟨k - 2 ^ w % n, by omega⟩ : Fin n) = ⟨k, by omega⟩ :=
      hinj (Fin.ext (hfirst.trans hkval.symm))
    have := congrArg Fin.val heq
    simp only at this
    omega
  · -- all numbers before the wrap have residues below that of `2 ^ w`
    obtain ⟨j, hj⟩ := hsurj ⟨n - 1, by omega⟩
    have hj : (c + j) % 2 ^ w % n = n - 1 := congrArg Fin.val hj
    have hjn := j.isLt
    have hrn := Nat.mod_lt (2 ^ w) hn
    by_cases hjk : j.val < k
    · rw [Nat.mod_eq_of_lt (a := c + j) (by omega)] at hj
      have hsplit : c + j.val = n * (2 ^ w / n) + (2 ^ w % n + j.val - k) := by omega
      rw [hsplit, Nat.mul_add_mod, Nat.mod_eq_of_lt (by omega)] at hj
      omega
    · have hle : (c + j.val) % 2 ^ w ≤ j.val - k := by
        rw [show c + j.val = j.val - k + 2 ^ w by omega, Nat.add_mod_right]
        exact Nat.mod_le ..
      have hle' := Nat.mod_le ((c + j.val) % 2 ^ w) n
      omega

/-- **Every fifo exactly once**, if `n` divides `2 ^ w` or the counter does not wrap. -/
theorem visited_bijective_iff (hc : c < 2 ^ w) :
    (Function.Bijective fun j : Fin n => visited n w c j) ↔ n ∣ 2 ^ w ∨ c + n ≤ 2 ^ w := by
  constructor
  · intro h
    by_contra hno
    push Not at hno
    exact not_bijective_of_wrap hc hno.1 hno.2 h
  · intro h
    exact Finite.injective_iff_bijective.mp (visited_injective h)

end Residues

/-! ## One call -/

/-- Nothing is linked behind the dummy of fifo `p`. -/
def Empty (m : Memory n ν α) (p : Fin n) : Prop := m.next (m.head p) = none

/-- The fifo that the next step begins to look at. -/
def Pc.examines : Pc n ν α → Option (Fin n)
  | .pop _ index .readHead => some index
  | _ => none

/-- The fifo that the consumer begins to look at in this transition. -/
def examines (e : Event (Party n) (Config (Party n) (Memory n ν α) (Pc n ν α))) :
    Option (Fin n) :=
  if e.tid = .consumer then (e.pre.loc .consumer).examines else none

/-- The fifos that the consumer has looked at, the last one first. -/
def examined (hist : List (Event (Party n) (Config (Party n) (Memory n ν α) (Pc n ν α)))) :
    List (Fin n) := hist.filterMap examines

variable [NeZero n] [DecidableEq ν]

/-- A transition while a call of the consumer is running. -/
def CallStep (w : Nat) (t : Party n) (a b : Config (Party n) (Memory n ν α) (Pc n ν α)) : Prop :=
  a.loc .consumer ≠ .idle ∧ (mpscrProgram w).Step t a b

/-- What the consumer has looked at in the first `i` attempts. -/
def looked (n : Nat) [NeZero n] (w c i : Nat) : List (Fin n) :=
  ((List.range i).map (visited n w c)).reverse

/-- So far every attempt has found nothing, and no fifo has lost what it had when
the call began, in memory `m₀`. -/
structure FoundNothing (w : Nat) (m₀ m : Memory n ν α) (i : Nat) : Prop where
  empty : ∀ j < i, Empty m₀ (visited n w m₀.counter j)
  kept : ∀ p, Empty m p → Empty m₀ p

/-- Where a call is that began in memory `m₀`. -/
def Progress (w : Nat) (m₀ m : Memory n ν α) (seen : List (Fin n)) : Pc n ν α → Prop
  | .nextFifo i => i ≤ n ∧ m.counter = (m₀.counter + i) % 2 ^ w ∧
      seen = looked n w m₀.counter i ∧ FoundNothing w m₀ m i
  | .pop i index .readHead => i < n ∧ m.counter = (m₀.counter + (i + 1)) % 2 ^ w ∧
      index = visited n w m₀.counter i ∧ seen = looked n w m₀.counter i ∧ FoundNothing w m₀ m i
  | .pop i index (.readNext _) => i < n ∧ m.counter = (m₀.counter + (i + 1)) % 2 ^ w ∧
      index = visited n w m₀.counter i ∧ seen = looked n w m₀.counter (i + 1) ∧
      FoundNothing w m₀ m i
  | .popRet none => seen = looked n w m₀.counter n ∧
      ∀ j < n, Empty m₀ (visited n w m₀.counter j)
  | _ => True

section Progress

variable {m₀ m m' : Memory n ν α} {g : Ghost n ν α} {p : Fin n} {seen : List (Fin n)}
  {pc pc' : Pc n ν α} {c : Choice ν α}

/-- A producer's step leaves the counter and what has been popped alone. -/
theorem producer_step (hT : ProducerFacts p m g pc)
    (he : exec w (.producer p) c m pc = some (m', pc')) :
    m'.counter = m.counter ∧ m'.popped = m.popped := by
  cases pc with
  | idle =>
    cases c with
    | store x v d =>
      simp only [exec, Option.ite_none_right_eq_some, Option.some.injEq, Prod.mk.injEq] at he
      obtain ⟨-, rfl, -⟩ := he
      exact ⟨rfl, rfl⟩
    | push x d =>
      simp only [exec, Option.ite_none_right_eq_some, Option.some.injEq, Prod.mk.injEq] at he
      obtain ⟨-, rfl, -⟩ := he
      exact ⟨rfl, rfl⟩
    | pop => simp [exec] at he
    | step => simp [exec] at he
  | push pc =>
    obtain ⟨rfl, -⟩ := Prod.mk.inj (Option.some.inj he)
    cases pc <;> exact ⟨rfl, rfl⟩
  | _ => exact absurd hT id

omit [DecidableEq ν] in
/-- What others do does not take a call back. -/
theorem Progress.keep (h : Progress w m₀ m seen pc) (hcounter : m'.counter = m.counter)
    (hempty : ∀ p, Empty m' p → Empty m p) : Progress w m₀ m' seen pc := by
  have hkeep : ∀ i, FoundNothing w m₀ m i → FoundNothing w m₀ m' i :=
    fun i hf => ⟨hf.empty, fun p hp => hf.kept p (hempty p hp)⟩
  cases pc with
  | nextFifo i =>
    obtain ⟨hi, hc, hseen, hf⟩ := h
    exact ⟨hi, hcounter.trans hc, hseen, hkeep i hf⟩
  | pop i index pc =>
    cases pc with
    | readHead =>
      obtain ⟨hi, hc, hindex, hseen, hf⟩ := h
      exact ⟨hi, hcounter.trans hc, hindex, hseen, hkeep i hf⟩
    | readNext x =>
      obtain ⟨hi, hc, hindex, hseen, hf⟩ := h
      exact ⟨hi, hcounter.trans hc, hindex, hseen, hkeep i hf⟩
    | _ => trivial
  | popRet out => cases out <;> exact h
  | _ => exact h

/-- **One step of the call.** -/
theorem Progress.step (h : Progress w m₀ m seen pc) (hT : ConsumerFacts m g pc)
    (hbusy : pc ≠ .idle) (he : exec w .consumer c m pc = some (m', pc')) :
    Progress w m₀ m' (pc.examines.toList ++ seen) pc' := by
  cases pc with
  | idle => exact absurd rfl hbusy
  | push pc => exact absurd hT id
  | nextFifo i =>
    obtain ⟨hi, hc, hseen, hf⟩ := h
    simp only [exec] at he
    split at he
    case isTrue hlt =>
      obtain ⟨rfl, rfl⟩ := Prod.mk.inj (Option.some.inj he)
      refine ⟨hlt, ?_, ?_, hseen, ⟨hf.empty, hf.kept⟩⟩
      · show (m.counter + 1) % 2 ^ w = _
        rw [hc, Nat.mod_add_mod, Nat.add_assoc]
      · show Fin.ofNat n m.counter = _
        rw [hc]
        rfl
    case isFalse hge =>
      obtain ⟨rfl, rfl⟩ := Prod.mk.inj (Option.some.inj he)
      obtain rfl : i = n := by omega
      exact ⟨hseen, hf.empty⟩
  | pop i index pc =>
    obtain ⟨rfl, rfl⟩ := Prod.mk.inj (Option.some.inj he)
    cases pc with
    | readHead =>
      obtain ⟨hi, hc, hindex, hseen, hf⟩ := h
      refine ⟨hi, hc, hindex, ?_, hf⟩
      simp [Pc.examines, looked, List.range_succ, hseen, hindex]
    | readNext x =>
      obtain ⟨hi, hc, hindex, hseen, hf⟩ := h
      obtain ⟨-, hhead⟩ := hT
      cases hnext : m.next x with
      | none =>
        simp only [popStep, hnext]
        refine ⟨hi, hc, hseen, fun j hj => ?_, hf.kept⟩
        rcases Nat.lt_succ_iff_lt_or_eq.mp hj with hlt | rfl
        · exact hf.empty j hlt
        · rw [← hindex]
          apply hf.kept
          show m.next (m.head index) = none
          rw [hhead, hnext]
      | some y =>
        simp only [popStep, hnext]
        trivial
    | _ => trivial
  | popRet out =>
    cases out with
    | none =>
      obtain ⟨rfl, rfl⟩ := Prod.mk.inj (Option.some.inj he)
      trivial
    | some x =>
      obtain ⟨rfl, rfl⟩ := Prod.mk.inj (Option.some.inj he)
      trivial

end Progress

section Call

variable {s s' : Config (Party n) (Memory n ν α) (Pc n ν α)}
  {hist : List (Event (Party n) (Config (Party n) (Memory n ν α) (Pc n ν α)))}

omit [NeZero n] [DecidableEq ν] in
theorem examined_cons (e : Event (Party n) (Config (Party n) (Memory n ν α) (Pc n ν α))) :
    examined (e :: hist) = (examines e).toList ++ examined hist := by
  unfold examined
  rw [List.filterMap_cons]
  cases examines e <;> rfl

/-- **The whole call**, whatever the producers do meanwhile. -/
theorem progress_of_call (hs : fifoAssertion.Holds s) (hentry : s.loc .consumer = .nextFifo 0)
    (hc : s.mem.counter < 2 ^ w) (run : Run (fun a => a = s) (CallStep w) s' hist) :
    Progress w s.mem s'.mem (examined hist) (s'.loc .consumer) := by
  refine (run.invariant_hist
    (J := fun b h => fifoAssertion.Holds b ∧ Progress w s.mem b.mem (examined h) (b.loc .consumer))
    ?_ ?_).2
  · rintro b rfl
    refine ⟨hs, ?_⟩
    rw [hentry]
    exact ⟨Nat.zero_le n, (Nat.mod_eq_of_lt hc).symm, rfl, ⟨nofun, fun _ h => h⟩⟩
  · intro t a b h _ ⟨hA, hP⟩ ⟨hbusy, hstep⟩
    have hB : fifoAssertion.Holds b := fifoAssertion_kept.step hA (Program.stepIf_true.mpr hstep)
    refine ⟨hB, ?_⟩
    obtain ⟨g, hI, hT⟩ := hA
    obtain ⟨ch, he⟩ := hstep.exec
    rw [examined_cons]
    cases t with
    | producer p =>
      have hp : ThreadFacts (.producer p) a.mem g (a.loc (.producer p)) := hT (.producer p)
      have hne : Party.consumer ≠ .producer p := by simp
      obtain ⟨g', -, -, hk⟩ := exec_spec hI hp he
      have hk : KeepsPop a.mem g b.mem g' := hk .consumer hne
      rw [hstep.loc_of_ne hne]
      refine hP.keep (producer_step hp he).1 fun q hq => ?_
      -- a link that is there stays
      unfold Empty at *
      cases hnext : a.mem.next (a.mem.head q) with
      | none => rfl
      | some x =>
        rw [hk.head, hk.next q x hnext] at hq
        cases hq
    | consumer => exact hP.step (hT .consumer) hbusy he

end Call

/-! ## A call without concurrent pushes -/

section Solo

variable {m : Memory n ν α}

/-- One attempt: the next fifo, or the node. -/
theorem solo_attempt {i : Nat} (hi : i < n) :
    (Empty m (Fin.ofNat n m.counter) →
      (mpscrProgram w).Solo .consumer .step (m, .nextFifo i)
        ({ m with counter := (m.counter + 1) % 2 ^ w }, .nextFifo (i + 1))) ∧
    (¬ Empty m (Fin.ofNat n m.counter) → ∃ m' x,
      (mpscrProgram w).Solo .consumer .step (m, .nextFifo i) (m', .popRet (some x))) := by
  let index := Fin.ofNat n m.counter
  let m₁ : Memory n ν α := { m with counter := (m.counter + 1) % 2 ^ w }
  have hfirst : (mpscrProgram w).exec .consumer (Choice.step : Choice ν α) m (.nextFifo i) =
      some (m₁, .pop i index .readHead) := if_pos hi
  have hhead : (mpscrProgram w).exec .consumer (Choice.step : Choice ν α) m₁
      (.pop i index .readHead) = some (m₁, .pop i index (.readNext (m.head index))) := rfl
  constructor
  · intro hempty
    have hnext : (mpscrProgram w).exec .consumer (Choice.step : Choice ν α) m₁
        (.pop i index (.readNext (m.head index))) = some (m₁, .nextFifo (i + 1)) := by
      have hnull : m₁.next (m.head index) = none := hempty
      simp only [mpscrProgram, exec, popStep, hnull]
    exact .step hfirst (.step hhead (.step hnext (.refl _)))
  · intro hfull
    obtain ⟨x, hx⟩ := Option.ne_none_iff_exists'.mp hfull
    have hnext : (mpscrProgram w).exec .consumer (Choice.step : Choice ν α) m₁
        (.pop i index (.readNext (m.head index))) =
        some (m₁, .pop i index (.writeHead (m.head index) x)) := by
      have hlink : m₁.next (m.head index) = some x := hx
      simp only [mpscrProgram, exec, popStep, hlink]
    exact ⟨_, _, .step hfirst (.step hhead (.step hnext (.step rfl (.step rfl
      (.step rfl (.refl _))))))⟩

/-- **What a call returns** when nobody pushes meanwhile: null if the fifos that
it looks at are empty. -/
theorem solo_trypop {c i : Nat} (hi : i ≤ n) (hc : m.counter = (c + i) % 2 ^ w) :
    ∃ m' out, (mpscrProgram w).Solo .consumer .step (m, .nextFifo i) (m', .popRet out) ∧
      (out = none ↔ ∀ j, i ≤ j → j < n → Empty m (visited n w c j)) := by
  induction hk : n - i generalizing i m with
  | zero =>
    obtain rfl : i = n := by omega
    have hlast : (mpscrProgram w).exec .consumer (Choice.step : Choice ν α) m (.nextFifo i) =
        some (m, .popRet none) := if_neg (Nat.lt_irrefl i)
    exact ⟨m, none, .step hlast (.refl _), fun _ j hj hjn => by omega, fun _ => rfl⟩
  | succ k ih =>
    have hlt : i < n := by omega
    have hindex : Fin.ofNat n m.counter = visited n w c i := by rw [hc]; rfl
    obtain ⟨hnone, hsome⟩ := solo_attempt (w := w) (m := m) hlt
    by_cases hempty : Empty m (Fin.ofNat n m.counter)
    · obtain ⟨m', out, hsolo, hout⟩ := ih (i := i + 1)
        (m := { m with counter := (m.counter + 1) % 2 ^ w }) hlt
        (by rw [hc, Nat.mod_add_mod, Nat.add_assoc]) (by omega)
      refine ⟨m', out, (hnone hempty).trans hsolo, hout.trans ?_⟩
      constructor
      · intro h j hj hjn
        rcases Nat.eq_or_lt_of_le hj with rfl | hlt'
        · exact hindex ▸ hempty
        · exact h j hlt' hjn
      · intro h j hj hjn
        exact h j (by omega) hjn
    · obtain ⟨m', x, hsolo⟩ := hsome hempty
      refine ⟨m', some x, hsolo, by simp, fun h => absurd ?_ hempty⟩
      rw [hindex]
      exact h i (Nat.le_refl i) hlt

end Solo

/-! ## What a call promises -/

/-- A call that finds nothing has looked at every fifo exactly once; alone, it
returns null if and only if all fifos are empty. `s` is the state after its entry. -/
structure PollsEvery (w : Nat) (s : Config (Party n) (Memory n ν α) (Pc n ν α)) : Prop where
  once : ∀ s' hist, Run (fun a => a = s) (CallStep w) s' hist →
    s'.loc .consumer = .popRet none → ∀ p, (examined hist).count p = 1
  returns : ∃ m out, (mpscrProgram w).Solo .consumer .step (s.mem, .nextFifo 0) (m, .popRet out)
  null : ∀ m out, (mpscrProgram w).Solo .consumer .step (s.mem, .nextFifo 0) (m, .popRet out) →
    (out = none ↔ ∀ p, Empty s.mem p)

section Promise

variable {s : Config (Party n) (Memory n ν α) (Pc n ν α)}

omit [DecidableEq ν] in
theorem looked_count_iff (w c : Nat) : (∀ p, (looked n w c n).count p = 1) ↔
    Function.Bijective fun j : Fin n => visited n w c j := by
  have hmem : ∀ p, p ∈ looked n w c n ↔ ∃ j : Fin n, visited n w c j = p := by
    intro p
    simp only [looked, List.mem_reverse, List.mem_map, List.mem_range]
    constructor
    · intro ⟨j, hj, hp⟩
      exact ⟨⟨j, hj⟩, hp⟩
    · intro ⟨j, hp⟩
      exact ⟨j, j.isLt, hp⟩
  constructor
  · intro h
    have hnodup : (looked n w c n).Nodup := List.nodup_iff_count_le_one.mpr fun p => (h p).le
    constructor
    · intro i j hij
      rw [looked, List.nodup_reverse] at hnodup
      exact Fin.ext (List.inj_on_of_nodup_map hnodup (List.mem_range.mpr i.isLt)
        (List.mem_range.mpr j.isLt) hij)
    · intro p
      have hpos : 0 < (looked n w c n).count p := by rw [h p]; exact Nat.one_pos
      exact (hmem p).mp (List.count_pos_iff.mp hpos)
  · intro ⟨hinj, hsurj⟩ p
    refine List.count_eq_one_of_mem ?_ ((hmem p).mpr (hsurj p))
    rw [looked, List.nodup_reverse]
    refine List.Nodup.map_on (fun i hi j hj hij => ?_) List.nodup_range
    have heq : (⟨i, List.mem_range.mp hi⟩ : Fin n) = ⟨j, List.mem_range.mp hj⟩ := hinj hij
    exact congrArg Fin.val heq

/-- A call returns one thing only. -/
theorem solo_popRet_unique {m m₁ m₂ : Memory n ν α} {pc : Pc n ν α} {out₁ out₂ : Option ν}
    (h₁ : (mpscrProgram w).Solo .consumer .step (m, pc) (m₁, .popRet out₁))
    (h₂ : (mpscrProgram w).Solo .consumer .step (m, pc) (m₂, .popRet out₂)) : out₁ = out₂ := by
  have hfinal : ∀ (m : Memory n ν α) (l : Pc n ν α) m' l', (∃ out, l = .popRet out) →
      (mpscrProgram w).exec .consumer .step m l = some (m', l') →
      ¬ (∃ out, l' = .popRet out) ∧ (mpscrProgram w).exec .consumer .step m' l' = none := by
    rintro m l m' l' ⟨out, rfl⟩ he
    cases out <;>
    · obtain ⟨rfl, rfl⟩ := Prod.mk.inj (Option.some.inj he)
      exact ⟨by simp, rfl⟩
  have heq := Program.Solo.unique hfinal h₁ h₂ ⟨_, rfl⟩ ⟨_, rfl⟩
  exact Pc.popRet.inj (congrArg Prod.snd heq)

/-- **What decides whether a call keeps its promise**: it has to reach every fifo,
unless it finds something anyway. -/
theorem pollsEvery_iff_visited (hs : fifoAssertion.Holds s) (hentry : s.loc .consumer = .nextFifo 0)
    (hc : s.mem.counter < 2 ^ w) : PollsEvery w s ↔
      (Function.Bijective fun j : Fin n => visited n w s.mem.counter j) ∨
      ∃ j < n, ¬ Empty s.mem (visited n w s.mem.counter j) := by
  obtain ⟨m, out, hsolo, hout⟩ := solo_trypop (w := w) (Nat.zero_le n) (Nat.mod_eq_of_lt hc).symm
  constructor
  · intro h
    by_contra hno
    push Not at hno
    obtain ⟨hbij, hempty⟩ := hno
    obtain rfl : out = none := hout.mpr fun j _ hj => hempty j hj
    -- the call that runs alone is one of the runs, and it finds nothing
    have hrun : Run (fun a => a = s) (CallStep w) s [] := .start rfl
    rw [← hentry] at hsolo
    have hstep : ∀ (a : Config (Party n) (Memory n ν α) (Pc n ν α)) m l,
        (mpscrProgram w).exec .consumer .step a.mem (a.loc .consumer) = some (m, l) →
        CallStep w .consumer a ⟨m, Function.update a.loc .consumer l⟩ := by
      intro a m l he
      refine ⟨fun hidle => ?_, .step, Program.next_eq_some.mpr ⟨m, l, he, rfl⟩⟩
      rw [hidle] at he
      cases he
    obtain ⟨hist, run⟩ := hrun.solo hstep hsolo
    have hret : Function.update s.loc .consumer (.popRet none) .consumer = .popRet none :=
      Function.update_self ..
    have hprog := progress_of_call hs hentry hc run
    dsimp only at hprog
    rw [hret] at hprog
    have hcount := h.once _ hist run hret
    rw [hprog.1] at hcount
    exact hbij ((looked_count_iff w _).mp hcount)
  · intro h
    constructor
    case once =>
      intro s' hist run hret p
      have hprog := progress_of_call hs hentry hc run
      rw [hret] at hprog
      obtain ⟨hseen, hempty⟩ := hprog
      rcases h with hbij | ⟨j, hj, hfull⟩
      · rw [hseen]
        exact (looked_count_iff w _).mpr hbij p
      · exact absurd (hempty j hj) hfull
    case returns => exact ⟨m, out, hsolo⟩
    case null =>
      intro m' out' hsolo'
      rw [solo_popRet_unique hsolo' hsolo, hout]
      constructor
      · intro hall p
        rcases h with hbij | ⟨j, hj, hfull⟩
        · obtain ⟨j, rfl⟩ := hbij.2 p
          exact hall j (Nat.zero_le j) j.isLt
        · exact absurd (hall j (Nat.zero_le j) hj) hfull
      · intro hall j _ _
        exact hall _

/-- **No producer is missed**, provided that the counter does not wrap in the wrong
place: either `num_producers` divides the range of the counter, or the counter
does not wrap during the call, or the call finds a node anyway. -/
theorem trypop_polls_every_fifo_iff (hs : fifoAssertion.Holds s)
    (hentry : s.loc .consumer = .nextFifo 0) (hc : s.mem.counter < 2 ^ w) :
    PollsEvery w s ↔ n ∣ 2 ^ w ∨ s.mem.counter + n ≤ 2 ^ w ∨
      ∃ j < n, ¬ Empty s.mem (visited n w s.mem.counter j) := by
  rw [pollsEvery_iff_visited hs hentry hc, visited_bijective_iff hc, or_assoc]

end Promise

/-- After `mpscr_fifo_create` and `c` polls. -/
def polled (n c : Nat) : Config (Party n) (Memory n Nat Nat) (Pc n Nat Nat) :=
  { initial n 0 with mem := { (initial n 0).mem with counter := c } }

omit [NeZero n] in
theorem polled_holds (c : Nat) : fifoAssertion.Holds (polled n c) := by
  obtain ⟨g, hI, hT⟩ := fifoAssertion_init (init_initial n 0)
  refine ⟨g, { hI with }, fun t => ?_⟩
  cases t with
  | producer p => exact hT (.producer p)
  | consumer => exact hT .consumer

/-- A state that a schedule leads to from `polled n c`. -/
theorem exists_holds_of_schedule {c : Nat}
    {q : Config (Party n) (Memory n Nat Nat) (Pc n Nat Nat) → Prop} [DecidablePred q]
    (sched : List (Party n × Choice Nat Nat))
    (h : ((mpscrProgram w).runSchedule sched (polled n c)).any (fun s => decide (q s)) = true) :
    ∃ s, fifoAssertion.Holds s ∧ q s := by
  have hstart : Run (fun a => a = polled n c) (mpscrProgram w).Step (polled n c) [] := .start rfl
  obtain ⟨s, hist, run, hq⟩ := hstart.exists_of_schedule sched h
  refine ⟨s, run.invariant ?_ ?_, hq⟩
  · rintro a rfl
    exact polled_holds c
  · exact fun t a b ha hstep => fifoAssertion_kept.step ha (Program.stepIf_true.mpr hstep)

/-- Two fifos, and a counter that wraps after the first of them. -/
theorem trypop_polls_every_fifo_two :
    ∃ s : Config (Party 2) (Memory 2 Nat Nat) (Pc 2 Nat Nat),
      s.mem.counter = 2 ^ 32 - 1 ∧ PollsEvery 32 s := by
  obtain ⟨s, hs, hcounter, hentry⟩ := exists_holds_of_schedule (n := 2) (w := 32)
    (c := 2 ^ 32 - 1) (q := fun s => s.mem.counter = 2 ^ 32 - 1 ∧ s.loc .consumer = .nextFifo 0)
    [(.consumer, .pop)] (by decide +kernel)
  exact ⟨s, hcounter, (trypop_polls_every_fifo_iff hs hentry (by rw [hcounter]; decide)).mpr
    (.inl (by decide))⟩

/-- Three fifos, of which the last one holds a node. The counter is `2 ^ 32 - 1`, a
multiple of 3: the call looks at the fifos 0, 0 and 1. -/
theorem trypop_misses_producer :
    ¬ ∀ s : Config (Party 3) (Memory 3 Nat Nat) (Pc 3 Nat Nat), fifoAssertion.Holds s →
      s.loc .consumer = .nextFifo 0 → s.mem.counter < 2 ^ 32 → PollsEvery 32 s := by
  intro h
  obtain ⟨s, hs, hcounter, hentry, hfull, hempty⟩ := exists_holds_of_schedule (n := 3) (w := 32)
    (c := 2 ^ 32 - 1)
    (q := fun s => s.mem.counter = 2 ^ 32 - 1 ∧ s.loc .consumer = .nextFifo 0 ∧
      s.mem.next (s.mem.head 2) ≠ none ∧
      ∀ j < 3, s.mem.next (s.mem.head (visited 3 32 s.mem.counter j)) = none)
    ((.producer 2, .push 3 7) :: List.replicate 4 (.producer 2, .step) ++ [(.consumer, .pop)])
    (by decide +kernel)
  have hc : s.mem.counter < 2 ^ 32 := by rw [hcounter]; decide
  obtain ⟨m, out, hsolo, hout⟩ := solo_trypop (w := 32) (Nat.zero_le 3) (Nat.mod_eq_of_lt hc).symm
  have hnone : out = none := hout.mpr fun j _ hj => hempty j hj
  exact hfull (((h s hs hentry hc).null m out hsolo).mp hnone 2)

end FibConcurrent.MpscrFifo
