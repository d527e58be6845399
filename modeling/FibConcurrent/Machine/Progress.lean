import FibConcurrent.Machine.Program

/-!
# Machine — progress

How long a call can take, charged to what other threads achieve meanwhile. A
call begins with a credit of at most `total`; each of its own steps uses some of it up,
and only an achievement of another thread can add to it, at most `charge` each
time. So a call that goes on and on goes on at the cost of others that get
through: the system as a whole is lock-free (`Run.overtaken_of_many_steps`).
-/

namespace FibConcurrent.Machine

section Counting

variable {ι σ : Type*} {busy : σ → Prop} {P : Event ι σ → Prop} {e : Event ι σ}
  {hist : List (Event ι σ)} {n k : Nat}

theorem atLeast_succ_cons : AtLeast busy P (n + 1) (e :: hist) ↔
    busy e.pre ∧ (P e ∧ AtLeast busy P n hist ∨ AtLeast busy P (n + 1) hist) := by
  constructor
  · intro h
    cases h with
    | count hb hP h => exact ⟨hb, .inl ⟨hP, h⟩⟩
    | skip hb h => exact ⟨hb, .inr h⟩
  · rintro ⟨hb, ⟨hP, h⟩ | h⟩
    · exact .count hb hP h
    · exact .skip hb h

theorem AtLeast.of_succ (h : AtLeast busy P (n + 1) hist) : AtLeast busy P n hist := by
  induction hist generalizing n with
  | nil => cases h
  | cons e hist ih =>
    cases n with
    | zero => exact .zero _
    | succ n =>
      obtain ⟨hb, ⟨hP, h⟩ | h⟩ := atLeast_succ_cons.mp h
      · exact .count hb hP (ih h)
      · exact .skip hb (ih h)

theorem AtLeast.of_le (h : AtLeast busy P n hist) (hk : k ≤ n) : AtLeast busy P k hist := by
  induction hk with
  | refl => exact h
  | step _ ih => exact ih h.of_succ

/-- Steps of a call can be counted by looking back. -/
def AtLeast.decide [DecidablePred busy] [DecidablePred P] :
    (n : Nat) → (hist : List (Event ι σ)) → Decidable (AtLeast busy P n hist)
  | 0, hist => .isTrue (.zero hist)
  | _ + 1, [] => .isFalse (by rintro ⟨⟩)
  | n + 1, e :: hist =>
      have : Decidable (AtLeast busy P n hist) := AtLeast.decide n hist
      have : Decidable (AtLeast busy P (n + 1) hist) := AtLeast.decide (n + 1) hist
      decidable_of_iff _ atLeast_succ_cons.symm

instance [DecidablePred busy] [DecidablePred P] : Decidable (AtLeast busy P n hist) :=
  AtLeast.decide n hist

end Counting

section Credit

variable {ι σ : Type*} {init : σ → Prop} {step : ι → σ → σ → Prop} {s : σ}
  {hist : List (Event ι σ)} {busy : σ → Prop} {P Q : Event ι σ → Prop}

/-- **The payment rule**: a call begins with a credit of at most `total`, every `P` costs
one of it, and only a `Q` adds to it, at most `charge`. Then `n` steps that satisfy `P` come
with enough `Q`s to pay for them; one step may be both. -/
theorem Run.atLeast_of_payment (credit : σ → Nat) (total charge : Nat)
    (h0 : ∀ s, init s → ¬ busy s)
    (enter : ∀ t s s', (∃ hist, Run init step s hist) → step t s s' → ¬ busy s → busy s' →
      credit s' ≤ total)
    (pay : ∀ t s s', (∃ hist, Run init step s hist) → step t s s' → busy s →
      (credit s' ≤ credit s ∨ Q ⟨t, s, s'⟩ ∧ credit s' ≤ credit s + charge) ∧
        (P ⟨t, s, s'⟩ → credit s' < credit s ∨
          Q ⟨t, s, s'⟩ ∧ credit s' < credit s + charge))
    (run : Run init step s hist) {n : Nat} (hn : AtLeast busy P n hist) :
    ∃ k, AtLeast busy Q k hist ∧ n ≤ total + charge * k ∧
      (busy s → n + credit s ≤ total + charge * k) := by
  induction run generalizing n with
  | start h =>
    cases hn
    exact ⟨0, .zero _, by omega, fun hb => absurd hb (h0 _ h)⟩
  | @next s s' t hist run h ih =>
    by_cases hbs : busy s
    · obtain ⟨hkeep, hcost⟩ := pay t s s' ⟨_, run⟩ h hbs
      have hold : ∀ n, AtLeast busy P n hist → ∃ k, AtLeast busy Q k (⟨t, s, s'⟩ :: hist) ∧
          n + credit s' ≤ total + charge * k := by
        intro n hn
        obtain ⟨k, hk, -, hle⟩ := ih hn
        have hle := hle hbs
        rcases hkeep with hsame | ⟨hQ, hcharge⟩
        · exact ⟨k, .skip hbs hk, by omega⟩
        · refine ⟨k + 1, .count hbs hQ hk, ?_⟩
          rw [Nat.mul_succ]
          omega
      have hnew : P ⟨t, s, s'⟩ → ∀ n, AtLeast busy P n hist →
          ∃ k, AtLeast busy Q k (⟨t, s, s'⟩ :: hist) ∧
            n + 1 + credit s' ≤ total + charge * k := by
        intro hP n hn
        obtain ⟨k, hk, -, hle⟩ := ih hn
        have hle := hle hbs
        rcases hcost hP with hlt | ⟨hQ, hcharge⟩
        · exact ⟨k, .skip hbs hk, by omega⟩
        · refine ⟨k + 1, .count hbs hQ hk, ?_⟩
          rw [Nat.mul_succ]
          omega
      cases hn with
      | zero =>
        obtain ⟨k, hk, hle⟩ := hold 0 (.zero _)
        exact ⟨k, hk, by omega, fun _ => hle⟩
      | count _ hP hn =>
        obtain ⟨k, hk, hle⟩ := hnew hP _ hn
        exact ⟨k, hk, by omega, fun _ => hle⟩
      | skip _ hn =>
        obtain ⟨k, hk, hle⟩ := hold _ hn
        exact ⟨k, hk, by omega, fun _ => hle⟩
    · cases hn with
      | zero =>
        refine ⟨0, .zero _, by omega, fun hb => ?_⟩
        have := enter t s s' ⟨_, run⟩ h hbs hb
        omega
      | count hpre _ _ => exact absurd hpre hbs
      | skip hpre _ => exact absurd hpre hbs

/-- **The credit rule**: a call begins with a credit of at most `total`, every `P`
lowers it, and only a `Q` raises it, by at most `charge`. Then `n` steps that satisfy
`P` come with enough `Q`s to pay for them. -/
theorem Run.atLeast_of_credit (credit : σ → Nat) (total charge : Nat)
    (h0 : ∀ s, init s → ¬ busy s)
    (enter : ∀ t s s', (∃ hist, Run init step s hist) → step t s s' → ¬ busy s → busy s' →
      credit s' ≤ total)
    (pay : ∀ t s s', (∃ hist, Run init step s hist) → step t s s' → busy s →
      credit s' < credit s ∨ ¬ P ⟨t, s, s'⟩ ∧
        (credit s' ≤ credit s ∨ Q ⟨t, s, s'⟩ ∧ credit s' ≤ credit s + charge))
    (run : Run init step s hist) {n : Nat} (hn : AtLeast busy P n hist) :
    ∃ k, AtLeast busy Q k hist ∧ n ≤ total + charge * k ∧
      (busy s → n + credit s ≤ total + charge * k) := by
  refine run.atLeast_of_payment credit total charge h0 enter (fun t s s' hr h hb => ?_) hn
  rcases pay t s s' hr h hb with hlt | ⟨hP, hle⟩
  · exact ⟨.inl (Nat.le_of_lt hlt), fun _ => .inl hlt⟩
  · exact ⟨hle, fun h => absurd h hP⟩

end Credit

/-! ## Retry loops -/

/-- The credit of an attempt that has read a location and will find out at its end
whether that has changed: what remains of the attempt, and another attempt if it
has. -/
def retryCredit {β : Type*} [DecidableEq β] (charge remaining : Nat) (snapshot : Option β)
    (current : β) : Nat :=
  remaining + if snapshot.any fun x => decide (x ≠ current) then charge else 0

section Retry

variable {β : Type*} [DecidableEq β] {charge r r' : Nat} {snapshot : Option β}
  {x current current' : β}

@[simp] theorem retryCredit_none : retryCredit charge r none current = r := rfl

@[simp] theorem retryCredit_self : retryCredit charge r (some x) x = r := by
  simp [retryCredit]

theorem retryCredit_of_ne (h : current ≠ x) :
    retryCredit charge r (some x) current = r + charge := by
  simp [retryCredit, Ne.symm h]

theorem le_retryCredit : r ≤ retryCredit charge r snapshot current := Nat.le_add_right ..

/-- The attempt goes on with what it has read. -/
theorem retryCredit_lt (h : r' < r) :
    retryCredit charge r' snapshot current < retryCredit charge r snapshot current :=
  Nat.add_lt_add_right h _

/-- Another thread leaves the location alone, or adds an attempt. -/
theorem retryCredit_other (current current' : β) :
    retryCredit charge r snapshot current' ≤ retryCredit charge r snapshot current ∨
      current' ≠ current ∧
        retryCredit charge r snapshot current' ≤ retryCredit charge r snapshot current + charge := by
  by_cases h : current' = current
  · exact .inl (Nat.le_of_eq (by rw [h]))
  · refine .inr ⟨h, ?_⟩
    unfold retryCredit
    split <;> omega

end Retry

section Threads

variable {ι χ μ ℓ : Type*} [DecidableEq ι] {P : Program ι χ μ ℓ} {init : Config ι μ ℓ → Prop}
  {s : Config ι μ ℓ} {hist : List (Event ι (Config ι μ ℓ))} {t : ι}

/-- Thread `t` takes a step that counts. -/
def OwnStep (t : ι) (counts : ℓ → Prop) (e : Event ι (Config ι μ ℓ)) : Prop :=
  e.tid = t ∧ counts (e.pre.loc t)

/-- Another thread than `t` achieves something: a change of the memory by which
`achieves` holds. -/
def OtherAchieves (t : ι) (achieves : μ → μ → Prop) (e : Event ι (Config ι μ ℓ)) : Prop :=
  e.tid ≠ t ∧ achieves e.pre.mem e.post.mem

instance (t : ι) (counts : ℓ → Prop) [DecidablePred counts] :
    DecidablePred (OwnStep (μ := μ) t counts) := fun e =>
  inferInstanceAs (Decidable (e.tid = t ∧ counts (e.pre.loc t)))

instance (t : ι) (achieves : μ → μ → Prop) [DecidableRel achieves] :
    DecidablePred (OtherAchieves (ℓ := ℓ) t achieves) := fun e =>
  inferInstanceAs (Decidable (e.tid ≠ t ∧ achieves e.pre.mem e.post.mem))

/-- **The credit rule for threads**: the credit of thread `t` depends on the memory and
on its own locals. A call that has taken more than `total + charge * k` steps has been
overtaken more than `k` times. -/
theorem Run.overtaken_of_many_steps (credit : μ → ℓ → Nat) (busy : ℓ → Prop)
    (total charge : Nat) {counts : ℓ → Prop} {achieves : μ → μ → Prop}
    (h0 : ∀ s, init s → ¬ busy (s.loc t))
    (enter : ∀ s s', (∃ hist, Run init P.Step s hist) → P.Step t s s' → ¬ busy (s.loc t) →
      busy (s'.loc t) → credit s'.mem (s'.loc t) ≤ total)
    (own : ∀ s s', (∃ hist, Run init P.Step s hist) → P.Step t s s' → busy (s.loc t) →
      credit s'.mem (s'.loc t) < credit s.mem (s.loc t) ∨
        ¬ counts (s.loc t) ∧ credit s'.mem (s'.loc t) ≤ credit s.mem (s.loc t))
    (others : ∀ u s s', (∃ hist, Run init P.Step s hist) → P.Step u s s' → u ≠ t →
      credit s'.mem (s.loc t) ≤ credit s.mem (s.loc t) ∨
        achieves s.mem s'.mem ∧ credit s'.mem (s.loc t) ≤ credit s.mem (s.loc t) + charge)
    (run : Run init P.Step s hist) {k : Nat}
    (hn : AtLeast (fun s => busy (s.loc t)) (OwnStep t counts) (total + charge * k + 1) hist) :
    AtLeast (fun s => busy (s.loc t)) (OtherAchieves t achieves) (k + 1) hist := by
  obtain ⟨k', hk', hle, -⟩ : ∃ k', AtLeast (fun s => busy (s.loc t)) (OtherAchieves t achieves)
      k' hist ∧ total + charge * k + 1 ≤ total + charge * k' ∧ _ := by
    refine run.atLeast_of_credit (fun s => credit s.mem (s.loc t)) total charge h0 ?_ ?_ hn
    · intro u s s' hr hs hn hb
      by_cases hut : u = t
      · subst hut
        exact enter s s' hr hs hn hb
      · rw [hs.loc_of_ne (Ne.symm hut)] at hb
        exact absurd hb hn
    · intro u s s' hr hs hb
      by_cases hut : u = t
      · subst hut
        rcases own s s' hr hs hb with hlt | ⟨hc, hle⟩
        · exact .inl hlt
        · exact .inr ⟨fun h => hc h.2, .inl hle⟩
      · rw [hs.loc_of_ne (Ne.symm hut)]
        refine .inr ⟨fun h => hut h.1, ?_⟩
        rcases others u s s' hr hs hut with hle | ⟨ha, hle⟩
        · exact .inl hle
        · exact .inr ⟨⟨hut, ha⟩, hle⟩
  have hlt : k < k' := Nat.lt_of_mul_lt_mul_left (a := charge) (by omega)
  exact hk'.of_le hlt

/-- **The wait-free rule**: a call of thread `t` begins with at most `total` steps left, and each of
its own steps leaves fewer, whatever the others do. -/
theorem Run.steps_le (left : ℓ → Nat) (busy : ℓ → Prop) (total : Nat)
    (h0 : ∀ s, init s → ¬ busy (s.loc t))
    (enter : ∀ s s', (∃ hist, Run init P.Step s hist) → P.Step t s s' → ¬ busy (s.loc t) →
      busy (s'.loc t) → left (s'.loc t) ≤ total)
    (own : ∀ s s', (∃ hist, Run init P.Step s hist) → P.Step t s s' → busy (s.loc t) →
      left (s'.loc t) < left (s.loc t))
    (run : Run init P.Step s hist) {n : Nat}
    (hn : AtLeast (fun s => busy (s.loc t)) (OwnStep t fun _ => True) n hist) : n ≤ total := by
  obtain ⟨k, -, hle, -⟩ := run.atLeast_of_credit (Q := fun _ => False) (fun s => left (s.loc t))
    total 0 h0
    (fun u s s' hr hs hidle hbusy => by
      by_cases hut : u = t
      · subst hut
        exact enter s s' hr hs hidle hbusy
      · rw [hs.loc_of_ne (Ne.symm hut)] at hbusy
        exact absurd hbusy hidle)
    (fun u s s' hr hs hbusy => by
      by_cases hut : u = t
      · subst hut
        exact .inl (own s s' hr hs hbusy)
      · rw [hs.loc_of_ne (Ne.symm hut)]
        exact .inr ⟨fun h => hut h.1, .inl (Nat.le_refl _)⟩)
    hn
  rwa [Nat.zero_mul, Nat.add_zero] at hle

end Threads

end FibConcurrent.Machine
