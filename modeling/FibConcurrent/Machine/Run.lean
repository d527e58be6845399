import Mathlib.Logic.Function.Basic
import Mathlib.Logic.Relation

/-!
# Machine — runs and their histories

A run of a transition system whose steps are taken by named threads, with the
whole history of the run kept beside the current state. The history is what
the statements "at some instant of the call" and "another thread did so during
the call" are about: `During busy P` looks back to the moment the call began
(the last state in which `busy` did not hold) and no further.

Nothing here names a data structure; every algorithm of the library is a step
relation that is put into `Run`.
-/

namespace FibConcurrent.Machine

variable {ι σ : Type*}

/-- One transition of a run: who moved, from which state, to which. -/
structure Event (ι σ : Type*) where
  tid : ι
  pre : σ
  post : σ

/-- The states a system reaches, each with the history that led to it, newest
transition first. -/
inductive Run (init : σ → Prop) (step : ι → σ → σ → Prop) : σ → List (Event ι σ) → Prop
  | start {s : σ} (h : init s) : Run init step s []
  | next {s s' : σ} {t : ι} {hist : List (Event ι σ)} (run : Run init step s hist)
      (h : step t s s') : Run init step s' (⟨t, s, s'⟩ :: hist)

section Run

variable {init : σ → Prop} {step step' : ι → σ → σ → Prop} {s : σ} {hist : List (Event ι σ)}

/-- **The invariant rule**: what holds initially and is kept by every step
holds in every reachable state. -/
theorem Run.invariant {I : σ → Prop} (h0 : ∀ s, init s → I s)
    (hs : ∀ t s s', I s → step t s s' → I s') (run : Run init step s hist) : I s := by
  induction run with
  | start h => exact h0 _ h
  | next _ h ih => exact hs _ _ _ ih h

/-- **The invariant rule for properties of the history.** -/
theorem Run.invariant_hist {J : σ → List (Event ι σ) → Prop} (h0 : ∀ s, init s → J s [])
    (hs : ∀ t s s' hist, Run init step s hist → J s hist → step t s s' →
      J s' (⟨t, s, s'⟩ :: hist)) (run : Run init step s hist) : J s hist := by
  induction run with
  | start h => exact h0 _ h
  | next run h ih => exact hs _ _ _ _ run ih h

theorem Run.mono (hs : ∀ t s s', step t s s' → step' t s s')
    (run : Run init step s hist) : Run init step' s hist := by
  induction run with
  | start h => exact .start h
  | next _ h ih => exact ih.next (hs _ _ _ h)

/-- What a run does to a part of the state is a run, if its steps are steps of that
part or leave it alone. -/
theorem Run.project {τ : Type*} {init' : τ → Prop} {stepPart : ι → τ → τ → Prop} (f : σ → τ)
    (h0 : ∀ s, init s → init' (f s))
    (hs : ∀ t s s', step t s s' → f s' = f s ∨ stepPart t (f s) (f s'))
    (run : Run init step s hist) : ∃ hist', Run init' stepPart (f s) hist' := by
  induction run with
  | start h => exact ⟨[], .start (h0 _ h)⟩
  | next _ h ih =>
    obtain ⟨hist', run'⟩ := ih
    rcases hs _ _ _ h with heq | hstep
    · exact ⟨hist', heq ▸ run'⟩
    · exact ⟨_, run'.next hstep⟩

/-- Any number of further steps of one thread. -/
theorem Run.steps {t : ι} {s' : σ} (run : Run init step s hist)
    (h : Relation.ReflTransGen (step t) s s') : ∃ hist', Run init step s' hist' := by
  induction h with
  | refl => exact ⟨hist, run⟩
  | tail _ hs ih =>
    obtain ⟨hist', run'⟩ := ih
    exact ⟨_, run'.next hs⟩

/-- **The simulation rule**: if every step from a reachable state is matched by any number of
steps of the same thread in another system, the states that are reached there are the
images of those that are reached here. -/
theorem Run.simulate {τ : Type*} {init' : τ → Prop} {stepPart : ι → τ → τ → Prop} (f : σ → τ)
    (h0 : ∀ s, init s → init' (f s))
    (hs : ∀ t s s', (∃ hist, Run init step s hist) → step t s s' →
      Relation.ReflTransGen (stepPart t) (f s) (f s'))
    (run : Run init step s hist) : ∃ hist', Run init' stepPart (f s) hist' := by
  induction run with
  | start h => exact ⟨[], .start (h0 _ h)⟩
  | next run h ih =>
    obtain ⟨hist', run'⟩ := ih
    exact run'.steps (hs _ _ _ ⟨_, run⟩ h)

/-- A bound that no step can restore held all along, if it holds at the end. -/
theorem Run.bounded {ok : σ → Prop} (back : ∀ t s s', step t s s' → ok s' → ok s)
    (run : Run init step s hist) (hok : ok s) :
    Run init (fun t s s' => ok s' ∧ step t s s') s hist := by
  induction run with
  | start h => exact .start h
  | next _ h ih => exact (ih (back _ _ _ h hok)).next ⟨hok, h⟩

/-- Every transition in the history of a run starts in a state that the run
reached before. -/
theorem Run.of_mem {e : Event ι σ} (run : Run init step s hist) (he : e ∈ hist) :
    step e.tid e.pre e.post ∧ ∃ hist', Run init step e.pre hist' := by
  induction run with
  | start => cases he
  | next run h ih =>
    rcases List.mem_cons.mp he with rfl | he
    · exact ⟨h, _, run⟩
    · exact ih he

end Run

/-! ## Looking back to the start of a call -/

/-- Some transition since the call began satisfies `P`; `busy` tells that the
call is in progress. -/
inductive During (busy : σ → Prop) (P : Event ι σ → Prop) : List (Event ι σ) → Prop
  | here {e : Event ι σ} {hist : List (Event ι σ)} (hb : busy e.pre) (hP : P e) :
      During busy P (e :: hist)
  | later {e : Event ι σ} {hist : List (Event ι σ)} (hb : busy e.pre)
      (h : During busy P hist) : During busy P (e :: hist)

section During

variable {busy : σ → Prop} {P Q : Event ι σ → Prop} {hist : List (Event ι σ)}

@[simp] theorem not_during_nil : ¬ During busy P [] := by
  rintro ⟨⟩

theorem during_cons {e : Event ι σ} :
    During busy P (e :: hist) ↔ busy e.pre ∧ (P e ∨ During busy P hist) := by
  constructor
  · rintro (⟨hb, hP⟩ | ⟨hb, h⟩)
    · exact ⟨hb, .inl hP⟩
    · exact ⟨hb, .inr h⟩
  · rintro ⟨hb, hP | h⟩
    · exact .here hb hP
    · exact .later hb h

/-- `During` can be decided by looking back. -/
def During.decide [DecidablePred busy] [DecidablePred P] :
    (hist : List (Event ι σ)) → Decidable (During busy P hist)
  | [] => .isFalse not_during_nil
  | e :: hist =>
      have : Decidable (During busy P hist) := During.decide hist
      decidable_of_iff (busy e.pre ∧ (P e ∨ During busy P hist)) during_cons.symm

instance [DecidablePred busy] [DecidablePred P] : Decidable (During busy P hist) :=
  During.decide hist

theorem During.imp (h : During busy P hist) (hPQ : ∀ e, P e → Q e) :
    During busy Q hist := by
  induction h with
  | here hb hP => exact .here hb (hPQ _ hP)
  | later hb _ ih => exact .later hb ih

variable {init : σ → Prop} {step : ι → σ → σ → Prop} {s : σ}

/-- **The look-back rule.** `mark` singles out states of a call in progress
that can only be entered from within the call, and at the price of `P`: then
whenever `mark` holds, `P` happened during the call. -/
theorem Run.during_of_mark (mark : σ → Prop) (h0 : ∀ s, init s → ¬ mark s)
    (hbusy : ∀ t s s', step t s s' → mark s' → busy s)
    (enter : ∀ t s s', (∃ hist, Run init step s hist) → step t s s' → ¬ mark s → mark s' →
      P ⟨t, s, s'⟩)
    (run : Run init step s hist) (hm : mark s) : During busy P hist := by
  induction run with
  | start h => exact absurd hm (h0 _ h)
  | @next s s' t hist run h ih =>
    by_cases hms : mark s
    · exact .later (hbusy _ _ _ h hm) (ih hms)
    · exact .here (hbusy _ _ _ h hm) (enter _ _ _ ⟨_, run⟩ h hms hm)

/-- **The look-back rule for what did not happen**: a marked state of a call is
only reached from marked ones of the same call, by steps other than `P`. -/
theorem Run.not_during_of_mark (mark : σ → Prop)
    (back : ∀ t s s', (∃ hist, Run init step s hist) → step t s s' → mark s' → busy s →
      mark s ∧ ¬ P ⟨t, s, s'⟩)
    (run : Run init step s hist) (hm : mark s) : ¬ During busy P hist := by
  induction run with
  | start => exact not_during_nil
  | next run h ih =>
    rw [during_cons]
    rintro ⟨hb, hP | hd⟩
    · exact (back _ _ _ ⟨_, run⟩ h hm hb).2 hP
    · exact ih (back _ _ _ ⟨_, run⟩ h hm hb).1 hd

end During

/-! ## How a call began -/

/-- The call in progress began in a state that satisfies `P`. -/
def Began (busy P : σ → Prop) : σ → List (Event ι σ) → Prop
  | s, [] => P s
  | s, e :: hist => (busy s → Began busy P e.pre hist) ∧ (¬ busy s → P s)

section Began

variable {busy P : σ → Prop} {s : σ} {e : Event ι σ} {hist : List (Event ι σ)}

theorem began_cons (hb : busy s) : Began busy P s (e :: hist) ↔ Began busy P e.pre hist :=
  ⟨fun h => h.1 hb, fun h => ⟨fun _ => h, fun hn => absurd hb hn⟩⟩

theorem began_of_not_busy (hb : ¬ busy s) : Began busy P s hist ↔ P s := by
  cases hist with
  | nil => exact Iff.rfl
  | cons e hist => exact ⟨fun h => h.2 hb, fun h => ⟨fun hs => absurd hs hb, fun _ => h⟩⟩

theorem Began.imp {Q : σ → Prop} (h : Began busy P s hist) (hPQ : ∀ s, P s → Q s) :
    Began busy Q s hist := by
  induction hist generalizing s with
  | nil => exact hPQ s h
  | cons e hist ih => exact ⟨fun hb => ih (h.1 hb), fun hb => hPQ s (h.2 hb)⟩

def Began.decide [DecidablePred busy] [DecidablePred P] :
    (s : σ) → (hist : List (Event ι σ)) → Decidable (Began busy P s hist)
  | s, [] => inferInstanceAs (Decidable (P s))
  | s, e :: hist =>
      have : Decidable (Began busy P e.pre hist) := Began.decide e.pre hist
      inferInstanceAs (Decidable ((busy s → Began busy P e.pre hist) ∧ (¬ busy s → P s)))

instance [DecidablePred busy] [DecidablePred P] : Decidable (Began busy P s hist) :=
  Began.decide s hist

end Began

/-! ## Counting the steps of a call -/

/-- At least `n` transitions since the call began satisfy `P`. -/
inductive AtLeast (busy : σ → Prop) (P : Event ι σ → Prop) : Nat → List (Event ι σ) → Prop
  | zero (hist : List (Event ι σ)) : AtLeast busy P 0 hist
  | count {e : Event ι σ} {hist : List (Event ι σ)} {n : Nat} (hb : busy e.pre) (hP : P e)
      (h : AtLeast busy P n hist) : AtLeast busy P (n + 1) (e :: hist)
  | skip {e : Event ι σ} {hist : List (Event ι σ)} {n : Nat} (hb : busy e.pre)
      (h : AtLeast busy P n hist) : AtLeast busy P n (e :: hist)

theorem During.atLeast_one {busy : σ → Prop} {P : Event ι σ → Prop} {hist : List (Event ι σ)}
    (h : During busy P hist) : AtLeast busy P 1 hist := by
  induction h with
  | here hb hP => exact .count hb hP (.zero _)
  | later hb _ ih => exact .skip hb ih

/-- **The variant rule**: a call begins with at most `total` steps `left`, each
`P` uses one up, and no other step adds any. -/
theorem Run.atLeast_le {init : σ → Prop} {step : ι → σ → σ → Prop} {s : σ}
    {hist : List (Event ι σ)} {busy : σ → Prop} {P : Event ι σ → Prop} (total : σ → Nat)
    (left : σ → Nat → Prop) (h0 : ∀ s, init s → ¬ busy s)
    (enter : ∀ t s s', (∃ hist, Run init step s hist) → step t s s' → ¬ busy s → busy s' →
      ∃ k, left s' k ∧ k ≤ total s')
    (back : ∀ t s s' k, (∃ hist, Run init step s hist) → step t s s' → busy s → busy s' →
      left s k → total s' = total s ∧ ∃ k', left s' k' ∧ k' ≤ k ∧ (P ⟨t, s, s'⟩ → k' < k))
    (run : Run init step s hist) (hb : busy s) {n : Nat} (hn : AtLeast busy P n hist) :
    ∃ k, left s k ∧ n + k ≤ total s := by
  induction run generalizing n with
  | start h => exact absurd hb (h0 _ h)
  | @next s s' t hist run h ih =>
    by_cases hbs : busy s
    · -- what was left before, and one less if the step counts
      have hold : ∀ n, AtLeast busy P n hist → ∃ k, left s' k ∧ n + k ≤ total s' ∧
          (P ⟨t, s, s'⟩ → n + 1 + k ≤ total s') := by
        intro n hn
        obtain ⟨k, hk, hle⟩ := ih hbs hn
        obtain ⟨htotal, k', hk', hle', hlt⟩ := back t s s' k ⟨_, run⟩ h hbs hb hk
        refine ⟨k', hk', by omega, fun hP => ?_⟩
        have := hlt hP
        omega
      cases hn with
      | zero =>
        obtain ⟨k, hk, hle, -⟩ := hold 0 (.zero _)
        exact ⟨k, hk, hle⟩
      | count _ hP hn =>
        obtain ⟨k, hk, -, hle⟩ := hold _ hn
        exact ⟨k, hk, hle hP⟩
      | skip _ hn =>
        obtain ⟨k, hk, hle, -⟩ := hold _ hn
        exact ⟨k, hk, hle⟩
    · cases hn with
      | zero =>
        obtain ⟨k, hk, hle⟩ := enter t s s' ⟨_, run⟩ h hbs hb
        exact ⟨k, hk, by omega⟩
      | count hpre _ _ => exact absurd hpre hbs
      | skip hpre _ => exact absurd hpre hbs

end FibConcurrent.Machine
