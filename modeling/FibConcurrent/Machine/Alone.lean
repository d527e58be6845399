import FibConcurrent.Machine.Program
import Mathlib.Logic.Relation

/-!
# Machine — a thread that runs alone

What a call does when nobody interferes: `Solo P t c` relates two points of
thread `t`, memory and locals, where it gets from the one to the other by steps of
its own under the choice `c`. A call begins with a choice of its own (`Calls`).

`exec` is a function, so there is only one such path, and a path that is given
is what the call does.
-/

namespace FibConcurrent.Machine

open Relation

variable {ι χ μ ℓ : Type*} {P : Program ι χ μ ℓ} {t : ι} {call c : χ} {m m₁ : μ} {l l₁ : ℓ}
  {a b d : μ × ℓ}

/-- Thread `t` gets from `a` to `b` alone, under the choice `c` all along. -/
def Program.Solo (P : Program ι χ μ ℓ) (t : ι) (c : χ) : μ × ℓ → μ × ℓ → Prop :=
  ReflTransGen fun a b => P.exec t c a.1 a.2 = some b

/-- The same for a call, which begins with the choice `call`. -/
def Program.Calls (P : Program ι χ μ ℓ) (t : ι) (call c : χ) (a b : μ × ℓ) : Prop :=
  ∃ a₁, P.exec t call a.1 a.2 = some a₁ ∧ P.Solo t c a₁ b

theorem Program.Solo.refl (a : μ × ℓ) : P.Solo t c a a := ReflTransGen.refl

theorem Program.Solo.step (he : P.exec t c m l = some (m₁, l₁)) (h : P.Solo t c (m₁, l₁) b) :
    P.Solo t c (m, l) b :=
  ReflTransGen.head he h

theorem Program.Solo.trans (hab : P.Solo t c a b) (hbd : P.Solo t c b d) : P.Solo t c a d :=
  ReflTransGen.trans hab hbd

/-- From locals `final` there is one step at most, and then none: so a run does
not pass through them twice. -/
theorem Program.Solo.unique {final : ℓ → Prop}
    (hfinal : ∀ m l m' l', final l → P.exec t c m l = some (m', l') →
      ¬ final l' ∧ P.exec t c m' l' = none)
    (hb : P.Solo t c a b) (hd : P.Solo t c a d) (hfb : final b.2) (hfd : final d.2) : b = d := by
  have hend : ∀ {x y : μ × ℓ}, P.Solo t c x y → final x.2 → final y.2 → x = y := by
    intro x y hxy hx hy
    rcases ReflTransGen.cases_head hxy with rfl | ⟨z, hz, hzy⟩
    · rfl
    · obtain ⟨hnot, hstuck⟩ := hfinal _ _ _ _ hx hz
      rcases ReflTransGen.cases_head hzy with rfl | ⟨z', hz', -⟩
      · exact absurd hy hnot
      · cases hstuck.symm.trans hz'
  have hdet : Relator.RightUnique fun a b : μ × ℓ => P.exec t c a.1 a.2 = some b :=
    fun _ _ _ h h' => Option.some.inj (h.symm.trans h')
  rcases ReflTransGen.total_of_right_unique hdet hb hd with h | h
  · exact hend h hfb hfd
  · exact (hend h hfd hfb).symm

/-- A thread that runs alone takes the whole system along, as far as its steps are
those of the run. -/
theorem Run.solo [DecidableEq ι] {init : Config ι μ ℓ → Prop}
    {step : ι → Config ι μ ℓ → Config ι μ ℓ → Prop} {s : Config ι μ ℓ}
    {hist : List (Event ι (Config ι μ ℓ))}
    (hstep : ∀ s m l, P.exec t c s.mem (s.loc t) = some (m, l) →
      step t s ⟨m, Function.update s.loc t l⟩)
    (run : Run init step s hist) (h : P.Solo t c (s.mem, s.loc t) b) :
    ∃ hist', Run init step ⟨b.1, Function.update s.loc t b.2⟩ hist' := by
  induction h with
  | refl => exact ⟨hist, by simpa using run⟩
  | tail _ he ih =>
    obtain ⟨hist', run'⟩ := ih
    have hnext := hstep ⟨_, Function.update s.loc t _⟩ _ _ (by simpa using he)
    exact ⟨_, by simpa using run'.next hnext⟩

/-- So does a thread that makes a call. -/
theorem Run.calls [DecidableEq ι] {init : Config ι μ ℓ → Prop} {s : Config ι μ ℓ}
    {hist : List (Event ι (Config ι μ ℓ))} (run : Run init P.Step s hist)
    (h : P.Calls t call c (s.mem, s.loc t) b) :
    ∃ hist', Run init P.Step ⟨b.1, Function.update s.loc t b.2⟩ hist' := by
  obtain ⟨⟨m₁, l₁⟩, he, hsolo⟩ := h
  have hstep : ∀ (s : Config ι μ ℓ) c m l, P.exec t c s.mem (s.loc t) = some (m, l) →
      P.Step t s ⟨m, Function.update s.loc t l⟩ := fun s c m l he =>
    ⟨c, Program.next_eq_some.mpr ⟨m, l, he, rfl⟩⟩
  have hcalled := run.next (hstep s call m₁ l₁ he)
  obtain ⟨hist', run'⟩ := hcalled.solo (fun s => hstep s c) (by simpa using hsolo)
  exact ⟨hist', by simpa using run'⟩

end FibConcurrent.Machine
