import FibConcurrent.Machine.StoreBuffer

/-!
# Machine — a program on store buffers

A `Text` spells out every access. A program whose memory also holds what is private
to its threads, and histories, is put on the store buffers of x86 by saying which
of its steps are plain stores to locations that others read, which have a lock
prefix, and after which a fence stands (`Buffering`). All other steps stay what they
are; they see the memory with the thread's own stores applied.
-/

namespace FibConcurrent.Machine

variable {ι χ μ ω ℓ : Type*}

/-- Memory, and one store buffer for each thread. -/
structure Buffers (ι μ ω : Type*) where
  mem : μ
  buf : ι → List ω

/-- A thread that may have to wait at a fence before it goes on. -/
inductive Fenced (ℓ : Type*) where
  | fence (l : ℓ)
  | ready (l : ℓ)
deriving DecidableEq

def Fenced.loc : Fenced ℓ → ℓ
  | .fence l => l
  | .ready l => l

/-- Which steps of a program are plain stores, and what a store does when it drains;
`keep m m'` is `m'` with the contents that these locations have in `m`. -/
structure Buffering (ι χ μ ω ℓ : Type*) where
  write : ω → μ → μ
  keep : μ → μ → μ
  store : ι → χ → ℓ → Option ω
  locked : ℓ → Bool
  fence : χ → ℓ → Bool

variable (B : Buffering ι χ μ ω ℓ)

/-- The memory as thread `t` sees it. -/
def Buffering.view (t : ι) (b : Buffers ι μ ω) : μ := drained B.write b.mem (b.buf t)

variable [DecidableEq ι]

def Buffering.exec (P : Program ι χ μ ℓ) (t : ι) :
    TsoChoice χ → Buffers ι μ ω → Fenced ℓ → Option (Buffers ι μ ω × Fenced ℓ)
  | .drain, b, l =>
      match b.buf t with
      | w :: rest => some (⟨B.write w b.mem, Function.update b.buf t rest⟩, l)
      | [] => none
  | .act _, b, .fence l => if (b.buf t).isEmpty then some (b, .ready l) else none
  | .act c, b, .ready l =>
      -- A lock prefix waits until the buffer has drained.
      if B.locked l && !(b.buf t).isEmpty then none
      else (P.exec t c (B.view t b) l).map fun r =>
        (⟨if B.locked l then r.1 else B.keep b.mem r.1,
            Function.update b.buf t (b.buf t ++ (B.store t c l).toList)⟩,
          if B.fence c l then .fence r.2 else .ready r.2)

/-- The program on the store buffers of x86. -/
def Buffering.program (P : Program ι χ μ ℓ) :
    Program ι (TsoChoice χ) (Buffers ι μ ω) (Fenced ℓ) :=
  ⟨fun t c b l => B.exec P t c b l⟩

variable {B} {P : Program ι χ μ ℓ} {t : ι} {c : TsoChoice χ} {b b' : Buffers ι μ ω}
  {l l' : Fenced ℓ}

/-- **What a step among store buffers can be.** -/
theorem Buffering.exec_cases (h : B.exec P t c b l = some (b', l')) :
    (∃ w rest, c = .drain ∧ b.buf t = w :: rest ∧
      b' = ⟨B.write w b.mem, Function.update b.buf t rest⟩ ∧ l' = l) ∨
    (∃ d k, c = .act d ∧ l = .fence k ∧ b.buf t = [] ∧ b' = b ∧ l' = .ready k) ∨
    ∃ d k m k', c = .act d ∧ l = .ready k ∧ (B.locked k = true → b.buf t = []) ∧
      P.exec t d (B.view t b) k = some (m, k') ∧
      b' = ⟨if B.locked k then m else B.keep b.mem m,
        Function.update b.buf t (b.buf t ++ (B.store t d k).toList)⟩ ∧
      l' = if B.fence d k then .fence k' else .ready k' := by
  cases c with
  | drain =>
    cases hbuf : b.buf t with
    | nil => simp [Buffering.exec, hbuf] at h
    | cons w rest =>
      simp only [Buffering.exec, hbuf, Option.some.injEq, Prod.mk.injEq] at h
      exact .inl ⟨w, rest, rfl, rfl, h.1.symm, h.2.symm⟩
  | act d =>
    cases l with
    | fence k =>
      obtain ⟨hbuf, h⟩ := Option.ite_none_right_eq_some.mp h
      obtain ⟨rfl, rfl⟩ := Prod.mk.inj (Option.some.inj h)
      exact .inr (.inl ⟨d, k, rfl, rfl, List.isEmpty_iff.mp hbuf, rfl, rfl⟩)
    | ready k =>
      obtain ⟨hlocked, h⟩ := Option.ite_none_left_eq_some.mp h
      obtain ⟨⟨m, k'⟩, he, h⟩ := Option.map_eq_some_iff.mp h
      obtain ⟨rfl, rfl⟩ := Prod.mk.inj h
      refine .inr (.inr ⟨d, k, m, k', rfl, rfl, fun hk => ?_, he, rfl, rfl⟩)
      simpa [hk] using hlocked

end FibConcurrent.Machine
