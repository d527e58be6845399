import FibConcurrent.Machine.Program

/-!
# Machine — one program text, two memory models

A `Text` says which access a thread performs next: a load, a plain store, a
read-modify-write instruction (one with a lock prefix), a fence, or nothing
that other threads could see. The same text runs on two memories.

* `Text.sc`: every access takes effect at once, in one order for all threads.
* `Text.tso`: the memory of x86. A plain store goes into the thread's own FIFO
  buffer and drains to memory at some later step; a load sees the memory with
  the thread's own buffer applied; read-modify-writes and fences wait until the
  buffer is empty.

A run of the first is a run of the second in which every store drains at once,
so an assertion that is kept under `tso` is kept under `sc` (`Text.sc_kept`).

`Always` is the proof tool for buffers: a property that holds now and still
holds whatever part of the buffer has drained.
-/

namespace FibConcurrent.Machine

variable {ι χ σ ω ο ℓ Γ : Type*}

/-- One access to the shared memory `σ`, with the locals it leads to and the
operations it adds to the history. `ω` are the plain stores. -/
inductive Access (σ ω ο ℓ : Type*) where
  | load (k : σ → ℓ × List ο)
  | store (w : ω) (l : ℓ) (ops : List ο)
  | rmw (k : σ → σ × ℓ × List ο)
  | fence (l : ℓ)
  | skip (l : ℓ)

/-- The same access, seen from a larger program. -/
def Access.map {ℓ' : Type*} (f : ℓ → ℓ') : Access σ ω ο ℓ → Access σ ω ο ℓ'
  | .load k => .load fun m => (f (k m).1, (k m).2)
  | .store w l ops => .store w (f l) ops
  | .rmw k => .rmw fun m => ((k m).1, f (k m).2.1, (k m).2.2)
  | .fence l => .fence (f l)
  | .skip l => .skip (f l)

theorem Access.map_map {ℓ' ℓ'' : Type*} (f : ℓ → ℓ') (g : ℓ' → ℓ'') (a : Access σ ω ο ℓ) :
    (a.map f).map g = a.map (g ∘ f) := by
  cases a <;> rfl

/-- What an access may lead to, whatever it finds in the memory: the locals, and the operations that
are added to the history. -/
def Access.Yields : Access σ ω ο ℓ → ℓ → List ο → Prop
  | .load k, l, ops => ∃ m, k m = (l, ops)
  | .store _ l' ops', l, ops => l' = l ∧ ops' = ops
  | .rmw k, l, ops => ∃ m, (k m).2 = (l, ops)
  | .fence l', l, ops => l' = l ∧ ops = []
  | .skip l', l, ops => l' = l ∧ ops = []

theorem Access.Yields.of_map {ℓ' : Type*} {f : ℓ → ℓ'} {a : Access σ ω ο ℓ} {l' : ℓ'}
    {ops : List ο} (h : (a.map f).Yields l' ops) : ∃ l, f l = l' ∧ a.Yields l ops := by
  cases a with
  | load k =>
    obtain ⟨m, hm⟩ := h
    obtain ⟨hl, hops⟩ := Prod.mk.inj hm
    exact ⟨_, hl, m, Prod.ext rfl hops⟩
  | rmw k =>
    obtain ⟨m, hm⟩ := h
    obtain ⟨hl, hops⟩ := Prod.mk.inj hm
    exact ⟨_, hl, m, Prod.ext rfl hops⟩
  | store w l ops => exact ⟨l, h.1, rfl, h.2⟩
  | fence l => exact ⟨l, h.1, rfl, h.2⟩
  | skip l => exact ⟨l, h.1, rfl, h.2⟩

/-- What a plain store does to the memory, and the access each thread performs
next. -/
structure Text (ι χ σ ω ο ℓ : Type*) where
  write : ω → σ → σ
  access : ι → χ → ℓ → Option (Access σ ω ο ℓ)

/-- The memory with the stores of a buffer applied, oldest first. -/
def drained (write : ω → σ → σ) (m : σ) (buf : List ω) : σ :=
  buf.foldl (fun m w => write w m) m

@[simp] theorem drained_nil (write : ω → σ → σ) (m : σ) : drained write m [] = m := rfl

@[simp] theorem drained_cons (write : ω → σ → σ) (m : σ) (w : ω) (buf : List ω) :
    drained write m (w :: buf) = drained write (write w m) buf := rfl

@[simp] theorem drained_concat (write : ω → σ → σ) (m : σ) (buf : List ω) (w : ω) :
    drained write m (buf ++ [w]) = write w (drained write m buf) := by
  simp [drained]

/-! ## Sequential consistency -/

/-- A sequentially consistent memory and the history of operations. -/
structure Shared (σ ο : Type*) where
  mem : σ
  log : List ο

/-- An access takes effect at once. -/
def Access.sc (write : ω → σ → σ) (s : Shared σ ο) : Access σ ω ο ℓ → Shared σ ο × ℓ
  | .load k => (⟨s.mem, s.log ++ (k s.mem).2⟩, (k s.mem).1)
  | .store w l ops => (⟨write w s.mem, s.log ++ ops⟩, l)
  | .rmw k => (⟨(k s.mem).1, s.log ++ (k s.mem).2.2⟩, (k s.mem).2.1)
  | .fence l => (s, l)
  | .skip l => (s, l)

theorem Access.sc_map {ℓ' : Type*} (write : ω → σ → σ) (s : Shared σ ο) (f : ℓ → ℓ')
    (a : Access σ ω ο ℓ) :
    Access.sc write s (a.map f) = ((Access.sc write s a).1, f (Access.sc write s a).2) := by
  cases a <;> rfl

theorem Access.sc_yields (write : ω → σ → σ) (s : Shared σ ο) (a : Access σ ω ο ℓ) :
    ∃ ops, a.Yields (Access.sc write s a).2 ops ∧ (Access.sc write s a).1.log = s.log ++ ops := by
  cases a with
  | load k => exact ⟨_, ⟨s.mem, rfl⟩, rfl⟩
  | store w l ops => exact ⟨ops, ⟨rfl, rfl⟩, rfl⟩
  | rmw k => exact ⟨_, ⟨s.mem, rfl⟩, rfl⟩
  | fence l => exact ⟨[], ⟨rfl, rfl⟩, (List.append_nil _).symm⟩
  | skip l => exact ⟨[], ⟨rfl, rfl⟩, (List.append_nil _).symm⟩

def Text.scExec (X : Text ι χ σ ω ο ℓ) (t : ι) (c : χ) (s : Shared σ ο) (l : ℓ) :
    Option (Shared σ ο × ℓ) :=
  (X.access t c l).map (Access.sc X.write s)

def Text.sc (X : Text ι χ σ ω ο ℓ) : Program ι χ (Shared σ ο) ℓ := ⟨X.scExec⟩

/-! ## Total store order -/

/-- Memory, one store buffer for each thread, and the history of operations. -/
structure Buffered (ι σ ω ο : Type*) where
  mem : σ
  buf : ι → List ω
  log : List ο

/-- The oldest buffered store drains, or the thread takes its next access. -/
inductive TsoChoice (χ : Type*) where
  | drain
  | act (c : χ)

variable [DecidableEq ι]

/-- An access of thread `t` among store buffers. -/
def Access.tso (write : ω → σ → σ) (t : ι) (s : Buffered ι σ ω ο) :
    Access σ ω ο ℓ → Option (Buffered ι σ ω ο × ℓ)
  | .load k =>
      let r := k (drained write s.mem (s.buf t))
      some ({ s with log := s.log ++ r.2 }, r.1)
  | .store w l ops =>
      some ({ s with
        buf := Function.update s.buf t (s.buf t ++ [w])
        log := s.log ++ ops }, l)
  | .rmw k =>
      if (s.buf t).isEmpty then
        some ({ s with mem := (k s.mem).1, log := s.log ++ (k s.mem).2.2 }, (k s.mem).2.1)
      else none
  | .fence l => if (s.buf t).isEmpty then some (s, l) else none
  | .skip l => some (s, l)

theorem Access.tso_map {ℓ' : Type*} (write : ω → σ → σ) (t : ι) (s : Buffered ι σ ω ο)
    (f : ℓ → ℓ') (a : Access σ ω ο ℓ) :
    Access.tso write t s (a.map f) = (Access.tso write t s a).map fun r => (r.1, f r.2) := by
  cases a with
  | rmw k =>
    simp only [Access.map, Access.tso]
    split <;> rfl
  | fence l =>
    simp only [Access.map, Access.tso]
    split <;> rfl
  | _ => rfl

theorem Access.tso_yields {write : ω → σ → σ} {t : ι} {s s' : Buffered ι σ ω ο} {l : ℓ}
    {a : Access σ ω ο ℓ} (h : Access.tso write t s a = some (s', l)) :
    ∃ ops, a.Yields l ops ∧ s'.log = s.log ++ ops := by
  cases a with
  | load k =>
    cases h
    exact ⟨_, ⟨_, rfl⟩, rfl⟩
  | store w l ops =>
    cases h
    exact ⟨ops, ⟨rfl, rfl⟩, rfl⟩
  | rmw k =>
    obtain ⟨-, h⟩ := Option.ite_none_right_eq_some.mp h
    cases h
    exact ⟨_, ⟨s.mem, rfl⟩, rfl⟩
  | fence l =>
    obtain ⟨-, h⟩ := Option.ite_none_right_eq_some.mp h
    cases h
    exact ⟨[], ⟨rfl, rfl⟩, (List.append_nil _).symm⟩
  | skip l =>
    cases h
    exact ⟨[], ⟨rfl, rfl⟩, (List.append_nil _).symm⟩

/-- The buffers of other threads stay as they are. -/
theorem Access.tso_buf_of_ne {write : ω → σ → σ} {t u : ι} {s s' : Buffered ι σ ω ο} {l : ℓ}
    {a : Access σ ω ο ℓ} (h : Access.tso write t s a = some (s', l)) (hu : u ≠ t) :
    s'.buf u = s.buf u := by
  cases a with
  | load k =>
    cases h
    rfl
  | store w k ops =>
    cases h
    exact Function.update_of_ne hu ..
  | skip k =>
    cases h
    rfl
  | _ =>
    obtain ⟨-, h⟩ := Option.ite_none_right_eq_some.mp h
    cases h
    rfl

def Text.tsoExec (X : Text ι χ σ ω ο ℓ) (t : ι) (c : TsoChoice χ) (s : Buffered ι σ ω ο)
    (l : ℓ) : Option (Buffered ι σ ω ο × ℓ) :=
  match c with
  | .drain =>
      match s.buf t with
      | w :: rest => some ({ s with mem := X.write w s.mem, buf := Function.update s.buf t rest }, l)
      | [] => none
  | .act c => (X.access t c l).bind (Access.tso X.write t s)

def Text.tso (X : Text ι χ σ ω ο ℓ) : Program ι (TsoChoice χ) (Buffered ι σ ω ο) ℓ := ⟨X.tsoExec⟩

/-! ## Sequential consistency as the special case of empty buffers -/

/-- A sequentially consistent memory is a buffered one with nothing buffered. -/
def Shared.buffered (s : Shared σ ο) : Buffered ι σ ω ο := ⟨s.mem, fun _ => [], s.log⟩

/-- An assertion about buffered memory, read on a sequentially consistent one. -/
def Assertion.onShared (A : Assertion ι (Buffered ι σ ω ο) Γ ℓ) :
    Assertion ι (Shared σ ο) Γ ℓ where
  shared s := A.shared s.buffered
  thread t s := A.thread t s.buffered

/-- **What every step of `tso` keeps, every step of `sc` keeps**: a store of the
latter is a store followed by its drain. -/
theorem Text.sc_kept {X : Text ι χ σ ω ο ℓ} {A : Assertion ι (Buffered ι σ ω ο) Γ ℓ}
    {ok : ι → Buffered ι σ ω ο → ℓ → Buffered ι σ ω ο → Prop} (hk : A.Kept X.tso ok)
    (hok : ∀ t m l m', m.buf t = [] ∨ m'.buf t ≠ m.buf t → ok t m l m') :
    A.onShared.Kept X.sc (fun _ _ _ _ => True) := by
  intro t c s l s' l' g hS hT _ he
  obtain ⟨a, ha, he⟩ := Option.map_eq_some_iff.mp he
  have hact : ∀ m k, X.tsoExec t (.act c) s.buffered l = some (m, k) →
      ∃ g', A.shared m g' ∧ A.thread t m g' k ∧
        ∀ u, u ≠ t → ∀ k', A.thread u s.buffered g k' → A.thread u m g' k' := fun m k h =>
    hk t (.act c) _ _ _ _ g hS hT (hok _ _ _ _ (.inl rfl)) h
  cases a with
  | store w l₁ ops =>
    obtain ⟨rfl, rfl⟩ := Prod.mk.inj he
    let m₁ : Buffered ι σ ω ο := ⟨s.mem, Function.update (fun _ => []) t [w], s.log ++ ops⟩
    obtain ⟨g₁, hS₁, hT₁, hu₁⟩ := hact m₁ l₁ (by
      simp [Text.tsoExec, Access.tso, ha, Shared.buffered, m₁])
    have hdrain : X.tsoExec t .drain m₁ l₁ =
        some (Shared.buffered ⟨X.write w s.mem, s.log ++ ops⟩, l₁) := by
      simp [Text.tsoExec, m₁, Shared.buffered]
    obtain ⟨g₂, hS₂, hT₂, hu₂⟩ := hk t .drain _ _ _ _ g₁ hS₁ hT₁
      (hok _ _ _ _ (.inr (by simp [m₁, Shared.buffered]))) hdrain
    exact ⟨g₂, hS₂, hT₂, fun u hu k h => hu₂ u hu k (hu₁ u hu k h)⟩
  | _ =>
    obtain ⟨rfl, rfl⟩ := Prod.mk.inj he
    refine hact _ _ ?_
    simp [Text.tsoExec, Access.tso, ha, Shared.buffered]

/-! ## Properties that last while the buffer drains -/

/-- `P` holds of the memory and the buffer, and of what they become as the
buffer drains. -/
def Always (write : ω → σ → σ) (P : σ → List ω → Prop) : σ → List ω → Prop
  | m, [] => P m []
  | m, w :: buf => P m (w :: buf) ∧ Always write P (write w m) buf

section Always

omit [DecidableEq ι]

variable {write : ω → σ → σ} {P Q : σ → List ω → Prop} {m : σ} {buf : List ω} {w : ω}

theorem Always.now (h : Always write P m buf) : P m buf := by
  cases buf with
  | nil => exact h
  | cons w buf => exact h.1

theorem Always.drain (h : Always write P m (w :: buf)) : Always write P (write w m) buf := h.2

/-- In the end, with everything drained. -/
theorem Always.last (h : Always write P m buf) : P (drained write m buf) [] := by
  induction buf generalizing m with
  | nil => exact h
  | cons w buf ih => exact ih h.2

theorem Always.imp (h : Always write P m buf)
    (hPQ : ∀ m' buf', drained write m' buf' = drained write m buf → P m' buf' → Q m' buf') :
    Always write Q m buf := by
  induction buf generalizing m with
  | nil => exact hPQ _ _ rfl h
  | cons w buf ih => exact ⟨hPQ _ _ rfl h.1, ih h.2 hPQ⟩

/-- **A store enters the buffer**: what held at every point of the drain has to
survive the longer buffer, and the new property has to hold at the end. -/
theorem Always.concat (h : Always write P m buf)
    (hPQ : ∀ m' buf', drained write m' buf' = drained write m buf → P m' buf' →
      Q m' (buf' ++ [w]))
    (hend : Q (write w (drained write m buf)) []) : Always write Q m (buf ++ [w]) := by
  induction buf generalizing m with
  | nil => exact ⟨hPQ _ _ rfl h, hend⟩
  | cons v buf ih => exact ⟨hPQ _ _ rfl h.1, ih h.2 hPQ hend⟩

/-- A change of the memory that no buffered store interferes with. -/
theorem Always.map {f : σ → σ} (hf : ∀ w m, write w (f m) = f (write w m))
    (hPQ : ∀ m' buf', P m' buf' → Q (f m') buf') (h : Always write P m buf) :
    Always write Q (f m) buf := by
  induction buf generalizing m with
  | nil => exact hPQ _ _ h
  | cons w buf ih =>
    refine ⟨hPQ _ _ h.1, ?_⟩
    rw [hf]
    exact ih h.2

theorem drained_map {f : σ → σ} (hf : ∀ w m, write w (f m) = f (write w m)) :
    drained write (f m) buf = f (drained write m buf) := by
  induction buf generalizing m with
  | nil => rfl
  | cons w buf ih => rw [drained_cons, drained_cons, hf, ih]

end Always

end FibConcurrent.Machine
