import FibConcurrent.MpscFifo.Invariant

/-!
# MpscFifo — the fifo over every interleaving

The thread-modular assertion of the whole program (`fifoAssertion`) puts the
fifo's invariant beside what the consumer knows: what it has taken is what it
has returned, plus the one datum in its hands between moving `head` and
returning; and a successful peek pins down what the next pop returns.
-/

namespace FibConcurrent.MpscFifo

open FibConcurrent.Machine FibConcurrent.Data

variable {ι ν α : Type*}

/-- `d` is linked behind the head: the next pop returns it. -/
def Upcoming (d : α) (f : Fifo ν α) : Prop := ∃ n, f.next f.head = some n ∧ f.data n = d

theorem Upcoming.keep {d : α} {f f' : Fifo ν α} {g g' : Ghost ι ν α} (h : Upcoming d f)
    (hh : KeepsHead f g f' g') : Upcoming d f' := by
  obtain ⟨n, hn, rfl⟩ := h
  obtain ⟨hn', hd⟩ := hh.next n hn
  exact ⟨n, by rw [hh.head, hn'], hd⟩

/-- The consumer outside a pop: everything taken is returned, and a peeked
datum is still the next one. -/
def ConsumerRests (m : Mem ν α) (g : Ghost ι ν α) : Prop :=
  g.out = m.popped ∧ ∀ d, m.peeked = some d → Upcoming d m.fifo

/-- A peeked datum, followed through a pop. -/
def PeekedFacts (peeked : Option α) (f : Fifo ν α) : PopPc ν α → Prop
  | .readHead | .readNext _ | .writeHead _ _ => ∀ d, peeked = some d → Upcoming d f
  | .readData _ n => ∀ d, peeked = some d → n = f.head ∧ f.data n = d
  | .writeData _ d' => ∀ d, peeked = some d → d' = d

def PeekFacts (f : Fifo ν α) : PeekPc ν → Prop
  | .readHead _ => True
  | .readNext _ h => f.head = h
  | .readData n => f.next f.head = some n

/-- The push a thread is in. -/
def Pc.pushing : Pc ν α → Option (PushPc ν)
  | .push pc => some pc
  | _ => none

/-- What thread `t` may rely on at each program point. -/
def callFacts (consumer t : ι) (m : Mem ν α) (g : Ghost ι ν α) : Pc ν α → Prop
  | .idle => t = consumer → ConsumerRests m g
  | .push pc => PushFacts t m.fifo g pc ∧ (t = consumer → ConsumerRests m g)
  | .trypop pc => t = consumer ∧ PopFacts t m.popped m.fifo g pc ∧ PeekedFacts m.peeked m.fifo pc
  | .trypopRet (some n) => t = consumer ∧ g.held n = some t ∧
      g.out = m.popped ++ [m.fifo.data n] ∧ ∀ d, m.peeked = some d → m.fifo.data n = d
  | .trypopRet none => t = consumer ∧ g.out = m.popped ∧ m.peeked = none
  | .peek pc => t = consumer ∧ ConsumerRests m g ∧ PeekFacts m.fifo pc
  | .peekRet r => t = consumer ∧ ConsumerRests m g ∧ ∀ d, r = some (some d) → Upcoming d m.fifo

def threadFacts (consumer t : ι) (m : Mem ν α) (g : Ghost ι ν α) (pc : Pc ν α) : Prop :=
  Owes t g pc.pushing ∧ callFacts consumer t m g pc

def fifoAssertion (consumer : ι) : Assertion ι (Mem ν α) (Ghost ι ν α) (Pc ν α) where
  shared m g := Inv m.fifo m.owned g
  thread := threadFacts consumer

section Keep

variable {f f' : Fifo ν α} {g g' : Ghost ι ν α} {m m' : Mem ν α} {t consumer : ι}

theorem ConsumerRests.keep (h : ConsumerRests m g) (hh : KeepsHead m.fifo g m'.fifo g')
    (hpop : m'.popped = m.popped) (hpeek : m'.peeked = m.peeked) : ConsumerRests m' g' := by
  refine ⟨by rw [hh.out, h.1, hpop], fun d hd => ?_⟩
  rw [hpeek] at hd
  exact (h.2 d hd).keep hh

theorem PeekedFacts.keep {peeked : Option α} {pc : PopPc ν α} (h : PeekedFacts peeked f pc)
    (hh : KeepsHead f g f' g') : PeekedFacts peeked f' pc := by
  cases pc with
  | readHead | readNext | writeHead => exact fun d hd => (h d hd).keep hh
  | readData p n =>
    intro d hd
    obtain ⟨hn, hdata⟩ := h d hd
    subst hn
    exact ⟨hh.head.symm, by rw [hh.data, hdata]⟩
  | writeData p d' => exact h

theorem PeekFacts.keep {pc : PeekPc ν} (h : PeekFacts f pc) (hh : KeepsHead f g f' g') :
    PeekFacts f' pc := by
  cases pc with
  | readHead => trivial
  | readNext w p => exact hh.head.trans h
  | readData n =>
    show f'.next f'.head = some n
    rw [hh.head]
    exact (hh.next n h).1

/-- A thread's facts survive what producers and clients do. -/
theorem threadFacts.keep {pc : Pc ν α} (h : threadFacts consumer t m g pc)
    (hk : Keeps t m.fifo g m'.fifo g') (hh : KeepsHead m.fifo g m'.fifo g')
    (hpop : m'.popped = m.popped) (hpeek : m'.peeked = m.peeked) :
    threadFacts consumer t m' g' pc := by
  obtain ⟨ho, h⟩ := h
  refine ⟨ho.keep hk, ?_⟩
  cases pc with
  | idle => exact fun hc => (h hc).keep hh hpop hpeek
  | push pc => exact ⟨h.1.keep hk, fun hc => (h.2 hc).keep hh hpop hpeek⟩
  | trypop pc =>
    obtain ⟨hc, hp, hpk⟩ := h
    refine ⟨hc, ?_, ?_⟩
    · rw [hpop]
      exact hp.keep hk hh
    · rw [hpeek]
      exact hpk.keep hh
  | trypopRet r =>
    cases r with
    | none => exact ⟨h.1, by rw [hh.out, h.2.1, hpop], by rw [hpeek, h.2.2]⟩
    | some n =>
      obtain ⟨hc, hheld, hout, hpk⟩ := h
      obtain ⟨hheld', -, hdata⟩ := hk.held n hheld
      exact ⟨hc, hheld', by rw [hh.out, hout, hpop, hdata], by rwa [hpeek, hdata]⟩
  | peek pc => exact ⟨h.1, h.2.1.keep hh hpop hpeek, h.2.2.keep hh⟩
  | peekRet r => exact ⟨h.1, h.2.1.keep hh hpop hpeek, fun d hd => (h.2.2 d hd).keep hh⟩

/-- A thread other than the consumer relies on its held node and its owed link
only. -/
theorem threadFacts.keep_of_ne {pc : Pc ν α} (h : threadFacts consumer t m g pc)
    (ht : t ≠ consumer) (hk : Keeps t m.fifo g m'.fifo g') : threadFacts consumer t m' g' pc := by
  obtain ⟨ho, h⟩ := h
  refine ⟨ho.keep hk, ?_⟩
  cases pc with
  | idle => exact fun hc => absurd hc ht
  | push pc => exact ⟨h.1.keep hk, fun hc => absurd hc ht⟩
  | trypopRet r => cases r <;> exact absurd h.1 ht
  | trypop | peek | peekRet => exact absurd h.1 ht

end Keep

/-! ## Every step keeps the assertion -/

theorem PeekFacts.step {pc : PeekPc ν} {f : Fifo ν α} (h : PeekFacts f pc) :
    (∀ pc', peekStep f pc = .inl pc' → PeekFacts f pc') ∧
      ∀ d, peekStep f pc = .inr (some (some d)) → Upcoming d f := by
  cases pc with
  | readHead w =>
    refine ⟨fun pc' he => ?_, fun d he => (by cases he)⟩
    cases he
    rfl
  | readNext w p =>
    have hp : f.head = p := h
    subst hp
    cases hn : f.next f.head with
    | none => simp [peekStep, hn]
    | some b => cases w <;> simp [peekStep, hn, PeekFacts]
  | readData n =>
    refine ⟨fun pc' he => (by cases he), fun d he => ?_⟩
    simp only [peekStep, Sum.inr.injEq, Option.some.injEq] at he
    exact ⟨n, h, he⟩

section Kept

variable [DecidableEq ν] {consumer t : ι} {m : Mem ν α} {g : Ghost ι ν α}

/-- A peeked datum stays pinned through the consumer's own accesses. -/
theorem PeekedFacts.step {pc : PopPc ν α} {done : List α} (hp : PopFacts t done m.fifo g pc)
    (h : PeekedFacts m.peeked m.fifo pc) :
    (∀ pc', (popStep m.fifo pc).2 = .inl pc' → PeekedFacts m.peeked (popStep m.fifo pc).1 pc') ∧
      ((popStep m.fifo pc).2 = .inr none → m.peeked = none) ∧
      (∀ n, (popStep m.fifo pc).2 = .inr (some n) →
        ∀ d, m.peeked = some d → (popStep m.fifo pc).1.data n = d) := by
  cases pc with
  | readHead =>
    refine ⟨fun pc' he => ?_, fun he => (by cases he), fun n he => (by cases he)⟩
    cases he
    exact h
  | readNext p =>
    obtain ⟨-, rfl⟩ := hp
    cases hn : m.fifo.next m.fifo.head with
    | none =>
      refine ⟨by simp [popStep, hn], fun _ => ?_, by simp [popStep, hn]⟩
      cases hpk : m.peeked with
      | none => rfl
      | some d =>
        obtain ⟨b, hb, -⟩ := h d hpk
        simp [hn] at hb
    | some b =>
      refine ⟨fun pc' he => ?_, by simp [popStep, hn], by simp [popStep, hn]⟩
      simp only [popStep, hn, Sum.inl.injEq] at he
      subst he
      intro d hd
      simpa [popStep, hn] using h d hd
  | writeHead p n =>
    obtain ⟨-, rfl, hn⟩ := hp
    refine ⟨fun pc' he => ?_, fun he => (by cases he), fun n he => (by cases he)⟩
    cases he
    intro d hd
    obtain ⟨b, hb, hdata⟩ := h d hd
    rw [hn, Option.some.injEq] at hb
    subst hb
    exact ⟨rfl, hdata⟩
  | readData p n =>
    refine ⟨fun pc' he => ?_, fun he => (by cases he), fun n he => (by cases he)⟩
    cases he
    exact fun d hd => (h d hd).2
  | writeData p d' =>
    refine ⟨fun pc' he => (by cases he), fun he => (by cases he), fun n he d hd => ?_⟩
    cases he
    simpa [popStep] using h d hd

variable [DecidableEq ι]

/-- **Every step of every thread keeps the assertion.** -/
theorem fifoAssertion_kept (consumer : ι) :
    (fifoAssertion (ν := ν) (α := α) consumer).Kept (fifoProgram consumer)
      (fun _ _ _ _ => True) := by
  intro t c m l m' l' g hI hL _ he
  have hstay : ∀ u, u ≠ t → ∀ k, threadFacts consumer u m g k → threadFacts consumer u m g k :=
    fun _ _ _ hk => hk
  obtain ⟨ho, hL⟩ := hL
  cases l with
  | idle =>
    cases c with
    | push n d =>
      simp only [fifoProgram, exec, Option.ite_none_right_eq_some, Option.some.injEq,
        Prod.mk.injEq] at he
      obtain ⟨hn, rfl, rfl⟩ := he
      obtain ⟨g', hI', hp, hk, hh⟩ := hI.acquire hn t d
      refine ⟨g', hI', ⟨fun a b hab => ?_, hp, fun hc => (hL hc).keep hh rfl rfl⟩,
        fun u _ k hu => hu.keep (hk u) hh rfl rfl⟩
      cases ho a b (((hk t).pend a b).mp hab)
    | trypop =>
      simp only [fifoProgram, exec, Option.ite_none_right_eq_some, Option.some.injEq,
        Prod.mk.injEq] at he
      obtain ⟨hc, rfl, rfl⟩ := he
      exact ⟨g, hI, ⟨ho, hc, (hL hc).1, (hL hc).2⟩, hstay⟩
    | peek w =>
      simp only [fifoProgram, exec, Option.ite_none_right_eq_some, Option.some.injEq,
        Prod.mk.injEq] at he
      obtain ⟨hc, rfl, rfl⟩ := he
      exact ⟨g, hI, ⟨ho, hc, hL hc, trivial⟩, hstay⟩
    | write n d x =>
      simp only [fifoProgram, exec, Option.ite_none_right_eq_some, Option.some.injEq,
        Prod.mk.injEq] at he
      obtain ⟨hn, rfl, rfl⟩ := he
      obtain ⟨hI', hk, hh⟩ := hI.write hn d x
      exact ⟨g, hI', ⟨ho, fun hc => (hL hc).keep hh rfl rfl⟩,
        fun u _ k hu => hu.keep (hk u) hh rfl rfl⟩
    | step => simp [fifoProgram, exec] at he
  | push pc =>
    simp only [fifoProgram, exec, Option.some.injEq, Prod.mk.injEq] at he
    obtain ⟨rfl, rfl⟩ := he
    obtain ⟨g', hI', hp, ho', hk, hh⟩ := pushStep_spec hI hL.1 ho
    refine ⟨g', hI', ?_, fun u hu k h => h.keep (hk u hu) hh rfl rfl⟩
    have hrest : t = consumer → ConsumerRests { m with fifo := (pushStep m.fifo pc).1 } g' :=
      fun hc => (hL.2 hc).keep hh rfl rfl
    cases hnext : (pushStep m.fifo pc).2 with
    | none =>
      rw [hnext] at ho'
      exact ⟨ho', hrest⟩
    | some pc' =>
      rw [hnext] at ho'
      exact ⟨ho', hp pc' hnext, hrest⟩
  | trypop pc =>
    simp only [fifoProgram, exec, Option.some.injEq, Prod.mk.injEq] at he
    obtain ⟨rfl, rfl⟩ := he
    obtain ⟨rfl, hp, hpk⟩ := hL
    obtain ⟨g', hI', hpend, hp', hk, hnull, hret⟩ := popStep_spec hI hp
    obtain ⟨hpk', hpknull, hpkret⟩ := hpk.step hp
    refine ⟨g', hI', ?_, fun u hu k h => h.keep_of_ne hu (hk u hu)⟩
    have hnone : Owes t g' none := fun a b hab => ho a b (hpend ▸ hab)
    cases hnext : (popStep m.fifo pc).2 with
    | inl pc' => exact ⟨hnone, rfl, hp' pc' hnext, hpk' pc' hnext⟩
    | inr r =>
      cases r with
      | none =>
        obtain ⟨hg, hout, -⟩ := hnull hnext
        exact ⟨hnone, rfl, hg ▸ hout, hpknull hnext⟩
      | some n =>
        obtain ⟨hheld, hout⟩ := hret n hnext
        exact ⟨hnone, rfl, hheld, hout, hpkret n hnext⟩
  | trypopRet r =>
    cases r with
    | none =>
      simp only [fifoProgram, exec, Option.some.injEq, Prod.mk.injEq] at he
      obtain ⟨rfl, rfl⟩ := he
      obtain ⟨rfl, hout, hpk⟩ := hL
      have hm : { m with peeked := none } = m := by rw [← hpk]
      rw [hm]
      exact ⟨g, hI, ⟨ho, fun _ => ⟨hout, by simp [hpk]⟩⟩, hstay⟩
    | some n =>
      simp only [fifoProgram, exec, Option.some.injEq, Prod.mk.injEq] at he
      obtain ⟨rfl, rfl⟩ := he
      obtain ⟨rfl, hheld, hout, -⟩ := hL
      obtain ⟨hI', hk⟩ := hI.release hheld
      exact ⟨_, hI', ⟨ho, fun _ => ⟨hout, by simp⟩⟩, fun u hu k h => h.keep_of_ne hu (hk u hu)⟩
  | peek pc =>
    simp only [fifoProgram, exec, Option.some.injEq, Prod.mk.injEq] at he
    obtain ⟨rfl, rfl⟩ := he
    obtain ⟨hc, hrest, hp⟩ := hL
    obtain ⟨hp', hret⟩ := hp.step
    refine ⟨g, hI, ?_, hstay⟩
    cases hnext : peekStep m.fifo pc with
    | inl pc' => exact ⟨ho, hc, hrest, hp' pc' hnext⟩
    | inr r => exact ⟨ho, hc, hrest, fun d hd => hret d (by rw [hnext, hd])⟩
  | peekRet r =>
    obtain ⟨hc, hrest, hret⟩ := hL
    rcases r with _ | _ | d
    · simp only [fifoProgram, exec, Option.some.injEq, Prod.mk.injEq] at he
      obtain ⟨rfl, rfl⟩ := he
      exact ⟨g, hI, ⟨ho, fun _ => hrest⟩, hstay⟩
    · simp only [fifoProgram, exec, Option.some.injEq, Prod.mk.injEq] at he
      obtain ⟨rfl, rfl⟩ := he
      exact ⟨g, hI, ⟨ho, fun _ => hrest⟩, hstay⟩
    · simp only [fifoProgram, exec, Option.some.injEq, Prod.mk.injEq] at he
      obtain ⟨rfl, rfl⟩ := he
      refine ⟨g, hI, ⟨ho, fun _ => ⟨hrest.1, fun d' hd' => ?_⟩⟩, fun u hu k h => ?_⟩
      · cases hd'
        exact hret d rfl
      · have hkeep : Keeps u m.fifo g m.fifo g :=
          ⟨fun n hn => ⟨hn, rfl, rfl⟩, fun _ _ => Iff.rfl⟩
        exact h.keep_of_ne (hc ▸ hu) hkeep

omit [DecidableEq ν] [DecidableEq ι] in
theorem fifoAssertion_init {s : Config ι (Mem ν α) (Pc ν α)} (h : Init s) (consumer : ι) :
    (fifoAssertion consumer).Holds s := by
  obtain ⟨htail, hnext, hpushed, howned, hpopped, hpeeked, hidle⟩ := h
  refine ⟨⟨[s.mem.fifo.head], fun _ => none, fun _ => none, []⟩, ?_, fun t => ?_⟩
  · refine ⟨rfl, by simp [htail], List.nodup_singleton _, ⟨hnext, rfl⟩, by simp [hpushed], by simp,
      fun n hn => ⟨?_, rfl⟩, by simp⟩
    rw [List.mem_singleton]
    rintro rfl
    simp [howned] at hn
  · rw [hidle t]
    exact ⟨fun a b hab => by simp at hab, fun _ => ⟨hpopped.symm, by simp [hpeeked]⟩⟩

end Kept

/-- What the consumer has returned is what it has taken, or all but the last
datum of it. -/
theorem popped_prefix_out {pc : Pc ν α} {consumer : ι} {m : Mem ν α} {g : Ghost ι ν α}
    (h : callFacts consumer consumer m g pc) : m.popped <+: g.out := by
  have heq : g.out = m.popped → m.popped <+: g.out := fun h => h ▸ List.prefix_refl _
  have happ : ∀ d, g.out = m.popped ++ [d] → m.popped <+: g.out :=
    fun d h => h ▸ List.prefix_append ..
  cases pc with
  | idle => exact heq (h rfl).1
  | push pc => exact heq (h.2 rfl).1
  | trypop pc =>
    obtain ⟨-, hp, -⟩ := h
    cases pc with
    | readHead => exact heq hp
    | readNext | writeHead => exact heq hp.1
    | readData | writeData => exact happ _ hp.1
  | trypopRet r =>
    cases r with
    | none => exact heq h.2.1
    | some n => exact happ _ h.2.2.1
  | peek pc => exact heq h.2.1.1
  | peekRet r => exact heq h.2.1.1

/-! ## The statement about runs -/

section Runs

variable [DecidableEq ι] [DecidableEq ν] {consumer : ι} {s : Config ι (Mem ν α) (Pc ν α)}
  {hist : List (Event ι (Config ι (Mem ν α) (Pc ν α)))}

theorem fifo_invariant (run : Run Init (fifoProgram consumer).Step s hist) :
    (fifoAssertion consumer).Holds s :=
  (fifoAssertion_kept consumer).run (fun _ h => fifoAssertion_init h consumer)
    (run.mono fun _ _ _ h => Program.stepIf_true.mpr h)

/-- Nothing is left between head and tail, or the producer whose node comes
next has swapped itself in as tail and not yet linked. -/
def EmptyOrUnlinked (s : Config ι (Mem ν α) (Pc ν α)) : Prop :=
  s.mem.fifo.tail = s.mem.fifo.head ∧ s.mem.popped = s.mem.fifo.pushed ∨
    ∃ t n, s.loc t = .push (.linkNext s.mem.fifo.head n)

/-- No pointer of the fifo leads to `n`: not head, not tail, and not the
`prev_tail` that a producer is about to write through. -/
def Unreachable (s : Config ι (Mem ν α) (Pc ν α)) (n : ν) : Prop :=
  ¬ Reaches s.mem.fifo.next s.mem.fifo.head n ∧ ¬ Reaches s.mem.fifo.next s.mem.fifo.tail n ∧
    ∀ t p b, s.loc t = .push (.linkNext p b) → ¬ Reaches s.mem.fifo.next p n

/-- The access at which a pop finds the fifo empty. -/
theorem emptyOrUnlinked_of_null {s s' : Config ι (Mem ν α) (Pc ν α)}
    (hA : (fifoAssertion consumer).Holds s) (hs : (fifoProgram consumer).Step consumer s s')
    (hret : s'.loc consumer = .trypopRet none) : EmptyOrUnlinked s := by
  obtain ⟨g, hI, hL⟩ := hA
  obtain ⟨c, he⟩ := hs.exec
  obtain ⟨-, hloc⟩ := hL consumer
  rw [hret] at he
  cases hl : s.loc consumer with
  | trypop pc =>
    rw [hl] at he hloc
    simp only [fifoProgram, exec, Option.some.injEq, Prod.mk.injEq] at he
    obtain ⟨-, hp, -⟩ := hloc
    obtain ⟨g', -, -, -, -, hnull, -⟩ := popStep_spec hI hp
    have hr : (popStep s.mem.fifo pc).2 = .inr none := by
      cases h : (popStep s.mem.fifo pc).2 with
      | inl pc' => simp [h] at he
      | inr r => simpa [h] using he.2
    obtain ⟨-, hout, hn⟩ := hnull hr
    rcases hI.null_head hn with ⟨htail, hall⟩ | ⟨t, n, hp⟩
    · exact .inl ⟨htail, by rw [hall, hout]⟩
    · right
      have how := (hL t).1 _ _ hp
      refine ⟨t, n, ?_⟩
      cases hlt : s.loc t with
      | push pc' => simpa [Pc.pushing, hlt] using how
      | _ => simp [Pc.pushing, hlt] at how
  | idle => cases c <;> simp [hl, fifoProgram, exec] at he
  | push pc =>
    rw [hl] at he
    simp only [fifoProgram, exec, Option.some.injEq, Prod.mk.injEq] at he
    cases h : (pushStep s.mem.fifo pc).2 <;> simp [h] at he
  | peek pc =>
    rw [hl] at he
    simp only [fifoProgram, exec, Option.some.injEq, Prod.mk.injEq] at he
    cases h : peekStep s.mem.fifo pc <;> simp [h] at he
  | trypopRet r => cases r <;> simp [hl, fifoProgram, exec] at he
  | peekRet r => rcases r with _ | _ | d <;> simp [hl, fifoProgram, exec] at he

theorem null_during (run : Run Init (fifoProgram consumer).Step s hist)
    (hret : s.loc consumer = .trypopRet none) :
    During (fun s => s.loc consumer ≠ .idle) (fun e => EmptyOrUnlinked e.pre) hist := by
  refine Run.during_of_local (· = .trypopRet none) (· ≠ .idle) ?_ ?_ ?_ ?_
    (run.mono fun _ _ _ h => Program.stepIf_true.mpr h) hret
  · intro s h0 hm
    rw [h0.2.2.2.2.2.2 consumer] at hm
    cases hm
  · intro c m l m' l' he hl' hl
    subst hl hl'
    cases c <;> simp [fifoProgram, exec] at he
  · intro l hl
    simp [hl]
  · intro s s' ⟨hist, hr⟩ hs _ hm
    have hr' := hr.mono fun _ _ _ h => Program.stepIf_true.mp h
    exact emptyOrUnlinked_of_null (fifo_invariant hr') hs.2 hm

/-- The fifo's promises in state `s`, reached by the history `hist`. -/
structure FifoPromise (consumer : ι) (s : Config ι (Mem ν α) (Pc ν α))
    (hist : List (Event ι (Config ι (Mem ν α) (Pc ν α)))) : Prop where
  /-- The data returned by pops are a prefix of the data pushed, in the order
  of the tail exchanges. -/
  returned : s.mem.popped <+: s.mem.fifo.pushed
  /-- So is the datum a pop is about to return, behind those before it. -/
  returning : ∀ n, s.loc consumer = .trypopRet (some n) →
    s.mem.popped ++ [s.mem.fifo.data n] <+: s.mem.fifo.pushed
  /-- A node that a pop returns, or that a client holds, is out of reach. -/
  unreachable : ∀ n, s.mem.owned n = true ∨ s.loc consumer = .trypopRet (some n) →
    Unreachable s n
  /-- A pop that returns null found the fifo empty, or waiting for the link of
  the producer next after the head, at some instant of the call. -/
  null : s.loc consumer = .trypopRet none →
    During (fun s => s.loc consumer ≠ .idle) (fun e => EmptyOrUnlinked e.pre) hist
  /-- After a peek that reported `d`, the next pop returns a node with `d`. -/
  peeked : ∀ d r, s.mem.peeked = some d → s.loc consumer = .trypopRet r →
    ∃ n, r = some n ∧ s.mem.fifo.data n = d

end Runs

end FibConcurrent.MpscFifo
