import FibConcurrent.WorkStealingDeque.Access
import FibConcurrent.WorkStealingDeque.Calls

/-!
# WorkStealingDeque — on the store buffers of x86

`wsd_work_stealing_deque_pop_bottom` relies on its store of `bottom` being in
memory before it loads `top`, and asks `store_load_barrier` for that. For
`ARCH_x86_64` the barrier is empty, and the deque hands an element out twice
(`wsd_takes_twice`). In every run in which the owner's buffer happens to be
empty at that load, it does not (`wsd_exactly_once_tso`); with the barrier of
`ARCH_x86` that is every run (`drained_of_x86`).
-/

namespace FibConcurrent.WorkStealingDeque

open FibConcurrent.Machine FibConcurrent.Data

variable {ι α : Type*} [DecidableEq ι] [DecidableEq α] {arch : Arch} {owner : ι}

/-- The whole state of the deque under total store order. -/
abbrev Tso (ι α : Type*) := Buffered ι (Memory α) (Store α) (DequeOp α)

/-- The memory as the owner sees it. -/
def view (owner : ι) (s : Tso ι α) : Memory α := drained write s.mem (s.buf owner)

structure ThreadFacts (owner t : ι) (s : Tso ι α) (g : Ghost α) (pc : Pc α) : Prop where
  own : t = owner → OwnerFacts (view owner s) g pc
  steal : t ≠ owner → ThiefFacts s.mem (s.buf owner) g pc

def dequeAssertion (owner : ι) : Assertion ι (Tso ι α) (Ghost α) (Pc α) where
  shared s g := (∀ u, u ≠ owner → s.buf u = []) ∧ Inv s.mem (s.buf owner) s.log g
  thread := ThreadFacts owner

section Step

variable {s s' : Tso ι α} {g : Ghost α} {pc pc' : Pc α}

/-- The owner's accesses, put together. -/
theorem ownerAccess_spec {c : Choice α} {a : Step α (Pc α)} {m : Memory α}
    {buf : List (Store α)} {log : List (DequeOp α)} (hI : Inv m buf log g)
    (hp : OwnerFacts (drained write m buf) g pc) (hdrained : pc.readsTop = true → buf = [])
    (ha : access arch owner owner c pc = some a) : OwnerOk m buf log g OwnerFacts a := by
  cases pc with
  | idle =>
    cases c <;> simp only [access, if_true, Option.some.injEq, reduceCtorEq] at ha
    all_goals
      subst ha
      exact hp
  | push autogrow p pc =>
    cases Option.some.inj ha
    apply OwnerOk.map
    refine (pushStep_spec hI hp).imp fun v g r hr => ?_
    cases r <;> exact hr
  | grow pc =>
    cases Option.some.inj ha
    apply OwnerOk.map
    refine (growDequeStep_spec hI hp).imp fun v g r hr => ?_
    cases r <;> exact hr
  | pop pc =>
    cases Option.some.inj ha
    apply OwnerOk.map
    refine (popStep_spec hI hp fun b a h => hdrained (by rw [h]; rfl)).imp fun v g r hr => ?_
    cases r <;> exact hr
  | steal pc => exact hp.elim
  | _ =>
    cases Option.some.inj ha
    exact hp

/-- What an access of the owner establishes is what its step leads to. -/
theorem OwnerOk.step {a : Step α (Pc α)} {Q : Memory α → Ghost α → Pc α → Prop}
    (hI : Inv s.mem (s.buf owner) s.log g) (h : OwnerOk s.mem (s.buf owner) s.log g Q a)
    (he : Access.tso write owner s a = some (s', pc')) :
    ∃ g', Inv s'.mem (s'.buf owner) s'.log g' ∧
      KeepsSteal s.mem (s.buf owner) g s'.mem (s'.buf owner) g' ∧ Q (view owner s') g' pc' ∧
      ∀ u, u ≠ owner → s'.buf u = s.buf u := by
  cases a with
  | load k =>
    obtain ⟨g', hI, hk, hq⟩ := h
    cases he
    exact ⟨g', hI, hk, hq, fun _ _ => rfl⟩
  | store w l ops =>
    obtain ⟨g', hI, hk, hq⟩ := h
    cases he
    refine ⟨g', ?_, ?_, ?_, fun u hu => Function.update_of_ne hu ..⟩
    · simpa using hI
    · simpa using hk
    · simpa [view] using hq
  | rmw k =>
    obtain ⟨hbuf, he⟩ := Option.ite_none_right_eq_some.mp he
    rw [List.isEmpty_iff] at hbuf
    obtain ⟨g', hI, hk, hq⟩ := h hbuf
    cases he
    refine ⟨g', ?_, ?_, ?_, fun _ _ => rfl⟩
    · rw [hbuf]
      exact hI
    · rw [hbuf]
      exact hk
    · unfold view
      rw [hbuf]
      exact hq
  | fence l =>
    obtain ⟨-, he⟩ := Option.ite_none_right_eq_some.mp he
    cases he
    exact ⟨g, hI, keepsSteal_same rfl fun h => h, h, fun _ _ => rfl⟩
  | skip l =>
    cases he
    exact ⟨g, hI, keepsSteal_same rfl fun h => h, h, fun _ _ => rfl⟩

/-- One step of a thief: it takes the first element, or changes nothing. -/
theorem thief_step {t : ι} {c : Choice α} {a : Step α (Pc α)} (ht : t ≠ owner)
    (hI : Inv s.mem (s.buf owner) s.log g) (hbuf : s.buf t = [])
    (hp : ThiefFacts s.mem (s.buf owner) g pc) (ha : access arch owner t c pc = some a)
    (he : Access.tso write t s a = some (s', pc')) :
    s'.buf = s.buf ∧ Inv s'.mem (s.buf owner) s'.log g ∧
      KeepsSteal s.mem (s.buf owner) g s'.mem (s.buf owner) g ∧
      ThiefFacts s'.mem (s.buf owner) g pc' ∧
      ∃ top, s.mem.top ≤ top ∧ s'.mem = s.mem.setTop top := by
  have hsame : KeepsSteal s.mem (s.buf owner) g s.mem (s.buf owner) g :=
    keepsSteal_same rfl fun h => h
  have hself : ∃ top, s.mem.top ≤ top ∧ s.mem = s.mem.setTop top := ⟨_, Int.le_refl _, rfl⟩
  cases pc with
  | idle =>
    cases c <;> simp only [access, if_neg ht, Option.some.injEq, reduceCtorEq] at ha
    subst ha
    cases he
    exact ⟨rfl, hI, hsame, trivial, hself⟩
  | push autogrow p pc => exact hp.elim
  | grow pc => exact hp.elim
  | pop pc => exact hp.elim
  | steal pc =>
    cases Option.some.inj ha
    cases hstep : stealStep pc with
    | load k =>
      obtain ⟨hlog, hfacts⟩ := stealStep_load hI hp hstep
      rw [hstep] at he
      simp only [Access.map, Access.tso, hbuf, drained_nil, hlog, List.append_nil] at he
      cases he
      refine ⟨rfl, hI, hsame, ?_, hself⟩
      cases hr : (k s.mem).1 with
      | inl pc' =>
        rw [hr] at hfacts
        exact hfacts
      | inr r => trivial
    | skip r =>
      rw [hstep] at he
      cases he
      cases pc <;> cases hstep
      exact ⟨rfl, hI, hsame, hp, hself⟩
    | rmw k =>
      rw [hstep] at he
      obtain ⟨-, he⟩ := Option.ite_none_right_eq_some.mp he
      cases pc with
      | swapTop t ret =>
        cases hstep
        obtain ⟨htop, hret⟩ := hp
        by_cases hcas : s.mem.top = t
        · obtain ⟨hfree, rfl⟩ := hret hcas
          subst hcas
          have hlimit := hI.window.free
          obtain ⟨hI', hk⟩ := hI.advance hfree (dequeApply_steal (by omega))
          simp only [if_true] at he
          cases he
          exact ⟨rfl, hI', hk, trivial, _, Int.le_add_one (Int.le_refl _), rfl⟩
        · simp only [if_neg hcas, List.append_nil] at he
          cases he
          exact ⟨rfl, hI, hsame, trivial, hself⟩
      | _ => cases hstep
    | store w r ops => cases pc <;> cases hstep
    | fence r => cases pc <;> cases hstep
  | _ =>
    cases Option.some.inj ha
    cases he
    exact ⟨rfl, hI, hsame, trivial, hself⟩

end Step

/-- **Every step keeps the assertion**, if no pop loads `top` with its store of
`bottom` still in the buffer. -/
theorem dequeAssertion_kept :
    (dequeAssertion (α := α) owner).Kept (dequeText arch owner).tso Drained := by
  intro t c s pc s' pc' g hS hT hok he
  obtain ⟨hthieves, hI⟩ := hS
  cases c with
  | drain =>
    cases hbuf : s.buf t with
    | nil => simp [Text.tso, Text.tsoExec, hbuf] at he
    | cons w rest =>
      simp only [Text.tso, Text.tsoExec, hbuf, Option.some.injEq, Prod.mk.injEq] at he
      obtain ⟨rfl, rfl⟩ := he
      by_cases ht : t = owner
      · subst ht
        rw [hbuf] at hI
        obtain ⟨hI', hk⟩ := hI.drain
        have hview : view t ⟨write w s.mem, Function.update s.buf t rest, s.log⟩ = view t s := by
          simp [view, hbuf]
        refine ⟨g, ⟨fun u hu => ?_, ?_⟩, ⟨fun _ => ?_, fun h => absurd rfl h⟩,
          fun u hu k hk' => ⟨fun h => absurd h hu, fun _ => ?_⟩⟩
        · show Function.update s.buf t rest u = []
          rw [Function.update_of_ne hu]
          exact hthieves u hu
        · show Inv (write w s.mem) (Function.update s.buf t rest t) s.log g
          rw [Function.update_self]
          exact hI'
        · rw [show (dequeText arch t).write = write from rfl, hview]
          exact hT.own rfl
        · have hk'' := hk'.steal hu
          rw [hbuf] at hk''
          show ThiefFacts (write w s.mem) (Function.update s.buf t rest t) g k
          rw [Function.update_self]
          exact hk''.keep hk
      · rw [hthieves t ht] at hbuf
        cases hbuf
  | act c =>
    obtain ⟨a, ha, he⟩ := Option.bind_eq_some_iff.mp he
    by_cases ht : t = owner
    · subst ht
      have hdrained : pc.readsTop = true → s.buf t = [] := by
        intro hr
        refine hok hr ?_
        cases pc with
        | pop pc =>
          cases pc with
          | readTop b a =>
            cases ha
            cases he
            rfl
          | _ => cases hr
        | _ => cases hr
      obtain ⟨g', hI', hk, hT', hbuf⟩ :=
        (ownerAccess_spec hI (hT.own rfl) hdrained ha).step hI he
      refine ⟨g', ⟨fun u hu => ?_, hI'⟩, ⟨fun _ => hT', fun h => absurd rfl h⟩,
        fun u hu k hk' => ⟨fun h => absurd h hu, fun _ => (hk'.steal hu).keep hk⟩⟩
      rw [hbuf u hu]
      exact hthieves u hu
    · obtain ⟨hbuf, hI', hk, hT', top, htop, hmem⟩ :=
        thief_step ht hI (hthieves t ht) (hT.steal ht) ha he
      rw [← hbuf] at hthieves
      refine ⟨g, ⟨hthieves, by rw [hbuf]; exact hI'⟩,
        ⟨fun h => absurd h ht, fun _ => by rw [hbuf]; exact hT'⟩,
        fun u hu k hk' => ⟨fun huo => ?_, fun huo => ?_⟩⟩
      · unfold view
        rw [hbuf, hmem, drained_setTop]
        exact (hk'.own huo).setTop (by rw [view, top_drained]; exact htop)
      · rw [hbuf]
        exact (hk'.steal huo).keep hk

omit [DecidableEq ι] in
theorem dequeAssertion_init {s : Config ι (Tso ι α) (Pc α)} (h : InitTso s) :
    (dequeAssertion owner).Holds s := by
  obtain ⟨⟨logSize, garbage, hlog, hmem⟩, hidle⟩ := h
  obtain ⟨mem, loc⟩ := s
  subst hmem
  refine ⟨⟨fun _ => garbage 0 0, 0, 0⟩, ⟨fun _ _ => rfl, ?_, ?_, ?_⟩, fun t => ?_⟩
  · exact replays_nil.mpr (segment_self _ _).symm
  · refine ⟨?_, Int.le_refl _, Int.le_refl _, Int.le_refl _, ?_, fun i h0 hi => ?_⟩
    · show max logSize 8 < 31
      omega
    · show (0 : Int) - 0 ≤ 2 ^ max logSize 8 - 1
      have := Int.pow_pos (n := 2) (by omega) (m := max logSize 8)
      omega
    · have h0' : (0 : Int) ≤ i := h0
      have hi' : i < 0 := hi
      omega
  · refine ⟨Int.le_refl _, fun i h0 hi => ?_⟩
    have h0' : (0 : Int) ≤ i := h0
    have hi' : i < 0 := hi
    omega
  · have hloc : loc t = .idle := hidle t
    show ThreadFacts owner t _ _ (loc t)
    rw [hloc]
    exact ⟨fun _ => ⟨rfl, rfl⟩, fun _ => trivial⟩

/-! ## Runs -/

section Runs

variable {s : Config ι (Tso ι α) (Pc α)} {hist : List (Event ι (Config ι (Tso ι α) (Pc α)))}

/-- A deque that hands nothing out twice, in state `s` reached by `hist`. -/
structure TsoPromise (owner : ι) (s : Config ι (Tso ι α) (Pc α))
    (hist : List (Event ι (Config ι (Tso ι α) (Pc α)))) : Prop where
  /-- What has been returned was pushed, and nothing was returned twice. -/
  once : (takes s.mem.log).Subperm (pushes s.mem.log)
  /-- The log is what the calls have done: each call that has returned an element has written the
  entry of that element, once and at one instant of the call. -/
  calls : LinearizableTo (dequeLog α) (dequeInterface.trace hist) s.mem.log
  /-- When a pop loads `top`, its store of `bottom` is in the memory. -/
  visible : ∀ e ∈ hist, e.tid = owner → ∀ b a, e.pre.loc owner = .pop (.readTop b a) →
    e.post.loc owner ≠ e.pre.loc owner → e.pre.mem.mem.bottom = b

/-- The load of `top` leaves the buffers as they are. -/
theorem buf_of_readTop {t : Config ι (Tso ι α) (Pc α)} {b : Int} {a : Nat}
    (hs : (dequeText arch owner).tso.Step owner s t) (hpc : s.loc owner = .pop (.readTop b a))
    (hne : t.loc owner ≠ s.loc owner) : t.mem.buf owner = s.mem.buf owner := by
  obtain ⟨c, he⟩ := hs.exec
  cases c with
  | drain =>
    simp only [Text.tso, Text.tsoExec] at he
    split at he
    · simp only [Option.some.injEq, Prod.mk.injEq] at he
      exact absurd he.2.symm hne
    · cases he
  | act c =>
    obtain ⟨a, ha, he⟩ := Option.bind_eq_some_iff.mp he
    rw [hpc] at ha
    cases ha
    simp only [Access.map, popStep, Access.tso, Option.some.injEq, Prod.mk.injEq] at he
    rw [← he.1]

/-- **Exactly once on the store buffers of x86**, in every run in which the
owner's buffer is empty whenever a pop loads `top`. -/
theorem wsd_exactly_once_tso
    (run : Run InitTso ((dequeText arch owner).tso.StepIf Drained) s hist) :
    TsoPromise owner s hist := by
  constructor
  case once =>
    obtain ⟨g, ⟨-, hI⟩, -⟩ := dequeAssertion_kept.run (fun _ h => dequeAssertion_init h) run
    exact hI.log.takes_subperm
  case calls => exact linearizableTo_log_tso run
  case visible =>
    rintro e he rfl b a hpc hne
    obtain ⟨⟨hok, hs⟩, hist', run'⟩ := run.of_mem he
    obtain ⟨g, -, hT⟩ := dequeAssertion_kept.run (fun _ h => dequeAssertion_init h) run'
    have hbuf : e.pre.mem.buf e.tid = [] :=
      hok (by rw [hpc]; rfl) (buf_of_readTop hs hpc hne)
    have hown := (hT e.tid).own rfl
    rw [hpc] at hown
    obtain ⟨-, hb, -⟩ := hown
    rw [hb, view, hbuf, drained_nil]

/-! ## With the barrier of `ARCH_x86` -/

/-- The fence in front of the load of `top` waits for the buffer to drain. -/
theorem buf_of_readsTop {t : ι} {c : Choice α} {a : Step α (Pc α)} {m m' : Tso ι α}
    {pc pc' : Pc α} (ha : access .x86 owner t c pc = some a)
    (he : Access.tso write t m a = some (m', pc')) (hr : pc'.readsTop = true) :
    m'.buf t = [] := by
  cases pc with
  | idle =>
    cases c <;> simp only [access, Option.ite_none_right_eq_some, Option.ite_none_left_eq_some,
      Option.some.injEq, reduceCtorEq] at ha
    all_goals
      obtain ⟨-, rfl⟩ := ha
      cases he
      cases hr
  | push autogrow p pc =>
    cases Option.some.inj ha
    rw [Access.tso_map] at he
    obtain ⟨⟨m₁, r⟩, -, he⟩ := Option.map_eq_some_iff.mp he
    cases he
    cases r <;> cases hr
  | grow pc =>
    cases Option.some.inj ha
    rw [Access.tso_map] at he
    obtain ⟨⟨m₁, r⟩, -, he⟩ := Option.map_eq_some_iff.mp he
    cases he
    cases r <;> cases hr
  | steal pc =>
    cases Option.some.inj ha
    rw [Access.tso_map] at he
    obtain ⟨⟨m₁, r⟩, -, he⟩ := Option.map_eq_some_iff.mp he
    cases he
    cases r <;> cases hr
  | pop pc =>
    cases Option.some.inj ha
    cases pc with
    | barrier b a =>
      obtain ⟨hbuf, he⟩ := Option.ite_none_right_eq_some.mp he
      cases he
      exact List.isEmpty_iff.mp hbuf
    | readTop b a =>
      cases he
      dsimp only at hr
      split at hr <;> cases hr
    | get b a t₀ =>
      cases he
      dsimp only at hr
      split at hr <;> cases hr
    | swapTop t₀ ret =>
      obtain ⟨-, he⟩ := Option.ite_none_right_eq_some.mp he
      cases he
      dsimp only at hr
      split at hr <;> cases hr
    | _ =>
      cases he
      cases hr
  | _ =>
    cases Option.some.inj ha
    cases he
    cases hr

/-- **With the fence every run meets the condition.** -/
theorem drained_of_x86 (run : Run InitTso (dequeText .x86 owner).tso.Step s hist) :
    Run InitTso ((dequeText .x86 owner).tso.StepIf Drained) s hist := by
  have hinv : ∀ {s : Config ι (Tso ι α) (Pc α)} {hist},
      Run InitTso (dequeText .x86 owner).tso.Step s hist →
        ∀ t, (s.loc t).readsTop = true → s.mem.buf t = [] := by
    intro s hist run
    refine run.invariant (I := fun s => ∀ t, (s.loc t).readsTop = true → s.mem.buf t = [])
      (fun s h0 t hr => ?_) fun t s s' ih hs u hr => ?_
    · rw [h0.2 t] at hr
      cases hr
    · obtain ⟨c, he⟩ := hs.exec
      cases c with
      | drain =>
        cases hbuf : s.mem.buf t with
        | nil => simp [Text.tso, Text.tsoExec, hbuf] at he
        | cons w rest =>
          simp only [Text.tso, Text.tsoExec, hbuf, Option.some.injEq, Prod.mk.injEq] at he
          by_cases hu : u = t
          · subst hu
            rw [← he.2] at hr
            rw [ih u hr] at hbuf
            cases hbuf
          · rw [hs.loc_of_ne hu] at hr
            rw [← he.1]
            exact (Function.update_of_ne hu ..).trans (ih u hr)
      | act c =>
        obtain ⟨a, ha, he⟩ := Option.bind_eq_some_iff.mp he
        by_cases hu : u = t
        · subst hu
          exact buf_of_readsTop ha he hr
        · rw [hs.loc_of_ne hu] at hr
          exact (Access.tso_buf_of_ne he hu).trans (ih u hr)
  induction run with
  | start h => exact .start h
  | next run h ih => exact ih.next ⟨fun hr _ => hinv run _ hr, h⟩

end Runs

/-- After `wsd_work_stealing_deque_create(8)`. -/
def initialTso : Config Nat (Tso Nat Nat) (Pc Nat) where
  mem := ⟨created 8 fun _ _ => 0, fun _ => [], []⟩
  loc _ := .idle

theorem initialTso_init : InitTso initialTso :=
  ⟨⟨8, fun _ _ => 0, by omega, rfl⟩, fun _ => rfl⟩

/-- The owner pushes 7 and 8, and both stores of each push drain. -/
def pushTwo : List (Nat × TsoChoice (Choice Nat)) :=
  List.flatten [[(0, .act (.push false 7))], List.replicate 7 (0, .act .step),
    List.replicate 2 (0, .drain), [(0, .act (.push false 8))], List.replicate 7 (0, .act .step),
    List.replicate 2 (0, .drain)]

/-- The owner pops 8 once its store of `bottom` has drained, and a thief that
has read `top` before takes 7. -/
theorem wsd_exactly_once_tso_drained :
    ∃ (s : Config Nat (Tso Nat Nat) (Pc Nat)) (hist : _),
      Run InitTso ((dequeText .x86_64 0).tso.StepIf Drained) s hist ∧
        takes s.mem.log = [8, 7] ∧ TsoPromise 0 s hist := by
  have hstart : Run InitTso ((dequeText (ι := Nat) (α := Nat) .x86_64 0).tso.StepIf Drained)
      initialTso [] := .start initialTso_init
  obtain ⟨s, hist, run, htakes⟩ := hstart.exists_of_scheduleIf
    (q := fun s => takes s.mem.log = [8, 7])
    (List.flatten [pushTwo, [(1, .act .steal), (1, .act .step), (0, .act .pop)],
      List.replicate 3 (0, .act .step), [(0, .drain)], List.replicate 3 (0, .act .step),
      List.replicate 5 (1, .act .step)])
    (by decide +kernel)
  exact ⟨s, hist, run, htakes, wsd_exactly_once_tso run⟩

/-- **An element is handed out twice**: the owner's pop reads `top` while its
store of `bottom` is still buffered and returns 8 without a CAS. Two thieves
then take 7 and, with the old `bottom`, 8. -/
theorem wsd_takes_twice : ¬ ∀ (s : Config Nat (Tso Nat Nat) (Pc Nat)) hist,
    Run InitTso (dequeText .x86_64 0).tso.Step s hist → TsoPromise 0 s hist := by
  intro hclaim
  have hstart : Run InitTso (dequeText (ι := Nat) (α := Nat) .x86_64 0).tso.Step initialTso [] :=
    .start initialTso_init
  obtain ⟨s, hist, run, hpushes, htakes⟩ := hstart.exists_of_schedule
    (q := fun s => pushes s.mem.log = [7, 8] ∧ takes s.mem.log = [8, 7, 8])
    (List.flatten [pushTwo, [(0, .act .pop)], List.replicate 6 (0, .act .step),
      [(1, .act .steal)], List.replicate 6 (1, .act .step), [(2, .act .steal)],
      List.replicate 6 (2, .act .step)])
    (by decide +kernel)
  have honce := (hclaim s hist run).once.length_le
  rw [hpushes, htakes] at honce
  exact absurd honce (by decide)

end FibConcurrent.WorkStealingDeque
