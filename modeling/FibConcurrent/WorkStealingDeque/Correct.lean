import FibConcurrent.WorkStealingDeque.TotalStoreOrder

/-!
# WorkStealingDeque — exactly once

Under sequential consistency the owner's buffer is always empty, so what every
drained run keeps holds of every run. The log is that of a deque, and its entries are
what the calls return (`WorkStealingDeque.Calls`). The rest looks back into calls: a push
that returns -1 has stored nothing, an abort is another thread's success, and a
steal that finds nothing has seen `bottom` at or below `top`.
-/

namespace FibConcurrent.WorkStealingDeque

open FibConcurrent.Machine FibConcurrent.Data

variable {ι α : Type*} [DecidableEq ι] [DecidableEq α] {arch : Arch} {owner : ι}

/-- The whole state of the deque under sequential consistency. -/
abbrev Sc (α : Type*) := Shared (Memory α) (DequeOp α)

theorem dequeAssertion_kept_sc :
    (dequeAssertion (α := α) owner).onShared.Kept (dequeText arch owner).sc
      (fun _ _ _ _ => True) := by
  refine Text.sc_kept dequeAssertion_kept fun t m pc m' h _ hsame => ?_
  rcases h with h | h
  · exact h
  · rw [hsame] at h
    exact absurd rfl h

omit [DecidableEq ι] in
theorem dequeAssertion_init_sc {s : Config ι (Sc α) (Pc α)} (h : InitSc s) :
    (dequeAssertion owner).onShared.Holds s := by
  obtain ⟨⟨logSize, garbage, hlog, hmem⟩, hidle⟩ := h
  exact dequeAssertion_init (s := ⟨s.mem.buffered, s.loc⟩)
    ⟨⟨logSize, garbage, hlog, by rw [hmem]; rfl⟩, hidle⟩

/-! ## One step -/

section Step

variable {m m' : Sc α} {t : ι} {c : Choice α} {pc pc' : Pc α}

/-- No access takes `top` back. -/
def TopGrows {ℓ : Type*} : Step α ℓ → Prop
  | .rmw k => ∀ m, m.top ≤ (k m).1.top
  | _ => True

omit [DecidableEq α] in
theorem TopGrows.map {ℓ ℓ' : Type*} {f : ℓ → ℓ'} {a : Step α ℓ} (h : TopGrows a) :
    TopGrows (a.map f) := by
  cases a <;> exact h

theorem topGrows_popStep (pc : PopPc α) : TopGrows (popStep arch pc) := by
  cases pc with
  | barrier b a => cases arch <;> trivial
  | swapTop t ret =>
    intro m
    dsimp only
    split
    · show m.top ≤ t + 1
      omega
    · exact Int.le_refl _
  | _ => trivial

omit [DecidableEq α] in
theorem topGrows_stealStep (pc : StealPc α) : TopGrows (stealStep pc) := by
  cases pc with
  | swapTop t ret =>
    intro m
    dsimp only
    split
    · show m.top ≤ t + 1
      omega
    · exact Int.le_refl _
  | _ => trivial

omit [DecidableEq α] in
theorem topGrows_growStep (malloc : Bool) (pc : GrowPc α) : TopGrows (growStep malloc pc) := by
  cases pc <;> trivial

omit [DecidableEq α] in
theorem topGrows_pushStep (malloc autogrow : Bool) (p : α) (pc : PushPc α) :
    TopGrows (pushStep malloc autogrow p pc) := by
  cases pc with
  | grow b pc =>
    rw [pushStep]
    exact (topGrows_growStep malloc pc).map
  | _ => trivial

omit [DecidableEq α] in
theorem topGrows_growDequeStep (malloc : Bool) (pc : GrowDequePc α) :
    TopGrows (growDequeStep malloc pc) := by
  cases pc with
  | grow old pc =>
    rw [growDequeStep]
    exact (topGrows_growStep malloc pc).map
  | _ => trivial

theorem top_le_of_exec (he : (dequeText arch owner).scExec t c m pc = some (m', pc')) :
    m.mem.top ≤ m'.mem.top := by
  obtain ⟨a, ha, he⟩ := Option.map_eq_some_iff.mp he
  have hgrows : TopGrows a := by
    have ha : access arch owner t c pc = some a := ha
    cases pc with
    | idle =>
      cases c <;> simp only [access, Option.ite_none_right_eq_some, Option.ite_none_left_eq_some,
        Option.some.injEq, reduceCtorEq] at ha
      all_goals
        obtain ⟨-, rfl⟩ := ha
        trivial
    | push autogrow p pc =>
      cases Option.some.inj ha
      exact (topGrows_pushStep c.malloc autogrow p pc).map
    | grow pc =>
      cases Option.some.inj ha
      exact (topGrows_growDequeStep c.malloc pc).map
    | pop pc =>
      cases Option.some.inj ha
      exact (topGrows_popStep pc).map
    | steal pc =>
      cases Option.some.inj ha
      exact (topGrows_stealStep pc).map
    | _ =>
      cases Option.some.inj ha
      trivial
  cases a with
  | store w l ops =>
    cases he
    exact Int.le_of_eq (top_write w m.mem).symm
  | rmw k =>
    cases he
    exact hgrows m.mem
  | _ =>
    cases he
    exact Int.le_refl _

end Step

/-! ## Runs -/

section Runs

variable {s : Config ι (Sc α) (Pc α)} {hist : List (Event ι (Config ι (Sc α) (Pc α)))}

theorem deque_invariant (run : Run InitSc (dequeText arch owner).sc.Step s hist) :
    (dequeAssertion owner).onShared.Holds s := by
  have hrun : Run InitSc ((dequeText arch owner).sc.StepIf fun _ _ _ _ => True) s hist :=
    run.mono fun t s s' h => Program.stepIf_true.mpr h
  exact dequeAssertion_kept_sc.run (fun _ h => dequeAssertion_init_sc h) hrun

/-- Another thread than `t` moves `top` forward. -/
def OtherTakes (t : ι) (e : Event ι (Config ι (Sc α) (Pc α))) : Prop :=
  e.tid ≠ t ∧ e.pre.mem.mem.top < e.post.mem.mem.top

/-- `bottom` is not above `top`, and no element is left but one that the owner
is popping. -/
def NothingToSteal (owner : ι) (e : Event ι (Config ι (Sc α) (Pc α))) : Prop :=
  e.pre.mem.mem.bottom ≤ e.pre.mem.mem.top ∧
    ∃ l, Replays dequeApply [] e.pre.mem.log l ∧
      (l = [] ∨ l.length = 1 ∧ ∃ pc, e.pre.loc owner = .pop pc)

/-- The owner changes something that others can see. -/
def OwnerStores (owner : ι) (e : Event ι (Config ι (Sc α) (Pc α))) : Prop :=
  e.tid = owner ∧ e.post.mem ≠ e.pre.mem

/-- A deque that hands out every element once, in state `s` reached by `hist`. -/
structure DequePromise (owner : ι) (s : Config ι (Sc α) (Pc α))
    (hist : List (Event ι (Config ι (Sc α) (Pc α)))) : Prop where
  /-- In the order in which they took effect, the operations are those of a
  deque: a steal returns the oldest element and a pop the newest. -/
  legal : ∃ l, Replays dequeApply [] s.mem.log l
  /-- What has been returned was pushed, and nothing was returned twice. -/
  once : (takes s.mem.log).Subperm (pushes s.mem.log)
  /-- The log is what the calls have done: each call that has returned an element has written the
  entry of that element, and each push that has returned 0 the entry of its element, once and at one
  instant of the call; of the other calls only one in progress can have written anything. -/
  calls : LinearizableTo (dequeLog α) (dequeInterface.trace hist) s.mem.log
  bounds : s.loc owner = .idle → s.mem.mem.top ≤ s.mem.mem.bottom ∧
    s.mem.mem.bottom ≤ s.mem.mem.top + sizeMinusOne s.mem.mem.underlyingArray
  /-- Between operations of the owner the elements that are left are the slots
  from `top` to `bottom - 1`, in push order. -/
  left : s.loc owner = .idle → Replays dequeApply [] s.mem.log
    (segment (s.mem.mem.get s.mem.mem.underlyingArray) s.mem.mem.top s.mem.mem.bottom)
  /-- A push that returns -1 has changed nothing. -/
  pushFails : s.loc owner = .pushRet .failed →
    ¬ During (fun s => s.loc owner ≠ .idle) (OwnerStores owner) hist
  /-- A pop aborts only if another thread took an element during the call. -/
  popAborts : s.loc owner = .popRet .abort →
    During (fun s => s.loc owner ≠ .idle) (OtherTakes owner) hist
  /-- A steal aborts only if another thread took an element during the call. -/
  stealAborts : ∀ t, s.loc t = .stealRet .abort →
    During (fun s => s.loc t ≠ .idle) (OtherTakes t) hist
  /-- A steal finds nothing only if at some instant of the call there was
  nothing to steal. -/
  stealEmpty : ∀ t, s.loc t = .stealRet .empty →
    During (fun s => s.loc t ≠ .idle) (NothingToSteal owner) hist

/-! ### Aborts -/

/-- The value of `top` that the CAS of the call expects. -/
def Pc.expects : Pc α → Option Int
  | .pop (.get _ _ t) => some t
  | .pop (.swapTop t _) => some t
  | .steal (.barrier t) => some t
  | .steal (.readBottom t) => some t
  | .steal (.readArray t _) => some t
  | .steal (.get t _) => some t
  | .steal (.swapTop t _) => some t
  | _ => none

/-- The call is going to return `WSD_ABORT`. -/
def Pc.aborts : Pc α → Bool
  | .pop (.settle _ .abort) => true
  | .popRet .abort => true
  | .stealRet .abort => true
  | _ => false

/-- The CAS of the call must fail, or has failed. -/
def Overtaken (top : Int) (pc : Pc α) : Prop :=
  (∃ t, pc.expects = some t ∧ top ≠ t) ∨ pc.aborts = true

omit [DecidableEq α] in
theorem not_overtaken {top : Int} {pc : Pc α} (he : pc.expects = none) (ha : pc.aborts = false) :
    ¬ Overtaken top pc := by
  rintro (⟨t, h, -⟩ | h)
  · rw [he] at h
    cases h
  · rw [ha] at h
    cases h

/-- A thread is not overtaken by its own accesses. -/
theorem overtaken_of_exec {m m' : Sc α} {t : ι} {c : Choice α} {pc pc' : Pc α}
    (he : (dequeText arch owner).scExec t c m pc = some (m', pc'))
    (h : Overtaken m'.mem.top pc') : Overtaken m.mem.top pc := by
  obtain ⟨a, ha, he⟩ := Option.map_eq_some_iff.mp he
  have ha : access arch owner t c pc = some a := ha
  cases pc with
  | idle =>
    cases c <;> simp only [access, Option.ite_none_right_eq_some, Option.ite_none_left_eq_some,
      Option.some.injEq, reduceCtorEq] at ha
    all_goals
      obtain ⟨-, rfl⟩ := ha
      cases he
      exact absurd h (not_overtaken rfl rfl)
  | push autogrow p pc =>
    cases Option.some.inj ha
    rw [Access.sc_map] at he
    cases he
    revert h
    cases (Access.sc (dequeText arch owner).write m (pushStep c.malloc autogrow p pc)).2 <;>
      exact fun h => absurd h (not_overtaken rfl rfl)
  | grow pc =>
    cases Option.some.inj ha
    rw [Access.sc_map] at he
    cases he
    revert h
    cases (Access.sc (dequeText arch owner).write m (growDequeStep c.malloc pc)).2 <;>
      exact fun h => absurd h (not_overtaken rfl rfl)
  | pop pc =>
    cases Option.some.inj ha
    cases pc with
    | barrier b a =>
      cases arch <;> cases he <;> exact absurd h (not_overtaken rfl rfl)
    | readTop b a =>
      cases he
      dsimp only at h
      split at h
      · exact absurd h (not_overtaken rfl rfl)
      · rcases h with ⟨t, ht, hne⟩ | h
        · exact absurd (Option.some.inj ht) hne
        · cases h
    | get b a t =>
      cases he
      dsimp only at h
      split at h
      · exact absurd h (not_overtaken rfl rfl)
      · rcases h with ⟨t', ht, hne⟩ | h
        · exact .inl ⟨t', ht, hne⟩
        · cases h
    | swapTop t ret =>
      cases he
      dsimp only at h
      split at h
      · exact absurd h (not_overtaken rfl rfl)
      · next hcas => exact .inl ⟨t, rfl, hcas⟩
    | settle b result =>
      cases he
      rcases h with ⟨t, ht, -⟩ | h
      · cases ht
      · cases result <;> cases h
        exact .inr rfl
    | _ =>
      cases he
      exact absurd h (not_overtaken rfl rfl)
  | steal pc =>
    cases Option.some.inj ha
    cases pc with
    | readTop =>
      cases he
      rcases h with ⟨t, ht, hne⟩ | h
      · exact absurd (Option.some.inj ht) hne
      · cases h
    | readArray t b =>
      cases he
      dsimp only at h
      split at h
      · exact absurd h (not_overtaken rfl rfl)
      · rcases h with ⟨t', ht, hne⟩ | h
        · exact .inl ⟨t', ht, hne⟩
        · cases h
    | swapTop t ret =>
      cases he
      dsimp only at h
      split at h
      · exact absurd h (not_overtaken rfl rfl)
      · next hcas => exact .inl ⟨t, rfl, hcas⟩
    | _ =>
      cases he
      rcases h with ⟨t', ht, hne⟩ | h
      · exact .inl ⟨t', ht, hne⟩
      · cases h
  | _ =>
    cases Option.some.inj ha
    cases he
    exact absurd h (not_overtaken rfl rfl)

/-- **An abort is another thread's success during the call.** -/
theorem aborts_during {t : ι} (run : Run InitSc (dequeText arch owner).sc.Step s hist)
    (hret : (s.loc t).aborts = true) :
    During (fun s => s.loc t ≠ .idle) (OtherTakes t) hist := by
  have hidle : ∀ top, ¬ Overtaken top (.idle : Pc α) := fun _ => not_overtaken rfl rfl
  refine run.during_of_mark (fun s => Overtaken s.mem.mem.top (s.loc t)) ?_ ?_ ?_ (.inr hret)
  · intro s h0
    rw [h0.2 t]
    exact hidle _
  · intro u s s' hs hm hloc
    by_cases hu : t = u
    · subst hu
      obtain ⟨c, he⟩ := hs.exec
      have hold := overtaken_of_exec he hm
      rw [hloc] at hold
      exact hidle _ hold
    · have hm : Overtaken s'.mem.mem.top (s'.loc t) := hm
      rw [hs.loc_of_ne hu, hloc] at hm
      exact hidle _ hm
  · intro u s s' _ hs hn hm
    obtain ⟨c, he⟩ := hs.exec
    by_cases hu : t = u
    · subst hu
      exact absurd (overtaken_of_exec he hm) hn
    · have hm : Overtaken s'.mem.mem.top (s'.loc t) := hm
      rw [hs.loc_of_ne hu] at hm
      refine ⟨Ne.symm hu, ?_⟩
      have hle := top_le_of_exec he
      have hne : s.mem.mem.top ≠ s'.mem.mem.top := by
        intro heq
        rw [← heq] at hm
        exact hn hm
      show s.mem.mem.top < s'.mem.mem.top
      omega

/-! ### Empty steals -/

omit [DecidableEq α] in
/-- `bottom` is where the deque ends, except in a pop. -/
theorem OwnerFacts.limit {v : Memory α} {g : Ghost α} {pc : Pc α} (h : OwnerFacts v g pc) :
    g.limit = v.bottom ∨ g.limit = v.bottom + 1 ∧ ∃ p, pc = .pop p := by
  cases pc with
  | push autogrow p pc =>
    cases pc with
    | grow b pc =>
      cases pc with
      | _ => exact .inl h.2.1.1.symm
    | readBottom => exact .inl h.1.symm
    | _ => exact .inl h.1.1.symm
  | grow pc =>
    cases pc with
    | grow old pc =>
      cases pc with
      | _ => exact .inl h.1.1.symm
    | readBottom => exact .inl h.1.symm
    | _ => exact .inl h.1.1.symm
  | pop pc =>
    cases pc with
    | readBottom => exact .inl h.1.symm
    | readArray b => exact .inl h.1.1.symm
    | writeBottom b a => exact .inl h.1.1.symm
    | get b a t =>
      obtain ⟨-, -, -, hres, hpop⟩ := h
      by_cases htb : t < b
      · exact .inr ⟨(hres htb).1.symm, _, rfl⟩
      · exact .inr ⟨(hpop (by omega)).1.1.symm, _, rfl⟩
    | _ => exact .inr ⟨h.1.1.symm, _, rfl⟩
  | steal pc => exact h.elim
  | _ => exact .inl h.1.symm

omit [DecidableEq ι] in
/-- The load of `bottom` that makes a steal find nothing. -/
theorem nothingToSteal_of_le (hs : (dequeAssertion owner).onShared.Holds s) {u : ι} {t : Int}
    {s' : Config ι (Sc α) (Pc α)} (hu : u ≠ owner) (hpc : s.loc u = .steal (.readBottom t))
    (hle : s.mem.mem.bottom ≤ t) : NothingToSteal owner ⟨u, s, s'⟩ := by
  obtain ⟨g, ⟨-, hI⟩, hT⟩ := hs
  have hsteal := (hT u).steal hu
  rw [hpc] at hsteal
  have ht : t ≤ s.mem.mem.top := hsteal
  have hown := ((hT owner).own rfl).limit
  have hlog := hI.log
  have htop := hI.window.top
  have hfree := hI.window.free
  simp only [Shared.buffered, view, drained_nil] at hlog htop hown
  refine ⟨Int.le_trans hle ht, _, hlog, ?_⟩
  rcases hown with hlimit | ⟨hlimit, hpop⟩
  · left
    rw [show g.limit = s.mem.mem.top by omega]
    exact segment_self _ _
  · by_cases hzero : g.limit = s.mem.mem.top
    · left
      rw [hzero]
      exact segment_self _ _
    · right
      refine ⟨?_, hpop⟩
      rw [length_segment, show g.limit - s.mem.mem.top = 1 by omega]
      rfl

/-- The steal has seen `bottom` at or below its `top`, or has returned. -/
def FindsNothing (pc : Pc α) : Prop :=
  (∃ t b, pc = .steal (.readArray t b) ∧ b ≤ t) ∨ pc = .stealRet .empty

omit [DecidableEq α] in
theorem findsNothing_of_steal {pc : Pc α} (h : FindsNothing pc) :
    (∃ p, pc = .steal p) ∨ ∃ r, pc = .stealRet r := by
  rcases h with ⟨t, b, rfl, -⟩ | rfl
  · exact .inl ⟨_, rfl⟩
  · exact .inr ⟨_, rfl⟩

/-- A steal comes to find nothing by its load of `bottom`. -/
theorem readBottom_of_findsNothing {m m' : Sc α} {u : ι} {c : Choice α} {pc pc' : Pc α}
    (he : (dequeText arch owner).scExec u c m pc = some (m', pc')) (hn : ¬ FindsNothing pc)
    (h : FindsNothing pc') : ∃ t, pc = .steal (.readBottom t) ∧ m.mem.bottom ≤ t := by
  obtain ⟨a, ha, he⟩ := Option.map_eq_some_iff.mp he
  have ha : access arch owner u c pc = some a := ha
  have hkind := findsNothing_of_steal h
  cases pc with
  | idle =>
    cases c <;> simp only [access, Option.ite_none_right_eq_some, Option.ite_none_left_eq_some,
      Option.some.injEq, reduceCtorEq] at ha
    all_goals
      obtain ⟨-, rfl⟩ := ha
      cases he
      rcases h with ⟨t, b, heq, -⟩ | heq <;> cases heq
  | push autogrow p pc =>
    cases Option.some.inj ha
    rw [Access.sc_map] at he
    cases he
    revert hkind
    cases (Access.sc (dequeText arch owner).write m (pushStep c.malloc autogrow p pc)).2 <;> simp
  | grow pc =>
    cases Option.some.inj ha
    rw [Access.sc_map] at he
    cases he
    revert hkind
    cases (Access.sc (dequeText arch owner).write m (growDequeStep c.malloc pc)).2 <;> simp
  | pop pc =>
    cases Option.some.inj ha
    rw [Access.sc_map] at he
    cases he
    revert hkind
    cases (Access.sc (dequeText arch owner).write m (popStep arch pc)).2 <;> simp
  | steal pc =>
    cases Option.some.inj ha
    cases pc with
    | readBottom t =>
      cases he
      rcases h with ⟨t', b, heq, hle⟩ | heq <;> cases heq
      exact ⟨t, rfl, hle⟩
    | readArray t b =>
      cases he
      dsimp only at h
      split at h
      · next hsize => exact absurd (.inl ⟨t, b, rfl, by omega⟩) hn
      · rcases h with ⟨t', b', heq, -⟩ | heq <;> cases heq
    | swapTop t ret =>
      cases he
      dsimp only at h
      split at h
      · rcases h with ⟨t', b', heq, -⟩ | heq <;> cases heq
      · rcases h with ⟨t', b', heq, -⟩ | heq <;> cases heq
    | _ =>
      cases he
      rcases h with ⟨t', b', heq, -⟩ | heq <;> cases heq
  | _ =>
    cases Option.some.inj ha
    cases he
    rcases h with ⟨t', b', heq, -⟩ | heq <;> cases heq

theorem empty_during {t : ι} (run : Run InitSc (dequeText arch owner).sc.Step s hist)
    (hret : s.loc t = .stealRet .empty) :
    During (fun s => s.loc t ≠ .idle) (NothingToSteal owner) hist := by
  have hrun : Run InitSc ((dequeText arch owner).sc.StepIf fun _ _ _ _ => True) s hist :=
    run.mono fun t s s' h => Program.stepIf_true.mpr h
  have hidle : ¬ FindsNothing (.idle : Pc α) := by
    rintro (⟨t, b, h, -⟩ | h) <;> cases h
  refine Run.during_of_local FindsNothing (· ≠ .idle) ?_ ?_ ?_ ?_ hrun (.inr hret)
  · intro s h0
    rw [h0.2 t]
    exact hidle
  · rintro c m l m' l' he hm rfl
    obtain ⟨t', heq, -⟩ := readBottom_of_findsNothing he hidle hm
    cases heq
  · rintro l hl rfl
    exact hidle hl
  · intro s s' ⟨hist, hr⟩ hs hn hm
    obtain ⟨c, he⟩ := hs.2.exec
    obtain ⟨t', hpc, hle⟩ := readBottom_of_findsNothing he hn hm
    have hinv := dequeAssertion_kept_sc.run (fun _ h => dequeAssertion_init_sc h) hr
    refine nothingToSteal_of_le hinv ?_ hpc hle
    rintro rfl
    obtain ⟨g, -, hT⟩ := hinv
    have hown := (hT t).own rfl
    rw [hpc] at hown
    exact hown

/-! ### Failing pushes -/

/-- A push that has stored nothing, or has failed. -/
def StoredNothing : Pc α → Prop
  | .push _ _ .readBottom => True
  | .push _ _ (.readTop _) => True
  | .push _ _ (.readArray _ _) => True
  | .push _ _ (.grow _ (.create _ _ _)) => True
  | .pushRet .failed => True
  | _ => False

theorem storedNothing_of_exec {m m' : Sc α} {u : ι} {c : Choice α} {pc pc' : Pc α}
    (he : (dequeText arch owner).scExec u c m pc = some (m', pc')) (hpc : pc ≠ .idle)
    (h : StoredNothing pc') : StoredNothing pc ∧ m' = m := by
  obtain ⟨a, ha, he⟩ := Option.map_eq_some_iff.mp he
  have ha : access arch owner u c pc = some a := ha
  cases pc with
  | idle => exact absurd rfl hpc
  | grow pc =>
    cases Option.some.inj ha
    rw [Access.sc_map] at he
    cases he
    revert h
    cases (Access.sc (dequeText arch owner).write m (growDequeStep c.malloc pc)).2 <;>
      exact fun h => h.elim
  | pop pc =>
    cases Option.some.inj ha
    rw [Access.sc_map] at he
    cases he
    revert h
    cases (Access.sc (dequeText arch owner).write m (popStep arch pc)).2 <;>
      exact fun h => h.elim
  | steal pc =>
    cases Option.some.inj ha
    rw [Access.sc_map] at he
    cases he
    revert h
    cases (Access.sc (dequeText arch owner).write m (stealStep pc)).2 <;>
      exact fun h => h.elim
  | push autogrow p pc =>
    cases Option.some.inj ha
    cases pc with
    | grow b pc =>
      cases pc with
      | create a start stop =>
        cases he
        exact ⟨trivial, rfl⟩
      | get a newA i stop =>
        cases he
        exact h.elim
      | put a newA i stop q =>
        cases he
        revert h
        unfold copyFrom
        split <;> exact fun h => h.elim
    | readBottom =>
      cases he
      exact ⟨trivial, by simp⟩
    | readTop b =>
      cases he
      exact ⟨trivial, by simp⟩
    | readArray b t =>
      cases he
      exact ⟨trivial, by simp⟩
    | _ =>
      cases he
      exact h.elim
  | _ =>
    cases Option.some.inj ha
    cases he
    exact h.elim

theorem failed_stores_nothing (run : Run InitSc (dequeText arch owner).sc.Step s hist)
    (hret : s.loc owner = .pushRet .failed) :
    ¬ During (fun s => s.loc owner ≠ .idle) (OwnerStores owner) hist := by
  refine run.not_during_of_mark (fun s => StoredNothing (s.loc owner)) ?_ (by rw [hret]; trivial)
  intro u s s' _ hs hm hbusy
  by_cases hu : owner = u
  · subst hu
    obtain ⟨c, he⟩ := hs.exec
    obtain ⟨hold, hmem⟩ := storedNothing_of_exec he hbusy hm
    exact ⟨hold, fun h => h.2 hmem⟩
  · have hm : StoredNothing (s'.loc owner) := hm
    rw [hs.loc_of_ne hu] at hm
    exact ⟨hm, fun h => hu h.1.symm⟩

/-! ### The deque -/

/-- **Every element once, over every interleaving** of one owner that pushes,
grows and pops and any number of thieves, under sequential consistency. -/
theorem wsd_exactly_once (run : Run InitSc (dequeText arch owner).sc.Step s hist) :
    DequePromise owner s hist := by
  obtain ⟨g, ⟨-, hI⟩, hT⟩ := deque_invariant run
  have hlog := hI.log
  have hwin := hI.window
  simp only [Shared.buffered, drained_nil] at hlog hwin
  have hrest : s.loc owner = .idle → s.mem.mem.bottom = g.limit := by
    intro hidle
    have hown := (hT owner).own rfl
    rw [hidle] at hown
    exact hown.1
  constructor
  case legal => exact ⟨_, hlog⟩
  case once => exact hlog.takes_subperm
  case calls => exact linearizableTo_log_sc run
  case bounds =>
    intro hidle
    have hlimit := hrest hidle
    have htop := hwin.top
    have hfree := hwin.free
    have hroom := hwin.room
    exact ⟨by omega, by omega⟩
  case left =>
    intro hidle
    rw [hrest hidle, segment_congr hwin.slots]
    exact hlog
  case pushFails => exact failed_stores_nothing run
  case popAborts => exact fun hret => aborts_during run (by rw [hret]; rfl)
  case stealAborts => exact fun t hret => aborts_during run (by rw [hret]; rfl)
  case stealEmpty => exact fun t hret => empty_during run hret

end Runs

/-- After `wsd_work_stealing_deque_create(8)`. -/
def initialSc : Config Nat (Sc Nat) (Pc Nat) where
  mem := ⟨created 8 fun _ _ => 0, []⟩
  loc _ := .idle

/-- The owner pushes 7 and 8. A thief takes 7 while the owner pops 8, and a
second steal finds nothing. -/
theorem wsd_exactly_once_steal_and_pop :
    ∃ (s : Config Nat (Sc Nat) (Pc Nat)) (hist : _),
      Run InitSc (dequeText .x86_64 0).sc.Step s hist ∧ takes s.mem.log = [8, 7] ∧
        s.loc 0 = .idle ∧ s.loc 1 = .stealRet .empty ∧ DequePromise 0 s hist := by
  have hstart : Run InitSc (dequeText (ι := Nat) (α := Nat) .x86_64 0).sc.Step initialSc [] :=
    .start ⟨⟨8, fun _ _ => 0, by omega, rfl⟩, fun _ => rfl⟩
  obtain ⟨s, hist, run, htakes, hidle, hempty⟩ := hstart.exists_of_schedule
    (q := fun s => takes s.mem.log = [8, 7] ∧ s.loc 0 = .idle ∧ s.loc 1 = .stealRet .empty)
    (List.flatten [[(0, .push false 7)], List.replicate 7 (0, .step), [(0, .push true 8)],
      List.replicate 7 (0, .step), [(1, .steal)], List.replicate 3 (1, .step), [(0, .pop)],
      List.replicate 7 (0, .step), List.replicate 4 (1, .step), [(1, .steal)],
      List.replicate 4 (1, .step)])
    (by decide +kernel)
  exact ⟨s, hist, run, htakes, hidle, hempty, wsd_exactly_once run⟩

end FibConcurrent.WorkStealingDeque
