import FibConcurrent.DistFifo.Calls

/-!
# DistFifo — exactly once, under stealing and node recycling

Every access keeps the assertion (`distAssertion_kept`); what runs promise
(`distFifo_exactly_once`) is read off it.
-/

namespace FibConcurrent.DistFifo

open FibConcurrent.Machine FibConcurrent.Data

variable {ι ν α : Type*} {w : Nat} [DecidableEq ν]

/-- The distinguished thread puts a node it owns into a push. -/
theorem Inv.acquire {m : Fifo w ι ν α} {g : Ghost ι ν} {n : ν} {t : ι} (hI : Inv m g)
    (hn : m.owner n = some t) (d : α) :
    Inv { m with
          owner := Function.update m.owner n none
          data := Function.update m.data n d }
        { g with held := Function.update g.held n (some t) } ∧
      ∀ u, Keeps u m g { m with
          owner := Function.update m.owner n none
          data := Function.update m.data n d }
        { g with held := Function.update g.held n (some t) } := by
  obtain ⟨hout, hfree⟩ := hI.owner_out n (by simp [hn])
  obtain ⟨hI', htop⟩ := hI.write (d := d) (x := m.next n) hout
  rw [Function.update_eq_self] at hI' htop
  constructor
  · refine ⟨hI'.counter, hI'.head, hI'.linked, hI'.nodup, hI'.values, fun a ha => ?_,
      fun a ha => ?_⟩
    · have hne : a ≠ n := by
        rintro rfl
        simp at ha
      obtain ⟨haout, hafree⟩ := hI.owner_out a (by simpa [hne] using ha)
      exact ⟨haout, by simp [hne, hafree]⟩
    · by_cases hne : a = n
      · exact hne ▸ hout
      · exact hI.held_out a (by simpa [hne] using ha)
  · refine fun u => ⟨fun a ha => ?_, htop⟩
    have hne : a ≠ n := by
      rintro rfl
      simp [hfree] at ha
    exact ⟨by simpa [hne] using ha, rfl, Function.update_of_ne hne ..⟩

/-- A pop hands its node to the thread that called it. -/
theorem Inv.release {m : Fifo w ι ν α} {g : Ghost ι ν} {n : ν} {t : ι} (hI : Inv m g)
    (hn : g.held n = some t) :
    Inv { m with owner := Function.update m.owner n (some t) }
        { g with held := Function.update g.held n none } ∧
      ∀ u, u ≠ t → Keeps u m g { m with owner := Function.update m.owner n (some t) }
        { g with held := Function.update g.held n none } := by
  constructor
  · refine { hI with owner_out := fun a ha => ?_, held_out := fun a ha => ?_ }
    · by_cases hne : a = n
      · subst hne
        exact ⟨hI.held_out a (by simp [hn]), by simp⟩
      · obtain ⟨haout, hafree⟩ := hI.owner_out a (by simpa [hne] using ha)
        exact ⟨haout, by simp [hne, hafree]⟩
    · have hne : a ≠ n := by
        rintro rfl
        simp at ha
      exact hI.held_out a (by simpa [hne] using ha)
  · refine fun u hu => ⟨fun a ha => ?_, keepsTop_refl m⟩
    have hne : a ≠ n := by
      rintro rfl
      exact hu (Option.some.inj (ha.symm.trans hn))
    exact ⟨by simpa [hne] using ha, rfl, rfl⟩

/-- A node changes hands outside the fifo. -/
theorem Inv.give {m : Fifo w ι ν α} {g : Ghost ι ν} {n : ν} {t : ι} (hI : Inv m g)
    (hn : m.owner n = some t) (u : ι) :
    Inv { m with owner := Function.update m.owner n (some u) } g := by
  refine { hI with owner_out := fun a ha => ?_ }
  by_cases hne : a = n
  · exact hI.owner_out a (by simp [hne, hn])
  · exact hI.owner_out a (by simpa [hne] using ha)

variable [DecidableEq ι] {pusher : ι}

/-- **Every step of every thread keeps the assertion**, as long as the counter
does not wrap during a call. -/
theorem distAssertion_kept :
    (distAssertion (ν := ν) (α := α) (w := w) pusher).Kept (distProgram pusher) Fresh := by
  intro t c m l m' l' g hI hL hfresh he
  have hlast := hL.last
  have hcall := hL.call
  simp only [distProgram, exec] at he
  cases l with
  | idle =>
    cases c with
    | push n d =>
      simp only [Option.ite_none_right_eq_some, Option.some.injEq, Prod.mk.injEq] at he
      obtain ⟨⟨rfl, hn⟩, rfl, rfl⟩ := he
      obtain ⟨hI', hk⟩ := hI.acquire hn d
      refine ⟨_, hI', ⟨fun _ _ => rfl, hlast, ?_⟩,
        fun u hu k h => h.keep (hk u) fun h => absurd h hu⟩
      show Function.update g.held n (some t) n = some t
      simp
    | pop =>
      simp only [Option.some.injEq, Prod.mk.injEq] at he
      obtain ⟨rfl, rfl⟩ := he
      exact ⟨g, hI, ⟨fun _ h => by simp at h, hlast, trivial⟩, fun _ _ _ h => h⟩
    | write n d x =>
      simp only [Option.ite_none_right_eq_some, Option.some.injEq, Prod.mk.injEq] at he
      obtain ⟨hn, rfl, rfl⟩ := he
      obtain ⟨hout, hfree⟩ := hI.owner_out n (by simp [hn])
      obtain ⟨hI', htop⟩ := hI.write (d := d) (x := x) hout
      refine ⟨g, hI', ⟨fun _ h => by simp at h, hlast, trivial⟩,
        fun u _ k h => h.keep ⟨fun a ha => ?_, htop⟩ fun _ => ⟨rfl, rfl⟩⟩
      have hne : a ≠ n := by
        rintro rfl
        simp [hfree] at ha
      exact ⟨ha, Function.update_of_ne hne .., Function.update_of_ne hne ..⟩
    | give n u =>
      simp only [Option.ite_none_right_eq_some, Option.some.injEq, Prod.mk.injEq] at he
      obtain ⟨hn, rfl, rfl⟩ := he
      exact ⟨g, hI.give hn u, ⟨fun _ h => by simp at h, hlast, trivial⟩,
        fun v _ k h => h.keep ⟨fun _ ha => ⟨ha, rfl, rfl⟩, keepsTop_refl m⟩ fun _ => ⟨rfl, rfl⟩⟩
    | step => simp at he
  | push pc =>
    simp only [Option.some.injEq, Prod.mk.injEq] at he
    obtain ⟨rfl, rfl⟩ := he
    have ht : t = pusher := hL.pushing pc rfl
    obtain ⟨g', hI', hp, hend, hk⟩ := pushStep_spec hI hcall (hlast ht)
    refine ⟨g', hI', ?_, fun u hu k h => h.keep (hk u hu) fun h => absurd (h.trans ht.symm) hu⟩
    cases hnext : (pushStep m pc).2 with
    | none => exact ⟨fun _ h => by simp at h, fun _ => hend hnext, trivial⟩
    | some pc' =>
      obtain ⟨hp', hlast'⟩ := hp pc' hnext
      exact ⟨fun _ _ => ht, fun _ => hlast', hp'⟩
  | pop pc =>
    simp only [Option.some.injEq, Prod.mk.injEq] at he
    obtain ⟨rfl, rfl⟩ := he
    obtain ⟨g', hI', hp, hret, hk, htail⟩ := popStep_spec hI hcall hfresh
    refine ⟨g', hI', ?_, fun u hu k h => h.keep (hk u hu) fun _ => htail⟩
    have hend : t = pusher → g'.nodes.getLast? = some (popStep m pc).1.tail := fun ht => by
      rw [htail.tail, htail.last]
      exact hlast ht
    cases hnext : (popStep m pc).2 with
    | inl pc' => exact ⟨fun _ h => by simp at h, hend, hp pc' hnext⟩
    | inr r =>
      cases r with
      | node n k => exact ⟨fun _ h => by simp at h, hend, hret n k hnext⟩
      | _ => exact ⟨fun _ h => by simp at h, hend, trivial⟩
  | popRet r =>
    cases r with
    | node n k =>
      simp only [Option.some.injEq, Prod.mk.injEq] at he
      obtain ⟨rfl, rfl⟩ := he
      obtain ⟨hI', hk⟩ := hI.release hcall.1
      exact ⟨_, hI', ⟨fun _ h => by simp at h, hlast, trivial⟩,
        fun u hu k h => h.keep (hk u hu) fun _ => ⟨rfl, rfl⟩⟩
    | _ =>
      simp only [Option.some.injEq, Prod.mk.injEq] at he
      obtain ⟨rfl, rfl⟩ := he
      exact ⟨g, hI, ⟨fun _ h => by simp at h, hlast, trivial⟩, fun _ _ _ h => h⟩

omit [DecidableEq ν] [DecidableEq ι] in
theorem distAssertion_init {s : Config ι (Fifo w ι ν α) (Pc w ν α)} (h : Init s) :
    (distAssertion pusher).Holds s := by
  obtain ⟨hhead, hnext, howner, hpushed, hpopped, hidle⟩ := h
  refine ⟨⟨[s.mem.tail], fun _ => none⟩, ⟨?_, ?_, linked_cons.mpr ⟨hnext, trivial⟩,
    List.nodup_singleton _, ?_, fun n hn => ⟨?_, rfl⟩, by simp⟩, fun t => ?_⟩
  · rw [hhead, hpopped]
    rfl
  · rw [hhead]
    rfl
  · simp [hpushed, hpopped]
  · rw [List.mem_singleton]
    rintro rfl
    exact hn howner
  · rw [hidle t]
    exact ⟨fun _ h => by simp at h, fun _ => rfl, trivial⟩

/-! ## Runs -/

section Runs

variable {s : Config ι (Fifo w ι ν α) (Pc w ν α)}
  {hist : List (Event ι (Config ι (Fifo w ι ν α) (Pc w ν α)))}

/-- The assertion holds in every state of every interleaving in which the
counter does not wrap during a call. -/
theorem distFifo_invariant (run : Run Init ((distProgram pusher).StepIf Fresh) s hist) :
    (distAssertion pusher).Holds s :=
  distAssertion_kept.run (fun _ h => distAssertion_init h) run

/-- **`pushed` and `popped` are what the calls have done.** -/
theorem linearizableTo_history (run : Run Init ((distProgram pusher).StepIf Fresh) s hist) :
    LinearizableTo (distHistory α) (distInterface.trace hist) (s.mem.pushed, s.mem.popped) := by
  refine run.linearizableTo (distHistory α) (fun _ m pc => pc.client m)
    (fun m => (m.pushed, m.popped)) ?_ ?_ ?_
  · rintro s ⟨-, -, -, hpushed, hpopped, hidle⟩
    refine ⟨Prod.ext hpushed hpopped, fun t => ?_⟩
    rw [hidle t]
    rfl
  · rintro t s s' ⟨hist, hr⟩ ⟨-, hs⟩ u hu
    obtain ⟨g, hI, hL⟩ := distFifo_invariant hr
    obtain ⟨c, he⟩ := hs.exec
    exact client_of_data (hL u) fun n hn => data_of_exec hI (hL t) he hn hu
  · rintro t s s' - ⟨-, hs⟩
    obtain ⟨c, he⟩ := hs.exec
    exact (move_of_exec he).goes

/-- A pop by another thread than `t` succeeds. -/
def OtherPops (t : ι) (e : Event ι (Config ι (Fifo w ι ν α) (Pc w ν α))) : Prop :=
  e.tid ≠ t ∧ e.pre.mem.popped.length < e.post.mem.popped.length

/-- Thread `t` is in a pop that cannot succeed any more, or has returned
`DIST_FIFO_RETRY`. -/
def Outrun (t : ι) (s : Config ι (Fifo w ι ν α) (Pc w ν α)) : Prop :=
  (∃ k, (s.loc t).stamp = some k ∧ k < s.mem.popped.length) ∨ s.loc t = .popRet .retry

omit [DecidableEq ν] [DecidableEq ι] in
theorem Outrun.busy {t : ι} (h : Outrun t s) : s.loc t ≠ .idle := by
  intro hidle
  rcases h with ⟨k, hk, -⟩ | h
  · simp [hidle, Pc.stamp] at hk
  · simp [hidle] at h

/-- A call that begins is not outrun. -/
theorem stamp_of_idle {t : ι} {c : Choice ι ν α} {m m' : Fifo w ι ν α} {l : Pc w ν α}
    (he : exec pusher t c m .idle = some (m', l)) : l.stamp = none ∧ l ≠ .popRet .retry := by
  cases c with
  | pop =>
    simp only [exec, Option.some.injEq, Prod.mk.injEq] at he
    rw [← he.2]
    exact ⟨rfl, by simp⟩
  | step => simp [exec] at he
  | _ =>
    simp only [exec, Option.ite_none_right_eq_some, Option.some.injEq, Prod.mk.injEq] at he
    rw [← he.2.2]
    exact ⟨rfl, by simp⟩

/-- A step of the pop itself outruns it only if it was outrun before. -/
theorem outrun_of_step {s s' : Config ι (Fifo w ι ν α) (Pc w ν α)} {t : ι}
    (hA : (distAssertion pusher).Holds s) (hs : (distProgram pusher).StepIf Fresh t s s')
    (h : Outrun t s') : Outrun t s := by
  obtain ⟨g, hI, hL⟩ := hA
  obtain ⟨c, he⟩ := hs.2.exec
  have hcall := (hL t).call
  unfold Outrun at h
  generalize s'.loc t = l' at he h
  generalize hm : s'.mem = m' at he h
  cases hl : s.loc t with
  | idle =>
    rw [hl] at he
    obtain ⟨hstamp, hretry⟩ := stamp_of_idle he
    simp [hstamp, hretry] at h
  | push pc =>
    exfalso
    simp only [distProgram, exec, hl, Option.some.injEq, Prod.mk.injEq] at he
    obtain ⟨-, rfl⟩ := he
    cases hnext : (pushStep s.mem pc).2 <;> simp [hnext, Pc.stamp] at h
  | popRet r =>
    exfalso
    cases r <;> simp only [distProgram, exec, hl, Option.some.injEq, Prod.mk.injEq] at he <;>
      obtain ⟨-, rfl⟩ := he <;> simp [Pc.stamp] at h
  | pop pc =>
    rw [hl] at hcall
    simp only [distProgram, exec, hl, Option.some.injEq, Prod.mk.injEq] at he
    obtain ⟨rfl, rfl⟩ := he
    cases pc with
    | readCounter => simp [popStep, Pc.stamp, PopPc.stamp] at h
    | readNode c k =>
      left
      exact ⟨k, by rw [hl]; rfl, by simpa [popStep, Pc.stamp, PopPc.stamp] using h⟩
    | readNext p k =>
      left
      refine ⟨k, by rw [hl]; rfl, ?_⟩
      cases hnext : s.mem.next p.ptr with
      | none => simp [popStep, hnext, Pc.stamp] at h
      | some x => simpa [popStep, hnext, Pc.stamp, PopPc.stamp] using h
    | readData p x k =>
      left
      exact ⟨k, by rw [hl]; rfl, by simpa [popStep, Pc.stamp, PopPc.stamp] using h⟩
    | swap p x d k =>
      left
      refine ⟨k, by rw [hl]; rfl, Nat.lt_of_le_of_ne hcall.1.le ?_⟩
      -- a pop that nobody has outrun finds head and counter as it read them
      intro hk
      obtain ⟨hptr, -⟩ := hcall.2 hk
      have hhead : s.mem.head = p := by
        have hcounter : s.mem.head.counter = p.counter := by
          rw [hI.counter, hcall.1.counter, hk]
        cases p
        cases hh : s.mem.head
        simp_all
      simp [popStep, hhead, Pc.stamp, PopPc.stamp] at h
    | writeData n d k => simp [popStep, Pc.stamp] at h

theorem retry_during {t : ι} (run : Run Init ((distProgram pusher).StepIf Fresh) s hist)
    (hret : s.loc t = .popRet .retry) :
    During (fun s => s.loc t ≠ .idle) (OtherPops t) hist := by
  refine run.during_of_mark (Outrun t) ?_ ?_ ?_ (.inr hret)
  · intro s h0 hm
    exact hm.busy (h0.2.2.2.2.2 t)
  · intro u s s' hs hm
    by_cases hut : u = t
    · subst hut
      intro hidle
      obtain ⟨c, he⟩ := hs.2.exec
      rw [hidle] at he
      obtain ⟨hstamp, hretry⟩ := stamp_of_idle he
      rcases hm with ⟨k, hk, -⟩ | hm
      · simp [hstamp] at hk
      · exact hretry hm
    · have hloc : s'.loc t = s.loc t := hs.2.loc_of_ne (Ne.symm hut)
      exact hloc ▸ hm.busy
  · intro u s s' ⟨hist, hr⟩ hs hn hm
    by_cases hut : u = t
    · subst hut
      exact absurd (outrun_of_step (distFifo_invariant hr) hs hm) hn
    · have hloc : s'.loc t = s.loc t := hs.2.loc_of_ne (Ne.symm hut)
      refine ⟨hut, ?_⟩
      rcases hm with ⟨k, hk, hlt⟩ | hm
      · rw [hloc] at hk
        have hle : ¬ k < s.mem.popped.length := fun h => hn (.inl ⟨k, hk, h⟩)
        show s.mem.popped.length < s'.mem.popped.length
        omega
      · exact absurd (.inr (hloc ▸ hm)) hn

/-- The promises of the fifo in state `s`, reached by the history `hist`. -/
structure DistPromise (pusher : ι) (s : Config ι (Fifo w ι ν α) (Pc w ν α))
    (hist : List (Event ι (Config ι (Fifo w ι ν α) (Pc w ν α)))) : Prop where
  /-- The data taken by successful swaps are a prefix of the data pushed. -/
  popped : s.mem.popped <+: s.mem.pushed
  /-- `pushed` and `popped` are what the calls have done: each pop that has returned a node has
  appended the datum in it to `popped`, and each push that has returned its datum to `pushed`, once
  and at one instant of the call; no other call but one in progress has appended anything. -/
  calls : LinearizableTo (distHistory α) (distInterface.trace hist) (s.mem.pushed, s.mem.popped)
  /-- A node is returned with the datum its swap took. -/
  returned : ∀ t n k, s.loc t = .popRet (.node n k) → s.mem.popped[k]? = some (s.mem.data n)
  /-- A node that is returned belongs to nobody but the call that returns it. -/
  exclusive : ∀ t n k, s.loc t = .popRet (.node n k) → s.mem.owner n = none ∧
    ∀ u j, s.loc u = .popRet (.node n j) → u = t
  /-- No node that is returned, or that a thread owns, is reachable from the head. -/
  unreachable : ∀ n, (s.mem.owner n ≠ none ∨ ∃ t k, s.loc t = .popRet (.node n k)) →
    ¬ Reaches s.mem.next s.mem.head.ptr n
  /-- `DIST_FIFO_RETRY` is returned only if another pop succeeded meanwhile. -/
  retry : ∀ t, s.loc t = .popRet .retry →
    During (fun s => s.loc t ≠ .idle) (OtherPops t) hist

/-- **`dist_fifo` is exactly-once under stealing and node recycling**, for one
distinguished thread and any number of others. -/
theorem distFifo_exactly_once (run : Run Init ((distProgram pusher).StepIf Fresh) s hist) :
    DistPromise pusher s hist := by
  obtain ⟨g, hI, hL⟩ := distFifo_invariant run
  have hheld : ∀ t n k, s.loc t = .popRet (.node n k) →
      g.held n = some t ∧ s.mem.popped[k]? = some (s.mem.data n) := by
    intro t n k ht
    have hcall := (hL t).call
    rw [ht] at hcall
    exact hcall
  refine ⟨hI.popped_prefix, linearizableTo_history run, fun t n k ht => (hheld t n k ht).2,
    fun t n k ht => ⟨?_, fun u j hu => ?_⟩, fun n hn hr => ?_, fun t => retry_during run⟩
  · by_contra howner
    have hfree := (hI.owner_out n howner).2
    simp [(hheld t n k ht).1] at hfree
  · have hu' := (hheld u n j hu).1
    exact Option.some.inj (hu'.symm.trans (hheld t n k ht).1)
  · obtain ⟨rest, hnodes⟩ := hI.nodes_eq
    have hmem : n ∈ g.nodes := Segments.reaches_mem hI.linked (by simp [hnodes]) hr
    rcases hn with hn | ⟨t, k, ht⟩
    · exact (hI.owner_out n hn).1 hmem
    · exact hI.held_out n (by simp [(hheld t n k ht).1]) hmem

/-- With a 64-bit counter: the distinguished thread 1 pushes node 1 with datum
7, then threads 0 and 2 race for it; thread 2 has to retry. -/
theorem distFifo_exactly_once_race :
    ∃ (s : Config Nat (Fifo 64 Nat Nat Nat) (Pc 64 Nat Nat)) (hist : _),
      Run Init ((distProgram 1).StepIf Fresh) s hist ∧ s.mem.popped = [7] ∧
        s.loc 0 = .popRet (.node 0 0) ∧ s.loc 2 = .popRet .retry ∧ DistPromise 1 s hist := by
  obtain ⟨s, hs, hpop, hnode, hretry⟩ : ∃ s, (distProgram (w := 64) 1).runScheduleIf Fresh
      (List.flatten [[(1, .push 1 7)], List.replicate 4 (1, .step), [(2, .pop)],
        List.replicate 4 (2, .step), [(0, .pop)], List.replicate 6 (0, .step), [(2, .step)]])
      (initial 0 0 1) = some s ∧ s.mem.popped = [7] ∧ s.loc 0 = .popRet (.node 0 0) ∧
        s.loc 2 = .popRet .retry :=
    ⟨_, rfl, rfl, rfl, rfl⟩
  obtain ⟨hist, run⟩ := Run.scheduleIf (.start (init_initial 0 0 1)) hs
  exact ⟨s, hist, run, hpop, hnode, hretry, distFifo_exactly_once run⟩

end Runs

end FibConcurrent.DistFifo
