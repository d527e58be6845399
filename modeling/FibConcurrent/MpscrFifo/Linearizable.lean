import FibConcurrent.Data.Container
import FibConcurrent.MpscrFifo.Poll

/-!
# MpscrFifo — what clients see is a queue for each producer

A push takes effect with its last store, and a successful pop when it moves the head of a fifo. A
pop that returns null has looked at one fifo after the other while the producers went on, so that
there need not be an instant in the loop at which all are empty: it takes effect where it began.
Nobody else takes items, so what had been there then would still have been there when the
pop came to it. Whether the pop will come to something is not known then; until it does, both that
it has been told that there is nothing and that it has not are possible.
-/

namespace FibConcurrent.MpscrFifo

open FibConcurrent.Machine FibConcurrent.Data

variable {n w : Nat} {ν α : Type*}

/-- What a client asks for. -/
inductive Request (n : Nat) (α : Type*) where
  | push (producerNumber : Fin n) (data : α)
  | trypop
deriving DecidableEq

/-- One operation of the queues: a push goes to that of its producer, a pop takes from any of
them. Loose ones may answer that there is nothing when there is. -/
inductive QueuesLegal (loose : Bool) :
    (Fin n → List α) → Request n α → Response α → (Fin n → List α) → Prop
  | push (x : Fin n → List α) (p : Fin n) (data : α) :
      QueuesLegal loose x (.push p data) .stored (Function.update x p (x p ++ [data]))
  | trypop (x : Fin n → List α) (p : Fin n) (data : α) (l : List α) (h : x p = data :: l) :
      QueuesLegal loose x .trypop (.took data) (Function.update x p l)
  | nothing (x : Fin n → List α) (h : (∀ p, x p = []) ∨ loose = true) :
      QueuesLegal loose x .trypop .nothing x

/-- A queue for each producer, all empty to begin with. -/
def queues (n : Nat) (α : Type*) (loose : Bool) :
    Object (Fin n → List α) (Request n α) (Response α) where
  start x := ∀ p, x p = []
  legal := QueuesLegal loose

/-- A push waits until its last store. -/
def producerClient (p : Fin n) (m : Memory n ν α) : Pc n ν α → Client (Request n α) (Response α)
  | .push pc => .pending (.push p (m.data pc.newNode))
  | _ => .idle

/-- A pop waits until it has moved a head, or comes back from all fifos. -/
def consumerClient (m : Memory n ν α) : Pc n ν α → Client (Request n α) (Response α)
  | .idle => .idle
  | .push _ => .idle
  | .nextFifo _ => .pending .trypop
  | .pop _ _ (.readData _ prevHeadNext) => .done (.took (m.data prevHeadNext))
  | .pop _ _ (.writeData _ data) => .done (.took data)
  | .pop _ _ _ => .pending .trypop
  | .popRet none => .done .nothing
  | .popRet (some out) => .done (.took (m.data out))

/-- Calls to `mpscr_fifo_push` and `mpscr_fifo_trypop`, seen from outside. -/
def mpscrInterface : Interface (Party n) (Memory n ν α) (Pc n ν α) (Request n α) (Response α) where
  busy
    | .idle => false
    | _ => true
  op t m pc :=
    match t, pc with
    | .producer p, .push pc => .push p (m.data pc.newNode)
    | _, _ => .trypop
  result _ m
    | .popRet none => .nothing
    | .popRet (some out) => .took (m.data out)
    | _ => .stored

/-- The counter does not come round within a call, unless its range is a multiple of the number of
fifos, or the queues are called loose. -/
def FitsUnless (w : Nat) (loose : Bool) (_t : Party n) (m : Memory n ν α) (pc : Pc n ν α)
    (_m' : Memory n ν α) : Prop :=
  loose = false → n ∣ 2 ^ w ∨ ∀ i < n, 0 < i → pc = .nextFifo i → m.counter ≠ 0

instance [DecidableEq ν] [DecidableEq α] (w : Nat) (loose : Bool) (t : Party n)
    (m : Memory n ν α) (pc : Pc n ν α) (m' : Memory n ν α) :
    Decidable (FitsUnless w loose t m pc m') :=
  inferInstanceAs (Decidable
    (_ → n ∣ 2 ^ w ∨ ∀ i < n, 0 < i → pc = .nextFifo i → m.counter ≠ 0))

/-- What a producer has passed to pushes that have linked their nodes. -/
def Pc.linked (pushed : List α) : Pc n ν α → List α
  | .push _ => pushed.dropLast
  | _ => pushed

/-- What has been linked in the fifo of `p` and not been taken out. -/
def values (s : Config (Party n) (Memory n ν α) (Pc n ν α)) (p : Fin n) : List α :=
  remaining ((s.loc (.producer p)).linked (s.mem.pushed p))
    (poppedFrom p s.mem.popped ++ (s.loc .consumer).taking p s.mem)

/-- The consumer is in a call. -/
def Polling (s : Config (Party n) (Memory n ν α) (Pc n ν α)) : Prop := s.loc .consumer ≠ .idle

/-- There was nothing in the fifos when the consumer's call began. -/
def BeganEmpty (s : Config (Party n) (Memory n ν α) (Pc n ν α))
    (hist : List (Event (Party n) (Config (Party n) (Memory n ν α) (Pc n ν α)))) : Prop :=
  Began Polling (fun a => ∀ p, Empty a.mem p) s hist

theorem beganEmpty_cons {t : Party n} {s s' : Config (Party n) (Memory n ν α) (Pc n ν α)}
    {hist : List (Event (Party n) (Config (Party n) (Memory n ν α) (Pc n ν α)))}
    (h : Polling s') : BeganEmpty s' (⟨t, s, s'⟩ :: hist) ↔ BeganEmpty s hist :=
  began_cons h

/-- The call has not come to anything so far. -/
def Pc.looking : Pc n ν α → Bool
  | .nextFifo _ => true
  | .pop _ _ .readHead => true
  | .pop _ _ (.readNext _) => true
  | _ => false

/-- **The possibilities.** The consumer may have been told that there is nothing when its call
began, if that was so. -/
def Possible (loose : Bool) (s : Config (Party n) (Memory n ν α) (Pc n ν α))
    (hist : List (Event (Party n) (Config (Party n) (Memory n ν α) (Pc n ν α))))
    (x : Fin n → List α) (l : Party n → Client (Request n α) (Response α)) : Prop :=
  x = values s ∧ (∀ p, l (.producer p) = producerClient p s.mem (s.loc (.producer p))) ∧
    (l .consumer = consumerClient s.mem (s.loc .consumer) ∨
      (s.loc .consumer).looking = true ∧ l .consumer = .done .nothing ∧
        (loose = true ∨ BeganEmpty s hist))

section Values

variable {s : Config (Party n) (Memory n ν α) (Pc n ν α)} {g : Ghost n ν α} {p : Fin n} {x : ν}

/-- What is linked has been taken out, or is behind the dummy. -/
theorem linked_eq (hI : Inv s.mem g) (hT : ∀ t, ThreadFacts t s.mem g (s.loc t)) (p : Fin n) :
    (s.loc (.producer p)).linked (s.mem.pushed p) =
      poppedFrom p s.mem.popped ++ (s.loc .consumer).taking p s.mem ++
        (g.chain p).tail.map s.mem.data := by
  have hP : ProducerFacts p s.mem g (s.loc (.producer p)) := hT (.producer p)
  have htaken := taken_eq (hT .consumer) p
  have hpend := pend_eq hP
  have hvalues := hI.values p
  rw [Ghost.waiting, List.map_append, hpend, htaken, ← List.append_assoc] at hvalues
  cases hpc : s.loc (.producer p) with
  | push pc =>
    rw [hpc] at hvalues
    show (s.mem.pushed p).dropLast = _
    rw [hvalues]
    exact List.dropLast_concat
  | _ =>
    rw [hpc] at hvalues
    exact hvalues.trans (List.append_nil _)

theorem values_eq (hI : Inv s.mem g) (hT : ∀ t, ThreadFacts t s.mem g (s.loc t)) (p : Fin n) :
    values s p = (g.chain p).tail.map s.mem.data :=
  remaining_append (linked_eq hI hT p)

/-- The datum that is being pushed is the last one. -/
theorem pushed_eq (hI : Inv s.mem g) (hT : ∀ t, ThreadFacts t s.mem g (s.loc t)) {pc : PushPc ν}
    (hpc : s.loc (.producer p) = .push pc) :
    s.mem.pushed p = (s.mem.pushed p).dropLast ++ [s.mem.data pc.newNode] := by
  have hP : ProducerFacts p s.mem g (s.loc (.producer p)) := hT (.producer p)
  have hpend := pend_eq hP
  have hvalues := hI.values p
  rw [Ghost.waiting, List.map_append, hpend, hpc, ← List.append_assoc] at hvalues
  have hdrop : (s.mem.pushed p).dropLast = g.taken p ++ (g.chain p).tail.map s.mem.data := by
    rw [hvalues]
    exact List.dropLast_concat
  rw [hdrop]
  exact hvalues

/-- A head whose link is null has nothing behind it. -/
theorem values_of_empty (hI : Inv s.mem g) (hT : ∀ t, ThreadFacts t s.mem g (s.loc t))
    (hempty : Empty s.mem p) : values s p = [] := by
  obtain ⟨rest, hrest⟩ := hI.chain_eq p
  have hl := hI.linked p
  rw [hrest, linked_cons] at hl
  have hnull : rest.head? = none := hl.1.symm.trans hempty
  rw [values_eq hI hT, hrest, List.tail_cons, List.head?_eq_none_iff.mp hnull, List.map_nil]

/-- A head whose link is written has a datum behind it. -/
theorem values_of_next (hI : Inv s.mem g) (hT : ∀ t, ThreadFacts t s.mem g (s.loc t))
    (hx : s.mem.next (s.mem.head p) = some x) :
    ∃ rest, values s p = s.mem.data x :: rest := by
  obtain ⟨rest, hrest⟩ := hI.chain_of_next hx
  exact ⟨rest.map s.mem.data, by rw [values_eq hI hT, hrest, List.tail_cons, List.map_cons]⟩

end Values

/-! ## What steps do to the other clients -/

section Others

variable [NeZero n] [DecidableEq ν] {s s' : Config (Party n) (Memory n ν α) (Pc n ν α)}
  {m m' : Memory n ν α} {g g' : Ghost n ν α} {t : Party n} {p : Fin n} {pc pc' : Pc n ν α}
  {c : Choice ν α}

/-- What a step leaves alone: what other producers have pushed, and the range of the counter. -/
theorem exec_leaves (he : exec w t c m pc = some (m', pc')) :
    (∀ p, t ≠ .producer p → m'.pushed p = m.pushed p) ∧
      (m.counter < 2 ^ w → m'.counter < 2 ^ w) := by
  cases pc with
  | idle =>
    cases c with
    | store x v d =>
      obtain ⟨-, he⟩ := Option.ite_none_right_eq_some.mp he
      obtain ⟨rfl, -⟩ := Prod.mk.inj (Option.some.inj he)
      exact ⟨fun _ _ => rfl, id⟩
    | push x d =>
      cases t with
      | producer q =>
        obtain ⟨-, he⟩ := Option.ite_none_right_eq_some.mp he
        obtain ⟨rfl, -⟩ := Prod.mk.inj (Option.some.inj he)
        exact ⟨fun p hp => Function.update_of_ne (fun h => hp (congrArg _ h.symm)) .., id⟩
      | consumer => cases he
    | pop =>
      obtain ⟨-, he⟩ := Option.ite_none_right_eq_some.mp he
      obtain ⟨rfl, -⟩ := Prod.mk.inj (Option.some.inj he)
      exact ⟨fun _ _ => rfl, id⟩
    | step => cases he
  | push pc =>
    cases t with
    | producer q =>
      obtain ⟨rfl, -⟩ := Prod.mk.inj (Option.some.inj he)
      cases pc <;> exact ⟨fun _ _ => rfl, id⟩
    | consumer => cases he
  | nextFifo i =>
    simp only [exec] at he
    split at he
    case isTrue =>
      obtain ⟨rfl, -⟩ := Prod.mk.inj (Option.some.inj he)
      exact ⟨fun _ _ => rfl, fun _ => Nat.mod_lt _ (Nat.two_pow_pos w)⟩
    case isFalse =>
      obtain ⟨rfl, -⟩ := Prod.mk.inj (Option.some.inj he)
      exact ⟨fun _ _ => rfl, id⟩
  | pop i index pc =>
    obtain ⟨rfl, -⟩ := Prod.mk.inj (Option.some.inj he)
    cases pc with
    | readNext x =>
      dsimp only [popStep]
      cases m.next x <;> exact ⟨fun _ _ => rfl, id⟩
    | _ => exact ⟨fun _ _ => rfl, id⟩
  | popRet out =>
    cases out with
    | none =>
      obtain ⟨rfl, -⟩ := Prod.mk.inj (Option.some.inj he)
      exact ⟨fun _ _ => rfl, id⟩
    | some x =>
      obtain ⟨rfl, -⟩ := Prod.mk.inj (Option.some.inj he)
      exact ⟨fun _ _ => rfl, id⟩

theorem pushed_of_step (hstep : (mpscrProgram w).Step t s s') (ht : t ≠ .producer p) :
    s'.mem.pushed p = s.mem.pushed p := by
  obtain ⟨c, he⟩ := hstep.exec
  exact (exec_leaves (w := w) (c := c) he).1 p ht

/-- The datum of a push stays in its node. -/
theorem producerClient_of_step (hs : fifoAssertion.Holds s) (hs' : fifoAssertion.Holds s')
    (hstep : (mpscrProgram w).Step t s s') (ht : t ≠ .producer p) :
    producerClient p s'.mem (s'.loc (.producer p)) =
      producerClient p s.mem (s.loc (.producer p)) := by
  obtain ⟨g, hI, hT⟩ := hs
  obtain ⟨g', hI', hT'⟩ := hs'
  have hloc : s'.loc (.producer p) = s.loc (.producer p) := hstep.loc_of_ne (Ne.symm ht)
  cases hpc : s.loc (.producer p) with
  | push pc =>
    have hlast := pushed_eq hI hT hpc
    have hlast' := pushed_eq hI' hT' (hloc.trans hpc)
    rw [pushed_of_step hstep ht] at hlast'
    have hdata : s'.mem.data pc.newNode = s.mem.data pc.newNode :=
      List.singleton_inj.mp (List.append_cancel_left (hlast'.symm.trans hlast))
    rw [hloc, hpc]
    simp only [producerClient, hdata]
  | _ =>
    rw [hloc, hpc]
    rfl

omit [NeZero n] [DecidableEq ν] in
/-- The datum that the consumer has in hand stays where it is. -/
theorem taking_keep (hk : KeepsPop m g m' g') (hT : ConsumerFacts m g pc) (p : Fin n) :
    pc.taking p m' = pc.taking p m := by
  cases pc with
  | pop i index pc =>
    cases pc with
    | readData h x =>
      obtain ⟨-, rfl, -⟩ := hT
      simp only [Pc.taking, hk.data]
    | _ => rfl
  | _ => rfl

omit [NeZero n] [DecidableEq ν] in
theorem consumerClient_keep (hk : KeepsPop m g m' g') (hT : ConsumerFacts m g pc) :
    consumerClient m' pc = consumerClient m pc := by
  cases pc with
  | pop i index pc =>
    cases pc with
    | readData h x =>
      obtain ⟨-, rfl, -⟩ := hT
      simp only [consumerClient, hk.data]
    | _ => rfl
  | popRet out =>
    cases out with
    | none => rfl
    | some x =>
      have hdata := (hk.held x hT.2.1).2
      simp only [consumerClient, hdata]
  | _ => rfl

/-- What the consumer may rely on while a producer takes a step. -/
theorem keepsPop_of_step (hs : fifoAssertion.Holds s)
    (hstep : (mpscrProgram w).Step (.producer p) s s') :
    ∃ g g', ConsumerFacts s.mem g (s.loc .consumer) ∧ KeepsPop s.mem g s'.mem g' := by
  obtain ⟨g, hI, hT⟩ := hs
  have hT : ∀ t, ThreadFacts t s.mem g (s.loc t) := hT
  obtain ⟨c, he⟩ := hstep.exec
  obtain ⟨g', -, -, hk⟩ := exec_spec (w := w) (c := c) hI (hT (.producer p)) he
  exact ⟨g, g', hT .consumer, hk .consumer (by simp)⟩

/-- A step of a producer takes nothing out. -/
theorem out_of_producer (hs : fifoAssertion.Holds s)
    (hstep : (mpscrProgram w).Step (.producer p) s s') (q : Fin n) :
    poppedFrom q s'.mem.popped ++ (s'.loc .consumer).taking q s'.mem =
      poppedFrom q s.mem.popped ++ (s.loc .consumer).taking q s.mem := by
  obtain ⟨g, g', hC, hk⟩ := keepsPop_of_step hs hstep
  rw [hk.popped, hstep.loc_of_ne (by simp), taking_keep hk hC]

/-- A step of a producer, as the others see it. -/
theorem values_of_producer (hs : fifoAssertion.Holds s)
    (hstep : (mpscrProgram w).Step (.producer p) s s') {q : Fin n} (hq : q ≠ p) :
    values s' q = values s q := by
  have hne : Party.producer p ≠ .producer q := fun h => hq (Party.producer.inj h).symm
  rw [values, values, out_of_producer hs hstep, pushed_of_step hstep hne,
    hstep.loc_of_ne (Ne.symm hne)]

/-- A step of the consumer links nothing. -/
theorem linked_of_consumer (hstep : (mpscrProgram w).Step .consumer s s') (p : Fin n) :
    (s'.loc (.producer p)).linked (s'.mem.pushed p) =
      (s.loc (.producer p)).linked (s.mem.pushed p) := by
  rw [pushed_of_step hstep (by simp), hstep.loc_of_ne (by simp)]

end Others

/-! ## The moves of the client that takes the step -/

section Moves

variable [NeZero n] [DecidableEq ν] {loose : Bool}
  {s s' : Config (Party n) (Memory n ν α) (Pc n ν α)} {p : Fin n}

/-- The last store of a push puts its datum behind the others. -/
theorem values_of_link {pc : PushPc ν} (hs : fifoAssertion.Holds s)
    (hstep : (mpscrProgram w).Step (.producer p) s s') (hpc : s.loc (.producer p) = .push pc)
    (hpc' : s'.loc (.producer p) = .idle) (hpushed : s'.mem.pushed = s.mem.pushed) :
    values s' = Function.update (values s) p (values s p ++ [s.mem.data pc.newNode]) := by
  funext q
  by_cases hq : q = p
  · subst hq
    have hout := out_of_producer hs hstep q
    obtain ⟨g, hI, hT⟩ := hs
    have hlast := pushed_eq hI hT hpc
    have hlinked := linked_eq hI hT q
    rw [hpc] at hlinked
    have hle : (poppedFrom q s.mem.popped ++ (s.loc .consumer).taking q s.mem).length ≤
        (s.mem.pushed q).dropLast.length := by
      rw [show (s.mem.pushed q).dropLast = _ from hlinked]
      exact (List.prefix_append ..).length_le
    rw [Function.update_self, values, values, hout, hpc, hpc', hpushed]
    show remaining (s.mem.pushed q) _ = remaining (s.mem.pushed q).dropLast _ ++ _
    rw [← remaining_put hle, ← hlast]
  · rw [Function.update_of_ne hq]
    exact values_of_producer hs hstep hq

/-- Before that nothing changes. -/
theorem values_of_linked (hs : fifoAssertion.Holds s)
    (hstep : (mpscrProgram w).Step (.producer p) s s')
    (hlinked : (s'.loc (.producer p)).linked (s'.mem.pushed p) =
      (s.loc (.producer p)).linked (s.mem.pushed p)) : values s' = values s := by
  funext q
  by_cases hq : q = p
  · subst hq
    rw [values, values, out_of_producer hs hstep, hlinked]
  · exact values_of_producer hs hstep hq

/-- **One step of a producer.** -/
theorem goes_of_producer (hs : fifoAssertion.Holds s)
    (hstep : (mpscrProgram w).Step (.producer p) s s') :
    (queues n α loose).Goes (values s) (producerClient p s.mem (s.loc (.producer p)))
      (mpscrInterface.labels (.producer p) s.mem (s.loc (.producer p)) s'.mem
        (s'.loc (.producer p)))
      (values s') (producerClient p s'.mem (s'.loc (.producer p))) := by
  have hfacts : ∃ g, ProducerFacts p s.mem g (s.loc (.producer p)) := by
    obtain ⟨g, -, hT⟩ := hs
    exact ⟨g, hT (.producer p)⟩
  have hsame := values_of_linked hs hstep
  obtain ⟨c, he⟩ : ∃ c, exec w (.producer p) c s.mem (s.loc (.producer p)) =
    some (s'.mem, s'.loc (.producer p)) := hstep.exec
  cases hpc : s.loc (.producer p) with
  | idle =>
    rw [hpc] at he hsame
    cases c with
    | store x v d =>
      obtain ⟨-, he⟩ := Option.ite_none_right_eq_some.mp he
      obtain ⟨hmem, hloc⟩ := Prod.mk.inj (Option.some.inj he)
      rw [← hloc] at hsame ⊢
      rw [hsame (by rw [← hmem])]
      exact .refl
    | push x d =>
      obtain ⟨-, he⟩ := Option.ite_none_right_eq_some.mp he
      obtain ⟨hmem, hloc⟩ := Prod.mk.inj (Option.some.inj he)
      rw [← hloc] at hsame ⊢
      rw [hsame]
      · exact .call (Request.push p (s'.mem.data x)) .refl
      · rw [← hmem]
        show List.dropLast (Function.update s.mem.pushed p (s.mem.pushed p ++ [d]) p) = _
        rw [Function.update_self]
        exact List.dropLast_concat
    | pop => simp [exec] at he
    | step => simp [exec] at he
  | push pc =>
    rw [hpc] at he hsame
    obtain ⟨hmem, hloc⟩ := Prod.mk.inj (Option.some.inj he)
    cases pc with
    | linkNext x y =>
      have hpushed : s'.mem.pushed = s.mem.pushed := by rw [← hmem]; rfl
      rw [values_of_link hs hstep hpc hloc.symm hpushed, ← hloc]
      have hperform : (queues n α loose).Goes (values s) (.pending (.push p (s.mem.data x))) []
          (Function.update (values s) p (values s p ++ [s.mem.data x])) (.done .stored) :=
        .perform .refl (.push _ p _)
      exact hperform.ret
    | _ =>
      rw [← hloc] at hsame ⊢
      rw [hsame (by rw [← hmem]; rfl), ← hmem]
      exact .refl
  | _ =>
    obtain ⟨g, hT⟩ := hfacts
    rw [hpc] at hT
    exact absurd hT id

/-- A step of the consumer that does not move a head. -/
theorem values_of_taking (hstep : (mpscrProgram w).Step .consumer s s')
    (hout : ∀ p, poppedFrom p s'.mem.popped ++ (s'.loc .consumer).taking p s'.mem =
      poppedFrom p s.mem.popped ++ (s.loc .consumer).taking p s.mem) : values s' = values s := by
  funext p
  rw [values, values, linked_of_consumer hstep, hout]

/-- The step that moves the head of fifo `index` takes what is first there. -/
theorem values_of_moved {index : Fin n} {i : Nat} {h x : ν} (hs : fifoAssertion.Holds s)
    (hstep : (mpscrProgram w).Step .consumer s s')
    (hpc : s.loc .consumer = .pop i index (.writeHead h x))
    (hpc' : s'.loc .consumer = .pop i index (.readData h x))
    (hpopped : s'.mem.popped = s.mem.popped) (hdata : s'.mem.data x = s.mem.data x) :
    ∃ rest, values s index = s.mem.data x :: rest ∧
      values s' = Function.update (values s) index rest := by
  obtain ⟨g, hI, hT⟩ := hs
  have hC : ConsumerFacts s.mem g (s.loc .consumer) := hT .consumer
  rw [hpc] at hC
  obtain ⟨-, hhead, hnext⟩ := hC
  obtain ⟨rest, hrest⟩ := values_of_next hI hT (hhead.symm ▸ hnext)
  refine ⟨rest, hrest, ?_⟩
  funext q
  have hlinked := linked_eq hI hT q
  rw [← values_eq hI hT] at hlinked
  rw [hpc] at hlinked
  have hold : (s.loc (.producer q)).linked (s.mem.pushed q) =
      poppedFrom q s.mem.popped ++ values s q := by
    rw [hlinked]
    simp [Pc.taking]
  rw [values, linked_of_consumer hstep, hpc', hpopped]
  apply remaining_append
  rw [hold]
  by_cases hq : q = index
  · subst hq
    rw [Function.update_self, hrest]
    simp [Pc.taking, hdata]
  · rw [Function.update_of_ne hq]
    simp [Pc.taking, Ne.symm hq]

/-- **One step of the consumer** that does not find out that there is nothing. -/
theorem goes_of_consumer (hs : fifoAssertion.Holds s)
    (hstep : (mpscrProgram w).Step .consumer s s') (hnot : s'.loc .consumer ≠ .popRet none) :
    (queues n α loose).Goes (values s) (consumerClient s.mem (s.loc .consumer))
      (mpscrInterface.labels .consumer s.mem (s.loc .consumer) s'.mem (s'.loc .consumer))
      (values s') (consumerClient s'.mem (s'.loc .consumer)) := by
  have hfacts : ∃ g, ConsumerFacts s.mem g (s.loc .consumer) := by
    obtain ⟨g, -, hT⟩ := hs
    exact ⟨g, hT .consumer⟩
  have hsame := values_of_taking hstep
  obtain ⟨c, he⟩ : ∃ c, exec w .consumer c s.mem (s.loc .consumer) =
    some (s'.mem, s'.loc .consumer) := hstep.exec
  cases hpc : s.loc .consumer with
  | idle =>
    rw [hpc] at he hsame
    cases c with
    | store x v d =>
      obtain ⟨-, he⟩ := Option.ite_none_right_eq_some.mp he
      obtain ⟨hmem, hloc⟩ := Prod.mk.inj (Option.some.inj he)
      rw [← hloc] at hsame ⊢
      rw [hsame fun p => by rw [← hmem]; rfl]
      exact .refl
    | push x d => cases he
    | pop =>
      have he : some (s.mem, .nextFifo 0) = some (s'.mem, s'.loc .consumer) := he
      obtain ⟨hmem, hloc⟩ := Prod.mk.inj (Option.some.inj he)
      rw [← hloc] at hsame ⊢
      rw [hsame fun p => by rw [← hmem]; rfl]
      exact .call Request.trypop .refl
    | step => cases he
  | push pc =>
    obtain ⟨g, hT⟩ := hfacts
    rw [hpc] at hT
    exact absurd hT id
  | nextFifo i =>
    rw [hpc] at he hsame
    simp only [exec] at he
    split at he
    case isTrue =>
      obtain ⟨hmem, hloc⟩ := Prod.mk.inj (Option.some.inj he)
      rw [← hloc] at hsame ⊢
      rw [hsame fun p => by rw [← hmem]; rfl]
      exact .refl
    case isFalse =>
      obtain ⟨-, hloc⟩ := Prod.mk.inj (Option.some.inj he)
      exact absurd hloc.symm hnot
  | pop i index pc =>
    rw [hpc] at he hsame
    obtain ⟨hmem, hloc⟩ := Prod.mk.inj (Option.some.inj he)
    cases pc with
    | readHead =>
      rw [← hloc] at hsame ⊢
      rw [hsame fun p => by rw [← hmem]; rfl]
      exact .refl
    | readNext h =>
      cases hnext : s.mem.next h with
      | none =>
        simp only [popStep, hnext] at hmem hloc
        rw [← hloc] at hsame ⊢
        rw [hsame fun p => by rw [← hmem]; rfl]
        exact .refl
      | some x =>
        simp only [popStep, hnext] at hmem hloc
        rw [← hloc] at hsame ⊢
        rw [hsame fun p => by rw [← hmem]; rfl]
        exact .refl
    | writeHead h x =>
      have hpopped : s'.mem.popped = s.mem.popped := by rw [← hmem]; rfl
      have hdata : s'.mem.data x = s.mem.data x := by rw [← hmem]; rfl
      obtain ⟨rest, hrest, hvalues⟩ := values_of_moved hs hstep hpc hloc.symm hpopped hdata
      rw [hvalues, ← hloc, ← hmem]
      exact .perform .refl (.trypop _ index _ _ hrest)
    | readData h x =>
      rw [← hloc] at hsame ⊢
      rw [hsame fun p => by rw [← hmem]; rfl]
      exact .refl
    | writeData h d =>
      have hd : s'.mem.data h = d := by
        rw [← hmem]
        exact Function.update_self ..
      rw [← hloc] at hsame ⊢
      rw [hsame]
      · show (queues n α loose).Goes _ (.done (.took d)) [] _ (.done (.took (s'.mem.data h)))
        rw [hd]
        exact .refl
      · intro p
        rw [← hmem]
        show poppedFrom p (s.mem.popped ++ [(index, d)]) ++ [] = _
        rw [List.append_nil, poppedFrom_append]
        simp only [Pc.taking]
        split <;> simp
  | popRet out =>
    rw [hpc] at he hsame
    cases out with
    | none =>
      obtain ⟨hmem, hloc⟩ := Prod.mk.inj (Option.some.inj he)
      rw [← hloc] at hsame ⊢
      rw [hsame fun p => by rw [← hmem]; rfl]
      exact .ret .refl
    | some x =>
      obtain ⟨hmem, hloc⟩ := Prod.mk.inj (Option.some.inj he)
      rw [← hloc] at hsame ⊢
      rw [hsame fun p => by rw [← hmem]; rfl]
      exact .ret .refl

end Moves

/-! ## A call that finds nothing -/

section Nothing

variable [NeZero n] [DecidableEq ν] {loose : Bool}
  {s s' : Config (Party n) (Memory n ν α) (Pc n ν α)}
  {hist : List (Event (Party n) (Config (Party n) (Memory n ν α) (Pc n ν α)))}
  {m m' m₀ : Memory n ν α} {t : Party n} {pc pc' : Pc n ν α} {c : Choice ν α}

/-- A call begins at the head of the loop. -/
theorem enters_of_exec (he : exec w .consumer c m .idle = some (m', pc')) (hbusy : pc' ≠ .idle) :
    m' = m ∧ pc' = .nextFifo 0 := by
  cases c with
  | store x v d =>
    obtain ⟨-, he⟩ := Option.ite_none_right_eq_some.mp he
    exact absurd (Prod.mk.inj (Option.some.inj he)).2.symm hbusy
  | push x d => cases he
  | pop =>
    have he : some (m, .nextFifo 0) = some (m', pc') := he
    obtain ⟨rfl, rfl⟩ := Prod.mk.inj (Option.some.inj he)
    exact ⟨rfl, rfl⟩
  | step => cases he

/-- A call that has not come to anything had not come to anything before. -/
theorem looking_of_exec (he : exec w .consumer c m pc = some (m', pc')) (hbusy : pc ≠ .idle)
    (hnothing : pc'.looking = true ∨ pc' = .popRet none) :
    pc.looking = true ∧ m'.popped = m.popped := by
  have hfound : ∀ {pc'' : Pc n ν α}, pc''.looking = false → pc'' ≠ .popRet none → pc'' ≠ pc' := by
    rintro _ hlook hret rfl
    rcases hnothing with h | h
    · rw [hlook] at h
      cases h
    · exact hret h
  cases pc with
  | idle => exact absurd rfl hbusy
  | push pc => cases he
  | nextFifo i =>
    simp only [exec] at he
    split at he
    all_goals
      obtain ⟨rfl, -⟩ := Prod.mk.inj (Option.some.inj he)
      exact ⟨rfl, rfl⟩
  | pop i index pc =>
    obtain ⟨rfl, hpc'⟩ := Prod.mk.inj (Option.some.inj he)
    cases pc with
    | readHead => exact ⟨rfl, rfl⟩
    | readNext h =>
      refine ⟨rfl, ?_⟩
      dsimp only [popStep]
      cases m.next h <;> rfl
    | _ => exact absurd hpc' (hfound rfl (by simp [popStep]))
  | popRet out =>
    cases out with
    | none => exact absurd (Prod.mk.inj (Option.some.inj he)).2 (hfound rfl (by simp))
    | some x => exact absurd (Prod.mk.inj (Option.some.inj he)).2 (hfound rfl (by simp))

omit [NeZero n] [DecidableEq ν] in
/-- Such a call has nothing in hand. -/
theorem taking_of_looking (h : pc.looking = true ∨ pc = .popRet none) (p : Fin n) :
    pc.taking p m = [] := by
  rcases h with h | rfl
  · cases pc with
    | pop i index pc =>
      cases pc with
      | readData h' x => cases h
      | writeData h' d => cases h
      | _ => rfl
    | _ => rfl
  · rfl

omit [NeZero n] [DecidableEq ν] in
theorem busy_of_ne (h : pc ≠ .idle) :
    (mpscrInterface : Interface (Party n) (Memory n ν α) _ _ _).busy pc = true := by
  cases pc with
  | idle => exact absurd rfl h
  | _ => rfl

/-- **What the consumer's client may do meanwhile**: to be told that there is nothing as its call
begins, and to wait for the call to find that out. -/
theorem goes_of_nothing (hs : fifoAssertion.Holds s) (hstep : (mpscrProgram w).Step .consumer s s')
    (hnothing : (s'.loc .consumer).looking = true ∨ s'.loc .consumer = .popRet none)
    (hempty : loose = true ∨ (s.loc .consumer = .idle → ∀ p, Empty s.mem p)) :
    ∃ k, (k = consumerClient s.mem (s.loc .consumer) ∨
        (s.loc .consumer).looking = true ∧ k = .done .nothing) ∧
      (queues n α loose).Goes (values s) k
        (mpscrInterface.labels .consumer s.mem (s.loc .consumer) s'.mem (s'.loc .consumer))
        (values s') (.done .nothing) := by
  have hbusy' : s'.loc .consumer ≠ .idle := by
    intro hidle
    rw [hidle] at hnothing
    rcases hnothing with h | h <;> cases h
  obtain ⟨c, he⟩ : ∃ c, exec w .consumer c s.mem (s.loc .consumer) =
    some (s'.mem, s'.loc .consumer) := hstep.exec
  by_cases hidle : s.loc .consumer = .idle
  · rw [hidle] at he
    obtain ⟨hmem, hloc⟩ := enters_of_exec he hbusy'
    have hvalues : values s' = values s := by
      refine values_of_taking hstep fun p => ?_
      rw [hloc, hidle, hmem]
      rfl
    have hcall : (queues n α loose).Goes (values s) .idle [.call .trypop] (values s)
        (.pending .trypop) := .call Request.trypop .refl
    rw [hvalues, hidle, hloc]
    refine ⟨.idle, .inl rfl, hcall.perform (.nothing _ ?_)⟩
    rcases hempty with hloose | hempty
    · exact .inr hloose
    · obtain ⟨g, hI, hT⟩ := hs
      exact .inl fun p => values_of_empty hI hT (hempty hidle p)
  · obtain ⟨hlook, hpopped⟩ := looking_of_exec he hidle hnothing
    have hvalues : values s' = values s := by
      refine values_of_taking hstep fun p => ?_
      rw [hpopped, taking_of_looking hnothing, taking_of_looking (.inl hlook)]
    rw [hvalues, Interface.labels_busy (busy_of_ne hidle) (busy_of_ne hbusy')]
    exact ⟨_, .inr ⟨hlook, rfl⟩, .refl⟩

/-- The attempts that a call has begun. -/
def Pc.attempts : Pc n ν α → Nat
  | .nextFifo i => i
  | .pop i _ _ => i + 1
  | .popRet none => n
  | _ => 0

/-- The call in progress began in memory `m₀`, and the counter has not come round since where it
must not. -/
structure CalledIn (w : Nat) (m₀ : Memory n ν α) (s : Config (Party n) (Memory n ν α) (Pc n ν α))
    (hist : List (Event (Party n) (Config (Party n) (Memory n ν α) (Pc n ν α)))) : Prop where
  range : m₀.counter < 2 ^ w
  began : Began Polling (fun a => a.mem = m₀) s hist
  progress : ∃ seen, Progress w m₀ s.mem seen (s.loc .consumer)
  fits : n ∣ 2 ^ w ∨
    ∀ j, 0 < j → j < (s.loc .consumer).attempts → (m₀.counter + j) % 2 ^ w ≠ 0

omit [DecidableEq ν] in
theorem calledIn_idle (hidle : s.loc .consumer = .idle) (hc : s.mem.counter < 2 ^ w) :
    CalledIn w s.mem s hist := by
  have hnot : ¬ Polling s := fun h => h hidle
  constructor
  case range => exact hc
  case began => exact (began_of_not_busy hnot).mpr rfl
  case progress =>
    rw [hidle]
    exact ⟨[], trivial⟩
  case fits =>
    rw [hidle]
    exact .inr fun j _ hj => absurd hj (Nat.not_lt_zero j)

/-- One more attempt, at a counter that has not come round. -/
theorem attempts_of_exec {seen : List (Fin n)} (hP : Progress w m₀ m seen pc)
    (hok : FitsUnless w false .consumer m pc m') (hbusy : pc ≠ .idle)
    (he : exec w .consumer c m pc = some (m', pc'))
    (hfits : n ∣ 2 ^ w ∨ ∀ j, 0 < j → j < pc.attempts → (m₀.counter + j) % 2 ^ w ≠ 0) :
    n ∣ 2 ^ w ∨ ∀ j, 0 < j → j < pc'.attempts → (m₀.counter + j) % 2 ^ w ≠ 0 := by
  rcases hfits with hdvd | hfits
  · exact .inl hdvd
  rcases hok rfl with hdvd | hround
  · exact .inl hdvd
  right
  intro j hj hlt
  cases pc with
  | idle => exact absurd rfl hbusy
  | push pc => cases he
  | nextFifo i =>
    obtain ⟨hi, hc, -⟩ := hP
    simp only [exec] at he
    split at he
    case isTrue hin =>
      obtain ⟨-, rfl⟩ := Prod.mk.inj (Option.some.inj he)
      rcases Nat.lt_succ_iff_lt_or_eq.mp hlt with hlt | rfl
      · exact hfits j hj hlt
      · exact hc ▸ hround j hin hj rfl
    case isFalse hge =>
      obtain ⟨-, rfl⟩ := Prod.mk.inj (Option.some.inj he)
      obtain rfl : i = n := by omega
      exact hfits j hj hlt
  | pop i index pc =>
    obtain ⟨-, rfl⟩ := Prod.mk.inj (Option.some.inj he)
    cases pc with
    | readNext x =>
      cases hnext : m.next x with
      | none =>
        simp only [popStep, hnext] at hlt
        exact hfits j hj hlt
      | some y =>
        simp only [popStep, hnext] at hlt
        exact hfits j hj hlt
    | writeData h d => exact absurd hlt (Nat.not_lt_zero j)
    | _ => exact hfits j hj hlt
  | popRet out =>
    cases out with
    | none =>
      obtain ⟨-, rfl⟩ := Prod.mk.inj (Option.some.inj he)
      exact absurd hlt (Nat.not_lt_zero j)
    | some x =>
      obtain ⟨-, rfl⟩ := Prod.mk.inj (Option.some.inj he)
      exact absurd hlt (Nat.not_lt_zero j)

/-- A producer unlinks nothing. -/
theorem empty_of_producer {p q : Fin n} (hs : fifoAssertion.Holds s)
    (hstep : (mpscrProgram w).Step (.producer p) s s') (hq : Empty s'.mem q) : Empty s.mem q := by
  obtain ⟨g, g', -, hk⟩ := keepsPop_of_step hs hstep
  unfold Empty at *
  cases hnext : s.mem.next (s.mem.head q) with
  | none => rfl
  | some x =>
    rw [hk.head, hk.next q x hnext] at hq
    cases hq

/-- **One step of anybody during the call.** -/
theorem CalledIn.step (h : CalledIn w m₀ s hist) (hs : fifoAssertion.Holds s)
    (hstep : (mpscrProgram w).StepIf (FitsUnless w false) t s s')
    (hbusy : s.loc .consumer ≠ .idle) (hbusy' : s'.loc .consumer ≠ .idle) :
    CalledIn w m₀ s' (⟨t, s, s'⟩ :: hist) := by
  obtain ⟨hrange, hbegan, ⟨seen, hP⟩, hfits⟩ := h
  have hpolling : Polling s' := hbusy'
  have hbegan' : Began Polling (fun a => a.mem = m₀) s' (⟨t, s, s'⟩ :: hist) :=
    (began_cons hpolling).mpr hbegan
  obtain ⟨c, he⟩ : ∃ c, exec w t c s.mem (s.loc t) = some (s'.mem, s'.loc t) := hstep.2.exec
  cases t with
  | producer p =>
    have hloc : s'.loc .consumer = s.loc .consumer := hstep.2.loc_of_ne (by simp)
    have hcounter : s'.mem.counter = s.mem.counter := by
      obtain ⟨g, -, hT⟩ := hs
      exact (producer_step (hT (.producer p)) he).1
    rw [← hloc] at hP hfits
    exact ⟨hrange, hbegan', ⟨seen, hP.keep hcounter fun q => empty_of_producer hs hstep.2⟩, hfits⟩
  | consumer =>
    obtain ⟨g, -, hT⟩ := hs
    exact ⟨hrange, hbegan', ⟨_, hP.step (hT .consumer) hbusy he⟩,
      attempts_of_exec hP hstep.1 hbusy he hfits⟩

/-- The counter while it must not come round within a call, and the call in progress. -/
theorem calledIn_of_run (run : Run Init ((mpscrProgram w).StepIf (FitsUnless w false)) s hist) :
    s.mem.counter < 2 ^ w ∧ ∃ m₀, CalledIn w m₀ s hist := by
  refine run.invariant_hist
    (J := fun s hist => s.mem.counter < 2 ^ w ∧ ∃ m₀, CalledIn w m₀ s hist) ?_ ?_
  · intro s h
    have hc : s.mem.counter < 2 ^ w := by
      rw [h.1]
      exact Nat.two_pow_pos w
    obtain ⟨-, -, -, -, -, -, hloc⟩ := h
    exact ⟨hc, _, calledIn_idle (hloc .consumer) hc⟩
  · rintro t s s' hist hr ⟨hc, m₀, hcall⟩ hstep
    have hs := fifo_invariant (hr.mono fun _ _ _ h => h.2)
    obtain ⟨c, he⟩ : ∃ c, exec w t c s.mem (s.loc t) = some (s'.mem, s'.loc t) := hstep.2.exec
    have hc' : s'.mem.counter < 2 ^ w := (exec_leaves he).2 hc
    refine ⟨hc', ?_⟩
    by_cases hidle' : s'.loc .consumer = .idle
    · exact ⟨_, calledIn_idle hidle' hc'⟩
    by_cases hidle : s.loc .consumer = .idle
    · -- the call begins with this step
      have ht : t = .consumer := by
        by_contra hne
        rw [hstep.2.loc_of_ne (Ne.symm hne)] at hidle'
        exact hidle' hidle
      subst ht
      rw [hidle] at he
      obtain ⟨hmem, hloc⟩ := enters_of_exec he hidle'
      have hnot : ¬ Polling s := fun h => h hidle
      have hpolling : Polling s' := hidle'
      refine ⟨s.mem, hc, (began_cons hpolling).mpr ((began_of_not_busy hnot).mpr rfl), ⟨[], ?_⟩, ?_⟩
      · rw [hloc, hmem]
        exact ⟨Nat.zero_le n, (Nat.mod_eq_of_lt hc).symm, rfl, ⟨nofun, fun _ h => h⟩⟩
      · rw [hloc]
        exact .inr fun j _ hj => absurd hj (Nat.not_lt_zero j)
    · exact ⟨m₀, hcall.step hs hstep hidle hidle'⟩

/-- **A call that returns null began when there was nothing.** -/
theorem beganEmpty_of_null (run : Run Init ((mpscrProgram w).StepIf (FitsUnless w false)) s hist)
    (hnull : s.loc .consumer = .popRet none) : BeganEmpty s hist := by
  obtain ⟨-, m₀, hrange, hbegan, ⟨seen, hP⟩, hfits⟩ := calledIn_of_run run
  rw [hnull] at hP hfits
  obtain ⟨-, hempty⟩ := hP
  have hfit : n ∣ 2 ^ w ∨ m₀.counter + n ≤ 2 ^ w := by
    refine hfits.imp_right fun hround => ?_
    by_contra hgt
    refine hround (2 ^ w - m₀.counter) (by omega) ?_ ?_
    · show 2 ^ w - m₀.counter < n
      omega
    · rw [Nat.add_sub_cancel' hrange.le, Nat.mod_self]
  obtain ⟨-, hsurj⟩ := (visited_bijective_iff hrange).mpr hfit
  refine hbegan.imp fun a ha p => ?_
  obtain ⟨j, rfl⟩ := hsurj p
  rw [ha]
  exact hempty j j.isLt

end Nothing

section Runs

variable [NeZero n] [DecidableEq ν] {loose : Bool}
  {s : Config (Party n) (Memory n ν α) (Pc n ν α)}
  {hist : List (Event (Party n) (Config (Party n) (Memory n ν α) (Pc n ν α)))}

/-- Where the clients are for sure. -/
def clients (s : Config (Party n) (Memory n ν α) (Pc n ν α)) :
    Party n → Client (Request n α) (Response α)
  | .producer p => producerClient p s.mem (s.loc (.producer p))
  | .consumer => consumerClient s.mem (s.loc .consumer)

/-- Before a step of the consumer, its client had been told that there is nothing, or it moves. -/
theorem possible_of_consumer {s' : Config (Party n) (Memory n ν α) (Pc n ν α)}
    {k' : Client (Request n α) (Response α)}
    (run : Run Init ((mpscrProgram w).StepIf (FitsUnless w loose)) s hist)
    (hstep : (mpscrProgram w).StepIf (FitsUnless w loose) .consumer s s')
    (hk' : k' = consumerClient s'.mem (s'.loc .consumer) ∨
      (s'.loc .consumer).looking = true ∧ k' = .done .nothing ∧
        (loose = true ∨ BeganEmpty s' (⟨.consumer, s, s'⟩ :: hist))) :
    ∃ k, (k = consumerClient s.mem (s.loc .consumer) ∨
        (s.loc .consumer).looking = true ∧ k = .done .nothing ∧
          (loose = true ∨ BeganEmpty s hist)) ∧
      (queues n α loose).Goes (values s) k (mpscrInterface.labels .consumer s.mem
        (s.loc .consumer) s'.mem (s'.loc .consumer)) (values s') k' := by
  have hs : fifoAssertion.Holds s := fifo_invariant (run.mono fun _ _ _ h => h.2)
  have hnothing : ∀ {k'}, (s'.loc .consumer).looking = true ∨ s'.loc .consumer = .popRet none →
      (loose = true ∨ BeganEmpty s' (⟨.consumer, s, s'⟩ :: hist)) → k' = .done .nothing →
      ∃ k, (k = consumerClient s.mem (s.loc .consumer) ∨
          (s.loc .consumer).looking = true ∧ k = .done .nothing ∧
            (loose = true ∨ BeganEmpty s hist)) ∧
        (queues n α loose).Goes (values s) k (mpscrInterface.labels .consumer s.mem
          (s.loc .consumer) s'.mem (s'.loc .consumer)) (values s') k' := by
    rintro k' hend hbegan' rfl
    have hpolling : Polling s' := by
      intro hidle
      rw [hidle] at hend
      rcases hend with h | h <;> cases h
    have hbegan : loose = true ∨ BeganEmpty s hist :=
      hbegan'.imp_right (beganEmpty_cons hpolling).mp
    obtain ⟨k, hk, hgoes⟩ := goes_of_nothing hs hstep.2 hend
      (hbegan.imp_right fun h hidle => (began_of_not_busy fun hbusy => hbusy hidle).mp h)
    exact ⟨k, hk.imp_right fun ⟨hlook, hdone⟩ => ⟨hlook, hdone, hbegan⟩, hgoes⟩
  rcases hk' with rfl | ⟨hlook, hdone, hbegan⟩
  · by_cases hnull : s'.loc .consumer = .popRet none
    · refine hnothing (.inr hnull) ?_ (by rw [hnull]; rfl)
      cases loose with
      | true => exact .inl rfl
      | false => exact .inr (beganEmpty_of_null (run.next hstep) hnull)
    · exact ⟨_, .inl rfl, goes_of_consumer hs hstep.2 hnull⟩
  · exact hnothing (.inl hlook) hbegan hdone

/-- **`mpscr_fifo` is linearizable to one queue for each producer**, of which the consumer takes
from any; with one producer it is `spsc_fifo`. Null means that all queues are empty at one
instant, unless the counter comes round within a call and its range is no multiple of
`num_producers`. -/
theorem mpscrFifo_calls_linearizable
    (run : Run Init ((mpscrProgram w).StepIf (FitsUnless w loose)) s hist) :
    Linearizable (queues n α loose) (mpscrInterface.trace hist) := by
  have hinv : ∀ {s : Config (Party n) (Memory n ν α) (Pc n ν α)} {hist},
      Run Init ((mpscrProgram w).StepIf (FitsUnless w loose)) s hist → fifoAssertion.Holds s :=
    fun hr => fifo_invariant (hr.mono fun _ _ _ h => h.2)
  refine run.linearizable_of_possible (queues n α loose) (Possible loose) ?_ ?_
    ⟨values s, clients s, rfl, fun _ => rfl, .inl rfl⟩
  · rintro s x l ⟨-, -, -, -, hpushed, hpopped, hloc⟩ ⟨rfl, hproducers, hconsumer⟩
    refine ⟨fun p => ?_, fun t => ?_⟩
    · rw [values, hloc, hloc, hpopped, hpushed]
      rfl
    · cases t with
      | producer p =>
        rw [hproducers, hloc]
        rfl
      | consumer =>
        rw [hloc] at hconsumer
        rcases hconsumer with h | ⟨h, -⟩
        · exact h
        · cases h
  · rintro t s s' hist x' l' hr hstep ⟨rfl, hproducers, hconsumer⟩
    have hs := hinv hr
    have hs' := hinv (hr.next hstep)
    cases t with
    | producer p =>
      have hloc : s'.loc .consumer = s.loc .consumer := hstep.2.loc_of_ne (by simp)
      refine ⟨values s, Function.update l' (.producer p) (producerClient p s.mem
        (s.loc (.producer p))), ⟨rfl, fun q => ?_, ?_⟩, fun u hu => ?_, ?_⟩
      · by_cases hq : q = p
        · subst hq
          exact Function.update_self ..
        · have hne : Party.producer p ≠ .producer q := fun h => hq (Party.producer.inj h).symm
          rw [Function.update_of_ne (Ne.symm hne), hproducers]
          exact producerClient_of_step hs hs' hstep.2 hne
      · rw [Function.update_of_ne (by simp)]
        obtain ⟨g, g', hC, hk⟩ := keepsPop_of_step hs hstep.2
        rw [hloc, consumerClient_keep hk hC] at hconsumer
        refine hconsumer.imp_right fun ⟨hlook, hdone, hbegan⟩ => ⟨hlook, hdone, ?_⟩
        have hpolling : Polling s' := fun hidle => by
          rw [hloc.symm.trans hidle] at hlook
          cases hlook
        exact hbegan.imp_right (beganEmpty_cons hpolling).mp
      · exact (Function.update_of_ne hu ..).symm
      · rw [Function.update_self, hproducers]
        exact goes_of_producer hs hstep.2
    | consumer =>
      obtain ⟨k, hk, hgoes⟩ := possible_of_consumer hr hstep hconsumer
      refine ⟨values s, Function.update l' .consumer k, ⟨rfl, fun q => ?_, ?_⟩, fun u hu => ?_, ?_⟩
      · rw [Function.update_of_ne (by simp), hproducers]
        exact producerClient_of_step hs hs' hstep.2 (by simp)
      · rw [Function.update_self]
        exact hk
      · exact (Function.update_of_ne hu ..).symm
      · rw [Function.update_self]
        exact hgoes

end Runs

/-- The consumer finds fifo 0 empty; then producer 0 pushes, and fifo 1 is empty too. The consumer
returns null after the push has returned: its pop came first. -/
theorem mpscrFifo_calls_linearizable_null :
    ∃ (s : Config (Party 2) (Memory 2 Nat Nat) (Pc 2 Nat Nat)) (hist : _),
      Run Init ((mpscrProgram 64).StepIf (FitsUnless 64 false)) s hist ∧
        mpscrInterface.trace hist =
          [(.consumer, .call .trypop), (.producer 0, .call (.push 0 7)),
            (.producer 0, .ret .stored), (.consumer, .ret .nothing)] ∧
        Linearizable (queues 2 Nat false) (mpscrInterface.trace hist) := by
  have hstart : Run Init ((mpscrProgram (n := 2) (ν := Nat) (α := Nat) 64).StepIf
      (FitsUnless 64 false)) (initial 2 0) [] := .start (init_initial 2 0)
  obtain ⟨s, hist, run, htrace⟩ := hstart.exists_of_historyIf
    (q := fun _ hist => mpscrInterface.trace hist =
      [(.consumer, .call .trypop), (.producer 0, .call (.push 0 7)),
        (.producer 0, .ret .stored), (.consumer, .ret .nothing)])
    (List.flatten [[(.consumer, .pop)], List.replicate 3 (.consumer, .step),
      [(.producer 0, .push 2 7)], List.replicate 4 (.producer 0, .step),
      List.replicate 5 (.consumer, .step)])
    (by decide +kernel)
  exact ⟨s, hist, run, htrace, mpscrFifo_calls_linearizable run⟩

end FibConcurrent.MpscrFifo
