import FibConcurrent.Machine.Program

/-!
# Machine — linearizability

What it means that a concurrent object behaves like a sequential one, said about
nothing but the calls and returns that its clients see. A history is linearizable if the
calls in it can be put into one sequence that is legal for the sequential object,
gives every completed call the result that it returned, and keeps the order of calls of
which one returned before the other began; a call that has not returned may be in the
sequence or not.

The proof rule (`Run.linearizable`) needs one instant for each call: in the run of
a program, every step of a thread is matched by moves of the same client of the
sequential object (`Object.Goes`), which waits while its call is pending and takes its
result at one of them. Where that instant is known only later, the object is followed through
all its possibilities, backwards (`Run.linearizable_of_possible`).
-/

namespace FibConcurrent.Machine

variable {ι σ ω ρ : Type*}

/-- A sequential object: where it starts, and from which state an operation may lead to which
other with which result. -/
structure Object (σ ω ρ : Type*) where
  start : σ → Prop
  legal : σ → ω → ρ → σ → Prop

/-- The object gets to a state by a sequence of operations with their results. -/
inductive Object.Replay (O : Object σ ω ρ) : List (ω × ρ) → σ → Prop
  | start {x : σ} (h : O.start x) : Replay O [] x
  | next {x y : σ} {ops : List (ω × ρ)} {op : ω} {res : ρ} (h : Replay O ops x)
      (hlegal : O.legal x op res y) : Replay O (ops ++ [(op, res)]) y

/-- What a client sees of a call: its beginning and its end. -/
inductive Label (ω ρ : Type*) where
  | call (op : ω)
  | ret (res : ρ)
deriving DecidableEq

section History

variable {H : List (ι × Label ω ρ)} {t u : ι} {i j k n : Nat} {op : ω} {res : ρ}
  {a : ι × Label ω ρ} {O : Object σ ω ρ} {x y : σ}

/-- Thread `t` calls `op` at place `i` and does not call or return afterwards, as far as
place `n`. -/
def OpenAt (H : List (ι × Label ω ρ)) (t : ι) (op : ω) (i n : Nat) : Prop :=
  H[i]? = some (t, .call op) ∧ ∀ k a, i < k → k < n → H[k]? = some a → a.1 ≠ t

/-- The call at place `i` returns at place `j`. -/
def Completes (H : List (ι × Label ω ρ)) (i j : Nat) (op : ω) (res : ρ) : Prop :=
  ∃ t, i < j ∧ OpenAt H t op i j ∧ H[j]? = some (t, .ret res)

/-- The call at place `i` returns before that at place `j` begins. -/
def Precedes (H : List (ι × Label ω ρ)) (i j : Nat) : Prop :=
  ∃ k op res, Completes H i k op res ∧ k < j

/-- A sequence of calls, each with its place in the history and its result, that explains
the history. -/
structure Linearization (O : Object σ ω ρ) (H : List (ι × Label ω ρ))
    (L : List (Nat × ω × ρ)) : Prop where
  calls : ∀ e ∈ L, ∃ t, H[e.1]? = some (t, .call e.2.1)
  once : (L.map Prod.fst).Nodup
  complete : ∀ i j op res, Completes H i j op res → (i, op, res) ∈ L
  order : L.Pairwise fun a b => ¬ Precedes H b.1 a.1
  legal : ∃ x, O.Replay (L.map Prod.snd) x

/-- **Linearizability.** -/
def Linearizable (O : Object σ ω ρ) (H : List (ι × Label ω ρ)) : Prop :=
  ∃ L, Linearization O H L

/-- Linearizable by a sequence of calls that leads the object to `x`. Where the state of the object
is a log of what its operations have done, this says that the log is the work of these calls, each
of which appears in it with its own result and at its own time. -/
def LinearizableTo (O : Object σ ω ρ) (H : List (ι × Label ω ρ)) (x : σ) : Prop :=
  ∃ L, Linearization O H L ∧ O.Replay (L.map Prod.snd) x

theorem LinearizableTo.linearizable (h : LinearizableTo O H x) : Linearizable O H := by
  obtain ⟨L, hL, -⟩ := h
  exact ⟨L, hL⟩

/-- One object does what another does, with a different view of its state. -/
theorem Object.Replay.map {τ : Type*} {O' : Object τ ω ρ} {ops : List (ω × ρ)} (f : σ → τ)
    (hstart : ∀ x, O.start x → O'.start (f x))
    (hlegal : ∀ x op res y, O.legal x op res y → O'.legal (f x) op res (f y))
    (h : O.Replay ops x) : O'.Replay ops (f x) := by
  induction h with
  | start h => exact .start (hstart _ h)
  | next _ h ih => exact ih.next (hlegal _ _ _ _ h)

theorem LinearizableTo.map {τ : Type*} {O' : Object τ ω ρ} (f : σ → τ)
    (hstart : ∀ x, O.start x → O'.start (f x))
    (hlegal : ∀ x op res y, O.legal x op res y → O'.legal (f x) op res (f y))
    (h : LinearizableTo O H x) : LinearizableTo O' H (f x) := by
  obtain ⟨L, ⟨hcalls, honce, hcomplete, horder, -⟩, hreplay⟩ := h
  have hreplay' := hreplay.map f hstart hlegal
  exact ⟨L, ⟨hcalls, honce, hcomplete, horder, _, hreplay'⟩, hreplay'⟩

theorem lt_of_getElem? (h : H[i]? = some a) : i < H.length := by
  by_contra hn
  rw [List.getElem?_eq_none (by omega)] at h
  cases h

theorem getElem?_concat (h : H[i]? = some a) (b : ι × Label ω ρ) : (H ++ [b])[i]? = some a := by
  rw [List.getElem?_append_left (lt_of_getElem? h), h]

/-- What is found in a longer history was there before, or has just been added. -/
theorem getElem?_concat_cases {b : ι × Label ω ρ} (h : (H ++ [b])[i]? = some a) :
    H[i]? = some a ∨ i = H.length ∧ a = b := by
  by_cases hi : i < H.length
  · rw [List.getElem?_append_left hi] at h
    exact .inl h
  · have hlen := lt_of_getElem? h
    rw [List.length_append, List.length_singleton] at hlen
    have heq : i = H.length := by omega
    subst heq
    rw [List.getElem?_append_right (Nat.le_refl _), Nat.sub_self] at h
    exact .inr ⟨rfl, (Option.some.inj h).symm⟩

theorem OpenAt.lt (h : OpenAt H t op i n) : i < H.length := lt_of_getElem? h.1

/-- A call stays open while other threads call and return. -/
theorem OpenAt.concat (h : OpenAt H t op i H.length) {b : ι × Label ω ρ} (hb : b.1 ≠ t) :
    OpenAt (H ++ [b]) t op i (H ++ [b]).length := by
  refine ⟨getElem?_concat h.1 b, fun k a hik hk ha => ?_⟩
  rcases getElem?_concat_cases ha with ha | ⟨-, rfl⟩
  · exact h.2 k a hik (lt_of_getElem? ha) ha
  · exact hb

theorem openAt_concat_self (H : List (ι × Label ω ρ)) (t : ι) (op : ω) :
    OpenAt (H ++ [(t, Label.call op)]) t op H.length (H ++ [(t, Label.call op)]).length := by
  refine ⟨?_, fun k a hik hk ha => ?_⟩
  · rw [List.getElem?_append_right (Nat.le_refl _), Nat.sub_self]
    rfl
  · rw [List.length_append, List.length_singleton] at hk
    omega

/-- A thread has one open call at a time. -/
theorem OpenAt.unique {op' : ω} (h : OpenAt H t op i n) (h' : OpenAt H t op' j n) (hi : i < n)
    (hj : j < n) : i = j := by
  rcases Nat.lt_trichotomy i j with hlt | heq | hlt
  · exact absurd rfl (h.2 j _ hlt hj h'.1)
  · exact heq
  · exact absurd rfl (h'.2 i _ hlt hi h.1)

/-- A call that is open has not returned. -/
theorem OpenAt.not_completes (h : OpenAt H t op i H.length) {op' : ω} :
    ¬ Completes H i j op' res := by
  rintro ⟨u, hij, hopen, hret⟩
  have hut : u = t := by
    have heq := h.1.symm.trans hopen.1
    cases heq
    rfl
  exact h.2 j _ hij (lt_of_getElem? hret) hret hut

/-- Which calls return as the history grows: those that had returned, and the one that
returns now. -/
theorem Completes.of_concat (h : Completes (H ++ [a]) i j op res) :
    Completes H i j op res ∨
      ∃ t, j = H.length ∧ a = (t, .ret res) ∧ OpenAt H t op i H.length := by
  obtain ⟨t, hij, ⟨hcall, hquiet⟩, hret⟩ := h
  have hquiet' : ∀ k b, i < k → k < j → H[k]? = some b → b.1 ≠ t := fun k b hik hkj hb =>
    hquiet k b hik hkj (getElem?_concat hb a)
  rcases getElem?_concat_cases hret with hret | ⟨hj, ha⟩
  · have hcall : H[i]? = some (t, .call op) := by
      rcases getElem?_concat_cases hcall with hcall | ⟨hi, -⟩
      · exact hcall
      · have := lt_of_getElem? hret
        omega
    exact .inl ⟨t, hij, ⟨hcall, hquiet'⟩, hret⟩
  · subst hj
    have hcall : H[i]? = some (t, .call op) := by
      rcases getElem?_concat_cases hcall with hcall | ⟨hi, -⟩
      · exact hcall
      · omega
    exact .inr ⟨t, rfl, ha.symm, hcall, hquiet'⟩

theorem Precedes.of_concat (h : Precedes (H ++ [a]) i j) (hj : j < H.length) : Precedes H i j := by
  obtain ⟨k, op, res, hc, hkj⟩ := h
  rcases hc.of_concat with hc | ⟨t, hk, -, -⟩
  · exact ⟨k, op, res, hc, hkj⟩
  · omega

/-- **A call or a return is added to the history**: the sequence explains it, if it
has the call that returns. -/
theorem Linearization.concat {L : List (Nat × ω × ρ)} (h : Linearization O H L)
    (hret : ∀ t i op res, a = (t, .ret res) → OpenAt H t op i H.length → (i, op, res) ∈ L) :
    Linearization O (H ++ [a]) L := by
  constructor
  case calls =>
    intro e he
    obtain ⟨t, ht⟩ := h.calls e he
    exact ⟨t, getElem?_concat ht a⟩
  case once => exact h.once
  case complete =>
    intro i j op res hc
    rcases hc.of_concat with hc | ⟨t, -, ha, hopen⟩
    · exact h.complete i j op res hc
    · exact hret t i op res ha hopen
  case order =>
    refine h.order.imp_of_mem fun {e e'} he _ hnot hprec => ?_
    obtain ⟨t, ht⟩ := h.calls e he
    exact hnot (hprec.of_concat (lt_of_getElem? ht))
  case legal => exact h.legal

/-- **An open call takes effect**: it goes to the end of the sequence. -/
theorem Linearization.append {L : List (Nat × ω × ρ)} (h : Linearization O H L)
    (hopen : OpenAt H t op i H.length) (hnew : i ∉ L.map Prod.fst)
    (hlegal : ∃ x, O.Replay ((L ++ [(i, op, res)]).map Prod.snd) x) :
    Linearization O H (L ++ [(i, op, res)]) := by
  constructor
  case calls =>
    intro e he
    rcases List.mem_append.mp he with he | he
    · exact h.calls e he
    · rw [List.mem_singleton.mp he]
      exact ⟨t, hopen.1⟩
  case once =>
    rw [List.map_append, List.nodup_append]
    refine ⟨h.once, by simp, ?_⟩
    intro j hj k hk heq
    have hki : k = i := by simpa using hk
    exact hnew (hki ▸ heq ▸ hj)
  case complete =>
    intro j k op' res' hc
    exact List.mem_append_left _ (h.complete j k op' res' hc)
  case order =>
    refine List.pairwise_append.mpr ⟨h.order, List.pairwise_singleton .., ?_⟩
    rintro e - e' he' ⟨k, op', res', hc, -⟩
    rw [List.mem_singleton.mp he'] at hc
    exact hopen.not_completes hc
  case legal => exact hlegal

end History

/-! ## Clients of a sequential object -/

/-- Where a client of a sequential object stands. -/
inductive Client (ω ρ : Type*) where
  | idle
  | pending (op : ω)
  | done (res : ρ)

/-- The moves of one client: it calls, the object performs its operation at one instant, it
returns. -/
inductive Object.Goes (O : Object σ ω ρ) (x : σ) (k : Client ω ρ) :
    List (Label ω ρ) → σ → Client ω ρ → Prop
  | refl : Goes O x k [] x k
  | call {labels : List (Label ω ρ)} {y : σ} (op : ω) (h : Goes O x k labels y .idle) :
      Goes O x k (labels ++ [.call op]) y (.pending op)
  | perform {labels : List (Label ω ρ)} {y z : σ} {op : ω} {res : ρ}
      (h : Goes O x k labels y (.pending op)) (hlegal : O.legal y op res z) :
      Goes O x k labels z (.done res)
  | ret {labels : List (Label ω ρ)} {y : σ} {res : ρ} (h : Goes O x k labels y (.done res)) :
      Goes O x k (labels ++ [.ret res]) y .idle

/-- An access gives a pending operation its result; it may be the last access of the call. -/
inductive Client.Answers : Client ω ρ → List (Label ω ρ) → Client ω ρ → ω → ρ → Prop
  | pending (op : ω) (res : ρ) : Answers (.pending op) [] (.done res) op res
  | last (op : ω) (res : ρ) : Answers (.pending op) [.ret res] .idle op res

/-- What one access does for its client: at most one operation of the object. -/
inductive Object.Move (O : Object σ ω ρ) (x : σ) :
    Client ω ρ → List (Label ω ρ) → σ → Client ω ρ → Prop
  | stay (k : Client ω ρ) : Move O x k [] x k
  | call (op : ω) : Move O x .idle [.call op] x (.pending op)
  | perform {k k' : Client ω ρ} {labels : List (Label ω ρ)} {y : σ} {op : ω} {res : ρ}
      (h : k.Answers labels k' op res) (hlegal : O.legal x op res y) : Move O x k labels y k'
  | ret (res : ρ) : Move O x (.done res) [.ret res] x .idle

theorem Client.Answers.pending_eq {k k' : Client ω ρ} {labels : List (Label ω ρ)} {op : ω} {res : ρ}
    (h : k.Answers labels k' op res) : k = .pending op := by
  cases h <;> rfl

/-- Unless it was the last access, the call is done with it. -/
theorem Client.Answers.done_eq {k k' : Client ω ρ} {op : ω} {res : ρ} (h : k.Answers [] k' op res) :
    k' = .done res := by
  cases h
  rfl

/-- An operation in the middle of its call. -/
theorem Object.Move.done {O : Object σ ω ρ} {x y : σ} {op : ω} {res : ρ}
    (hlegal : O.legal x op res y) : O.Move x (.pending op) [] y (.done res) :=
  .perform (.pending op res) hlegal

/-- An operation at the last access of its call. -/
theorem Object.Move.last {O : Object σ ω ρ} {x y : σ} {op : ω} {res : ρ}
    (hlegal : O.legal x op res y) : O.Move x (.pending op) [.ret res] y .idle :=
  .perform (.last op res) hlegal

theorem Client.Answers.goes {O : Object σ ω ρ} {x y : σ} {k k' : Client ω ρ}
    {labels : List (Label ω ρ)} {op : ω} {res : ρ} (h : k.Answers labels k' op res)
    (hlegal : O.legal x op res y) : O.Goes x k labels y k' := by
  cases h with
  | pending => exact .perform .refl hlegal
  | last =>
    have hdone : O.Goes x (.pending op) [] y (.done res) := .perform .refl hlegal
    exact hdone.ret

theorem Object.Move.goes {O : Object σ ω ρ} {x y : σ} {k k' : Client ω ρ}
    {labels : List (Label ω ρ)} (h : O.Move x k labels y k') : O.Goes x k labels y k' := by
  cases h with
  | stay => exact .refl
  | call op => exact .call op .refl
  | perform hans hlegal => exact hans.goes hlegal
  | ret res => exact .ret .refl

/-- **One object follows another**: what a client does to the one, it does to the other, as long as
each operation of the first is one of the second in related states. -/
theorem Object.Move.follow {τ : Type*} {O : Object σ ω ρ} {O' : Object τ ω ρ} {R : σ → τ → Prop}
    {x y : σ} {x' : τ} {k k' : Client ω ρ} {labels : List (Label ω ρ)}
    (h : O.Move x k labels y k') (hx : R x x')
    (hlegal : ∀ op res, k.Answers labels k' op res → O.legal x op res y →
      ∃ y', R y y' ∧ O'.legal x' op res y') :
    ∃ y', R y y' ∧ O'.Goes x' k labels y' k' := by
  cases h with
  | stay => exact ⟨x', hx, .refl⟩
  | call op => exact ⟨x', hx, .call op .refl⟩
  | perform hans h =>
    obtain ⟨y', hy, h'⟩ := hlegal _ _ hans h
    exact ⟨y', hy, hans.goes h'⟩
  | ret res => exact ⟨x', hx, .ret .refl⟩

/-- The same where the state of the second object is a view of that of the first. -/
theorem Object.Move.image {τ : Type*} {O : Object σ ω ρ} {O' : Object τ ω ρ} {x y : σ}
    {k k' : Client ω ρ} {labels : List (Label ω ρ)} (f : σ → τ) (h : O.Move x k labels y k')
    (hlegal : ∀ op res, k.Answers labels k' op res → O.legal x op res y →
      O'.legal (f x) op res (f y)) : O'.Goes (f x) k labels (f y) k' := by
  have hfollow : ∃ y', f y = y' ∧ O'.Goes (f x) k labels y' k' :=
    h.follow (R := fun x x' => f x = x') rfl fun op res hans h => ⟨f y, rfl, hlegal op res hans h⟩
  obtain ⟨-, rfl, hgoes⟩ := hfollow
  exact hgoes

section Clients

variable {O : Object σ ω ρ} {x y : σ} {l : ι → Client ω ρ}
  {H : List (ι × Label ω ρ)} {L : List (Nat × ω × ρ)} {t : ι}

/-- What a client stands for in the history: an open call that the sequence has not got
yet, or one that it has. -/
def Standing (H : List (ι × Label ω ρ)) (L : List (Nat × ω × ρ)) (t : ι) : Client ω ρ → Prop
  | .idle => True
  | .pending op => ∃ i, OpenAt H t op i H.length ∧ i ∉ L.map Prod.fst
  | .done res => ∃ i op, OpenAt H t op i H.length ∧ (i, op, res) ∈ L

theorem Standing.concat {k : Client ω ρ} (h : Standing H L t k) {a : ι × Label ω ρ}
    (ha : a.1 ≠ t) : Standing (H ++ [a]) L t k := by
  cases k with
  | idle => trivial
  | pending op =>
    obtain ⟨i, hopen, hnew⟩ := h
    exact ⟨i, hopen.concat ha, hnew⟩
  | done res =>
    obtain ⟨i, op, hopen, hmem⟩ := h
    exact ⟨i, op, hopen.concat ha, hmem⟩

/-- The state of a sequential object, its clients, and the history that they have seen. -/
structure Explained (O : Object σ ω ρ) (x : σ) (l : ι → Client ω ρ) (H : List (ι × Label ω ρ))
    (L : List (Nat × ω × ρ)) : Prop where
  linearization : Linearization O H L
  replay : O.Replay (L.map Prod.snd) x
  standing : ∀ t, Standing H L t (l t)

theorem explained_start (h : O.start x) (hl : ∀ t, l t = .idle) :
    Explained O x l [] [] := by
  refine ⟨⟨by simp, by simp, ?_, .nil, x, .start h⟩, .start h, fun t => ?_⟩
  · rintro i j op res ⟨t, -, -, hret⟩
    simp at hret
  · rw [hl t]
    trivial

variable [DecidableEq ι]

theorem Explained.call (h : Explained O x l H L) (op : ω) :
    Explained O x (Function.update l t (.pending op)) (H ++ [(t, .call op)]) L := by
  refine ⟨h.linearization.concat fun u i op' res ha => ?_, h.replay, fun u => ?_⟩
  · cases ha
  · by_cases hut : u = t
    · subst hut
      rw [Function.update_self]
      refine ⟨H.length, openAt_concat_self H u op, fun hmem => ?_⟩
      obtain ⟨e, he, heq⟩ := List.mem_map.mp hmem
      obtain ⟨v, hv⟩ := h.linearization.calls e he
      have := lt_of_getElem? hv
      omega
    · rw [Function.update_of_ne hut]
      exact (h.standing u).concat (Ne.symm hut)

theorem Explained.perform {op : ω} {res : ρ} (h : Explained O x l H L)
    (ht : Standing H L t (.pending op)) (hlegal : O.legal x op res y) :
    ∃ i, Explained O y (Function.update l t (.done res)) H (L ++ [(i, op, res)]) := by
  obtain ⟨i, hopen, hnew⟩ := ht
  have hreplay : O.Replay ((L ++ [(i, op, res)]).map Prod.snd) y := by
    rw [List.map_append]
    exact h.replay.next hlegal
  refine ⟨i, h.linearization.append hopen hnew ⟨y, hreplay⟩, hreplay, fun u => ?_⟩
  by_cases hut : u = t
  · subst hut
    rw [Function.update_self]
    exact ⟨i, op, hopen, by simp⟩
  · rw [Function.update_of_ne hut]
    have hstand := h.standing u
    cases hk : l u with
    | idle => trivial
    | pending op' =>
      rw [hk] at hstand
      obtain ⟨j, hopen', hnew'⟩ := hstand
      refine ⟨j, hopen', fun hmem => ?_⟩
      rw [List.map_append, List.mem_append] at hmem
      rcases hmem with hmem | hmem
      · exact hnew' hmem
      · have hji : j = i := by simpa using hmem
        subst hji
        have heq := hopen.1.symm.trans hopen'.1
        cases heq
        exact hut rfl
    | done res' =>
      rw [hk] at hstand
      obtain ⟨j, op', hopen', hmem⟩ := hstand
      exact ⟨j, op', hopen', List.mem_append_left _ hmem⟩

theorem Explained.ret {res : ρ} (h : Explained O x l H L) (ht : Standing H L t (.done res)) :
    Explained O x (Function.update l t .idle) (H ++ [(t, .ret res)]) L := by
  obtain ⟨i, op, hopen, hmem⟩ := ht
  refine ⟨h.linearization.concat fun u j op' res' ha hopen' => ?_, h.replay, fun u => ?_⟩
  · cases ha
    have hij := hopen.unique hopen' hopen.lt hopen'.lt
    subst hij
    have heq := hopen.1.symm.trans hopen'.1
    cases heq
    exact hmem
  · by_cases hut : u = t
    · subst hut
      rw [Function.update_self]
      trivial
    · rw [Function.update_of_ne hut]
      exact (h.standing u).concat (Ne.symm hut)

/-- **The moves of a client keep the history explained.** -/
theorem Explained.goes {k : Client ω ρ} {labels : List (Label ω ρ)} (h : Explained O x l H L)
    (hg : O.Goes x (l t) labels y k) :
    ∃ L', Explained O y (Function.update l t k) (H ++ labels.map fun a => (t, a)) L' := by
  induction hg with
  | refl =>
    rw [List.map_nil, List.append_nil, Function.update_eq_self]
    exact ⟨L, h⟩
  | call op _ ih =>
    obtain ⟨L', h'⟩ := ih
    have hcall := h'.call (t := t) op
    rw [Function.update_idem] at hcall
    rw [List.map_append, ← List.append_assoc]
    exact ⟨L', hcall⟩
  | perform _ hlegal ih =>
    obtain ⟨L', h'⟩ := ih
    have hstand := h'.standing t
    rw [Function.update_self] at hstand
    obtain ⟨i, hperform⟩ := h'.perform hstand hlegal
    rw [Function.update_idem] at hperform
    exact ⟨_, hperform⟩
  | ret _ ih =>
    obtain ⟨L', h'⟩ := ih
    have hstand := h'.standing t
    rw [Function.update_self] at hstand
    have hret := h'.ret hstand
    rw [Function.update_idem] at hret
    rw [List.map_append, ← List.append_assoc]
    exact ⟨L', hret⟩

end Clients

/-! ## Programs -/

/-- What clients see of a thread with locals `ℓ`: whether a call is in progress, which operation
it is when it has just begun, and its result when it returns with the next step. Arguments and
results may be handed over in memory. -/
structure Interface (ι μ ℓ ω ρ : Type*) where
  busy : ℓ → Bool
  op : ι → μ → ℓ → ω
  result : ι → μ → ℓ → ρ

section Programs

variable {ℓ μ χ : Type*} (I : Interface ι μ ℓ ω ρ)

/-- What clients see of a step: a call begins or returns. -/
def Interface.labels (t : ι) (m : μ) (l : ℓ) (m' : μ) (l' : ℓ) : List (Label ω ρ) :=
  match I.busy l, I.busy l' with
  | false, true => [.call (I.op t m' l')]
  | true, false => [.ret (I.result t m l)]
  | _, _ => []

/-- Within a call clients see nothing. -/
theorem Interface.labels_busy {I : Interface ι μ ℓ ω ρ} {t : ι} {m m' : μ} {l l' : ℓ}
    (h : I.busy l = true) (h' : I.busy l' = true) : I.labels t m l m' l' = [] := by
  rw [Interface.labels, h, h']

/-- What clients see of a run. -/
def Interface.trace : List (Event ι (Config ι μ ℓ)) → List (ι × Label ω ρ)
  | [] => []
  | e :: hist =>
      Interface.trace hist ++
        (I.labels e.tid e.pre.mem (e.pre.loc e.tid) e.post.mem (e.post.loc e.tid)).map
          fun a => (e.tid, a)

variable [DecidableEq ι] {I} {P : Program ι χ μ ℓ} {ok : ι → μ → ℓ → μ → Prop}
  {init : Config ι μ ℓ → Prop} {s : Config ι μ ℓ} {hist : List (Event ι (Config ι μ ℓ))}

/-- **The rule**: if every step of a thread is matched by moves of a client of the object,
with a state of the object that is related to the memory, and leaves the clients of the
other threads where they are, every run is linearizable, to a state that is related to the
memory in the end. -/
theorem Run.exists_linearizableTo (O : Object σ ω ρ) (client : ι → μ → ℓ → Client ω ρ)
    (R : μ → σ → Prop)
    (h0 : ∀ s, init s →
      (∃ x, O.start x ∧ R s.mem x) ∧ ∀ t, client t s.mem (s.loc t) = .idle)
    (hothers : ∀ t s s', (∃ hist, Run init (P.StepIf ok) s hist) → P.StepIf ok t s s' →
      ∀ u, u ≠ t → client u s'.mem (s.loc u) = client u s.mem (s.loc u))
    (hs : ∀ t s s' x, (∃ hist, Run init (P.StepIf ok) s hist) → P.StepIf ok t s s' → R s.mem x →
      ∃ x', R s'.mem x' ∧ O.Goes x (client t s.mem (s.loc t))
        (I.labels t s.mem (s.loc t) s'.mem (s'.loc t)) x'
          (client t s'.mem (s'.loc t)))
    (run : Run init (P.StepIf ok) s hist) :
    ∃ x, R s.mem x ∧ LinearizableTo O (I.trace hist) x := by
  have hexplained : ∃ x L, R s.mem x ∧
      Explained O x (fun t => client t s.mem (s.loc t)) (I.trace hist) L := by
    refine run.invariant_hist (J := fun s hist => ∃ x L, R s.mem x ∧
      Explained O x (fun t => client t s.mem (s.loc t)) (I.trace hist) L) ?_ ?_
    · intro s h
      obtain ⟨⟨x, hx, hR⟩, hidle⟩ := h0 s h
      exact ⟨x, [], hR, explained_start hx hidle⟩
    · rintro t s s' hist hr ⟨x, L, hR, hE⟩ hstep
      obtain ⟨x', hR', hgoes⟩ := hs t s s' x ⟨hist, hr⟩ hstep hR
      obtain ⟨L', hE'⟩ := hE.goes (t := t) hgoes
      refine ⟨x', L', hR', ?_⟩
      have hloc : (fun u => client u s'.mem (s'.loc u)) =
          Function.update (fun u => client u s.mem (s.loc u)) t (client t s'.mem (s'.loc t)) := by
        funext u
        by_cases hut : u = t
        · subst hut
          rw [Function.update_self]
        · rw [Function.update_of_ne hut, hstep.2.loc_of_ne hut, hothers t s s' ⟨hist, hr⟩ hstep u hut]
      rw [hloc]
      exact hE'
  obtain ⟨x, L, hR, hE⟩ := hexplained
  exact ⟨x, hR, L, hE.linearization, hE.replay⟩

/-- The same where the memory tells the state of the object. -/
theorem Run.linearizableTo (O : Object σ ω ρ) (client : ι → μ → ℓ → Client ω ρ) (state : μ → σ)
    (h0 : ∀ s, init s → O.start (state s.mem) ∧ ∀ t, client t s.mem (s.loc t) = .idle)
    (hothers : ∀ t s s', (∃ hist, Run init (P.StepIf ok) s hist) → P.StepIf ok t s s' →
      ∀ u, u ≠ t → client u s'.mem (s.loc u) = client u s.mem (s.loc u))
    (hs : ∀ t s s', (∃ hist, Run init (P.StepIf ok) s hist) → P.StepIf ok t s s' →
      O.Goes (state s.mem) (client t s.mem (s.loc t))
        (I.labels t s.mem (s.loc t) s'.mem (s'.loc t)) (state s'.mem)
          (client t s'.mem (s'.loc t)))
    (run : Run init (P.StepIf ok) s hist) :
    LinearizableTo O (I.trace hist) (state s.mem) := by
  obtain ⟨x, rfl, h⟩ := run.exists_linearizableTo (I := I) O client (fun m x => state m = x)
    (fun s h => ⟨⟨_, (h0 s h).1, rfl⟩, (h0 s h).2⟩) hothers
    (fun t s s' x hr h hx => ⟨_, rfl, hx ▸ hs t s s' hr h⟩)
  exact h

theorem Run.linearizable (O : Object σ ω ρ) (client : ι → μ → ℓ → Client ω ρ) (R : μ → σ → Prop)
    (h0 : ∀ s, init s →
      (∃ x, O.start x ∧ R s.mem x) ∧ ∀ t, client t s.mem (s.loc t) = .idle)
    (hothers : ∀ t s s', (∃ hist, Run init (P.StepIf ok) s hist) → P.StepIf ok t s s' →
      ∀ u, u ≠ t → client u s'.mem (s.loc u) = client u s.mem (s.loc u))
    (hs : ∀ t s s' x, (∃ hist, Run init (P.StepIf ok) s hist) → P.StepIf ok t s s' → R s.mem x →
      ∃ x', R s'.mem x' ∧ O.Goes x (client t s.mem (s.loc t))
        (I.labels t s.mem (s.loc t) s'.mem (s'.loc t)) x'
          (client t s'.mem (s'.loc t)))
    (run : Run init (P.StepIf ok) s hist) : Linearizable O (I.trace hist) := by
  obtain ⟨x, -, h⟩ := run.exists_linearizableTo O client R h0 hothers hs
  exact h.linearizable

/-- **The rule for calls whose instant only the future tells**: in each state of a run the object
and its clients may be in several states, the possibilities. Every possibility after a step
comes from one before it by moves of that thread's client, and none is ever without one. -/
theorem Run.linearizable_of_possible (O : Object σ ω ρ)
    (R : Config ι μ ℓ → List (Event ι (Config ι μ ℓ)) → σ → (ι → Client ω ρ) → Prop)
    (h0 : ∀ s x l, init s → R s [] x l → O.start x ∧ ∀ t, l t = .idle)
    (hs : ∀ t s s' hist x' l', Run init (P.StepIf ok) s hist → P.StepIf ok t s s' →
      R s' (⟨t, s, s'⟩ :: hist) x' l' →
      ∃ x l, R s hist x l ∧ (∀ u, u ≠ t → l' u = l u) ∧
        O.Goes x (l t) (I.labels t s.mem (s.loc t) s'.mem (s'.loc t)) x' (l' t))
    (run : Run init (P.StepIf ok) s hist) (hpossible : ∃ x l, R s hist x l) :
    Linearizable O (I.trace hist) := by
  have hexplained : ∀ x l, R s hist x l → ∃ L, Explained O x l (I.trace hist) L := by
    refine run.invariant_hist
      (J := fun s hist => ∀ x l, R s hist x l → ∃ L, Explained O x l (I.trace hist) L) ?_ ?_
    · intro s h x l hR
      obtain ⟨hstart, hidle⟩ := h0 s x l h hR
      exact ⟨[], explained_start hstart hidle⟩
    · intro t s s' hist hr ih hstep x' l' hR'
      obtain ⟨x, l, hR, hsame, hgoes⟩ := hs t s s' hist x' l' hr hstep hR'
      obtain ⟨L, hE⟩ := ih x l hR
      obtain ⟨L', hE'⟩ := hE.goes (t := t) hgoes
      have hl' : l' = Function.update l t (l' t) := by
        funext u
        by_cases hut : u = t
        · subst hut
          rw [Function.update_self]
        · rw [Function.update_of_ne hut, hsame u hut]
      rw [hl']
      exact ⟨L', hE'⟩
  obtain ⟨x, l, hR⟩ := hpossible
  obtain ⟨L, hE⟩ := hexplained x l hR
  exact ⟨L, hE.linearization⟩

/-- Run a schedule as long as every step of it meets the condition `ok`, and write down its
history. -/
def Program.runHistoryIf (P : Program ι χ μ ℓ) (ok : ι → μ → ℓ → μ → Prop)
    [∀ t m l m', Decidable (ok t m l m')] : List (ι × χ) → Config ι μ ℓ →
    List (Event ι (Config ι μ ℓ)) → Option (Config ι μ ℓ × List (Event ι (Config ι μ ℓ)))
  | [], s, hist => some (s, hist)
  | (t, c) :: rest, s, hist => (P.next t c s).bind fun s' =>
      if ok t s.mem (s.loc t) s'.mem then P.runHistoryIf ok rest s' (⟨t, s, s'⟩ :: hist) else none

theorem Run.historyIf [∀ t m l m', Decidable (ok t m l m')] {sched : List (ι × χ)}
    {s' : Config ι μ ℓ} {hist' : List (Event ι (Config ι μ ℓ))}
    (run : Run init (P.StepIf ok) s hist) (h : P.runHistoryIf ok sched s hist = some (s', hist')) :
    Run init (P.StepIf ok) s' hist' := by
  induction sched generalizing s hist with
  | nil =>
    cases Option.some.inj h
    exact run
  | cons tc rest ih =>
    obtain ⟨t, c⟩ := tc
    obtain ⟨s₁, h₁, h₂⟩ := Option.bind_eq_some_iff.mp h
    obtain ⟨hok, h₂⟩ := Option.ite_none_right_eq_some.mp h₂
    exact ih (run.next ⟨hok, c, h₁⟩) h₂

/-- A schedule with a history of which `q` holds. -/
theorem Run.exists_of_historyIf [∀ t m l m', Decidable (ok t m l m')]
    {q : Config ι μ ℓ → List (Event ι (Config ι μ ℓ)) → Prop} [∀ s hist, Decidable (q s hist)]
    (run : Run init (P.StepIf ok) s hist) (sched : List (ι × χ))
    (h : (P.runHistoryIf ok sched s hist).any (fun r => decide (q r.1 r.2)) = true) :
    ∃ s' hist', Run init (P.StepIf ok) s' hist' ∧ q s' hist' := by
  obtain ⟨⟨s', hist'⟩, hs, hq⟩ := (Option.any_eq_true _ _).mp h
  exact ⟨s', hist', run.historyIf hs, of_decide_eq_true hq⟩

end Programs

end FibConcurrent.Machine
