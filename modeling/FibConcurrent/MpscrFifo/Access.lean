import FibConcurrent.MpscrFifo.Invariant

/-!
# MpscrFifo — one access of each operation

What clients do to nodes, the accesses of a push by producer `p`, and the
accesses of a pop. Each lemma gives back the invariant, the facts at the next
program point, and what every other thread may rely on.
-/

namespace FibConcurrent.MpscrFifo

open FibConcurrent.Machine FibConcurrent.Data

variable {n : Nat} {ν α : Type*} [DecidableEq ν] {m : Memory n ν α} {g : Ghost n ν α}
  {p index : Fin n} {x y : ν}

/-! ## Clients -/

/-- A client stores to a node that it owns. -/
theorem store_spec (hI : Inv m g) (hx : m.owned x = true) (v : Option ν) (d : α) :
    Inv { m with next := Function.update m.next x v, data := Function.update m.data x d } g ∧
      ∀ u, Keeps u m g
        { m with next := Function.update m.next x v, data := Function.update m.data x d } g := by
  have hplace : g.place x = .client := hI.owned x hx
  have hne : ∀ y, g.place y ≠ .client → y ≠ x := by
    rintro y hy rfl
    exact hy hplace
  refine ⟨{ hI with linked := ?_, values := ?_ }, fun u => ?_⟩
  · exact hI.linked_update v (by simp [hplace])
  · exact hI.values_update d (.inl hplace)
  · cases u with
    | producer q =>
      refine ⟨rfl, rfl, rfl, fun y hy => ?_⟩
      exact Function.update_of_ne (hne y (by simp [hI.pend q y hy])) ..
    | consumer =>
      have hhead : ∀ q, m.head q ≠ x := fun q => hne _ (by simp [hI.head_place])
      refine ⟨rfl, rfl, rfl, fun q y hy => ?_, fun q => ?_, fun y hy => ⟨hy, ?_⟩⟩
      · exact (Function.update_of_ne (hhead q) ..).trans hy
      · exact Function.update_of_ne (hhead q) ..
      · exact Function.update_of_ne (hne y (by simp [hy])) ..

/-- Producer `p` passes a node that it owns to a push. -/
theorem give_spec (hI : Inv m g) (hT : ProducerFacts p m g .idle) (hx : m.owned x = true)
    (d : α) :
    ∃ g', Inv { m with
        owned := Function.update m.owned x false
        data := Function.update m.data x d
        pushed := Function.update m.pushed p (m.pushed p ++ [d]) } g' ∧
      Pushing p g' x (m.tail p) ∧
      ∀ u, u ≠ .producer p → Keeps u m g { m with
        owned := Function.update m.owned x false
        data := Function.update m.data x d
        pushed := Function.update m.pushed p (m.pushed p ++ [d]) } g' := by
  obtain ⟨hpend, hlast⟩ := hT
  have hplace : g.place x = .client := hI.owned x hx
  have hne : ∀ y, g.place y ≠ .client → y ≠ x := by
    rintro y hy rfl
    exact hy hplace
  have hplaces : ∀ y, g.place y ≠ .client →
      Function.update g.place x (.producer p) y = g.place y :=
    fun y hy => Function.update_of_ne (hne y hy) ..
  refine ⟨{ g with
    pend := Function.update g.pend p (some x)
    place := Function.update g.place x (.producer p) }, ?_, ⟨by simp, hlast⟩, fun u hu => ?_⟩
  · refine { hI with values := ?_, chain := ?_, pend := ?_, owned := ?_ }
    · intro q
      have hold := hI.values_update d (.inl hplace) q
      by_cases hq : q = p
      · subst hq
        have hwait : g.waiting q = (g.chain q).tail := by simp [Ghost.waiting, hpend]
        rw [hwait] at hold
        simp [Ghost.waiting, hold]
      · simpa [Ghost.waiting, hq] using hold
    · intro q y
      by_cases hy : y = x
      · subst hy
        simpa using hI.not_mem (by simp [hplace])
      · simpa [hy] using hI.chain q y
    · intro q y hy
      by_cases hq : q = p
      · subst hq
        obtain rfl : x = y := by simpa using hy
        simp
      · have hold : g.place y = .producer q := hI.pend q y (by simpa [hq] using hy)
        show Function.update g.place x (.producer p) y = .producer q
        rw [hplaces y (by simp [hold]), hold]
    · intro y hy
      by_cases hyx : y = x
      · simp [hyx] at hy
      · simpa [hyx] using hI.owned y (by simpa [hyx] using hy)
  · cases u with
    | producer q =>
      have hq : q ≠ p := fun h => hu (by rw [h])
      exact ⟨rfl, Function.update_of_ne hq .., rfl, fun y hy => rfl⟩
    | consumer =>
      refine ⟨rfl, rfl, rfl, fun q y hy => hy, fun q => ?_, fun y hy => ⟨?_, ?_⟩⟩
      · exact Function.update_of_ne (hne _ (by simp [hI.head_place])) ..
      · exact (hplaces y (by simp [hy])).trans hy
      · exact Function.update_of_ne (hne y (by simp [hy])) ..

/-! ## `spsc_fifo_push` -/

/-- The node of a push joins its chain. -/
def Ghost.join (g : Ghost n ν α) (p : Fin n) (x : ν) : Ghost n ν α :=
  { g with
    chain := Function.update g.chain p (g.chain p ++ [x])
    pend := Function.update g.pend p none
    place := Function.update g.place x (.fifo p) }

/-- The store that ends a push links the node behind the last one. -/
theorem Inv.join (hI : Inv m g) (hp : Pushing p g x y) (hnull : m.next x = none) :
    Inv { m with next := Function.update m.next y (some x) } (g.join p x) := by
  obtain ⟨hpend, hlast⟩ := hp
  have hplace : g.place x = .producer p := hI.pend p x hpend
  obtain ⟨front, hfront⟩ := List.getLast?_eq_some_iff.mp hlast
  have hy : g.place y = .fifo p := (hI.chain p y).mp (by simp [hfront])
  have hout : ∀ q, x ∉ g.chain q := fun q => hI.not_mem (by simp [hplace])
  have hother : ∀ z, g.place z ≠ .producer p → Function.update g.place x (.fifo p) z = g.place z := by
    intro z hz
    apply Function.update_of_ne
    rintro rfl
    exact hz hplace
  constructor
  case head =>
    intro q
    by_cases hq : q = p
    · subst hq
      simp [Ghost.join, hI.head q]
    · simpa [Ghost.join, hq] using hI.head q
  case linked =>
    intro q
    by_cases hq : q = p
    · subst hq
      have hl := hI.linked q
      have hnd := hI.nodup q
      have hx := hout q
      rw [hfront] at hl hnd hx
      have happ := hl.append hnd hx hnull
      simpa [Ghost.join, hfront] using happ
    · have hyq : y ∉ g.chain q := hI.not_mem (by simpa [hy] using Ne.symm hq)
      simpa [Ghost.join, hq] using (hI.linked q).update_next hyq
  case nodup =>
    intro q
    by_cases hq : q = p
    · subst hq
      simpa [Ghost.join] using (hI.nodup q).concat (hout q)
    · simpa [Ghost.join, hq] using hI.nodup q
  case values =>
    intro q
    by_cases hq : q = p
    · subst hq
      obtain ⟨rest, hrest⟩ := hI.chain_eq q
      have hv := hI.values q
      simp only [Ghost.waiting, hpend] at hv
      simp [Ghost.join, Ghost.waiting, hv, hrest]
    · simpa [Ghost.join, Ghost.waiting, hq] using hI.values q
  case chain =>
    intro q z
    by_cases hz : z = x
    · subst hz
      by_cases hq : q = p
      · subst hq
        simp [Ghost.join]
      · simpa [Ghost.join, hq, Ne.symm hq] using hout q
    · by_cases hq : q = p
      · subst hq
        simpa [Ghost.join, hz] using hI.chain q z
      · simpa [Ghost.join, hz, hq] using hI.chain q z
  case pend =>
    intro q z hz
    by_cases hq : q = p
    · subst hq
      simp [Ghost.join] at hz
    · have hold : g.place z = .producer q := hI.pend q z (by simpa [Ghost.join, hq] using hz)
      exact (hother z (by simpa [hold] using hq)).trans hold
  case owned =>
    intro z hz
    have hold : g.place z = .client := hI.owned z hz
    exact (hother z (by simp [hold])).trans hold

/-- What the others keep when a node is linked behind the last one. -/
theorem keeps_join (hI : Inv m g) (hp : Pushing p g x y) {u : Party n} (hu : u ≠ .producer p) :
    Keeps u m g { m with next := Function.update m.next y (some x) } (g.join p x) := by
  obtain ⟨hpend, hlast⟩ := hp
  have hplace : g.place x = .producer p := hI.pend p x hpend
  obtain ⟨front, hfront⟩ := List.getLast?_eq_some_iff.mp hlast
  have hy : g.place y = .fifo p := (hI.chain p y).mp (by simp [hfront])
  -- `y` ends the chain, so nobody has followed its link yet
  have hynull : m.next y = none := by
    have hl := hI.linked p
    rw [hfront] at hl
    exact hl.next_of_append
  cases u with
  | producer q =>
    have hq : q ≠ p := fun h => hu (by rw [h])
    refine ⟨rfl, Function.update_of_ne hq .., ?_, fun z hz => ?_⟩
    · simp [Ghost.join, hq]
    · apply Function.update_of_ne
      rintro rfl
      simp [hI.pend q z hz] at hy
  | consumer =>
    refine ⟨rfl, rfl, rfl, fun q z hz => ?_, fun q => rfl, fun z hz => ⟨?_, rfl⟩⟩
    · refine (Function.update_of_ne ?_ ..).trans hz
      rintro rfl
      simp [hynull] at hz
    · refine (Function.update_of_ne ?_ ..).trans hz
      rintro rfl
      simp [hplace] at hz

/-- **One access of a push.** -/
theorem pushStep_spec {pc : PushPc ν} (hI : Inv m g) (hp : PushFacts p m g pc) :
    ∃ g', Inv (pushStep p m pc).1 g' ∧
      ProducerFacts p (pushStep p m pc).1 g' ((pushStep p m pc).2.elim .idle .push) ∧
      ∀ u, u ≠ .producer p → Keeps u m g (pushStep p m pc).1 g' := by
  cases pc with
  | clearNext x =>
    have hplace : g.place x = .producer p := hI.pend p x hp.1
    refine ⟨g, { hI with linked := ?_ }, ⟨hp, Function.update_self ..⟩, fun u hu => ?_⟩
    · exact hI.linked_update none (by simp [hplace])
    · cases u with
      | producer q =>
        have hq : q ≠ p := fun h => hu (by rw [h])
        refine ⟨rfl, rfl, rfl, fun z hz => ?_⟩
        apply Function.update_of_ne
        rintro rfl
        exact hq (hI.pend_unique hz hplace)
      | consumer =>
        refine ⟨rfl, rfl, rfl, fun q z hz => ?_, fun q => rfl, fun z hz => ⟨hz, rfl⟩⟩
        refine (Function.update_of_ne ?_ ..).trans hz
        rintro rfl
        simp [hI.head_place] at hplace
  | readTail x => exact ⟨g, hI, ⟨⟨hp.1, hp.2⟩, rfl⟩, fun u _ => keeps_refl u⟩
  | writeTail x y =>
    obtain ⟨hp, -⟩ := hp
    refine ⟨g, { hI with }, ⟨hp, Function.update_self ..⟩, fun u hu => ?_⟩
    cases u with
    | producer q =>
      have hq : q ≠ p := fun h => hu (by rw [h])
      exact ⟨Function.update_of_ne hq .., rfl, rfl, fun z hz => rfl⟩
    | consumer =>
      exact ⟨rfl, rfl, rfl, fun q z hz => hz, fun q => rfl, fun z hz => ⟨hz, rfl⟩⟩
  | linkNext x y =>
    obtain ⟨⟨hp, hnull⟩, htail⟩ := hp
    refine ⟨g.join p x, hI.join hp hnull, ?_, fun u hu => keeps_join hI hp hu⟩
    exact ⟨Function.update_self .., by simp [Ghost.join, pushStep, htail]⟩

/-! ## `spsc_fifo_trypop` -/

/-- The consumer takes the dummy out of fifo `index`, and the datum of the next
node, which becomes the dummy. -/
def Ghost.advance (g : Ghost n ν α) (m : Memory n ν α) (index : Fin n) (x : ν) : Ghost n ν α :=
  { g with
    chain := Function.update g.chain index (g.chain index).tail
    taken := Function.update g.taken index (g.taken index ++ [m.data x])
    place := Function.update g.place (m.head index) .consumer }

/-- The store of a new head. -/
theorem Inv.advance (hI : Inv m g) (hx : m.next (m.head index) = some x) :
    Inv { m with head := Function.update m.head index x } (g.advance m index x) := by
  obtain ⟨rest, hchain⟩ := hI.chain_of_next hx
  have hplace := hI.head_place index
  have hnodup : (m.head index :: x :: rest).Nodup := hchain ▸ hI.nodup index
  have hhead : m.head index ∉ x :: rest := (List.nodup_cons.mp hnodup).1
  have hother : ∀ z, g.place z ≠ .fifo index →
      Function.update g.place (m.head index) .consumer z = g.place z := by
    intro z hz
    apply Function.update_of_ne
    rintro rfl
    exact hz hplace
  constructor
  case head =>
    intro q
    by_cases hq : q = index
    · subst hq
      simp [Ghost.advance, hchain]
    · simpa [Ghost.advance, hq] using hI.head q
  case linked =>
    intro q
    by_cases hq : q = index
    · subst hq
      have hl := hI.linked q
      rw [hchain] at hl
      simpa [Ghost.advance, hchain] using (linked_cons.mp hl).2
    · simpa [Ghost.advance, hq] using hI.linked q
  case nodup =>
    intro q
    by_cases hq : q = index
    · subst hq
      simpa [Ghost.advance, hchain] using (List.nodup_cons.mp hnodup).2
    · simpa [Ghost.advance, hq] using hI.nodup q
  case values =>
    intro q
    by_cases hq : q = index
    · subst hq
      have hv := hI.values q
      simp only [Ghost.waiting, hchain] at hv
      simp [Ghost.advance, Ghost.waiting, hchain, hv]
    · simpa [Ghost.advance, Ghost.waiting, hq] using hI.values q
  case chain =>
    intro q z
    by_cases hz : z = m.head index
    · subst hz
      by_cases hq : q = index
      · subst hq
        simpa [Ghost.advance, hchain] using hhead
      · simpa [Ghost.advance, hq] using hI.not_mem (by simpa [hplace] using Ne.symm hq)
    · by_cases hq : q = index
      · subst hq
        simpa [Ghost.advance, hz, hchain] using hI.chain q z
      · simpa [Ghost.advance, hz, hq] using hI.chain q z
  case pend =>
    intro q z hz
    have hold := hI.pend q z hz
    exact (hother z (by simp [hold])).trans hold
  case owned =>
    intro z hz
    have hold := hI.owned z hz
    exact (hother z (by simp [hold])).trans hold

theorem Took.advance (htook : Took g m.popped) (x : ν) :
    Took (g.advance m index x) (m.popped ++ [(index, m.data x)]) := by
  intro q
  by_cases hq : q = index
  · subst hq
    simp [Ghost.advance, htook q]
  · simp [Ghost.advance, hq, Ne.symm hq, htook q]

theorem keepsPush_advance (hI : Inv m g) (hx : m.next (m.head index) = some x) (p : Fin n) :
    KeepsPush p m g { m with head := Function.update m.head index x } (g.advance m index x) := by
  obtain ⟨rest, hchain⟩ := hI.chain_of_next hx
  refine ⟨rfl, rfl, ?_, fun z hz => rfl⟩
  by_cases hp : p = index
  · subst hp
    simp [Ghost.advance, hchain]
  · simp [Ghost.advance, hp]

/-- The consumer copies the datum into the node that it has taken out. -/
theorem copy_spec (hI : Inv m g) (hplace : g.place y = .consumer) (d : α) :
    Inv { m with data := Function.update m.data y d, popped := m.popped ++ [(index, d)] } g ∧
      ∀ p, KeepsPush p m g
        { m with data := Function.update m.data y d, popped := m.popped ++ [(index, d)] } g := by
  refine ⟨{ hI with values := ?_ }, fun q => ⟨rfl, rfl, rfl, fun z hz => rfl⟩⟩
  exact hI.values_update d (.inr hplace)

/-- The consumer returns the node to its caller. -/
theorem release_spec (hI : Inv m g) (htook : Took g m.popped) (hplace : g.place y = .consumer) :
    ∃ g', Inv { m with owned := Function.update m.owned y true } g' ∧ Took g' m.popped ∧
      ∀ p, KeepsPush p m g { m with owned := Function.update m.owned y true } g' := by
  refine ⟨{ g with place := Function.update g.place y .client }, ?_, htook,
    fun q => ⟨rfl, rfl, rfl, fun z hz => rfl⟩⟩
  refine { hI with chain := fun q z => ?_, pend := fun q z hz => ?_, owned := fun z hz => ?_ }
  · by_cases hz : z = y
    · subst hz
      simpa using hI.not_mem (by simp [hplace])
    · simpa [hz] using hI.chain q z
  · have hold := hI.pend q z hz
    refine (Function.update_of_ne ?_ ..).trans hold
    rintro rfl
    simp [hplace] at hold
  · by_cases hzy : z = y
    · simp [hzy]
    · simpa [hzy] using hI.owned z (by simpa [hzy] using hz)

/-- The program point after an access of a pop in round `i`. -/
def afterPop (i : Nat) (index : Fin n) : PopPc ν α ⊕ Option ν → Pc n ν α
  | .inl pc => .pop i index pc
  | .inr (some x) => .popRet (some x)
  | .inr none => .nextFifo (i + 1)

/-- **One access of a pop.** -/
theorem popStep_spec {pc : PopPc ν α} (hI : Inv m g) (hp : PopFacts index m g pc) (i : Nat) :
    ∃ g', Inv (popStep index m pc).1 g' ∧
      ConsumerFacts (popStep index m pc).1 g' (afterPop i index (popStep index m pc).2) ∧
      ∀ p, KeepsPush p m g (popStep index m pc).1 g' := by
  have hsame : ∀ p, KeepsPush p m g m g := fun p => ⟨rfl, rfl, rfl, fun z hz => rfl⟩
  cases pc with
  | readHead => exact ⟨g, hI, ⟨hp, rfl⟩, hsame⟩
  | readNext h =>
    obtain ⟨htook, hhead⟩ := hp
    cases hnext : m.next h with
    | none =>
      simp only [popStep, hnext]
      exact ⟨g, hI, htook, hsame⟩
    | some x =>
      simp only [popStep, hnext]
      exact ⟨g, hI, ⟨htook, hhead, hnext⟩, hsame⟩
  | writeHead h x =>
    obtain ⟨htook, rfl, hnext⟩ := hp
    refine ⟨g.advance m index x, hI.advance hnext, ?_, fun p => keepsPush_advance hI hnext p⟩
    exact ⟨htook.advance x, Function.update_self .., Function.update_self ..⟩
  | readData h x =>
    obtain ⟨htook, -, hplace⟩ := hp
    exact ⟨g, hI, ⟨htook, hplace⟩, hsame⟩
  | writeData h d =>
    obtain ⟨htook, hplace⟩ := hp
    obtain ⟨hI', hk⟩ := copy_spec hI hplace d
    exact ⟨g, hI', ⟨htook, hplace, by simp [popStep]⟩, hk⟩

end FibConcurrent.MpscrFifo
