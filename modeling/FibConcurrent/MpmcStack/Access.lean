import FibConcurrent.MpmcStack.Invariant

/-!
# MpmcStack — one access of each operation

Every operation moves nodes from one place to another (`relocate`) or writes the
link of a node that its thread holds. Each lemma gives back the invariant and
what every other thread may rely on.
-/

namespace FibConcurrent.MpmcStack

open FibConcurrent.Machine FibConcurrent.Data

variable {ι ν : Type*} [DecidableEq ν] {m : Memory ν} {g : Ghost ι ν} {t u : ι}

/-! ## Moving nodes -/

/-- The nodes of `l` move to place `q`. -/
def relocate (l : List ν) (q : Place ι ν) (g : Ghost ι ν) : Ghost ι ν :=
  fun x => if x ∈ l then q else g x

section Relocate

variable {l : List ν} {p q : Place ι ν} {x : ν}

@[simp] theorem relocate_of_mem (hx : x ∈ l) : relocate l q g x = q := if_pos hx

@[simp] theorem relocate_of_not_mem (hx : x ∉ l) : relocate l q g x = g x := if_neg hx

/-- Who is at `p` afterwards, if nobody comes or goes there. -/
theorem relocate_eq_iff (hto : q ≠ p) (hfrom : ∀ x ∈ l, g x ≠ p) :
    relocate l q g x = p ↔ g x = p := by
  by_cases hx : x ∈ l
  · rw [relocate_of_mem hx]
    constructor
    · intro h
      exact absurd h hto
    · intro h
      exact absurd h (hfrom x hx)
  · rw [relocate_of_not_mem hx]

/-- Who is at `q` afterwards, if nobody was there before. -/
theorem relocate_eq_self (hfree : ∀ x, g x ≠ q) : relocate l q g x = q ↔ x ∈ l := by
  by_cases hx : x ∈ l
  · simp [hx]
  · simp [hx, hfree x]

/-- Nodes that `u` does not hold move to a place where `u` does not look. -/
theorem keeps_relocate {m' : Memory ν} (hnext : m'.next = m.next)
    (hfrom : ∀ x ∈ l, g x ≠ .pushing u ∧ g x ≠ .flushing u) (hto : q ≠ .flushing u) :
    Keeps u m g m' (relocate l q g) := by
  constructor
  · intro x hx
    constructor
    · rw [relocate_of_not_mem fun hl => (hfrom x hl).1 hx]
      exact hx
    · rw [hnext]
  · intro x
    exact relocate_eq_iff hto fun x hx => (hfrom x hx).2
  · intro x _
    rw [hnext]

/-- The counts agree if the nodes move between places in the chains, or between
places outside. -/
theorem Inv.relocate_counts (hI : Inv m g) (hsame : ∀ x ∈ l, (g x).inChain ↔ q.inChain) :
    (∀ x, ¬ (relocate l q g x).inChain → m.pushes x = m.taken x) ∧
      ∀ x, (relocate l q g x).inChain → m.pushes x = m.taken x + 1 := by
  constructor
  · intro x hx
    apply hI.outside
    by_cases hl : x ∈ l
    · rw [relocate_of_mem hl] at hx
      rw [hsame x hl]
      exact hx
    · rwa [relocate_of_not_mem hl] at hx
  · intro x hx
    apply hI.inside
    by_cases hl : x ∈ l
    · rw [relocate_of_mem hl] at hx
      rw [hsame x hl]
      exact hx
    · rwa [relocate_of_not_mem hl] at hx

/-- Held chains stay as they are when no node comes or goes there. -/
theorem Inv.relocate_held (hI : Inv m g) (hto : ∀ h, q ≠ .held h)
    (hfrom : ∀ x ∈ l, ∀ h, g x ≠ .held h) :
    (∀ h ∈ m.chains, ∃ nodes, Chain m.next (some h) nodes ∧
      ∀ x, x ∈ nodes ↔ relocate l q g x = .held h) ∧
      ∀ x h, relocate l q g x = .held h → h ∈ m.chains := by
  have hiff : ∀ x h, relocate l q g x = .held h ↔ g x = .held h := fun x h =>
    relocate_eq_iff (hto h) fun x hx => hfrom x hx h
  constructor
  · intro h hh
    obtain ⟨nodes, hchain, hmem⟩ := hI.held h hh
    refine ⟨nodes, hchain, fun x => ?_⟩
    rw [hiff x h]
    exact hmem x
  · intro x h hx
    exact hI.held_mem x h ((hiff x h).mp hx)

end Relocate

/-! ## Clients and pushes -/

/-- A client passes a node of its own to a push. -/
theorem acquire_spec {n : ν} (hI : Inv m g) (hn : m.owned n = true) (t : ι) :
    Inv { m with owned := Function.update m.owned n false } (relocate [n] (.pushing t) g) ∧
      ∀ u, Keeps u m g { m with owned := Function.update m.owned n false }
        (relocate [n] (.pushing t) g) := by
  have hclient : ∀ x ∈ [n], g x = .client := by
    intro x hx
    rw [List.mem_singleton.mp hx]
    exact hI.owned n hn
  have hcounts := hI.relocate_counts (q := .pushing t) fun x hx => by
    rw [hclient x hx]
    exact Iff.rfl
  have hheld := hI.relocate_held (l := [n]) (q := .pushing t) (by simp) fun x hx h => by
    simp [hclient x hx]
  constructor
  · refine ⟨hI.live, fun x => ?_, fun x hx => ?_, hI.chains_nodup, hheld.1, hheld.2, hcounts.1,
      hcounts.2⟩
    · rw [relocate_eq_iff (by simp) fun x hx => by simp [hclient x hx]]
      exact hI.live_mem x
    · have hx : Function.update m.owned n false x = true := hx
      have hxn : x ≠ n := by
        rintro rfl
        rw [Function.update_self] at hx
        cases hx
      rw [Function.update_of_ne hxn] at hx
      rw [relocate_of_not_mem (by simpa using hxn)]
      exact hI.owned x hx
  · intro u
    apply keeps_relocate
    · rfl
    · intro x hx
      simp [hclient x hx]
    · simp

/-- A push that gives up returns the node to its client. -/
theorem release_spec {n : ν} (hI : Inv m g) (hn : g n = .pushing t) :
    Inv { m with owned := Function.update m.owned n true } (relocate [n] .client g) ∧
      ∀ u, u ≠ t → Keeps u m g { m with owned := Function.update m.owned n true }
        (relocate [n] .client g) := by
  have hpushing : ∀ x ∈ [n], g x = .pushing t := by
    intro x hx
    rw [List.mem_singleton.mp hx]
    exact hn
  have hcounts := hI.relocate_counts (q := .client) fun x hx => by
    rw [hpushing x hx]
    exact Iff.rfl
  have hheld := hI.relocate_held (l := [n]) (q := .client) (by simp) fun x hx h => by
    simp [hpushing x hx]
  constructor
  · refine ⟨hI.live, fun x => ?_, fun x hx => ?_, hI.chains_nodup, hheld.1, hheld.2, hcounts.1,
      hcounts.2⟩
    · rw [relocate_eq_iff (by simp) fun x hx => by simp [hpushing x hx]]
      exact hI.live_mem x
    · by_cases hxn : x = n
      · simp [hxn]
      · rw [relocate_of_not_mem (by simpa using hxn)]
        apply hI.owned x
        simpa [hxn] using hx
  · intro u hu
    apply keeps_relocate
    · rfl
    · intro x hx
      simp [hpushing x hx, Ne.symm hu]
    · simp

/-- A store to a link in neither the live chain nor a held one. -/
theorem write_spec {n : ν} {v : Option ν} (hI : Inv m g) (hlive : g n ≠ .live)
    (hheld : ∀ h, g n ≠ .held h) :
    Inv { m with next := Function.update m.next n v } g ∧
      ∀ u, g n ≠ .pushing u → g n ≠ .flushing u →
        Keeps u m g { m with next := Function.update m.next n v } g := by
  have hnext : ∀ x, g x ≠ g n → Function.update m.next n v x = m.next x := by
    intro x hx
    apply Function.update_of_ne
    rintro rfl
    exact hx rfl
  constructor
  · refine ⟨hI.live.congr fun x hx => ?_, hI.live_mem, hI.owned, hI.chains_nodup, fun h hh => ?_,
      hI.held_mem, hI.outside, hI.inside⟩
    · apply hnext
      rw [(hI.live_mem x).mp hx]
      exact hlive.symm
    · obtain ⟨nodes, hchain, hmem⟩ := hI.held h hh
      refine ⟨nodes, hchain.congr fun x hx => ?_, hmem⟩
      apply hnext
      rw [(hmem x).mp hx]
      exact (hheld h).symm
  · intro u hp hf
    constructor
    · intro x hx
      constructor
      · exact hx
      · apply hnext
        rw [hx]
        exact hp.symm
    · intro x
      rfl
    · intro x hx
      apply hnext
      rw [hx]
      exact hf.symm

/-- **The CAS of a push** puts the node in front of the live chain, whatever
has happened since the head was read. -/
theorem swapPush_spec {n : ν} (hI : Inv m g) (hn : g n = .pushing t) (hnext : m.next n = m.head) :
    Inv { m with
        head := some n
        since := n :: m.since
        pushes := Function.update m.pushes n (m.pushes n + 1) } (relocate [n] .live g) ∧
      ∀ u, u ≠ t → Keeps u m g { m with
        head := some n
        since := n :: m.since
        pushes := Function.update m.pushes n (m.pushes n + 1) } (relocate [n] .live g) := by
  have hpushing : ∀ x ∈ [n], g x = .pushing t := by
    intro x hx
    rw [List.mem_singleton.mp hx]
    exact hn
  have hheld := hI.relocate_held (l := [n]) (q := .live) (by simp) fun x hx h => by
    simp [hpushing x hx]
  have hout : n ∉ m.since := by
    intro hmem
    rw [hI.live_mem n, hn] at hmem
    cases hmem
  constructor
  · refine ⟨hI.live.cons hnext hout, fun x => ?_, fun x hx => ?_, hI.chains_nodup, hheld.1,
      hheld.2, fun x hx => ?_, fun x hx => ?_⟩
    · by_cases hxn : x = n
      · simp [hxn]
      · rw [relocate_of_not_mem (by simpa using hxn), List.mem_cons]
        simp only [hxn, false_or]
        exact hI.live_mem x
    · have hclient := hI.owned x hx
      have hxn : x ≠ n := by
        rintro rfl
        rw [hn] at hclient
        cases hclient
      rw [relocate_of_not_mem (by simpa using hxn)]
      exact hclient
    · by_cases hxn : x = n
      · simp [hxn, Place.inChain] at hx
      · rw [relocate_of_not_mem (by simpa using hxn)] at hx
        exact (Function.update_of_ne hxn ..).trans (hI.outside x hx)
    · by_cases hxn : x = n
      · rw [hxn]
        show Function.update m.pushes n (m.pushes n + 1) n = m.taken n + 1
        rw [Function.update_self, hI.outside n (by simp [hn, Place.inChain])]
      · rw [relocate_of_not_mem (by simpa using hxn)] at hx
        exact (Function.update_of_ne hxn ..).trans (hI.inside x hx)
  · intro u hu
    apply keeps_relocate
    · rfl
    · intro x hx
      simp [hpushing x hx, Ne.symm hu]
    · simp

/-! ## Flushes and what clients do with them -/

/-- **The CAS or exchange of a flush** gets exactly the nodes pushed since the
flush before. -/
theorem swapFlush_spec (hI : Inv m g) (hfree : ∀ n, g n ≠ .flushing t) :
    Inv { m with head := none, since := [] } (relocate m.since (.flushing t) g) ∧
      (∀ n, n ∈ m.since ↔ relocate m.since (.flushing t) g n = .flushing t) ∧
      ∀ u, u ≠ t → Keeps u m g { m with head := none, since := [] }
        (relocate m.since (.flushing t) g) := by
  have hlive : ∀ x ∈ m.since, g x = .live := fun x hx => (hI.live_mem x).mp hx
  have hcounts := hI.relocate_counts (q := .flushing t) fun x hx => by
    rw [hlive x hx]
    exact Iff.rfl
  have hheld := hI.relocate_held (l := m.since) (q := .flushing t) (by simp) fun x hx h => by
    simp [hlive x hx]
  refine ⟨⟨chain_nil, fun x => ?_, fun x hx => ?_, hI.chains_nodup, hheld.1, hheld.2, hcounts.1,
    hcounts.2⟩, fun x => (relocate_eq_self hfree).symm, fun u hu => ?_⟩
  · by_cases hx : x ∈ m.since
    · simp [hx]
    · simp [hx, ← hI.live_mem x]
  · have hx := hI.owned x hx
    rw [relocate_of_not_mem]
    · exact hx
    · intro hmem
      rw [hlive x hmem] at hx
      cases hx
  · apply keeps_relocate
    · rfl
    · intro x hx
      simp [hlive x hx]
    · simpa using hu.symm

/-- A flush returns its chain to the client. -/
theorem return_spec {out : Option ν} {nodes : List ν} (hI : Inv m g)
    (hc : Chain m.next out nodes) (hmem : ∀ n, n ∈ nodes ↔ g n = .flushing t) :
    ∃ g', Inv { m with chains := out.toList ++ m.chains } g' ∧ (∀ n, g' n ≠ .flushing t) ∧
      ∀ u, u ≠ t → Keeps u m g { m with chains := out.toList ++ m.chains } g' := by
  cases out with
  | none =>
    have hnil : nodes = [] := List.head?_eq_none_iff.mp hc.head.symm
    refine ⟨g, hI, fun x hx => ?_, fun u _ => keeps_refl u m g⟩
    rw [← hmem x, hnil] at hx
    cases hx
  | some h =>
    have hflushing : ∀ x ∈ nodes, g x = .flushing t := fun x hx => (hmem x).mp hx
    have hh : h ∈ nodes := List.mem_of_mem_head? hc.head.symm
    -- a chain with this front was not held before
    have hnew : h ∉ m.chains := by
      intro hmem'
      have hheld := hI.held_front hmem'
      rw [hflushing h hh] at hheld
      cases hheld
    have hcounts := hI.relocate_counts (q := .held h) fun x hx => by
      rw [hflushing x hx]
      exact Iff.rfl
    refine ⟨relocate nodes (.held h) g, ⟨hI.live, fun x => ?_, fun x hx => ?_,
      List.nodup_cons.mpr ⟨hnew, hI.chains_nodup⟩, fun k hk => ?_, fun x k hx => ?_, hcounts.1,
      hcounts.2⟩, fun x hx => ?_, fun u hu => ?_⟩
    · rw [relocate_eq_iff (by simp) fun x hx => by simp [hflushing x hx]]
      exact hI.live_mem x
    · have hx := hI.owned x hx
      rw [relocate_of_not_mem]
      · exact hx
      · intro hmem
        rw [hflushing x hmem] at hx
        cases hx
    · rcases List.mem_cons.mp hk with rfl | hk
      · refine ⟨nodes, hc, fun x => (relocate_eq_self fun y hy => ?_).symm⟩
        exact hnew (hI.held_mem y k hy)
      · obtain ⟨nodes', hc', hmem'⟩ := hI.held k hk
        refine ⟨nodes', hc', fun x => ?_⟩
        rw [relocate_eq_iff _ fun x hx => by simp [hflushing x hx]]
        · exact hmem' x
        · intro heq
          cases heq
          exact hnew hk
    · by_cases hl : x ∈ nodes
      · rw [relocate_of_mem hl] at hx
        cases hx
        exact List.mem_cons_self
      · rw [relocate_of_not_mem hl] at hx
        exact List.mem_cons_of_mem _ (hI.held_mem x k hx)
    · by_cases hl : x ∈ nodes
      · rw [relocate_of_mem hl] at hx
        cases hx
      · rw [relocate_of_not_mem hl] at hx
        exact hl ((hmem x).mpr hx)
    · apply keeps_relocate
      · rfl
      · intro x hx
        simp [hflushing x hx, hu.symm]
      · simp

/-! ## A client takes the first node off a chain it holds -/

/-- The first node goes to the client, and the rest of its chain is named by its
new front. -/
structure Uncouples (n : ν) (rest : List ν) (g g' : Ghost ι ν) : Prop where
  self : g' n = .client
  left : ∀ x ∈ rest, ∃ h, rest.head? = some h ∧ g' x = .held h
  other : ∀ x, x ∉ n :: rest → g' x = g x

theorem exists_uncouples {n : ν} {rest : List ν} (hn : n ∉ rest) (g : Ghost ι ν) :
    ∃ g', Uncouples n rest g g' := by
  cases rest with
  | nil =>
    refine ⟨relocate [n] .client g, relocate_of_mem List.mem_cons_self, fun x hx => ?_,
      fun x hx => relocate_of_not_mem hx⟩
    cases hx
  | cons h l =>
    refine ⟨relocate [n] .client (relocate (h :: l) (.held h) g),
      relocate_of_mem List.mem_cons_self, fun x hx => ⟨h, rfl, ?_⟩, fun x hx => ?_⟩
    · have hxn : x ≠ n := ne_of_mem_of_not_mem hx hn
      rw [relocate_of_not_mem (by simpa using hxn), relocate_of_mem hx]
    · obtain ⟨hxn, hxl⟩ := not_or.mp fun hor => hx (List.mem_cons.mpr hor)
      rw [relocate_of_not_mem (by simpa using hxn), relocate_of_not_mem hxl]

section Take

variable {n : ν} {rest : List ν} {g' : Ghost ι ν}

/-- Nobody comes to or leaves a place that is neither the client's nor a held
chain. -/
theorem Uncouples.eq_iff {q : Place ι ν} (hg : Uncouples n rest g g')
    (hfrom : ∀ x ∈ n :: rest, g x = .held n) (hclient : q ≠ .client) (hheld : ∀ h, q ≠ .held h)
    (x : ν) : g' x = q ↔ g x = q := by
  by_cases hx : x ∈ n :: rest
  · rw [hfrom x hx]
    rcases List.mem_cons.mp hx with rfl | hx
    · rw [hg.self]
      exact iff_of_false hclient.symm (hheld x).symm
    · obtain ⟨h, -, hleft⟩ := hg.left x hx
      rw [hleft]
      exact iff_of_false (hheld h).symm (hheld n).symm
  · rw [hg.other x hx]

/-- The nodes of a chain that is held afterwards: what is left of this chain, or
another chain that was held before. -/
theorem Uncouples.held_iff (hg : Uncouples n rest g g') (hn : n ∉ rest)
    (hmem : ∀ x, x ∈ n :: rest ↔ g x = .held n) (x k : ν) :
    g' x = .held k ↔ rest.head? = some k ∧ x ∈ rest ∨ k ≠ n ∧ g x = .held k := by
  by_cases hx : x ∈ n :: rest
  · have hheld := (hmem x).mp hx
    have hright : ¬ (k ≠ n ∧ g x = .held k) := by
      intro ⟨hk, h⟩
      rw [hheld] at h
      exact hk (Place.held.inj h).symm
    rw [or_iff_left hright]
    rcases List.mem_cons.mp hx with rfl | hx
    · rw [hg.self]
      exact iff_of_false (by simp) fun h => hn h.2
    · obtain ⟨h, hhead, hleft⟩ := hg.left x hx
      rw [hleft, hhead]
      simp [hx]
  · rw [hg.other x hx]
    constructor
    · intro h
      refine .inr ⟨?_, h⟩
      rintro rfl
      exact hx ((hmem x).mpr h)
    · intro h
      rcases h with ⟨-, hrest⟩ | ⟨-, h⟩
      · exact absurd (List.mem_cons_of_mem _ hrest) hx
      · exact h

theorem Uncouples.inChain_iff (hg : Uncouples n rest g g')
    (hfrom : ∀ x ∈ n :: rest, g x = .held n) {x : ν} (hx : x ≠ n) :
    (g' x).inChain ↔ (g x).inChain := by
  by_cases hrest : x ∈ rest
  · obtain ⟨h, -, hleft⟩ := hg.left x hrest
    rw [hleft, hfrom x (List.mem_cons_of_mem _ hrest)]
    exact Iff.rfl
  · rw [hg.other x (by simp [hx, hrest])]

/-- The chains that are held after a take. -/
theorem take_held (hI : Inv m g) (hc : Chain m.next (some n) (n :: rest))
    (hmem : ∀ x, x ∈ n :: rest ↔ g x = .held n) (hg : Uncouples n rest g g') :
    (take m n).chains.Nodup ∧
      (∀ k ∈ (take m n).chains, ∃ nodes, Chain m.next (some k) nodes ∧
        ∀ x, x ∈ nodes ↔ g' x = .held k) ∧
      ∀ x k, g' x = .held k → k ∈ (take m n).chains := by
  obtain ⟨hnrest, hnodup⟩ := List.nodup_cons.mp hc.nodup
  obtain ⟨hnext, hlinked⟩ := linked_cons.mp hc.linked
  have hchains : (take m n).chains = rest.head?.toList ++ m.chains.erase n := by
    rw [← hnext]
    rfl
  -- the rest of the chain has not been held under its own front
  have hnew : ∀ h ∈ rest, h ∉ m.chains := by
    intro h hh hmem'
    have hheld := (hmem h).mp (List.mem_cons_of_mem _ hh)
    rw [hI.held_front hmem'] at hheld
    exact hnrest (Place.held.inj hheld ▸ hh)
  have hhead : ∀ k, rest.head? = some k → k ∉ m.chains := fun k hk =>
    hnew k (List.mem_of_mem_head? hk)
  have hiff := hg.held_iff hnrest hmem
  rw [hchains]
  refine ⟨?_, fun k hk => ?_, fun x k hx => ?_⟩
  · apply List.nodup_append.mpr
    refine ⟨?_, hI.chains_nodup.erase n, fun a ha b hb hab => ?_⟩
    · cases rest.head? <;> simp
    · rw [hab] at ha
      exact hhead b (Option.mem_toList.mp ha) (List.mem_of_mem_erase hb)
  · rcases List.mem_append.mp hk with hk | hk
    · have hk : rest.head? = some k := Option.mem_toList.mp hk
      refine ⟨rest, ⟨hk.symm, hlinked, hnodup⟩, fun x => ?_⟩
      have hother : ¬ (k ≠ n ∧ g x = .held k) := fun h => hhead k hk (hI.held_mem x k h.2)
      rw [hiff, or_iff_left hother, and_iff_right hk]
    · obtain ⟨hkn, hk⟩ := hI.chains_nodup.mem_erase_iff.mp hk
      obtain ⟨nodes, hchain, hnodes⟩ := hI.held k hk
      refine ⟨nodes, hchain, fun x => ?_⟩
      have hleft : ¬ (rest.head? = some k ∧ x ∈ rest) := fun h => hhead k h.1 hk
      rw [hiff, or_iff_right hleft, and_iff_right hkn]
      exact hnodes x
  · apply List.mem_append.mpr
    rcases (hiff x k).mp hx with ⟨hk, -⟩ | ⟨hkn, h⟩
    · exact .inl (Option.mem_toList.mpr hk)
    · exact .inr (hI.chains_nodup.mem_erase_iff.mpr ⟨hkn, hI.held_mem x k h⟩)

/-- A client takes the first node off a chain it holds. -/
theorem take_spec (hI : Inv m g) (hn : n ∈ m.chains) :
    ∃ g', Inv (take m n) g' ∧ ∀ u, Keeps u m g (take m n) g' := by
  obtain ⟨nodes, hc, hmem⟩ := hI.held n hn
  obtain ⟨rest, rfl⟩ := List.head?_eq_some_iff.mp hc.head.symm
  obtain ⟨g', hg⟩ := exists_uncouples (List.nodup_cons.mp hc.nodup).1 g
  have hfrom : ∀ x ∈ n :: rest, g x = .held n := fun x hx => (hmem x).mp hx
  obtain ⟨hnodup, hheld, hheldmem⟩ := take_held hI hc hmem hg
  have hinside : m.pushes n = m.taken n + 1 := by
    apply hI.inside
    rw [hI.held_front hn]
    trivial
  have hkept : ∀ x, g x = .client ∨ (∃ u, g x = .pushing u) → g' x = g x := by
    intro x hx
    apply hg.other
    intro hin
    rw [hfrom x hin] at hx
    simp at hx
  refine ⟨g', ?_, fun u => ?_⟩
  · constructor
    case live => exact hI.live
    case live_mem =>
      intro x
      exact (hI.live_mem x).trans (hg.eq_iff hfrom (by simp) (by simp) x).symm
    case owned =>
      intro x hx
      have hx : Function.update m.owned n true x = true := hx
      by_cases hxn : x = n
      · rw [hxn, hg.self]
      · rw [Function.update_of_ne hxn] at hx
        have hclient := hI.owned x hx
        exact (hkept x (.inl hclient)).trans hclient
    case chains_nodup => exact hnodup
    case held => exact hheld
    case held_mem => exact hheldmem
    case outside =>
      intro x hx
      show m.pushes x = Function.update m.taken n (m.taken n + 1) x
      by_cases hxn : x = n
      · rw [hxn, Function.update_self]
        exact hinside
      · rw [Function.update_of_ne hxn]
        exact hI.outside x fun h => hx ((hg.inChain_iff hfrom hxn).mpr h)
    case inside =>
      intro x hx
      show m.pushes x = Function.update m.taken n (m.taken n + 1) x + 1
      by_cases hxn : x = n
      · rw [hxn, hg.self] at hx
        exact absurd hx id
      · rw [Function.update_of_ne hxn]
        exact hI.inside x ((hg.inChain_iff hfrom hxn).mp hx)
  · constructor
    case pushing =>
      intro x hx
      exact ⟨(hkept x (.inr ⟨u, hx⟩)).trans hx, rfl⟩
    case flushing =>
      intro x
      exact hg.eq_iff hfrom (by simp) (by simp) x
    case next =>
      intro x _
      rfl

end Take

end FibConcurrent.MpmcStack
