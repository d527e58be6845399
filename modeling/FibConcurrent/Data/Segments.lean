import Mathlib.Data.List.Nodup
import Mathlib.Logic.Function.Basic
import Mathlib.Logic.Relation

/-!
# Data — singly linked lists that may be broken at pending links

The nodes of a linked queue in the order in which they were enqueued, when the
link from a node to its successor is written later than the successor is
enqueued. Until then the list in memory is broken at that node: its link is
still null and `pend` names the thread that owes the link. A list with nothing
pending is an ordinary null-terminated chain.

Everything is stated for one link field `next : ν → Option ν` of an arbitrary
node type, and describes what a store to one link does to the whole list.
-/

namespace FibConcurrent.Data

variable {ν τ : Type*}

/-- `a` is joined to its successor `b`: the link is written and nothing is
owed, or it is null and some thread owes exactly this link. -/
def Joint (next : ν → Option ν) (pend : ν → Option (τ × ν)) (a b : ν) : Prop :=
  next a = some b ∧ pend a = none ∨ next a = none ∧ ∃ t, pend a = some (t, b)

/-- The list of nodes, each joined to the next, the last one with a null link. -/
def Segments (next : ν → Option ν) (pend : ν → Option (τ × ν)) : List ν → Prop
  | [] => True
  | [a] => next a = none ∧ pend a = none
  | a :: b :: l => Joint next pend a b ∧ Segments next pend (b :: l)

/-- `b` can be reached from `a` along written links. -/
def Reaches (next : ν → Option ν) (a b : ν) : Prop :=
  Relation.ReflTransGen (fun x y => next x = some y) a b

section Joint

variable {next next' : ν → Option ν} {pend pend' : ν → Option (τ × ν)} {a b c : ν}

theorem Joint.congr (h : Joint next pend a b) (hn : next' a = next a) (hp : pend' a = pend a) :
    Joint next' pend' a b := by
  unfold Joint at *
  rwa [hn, hp]

theorem Joint.eq_of_next (h : Joint next pend a b) (hn : next a = some c) : b = c := by
  rcases h with ⟨h, -⟩ | ⟨h, -⟩
  · exact Option.some.inj (h.symm.trans hn)
  · simp [h] at hn

theorem Joint.owed (h : Joint next pend a b) (hn : next a = none) : ∃ t, pend a = some (t, b) := by
  rcases h with ⟨h, -⟩ | ⟨-, h⟩
  · simp [h] at hn
  · exact h

theorem Joint.eq_of_pend {t : τ} (h : Joint next pend a b) (hp : pend a = some (t, c)) :
    next a = none ∧ b = c := by
  rcases h with ⟨-, h⟩ | ⟨hn, u, h⟩
  · simp [h] at hp
  · exact ⟨hn, (Prod.mk.inj (Option.some.inj (h.symm.trans hp))).2⟩

end Joint

section Segments

variable {next next' : ν → Option ν} {pend pend' : ν → Option (τ × ν)} {a b : ν} {l : List ν}

@[simp] theorem segments_nil : Segments next pend [] := trivial

@[simp] theorem segments_singleton :
    Segments next pend [a] ↔ next a = none ∧ pend a = none := Iff.rfl

@[simp] theorem segments_cons_cons :
    Segments next pend (a :: b :: l) ↔ Joint next pend a b ∧ Segments next pend (b :: l) :=
  Iff.rfl

theorem Segments.tail (h : Segments next pend (a :: l)) : Segments next pend l := by
  cases l with
  | nil => trivial
  | cons b l => exact h.2

/-- Only the links of the listed nodes matter. -/
theorem Segments.congr (h : Segments next pend l) (hn : ∀ a ∈ l, next' a = next a)
    (hp : ∀ a ∈ l, pend' a = pend a) : Segments next' pend' l := by
  induction l with
  | nil => trivial
  | cons a l ih =>
    have htail : Segments next' pend' l :=
      ih h.tail (fun x hx => hn x (List.mem_cons_of_mem _ hx))
        (fun x hx => hp x (List.mem_cons_of_mem _ hx))
    cases l with
    | nil => exact ⟨(hn a (by simp)).trans h.1, (hp a (by simp)).trans h.2⟩
    | cons b l => exact ⟨h.1.congr (hn a (by simp)) (hp a (by simp)), htail⟩

/-- A written link leads to the next node of the list. -/
theorem Segments.head_of_next (h : Segments next pend (a :: l)) (hn : next a = some b) :
    pend a = none ∧ ∃ l', l = b :: l' := by
  cases l with
  | nil => simp [h.1] at hn
  | cons c l =>
    have hc : c = b := h.1.eq_of_next hn
    subst hc
    rcases h.1 with ⟨-, hp⟩ | ⟨hnone, -⟩
    · exact ⟨hp, l, rfl⟩
    · simp [hnone] at hn

/-- A null link ends the list, or its thread has yet to write it. -/
theorem Segments.head_of_null (h : Segments next pend (a :: l)) (hn : next a = none) :
    l = [] ∨ ∃ t b l', pend a = some (t, b) ∧ l = b :: l' := by
  cases l with
  | nil => exact .inl rfl
  | cons b l =>
    obtain ⟨t, ht⟩ := h.1.owed hn
    exact .inr ⟨t, b, l, ht, rfl⟩

/-- A link that is owed is still null. -/
theorem Segments.null_of_pend {t : τ} (h : Segments next pend l) (ha : a ∈ l)
    (hp : pend a = some (t, b)) : next a = none ∧ b ∈ l := by
  induction l with
  | nil => cases ha
  | cons c l ih =>
    rcases List.mem_cons.mp ha with rfl | hal
    · cases l with
      | nil => simp [h.2] at hp
      | cons d l =>
        obtain ⟨hn, rfl⟩ := h.1.eq_of_pend hp
        exact ⟨hn, by simp⟩
    · obtain ⟨hn, hb⟩ := ih h.tail hal
      exact ⟨hn, List.mem_cons_of_mem _ hb⟩

/-- Written links do not leave the list. -/
theorem Segments.next_mem (h : Segments next pend l) (ha : a ∈ l) (hn : next a = some b) :
    b ∈ l := by
  induction l with
  | nil => cases ha
  | cons c l ih =>
    rcases List.mem_cons.mp ha with rfl | ha
    · obtain ⟨-, l', rfl⟩ := h.head_of_next hn
      simp
    · exact List.mem_cons_of_mem _ (ih h.tail ha)

theorem Segments.reaches_mem (h : Segments next pend l) (ha : a ∈ l)
    (hr : Reaches next a b) : b ∈ l := by
  induction hr with
  | refl => exact ha
  | tail _ hn ih => exact h.next_mem ih hn

/-- The last node has a null link and nobody owes one. -/
theorem Segments.last (h : Segments next pend (l ++ [a])) : next a = none ∧ pend a = none := by
  induction l with
  | nil => exact h
  | cons b l ih => exact ih h.tail

variable [DecidableEq ν]

/-- A new node is enqueued behind the last one; the link to it is owed. -/
theorem Segments.enqueue {n : ν} {t : τ} (h : Segments next pend (l ++ [a]))
    (hnd : (l ++ [a]).Nodup) (hn : n ∉ l ++ [a]) (hnull : next n = none) (hfree : pend n = none) :
    Segments next (Function.update pend a (some (t, n))) (l ++ [a, n]) := by
  induction l with
  | nil =>
    have hna : n ≠ a := by simpa using hn
    refine ⟨.inr ⟨h.1, t, by simp⟩, hnull, ?_⟩
    rwa [Function.update_of_ne hna]
  | cons b l ih =>
    have hba : b ≠ a := by
      rintro rfl
      simp at hnd
    have htail := ih h.tail (List.nodup_cons.mp hnd).2 (fun hm => hn (List.mem_cons_of_mem _ hm))
    have hjoint : ∀ c, Joint next pend b c →
        Joint next (Function.update pend a (some (t, n))) b c := fun c hc =>
      hc.congr rfl (Function.update_of_ne hba ..)
    cases l with
    | nil => exact ⟨hjoint _ h.1, htail⟩
    | cons c l => exact ⟨hjoint _ h.1, htail⟩

/-- The owed link is written. -/
theorem Segments.link {t : τ} (h : Segments next pend l) (hnd : l.Nodup)
    (hp : pend a = some (t, b)) :
    Segments (Function.update next a (some b)) (Function.update pend a none) l := by
  induction l with
  | nil => trivial
  | cons c l ih =>
    have htail := ih h.tail (List.nodup_cons.mp hnd).2
    by_cases hc : c = a
    · subst hc
      cases l with
      | nil => simp [h.2] at hp
      | cons d l =>
        obtain ⟨-, rfl⟩ := h.1.eq_of_pend hp
        exact ⟨.inl ⟨by simp, by simp⟩, htail⟩
    · cases l with
      | nil => exact ⟨by simp [hc, h.1], by simp [hc, h.2]⟩
      | cons d l =>
        exact ⟨h.1.congr (Function.update_of_ne hc ..) (Function.update_of_ne hc ..), htail⟩

/-- A store to the link of a node outside the list. -/
theorem Segments.update_next {x : ν} {v : Option ν} (h : Segments next pend l) (hx : x ∉ l) :
    Segments (Function.update next x v) pend l :=
  h.congr (fun _ ha => Function.update_of_ne (ne_of_mem_of_not_mem ha hx) ..) fun _ _ => rfl

end Segments

/-! ## Unbroken chains -/

/-- A chain in which every link is written: nothing is pending. -/
def Linked (next : ν → Option ν) (l : List ν) : Prop :=
  Segments next (fun _ => (none : Option (Unit × ν))) l

section Linked

variable {next next' : ν → Option ν} {a b : ν} {l : List ν}

@[simp] theorem linked_nil : Linked next [] := trivial

@[simp] theorem linked_cons : Linked next (a :: l) ↔ next a = l.head? ∧ Linked next l := by
  cases l with
  | nil => simp [Linked]
  | cons b l => simp [Linked, Joint]

/-- Inside a chain the link is the next node. -/
theorem Linked.next_of_append {pre : List ν} (h : Linked next (pre ++ a :: l)) :
    next a = l.head? := by
  induction pre with
  | nil => exact (linked_cons.mp h).1
  | cons b pre ih => exact ih (linked_cons.mp h).2

/-- A chain is determined by where it starts. -/
theorem Linked.unique {l' : List ν} (h : Linked next l) (h' : Linked next l')
    (hhead : l.head? = l'.head?) : l = l' := by
  induction l generalizing l' with
  | nil => exact (List.head?_eq_none_iff.mp hhead.symm).symm
  | cons a l ih =>
    obtain ⟨rest, rfl⟩ := List.head?_eq_some_iff.mp hhead.symm
    obtain ⟨hnext, hl⟩ := linked_cons.mp h
    obtain ⟨hnext', hl'⟩ := linked_cons.mp h'
    rw [ih hl hl' (hnext.symm.trans hnext')]

theorem Linked.of_suffix {l' : List ν} (h : Linked next l) (hl : l' <:+ l) : Linked next l' := by
  obtain ⟨pre, rfl⟩ := hl
  induction pre with
  | nil => exact h
  | cons a pre ih => exact ih (linked_cons.mp h).2

/-- A chain does not come back to a node, since it would then not end. -/
theorem Linked.nodup (h : Linked next l) : l.Nodup := by
  induction l with
  | nil => exact List.nodup_nil
  | cons a l ih =>
    obtain ⟨-, hl⟩ := linked_cons.mp h
    refine List.nodup_cons.mpr ⟨fun ha => ?_, ih hl⟩
    obtain ⟨pre, post, rfl⟩ := List.append_of_mem ha
    have hback : Linked next (a :: post) := hl.of_suffix ⟨pre, rfl⟩
    have hlength := congrArg List.length (h.unique hback rfl)
    simp only [List.length_cons, List.length_append] at hlength
    omega

/-- Only the links of the listed nodes matter. -/
theorem Linked.congr (h : Linked next l) (hn : ∀ a ∈ l, next' a = next a) : Linked next' l :=
  Segments.congr h hn fun _ _ => rfl

/-- A store to the link of a node outside the list. -/
theorem Linked.update_next [DecidableEq ν] {x : ν} {v : Option ν} (h : Linked next l)
    (hx : x ∉ l) : Linked (Function.update next x v) l :=
  Segments.update_next h hx

/-- A null-terminated node is linked behind the last one. -/
theorem Linked.append [DecidableEq ν] {n : ν} (h : Linked next (l ++ [a]))
    (hnd : (l ++ [a]).Nodup) (hn : n ∉ l ++ [a]) (hnull : next n = none) :
    Linked (Function.update next a (some n)) (l ++ [a, n]) := by
  have hmem : n ∉ l := fun hm => hn (by simp [hm])
  have hnodup : (l ++ [a, n]).Nodup := by
    rw [List.append_cons]
    exact List.nodup_append.mpr ⟨hnd, by simp, fun x hx y hy => by
      rw [List.mem_singleton.mp hy]
      rintro rfl
      exact hn hx⟩
  have hpend := Segments.enqueue (t := ()) h hnd hn hnull rfl
  have hlink := hpend.link (a := a) (b := n) (t := ()) hnodup (Function.update_self ..)
  rwa [Function.update_idem, Function.update_eq_self_iff.mpr rfl] at hlink

/-- The links lead from a listed node to the nodes behind it only. -/
theorem Linked.mem_tail (h : Linked next (a :: l))
    (hr : Relation.TransGen (fun x y => next x = some y) a b) : b ∈ l := by
  induction hr with
  | single hn =>
    obtain ⟨-, l', rfl⟩ := Segments.head_of_next h hn
    exact List.mem_cons_self
  | tail _ hn ih => exact Segments.next_mem (linked_cons.mp h).2 ih hn

/-- The links lead from the first node to all listed nodes and to no others. -/
theorem Linked.reaches_iff (h : Linked next (a :: l)) : Reaches next a b ↔ b ∈ a :: l := by
  constructor
  · intro hr
    exact Segments.reaches_mem h List.mem_cons_self hr
  · intro hb
    induction l generalizing a with
    | nil =>
      rw [List.mem_singleton.mp hb]
      exact Relation.ReflTransGen.refl
    | cons c l ih =>
      rcases List.mem_cons.mp hb with rfl | hb
      · exact Relation.ReflTransGen.refl
      · exact Relation.ReflTransGen.head (linked_cons.mp h).1 (ih (linked_cons.mp h).2 hb)

/-- **A chain without repetitions has no cycle.** -/
theorem Linked.acyclic (h : Linked next l) (hnd : l.Nodup) (ha : a ∈ l) :
    ¬ Relation.TransGen (fun x y => next x = some y) a a := by
  induction l with
  | nil => cases ha
  | cons b l ih =>
    intro hr
    rcases List.mem_cons.mp ha with rfl | hal
    · exact (List.nodup_cons.mp hnd).1 (h.mem_tail hr)
    · exact ih (linked_cons.mp h).2 (List.nodup_cons.mp hnd).2 hal hr

end Linked

end FibConcurrent.Data
