import RationalLisp.Proofs.Changes
import Mathlib.Logic.Function.Basic

/-!
# Scope chains form a tree

A chain of scopes is copied whenever a closure captures it and whenever a scope is entered, so
nothing in the store itself says that a frame has the same frames outside it in every copy. Still
it has: a new frame is put on top of a chain that is already there, and no other frame ever gets a
chain of its own. So each frame has one chain of parents for good.
-/

namespace RationalLisp

/-- Each frame of the chain has its parents outside it. -/
def Rooted (parents : FrameId → Stack) : Stack → Prop
  | [] => True
  | id :: outer => outer = parents id ∧ Rooted parents outer

namespace Rooted

variable {parents parents' : FrameId → Stack} {c : Stack}

theorem eq_parents (h : Rooted parents c) {inner : Stack} {id : FrameId} {outer : Stack}
    (hc : c = inner ++ id :: outer) : outer = parents id := by
  induction inner generalizing c with
  | nil =>
    subst hc
    exact h.1
  | cons first inner ih =>
    subst hc
    exact ih h.2 rfl

/-- A frame that occurred twice would be longer than its own parents. -/
theorem nodup (h : Rooted parents c) : c.Nodup := by
  induction c with
  | nil => exact List.nodup_nil
  | cons id outer ih =>
    refine List.nodup_cons.mpr ⟨fun hmem => ?_, ih h.2⟩
    obtain ⟨inner, outer', heq⟩ := List.append_of_mem hmem
    have houter : outer' = outer := (h.2.eq_parents heq).trans h.1.symm
    have hlength := congrArg List.length heq
    rw [houter, List.length_append, List.length_cons] at hlength
    omega

theorem congr (h : Rooted parents c) (hagree : ∀ id ∈ c, parents' id = parents id) :
    Rooted parents' c := by
  induction c with
  | nil => trivial
  | cons id outer ih =>
    constructor
    · rw [hagree id List.mem_cons_self]
      exact h.1
    · exact ih h.2 fun id' hid => hagree id' (List.mem_cons_of_mem id hid)

end Rooted

namespace Store

/-- All chains of scopes in play: the present stack, the stacks put aside, and those captured. -/
def chains (s : Store) : List Stack := s.stack :: (s.pending ++ s.captures)

theorem chains_leave_subset (s : Store) : s.leave.chains ⊆ s.chains := by
  unfold chains
  rw [captures_leave]
  cases hp : s.pending with
  | nil => simp [leave, hp]
  | cons stack pending =>
    simp only [leave, hp]
    exact List.subset_cons_self _ _

/-- A change makes no new chain, or puts a new frame on top of a chain. -/
theorem Change.chains_cases {s t : Store} (h : Change s t) :
    t.chains ⊆ s.chains ∨ ∃ base ∈ s.chains, t.frames.size = s.frames.size + 1 ∧
      ∀ c ∈ t.chains, c ∈ s.chains ∨ c = s.frames.size :: base := by
  cases h with
  | bindAt id name v => exact .inl (List.Subset.refl _)
  | write output journal => exact .inl (List.Subset.refl _)
  | leave => exact .inl s.chains_leave_subset
  | allocate p h =>
    refine .inl fun c hc => ?_
    simp only [chains, captures_allocate, List.mem_cons, List.mem_append] at hc ⊢
    obtain hc | hc | hc | hc := hc
    · exact .inl hc
    · exact .inr (.inl hc)
    · exact .inr (.inr hc)
    · exact (h c hc).elim (fun hc => .inr (.inr hc)) .inl
  | @enter frame base h =>
    refine .inr ⟨base, ?_, size_enter s frame base, fun c hc => ?_⟩
    · exact List.mem_cons_of_mem _ (List.mem_append_right _ h)
    · simp only [chains, captures_enter, List.mem_cons, List.mem_append] at hc ⊢
      obtain hc | hc | hc := hc
      · exact .inr hc
      · obtain hc | hc := List.mem_cons.mp hc
        · exact .inl (.inl hc)
        · exact .inl (.inr (.inl hc))
      · exact .inl (.inr (.inr hc))

/-- The chains in play form a tree of the frames made so far. -/
structure Tree (parents : FrameId → Stack) (s : Store) : Prop where
  rooted : ∀ c ∈ s.chains, Rooted parents c
  bounded : ∀ c ∈ s.chains, ∀ id ∈ c, id < s.frames.size

namespace Tree

variable {parents parents' : FrameId → Stack} {s t : Store}

theorem congr (h : Tree parents s) (hagree : ∀ id < s.frames.size, parents' id = parents id) :
    Tree parents' s := by
  refine ⟨fun c hc => (h.rooted c hc).congr fun id hid => ?_, h.bounded⟩
  exact hagree id (h.bounded c hc id hid)

/-- A change keeps the parents of every frame that is there. -/
theorem change (h : Tree parents s) (hchange : Change s t) :
    ∃ parents', (∀ id < s.frames.size, parents' id = parents id) ∧ Tree parents' t := by
  have hsize : s.frames.size ≤ t.frames.size := Changes.size_le (.single hchange)
  obtain hsub | ⟨base, hbase, htsize, hchains⟩ := hchange.chains_cases
  · refine ⟨parents, fun _ _ => rfl, fun c hc => h.rooted c (hsub hc), fun c hc id hid => ?_⟩
    exact (h.bounded c (hsub hc) id hid).trans_le hsize
  · -- the new frame gets the chain below it as its parents
    have hagree : ∀ id < s.frames.size,
        Function.update parents s.frames.size base id = parents id :=
      fun id hid => Function.update_of_ne hid.ne base parents
    have hs := h.congr hagree
    refine ⟨_, hagree, fun c hc => ?_, fun c hc id hid => ?_⟩
    · obtain hc | rfl := hchains c hc
      · exact hs.rooted c hc
      · exact ⟨(Function.update_self s.frames.size base parents).symm, hs.rooted base hbase⟩
    · obtain hc | rfl := hchains c hc
      · exact (h.bounded c hc id hid).trans_le hsize
      · obtain rfl | hid := List.mem_cons.mp hid
        · exact htsize ▸ Nat.lt_succ_self s.frames.size
        · exact (h.bounded base hbase id hid).trans_le hsize

theorem changes (h : Tree parents s) (hchanges : Changes s t) :
    ∃ parents', (∀ id < s.frames.size, parents' id = parents id) ∧ Tree parents' t := by
  induction hchanges with
  | refl => exact ⟨parents, fun _ _ => rfl, h⟩
  | @tail u v hsu hchange ih =>
    obtain ⟨parents₁, hagree₁, hu⟩ := ih
    obtain ⟨parents₂, hagree₂, hv⟩ := hu.change hchange
    refine ⟨parents₂, fun id hid => ?_, hv⟩
    rw [hagree₂ id (hid.trans_le (Changes.size_le hsu)), hagree₁ id hid]

/-- One assignment of parents serves all moments of a run. -/
theorem linked {ms : List Moment} (h : Tree parents s) (hms : Linked ChangesTo s ms t) :
    ∃ parents', (∀ id < s.frames.size, parents' id = parents id) ∧
      ∀ m ∈ ms, Tree parents' m.store := by
  induction ms generalizing s parents with
  | nil => exact ⟨parents, fun _ _ => rfl, by simp⟩
  | cons m ms ih =>
    obtain ⟨hm, hrest⟩ := hms
    obtain ⟨parents₁, hagree₁, htree⟩ := h.changes hm.changes
    obtain ⟨parents₂, hagree₂, hall⟩ := ih htree hrest
    refine ⟨parents₂, fun id hid => ?_, fun m' hm' => ?_⟩
    · rw [hagree₂ id (hid.trans_le hm.changes.size_le), hagree₁ id hid]
    · obtain rfl | hm' := List.mem_cons.mp hm'
      · exact htree.congr hagree₂
      · exact hall m' hm'

theorem of_linked {ms : List Moment} (h : Tree parents s) (hms : ∃ t, Linked ChangesTo s ms t) :
    ∃ parents', ∀ m ∈ ms, Tree parents' m.store := by
  obtain ⟨t, hlinked⟩ := hms
  obtain ⟨parents', -, htree⟩ := h.linked hlinked
  exact ⟨parents', htree⟩

/-- A scope that is entered later has a frame that is on no chain yet. -/
theorem fresh {m : Moment} (h : Tree parents s) (hm : ChangesTo s m) (he : m.event = .entered) :
    ∃ id outer, m.store.stack = id :: outer ∧ ∀ c ∈ s.chains, id ∉ c := by
  obtain ⟨u, frame, base, hu, hstore⟩ := hm.entered he
  refine ⟨u.frames.size, base, by rw [hstore]; rfl, fun c hc hmem => ?_⟩
  exact absurd hu.size_le (Nat.not_le.mpr (h.bounded c hc _ hmem))

end Tree

/-- The store of a new session has the global frame as its only chain. -/
theorem tree_initial (journal : Journal) :
    Tree (fun _ => []) ((initial journal).push []) := by
  have hcaptures : ((initial journal).push []).captures = [] := by
    simp [captures, initial, push, Procedure.ofPrimitive, Code.captures]
  have hchains : ((initial journal).push []).chains = [[0]] := by
    rw [chains, hcaptures]
    rfl
  constructor
  · intro c hc
    rw [hchains, List.mem_singleton] at hc
    subst hc
    exact ⟨rfl, trivial⟩
  · intro c hc id hid
    rw [hchains, List.mem_singleton] at hc
    subst hc
    rw [List.mem_singleton.mp hid]
    exact Nat.zero_lt_one

end Store

theorem linked_changesTo {s t : Store} {ms : List Moment} (h : Linked ChangesTo s ms t) :
    ∀ m ∈ ms, ChangesTo s m := by
  induction ms generalizing s with
  | nil => simp
  | cons m ms ih =>
    intro m' hm'
    obtain rfl | hm' := List.mem_cons.mp hm'
    · exact h.1
    · exact (ih h.2 m' hm').trans h.1.changes

/-- All moments after a moment come from it by changes. -/
theorem linked_pairwise {s t : Store} {ms : List Moment} (h : Linked ChangesTo s ms t) :
    ms.Pairwise fun earlier later => ChangesTo earlier.store later := by
  induction ms generalizing s with
  | nil => exact .nil
  | cons m ms ih => exact .cons (linked_changesTo h.2) (ih h.2)

/-- What a tree at the beginning means for a whole run. -/
theorem Store.Tree.moments {parents : FrameId → Stack} {s : Store} {ms : List Moment}
    (h : s.Tree parents) (hms : ∃ t, Linked ChangesTo s ms t) :
    (∃ parents : FrameId → Stack, ∀ m ∈ ms, ∀ c ∈ m.store.chains, c.Nodup ∧
      ∀ inner id outer, c = inner ++ id :: outer → outer = parents id) ∧
    ms.Pairwise fun earlier later => later.event = .entered →
      ∃ id outer, later.store.stack = id :: outer ∧ ∀ c ∈ earlier.store.chains, id ∉ c := by
  obtain ⟨t, hlinked⟩ := hms
  obtain ⟨parents', -, htree⟩ := h.linked hlinked
  constructor
  · refine ⟨parents', fun m hm c hc => ?_⟩
    have hrooted := (htree m hm).rooted c hc
    exact ⟨hrooted.nodup, fun _ _ _ heq => hrooted.eq_parents heq⟩
  · refine (linked_pairwise hlinked).imp_of_mem fun {earlier later} hearlier _ hlater he => ?_
    exact (htree earlier hearlier).fresh hlater he

/-- Throughout a session each frame has one chain of parents: in every chain in play, at every
moment, the frame occurs once and has its parents outside it. Each closure runs in a frame that is
on no earlier chain. The moments are those of the steps as they run. -/
theorem scope_chains_form_tree (host : Host) (prelude : Bool) (journal : Journal)
    (steps : List (Host × Session.Step)) :
    ((∃ parents : FrameId → Stack, ∀ m ∈ Session.history host prelude journal steps,
      ∀ c ∈ m.store.chains, c.Nodup ∧
        ∀ inner id outer, c = inner ++ id :: outer → outer = parents id) ∧
    (Session.history host prelude journal steps).Pairwise fun earlier later =>
      later.event = .entered → ∃ id outer, later.store.stack = id :: outer ∧
        ∀ c ∈ earlier.store.chains, id ∉ c) ∧
    ∀ (host : Host) (step : Session.Step) (s : Store),
      (step.traced host s).2 = step.run host s := by
  constructor
  · exact (Store.tree_initial journal).moments
      (Session.history_linked host prelude journal steps)
  · intro host step s
    exact step.traced_snd host s

end RationalLisp
