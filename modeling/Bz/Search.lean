import Mathlib.Algebra.BigOperators.Group.Finset.Basic

/-!
# Graph search

Breadth-first search with a queue and depth-first search in postorder, over a graph given by the
list of successors of each vertex, which may have cycles, and the search for a name that is not used
yet.  All count down a number of steps and give no result when it runs out.

Principal results: `bfs_exists` and `mem_bfs_iff`; `postorders_spec`; `firstUnused_exists`.
-/

namespace Bz.Search

open List

variable {α : Type} [DecidableEq α] {a : α} {seen left : List α}

/-- What can be reached from the roots. -/
inductive Reachable (roots : α → Prop) (next : α → List α) : α → Prop where
  | root {a : α} (h : roots a) : Reachable roots next a
  | step {a b : α} (h : Reachable roots next a) (hb : b ∈ next a) : Reachable roots next b

/-! ## Breadth-first search -/

/-- The queue, and the vertices visited so far, in the order in which they were visited. -/
def bfs (next : α → List α) : Nat → List α → List α → Option (List α)
  | 0, _, _ => none
  | _ + 1, [], seen => some seen
  | n + 1, a :: queue, seen =>
    if a ∈ seen then bfs next n queue seen else bfs next n (queue ++ next a) (seen ++ [a])

section Bfs

variable {next : α → List α} {n : Nat} {queue result : List α}

/-- What holds for the queue and is kept by the successors holds for what is visited. -/
theorem bfs_forall {p : α → Prop} (hnext : ∀ a, p a → ∀ b ∈ next a, p b)
    (h : bfs next n queue seen = some result) (hq : ∀ a ∈ queue, p a) (hs : ∀ a ∈ seen, p a) :
    ∀ a ∈ result, p a := by
  fun_induction bfs next n queue seen with
  | case1 => cases h
  | case2 n seen =>
    cases h
    exact hs
  | case3 n a queue seen ha ih => exact ih h (forall_mem_cons.mp hq).2 hs
  | case4 n a queue seen ha ih =>
    obtain ⟨ha, hq⟩ := forall_mem_cons.mp hq
    exact ih h (forall_mem_append.mpr ⟨hq, hnext a ha⟩)
      (forall_mem_append.mpr ⟨hs, forall_mem_singleton.mpr ha⟩)

theorem nodup_bfs (h : bfs next n queue seen = some result) (hs : seen.Nodup) : result.Nodup := by
  fun_induction bfs next n queue seen with
  | case1 => cases h
  | case2 n seen =>
    cases h
    exact hs
  | case3 n a queue seen ha ih => exact ih h hs
  | case4 n a queue seen ha ih =>
    have hnd := hs.concat ha
    rw [concat_eq_append] at hnd
    exact ih h hnd

/-- Everything in the queue is visited, and so are the successors of what is visited. -/
theorem bfs_closed (h : bfs next n queue seen = some result) :
    seen ⊆ result ∧ queue ⊆ result ∧ ∀ a ∈ result, a ∉ seen → next a ⊆ result := by
  fun_induction bfs next n queue seen with
  | case1 => cases h
  | case2 n seen =>
    cases h
    exact ⟨List.Subset.refl _, nil_subset _, fun a ha hn => absurd ha hn⟩
  | case3 n a queue seen ha ih =>
    obtain ⟨hs, hq, hc⟩ := ih h
    exact ⟨hs, cons_subset.mpr ⟨hs ha, hq⟩, hc⟩
  | case4 n a queue seen ha ih =>
    obtain ⟨hs, hq, hc⟩ := ih h
    have hself : a ∈ result := hs (by simp)
    refine ⟨fun b hb => hs (mem_append_left _ hb), cons_subset.mpr ⟨hself, ?_⟩, ?_⟩
    · exact fun b hb => hq (mem_append_left _ hb)
    · intro b hb hn
      by_cases hba : b = a
      · subst hba
        exact fun c hc => hq (mem_append_right _ hc)
      · refine hc b hb fun hmem => ?_
        rcases mem_append.mp hmem with hmem | hmem
        · exact hn hmem
        · exact hba (mem_singleton.mp hmem)

/-- **Breadth-first search visits what is reachable.** -/
theorem mem_bfs_iff (h : bfs next n queue [] = some result) (a : α) :
    a ∈ result ↔ Reachable (· ∈ queue) next a := by
  obtain ⟨-, hq, hc⟩ := bfs_closed h
  constructor
  · exact bfs_forall (fun a ha b hb => .step ha hb) h (fun a ha => .root ha)
      (fun a ha => absurd ha not_mem_nil) a
  · intro hr
    induction hr with
    | root ha => exact hq ha
    | step _ hb ih => exact hc _ ih not_mem_nil hb

/-- A vertex that is visited for the first time leaves the sum over the others. -/
theorem sum_sdiff_concat {U : Finset α} (hU : a ∈ U) (ha : a ∉ seen) (f : α → Nat) :
    ∑ b ∈ U \ (seen ++ [a]).toFinset, f b + f a = ∑ b ∈ U \ seen.toFinset, f b := by
  have hset : U \ (seen ++ [a]).toFinset = (U \ seen.toFinset).erase a := by
    ext b
    simp only [toFinset_append, Finset.mem_sdiff, Finset.mem_union, mem_toFinset,
      mem_singleton, Finset.mem_erase]
    tauto
  rw [hset]
  exact Finset.sum_erase_add _ _ (by simp [hU, ha])

/-- **Enough steps.**  Within a finite set that the successors do not leave, every vertex is entered
into the queue once for each edge to it. -/
theorem bfs_exists (U : Finset α) (hnext : ∀ a ∈ U, ∀ b ∈ next a, b ∈ U) (hq : ∀ a ∈ queue, a ∈ U)
    (hn : queue.length + ∑ a ∈ U \ seen.toFinset, (next a).length < n) :
    ∃ result, bfs next n queue seen = some result := by
  fun_induction bfs next n queue seen with
  | case1 => omega
  | case2 n seen => exact ⟨seen, rfl⟩
  | case3 n a queue seen ha ih =>
    rw [length_cons] at hn
    exact ih (forall_mem_cons.mp hq).2 (by omega)
  | case4 n a queue seen hnew ih =>
    obtain ⟨ha, hq⟩ := forall_mem_cons.mp hq
    have hsum := sum_sdiff_concat ha hnew fun b => (next b).length
    rw [length_cons] at hn
    exact ih (forall_mem_append.mpr ⟨hq, hnext a ha⟩) (by rw [length_append]; omega)

end Bfs

/-! ## Depth-first search -/

/-- The vertices entered and, in postorder, those left so far, after a visit of `a`. -/
def postorder (allowed : α → Bool) (next : α → List α) :
    Nat → α → List α × List α → Option (List α × List α)
  | 0, _, _ => none
  | n + 1, a, (seen, left) =>
    if allowed a = false ∨ a ∈ seen then some (seen, left)
    else do
      let (seen, left) ← (next a).foldlM (fun st b => postorder allowed next n b st) (a :: seen,
        left)
      some (seen, left ++ [a])

/-- Visits one after another. -/
def postorders (allowed : α → Bool) (next : α → List α) (n : Nat) (roots : List α)
    (st : List α × List α) : Option (List α × List α) :=
  roots.foldlM (fun st a => postorder allowed next n a st) st

/-- What visits do: they enter and leave the same new vertices, each once. -/
structure Visits (allowed : α → Bool) (st st' : List α × List α) : Prop where
  left : ∃ new, st'.2 = st.2 ++ new ∧ new.Nodup ∧ (∀ a ∈ new, a ∉ st.1 ∧ allowed a = true) ∧
    ∀ a, a ∈ st'.1 ↔ a ∈ st.1 ∨ a ∈ new

section Postorder

variable {allowed : α → Bool} {next : α → List α} {st st' st'' : List α × List α}

section Visits

omit [DecidableEq α]

theorem Visits.refl (st : List α × List α) : Visits allowed st st :=
  ⟨[], by simp, nodup_nil, by simp, by simp⟩

theorem Visits.mono (h : Visits allowed st st') (ha : a ∈ st.1) : a ∈ st'.1 := by
  obtain ⟨new, -, -, -, hmem⟩ := h.left
  exact (hmem a).mpr (.inl ha)

theorem Visits.trans (h : Visits allowed st st') (h' : Visits allowed st' st'') :
    Visits allowed st st'' := by
  obtain ⟨new, hleft, hnd, hnew, hmem⟩ := h.left
  obtain ⟨new', hleft', hnd', hnew', hmem'⟩ := h'.left
  refine ⟨new ++ new', by rw [hleft', hleft, append_assoc], ?_, fun a ha => ?_, fun a => ?_⟩
  · refine nodup_append.mpr ⟨hnd, hnd', ?_⟩
    rintro a ha b hb rfl
    exact (hnew' a hb).1 ((hmem a).mpr (.inr ha))
  · rcases mem_append.mp ha with ha | ha
    · exact hnew a ha
    · exact ⟨fun hs => (hnew' a ha).1 (h.mono hs), (hnew' a ha).2⟩
  · rw [hmem', hmem, mem_append, or_assoc]

theorem Visits.enter (hallowed : allowed a) (ha : a ∉ seen)
    (h : Visits allowed (a :: seen, left) st') :
    Visits allowed (seen, left) (st'.1, st'.2 ++ [a]) := by
  obtain ⟨new, hleft, hnd, hnew, hmem⟩ := h.left
  refine ⟨new ++ [a], by rw [hleft, append_assoc], ?_, fun b hb => ?_, fun b => ?_⟩
  · rw [← concat_eq_append]
    exact hnd.concat fun ha => (hnew a ha).1 mem_cons_self
  · rcases mem_append.mp hb with hb | hb
    · exact ⟨fun hs => (hnew b hb).1 (mem_cons_of_mem _ hs), (hnew b hb).2⟩
    · rw [mem_singleton.mp hb]
      exact ⟨ha, hallowed⟩
  · rw [hmem, mem_cons, mem_append, mem_singleton]
    tauto

/-- A path through allowed vertices. -/
def Reaches (allowed : α → Bool) (next : α → List α) : α → α → Prop :=
  Relation.ReflTransGen fun a b => b ∈ next a ∧ allowed b = true

/-- The allowed successors of a vertex are left before it, unless it can be reached from them. -/
def Ordered (allowed : α → Bool) (next : α → List α) (left : List α) : Prop :=
  ∀ before a after, left = before ++ a :: after → ∀ b ∈ next a, allowed b = true →
    b ∈ before ∨ Reaches allowed next b a

theorem Ordered.concat (h : Ordered allowed next left)
    (ha : ∀ b ∈ next a, allowed b → b ∈ left ∨ Reaches allowed next b a) :
    Ordered allowed next (left ++ [a]) := by
  intro before c after heq
  rcases eq_nil_or_concat after with rfl | ⟨after, d, rfl⟩
  · obtain ⟨rfl, hac⟩ := append_inj' heq rfl
    cases hac
    exact ha
  · rw [concat_eq_append, ← cons_append, ← append_assoc] at heq
    exact h before c after (append_inj' heq rfl).1

/-- The roots can be reached from what is entered and not left. -/
def OpenReach (allowed : α → Bool) (next : α → List α) (roots : List α) (st : List α × List α) :
    Prop :=
  ∀ o ∈ st.1, o ∉ st.2 → ∀ a ∈ roots, allowed a = true → Reaches allowed next o a

theorem OpenReach.visits {roots : List α} (h : OpenReach allowed next roots st)
    (hv : Visits allowed st st') : OpenReach allowed next roots st' := by
  obtain ⟨new, hleft, -, -, hmem⟩ := hv.left
  intro o ho hopen
  rw [hleft, mem_append, not_or] at hopen
  exact h o (((hmem o).mp ho).resolve_right hopen.2) hopen.1

theorem OpenReach.enter (h : OpenReach allowed next [a] (seen, left)) :
    OpenReach allowed next [a] (a :: seen, left) := by
  intro o ho hopen b hb hallowed
  rcases mem_cons.mp ho with rfl | ho
  · rw [mem_singleton.mp hb]
    exact .refl
  · exact h o ho hopen b hb hallowed

end Visits

/-- **Depth-first search.**  With one step more than there are allowed vertices that were not
entered yet, visits succeed, every allowed root is entered, and the order is kept. -/
theorem postorders_spec (A : Finset α) (hA : ∀ a, allowed a → a ∈ A) {n : Nat}
    (roots : List α) (st : List α × List α) (hn : (A \ st.1.toFinset).card < n) :
    ∃ st', postorders allowed next n roots st = some st' ∧ Visits allowed st st' ∧
      (∀ a ∈ roots, allowed a → a ∈ st'.1) ∧
      (OpenReach allowed next roots st → Ordered allowed next st.2 →
        Ordered allowed next st'.2) := by
  induction n generalizing roots st with
  | zero => omega
  | succ n ih =>
    -- one visit
    have hvisit : ∀ (a : α) (st : List α × List α), (A \ st.1.toFinset).card < n + 1 →
        ∃ st', postorder allowed next (n + 1) a st = some st' ∧ Visits allowed st st' ∧
          (allowed a → a ∈ st'.1) ∧ (OpenReach allowed next [a] st →
            Ordered allowed next st.2 → Ordered allowed next st'.2) := by
      rintro a ⟨seen, left⟩ hcard
      dsimp only at hcard
      rw [postorder]
      split
      · next hskip =>
        refine ⟨_, rfl, .refl _, fun hallowed => hskip.resolve_left ?_, fun _ h => h⟩
        simp [hallowed]
      · next hgo =>
        obtain ⟨hallowed, hnew⟩ := not_or.mp hgo
        rw [Bool.not_eq_false] at hallowed
        have hless : (A \ (a :: seen).toFinset).card < (A \ seen.toFinset).card := by
          refine Finset.card_lt_card (Finset.ssubset_iff_subset_ne.mpr ⟨?_, fun heq => ?_⟩)
          · intro b hb
            simp only [toFinset_cons, Finset.mem_sdiff, Finset.mem_insert] at hb
            exact Finset.mem_sdiff.mpr ⟨hb.1, fun h => hb.2 (.inr h)⟩
          · have hmem : a ∈ A \ seen.toFinset := by simp [hA a hallowed, hnew]
            rw [← heq] at hmem
            simp at hmem
        obtain ⟨st', hst', hvisits, hnext, hordered⟩ :=
          ih (next a) (a :: seen, left) (by dsimp only; omega)
        refine ⟨(st'.1, st'.2 ++ [a]), ?_, hvisits.enter hallowed hnew, fun _ => ?_,
          fun hopen hleft => (hordered (fun o ho ho' _ hb hb' =>
            (hopen.enter o ho ho' a mem_cons_self hallowed).tail ⟨hb, hb'⟩)
            hleft).concat fun b hb hb' => ?_⟩
        · exact Option.bind_eq_some_iff.mpr ⟨st', hst', rfl⟩
        · exact hvisits.mono mem_cons_self
        · -- a successor that is not left yet is on the way to the vertex
          by_cases hbleft : b ∈ st'.2
          · exact .inl hbleft
          · exact .inr (hopen.enter.visits hvisits b (hnext b hb hb') hbleft a mem_cons_self
              hallowed)
    induction roots generalizing st with
    | nil => exact ⟨st, rfl, .refl st, fun a ha => absurd ha not_mem_nil, fun _ h => h⟩
    | cons a roots ihr =>
      obtain ⟨st1, hst1, hv1, ha, hordered1⟩ := hvisit a st hn
      have hless : (A \ st1.1.toFinset).card ≤ (A \ st.1.toFinset).card := by
        refine Finset.card_le_card fun b hb => ?_
        rw [Finset.mem_sdiff, mem_toFinset] at hb ⊢
        exact ⟨hb.1, fun h => hb.2 (hv1.mono h)⟩
      obtain ⟨st2, hst2, hv2, hroots, hordered2⟩ := ihr st1 (by omega)
      refine ⟨st2, ?_, hv1.trans hv2, fun b hb hallowed => ?_, fun hopen hleft => ?_⟩
      · rw [postorders, foldlM_cons, hst1]
        exact hst2
      · rcases mem_cons.mp hb with rfl | hb
        · exact hv2.mono (ha hallowed)
        · exact hroots b hb hallowed
      · obtain ⟨hfirst, hrest⟩ : OpenReach allowed next [a] st ∧ OpenReach allowed next roots st :=
          ⟨fun o ho hnot => forall_mem_singleton.mpr (hopen o ho hnot a mem_cons_self),
            fun o ho hnot b hb => hopen o ho hnot b (mem_cons_of_mem _ hb)⟩
        exact hordered2 (hrest.visits hv1) (hordered1 hfirst hleft)

end Postorder

/-! ## The first free name -/

/-- The first of the candidates, from the given attempt on, that is not used. -/
def firstUnused (used : List α) (candidate : Nat → α) : Nat → Nat → Option α
  | 0, _ => none
  | n + 1, attempt =>
    if candidate attempt ∈ used then firstUnused used candidate n (attempt + 1)
    else some (candidate attempt)

section FirstUnused

variable {used : List α} {candidate : Nat → α} {n attempt : Nat}

theorem not_mem_of_firstUnused (h : firstUnused used candidate n attempt = some a) : a ∉ used := by
  fun_induction firstUnused used candidate n attempt with
  | case1 => cases h
  | case2 n attempt hused ih => exact ih h
  | case3 n attempt hnew =>
    cases h
    exact hnew

theorem mem_used_of_firstUnused_eq_none (h : firstUnused used candidate n attempt = none) {i : Nat}
    (hi : i < n) : candidate (attempt + i) ∈ used := by
  fun_induction firstUnused used candidate n attempt generalizing i with
  | case1 => omega
  | case2 n attempt hused ih =>
    cases i with
    | zero => exact hused
    | succ i =>
      rw [show attempt + (i + 1) = attempt + 1 + i by omega]
      exact ih h (by omega)
  | case3 => cases h

/-- **Enough attempts.**  Among more candidates than names are used there is a free one. -/
theorem firstUnused_exists (hinj : Function.Injective candidate) (hn : used.length < n) :
    ∃ a, firstUnused used candidate n attempt = some a := by
  refine Option.ne_none_iff_exists'.mp fun hnone => ?_
  have hsub : ((Finset.range n).image fun i => candidate (attempt + i)) ⊆ used.toFinset := by
    intro a ha
    obtain ⟨i, hi, rfl⟩ := Finset.mem_image.mp ha
    exact mem_toFinset.mpr (mem_used_of_firstUnused_eq_none hnone (Finset.mem_range.mp hi))
  have hcard := Finset.card_le_card hsub
  rw [Finset.card_image_of_injective _ fun i j hij => Nat.add_left_cancel (hinj hij),
    Finset.card_range] at hcard
  exact absurd (hcard.trans (toFinset_card_le used)) (by omega)

end FirstUnused

end Bz.Search
