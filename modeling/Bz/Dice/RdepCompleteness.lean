import Bz.Dice.HistoryOrder

/-!
# Completeness of reverse dependencies, with several versions in flight

`should_add_rdep_at` looks at the last verified range of a dep, while the valid versions of the
dependent are the intersection of all ranges of its deps.  The two agree as long as no report
names a dep that was dirtied and verified again after the version of the report.

Principal results: `rdep_completeness`, for every run that meets this condition, and
`restored_dep_not_recorded`, a run that does not.
-/

namespace Bz.Dice

open Machine VersionedGraph List Option

variable {K V : Type}

namespace VersionedGraph

/-! ## What a change leaves behind -/

variable {popped : K → Prop} {v : Nat} {x : Option (VersionedGraphNode K V)}
  {kind : InvalidateKind V} {changed : Bool} {g g' : VersionedGraph K V} {k l : K}
  {p : InvalidationSourcePriority} {y : Option (VersionedGraphNode K V)} {o : OccupiedGraphNode K V}

theorem Popped.rdeps_subset (h : Popped v popped x y) :
    ∀ r ∈ (y.map rdepsOf).getD [], r ∈ (x.map rdepsOf).getD [] := by
  intro r hr
  cases h with
  | absent | invalid h => exact hr
  | cut h he hrd =>
    simp only [map_some, getD_some, rdepsOf, he, LazyDepsSet.new] at hr
    cases hr

theorem Popped.lt (h : Popped v popped x (some (.occupied o))) : ∀ u ∈ o.verifiedRanges, u < v := by
  cases h with
  | invalid h => exact h
  | cut h he hr => exact fun u hu => ((h.ranges u).mp hu).2

theorem Touch.rdeps_subset [DiceValue V] {n' : VersionedGraphNode K V} {d : Option (List K)}
    (h : Touch v kind x n' d) : ∀ r ∈ rdepsOf n', d = none ∧ r ∈ (x.map rdepsOf).getD [] := by
  intro r hr
  cases h with
  | freshVacant p | freshInjected x | freshOccupied x | pushOccupied | pushVacant => cases hr
  | dirty hl hcut hh hrd | inject h hrd => rw [rdepsOf, hrd] at hr; cases hr
  | redirty hl hcut hrd => rw [rdepsOf, hrd] at hr; exact ⟨rfl, hr⟩
  | dirtyVacant hl hh | redirtyVacant hl => cases hr
  | sameOccupied hy he | sameInjected h => exact ⟨rfl, hr⟩

variable [DecidableEq K] [DiceValue V]

/-- `invalidate` adds no reverse dependency, and leaves none at a key that changed. -/
theorem invalidate_rdeps (h : g.invalidate k v kind p = some (g', changed)) {r : K}
    (hr : r ∈ rdepsAt g' l) : r ∈ rdepsAt g l ∧ (l = k → changed = false) := by
  obtain ⟨n', d, htouch, hch, popped, -, -, hstay, hpop, -⟩ := invalidate_spec h
  have hset : r ∈ rdepsAt (g.setNode k n') l := by
    unfold rdepsAt at hr ⊢
    by_cases hl : popped l
    · exact (hpop l hl).rdeps_subset r hr
    · rwa [hstay l hl] at hr
  unfold rdepsAt at hset
  rw [node_setNode] at hset
  split at hset
  · next hl =>
    subst hl
    obtain ⟨rfl, hmem⟩ := htouch.rdeps_subset r hset
    exact ⟨hmem, fun _ => hch⟩
  · next hl => exact ⟨hset, fun he => absurd he hl⟩

/-- A node that is verified at `v` is open. -/
def VerifiedOpen (v : Nat) (g : VersionedGraph K V) : Prop :=
  ∀ k o, g.node k = some (.occupied o) → v ∈ o.verifiedRanges → o.verifiedRanges.Unbounded

/-- After `invalidate` at `v`, what is verified at `v` is still open. -/
theorem invalidate_verifiedOpen (hg : VerifiedOpen v g)
    (h : g.invalidate k v kind p = some (g', changed)) : VerifiedOpen v g' := by
  obtain ⟨n', d, htouch, -, popped, -, -, hstay, hpop, -⟩ := invalidate_spec h
  intro l o hl hv
  by_cases hp : popped l
  · have hpl := hpop l hp
    rw [hl] at hpl
    exact absurd (hpl.lt v hv) (lt_irrefl v)
  · rw [hstay l hp, node_setNode] at hl
    split at hl
    · next hlk =>
      subst hlk
      cases hl
      cases hx : g.node l with
      | none =>
        rw [hx] at htouch
        cases htouch with
        | freshOccupied x => exact unbounded_beginsWith v
      | some n =>
        rw [hx] at htouch
        cases htouch with
        | dirty hlast hcut hh hr => exact absurd ((hcut.ranges v).mp hv).2 (lt_irrefl v)
        | redirty hlast hcut hr => exact absurd ((hcut.ranges v).mp hv).2 (lt_irrefl v)
        | sameOccupied hy he => exact hg l o hx hv
        | pushOccupied | pushVacant => exact unbounded_beginsWith v
    · exact hg l o hl hv

/-- The node of `k` is occupied and not verified at `w`. -/
def Unverified (g : VersionedGraph K V) (w : Nat) (k : K) : Prop :=
  ∃ o, g.node k = some (.occupied o) ∧ ¬ w ∈ o.verifiedRanges

/-- `invalidate` at `v` verifies nothing, a value pushed at `w` itself apart. -/
theorem invalidate_unverified {w : Nat} (hg : g.Unverified w l) (hkind : kind = .forceDirty ∨ w < v)
    (h : g.invalidate k v kind p = some (g', changed)) : g'.Unverified w l := by
  obtain ⟨n', d, htouch, -, popped, -, -, hstay, hpop, -⟩ := invalidate_spec h
  obtain ⟨o, ho, hw⟩ := hg
  have hset : (g.setNode k n').Unverified w l := by
    by_cases hlk : l = k
    · subst hlk
      rw [ho] at htouch
      cases htouch with
      | dirty hlast hcut hh hr | redirty hlast hcut hr =>
        exact ⟨_, node_setNode_self _ _ _, fun hm => hw ((hcut.ranges w).mp hm).1⟩
      | sameOccupied hy he => exact ⟨o, node_setNode_self _ _ _, hw⟩
      | pushOccupied =>
        refine ⟨_, node_setNode_self _ _ _, fun hm => ?_⟩
        simp only [OccupiedGraphNode.new, VersionRanges.mem_ofRange,
          VersionRange.mem_beginsWith] at hm
        rcases hkind with hk | hk
        · cases hk
        · omega
    · exact ⟨o, by rw [node_setNode_ne _ _ hlk, ho], hw⟩
  obtain ⟨o1, ho1, hw1⟩ := hset
  by_cases hp : popped l
  · have hpl := hpop l hp
    rw [ho1] at hpl
    generalize hnode : g'.node l = n at hpl
    cases hpl with
    | invalid h => exact ⟨o1, hnode, hw1⟩
    | cut h he hr => exact ⟨_, hnode, fun hm => hw1 ((h.ranges w).mp hm).1⟩
  · exact ⟨o1, by rw [hstay l hp, ho1], hw1⟩

/-- `k` transitively depends on `d`. -/
def DependsOn (g : VersionedGraph K V) : K → K → Prop :=
  Relation.TransGen fun k d => ∃ o, g.node k = some (.occupied o) ∧ d ∈ o.deps.iterKeys

omit [DiceValue V] in
/-- With complete reverse dependencies, nothing that depends on a key without any is open. -/
theorem not_open_of_dependsOn {d : K} (hrd : RdepComplete g) (hd : ∀ r, r ∉ rdepsAt g d)
    (h : DependsOn g k d) : ∃ o, g.node k = some (.occupied o) ∧ ¬ o.verifiedRanges.Unbounded := by
  induction h using Relation.TransGen.head_induction_on with
  | single h =>
    obtain ⟨o, ho, hmem⟩ := h
    refine ⟨o, ho, fun hopen => ?_⟩
    obtain ⟨n, hn, -, hk⟩ := hrd _ o ho hopen d hmem
    exact hd _ ((mem_rdepsAt hn).mpr hk)
  | head h _ ih =>
    obtain ⟨o, ho, hmem⟩ := h
    refine ⟨o, ho, fun hopen => ?_⟩
    obtain ⟨m, hm, hclosed⟩ := ih
    obtain ⟨n, hn, hnopen, -⟩ := hrd _ o ho hopen _ hmem
    rw [hm] at hn
    cases hn
    exact hclosed hnopen

end VersionedGraph

variable [DecidableEq K] [DiceValue V]

namespace CoreState

/-! ## Runs -/

/-- A request other than `rewind`; its deps, no fewer than it was checked against, were not verified
again after its version. -/
def RecordsDeps (s : CoreState K V) (r : StateRequest K V) : Prop :=
  r.isRewind = false ∧
    ∀ rep ∈ r.report, s.graph.NoLaterOpenRange rep.version rep.deps.iterKeys ∧
      VersionedGraph.ChecksStoredDeps rep.deps.iterKeys rep.reusable (s.graph.node rep.key)

instance (s : CoreState K V) (r : StateRequest K V) : Decidable (s.RecordsDeps r) :=
  inferInstanceAs (Decidable (_ ∧ _))

variable {b : Bool} {changes : List (Update K V)} {g : VersionedGraph K V} {s s' : CoreState K V}
  {k : K} {w : Nat} {r : StateRequest K V} {d : K}

theorem applyUpdates_rdepComplete {v : Nat} {g' : VersionedGraph K V} {b' : Bool}
    (hrd : g.RdepComplete) (hlast : ∀ k ∈ changes.map Prod.fst, (VersionedGraph.historyOf
      (g.node k)).versions.getLast? ≠ some v)
    (hnd : (changes.map Prod.fst).Nodup) (h : applyUpdates v g b changes = some (g', b')) :
    g'.RdepComplete := by
  induction changes generalizing g b with
  | nil => cases h; exact hrd
  | cons change changes ih =>
    obtain ⟨k, change, p⟩ := change
    obtain ⟨⟨g1, changed⟩, hinv, h⟩ := bind_eq_some_iff.mp h
    obtain ⟨hk, hnd'⟩ := nodup_cons.mp hnd
    refine ih ?_ (fun l hl => ?_) hnd' h
    · exact invalidate_rdepComplete hrd (fun _ => hlast k mem_cons_self) hinv
    · rcases invalidate_history hinv l with he | ⟨rfl, -, -⟩
      · rw [he]; exact hlast l (mem_cons_of_mem _ hl)
      · exact absurd hl hk

/-- The invariant: the core state is in order and its reverse dependencies are complete. -/
def RdepsOk (s : CoreState K V) : Prop := CoreOk s ∧ s.graph.RdepComplete

theorem applyUpdates_next_rdepComplete (hok : RdepsOk s) (hnd : (changes.map Prod.fst).Nodup)
    (h : applyUpdates (s.currentVersion + 1) s.graph false changes = some (g, b)) :
    g.RdepComplete := by
  refine applyUpdates_rdepComplete hok.2 (fun k _ => ?_) hnd h
  exact last_ne_of_lt (historyOf_le fun n hn => hok.1.graph k n hn) (Nat.lt_succ_self _)

omit [DiceValue V] in
theorem SameButValues.rdepComplete {g' : VersionedGraph K V} (h : SameButValues g g')
    (hrd : g.RdepComplete) : g'.RdepComplete := by
  refine fun k => h.transfer (P := fun x => ∀ o, x = some (.occupied o) →
    o.verifiedRanges.Unbounded → ∀ d ∈ o.deps.iterKeys, g'.Supports d k) ?_ fun o hk hu d hd => ?_
  · intro o res hsup _ ho
    cases ho
    exact hsup o rfl
  · exact h.transfer (P := fun x => ∃ n, x = some n ∧ Open n ∧ k ∈ rdepsOf n)
      (fun _ _ ⟨_, hn, hsup⟩ => by cases hn; exact ⟨_, rfl, hsup⟩) (hrd k o hk hu d hd)

theorem iteration_rdepsOk (hok : RdepsOk s) (hadm : r.Admissible s) (hrec : s.RecordsDeps r)
    (h : s.iteration r = some s') : RdepsOk s' := by
  refine ⟨iteration_coreOk hok.1 hadm h, ?_⟩
  cases iteration_effect h with
  | advance happ | keep happ => exact applyUpdates_next_rdepComplete hok hadm happ
  | tracker hcur _ hact => exact hok.2
  | update hr hact hup =>
    obtain ⟨h1, h2⟩ := hrec.2 _ hr
    exact update_rdepComplete hok.1.graph hok.2 h1 h2 hup
  | rewind hcache hkeys => cases hrec.1
  | pageOut hg | rehydrate hg => exact hg.rdepComplete hok.2
  | dropEverything => exact fun k o ho => nomatch ho

/-- `update_state` records a change of `d`. -/
def Changes (s : CoreState K V) (changes : List (Update K V)) (d : K) : Prop :=
  ∃ before change p rest g b g', changes = before ++ (d, change, p) :: rest ∧
    applyUpdates (s.currentVersion + 1) s.graph false before = some (g, b) ∧
    g.invalidate d (s.currentVersion + 1) (ChangeType.kind change) p = some (g', true)

theorem applyUpdates_append {v : Nat} {l1 l2 : List (Update K V)} : applyUpdates v g b (l1 ++ l2) =
      (applyUpdates v g b l1).bind fun r => applyUpdates v r.1 r.2 l2 := by
  induction l1 generalizing g b with
  | nil => rfl
  | cons change l1 ih =>
    obtain ⟨k, change, p⟩ := change
    simp only [cons_append, applyUpdates, bind_eq_bind]
    cases g.invalidate k v change.kind p with
    | none => rfl
    | some r => exact ih

theorem rdepsAt_of_changes (hch : s.Changes changes d)
    (h : applyUpdates (s.currentVersion + 1) s.graph false changes = some (g, b)) :
    b = true ∧ ∀ r, r ∉ VersionedGraph.rdepsAt g d := by
  obtain ⟨before, change, p, rest, g1, b1, g2, rfl, hbefore, hinv⟩ := hch
  rw [applyUpdates_append, hbefore] at h
  simp only [bind_some, applyUpdates, hinv, bind_eq_bind, Bool.or_true] at h
  refine ⟨applyUpdates_true h, ?_⟩
  refine applyUpdates_induction (P := fun g => ∀ r, r ∉ VersionedGraph.rdepsAt g d)
    (fun g g' k kind p changed _ hg hi r hr => ?_) h fun r hr => ?_
  · exact hg r (invalidate_rdeps hi hr).1
  · cases (invalidate_rdeps hinv hr).2 rfl

/-- The key is not verified at a version that was committed, or the graph was dropped since. -/
def Unverified (s : CoreState K V) (w : Nat) (k : K) : Prop :=
  w ≤ s.currentVersion ∧ (s.graph.Unverified w k ∨ s.versionTracker.shouldReject w = true)

theorem iteration_current_le (h : s.iteration r = some s') :
    s.currentVersion ≤ s'.currentVersion := by
  cases iteration_effect h with
  | advance | dropEverything => exact Nat.le_succ _
  | keep | update | pageOut | rehydrate => exact le_rfl
  | tracker hcur _ _ => exact hcur.ge
  | rewind => exact (setCache_current _ _ _).ge

/-- A version that was committed stays rejected. -/
theorem iteration_shouldReject (hw : w ≤ s.currentVersion)
    (hrej : s.versionTracker.shouldReject w = true) (h : s.iteration r = some s') :
    s'.versionTracker.shouldReject w = true := by
  cases iteration_effect h with
  | advance | keep | update | pageOut | rehydrate => exact hrej
  | tracker _ hinv _ => rwa [VersionTracker.shouldReject, hinv]
  | rewind => rwa [VersionTracker.shouldReject, setCache_invalidBefore]
  | dropEverything => exact decide_eq_true (Nat.lt_succ_of_le hw)

/-- Only a report verifies a key at a version that was committed. -/
theorem iteration_unverified (hs : s.Unverified w k) (hrep : ∀ rep ∈ r.report, rep.key ≠ k)
    (h : s.iteration r = some s') : s'.Unverified w k := by
  obtain ⟨hw, hun | hrej⟩ := hs
  · refine ⟨hw.trans (iteration_current_le h), ?_⟩
    cases iteration_effect h with
    | advance happ | keep happ =>
      refine .inl (applyUpdates_induction (P := fun g => g.Unverified w k)
        (fun g g' l kind p changed _ hg hi => ?_) happ hun)
      exact invalidate_unverified hg (.inr (Nat.lt_succ_of_le hw)) hi
    | tracker hcur _ hact => exact .inl hun
    | update hr hact hup =>
      obtain ⟨g1, valid, n', hadd, -, -, rfl⟩ := update_spec hup
      obtain ⟨o, ho, hranges⟩ := hun
      obtain ⟨o1, hn1, -, -, hsame, -⟩ := hadd.occupied_to ho
      exact .inl ⟨o1, by rw [node_setNode_ne _ _ (hrep _ hr).symm, hn1], hsame ▸ hranges⟩
    | rewind hcache hkeys =>
      refine .inl (rewindKeys_induction (P := fun g => g.Unverified w k)
        (fun g g' l changed _ hg _ hi => ?_) hkeys hun)
      exact invalidate_unverified hg (.inl rfl) hi
    | pageOut hg | rehydrate hg =>
      exact .inl (hg.transfer (P := fun x => ∃ o, x = some (.occupied o) ∧ ¬ w ∈ o.verifiedRanges)
        (fun _ _ ⟨_, ho, hnot⟩ => by cases ho; exact ⟨_, rfl, hnot⟩) hun)
    | dropEverything => exact .inr (decide_eq_true (Nat.lt_succ_of_le hw))
  · exact ⟨hw.trans (iteration_current_le h), .inr (iteration_shouldReject hw hrej h)⟩

/-- After a transaction that changes `d`, what depends on `d` is not verified at the new version. -/
theorem unverified_of_changes (hok : RdepsOk s) (hnd : (changes.map Prod.fst).Nodup)
    (hup : s.updateState changes = some (s', w)) (hch : s.Changes changes d)
    (hdep : s'.graph.DependsOn k d) : s'.Unverified w k := by
  obtain ⟨g, b, happ, hcase⟩ := updateState_cases hup
  obtain ⟨rfl, hnone⟩ := rdepsAt_of_changes hch happ
  obtain ⟨-, rfl, rfl⟩ := hcase.resolve_right fun hf => nomatch hf.1
  refine ⟨le_rfl, .inl ?_⟩
  have hrd := applyUpdates_next_rdepComplete hok hnd happ
  have hopen : VersionedGraph.VerifiedOpen (s.currentVersion + 1) g := by
    refine applyUpdates_induction (fun g g' l kind p changed _ hg hi => ?_) happ ?_
    · exact invalidate_verifiedOpen hg hi
    · intro l o hl hmem
      exact (hok.1.graph l _ hl).1.unbounded (Nat.lt_succ_self _) hmem
  obtain ⟨o, ho, hclosed⟩ := not_open_of_dependsOn hrd hnone hdep
  exact ⟨o, ho, fun hmem => hclosed (hopen k o ho hmem)⟩

/-- **Reverse dependencies are complete** in every run in which no report names a dep that was
verified again later.  So after a transaction that changes `d` at `w`, no key that transitively
depends on `d` is answered with a match at `w` until a result for it is reported. -/
theorem rdep_completeness {s : CoreState K V}
    (h : Reach iteration (fun s r => r.Admissible s ∧ s.RecordsDeps r) new s) :
    s.graph.RdepComplete ∧
      ∀ changes s' w d k, (changes.map Prod.fst).Nodup → s.updateState changes = some (s', w) →
        s.Changes changes d → s'.graph.DependsOn k d →
        ∀ s'', Reach iteration (fun s r => r.Admissible s ∧ ∀ rep ∈ r.report, rep.key ≠ k) s' s'' →
          ∀ c, s''.lookupKey k w ≠ .matched c := by
  have hok : RdepsOk s := by
    refine h.invariant (fun s r s' hinv hr hs => ?_) ⟨coreOk_new, fun k o ho => nomatch ho⟩
    exact iteration_rdepsOk hinv hr.1 hr.2 hs
  refine ⟨hok.2, fun changes s' w d k hnd hup hch hdep s'' hrun c => ?_⟩
  have hun := unverified_of_changes hok hnd hup hch hdep
  have hun'' : s''.Unverified w k := by
    refine hrun.invariant (I := fun s => s.Unverified w k) (fun s r s' hinv hr hs => ?_) hun
    exact iteration_unverified hinv hr.2 hs
  intro h
  unfold lookupKey at h
  split at h
  · cases h
  · next hrej =>
    obtain ⟨o, ho, hw⟩ := hun''.2.resolve_right hrej
    simp only [VersionedGraph.get, ho] at h
    exact hw (OccupiedGraphNode.atVersion_matched h).1

/-- Key `2` reads key `1`, which reads the injected key `0`; then key `0` changes. -/
theorem rdep_completeness_chain : ∃ s s' : CoreState Nat Nat,
    s.lookupKey 2 1 ≠ .compute ∧
      s.updateState [(0, .updateValue 1 .injected, .normal)] = some (s', 2) ∧
      ∀ c, s'.lookupKey 2 2 ≠ .matched c := by
  obtain ⟨s, s', hs, hlook, hup, hch, hdep⟩ : ∃ s s' : CoreState Nat Nat,
      run iteration (fun s r => r.Admissible s ∧ s.RecordsDeps r) new
        [.updateState [(0, .updateValue 0 .injected, .normal)], .ctxAtVersion 1,
          .updateComputed 1 1 0 .normal 0 (.one 0), .updateComputed 2 1 0 .normal 0 (.one 1)] =
            some s ∧ s.lookupKey 2 1 ≠ .compute ∧
        s.updateState [(0, .updateValue 1 .injected, .normal)] = some (s', 2) ∧
        s.Changes [(0, .updateValue 1 .injected, .normal)] 0 ∧ s'.graph.DependsOn 2 0 := by
    refine ⟨_, _, rfl, by decide, rfl, ⟨[], _, _, [], _, _, _, rfl, rfl, rfl⟩, ?_⟩
    exact .head (b := 1) ⟨_, rfl, by decide⟩ (.single ⟨_, rfl, by decide⟩)
  exact ⟨s, s', hlook, hup,
    (rdep_completeness (reach_of_run _ hs)).2 _ s' 2 0 2 (by decide) hup hch hdep s' .refl⟩

/-- Key `1` is verified at version 1, dirtied at version 2 and verified again from version 3 on.
When key `2` is then computed from it at version 1, key `1` does not record it, and a change of key
`0` at version 4 does not reach it. -/
theorem restored_dep_not_recorded : ∃ s s' : CoreState Nat Nat,
    Reach iteration (fun s r => r.Admissible s ∧ r.isRewind = false) new s ∧
      (∃ o n, s.graph.node 2 = some (.occupied o) ∧ o.verifiedRanges.Unbounded ∧
        1 ∈ o.deps.iterKeys ∧ s.graph.node 1 = some (.occupied n) ∧ 2 ∉ n.rdeps) ∧
      s.updateState [(0, .updateValue 1 .injected, .normal)] = some (s', 4) ∧
      s.Changes [(0, .updateValue 1 .injected, .normal)] 0 ∧ s'.graph.DependsOn 2 0 ∧
      ∃ c, s'.lookupKey 2 4 = .matched c := by
  refine ⟨_, _, reach_of_run
    [.updateState [(0, .updateValue 0 .injected, .normal)], .ctxAtVersion 1,
      .lookupKey 1 1, .updateComputed 1 1 0 .normal 0 (.one 0),
      .updateState [(0, .updateValue 1 .injected, .normal)],
      .updateState [(0, .updateValue 0 .injected, .normal)], .ctxAtVersion 3,
      .lookupKey 1 3, .updateComputed 1 3 1 .normal 0 (.one 0),
      .lookupKey 2 1, .lookupKey 1 1, .updateComputed 2 1 0 .normal 0 (.one 1)] rfl,
    ⟨_, _, rfl, by decide, by decide, rfl, by decide⟩, rfl,
    ⟨[], _, _, [], _, _, _, rfl, rfl, rfl⟩, ?_, ⟨_, rfl⟩⟩
  exact .head (b := 1) ⟨_, rfl, by decide⟩ (.single ⟨_, rfl, by decide⟩)

end CoreState

end Bz.Dice
