import Bz.Dice.Processor

/-!
# The force-dirty history as a barrier

`ForceDirtyHistory` is scanned from its end, which is right for increasing versions only.
`update_state` dirties keys at a fresh version, but `rewind` does it at the version of whatever
transaction is still open.

Principal results: `mem_restrictedRange_iff`, the meaning of `restricted_range` for an increasing
history; `history_barrier`; `rewind_out_of_order`, a run in which a key is rewound at a version
older than its last force-dirtied one.
-/

namespace Bz.Dice

open Machine VersionedGraph ForceDirtyHistory OccupiedGraphNode List Option

namespace ForceDirtyHistory

/-- Exactly one of the versions `u` and `w` is before the force-dirtied version `d`. -/
def Separates (d u w : Nat) : Prop := (u < d ∧ d ≤ w) ∨ (w < d ∧ d ≤ u)

instance (d u w : Nat) : Decidable (Separates d u w) := inferInstanceAs (Decidable (_ ∨ _))

def Increasing (h : ForceDirtyHistory) : Prop := h.versions.Pairwise (· < ·)

instance (h : ForceDirtyHistory) : Decidable h.Increasing :=
  inferInstanceAs (Decidable (h.versions.Pairwise _))

variable {u v : Nat} {h : ForceDirtyHistory}

theorem boundsRev_spec {ds : List Nat} {endAt : Option Nat} (hds : ds.Pairwise (· > ·))
    (hend : ∀ e ∈ endAt, ∀ d ∈ ds, d < e) :
    ((boundsRev v endAt ds).1.getD 0 ≤ u ∧ ∀ e ∈ (boundsRev v endAt ds).2, u < e) ↔
      (∀ e ∈ endAt, u < e) ∧ ∀ d ∈ ds, ¬ Separates d u v := by
  induction ds generalizing endAt with
  | nil => simp [boundsRev]
  | cons d ds ih =>
    obtain ⟨hd, hds'⟩ := pairwise_cons.mp hds
    unfold boundsRev
    split
    · next hle =>
      simp only [getD_some, forall_mem_cons]
      constructor
      · rintro ⟨hu, he⟩
        refine ⟨he, ?_, fun d' hd' => ?_⟩
        · unfold Separates; omega
        · have := hd d' hd'
          unfold Separates; omega
      · rintro ⟨he, hsep, -⟩
        refine ⟨?_, he⟩
        unfold Separates at hsep; omega
    · next hle =>
      rw [ih hds' (by simpa using hd)]
      simp only [mem_some_iff, forall_eq', forall_mem_cons]
      constructor
      · rintro ⟨hu, hsep⟩
        refine ⟨fun e he => hu.trans (hend e he d mem_cons_self), ?_, hsep⟩
        unfold Separates; omega
      · rintro ⟨-, hsep, hrest⟩
        refine ⟨?_, hrest⟩
        unfold Separates at hsep; omega

/-- **`restricted_range`** of an increasing history: the versions that no force-dirtied version
separates from `v`. -/
theorem mem_restrictedRange_iff (hinc : h.Increasing) :
    u ∈ h.restrictedRange v ↔ ∀ d ∈ h.versions, ¬ Separates d u v := by
  have hrev : h.versions.reverse.Pairwise (· > ·) := pairwise_reverse.mpr hinc
  refine (boundsRev_spec (v := v) (u := u) hrev (by simp)).trans ?_
  simp

theorem increasing_append (hinc : h.Increasing) (hlast : ∀ d ∈ h.versions.getLast?, d < v) :
    (h.versions ++ [v]).Pairwise (· < ·) := by
  rw [pairwise_append]
  refine ⟨hinc, pairwise_singleton _ _, fun d hd e he => ?_⟩
  rw [mem_singleton.mp he]
  -- the last version bounds all of them
  cases hl : h.versions.getLast? with
  | none => rw [getLast?_eq_none_iff.mp hl] at hd; cases hd
  | some w =>
    obtain ⟨init, hinit⟩ := getLast?_eq_some_iff.mp hl
    have hw := hlast w (by rw [hl]; rfl)
    unfold Increasing at hinc
    rw [hinit] at hd hinc
    rcases mem_append.mp hd with hd | hd
    · have := (pairwise_append.mp hinc).2.2 d hd w (mem_singleton_self w)
      omega
    · rw [mem_singleton.mp hd]; exact hw

/-- The range around the last force-dirtied version begins there. -/
theorem begin_of_last {w : Nat} (hlast : h.versions.getLast? = some w)
    (hu : u ∈ h.restrictedRange w) : w ≤ u := by
  obtain ⟨init, hinit⟩ := getLast?_eq_some_iff.mp hlast
  have hbegin : (h.restrictedRange w).begin = w := by
    simp [restrictedRange, hinit, boundsRev]
  rw [← hbegin]
  exact hu.1

end ForceDirtyHistory

variable {K V : Type}

namespace VersionedGraph

/-! ## What the operations do to the histories -/

variable {v : Nat} {kind : InvalidateKind V} {g g' : VersionedGraph K V} {k : K}
  {x : Option (VersionedGraphNode K V)} {changed : Bool} {p : InvalidationSourcePriority}

theorem Popped.history {popped : K → Prop} {y : Option (VersionedGraphNode K V)}
    (h : Popped v popped x y) : historyOf y = historyOf x := by
  cases h with
  | absent | invalid h => rfl
  | cut h he hr => exact h.history

theorem Touch.history [DiceValue V] {n' : VersionedGraphNode K V} {d : Option (List K)}
    (h : Touch v kind x n' d) : historyOf (some n') = historyOf x ∨
      ((historyOf x).versions.getLast? ≠ some v ∧
        (historyOf (some n')).versions = (historyOf x).versions ++ [v]) := by
  cases h with
  | freshVacant p => exact .inr ⟨by simp [historyOf, ForceDirtyHistory.new], rfl⟩
  | freshInjected x | freshOccupied x | redirtyVacant hl => exact .inl rfl
  | dirty hl hcut hh hr | dirtyVacant hl hh => exact .inr ⟨hl, hh⟩
  | redirty hl hcut hr => exact .inl hcut.history
  | sameOccupied hy he | pushOccupied | pushVacant | sameInjected h | inject h hr => exact .inl rfl

variable [DecidableEq K] [DiceValue V]

theorem invalidate_history (h : g.invalidate k v kind p = some (g', changed)) (l : K) :
    historyOf (g'.node l) = historyOf (g.node l) ∨
      (l = k ∧ (historyOf (g.node l)).versions.getLast? ≠ some v ∧
        (historyOf (g'.node l)).versions = (historyOf (g.node l)).versions ++ [v]) := by
  obtain ⟨n', d, htouch, -, popped, -, -, hstay, hpop, -⟩ := invalidate_spec h
  have hset : historyOf (g'.node l) = historyOf ((g.setNode k n').node l) := by
    by_cases hl : popped l
    · exact (hpop l hl).history
    · rw [hstay l hl]
  rw [hset, node_setNode]
  split
  · next hl =>
    subst hl
    exact htouch.history.imp_right fun h => ⟨rfl, h⟩
  · exact .inl rfl

omit [DiceValue V] in
theorem RdepsAdded.history {g1 : VersionedGraph K V} {deps : List K} (h : RdepsAdded g k v deps g1)
    (l : K) : historyOf (g1.node l) = historyOf (g.node l) :=
  h.eq_of_erase fun n => by cases n <;> rfl

theorem update_history {x : V} {r : ValueReusable} {deps : SeriesParallelDeps K} {st : StorageType}
    {ret : DiceComputedValue V} (h : g.update k v x r deps st = some (g', ret)) (l : K) :
    historyOf (g'.node l) = historyOf (g.node l) := by
  obtain ⟨g1, valid, n', hadd, -, hcomp, rfl⟩ := update_spec h
  rw [← hadd.history l, node_setNode]
  split
  · next hl =>
    subst hl
    cases hn : g1.node l with
    | none =>
      rw [hn] at hcomp
      cases hcomp with
      | store hinj hlater hr => rfl
    | some n =>
      rw [hn] at hcomp
      cases hcomp with
      | reuse hr hy => exact (markUnchanged_fields _ _).2.2.2
      | skip hr hlater | store hinj hlater hr => rfl
  · rfl

/-- All histories increase, and those of the keys in `S` do not go beyond `v`. -/
def HistoriesUpTo (S : K → Prop) (v : Nat) (g : VersionedGraph K V) : Prop :=
  (∀ k, (historyOf (g.node k)).Increasing) ∧
    ∀ k, S k → ∀ d ∈ (historyOf (g.node k)).versions.getLast?, d ≤ v

theorem invalidate_historiesUpTo {S : K → Prop} (hk : S k) (hg : HistoriesUpTo S v g)
    (h : g.invalidate k v kind p = some (g', changed)) : HistoriesUpTo S v g' := by
  refine ⟨fun l => ?_, fun l hl d hd => ?_⟩
  · rcases invalidate_history h l with he | ⟨rfl, hne, he⟩
    · rw [he]; exact hg.1 l
    · unfold ForceDirtyHistory.Increasing
      rw [he]
      refine increasing_append (hg.1 l) fun d hd => ?_
      have hle := hg.2 l hk d hd
      have hdv : d ≠ v := fun hdv => hne (hdv ▸ hd)
      omega
  · rcases invalidate_history h l with he | ⟨rfl, -, he⟩
    · rw [he] at hd; exact hg.2 l hl d hd
    · rw [he, getLast?_append] at hd
      simp only [getLast?_singleton, some_or, mem_some_iff] at hd
      exact hd.ge

end VersionedGraph

variable [DecidableEq K] [DiceValue V]

namespace CoreState

/-! ## Runs -/

/-- No key of a rewind was force-dirtied after the rewound version. -/
def RewindsInOrder (s : CoreState K V) : StateRequest K V → Prop
  | .rewind keys v _ => ∀ k ∈ keys,
      ∀ d ∈ (historyOf (s.graph.node k)).versions.getLast?, d ≤ v
  | _ => True

instance (s : CoreState K V) (r : StateRequest K V) : Decidable (s.RewindsInOrder r) := by
  induction r using StateRequest.casesOn <;> dsimp only [RewindsInOrder] <;> infer_instance

variable {s s' : CoreState K V}

theorem iteration_increasing {r : StateRequest K V} (hok : CoreOk s)
    (hinc : ∀ k, (historyOf (s.graph.node k)).Increasing) (hord : s.RewindsInOrder r)
    (h : s.iteration r = some s') : ∀ k, (historyOf (s'.graph.node k)).Increasing := by
  -- at the next version every key may be dirtied
  have hnext : VersionedGraph.HistoriesUpTo (fun _ => True) (s.currentVersion + 1) s.graph :=
    ⟨hinc, fun k _ d hd => (historyOf_le (fun n hn => hok.graph k n hn) d
      (mem_of_getLast? hd)).trans (Nat.le_succ _)⟩
  cases iteration_effect h with
  | advance happ | keep happ =>
    exact (applyUpdates_induction (fun g g' k kind p changed _ hg hinv =>
      invalidate_historiesUpTo trivial hg hinv) happ hnext).1
  | tracker hcur _ hact => exact hinc
  | update hr hact hup =>
    intro k
    rw [update_history hup k]
    exact hinc k
  | rewind hcache hkeys =>
    exact (rewindKeys_induction (fun g g' k changed hk hg _ hinv =>
      invalidate_historiesUpTo hk hg hinv) hkeys
      (⟨hinc, fun k hk => hord k hk⟩ : VersionedGraph.HistoriesUpTo (· ∈ _) _ s.graph)).1
  | pageOut hg | rehydrate hg =>
    exact fun k => hg.transfer (P := fun x => (historyOf x).Increasing) (fun _ _ h => h) (hinc k)
  | dropEverything =>
    intro k
    rw [unstableDropEverything, node_new]
    exact List.Pairwise.nil

/-- The core state is in order, and so is every history. -/
def HistoriesOk (s : CoreState K V) : Prop :=
  CoreOk s ∧ ∀ k, (historyOf (s.graph.node k)).Increasing

/-- **The force-dirty history is a barrier** in every run that rewinds keys in order: each history
is strictly increasing, `restricted_range(v)` contains exactly the versions that it does not
separate from `v`, and what a result adds is not separated. -/
theorem history_barrier {s : CoreState K V}
    (h : Reach iteration (fun s r => r.Admissible s ∧ s.RewindsInOrder r) new s) (k : K) :
    (historyOf (s.graph.node k)).versions.Pairwise (· < ·) ∧
      (∀ u v, u ∈ (historyOf (s.graph.node k)).restrictedRange v ↔
        ∀ d ∈ (historyOf (s.graph.node k)).versions,
          ¬ ForceDirtyHistory.Separates d u v) ∧
      ∀ v valid u w,
        u ∈ addedRanges (historyOf (s.graph.node k)) v valid →
        w ∈ addedRanges (historyOf (s.graph.node k)) v valid →
        ∀ d ∈ (historyOf (s.graph.node k)).versions,
          ¬ ForceDirtyHistory.Separates d u w := by
  have hok : HistoriesOk s := h.invariant (fun _ _ _ hinv hr hs =>
    ⟨iteration_coreOk hinv.1 hr.1 hs, iteration_increasing hinv.1 hinv.2 hr.2 hs⟩)
      ⟨coreOk_new, fun k => by rw [new, node_new]; exact List.Pairwise.nil⟩
  have hinc := hok.2 k
  have hiff := fun u v => mem_restrictedRange_iff (u := u) (v := v) hinc
  refine ⟨hinc, hiff, fun v valid u w hu hw d hd => ?_⟩
  -- both versions lie in the restricted range of `v`
  have hmem : ∀ x, x ∈ addedRanges
      (historyOf (s.graph.node k)) v valid → ¬ ForceDirtyHistory.Separates d x v :=
        by
    intro x hx
    rcases mem_addedRanges.mp hx with ⟨-, hr⟩ | rfl
    · exact (hiff x v).mp hr d hd
    · unfold ForceDirtyHistory.Separates; omega
  have hu' := hmem u hu
  have hw' := hmem w hw
  unfold ForceDirtyHistory.Separates at hu' hw' ⊢
  omega

/-- Key `1` is computed at version 1, dirtied at version 2 and rewound at version 3. -/
theorem history_barrier_two : ∃ s : CoreState Nat Nat,
    (historyOf (s.graph.node 1)).versions = [2, 3] ∧
      ∀ u w, u ∈ addedRanges (historyOf (s.graph.node 1)) 2
          (.ofRange (.beginsWith 0)) →
        w ∈ addedRanges (historyOf (s.graph.node 1)) 2
          (.ofRange (.beginsWith 0)) → ¬ ForceDirtyHistory.Separates 3 u w := by
  obtain ⟨s, hs, hhist⟩ : ∃ s : CoreState Nat Nat,
      run iteration (fun s r => r.Admissible s ∧ s.RewindsInOrder r) new
        [.updateState [(0, .updateValue 7 .injected, .normal)], .ctxAtVersion 1,
          .updateComputed 1 1 0 .normal 7 (.one 0), .updateState [(1, .invalidate, .normal)],
          .updateState [(0, .updateValue 8 .injected, .normal)], .ctxAtVersion 3,
          .rewind [1] 3 1] = some s ∧
        (historyOf (s.graph.node 1)).versions = [2, 3] := by
    exact ⟨_, rfl, by decide⟩
  refine ⟨s, hhist, fun u w hu hw => ?_⟩
  exact (history_barrier (reach_of_run _ hs) 1).2.2 2 _ u w hu hw 3 (by simp [hhist])

/-- Key `1` was dirtied at version 2 and is then rewound at version 1, which is still open, so that
the range of a result at version 3 reaches back over version 2. -/
theorem rewind_out_of_order : ∃ s : CoreState Nat Nat,
    Reach iteration (fun s r => r.Admissible s) new s ∧
      (historyOf (s.graph.node 1)).versions = [2, 1] ∧
      (∃ u w, u ∈ (historyOf (s.graph.node 1)).restrictedRange 3 ∧
        w ∈ (historyOf (s.graph.node 1)).restrictedRange 3 ∧
        ForceDirtyHistory.Separates 2 u w) := by
  refine ⟨_, reach_of_run [.updateState [(0, .updateValue 7 .injected, .normal)], .ctxAtVersion 1,
      .updateComputed 1 1 0 .normal 7 (.one 0), .updateState [(1, .invalidate, .normal)],
      .rewind [1] 1 0] rfl, by decide, 1, 3, by decide, mem_restrictedRange_self _ _, by decide⟩

end CoreState

end Bz.Dice
