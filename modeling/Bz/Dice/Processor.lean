import Bz.Machine
import Bz.Dice.CoreState
import Bz.Dice.Graph.Invariant

/-!
# The processor

Model of `dice/src/impls/core/processor.rs`: the processor thread takes one request after the other
from its queue and applies it to the core state, so that every interleaving of the threads that
send requests is a sequence of `iteration`s.

Principal results: `iteration_effect`, which says once what a request can do, and `reach_coreOk`.
-/

namespace Bz.Dice

open Machine VersionedGraph VersionTracker List Option

variable {K V : Type} [DecidableEq K] [DiceValue V]

/-- `StateRequest`, without the channels of the answers. -/
inductive StateRequest (K V : Type) where
  | updateState (changes : List (Update K V))
  | ctxAtVersion (version : Nat)
  | dropCtxAtVersion (version : Nat)
  | lookupKey (key : K) (version : Nat)
  | rewind (keys : List K) (version : Nat) (epoch : VersionEpoch)
  | updateComputed (key : K) (version : Nat) (epoch : VersionEpoch) (storage : StorageType)
      (value : V) (deps : SeriesParallelDeps K)
  | updateMismatchAsUnchanged (key : K) (version : Nat) (epoch : VersionEpoch)
      (storage : StorageType) (previous : Mismatch K V)
  | unstableDropEverything
  | pageOut (storage : Option (K → V → Option (Option Nat)))
  | rehydrate (key : K) (value : V)
  | currentVersion
  | getTasksPendingCancellation
  | metrics
  | existingGraphKeys
  | currentGraphValues (keys : List K)
  | introspection
  | makeAvailableForAllocative

/-- What a worker reports with either of the two update requests. -/
structure Report (K V : Type) where
  key : K
  version : Nat
  epoch : VersionEpoch
  value : V
  reusable : ValueReusable
  deps : SeriesParallelDeps K

namespace StateRequest

def report : StateRequest K V → Option (Report K V)
  | .updateComputed k v epoch _ value deps => some ⟨k, v, epoch, value, .equalityBased, deps⟩
  | .updateMismatchAsUnchanged k v epoch _ previous =>
    some ⟨k, v, epoch, previous.entry, .versionBased previous.prevVerifiedVersion,
      previous.depsToValidate⟩
  | _ => none

def isRewind : StateRequest K V → Bool
  | .rewind _ _ _ => true
  | _ => false

/-- What the callers respect: the changes of a transaction are a hash map, and a transaction is
opened at a version that was committed. -/
def Admissible (s : CoreState K V) : StateRequest K V → Prop
  | .updateState changes => (changes.map Prod.fst).Nodup
  | .ctxAtVersion v => v ≤ s.currentVersion
  | _ => True

instance (s : CoreState K V) (r : StateRequest K V) : Decidable (r.Admissible s) := by
  unfold Admissible
  split <;> infer_instance

end StateRequest

namespace CoreState

/-- `StateProcessor::iteration`; the answers sent back are left out. -/
def iteration (s : CoreState K V) : StateRequest K V → Option (CoreState K V)
  | .updateState changes => (s.updateState changes).map Prod.fst
  | .ctxAtVersion v => some (s.ctxAtVersion v).1
  | .dropCtxAtVersion v => s.dropCtxAtVersion v
  | .rewind keys v epoch => s.rewind keys v epoch
  | .updateComputed k v epoch storage value deps =>
    (s.updateComputed k v epoch storage value .equalityBased deps).map Prod.fst
  | .updateMismatchAsUnchanged k v epoch storage previous =>
    (s.updateMismatchAsUnchanged k v epoch storage previous).map Prod.fst
  | .unstableDropEverything => some s.unstableDropEverything
  | .pageOut storage => some (s.pageOut storage)
  | .rehydrate k value => some (s.rehydrate k value)
  -- the others only read what is modelled
  | _ => some s

/-- The versions some transaction is open at. -/
def Active (s : CoreState K V) (v : Nat) : Prop :=
  (s.versionTracker.activeVersions.lookup v).isSome = true

/-- The graphs differ in the values of occupied nodes only. -/
def SameButValues (g g' : VersionedGraph K V) : Prop :=
  ∀ k, g'.node k = g.node k ∨ ∃ o res, g.node k = some (.occupied o) ∧
    g'.node k = some (.occupied { o with res := res })

/-- **What a request can do**: open or close transactions, advance the current version or not,
record a report, rewind keys, page values out and in, or drop the graph. -/
inductive Effect (s : CoreState K V) : StateRequest K V → CoreState K V → Prop where
  | advance {changes : List (Update K V)} {g : VersionedGraph K V}
      (h : applyUpdates (s.currentVersion + 1) s.graph false changes = some (g, true)) :
      Effect s (.updateState changes)
        ⟨{ s.versionTracker with current := s.currentVersion + 1 }, g⟩
  | keep {changes : List (Update K V)} {g : VersionedGraph K V}
      (h : applyUpdates (s.currentVersion + 1) s.graph false changes = some (g, false)) :
      Effect s (.updateState changes) ⟨s.versionTracker, g⟩
  | tracker {r : StateRequest K V} {t : VersionTracker K V}
      (hcur : t.current = s.currentVersion)
      (hinv : t.invalidBefore = s.versionTracker.invalidBefore)
      (hact : ∀ v, (t.activeVersions.lookup v).isSome = true → s.Active v ∨ r = .ctxAtVersion v) :
      Effect s r ⟨t, s.graph⟩
  | update {r : StateRequest K V} {rep : Report K V} {storage : StorageType}
      {g : VersionedGraph K V} {ret : DiceComputedValue V} (hr : r.report = some rep)
      (hact : s.versionTracker.isRelevant rep.version rep.epoch = true)
      (h : s.graph.update rep.key rep.version rep.value rep.reusable rep.deps storage =
        some (g, ret)) :
      Effect s r ⟨s.versionTracker, g⟩
  | rewind {keys : List K} {v : Nat} {epoch : VersionEpoch} {cache cache' : SharedCache K V}
      {g : VersionedGraph K V} (hcache : s.versionTracker.cacheIfRelevant v epoch = some cache)
      (h : rewindKeys v cache s.graph keys = some (cache', g)) :
      Effect s (.rewind keys v epoch) ⟨s.versionTracker.setCache v cache', g⟩
  | pageOut {storage : Option (K → V → Option (Option Nat))} {g : VersionedGraph K V}
      (h : SameButValues s.graph g) : Effect s (.pageOut storage) ⟨s.versionTracker, g⟩
  | rehydrate {k : K} {value : V} {g : VersionedGraph K V} (h : SameButValues s.graph g) :
      Effect s (.rehydrate k value) ⟨s.versionTracker, g⟩
  | dropEverything : Effect s .unstableDropEverything s.unstableDropEverything

theorem Effect.idle (s : CoreState K V) (r : StateRequest K V) : Effect s r s :=
  .tracker rfl rfl fun _ h => .inl h

variable {r : StateRequest K V} {s s' : CoreState K V} {v c : Nat} {changes : List (Update K V)}
  {g g' : VersionedGraph K V}
  {P : VersionedGraph K V → Prop} {b : Bool} {cache : SharedCache K V} {epoch : VersionEpoch}

theorem updateComputed_effect {rep : Report K V} (hr : r.report = some rep) {storage : StorageType}
    {res : CoreState K V × Except CancellationReason (DiceComputedValue V)}
    (h : s.updateComputed rep.key rep.version rep.epoch storage rep.value rep.reusable rep.deps =
      some res) : Effect s r res.1 := by
  rcases updateComputed_cases h with ⟨e, rfl⟩ | ⟨g, ret, hrel, hup, rfl⟩
  · exact .idle s r
  · exact .update hr hrel hup

theorem dropAtVersion_effect {t : VersionTracker K V}
    (h : s.versionTracker.dropAtVersion v = some t) : Effect s r ⟨t, s.graph⟩ := by
  obtain ⟨data, hdata, h⟩ := bind_eq_some_iff.mp h
  dsimp only at h
  split at h
  · cases h
    refine .tracker rfl rfl fun w hw => .inl ?_
    by_cases hwv : w = v
    · subst hwv; simp at hw
    · simpa only [Active, AList.lookup_erase_ne hwv] using hw
  · cases h
    refine .tracker rfl rfl fun w hw => .inl ?_
    by_cases hwv : w = v
    · subst hwv; rw [Active, hdata]; rfl
    · simpa only [Active, AList.lookup_insert_ne hwv] using hw

section Paging

omit [DiceValue V]

theorem sameButValues_setNode {k : K} {o : OccupiedGraphNode K V}
    (hk : g.node k = some (.occupied o)) (res : PagableNodeValue V) :
    SameButValues g (g.setNode k (.occupied { o with res := res })) := by
  intro l
  by_cases hl : l = k
  · subst hl
    exact .inr ⟨o, res, hk, node_setNode_self _ _ _⟩
  · exact .inl (node_setNode_ne _ _ hl)

theorem SameButValues.trans {g₁ : VersionedGraph K V} (h : SameButValues g g₁)
    (h' : SameButValues g₁ g') : SameButValues g g' := by
  intro k
  rcases h' k with he | ⟨o, res, ho, he⟩
  · rw [he]
    exact h k
  · rcases h k with he' | ⟨o', res', ho', he'⟩
    · exact .inr ⟨o, res, he' ▸ ho, he⟩
    · rw [he'] at ho
      cases ho
      exact .inr ⟨o', res, ho', he⟩

/-- What does not depend on the values carries over. -/
theorem SameButValues.transfer {P : Option (VersionedGraphNode K V) → Prop}
    (h : SameButValues g g')
    (hP : ∀ o res, P (some (.occupied o)) → P (some (.occupied { o with res := res }))) {k : K}
    (hk : P (g.node k)) : P (g'.node k) := by
  rcases h k with he | ⟨o, res, ho, he⟩
  · exact he ▸ hk
  · rw [he]
    exact hP o res (ho ▸ hk)

omit [DecidableEq K] in
theorem pageOutNode_eq {store : V → Option (Option Nat)} {n n' : OccupiedGraphNode K V}
    (h : pageOutNode store n = some n') : ∃ res, n' = { n with res := res } := by
  unfold pageOutNode at h
  split at h
  · cases h; exact ⟨_, rfl⟩
  · obtain ⟨_ | dataKey, -, rfl⟩ := map_eq_some_iff.mp h
    · exact ⟨n.res, rfl⟩
    · exact ⟨.pagedOut dataKey, rfl⟩
  · cases h; exact ⟨n.res, rfl⟩

theorem pageOutKeys_sameButValues (storage : K → V → Option (Option Nat)) (keys : List K) :
    SameButValues g (pageOutKeys storage g keys) := by
  induction keys generalizing g with
  | nil => exact fun _ => .inl rfl
  | cons k keys ih =>
    unfold pageOutKeys
    split
    · next o ho =>
      split
      · next o' ho' =>
        obtain ⟨res, rfl⟩ := pageOutNode_eq ho'
        exact (sameButValues_setNode ho res).trans ih
      · exact fun _ => .inl rfl
    · exact ih

end Paging

theorem iteration_effect (h : s.iteration r = some s') : Effect s r s' := by
  cases r with
  | updateState changes =>
    obtain ⟨⟨s1, v⟩, hup, rfl⟩ := map_eq_some_iff.mp h
    rcases updateState_cases hup with ⟨g, b, happ, ⟨rfl, rfl, -⟩ | ⟨rfl, rfl, -⟩⟩
    · exact .advance happ
    · exact .keep happ
  | ctxAtVersion v =>
    cases h
    refine .tracker ?_ ?_ fun w hw => ?_
    · unfold activate
      split <;> rfl
    · unfold activate
      split <;> rfl
    · by_cases hwv : w = v
      · exact .inr (by rw [hwv])
      · refine .inl ?_
        unfold activate at hw
        split at hw <;> simpa only [Active, AList.lookup_insert_ne hwv] using hw
  | dropCtxAtVersion v =>
    obtain ⟨t, ht, h⟩ := bind_eq_some_iff.mp h
    cases h
    exact dropAtVersion_effect ht
  | rewind keys v epoch =>
    simp only [iteration, CoreState.rewind] at h
    split at h
    · cases h; exact .idle _ _
    · next cache hcache =>
      obtain ⟨⟨cache', g⟩, hkeys, h⟩ := bind_eq_some_iff.mp h
      cases h
      exact .rewind hcache hkeys
  | updateComputed k v epoch storage value deps =>
    obtain ⟨res, hres, rfl⟩ := map_eq_some_iff.mp h
    exact updateComputed_effect rfl hres
  | updateMismatchAsUnchanged k v epoch storage previous =>
    obtain ⟨res, hres, rfl⟩ := map_eq_some_iff.mp h
    exact @updateComputed_effect _ _ _ _ _ s
      ⟨k, v, epoch, previous.entry, .versionBased previous.prevVerifiedVersion,
        previous.depsToValidate⟩ rfl storage res hres
  | unstableDropEverything => cases h; exact .dropEverything
  | pageOut storage =>
    cases h
    cases storage with
    | none => exact .idle _ _
    | some storage => exact .pageOut (pageOutKeys_sameButValues _ _)
  | rehydrate k value =>
    cases h
    unfold CoreState.rehydrate
    split
    · next o ho => exact .rehydrate (sameButValues_setNode ho _)
    · exact .idle _ _
  | _ => cases h; exact .idle _ _

/-! ## Nothing lies behind the current version -/

theorem applyUpdates_induction
    (hstep : ∀ g g' k kind p changed, k ∈ changes.map Prod.fst → P g → g.invalidate k v kind p =
      some (g', changed) → P g')
    {b' : Bool} (h : applyUpdates v g b changes = some (g', b')) (hg : P g) : P g' := by
  induction changes generalizing g b with
  | nil => cases h; exact hg
  | cons change changes ih =>
    obtain ⟨k, change, p⟩ := change
    obtain ⟨⟨g1, changed⟩, hinv, h⟩ := bind_eq_some_iff.mp h
    refine ih (fun g g' l kind p changed hl => ?_) h (hstep g g1 k _ p changed ?_ hg hinv)
    · exact hstep g g' l kind p changed (mem_cons_of_mem _ hl)
    · exact mem_cons_self

theorem rewindKeys_induction {keys : List K}
    (hstep : ∀ g g' k changed, k ∈ keys → P g → (∀ o, g.node k ≠ some (.injected o)) →
      g.invalidate k v .forceDirty .normal = some (g', changed) → P g')
    {cache' : SharedCache K V} (h : rewindKeys v cache g keys = some (cache', g')) (hg : P g) :
    P g' := by
  induction keys generalizing g cache with
  | nil => cases h; exact hg
  | cons k keys ih =>
    have htail := fun g g' l changed hl => hstep g g' l changed (mem_cons_of_mem _ hl)
    unfold rewindKeys at h
    split at h
    · exact ih htail h hg
    · next hinj =>
      obtain ⟨⟨g1, changed⟩, hinv, h⟩ := bind_eq_some_iff.mp h
      exact ih htail h (hstep g g1 k changed mem_cons_self hg (fun o ho => hinj o ho) hinv)

theorem applyUpdates_true (h : applyUpdates v g true changes = some (g', b)) : b := by
  induction changes generalizing g with
  | nil => cases h; rfl
  | cons change changes ih =>
    obtain ⟨⟨g1, changed⟩, -, h⟩ := bind_eq_some_iff.mp h
    exact ih h

theorem last_ne_of_lt {h : ForceDirtyHistory} (hle : ∀ d ∈ h.versions, d ≤ c) (hv : c < v) :
    h.versions.getLast? ≠ some v := by
  intro hl
  have := hle v (mem_of_getLast? hl)
  omega

/-- A change of a transaction that is not recorded leaves the nodes as they are. -/
theorem invalidate_false {k : K} {kind : InvalidateKind V} {p : InvalidationSourcePriority}
    (hok : VersionedGraph.GraphOk c g) (hv : c < v) (h : g.invalidate k v kind p = some (g',
      false)) : ∀ l, g'.node l = g.node l := by
  obtain ⟨n', d, htouch, hd, popped, -, hnone, hstay, -⟩ := invalidate_spec h
  have hd' : d = none := by simpa using hd.symm
  subst hd'
  intro l
  rw [hstay l (hnone rfl l), node_setNode]
  split
  · next hl =>
    subst hl
    cases hg : g.node l with
    | none => rw [hg] at htouch; cases htouch
    | some n =>
      have hhist := historyOf_le fun m hm => hok l m hm
      rw [hg] at htouch hhist
      rcases htouch.drains fun _ => last_ne_of_lt hhist hv with hd | ⟨-, rfl⟩
      · cases hd
      · rfl
  · rfl

theorem applyUpdates_false (hok : VersionedGraph.GraphOk c g) (hv : c < v)
    (h : applyUpdates v g false changes = some (g', false)) : ∀ l, g'.node l = g.node l := by
  induction changes generalizing g with
  | nil => cases h; exact fun _ => rfl
  | cons change changes ih =>
    obtain ⟨⟨g1, changed⟩, hinv, h⟩ := bind_eq_some_iff.mp h
    cases changed with
    | true => cases applyUpdates_true h
    | false =>
      have hsame := invalidate_false hok hv hinv
      intro l
      rw [ih (fun l n hn => hok l n (hsame l ▸ hn)) h l, hsame l]

/-- No version in the graph, and no active version, lies behind the current one. -/
structure CoreOk (s : CoreState K V) : Prop where
  graph : s.graph.GraphOk s.currentVersion
  active : ∀ v, s.Active v → v ≤ s.currentVersion

omit [DiceValue V] in
theorem coreOk_new : CoreOk (new : CoreState K V) := by
  refine ⟨fun k n hn => ?_, fun v hv => ?_⟩
  · rw [new, node_new] at hn; cases hn
  · simp [Active, new, VersionTracker.new] at hv

section Tracker

omit [DecidableEq K] [DiceValue V]

theorem active_of_isRelevant (h : s.versionTracker.isRelevant v epoch) : s.Active v := by
  obtain ⟨data, hdata, -⟩ := any_eq_true _ _ |>.mp h
  rw [Active, hdata]
  rfl

theorem active_of_cacheIfRelevant (h : s.versionTracker.cacheIfRelevant v epoch = some cache) :
    s.Active v := by
  unfold cacheIfRelevant at h
  split at h
  · next data hdata => rw [Active, hdata]; rfl
  · cases h

theorem setCache_current (t : VersionTracker K V) (v : Nat) (cache : SharedCache K V) :
    (t.setCache v cache).current = t.current := by
  unfold setCache
  split <;> rfl

theorem setCache_invalidBefore (t : VersionTracker K V) (v : Nat) (cache : SharedCache K V) :
    (t.setCache v cache).invalidBefore = t.invalidBefore := by
  unfold setCache
  split <;> rfl

theorem setCache_active (t : VersionTracker K V) (v w : Nat) (cache : SharedCache K V)
    (h : ((t.setCache v cache).activeVersions.lookup w).isSome) :
    (t.activeVersions.lookup w).isSome := by
  unfold setCache at h
  split at h
  · next data hdata =>
    by_cases hwv : w = v
    · rw [hwv, hdata]; rfl
    · simpa only [AList.lookup_insert_ne hwv] using h
  · exact h

end Tracker

/-- **Every request keeps the core state in order.** -/
theorem iteration_coreOk (hok : CoreOk s) (hadm : r.Admissible s) (h : s.iteration r = some s') :
    CoreOk s' := by
  cases iteration_effect h with
  | advance happ =>
    refine ⟨applyUpdates_induction (fun g g' k kind p changed _ hg hinv => ?_) happ ?_,
      fun v hv => (hok.active v hv).trans (Nat.le_succ _)⟩
    · exact invalidate_graphOk hg le_rfl hinv
    · exact fun k n hn => (hok.graph k n hn).mono (Nat.le_succ _)
  | keep happ =>
    have hsame := applyUpdates_false hok.graph (Nat.lt_succ_self _) happ
    exact ⟨fun k n hn => hok.graph k n (hsame k ▸ hn), hok.active⟩
  | tracker hcur _ hact =>
    refine ⟨fun k n hn => ?_, fun v hv => ?_⟩
    · rw [currentVersion, hcur]
      exact hok.graph k n hn
    · rw [currentVersion, hcur]
      rcases hact v hv with ha | rfl
      · exact hok.active v ha
      · exact hadm
  | update hr hact hup =>
    exact ⟨(update_graphOk hok.graph (hok.active _ (active_of_isRelevant hact)) hup).1, hok.active⟩
  | rewind hcache hkeys =>
    have hv := hok.active _ (active_of_cacheIfRelevant hcache)
    refine ⟨?_, fun v hv => ?_⟩
    · rw [currentVersion, setCache_current]
      refine rewindKeys_induction (fun g g' k changed _ hg _ hinv => ?_) hkeys hok.graph
      exact invalidate_graphOk hg hv hinv
    · rw [currentVersion, setCache_current]
      exact hok.active v (setCache_active _ _ _ _ hv)
  | pageOut hg | rehydrate hg =>
    refine ⟨fun k => hg.transfer (P := fun x => ∀ n, x = some n → NodeOk s.currentVersion n)
      (fun o res hnode n hn => ?_) (hok.graph k), hok.active⟩
    cases hn
    exact hnode (.occupied o) rfl
  | dropEverything =>
    refine ⟨fun k n hn => ?_, fun v hv => (hok.active v hv).trans (Nat.le_succ _)⟩
    rw [unstableDropEverything, node_new] at hn
    cases hn

/-- **Every run keeps the core state in order.** -/
theorem reach_coreOk {P : CoreState K V → StateRequest K V → Prop}
    (hP : ∀ s r, P s r → r.Admissible s) (h : Reach iteration P s s') (hok : CoreOk s) :
    CoreOk s' :=
  h.invariant (fun _ _ _ hok hl hs => iteration_coreOk hok (hP _ _ hl) hs) hok

/-- Key `1` is computed at version 1, invalidated at version 2 and rewound at version 3; then its
value is paged out. -/
theorem reach_coreOk_rewound : ∃ s : CoreState Nat Nat, s.currentVersion = 3 ∧
    (historyOf (s.graph.node 1)).versions = [2, 3] ∧ CoreOk s := by
  refine ⟨_, rfl, ?_, reach_coreOk (P := fun s r => r.Admissible s) (fun _ _ h => h) (reach_of_run
    [.updateState [(0, .updateValue 7 .injected, .normal)], .ctxAtVersion 1,
      .updateComputed 1 1 0 .normal 7 (.one 0), .updateState [(1, .invalidate, .normal)],
      .updateState [(0, .updateValue 8 .injected, .normal)], .ctxAtVersion 3, .rewind [1] 3 1,
      .pageOut (some fun k _ => some (some k))] rfl) coreOk_new⟩
  decide

end CoreState

end Bz.Dice
