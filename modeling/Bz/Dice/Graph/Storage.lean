import Mathlib.Algebra.Ring.Nat
import Bz.Dice.Graph.Nodes

/-!
# The versioned graph

Model of `VersionedGraph` of `dice/src/impls/core/graph/storage.rs`.  The hash map of nodes is an
`AList`.  The queue of `invalidate_rdeps` is popped from its end, as the `Vec` of the source; the
order in which the hash set of keys is put into it is the order of the drained reverse dependencies
here.  The loop runs on fuel, and `invalidateLoop_queue` shows that the fuel given to it suffices.

Principal results: `invalidate_spec`, `update_spec`.
-/

namespace Bz.Dice

open VersionedGraphNode List Option

variable {K V : Type} [DecidableEq K] {deps : SeriesParallelDeps K}

/-- Whether a key is injected. -/
inductive StorageType where
  | normal
  | injected
  deriving DecidableEq, Repr

/-- `InvalidateKind`, without the one of the tests. -/
inductive InvalidateKind (V : Type) where
  | forceDirty
  | update (value : V) (storage : StorageType)

/-- The nodes of all keys. -/
structure VersionedGraph (K V : Type) where
  nodes : AList fun _ : K => VersionedGraphNode K V

namespace VersionedGraph

def new : VersionedGraph K V := ⟨∅⟩

/-- The node of a key. -/
def node (g : VersionedGraph K V) (k : K) : Option (VersionedGraphNode K V) := g.nodes.lookup k

/-- Replaces or inserts the node of a key. -/
def setNode (g : VersionedGraph K V) (k : K) (n : VersionedGraphNode K V) : VersionedGraph K V :=
  ⟨g.nodes.insert k n⟩

@[simp] theorem node_new (k : K) : (new : VersionedGraph K V).node k = none := by
  simp [node, new]

@[simp] theorem node_setNode_self (g : VersionedGraph K V) (k : K) (n : VersionedGraphNode K V) :
    (g.setNode k n).node k = some n := by
  simp [node, setNode]

variable {k : K} {g g' : VersionedGraph K V} {v : Nat} {n n' : VersionedGraphNode K V}
  {res : InvalidateResult K} {x : V}
  {fuel : Nat} {p : InvalidationSourcePriority} {st : StorageType} {valid : VersionRanges}
  {r : ValueReusable} {ret : DiceComputedValue V}

theorem node_setNode_ne (g : VersionedGraph K V) {l : K} (n : VersionedGraphNode K V) (h : l ≠ k) :
    (g.setNode k n).node l = g.node l := by
  simp [node, setNode, AList.lookup_insert_ne h]

theorem node_setNode (g : VersionedGraph K V) (k l : K) (n : VersionedGraphNode K V) :
    (g.setNode k n).node l = if l = k then some n else g.node l := by
  split
  · next h => rw [h, node_setNode_self]
  · next h => exact node_setNode_ne g n h

/-- `VersionedGraph::get`. -/
def get (g : VersionedGraph K V) (k : K) (v : Nat) : VersionedGraphResult K V :=
  match g.node k with
  | some n => n.atVersion v
  | none => .compute

/-- A match comes from a verified version of an occupied node, or from an injected value. -/
theorem get_matched {r : DiceComputedValue V} (h : g.get k v = .matched r) :
    (∃ o, g.node k = some (.occupied o) ∧ v ∈ o.verifiedRanges ∧
      o.res.asHydrated = some r.value ∧ r.versions = o.verifiedRanges) ∨
      ∃ o data, g.node k = some (.injected o) ∧ o.dataAt v = some data ∧
        r = ⟨data.value, data.validVersions⟩ := by
  simp only [get] at h
  cases hn : g.node k with
  | none => rw [hn] at h; cases h
  | some n =>
    rw [hn] at h
    cases n with
    | occupied o => exact .inl ⟨o, rfl, OccupiedGraphNode.atVersion_matched h⟩
    | vacant o => cases h
    | injected o =>
      simp only [atVersion, InjectedGraphNode.atVersion] at h
      split at h
      · next data hdata => cases h; exact .inr ⟨o, data, rfl, hdata, rfl⟩
      · cases h

/-- The loop of `update` over the deps: reverse dependencies are added and the valid versions of
the deps intersected. -/
def addRdeps (g : VersionedGraph K V) (k : K) (v : Nat) (valid : VersionRanges) :
    List K → Option (VersionedGraph K V × VersionRanges)
  | [] => some (g, valid)
  | dep :: deps => do
    let n ← g.node dep
    let n ← n.addRdepAt v k
    let valid ← n.intersectValidVersionsAt v valid
    addRdeps (g.setNode dep n) k v valid deps

def updateEmpty (g : VersionedGraph K V) (k : K) (v : Nat) (value : V)
    (validDeps : VersionRanges) (deps : SeriesParallelDeps K) :
    VersionedGraph K V × DiceComputedValue V :=
  let ranges := validDeps.insert (.single v)
  (g.setNode k (.occupied (.new value deps ranges .new)), ⟨value, ranges⟩)

/-- `VersionedGraph::update`. -/
def update [DiceValue V] (g : VersionedGraph K V) (k : K) (v : Nat) (value : V)
    (reusable : ValueReusable) (deps : SeriesParallelDeps K) (storage : StorageType) :
    Option (VersionedGraph K V × DiceComputedValue V) := do
  if storage = .injected then none
  else
    let (g, validDeps) ← g.addRdeps k v (.ofRange (.beginsWith 0)) deps.iterKeys
    match g.node k with
    | some n => do
      let (n, ret) ← n.onComputed v value validDeps reusable deps
      some (g.setNode k n, ret)
    | none => some (g.updateEmpty k v value validDeps deps)

/-- The reverse dependencies recorded in the whole graph. -/
def rdepsOf : VersionedGraphNode K V → List K
  | .occupied n => n.rdeps.data
  | .injected n => n.rdeps.data
  | .vacant _ => []

/-- Pushes the keys that were not queued before. -/
def enqueue (queued queue : List K) : List K → List K × List K
  | [] => (queued, queue)
  | dep :: deps =>
    if dep ∈ queued then enqueue queued queue deps
    else enqueue (dep :: queued) (dep :: queue) deps

/-- The reverse dependencies of a node that changed. -/
def newRdeps : InvalidateResult K → List K
  | .changed (some rdeps) => rdeps
  | _ => []

/-- The loop of `invalidate_rdeps`.  The head of the list is the end of the queue. -/
def invalidateLoop (v : Nat) : Nat → VersionedGraph K V → List K → List K →
    Option (VersionedGraph K V × List K)
  | 0, g, _, queue => some (g, queue)
  | _ + 1, g, _, [] => some (g, [])
  | fuel + 1, g, queued, rdep :: queue =>
    match g.node rdep with
    | none => invalidateLoop v fuel g queued queue
    | some n => do
      let (n, res) ← n.markInvalidated v
      let queues := enqueue queued queue (newRdeps res)
      invalidateLoop v fuel (g.setNode rdep n) queues.1 queues.2

/-- The number of reverse dependencies recorded in the graph. -/
def rdepCount (g : VersionedGraph K V) : Nat :=
  (g.nodes.entries.map fun e => (rdepsOf e.2).length).sum

def invalidateRdeps (g : VersionedGraph K V) (v : Nat) (rdeps : List K) :
    Option (VersionedGraph K V) :=
  let queue := rdeps.dedup
  (invalidateLoop v (queue.length + g.rdepCount) g queue queue).map Prod.fst

/-- The node that `invalidate` creates for an unknown key. -/
def freshNode (v : Nat) (kind : InvalidateKind V) (p : InvalidationSourcePriority) :
    VersionedGraphNode K V :=
  match kind with
  | .update value .injected => .injected (.new v value)
  | .update value .normal => .occupied (.new value .none (.ofRange (.beginsWith v)) .new)
  | .forceDirty => .vacant ⟨(ForceDirtyHistory.new.forceDirty v).1, p⟩

/-- The call that `invalidate` makes on an existing node. -/
def invalidateNode [DiceValue V] (n : VersionedGraphNode K V) (v : Nat) (kind : InvalidateKind V)
    (p : InvalidationSourcePriority) : Option (VersionedGraphNode K V × InvalidateResult K) :=
  match kind with
  | .forceDirty => n.forceDirty v p
  | .update value _ => n.onInjected v value

/-- `VersionedGraph::invalidate`: the new graph and whether anything changed. -/
def invalidate [DiceValue V] (g : VersionedGraph K V) (k : K) (v : Nat) (kind : InvalidateKind V)
    (p : InvalidationSourcePriority) : Option (VersionedGraph K V × Bool) :=
  match g.node k with
  | none => some (g.setNode k (freshNode v kind p), true)
  | some n => do
    let (n, res) ← invalidateNode n v kind p
    match res with
    | .noChange => some (g.setNode k n, false)
    | .changed rdeps => do
      let g ← (g.setNode k n).invalidateRdeps v (rdeps.getD [])
      some (g, true)

/-! ## The worklist of `invalidate_rdeps` -/

section Enqueue

variable {deps queue queued : List K}

theorem mem_enqueue {x : K} : (x ∈ (enqueue queued queue deps).1 ↔ x ∈ queued ∨ x ∈ deps) ∧
      (x ∈ (enqueue queued queue deps).2 ↔ x ∈ queue ∨ (x ∈ deps ∧ x ∉ queued)) := by
  fun_induction enqueue queued queue deps with
  | case1 => simp
  | case2 queued queue d deps h ih | case3 queued queue d deps h ih =>
    rw [ih.1, ih.2]
    by_cases hxd : x = d
    · subst hxd
      simp [h]
    · simp [hxd]

theorem enqueue_nodup (hsub : queue ⊆ queued) (hn : queue.Nodup) :
    (enqueue queued queue deps).2.Nodup := by
  induction deps generalizing queued queue with
  | nil => exact hn
  | cons d deps ih =>
    unfold enqueue
    split
    · exact ih hsub hn
    · next h =>
      refine ih (cons_subset_cons d hsub) (nodup_cons.mpr ⟨?_, hn⟩)
      exact fun hd => h (hsub hd)

theorem enqueue_length_le (queued queue deps : List K) :
    (enqueue queued queue deps).2.length ≤ queue.length + deps.length := by
  induction deps generalizing queued queue with
  | nil => simp [enqueue]
  | cons d deps ih =>
    unfold enqueue
    split
    · have := ih queued queue
      simp only [length_cons]
      omega
    · have := ih (d :: queued) (d :: queue)
      simp only [length_cons] at this ⊢
      omega

end Enqueue

/-- What happens to the node of a popped key: it was already invalid from `v` on, or it is cut at
`v` and its reverse dependencies are popped as well. -/
inductive Popped (v : Nat) (popped : K → Prop) :
    Option (VersionedGraphNode K V) → Option (VersionedGraphNode K V) → Prop where
  | absent : Popped v popped none none
  | invalid {n : OccupiedGraphNode K V} (h : ∀ u ∈ n.verifiedRanges, u < v) :
      Popped v popped (some (.occupied n)) (some (.occupied n))
  | cut {n n' : OccupiedGraphNode K V} (h : n.Cut v n') (hempty : n'.rdeps = .new)
      (hrdeps : ∀ r ∈ n.rdeps, popped r) :
      Popped v popped (some (.occupied n)) (some (.occupied n'))

omit [DecidableEq K] in
theorem Popped.mono {popped popped' : K → Prop} {x y : Option (VersionedGraphNode K V)}
    (h : Popped v popped x y) (hsub : ∀ k, popped k → popped' k) : Popped v popped' x y := by
  cases h with
  | absent => exact .absent
  | invalid h => exact .invalid h
  | cut h hempty hrdeps => exact .cut h hempty fun r hr => hsub r (hrdeps r hr)

omit [DecidableEq K] in
theorem markInvalidated_popped (h : n.markInvalidated v = some (n', res)) :
    (res = .noChange ∧ n' = n ∧ ∃ o, n = .occupied o ∧ ∀ u ∈ o.verifiedRanges, u < v) ∨
      ∃ o o', n = .occupied o ∧ n' = .occupied o' ∧ res = .changed (some o.rdeps.data) ∧
        o.Cut v o' ∧ o'.rdeps = .new := by
  cases n with
  | occupied o =>
    obtain ⟨hcut, -⟩ := o.markInvalidated_cut v
    simp only [markInvalidated] at h
    split at h
    · cases h
      exact .inr ⟨o, _, rfl, rfl, rfl, ⟨hcut.res, hcut.deps, hcut.history, hcut.ranges⟩, rfl⟩
    · next hf =>
      have heq := OccupiedGraphNode.markInvalidated_eq_of_false (by simpa using hf)
      cases h
      refine .inl ⟨rfl, by rw [heq], o, rfl, fun u hu => ?_⟩
      have := hcut.ranges u
      rw [heq] at this
      exact (this.mp hu).2
  | injected o | vacant o => simp [markInvalidated] at h

theorem invalidateLoop_cons (g : VersionedGraph K V) (queued queue : List K) :
    invalidateLoop v (fuel + 1) g queued (k :: queue) =
      match g.node k with
      | none => invalidateLoop v fuel g queued queue
      | some n => (n.markInvalidated v).bind fun r =>
          invalidateLoop v fuel (g.setNode k r.1) (enqueue queued queue (newRdeps r.2)).1
            (enqueue queued queue (newRdeps r.2)).2 := by
  rw [invalidateLoop]
  cases g.node k <;> rfl

/-- A set of keys that contains the reverse dependencies of its members. -/
def RdepClosed (g : VersionedGraph K V) (S : K → Prop) : Prop :=
  ∀ m n, S m → g.node m = some n → ∀ x ∈ rdepsOf n, S x

/-- What the loop keeps: the keys that were queued and are not any more have been popped, and all
others are as they were. -/
structure Draining (v : Nat) (g₀ : VersionedGraph K V) (rdeps : List K) (g : VersionedGraph K V)
    (queued queue : List K) : Prop where
  start : rdeps ⊆ queued
  subset : queue ⊆ queued
  nodup : queue.Nodup
  same : ∀ k, k ∈ queue ∨ k ∉ queued → g.node k = g₀.node k
  popped : ∀ k ∈ queued, k ∉ queue → Popped v (· ∈ queued) (g₀.node k) (g.node k)
  least : ∀ S, (∀ k ∈ rdeps, S k) → RdepClosed g₀ S → ∀ k ∈ queued, S k

section Draining

variable {rdeps queued queue : List K}

theorem Draining.pop (h : Draining v g0 rdeps g queued (k :: queue)) (hnode : g.node k = some n)
    (hmark : n.markInvalidated v = some (n', res)) :
    Draining v g0 rdeps (g.setNode k n') (enqueue queued queue (newRdeps res)).1
      (enqueue queued queue (newRdeps res)).2 := by
  obtain ⟨hk, hnd⟩ := nodup_cons.mp h.nodup
  obtain ⟨hkq, hsub⟩ := cons_subset.mp h.subset
  have hnode0 : g0.node k = some n := (h.same k (.inl mem_cons_self)).symm.trans hnode
  have hqueued : queued ⊆ (enqueue queued queue (newRdeps res)).1 :=
    fun l hl => mem_enqueue.1.mpr (.inl hl)
  refine ⟨List.Subset.trans h.start hqueued, fun l hl => ?_, enqueue_nodup hsub hnd, fun l hl => ?_,
    fun l hl hnot => ?_, fun S hS hcl l hl => ?_⟩
  · rw [mem_enqueue.2] at hl
    exact mem_enqueue.1.mpr (hl.imp (fun hl => hsub hl) And.left)
  · rw [mem_enqueue.2, mem_enqueue.1, not_or] at hl
    -- the popped key is not queued again
    have hlk : l ≠ k := by
      rintro rfl
      exact hl.elim (fun hl => hl.elim hk fun hl => hl.2 hkq) fun hl => hl.1 hkq
    rw [node_setNode_ne g n' hlk]
    refine h.same l ?_
    rcases hl with (hl | hl) | hl
    · exact .inl (mem_cons_of_mem _ hl)
    · exact .inr hl.2
    · exact .inr hl.1
  · rw [mem_enqueue.2, not_or, not_and_not_right] at hnot
    by_cases hlk : l = k
    · rw [hlk, hnode0, node_setNode_self]
      rcases markInvalidated_popped hmark with
        ⟨rfl, rfl, o, rfl, hlt⟩ | ⟨o, o', rfl, rfl, rfl, hcut, hempty⟩
      · exact .invalid hlt
      · exact .cut hcut hempty fun r hr => mem_enqueue.1.mpr (.inr hr)
    · have hold : l ∈ queued := (mem_enqueue.1.mp hl).elim id hnot.2
      rw [node_setNode_ne g n' hlk]
      exact (h.popped l hold fun hm =>
        (mem_cons.mp hm).elim hlk hnot.1).mono fun _ hr => hqueued hr
  · rcases mem_enqueue.1.mp hl with hl | hl
    · exact h.least S hS hcl l hl
    · refine hcl k n (h.least S hS hcl k hkq) hnode0 l ?_
      rcases markInvalidated_popped hmark with ⟨rfl, -⟩ | ⟨o, o', rfl, -, rfl, -⟩
      · cases hl
      · exact hl

/-- **What the loop does**, once its queue is empty. -/
theorem Draining.loop (hd : Draining v g0 rdeps g queued queue)
    (h : invalidateLoop v fuel g queued queue = some (g', [])) :
    ∃ queued', Draining v g0 rdeps g' queued' [] := by
  induction fuel generalizing g queued queue with
  | zero =>
    cases h
    exact ⟨queued, hd⟩
  | succ fuel ih =>
    cases queue with
    | nil =>
      cases h
      exact ⟨queued, hd⟩
    | cons k queue =>
      rw [invalidateLoop_cons] at h
      cases hnode : g.node k with
      | none =>
        rw [hnode] at h
        refine ih ⟨hd.start, (cons_subset.mp hd.subset).2, (nodup_cons.mp hd.nodup).2,
          fun l hl => hd.same l (hl.imp_left (mem_cons_of_mem _)), fun l hl hnot => ?_, hd.least⟩ h
        by_cases hlk : l = k
        · rw [← hd.same l (.inl (hlk ▸ mem_cons_self)), hlk, hnode]
          exact .absent
        · exact hd.popped l hl fun hm => (mem_cons.mp hm).elim hlk hnot
      | some n =>
        rw [hnode] at h
        obtain ⟨⟨n', res⟩, hmark, hloop⟩ := bind_eq_some_iff.mp h
        exact ih (hd.pop hnode hmark) hloop

end Draining

/-! ## The fuel of the worklist suffices -/

theorem sum_kerase (f : VersionedGraphNode K V → Nat) :
    ∀ {l : List (Sigma fun _ : K => VersionedGraphNode K V)}, List.dlookup k l = some n →
      ((List.kerase k l).map fun e => f e.2).sum + f n = (l.map fun e => f e.2).sum
  | [], h => by simp at h
  | ⟨k', n'⟩ :: l, h => by
    by_cases hk : k = k'
    · subst hk
      rw [dlookup_cons_eq, Option.some.injEq] at h
      simp [h, Nat.add_comm]
    · rw [dlookup_cons_ne _ _ hk] at h
      rw [kerase_cons_ne hk]
      simp [Nat.add_assoc, sum_kerase f h]

/-- The loop empties its queue: every pushed key was removed from the graph's reverse
dependencies. -/
theorem invalidateLoop_queue {queued queue rest : List K}
    (hfuel : queue.length + g.rdepCount ≤ fuel)
    (h : invalidateLoop v fuel g queued queue = some (g', rest)) : rest = [] := by
  induction fuel generalizing g queued queue with
  | zero =>
    simp only [invalidateLoop, Option.some.injEq, Prod.mk.injEq] at h
    rw [← h.2]
    exact eq_nil_of_length_eq_zero (by omega)
  | succ fuel ih =>
    cases queue with
    | nil =>
      simp only [invalidateLoop, Option.some.injEq, Prod.mk.injEq] at h
      exact h.2.symm
    | cons k queue =>
      rw [invalidateLoop_cons] at h
      simp only [length_cons] at hfuel
      cases hnode : g.node k with
      | none => rw [hnode] at h; exact ih (by omega) h
      | some n =>
        rw [hnode] at h
        obtain ⟨⟨n', res⟩, hmark, hloop⟩ := bind_eq_some_iff.mp h
        have h1 : (g.setNode k n').rdepCount + (rdepsOf n).length =
            g.rdepCount + (rdepsOf n').length := by
          have hsum := sum_kerase (fun n => (rdepsOf n).length) hnode
          simp only [rdepCount, setNode, AList.entries_insert, map_cons, sum_cons]
          omega
        have h2 : (rdepsOf n').length + (newRdeps res).length = (rdepsOf n).length := by
          rcases markInvalidated_popped hmark with ⟨rfl, rfl, -⟩ | ⟨o, o', rfl, rfl, rfl, -, hempty⟩
          · simp [newRdeps]
          · simp [newRdeps, rdepsOf, hempty, LazyDepsSet.new]
        have h3 := enqueue_length_le queued queue (newRdeps res)
        dsimp only at hloop
        exact ih (by omega) hloop

theorem invalidateRdeps_popped {rdeps : List K} (h : g.invalidateRdeps v rdeps = some g') :
    ∃ popped : K → Prop, (∀ k ∈ rdeps, popped k) ∧ (∀ k, ¬ popped k → g'.node k = g.node k) ∧
      (∀ k, popped k → Popped v popped (g.node k) (g'.node k)) ∧
      ∀ S, (∀ k ∈ rdeps, S k) → RdepClosed g S → ∀ k, popped k → S k := by
  obtain ⟨⟨g1, rest⟩, hloop, hg⟩ := map_eq_some_iff.mp h
  subst hg
  have hrest := invalidateLoop_queue (Nat.le_refl _) hloop
  subst hrest
  have hstart : Draining v g rdeps g rdeps.dedup rdeps.dedup :=
    ⟨subset_dedup rdeps, List.Subset.refl _, nodup_dedup rdeps, fun _ _ => rfl,
      fun k hk hnot => absurd hk hnot, fun S hS _ k hk => hS k (mem_dedup.mp hk)⟩
  obtain ⟨queued, hd⟩ := hstart.loop hloop
  exact ⟨(· ∈ queued), fun k hk => hd.start hk, fun k hk => hd.same k (.inr hk),
    fun k hk => hd.popped k hk not_mem_nil, fun S hS hcl k hk => hd.least S hS hcl k hk⟩

/-! ## What `invalidate` does -/

/-- What `invalidate` does to the node of its own key.  The last argument is the list of reverse
dependencies it drains, or `none` without a change. -/
inductive Touch [DiceValue V] (v : Nat) : InvalidateKind V → Option (VersionedGraphNode K V) →
    VersionedGraphNode K V → Option (List K) → Prop where
  | freshVacant (p : InvalidationSourcePriority) :
      Touch v .forceDirty none (.vacant ⟨⟨[v]⟩, p⟩) (some [])
  | freshInjected (x : V) : Touch v (.update x .injected) none (.injected (.new v x)) (some [])
  | freshOccupied (x : V) :
      Touch v (.update x .normal) none
        (.occupied (.new x .none (.ofRange (.beginsWith v)) .new)) (some [])
  | dirty {o o' : OccupiedGraphNode K V} (hlast : o.dirtiedHistory.versions.getLast? ≠ some v)
      (hcut : o.Cut v { o' with dirtiedHistory := o.dirtiedHistory })
      (hhist : o'.dirtiedHistory.versions = o.dirtiedHistory.versions ++ [v])
      (hrdeps : o'.rdeps = .new) :
      Touch v .forceDirty (some (.occupied o)) (.occupied o') (some o.rdeps.data)
  | redirty {o o' : OccupiedGraphNode K V} (hlast : o.dirtiedHistory.versions.getLast? = some v)
      (hcut : o.Cut v o') (hrdeps : o'.rdeps = o.rdeps) :
      Touch v .forceDirty (some (.occupied o)) (.occupied o') none
  | dirtyVacant {o o' : VacantGraphNode} (hlast : o.dirtiedHistory.versions.getLast? ≠ some v)
      (hhist : o'.dirtiedHistory.versions = o.dirtiedHistory.versions ++ [v]) :
      Touch v .forceDirty (some (.vacant o)) (.vacant o') (some [])
  | redirtyVacant {o : VacantGraphNode} (hlast : o.dirtiedHistory.versions.getLast? = some v) :
      Touch v .forceDirty (some (.vacant o)) (.vacant o) none
  | sameOccupied {x y : V} {st : StorageType} {o : OccupiedGraphNode K V}
      (hy : o.res.asHydrated = some y) (he : DiceValue.equality y x = true) :
      Touch v (.update x st) (some (.occupied o)) (.occupied o) none
  | pushOccupied {x : V} {st : StorageType} {o : OccupiedGraphNode K V} :
      Touch v (.update x st) (some (.occupied o))
        (.occupied (.new x .none (.ofRange (.beginsWith v)) o.dirtiedHistory))
        (some o.rdeps.data)
  | pushVacant {x : V} {st : StorageType} {o : VacantGraphNode} :
      Touch v (.update x st) (some (.vacant o))
        (.occupied (.new x .none (.ofRange (.beginsWith v)) o.dirtiedHistory)) (some [])
  | sameInjected {x : V} {st : StorageType} {o : InjectedGraphNode K V}
      (h : o.onInjected v x = some (o, .noChange)) :
      Touch v (.update x st) (some (.injected o)) (.injected o) none
  | inject {x : V} {st : StorageType} {o o' : InjectedGraphNode K V}
      (h : o.onInjected v x = some (o', .changed (some o.rdeps.data))) (hrdeps : o'.rdeps = .new) :
      Touch v (.update x st) (some (.injected o)) (.injected o') (some o.rdeps.data)

theorem forceDirty_history (h : ForceDirtyHistory) (v : Nat) :
    (h.versions.getLast? = some v ∧ h.forceDirty v = (h, false)) ∨
      (h.versions.getLast? ≠ some v ∧ h.forceDirty v = (⟨h.versions ++ [v]⟩, true)) := by
  unfold ForceDirtyHistory.forceDirty
  cases hl : h.versions.getLast? with
  | none =>
    have : h.versions = [] := getLast?_eq_none_iff.mp hl
    simp [this]
  | some last =>
    by_cases he : last = v
    · simp [he]
    · simp [he]

omit [DecidableEq K] in
theorem touch_of_forceDirty [DiceValue V] (h : n.forceDirty v p = some (n', res)) :
    ∃ d, Touch v (.forceDirty : InvalidateKind V) (some n) n' d ∧
      (res = .noChange ∧ d = none ∨ ∃ r, res = .changed r ∧ d = some (r.getD [])) := by
  cases n with
  | injected o => simp [forceDirty] at h
  | vacant o =>
    simp only [forceDirty, VacantGraphNode.forceDirty] at h
    split at h
    · rcases forceDirty_history o.dirtiedHistory v with ⟨hl, he⟩ | ⟨hl, he⟩
      · simp only [he] at h
        cases h
        exact ⟨none, .redirtyVacant hl, .inl ⟨rfl, rfl⟩⟩
      · simp only [he] at h
        cases h
        exact ⟨some [], .dirtyVacant hl rfl, .inr ⟨none, rfl, rfl⟩⟩
    · cases h
  | occupied o =>
    obtain ⟨hcut, hrd⟩ := o.markInvalidated_cut v
    simp only [forceDirty, OccupiedGraphNode.forceDirty, Option.some.injEq, Prod.mk.injEq] at h
    rcases forceDirty_history o.dirtiedHistory v with ⟨hl, he⟩ | ⟨hl, he⟩
    · simp only [he, Bool.false_eq_true, if_false] at h
      obtain ⟨rfl, rfl⟩ := h
      exact ⟨none, .redirty hl ⟨hcut.res, hcut.deps, rfl, hcut.ranges⟩ hrd, .inl ⟨rfl, rfl⟩⟩
    · simp only [he, if_true] at h
      obtain ⟨rfl, rfl⟩ := h
      exact ⟨some o.rdeps.data, .dirty hl ⟨hcut.res, hcut.deps, rfl, hcut.ranges⟩ rfl rfl,
        .inr ⟨_, rfl, rfl⟩⟩

omit [DecidableEq K] in
theorem touch_of_onInjected [DiceValue V] (h : n.onInjected v x = some (n', res)) :
    ∃ d, Touch v (.update x st) (some n) n' d ∧
      (res = .noChange ∧ d = none ∨ ∃ r, res = .changed r ∧ d = some (r.getD [])) := by
  cases n with
  | vacant o =>
    cases h
    exact ⟨some [], .pushVacant, .inr ⟨none, rfl, rfl⟩⟩
  | occupied o =>
    simp only [onInjected, OccupiedGraphNode.onInjected, Option.some.injEq, Prod.mk.injEq] at h
    obtain ⟨rfl, rfl⟩ := h
    split
    · next he =>
      obtain ⟨y, hy, hey⟩ := any_eq_true _ _ |>.mp he
      exact ⟨none, .sameOccupied hy hey, .inl ⟨rfl, rfl⟩⟩
    · exact ⟨some o.rdeps.data, .pushOccupied, .inr ⟨_, rfl, rfl⟩⟩
  | injected o =>
    obtain ⟨⟨o', res'⟩, ho, hn⟩ := bind_eq_some_iff.mp h
    obtain ⟨rfl, rfl⟩ := hn
    have ho' := ho
    unfold InjectedGraphNode.onInjected at ho
    split at ho
    · split at ho
      · cases ho
        exact ⟨none, .sameInjected ho', .inl ⟨rfl, rfl⟩⟩
      · split at ho
        · cases ho
          exact ⟨some o.rdeps.data, .inject ho' rfl, .inr ⟨_, rfl, rfl⟩⟩
        · cases ho
    · cases ho
      exact ⟨some o.rdeps.data, .inject ho' rfl, .inr ⟨_, rfl, rfl⟩⟩

/-- **What `invalidate` does**: it touches the node of its key, and, if that changed, pops the
drained reverse dependencies and everything behind them, but nothing else. -/
theorem invalidate_spec [DiceValue V] {kind : InvalidateKind V} {changed : Bool}
    (h : g.invalidate k v kind p = some (g', changed)) :
    ∃ n' d, Touch v kind (g.node k) n' d ∧ changed = d.isSome ∧
      ∃ popped : K → Prop, (∀ r ∈ d.getD [], popped r) ∧ (d = none → ∀ l, ¬ popped l) ∧
        (∀ l, ¬ popped l → g'.node l = (g.setNode k n').node l) ∧
        (∀ l, popped l → Popped v popped ((g.setNode k n').node l) (g'.node l)) ∧
        ∀ S, (∀ r ∈ d.getD [], S r) → RdepClosed (g.setNode k n') S → ∀ l, popped l → S l := by
  unfold invalidate at h
  cases hn : g.node k with
  | none =>
    simp only [hn, Option.some.injEq, Prod.mk.injEq] at h
    obtain ⟨rfl, rfl⟩ := h
    have htouch : Touch v kind (none : Option (VersionedGraphNode K V)) (freshNode v kind p)
        (some []) := by
      match kind with
      | .forceDirty => exact .freshVacant p
      | .update x .injected => exact .freshInjected x
      | .update x .normal => exact .freshOccupied x
    exact ⟨_, _, htouch, rfl, fun _ => False, by simp, by simp, fun _ _ => rfl,
      fun _ hf => hf.elim, fun _ _ _ _ hf => hf.elim⟩
  | some n =>
    rw [hn] at h
    obtain ⟨⟨n', res⟩, hprim, hrest⟩ := bind_eq_some_iff.mp h
    obtain ⟨d, htouch, hres⟩ : ∃ d, Touch v kind (some n) n' d ∧
        (res = .noChange ∧ d = none ∨ ∃ r, res = .changed r ∧ d = some (r.getD [])) := by
      match kind with
      | .forceDirty => exact touch_of_forceDirty hprim
      | .update x st => exact touch_of_onInjected hprim
    refine ⟨n', d, htouch, ?_⟩
    rcases hres with ⟨rfl, rfl⟩ | ⟨r, rfl, rfl⟩
    · obtain ⟨rfl, rfl⟩ := hrest
      exact ⟨rfl, fun _ => False, by simp, by simp, fun _ _ => rfl, fun _ hf => hf.elim,
        fun _ _ _ _ hf => hf.elim⟩
    · obtain ⟨g1, hinv, hg⟩ := bind_eq_some_iff.mp hrest
      obtain ⟨rfl, rfl⟩ := hg
      obtain ⟨popped, h1, h2, h3, h4⟩ := invalidateRdeps_popped hinv
      exact ⟨rfl, popped, by simpa using h1, by simp, h2, h3, by simpa using h4⟩

/-! ## What `update` does -/

/-- The node without its reverse dependencies. -/
def eraseRdeps : VersionedGraphNode K V → VersionedGraphNode K V
  | .occupied n => .occupied { n with rdeps := .new }
  | .injected n => .injected { n with rdeps := .new }
  | .vacant n => .vacant n

/-- Whether a node records a reverse dependency at `v`. -/
def recordsRdep (v : Nat) : VersionedGraphNode K V → Bool
  | .occupied n => n.shouldAddRdepAt v
  | .injected _ => true
  | .vacant _ => false

/-- The versions that a dep contributes to a result computed at `v`. -/
def validAt (v : Nat) : VersionedGraphNode K V → VersionRanges
  | .occupied n => if v ∈ n.verifiedRanges then n.verifiedRanges else .empty
  | .injected n => ((n.dataAt v).map InjectedNodeData.validVersions).getD .empty
  | .vacant _ => .empty

omit [DecidableEq K] in
@[simp] theorem recordsRdep_eraseRdeps :
    recordsRdep v (eraseRdeps n) = recordsRdep v n := by
  cases n <;> rfl

omit [DecidableEq K] in
@[simp] theorem validAt_eraseRdeps :
    validAt v (eraseRdeps n) = validAt v n := by
  cases n <;> rfl

theorem addRdepAt_spec (h : n.addRdepAt v k = some n') : eraseRdeps n' = eraseRdeps n ∧
      ∀ x, x ∈ rdepsOf n' ↔ x ∈ rdepsOf n ∨ (x = k ∧ recordsRdep v n) := by
  cases n with
  | occupied o =>
    simp only [addRdepAt, OccupiedGraphNode.addRdepAt, Option.some.injEq] at h
    subst h
    split
    · next hs =>
      refine ⟨rfl, fun x => ?_⟩
      simp only [rdepsOf, recordsRdep, hs, and_true]
      exact LazyDepsSet.mem_insert.trans or_comm
    · next hs => exact ⟨rfl, fun x => by simp [recordsRdep, hs]⟩
  | injected o =>
    simp only [addRdepAt, InjectedGraphNode.addRdepAt] at h
    split at h
    · cases h
      refine ⟨rfl, fun x => ?_⟩
      simp only [rdepsOf, recordsRdep, and_true]
      exact LazyDepsSet.mem_insert.trans or_comm
    · cases h
  | vacant o => simp [addRdepAt] at h

omit [DecidableEq K] in
theorem mem_intersectValidVersionsAt {ranges ranges' : VersionRanges}
    (h : n.intersectValidVersionsAt v ranges = some ranges') (u : Nat) :
    u ∈ ranges' ↔ u ∈ ranges ∧ u ∈ validAt v n := by
  unfold intersectValidVersionsAt at h
  cases n with
  | occupied o =>
    simp only [validVersionsAt] at h
    by_cases hv : v ∈ o.verifiedRanges
    · have hc : o.verifiedRanges.contains v := VersionRanges.contains_eq_true.mpr hv
      simp only [hc, if_true] at h
      cases h
      simp [validAt, hv]
    · have hc : o.verifiedRanges.contains v = false :=
        Bool.eq_false_iff.mpr (mt VersionRanges.contains_eq_true.mp hv)
      simp only [hc, Bool.false_eq_true, if_false] at h
      cases h
      simp [validAt, hv]
  | injected o =>
    simp only [validVersionsAt] at h
    cases hd : o.dataAt v with
    | none => rw [hd] at h; cases h
    | some data =>
      rw [hd] at h
      cases h
      simp [validAt, hd]
  | vacant o => simp [validVersionsAt] at h

/-- The reverse dependencies of a key's node. -/
def rdepsAt (g : VersionedGraph K V) (k : K) : List K := ((g.node k).map rdepsOf).getD []

theorem node_map_of_setNode {α : Type} {f : VersionedGraphNode K V → α} (h : g.node k = some n)
    (hf : f n' = f n) (l : K) : ((g.setNode k n').node l).map f = (g.node l).map f := by
  rw [node_setNode]
  split
  · next hl => rw [hl, h, map_some, map_some, hf]
  · rfl

/-- What the loop of `update` over the deps does. -/
structure RdepsAdded (g : VersionedGraph K V) (k : K) (v : Nat) (deps : List K)
    (g' : VersionedGraph K V) : Prop where
  nodes : ∀ l, (g'.node l).map eraseRdeps = (g.node l).map eraseRdeps
  rdeps : ∀ l x, x ∈ rdepsAt g' l ↔
    x ∈ rdepsAt g l ∨ (x = k ∧ l ∈ deps ∧ ((g.node l).map (recordsRdep v)).getD false = true)
  exist : ∀ d ∈ deps, ∃ n, g.node d = some n

theorem addRdeps_spec {valid' : VersionRanges} {deps : List K}
    (h : g.addRdeps k v valid deps = some (g', valid')) : RdepsAdded g k v deps g' ∧
      ∀ u, u ∈ valid' ↔ u ∈ valid ∧ ∀ d ∈ deps, ∀ n, g.node d = some n → u ∈ validAt v n := by
  induction deps generalizing g valid with
  | nil =>
    obtain ⟨rfl, rfl⟩ := h
    exact ⟨⟨fun _ => rfl, by simp, by simp⟩, by simp⟩
  | cons d deps ih =>
    obtain ⟨n, hn, h⟩ := bind_eq_some_iff.mp h
    obtain ⟨n', hn', h⟩ := bind_eq_some_iff.mp h
    obtain ⟨valid1, hvalid, h⟩ := bind_eq_some_iff.mp h
    obtain ⟨⟨h1, h2, h3⟩, h4⟩ := ih h
    obtain ⟨herase, hrdeps⟩ := addRdepAt_spec hn'
    have hmap := node_map_of_setNode hn herase
    -- nothing but reverse dependencies changed, so the other deps see the same nodes
    have hrec : ∀ l, (((g.setNode d n').node l).map (recordsRdep v)) =
        (g.node l).map (recordsRdep v) := node_map_of_setNode hn (by
          rw [← recordsRdep_eraseRdeps, herase, recordsRdep_eraseRdeps])
    have hval : ∀ l, (((g.setNode d n').node l).map (validAt v)) = (g.node l).map (validAt v) :=
      node_map_of_setNode hn (by rw [← validAt_eraseRdeps, herase, validAt_eraseRdeps])
    refine ⟨⟨fun l => (h1 l).trans (hmap l), fun l x => ?_, fun e he => ?_⟩, fun u => ?_⟩
    · rw [h2, hrec]
      have hat : x ∈ rdepsAt (g.setNode d n') l ↔
          x ∈ rdepsAt g l ∨ (x = k ∧ l = d ∧ recordsRdep v n) := by
        unfold rdepsAt
        rw [node_setNode]
        split
        · next hl => subst hl; simp [hn, hrdeps x]
        · next hl => simp [hl]
      rw [hat]
      by_cases hl : l = d
      · subst hl; simp [hn]; tauto
      · simp [hl]
    · rcases mem_cons.mp he with rfl | he
      · exact ⟨n, hn⟩
      · obtain ⟨m, hm⟩ := h3 e he
        have := hmap e
        rw [hm] at this
        cases hg : g.node e with
        | none => rw [hg] at this; cases this
        | some m' => exact ⟨m', rfl⟩
    · rw [h4, mem_intersectValidVersionsAt hvalid]
      have hv' : u ∈ validAt v n' ↔ u ∈ validAt v n := by
        rw [← validAt_eraseRdeps, herase, validAt_eraseRdeps]
      rw [hv']
      constructor
      · rintro ⟨⟨hu, hun⟩, hall⟩
        refine ⟨hu, fun e he m hm => ?_⟩
        rcases mem_cons.mp he with rfl | he
        · rw [hn] at hm; cases hm; exact hun
        · have := hval e
          rw [hm] at this
          obtain ⟨m', hm', heq⟩ := map_eq_some_iff.mp this
          rw [← heq]
          exact hall e he m' hm'
      · rintro ⟨hu, hall⟩
        refine ⟨⟨hu, hall d mem_cons_self n hn⟩, fun e he m hm => ?_⟩
        have := hval e
        rw [hm] at this
        obtain ⟨m', hm', heq⟩ := map_eq_some_iff.mp this.symm
        rw [← heq]
        exact hall e (mem_cons_of_mem _ he) m' hm'

/-- The force-dirty history that a node passes on to its next value. -/
def historyOf : Option (VersionedGraphNode K V) → ForceDirtyHistory
  | some (.occupied n) => n.dirtiedHistory
  | some (.vacant n) => n.dirtiedHistory
  | _ => .new

/-- What `update` does to the node of its own key: the stored value is reused, the new one is
dropped because that is valid later, or stored. -/
inductive Computed [DiceValue V] (v : Nat) (x : V) (valid : VersionRanges) (r : ValueReusable)
    (deps : SeriesParallelDeps K) :
    Option (VersionedGraphNode K V) → VersionedGraphNode K V → DiceComputedValue V → Prop where
  | reuse {o : OccupiedGraphNode K V} {y : V} (hr : r.isReusable x deps o = true)
      (hy : o.res.asHydrated = some y) :
      Computed v x valid r deps (some (.occupied o)) (.occupied (o.markUnchanged v valid))
        ⟨y, (o.markUnchanged v valid).verifiedRanges⟩
  | skip {o : OccupiedGraphNode K V} (hr : r.isReusable x deps o = false)
      (hlater : o.everValidAfter v = true) :
      Computed v x valid r deps (some (.occupied o)) (.occupied o)
        ⟨x, OccupiedGraphNode.addedRanges o.dirtiedHistory v valid⟩
  | store {prev : Option (VersionedGraphNode K V)} {ranges : VersionRanges}
      (hinj : ∀ o, prev ≠ some (.injected o))
      (hlater : ∀ o, prev = some (.occupied o) → o.everValidAfter v = false)
      (hranges : ∀ u, u ∈ ranges ↔ u ∈ OccupiedGraphNode.addedRanges (historyOf prev) v valid) :
      Computed v x valid r deps prev (.occupied (.new x deps ranges (historyOf prev))) ⟨x, ranges⟩

theorem computed_of_onComputed [DiceValue V] (h : n.onComputed v x valid r deps = some (n', ret)) :
    Computed v x valid r deps (some n) n' ret := by
  cases n with
  | injected o => simp [onComputed] at h
  | vacant o =>
    cases h
    exact .store (by simp) (by simp) fun _ => Iff.rfl
  | occupied o =>
    simp only [onComputed] at h
    split at h
    · next hr =>
      obtain ⟨ret', hret, h⟩ := bind_eq_some_iff.mp h
      cases h
      obtain ⟨y, hy, hval⟩ := map_eq_some_iff.mp hret
      subst hval
      rw [(o.markUnchanged_fields valid).1] at hy
      exact .reuse hr hy
    · next hr =>
      cases hl : o.everValidAfter v with
      | true =>
        simp only [hl, Bool.not_true] at h
        cases h
        exact .skip (by simpa using hr) hl
      | false =>
        simp only [hl, Bool.not_false] at h
        cases h
        refine .store (by simp) (fun o' ho => ?_) fun _ => Iff.rfl
        cases ho
        exact hl

/-- **What `update` does**: reverse dependencies are added to the deps, then the node of the key
is reused, kept or replaced. -/
theorem update_spec [DiceValue V] (h : g.update k v x r deps st = some (g', ret)) :
    ∃ g1 valid n', RdepsAdded g k v deps.iterKeys g1 ∧
      (∀ u, u ∈ valid ↔ ∀ d ∈ deps.iterKeys, ∀ n, g.node d = some n → u ∈ validAt v n) ∧
      Computed v x valid r deps (g1.node k) n' ret ∧ g' = g1.setNode k n' := by
  unfold update at h
  split at h
  · cases h
  · obtain ⟨⟨g1, valid⟩, hadd, h⟩ := bind_eq_some_iff.mp h
    obtain ⟨hadded, hvalid⟩ := addRdeps_spec hadd
    have hvalid' : ∀ u, u ∈ valid ↔
        ∀ d ∈ deps.iterKeys, ∀ n, g.node d = some n → u ∈ validAt v n := fun u => by
      simpa using hvalid u
    simp only at h
    cases hn : g1.node k with
    | none =>
      rw [hn] at h
      obtain ⟨rfl, rfl⟩ := h
      refine ⟨g1, valid, _, hadded, hvalid', hn ▸ .store (by simp) (by simp) fun u => ?_, rfl⟩
      simp [historyOf]
    | some n =>
      rw [hn] at h
      obtain ⟨⟨n', ret'⟩, hcomp, h⟩ := bind_eq_some_iff.mp h
      cases h
      exact ⟨g1, valid, n', hadded, hvalid', hn ▸ computed_of_onComputed hcomp, rfl⟩

end VersionedGraph

end Bz.Dice
