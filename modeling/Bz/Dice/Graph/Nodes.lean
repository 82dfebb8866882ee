import Mathlib.Data.List.Dedup
import Bz.Dice.VersionRanges
import Bz.Dice.Deps.Graph

/-!
# Nodes of the versioned graph

Model of `dice/src/impls/core/graph/nodes.rs`, `lazy_deps.rs` and of the result types of
`types.rs`.  Keys and values are arbitrary types; a value comes with the `equality` of its key type,
and values that it calls equal are equal.  A function that the source leaves by `panic!`,
`unreachable!`, `expect` or a failed assertion returns `none`.

Left out: the invalidation paths and the priority stored in a `ForceDirtyHistory`, which the graph
never reads.  The priority of a vacant node stays: `VacantGraphNode::force_dirty` asserts it.

Principal results: `markInvalidated_cut` and `mem_markUnchanged`; `atVersion_matched` and
`atVersion_checkDeps`; `sortedInsert_spec`.
-/

namespace Bz.Dice

open VersionRanges List

/-- `Key::equality` of the stored values. -/
class DiceValue (V : Type) where
  equality : V → V → Bool
  eq_of_equality : ∀ {x y : V}, equality x y = true → x = y

instance : DiceValue Nat where
  equality x y := decide (x = y)
  eq_of_equality h := of_decide_eq_true h

variable {K V : Type} {k : K} {validDeps : VersionRanges} {h : ForceDirtyHistory} {u : Nat}

/-! ## Reverse dependencies -/

/-- `lazy_deps::State`. -/
inductive LazyDepsState where
  | new
  | growing (latestVersion thisVersionCount minSize : Nat)

/-- The reverse dependencies of a node. -/
structure LazyDepsSet (K : Type) where
  data : List K
  state : LazyDepsState

/-- `LazyDepsSet::new`, which is also what `drain` leaves behind. -/
def LazyDepsSet.new : LazyDepsSet K := ⟨[], .new⟩

/-- `LazyDepsSet::insert`.  The order of the keys is never observed, so `sort` and `dedup` together
are `List.dedup`. -/
def LazyDepsSet.insert [DecidableEq K] (s : LazyDepsSet K) (v : Nat) (k : K) : LazyDepsSet K :=
  match s.state with
  | .new => ⟨s.data ++ [k], .growing v 1 0⟩
  | .growing latestVersion thisVersionCount minSize =>
    if latestVersion = v then
      ⟨s.data ++ [k], .growing latestVersion (thisVersionCount + 1) minSize⟩
    else if latestVersion < v then
      let minSize := max minSize thisVersionCount
      if max 10 (minSize * 3 / 2) < s.data.length then
        ⟨s.data.dedup ++ [k], .growing v 1 s.data.dedup.length⟩
      else ⟨s.data ++ [k], .growing v 1 minSize⟩
    else ⟨s.data ++ [k], s.state⟩

instance : Membership K (LazyDepsSet K) where
  mem s k := k ∈ s.data

theorem LazyDepsSet.mem_def {s : LazyDepsSet K} : k ∈ s ↔ k ∈ s.data := Iff.rfl

instance [DecidableEq K] (k : K) (s : LazyDepsSet K) : Decidable (k ∈ s) :=
  inferInstanceAs (Decidable (k ∈ s.data))

@[simp] theorem LazyDepsSet.mem_insert [DecidableEq K] {s : LazyDepsSet K} {v : Nat} {l : K} :
    l ∈ s.insert v k ↔ l = k ∨ l ∈ s := by
  unfold LazyDepsSet.insert
  rw [LazyDepsSet.mem_def, LazyDepsSet.mem_def]
  split
  · simp [or_comm]
  · split
    · simp [or_comm]
    · split
      · dsimp only
        split <;> simp [or_comm]
      · simp [or_comm]

/-! ## Force-dirty history -/

/-- `ForceDirtyHistory`: the versions at which the node was force-dirtied. -/
structure ForceDirtyHistory where
  versions : List Nat

namespace ForceDirtyHistory

def new : ForceDirtyHistory := ⟨[]⟩

/-- `ForceDirtyHistory::force_dirty`: whether the version was not already the last one. -/
def forceDirty (h : ForceDirtyHistory) (v : Nat) : ForceDirtyHistory × Bool :=
  match h.versions.getLast? with
  | some last => if last = v then (h, false) else (⟨h.versions ++ [v]⟩, true)
  | none => (⟨[v]⟩, true)

/-- The loop of `get_x` over the versions from the last to the first: the begin, if one was found,
and the end seen so far. -/
def boundsRev (version : Nat) (endAt : Option Nat) : List Nat → Option Nat × Option Nat
  | [] => (none, endAt)
  | d :: ds => if d ≤ version then (some d, endAt) else boundsRev version (some d) ds

variable {ds : List Nat} {endAt : Option Nat} {version : Nat}

theorem boundsRev_end_gt (h : ∀ e ∈ endAt, version < e) :
    ∀ e ∈ (boundsRev version endAt ds).2, version < e := by
  fun_induction boundsRev version endAt ds with
  | case1 endAt | case2 endAt d ds hd => exact h
  | case3 endAt d ds hd ih => exact ih (by simpa using hd)

theorem boundsRev_begin_le : ∀ b ∈ (boundsRev version endAt ds).1, b ≤ version := by
  fun_induction boundsRev version endAt ds with
  | case1 endAt => simp
  | case2 endAt d ds hd => simpa using hd
  | case3 endAt d ds hd ih => exact ih

def restrictedRange (h : ForceDirtyHistory) (version : Nat) : VersionRange where
  begin := (boundsRev version none h.versions.reverse).1.getD 0
  endAt := (boundsRev version none h.versions.reverse).2
  valid := by
    intro e he
    have h1 := boundsRev_end_gt (by simp) e he
    have h2 := @boundsRev_begin_le h.versions.reverse none version
    cases hb : (boundsRev version none h.versions.reverse).1 with
    | none => simp only [Option.getD_none]; omega
    | some b =>
      have := h2 b hb
      simp only [Option.getD_some]
      omega

@[simp] theorem mem_restrictedRange_new (u v : Nat) : u ∈ new.restrictedRange v :=
  ⟨Nat.zero_le u, by simp [restrictedRange, new, boundsRev]⟩

theorem mem_restrictedRange_self (h : ForceDirtyHistory) (v : Nat) : v ∈ h.restrictedRange v := by
  refine ⟨?_, boundsRev_end_gt (by simp)⟩
  have h2 := @boundsRev_begin_le h.versions.reverse none v
  cases hb : (boundsRev v none h.versions.reverse).1 with
  | none => simp [restrictedRange, hb]
  | some b => simpa [restrictedRange, hb] using h2 b hb

theorem boundsRev_end_mem : ∀ e ∈ (boundsRev version endAt ds).2, e ∈ endAt ∨ e ∈ ds := by
  fun_induction boundsRev version endAt ds with
  | case1 endAt | case2 endAt d ds hd => exact fun e he => .inl he
  | case3 endAt d ds hd ih =>
    intro e he
    rcases ih e he with h | h
    · rw [Option.mem_some_iff] at h
      exact .inr (h ▸ mem_cons_self)
    · exact .inr (mem_cons_of_mem _ h)

theorem restrictedRange_end_mem {v e : Nat}
    (he : e ∈ (h.restrictedRange v).endAt) : e ∈ h.versions := by
  simpa using (boundsRev_end_mem e he).resolve_left (by simp)

theorem restrictedRange_begin_le (h : ForceDirtyHistory) (v : Nat) :
    (h.restrictedRange v).begin ≤ v := (h.mem_restrictedRange_self v).1

end ForceDirtyHistory

/-! ## Results of the graph -/

/-- A computed value with the versions at which it is known to be valid. -/
structure DiceComputedValue (V : Type) where
  value : V
  versions : VersionRanges
  deriving DecidableEq

/-- `VersionedGraphResultMismatch`. -/
structure Mismatch (K V : Type) where
  entry : V
  prevVerifiedVersion : Nat
  depsToValidate : SeriesParallelDeps K
  deriving DecidableEq

/-- What a lookup answers. -/
inductive VersionedGraphResult (K V : Type) where
  | matched (value : DiceComputedValue V)
  | matchPagedOut (dataKey : Nat) (versions : VersionRanges)
  | checkDeps (mismatch : Mismatch K V)
  | checkDepsPagedOut (dataKey prevVerifiedVersion : Nat) (depsToValidate : SeriesParallelDeps K)
  | compute
  | rejected
  deriving DecidableEq

/-- `InvalidateResult`: the drained reverse dependencies of a node that changed. -/
inductive InvalidateResult (K : Type) where
  | noChange
  | changed (rdeps : Option (List K))

/-- How much a change counts. -/
inductive InvalidationSourcePriority where
  | ignored
  | normal
  | high
  deriving DecidableEq, Repr

/-! ## Occupied nodes -/

/-- `PagableNodeValue`: at least one of the value and its key on disk is present. -/
inductive PagableNodeValue (V : Type) where
  | resident (value : V) (dataKey : Option Nat)
  | pagedOut (dataKey : Nat)

def PagableNodeValue.hydrated (value : V) : PagableNodeValue V := .resident value none

def PagableNodeValue.asHydrated : PagableNodeValue V → Option V
  | .resident value _ => some value
  | .pagedOut _ => none

def PagableNodeValue.dataKey : PagableNodeValue V → Option Nat
  | .resident _ dataKey => dataKey
  | .pagedOut dataKey => some dataKey

@[simp] theorem PagableNodeValue.asHydrated_hydrated (x : V) :
    (PagableNodeValue.hydrated x).asHydrated = some x := rfl

/-- `OccupiedGraphNode`, with the fields of its `NodeMetadata`. -/
structure OccupiedGraphNode (K V : Type) where
  res : PagableNodeValue V
  deps : SeriesParallelDeps K
  rdeps : LazyDepsSet K
  verifiedRanges : VersionRanges
  dirtiedHistory : ForceDirtyHistory

namespace OccupiedGraphNode

def new (value : V) (deps : SeriesParallelDeps K) (verifiedRanges : VersionRanges)
    (dirtiedHistory : ForceDirtyHistory) : OccupiedGraphNode K V :=
  ⟨.hydrated value, deps, .new, verifiedRanges, dirtiedHistory⟩

variable (n : OccupiedGraphNode K V)

def shouldAddRdepAt (v : Nat) : Bool :=
  match n.verifiedRanges.last with
  | some last => if v < last.begin then false else last.endAt.isNone
  | none => true

def everValidAfter (v : Nat) : Bool :=
  match n.verifiedRanges.last with
  | some last => match last.endAt with
    | some e => decide (v < e)
    | none => true
  | none => false

/-- The valid versions that a result at `v` adds: those of the deps, cut at the force-dirtied
versions, and `v` itself. -/
def addedRanges (h : ForceDirtyHistory) (v : Nat) (validDeps : VersionRanges) : VersionRanges :=
  (validDeps.intersectRange (h.restrictedRange v)).1.insert (.single v)

def markUnchanged (v : Nat) (validDeps : VersionRanges) : OccupiedGraphNode K V :=
  let validDeps := addedRanges n.dirtiedHistory v validDeps
  if validDeps.isEmpty then n
  else { n with verifiedRanges := n.verifiedRanges.union validDeps }

/-- `OccupiedGraphNode::rehydrate`: the key on disk stays valid. -/
def rehydrate (value : V) : OccupiedGraphNode K V :=
  { n with res := .resident value n.res.dataKey }

/-- `OccupiedGraphNode::set_paged_out`. -/
def setPagedOut (dataKey : Nat) : OccupiedGraphNode K V := { n with res := .pagedOut dataKey }

/-- `OccupiedGraphNode::computed_val`: panics on a paged-out value. -/
def computedVal : Option (DiceComputedValue V) :=
  n.res.asHydrated.map fun value => ⟨value, n.verifiedRanges⟩

def onInjected [DiceValue V] (n : OccupiedGraphNode K V) (v : Nat) (value : V) :
    OccupiedGraphNode K V × InvalidateResult K :=
  if n.res.asHydrated.any fun existing => DiceValue.equality existing value then (n, .noChange)
  else
    ({ n with
        res := .hydrated value
        deps := .none
        verifiedRanges := .ofRange (.beginsWith v)
        rdeps := .new }, .changed (some n.rdeps.data))

def atVersion (v : Nat) : VersionedGraphResult K V :=
  match n.verifiedRanges.findValueUpperBound v with
  | some found =>
    if found = v then
      match n.res with
      | .resident value _ => .matched ⟨value, n.verifiedRanges⟩
      | .pagedOut dataKey => .matchPagedOut dataKey n.verifiedRanges
    else if found ∈ n.dirtiedHistory.restrictedRange v then
      match n.res with
      | .resident value _ => .checkDeps ⟨value, found, n.deps⟩
      | .pagedOut dataKey => .checkDepsPagedOut dataKey found n.deps
    else .compute
  | none => .compute

def addRdepAt [DecidableEq K] (n : OccupiedGraphNode K V) (v : Nat) (k : K) :
    OccupiedGraphNode K V :=
  if n.shouldAddRdepAt v then { n with rdeps := n.rdeps.insert v k } else n

/-- `OccupiedGraphNode::mark_invalidated`, with the returned flag. -/
def markInvalidated (v : Nat) : OccupiedGraphNode K V × Bool :=
  if h : v = 0 then ({ n with verifiedRanges := .empty }, !n.verifiedRanges.isEmpty)
  else
    let cut := n.verifiedRanges.intersectRange (.bounded 0 v (Nat.pos_of_ne_zero h))
    ({ n with verifiedRanges := cut.1 }, cut.2)

def forceDirty (v : Nat) : OccupiedGraphNode K V × InvalidateResult K :=
  let cut := (n.markInvalidated v).1
  let (history, isNew) := n.dirtiedHistory.forceDirty v
  if isNew then
    ({ cut with dirtiedHistory := history, rdeps := .new }, .changed (some n.rdeps.data))
  else ({ cut with dirtiedHistory := history }, .noChange)

def isVerifiedAt (v : Nat) : Bool := n.verifiedRanges.contains v

/-! ### What the operations do -/

/-- `n'` is `n` invalidated at `v`: its verified versions below `v` remain. -/
structure Cut (v : Nat) (n n' : OccupiedGraphNode K V) : Prop where
  res : n'.res = n.res
  deps : n'.deps = n.deps
  history : n'.dirtiedHistory = n.dirtiedHistory
  ranges : ∀ u, u ∈ n'.verifiedRanges ↔ u ∈ n.verifiedRanges ∧ u < v

theorem markInvalidated_cut (v : Nat) :
    Cut v n (n.markInvalidated v).1 ∧ (n.markInvalidated v).1.rdeps = n.rdeps := by
  unfold markInvalidated
  split
  · next h => exact ⟨⟨rfl, rfl, rfl, by simp [h]⟩, rfl⟩
  · exact ⟨⟨rfl, rfl, rfl, by simp⟩, rfl⟩

variable {n : OccupiedGraphNode K V} {v : Nat}

theorem markInvalidated_eq_of_false (h : (n.markInvalidated v).2 = false) :
    (n.markInvalidated v).1 = n := by
  unfold markInvalidated at h ⊢
  split
  · next hv =>
    simp only [hv, dif_pos, Bool.not_eq_false', VersionRanges.isEmpty, List.isEmpty_iff] at h
    obtain ⟨res, deps, rdeps, ⟨ranges, hc⟩, history⟩ := n
    subst h
    rfl
  · next hv =>
    simp only [hv, dif_neg, not_false_eq_true] at h
    have hr := intersectRange_eq_of_false h
    simp only [hr]

theorem everValidAfter_of_unbounded (h : n.verifiedRanges.Unbounded) : n.everValidAfter v := by
  obtain ⟨last, hl, he⟩ := h
  simp [everValidAfter, hl, he]

@[simp] theorem mem_addedRanges :
    u ∈ addedRanges h v validDeps ↔ (u ∈ validDeps ∧ u ∈ h.restrictedRange v) ∨ u = v := by
  simp [addedRanges]

theorem mem_markUnchanged : u ∈ (n.markUnchanged v validDeps).verifiedRanges ↔
      u ∈ n.verifiedRanges ∨ u ∈ addedRanges n.dirtiedHistory v validDeps := by
  unfold markUnchanged
  dsimp only
  split
  · next he =>
    have : ¬ u ∈ addedRanges n.dirtiedHistory v validDeps := by
      simp only [VersionRanges.isEmpty, List.isEmpty_iff] at he
      simp [mem_def, he]
    simp [this]
  · simp

theorem markUnchanged_fields (n : OccupiedGraphNode K V) (validDeps : VersionRanges) :
    (n.markUnchanged v validDeps).res = n.res ∧ (n.markUnchanged v validDeps).deps = n.deps ∧
      (n.markUnchanged v validDeps).rdeps = n.rdeps ∧
      (n.markUnchanged v validDeps).dirtiedHistory = n.dirtiedHistory := by
  unfold markUnchanged
  dsimp only
  split <;> exact ⟨rfl, rfl, rfl, rfl⟩

theorem everValidAfter_of_mem (hv : v ∈ n.verifiedRanges) : n.everValidAfter v := by
  obtain ⟨r, hr, he⟩ := exists_last_of_mem hv
  unfold everValidAfter
  rw [hr]
  cases hend : r.endAt with
  | none => simp [hend]
  | some e => simpa [hend] using he e hend

/-- A match hands out the stored value at a verified version. -/
theorem atVersion_matched {c : DiceComputedValue V} (h : n.atVersion v = .matched c) :
    v ∈ n.verifiedRanges ∧ n.res.asHydrated = some c.value ∧ c.versions = n.verifiedRanges := by
  unfold atVersion at h
  split at h
  · next found hf =>
    split at h
    · next hv =>
      subst hv
      refine ⟨findValueUpperBound_eq_self.mp hf, ?_⟩
      split at h
      · next value dataKey hres => cases h; exact ⟨by rw [hres]; rfl, rfl⟩
      · cases h
    · split at h
      · split at h <;> cases h
      · cases h
  · cases h

theorem atVersion_of_mem {x : V} (hv : v ∈ n.verifiedRanges) (hx : n.res.asHydrated = some x) :
    n.atVersion v = .matched ⟨x, n.verifiedRanges⟩ := by
  unfold atVersion
  rw [findValueUpperBound_eq_self.mpr hv]
  cases hr : n.res with
  | resident value dataKey =>
    rw [hr] at hx
    cases hx
    simp
  | pagedOut dataKey => rw [hr] at hx; cases hx

/-- A mismatch hands out the stored value, last verified before and not force-dirtied since. -/
theorem atVersion_checkDeps {m : Mismatch K V} (h : n.atVersion v = .checkDeps m) :
    m.prevVerifiedVersion ∈ n.verifiedRanges ∧ m.prevVerifiedVersion ≤ v ∧
      m.prevVerifiedVersion ∈ n.dirtiedHistory.restrictedRange v ∧
      n.res.asHydrated = some m.entry ∧ m.depsToValidate = n.deps := by
  unfold atVersion at h
  split at h
  · next found hf =>
    split at h
    · split at h <;> cases h
    · split at h
      · next hr =>
        obtain ⟨hmem, hle⟩ := findValueUpperBound_some hf
        split at h
        · next value dataKey hres => cases h; exact ⟨hmem, hle, hr, by rw [hres]; rfl, rfl⟩
        · cases h
      · cases h
  · cases h

end OccupiedGraphNode

/-! ## Vacant and injected nodes -/

/-- A node without a value. -/
structure VacantGraphNode where
  dirtiedHistory : ForceDirtyHistory
  invalidationPriority : InvalidationSourcePriority

/-- `VacantGraphNode::force_dirty`: the assertion on the priority may fail. -/
def VacantGraphNode.forceDirty (n : VacantGraphNode) (v : Nat) (p : InvalidationSourcePriority) :
    Option (VacantGraphNode × Bool) :=
  if n.invalidationPriority = p then
    let (history, isNew) := n.dirtiedHistory.forceDirty v
    some ({ n with dirtiedHistory := history }, isNew)
  else none

/-- A value with its versions. -/
structure InjectedNodeData (V : Type) where
  value : V
  firstValidVersion : Nat
  validVersions : VersionRanges

/-- `InjectedGraphNode`: every injected value, by version. -/
structure InjectedGraphNode (K V : Type) where
  values : List (Nat × InjectedNodeData V)
  rdeps : LazyDepsSet K

namespace InjectedGraphNode

def newNodeData (value : V) (v : Nat) : InjectedNodeData V := ⟨value, v, .ofRange (.beginsWith v)⟩

def new (v : Nat) (value : V) : InjectedGraphNode K V := ⟨[(v, newNodeData value v)], .new⟩

/-- `SortedVectorMap::insert`. -/
def sortedInsert (v : Nat) (data : InjectedNodeData V) :
    List (Nat × InjectedNodeData V) → List (Nat × InjectedNodeData V)
  | [] => [(v, data)]
  | (w, d) :: rest =>
    if v < w then (v, data) :: (w, d) :: rest
    else if v = w then (v, data) :: rest
    else (w, d) :: sortedInsert v data rest

def dataAt (n : InjectedGraphNode K V) (v : Nat) : Option (InjectedNodeData V) :=
  ((n.values.filter fun entry => decide (entry.1 ≤ v)).getLast?).map Prod.snd

def onInjected [DiceValue V] (n : InjectedGraphNode K V) (v : Nat) (value : V) :
    Option (InjectedGraphNode K V × InvalidateResult K) :=
  match n.values.getLast? with
  | some (w, latest) =>
    if DiceValue.equality latest.value value then some (n, .noChange)
    else if h : latest.firstValidVersion < v then
      let closed := { latest with validVersions := .ofRange (.bounded _ v h) }
      some (⟨sortedInsert v (newNodeData value v) (n.values.dropLast ++ [(w, closed)]), .new⟩,
        .changed (some n.rdeps.data))
    else none
  | none => some (⟨sortedInsert v (newNodeData value v) n.values, .new⟩,
      .changed (some n.rdeps.data))

def atVersion (n : InjectedGraphNode K V) (v : Nat) : VersionedGraphResult K V :=
  match n.dataAt v with
  | some data => .matched ⟨data.value, data.validVersions⟩
  | none => .compute

def addRdepAt [DecidableEq K] (n : InjectedGraphNode K V) (v : Nat) (k : K) :
    Option (InjectedGraphNode K V) :=
  if n.values.any fun entry => decide (entry.1 ≤ v) then
    some { n with rdeps := n.rdeps.insert v k }
  else none

/-! ### The values of an injected node -/

/-- The shape of the injected values: each is valid from its version to the next one, the last one
from its version on. -/
def ValuesOk : List (Nat × InjectedNodeData V) → Prop
  | [] => False
  | [(w, d)] => d.firstValidVersion = w ∧ d.validVersions = .ofRange (.beginsWith w)
  | (w, d) :: (w', d') :: rest =>
    d.firstValidVersion = w ∧ (∃ h : w < w', d.validVersions = .ofRange (.bounded w w' h)) ∧
      ValuesOk ((w', d') :: rest)

/-- `data_at` on the vector of values. -/
def dataIn (values : List (Nat × InjectedNodeData V)) (v : Nat) : Option (InjectedNodeData V) :=
  ((values.filter fun entry => decide (entry.1 ≤ v)).getLast?).map Prod.snd

variable {d : InjectedNodeData V} {rest values : List (Nat × InjectedNodeData V)} {w v : Nat}

theorem ValuesOk.head_le (h : ValuesOk ((w, d) :: rest)) : ∀ e ∈ rest, w < e.1 := by
  induction rest generalizing w d with
  | nil => simp
  | cons e rest ih =>
    obtain ⟨-, ⟨hlt, -⟩, hrest⟩ := h
    rintro e (_ | ⟨_, he⟩)
    · exact hlt
    · exact hlt.trans (ih hrest e he)

theorem ValuesOk.last_first (h : ValuesOk values) (hl : values.getLast? = some (w, d)) :
    d.firstValidVersion = w ∧ d.validVersions = .ofRange (.beginsWith w) := by
  fun_induction ValuesOk values with
  | case1 => exact h.elim
  | case2 w' d' =>
    obtain ⟨rfl, rfl⟩ := hl
    exact h
  | case3 w' d' w'' d'' rest ih => exact ih h.2.2 (by simpa using hl)

theorem ValuesOk.le_last (h : ValuesOk values) (hl : values.getLast? = some (w, d)) :
    ∀ e ∈ values, e.1 ≤ w := by
  fun_induction ValuesOk values with
  | case1 => exact h.elim
  | case2 w0 d0 =>
    simp only [getLast?_singleton, Option.some.injEq, Prod.mk.injEq] at hl
    simp [hl.1]
  | case3 w0 d0 w' d' rest ih =>
    have hrest := ih h.2.2 (by simpa using hl)
    rintro e (_ | ⟨_, he⟩)
    · exact h.2.1.1.le.trans (hrest _ mem_cons_self)
    · exact hrest e he

theorem dataIn_singleton :
    dataIn [(w, d)] v = if w ≤ v then some d else none := by
  by_cases h : w ≤ v <;> simp [dataIn, h]

theorem dataIn_cons {w' : Nat} {d' : InjectedNodeData V}
    (h : ValuesOk ((w, d) :: (w', d') :: rest)) :
    dataIn ((w, d) :: (w', d') :: rest) v =
      if w' ≤ v then dataIn ((w', d') :: rest) v else if w ≤ v then some d else none := by
  have hlt : w < w' := h.2.1.1
  by_cases hv : w' ≤ v
  · have hw : w ≤ v := (hlt.trans_le hv).le
    simp [dataIn, hv, hw]
  · -- no later value is at most `v`
    have hnil : (((w', d') :: rest).filter fun entry => decide (entry.1 ≤ v)) = [] := by
      rw [filter_eq_nil_iff]
      rintro e (_ | ⟨_, he⟩)
      · simpa using hv
      · have := h.2.2.head_le e he
        simp only [decide_eq_true_eq]
        omega
    by_cases hw : w ≤ v
    · rw [dataIn, filter_cons_of_pos (by simpa using hw), hnil]
      simp [hv, hw]
    · rw [dataIn, filter_cons_of_neg (by simpa using hw), hnil]
      simp [hv, hw]

/-- Exactly the versions of a value's range are answered with it. -/
theorem dataIn_spec (h : ValuesOk values) {data : InjectedNodeData V}
    (hd : dataIn values v = some data) :
    v ∈ data.validVersions ∧ (u ∈ data.validVersions → dataIn values u = some data) := by
  fun_induction ValuesOk values with
  | case1 => exact h.elim
  | case2 w d =>
    obtain ⟨-, hvalid⟩ := h
    rw [dataIn_singleton] at hd ⊢
    split at hd
    · next hw =>
      cases hd
      rw [hvalid]
      exact ⟨by simpa using hw, fun hu => if_pos (by simpa using hu)⟩
    · cases hd
  | case3 w d w' d' rest ih =>
    have hd' := hd
    rw [dataIn_cons h] at hd' ⊢
    obtain ⟨-, ⟨hlt, hvalid⟩, hrest⟩ := h
    split at hd'
    · next hw' =>
      obtain ⟨h1, h2⟩ := ih hrest hd'
      refine ⟨h1, fun hu => ?_⟩
      have h3 := h2 hu
      rw [if_pos, h3]
      by_contra hlt'
      obtain ⟨e, he, -⟩ := Option.map_eq_some_iff.mp h3
      obtain ⟨he, hle⟩ := mem_filter.mp (mem_of_getLast? he)
      rw [decide_eq_true_eq] at hle
      rcases mem_cons.mp he with rfl | he
      · exact hlt' hle
      · exact hlt' ((hrest.head_le e he).le.trans hle)
    · next hw' =>
      split at hd'
      · next hw =>
        cases hd'
        rw [hvalid]
        refine ⟨by simp; omega, fun hu => ?_⟩
        simp only [mem_ofRange, VersionRange.mem_bounded] at hu
        rw [if_neg (by omega), if_pos hu.1]
      · cases hd'

/-- Closing the last value at `v` and inserting the next one. -/
theorem sortedInsert_spec (hok : ValuesOk values) (hlast : values.getLast? = some (w, d))
    (hlt : d.firstValidVersion < v) (x : V) :
    let values' := sortedInsert v (newNodeData x v)
      (values.dropLast ++ [(w, { d with validVersions := .ofRange (.bounded _ v hlt) })])
    ValuesOk values' ∧ (∀ e ∈ values', e.1 = v ∨ ∃ e0 ∈ values, e.1 = e0.1) ∧
      (values'.head?.map Prod.fst = values.head?.map Prod.fst) ∧
      ∀ u, (dataIn values' u).map InjectedNodeData.value =
        if v ≤ u then some x else (dataIn values u).map InjectedNodeData.value := by
  fun_induction ValuesOk values with
  | case1 => exact hok.elim
  | case2 w0 d0 =>
    obtain ⟨hfirst, hvalid⟩ := hok
    simp only [getLast?_singleton, Option.some.injEq, Prod.mk.injEq] at hlast
    obtain ⟨rfl, rfl⟩ := hlast
    subst hfirst
    have hne : ¬ v < d0.firstValidVersion := by omega
    have hne' : ¬ v = d0.firstValidVersion := by omega
    have hok' : ValuesOk [(d0.firstValidVersion,
        ({ d0 with validVersions := .ofRange (.bounded _ v hlt) } : InjectedNodeData V)),
        (v, newNodeData x v)] := ⟨rfl, ⟨hlt, rfl⟩, rfl, rfl⟩
    simp only [dropLast_singleton, nil_append, sortedInsert, hne, hne', if_false]
    refine ⟨hok', by simp, rfl, fun u => ?_⟩
    rw [dataIn_cons hok', dataIn_singleton, dataIn_singleton]
    split
    · rfl
    · split <;> rfl
  | case3 w0 d0 w' d' rest ih =>
    have hokall := hok
    obtain ⟨hfirst, ⟨hww, hvalid⟩, hrest⟩ := hok
    have hlast' : ((w', d') :: rest).getLast? = some (w, d) := by
      simpa using hlast
    obtain ⟨h1, h2, h3, h4⟩ := ih hrest hlast'
    -- the first value lies below the last one
    have hwv : w' ≤ d.firstValidVersion := by
      have hmem := mem_of_getLast? hlast'
      have hfv : d.firstValidVersion = w := (hrest.last_first hlast').1
      rcases mem_cons.mp hmem with he | he
      · cases he; exact hfv.ge
      · have := hrest.head_le _ he
        omega
    have hne : ¬ v < w0 := by omega
    have hne' : ¬ v = w0 := by omega
    rw [dropLast_cons_cons, cons_append, sortedInsert, if_neg hne, if_neg hne']
    set tail := sortedInsert v (newNodeData x v) (((w', d') :: rest).dropLast ++
      [(w, { d with validVersions := .ofRange (.bounded _ v hlt) })]) with htail
    cases ht : tail with
    | nil => rw [ht] at h1; exact h1.elim
    | cons e'' tail' =>
      obtain ⟨w'', d''⟩ := e''
      rw [ht] at h1 h2 h3 h4
      simp only [head?_cons, Option.map_some, Option.some.injEq] at h3
      subst h3
      have hok' : ValuesOk ((w0, d0) :: (w'', d'') :: tail') := ⟨hfirst, ⟨hww, hvalid⟩, h1⟩
      refine ⟨hok', ?_, rfl, fun u => ?_⟩
      · rintro e (_ | ⟨_, he⟩)
        · exact .inr ⟨(w0, d0), mem_cons_self, rfl⟩
        · rcases h2 e he with h | ⟨e0, he0, h⟩
          · exact .inl h
          · exact .inr ⟨e0, mem_cons_of_mem _ he0, h⟩
      · rw [dataIn_cons hok', dataIn_cons hokall]
        by_cases hu : w'' ≤ u
        · simp only [hu, if_true]
          exact h4 u
        · have hvu : ¬ v ≤ u := by omega
          simp only [hu, hvu, if_false]

end InjectedGraphNode

/-! ## Nodes -/

/-- When a stored value is reused. -/
inductive ValueReusable where
  | equalityBased
  | versionBased (v : Nat)

def ValueReusable.isReusable [DecidableEq K] [DiceValue V] (r : ValueReusable) (newValue : V)
    (newDeps : SeriesParallelDeps K) (n : OccupiedGraphNode K V) : Bool :=
  match r with
  | .equalityBased =>
    decide (newDeps = n.deps) &&
      n.res.asHydrated.any fun value => DiceValue.equality newValue value
  | .versionBased v => n.isVerifiedAt v

/-- A node of the graph. -/
inductive VersionedGraphNode (K V : Type) where
  | occupied (n : OccupiedGraphNode K V)
  | injected (n : InjectedGraphNode K V)
  | vacant (n : VacantGraphNode)

namespace VersionedGraphNode

variable (n : VersionedGraphNode K V)

def forceDirty (v : Nat) (p : InvalidationSourcePriority) :
    Option (VersionedGraphNode K V × InvalidateResult K) :=
  match n with
  | .occupied e => some (.occupied (e.forceDirty v).1, (e.forceDirty v).2)
  | .vacant e => do
    let (e, isNew) ← e.forceDirty v p
    some (.vacant e, if isNew then .changed none else .noChange)
  | .injected _ => none

def markInvalidated (v : Nat) : Option (VersionedGraphNode K V × InvalidateResult K) :=
  match n with
  | .occupied e =>
    if (e.markInvalidated v).2 then
      some (.occupied { (e.markInvalidated v).1 with rdeps := .new },
        .changed (some e.rdeps.data))
    else some (.occupied (e.markInvalidated v).1, .noChange)
  | .vacant _ => none
  | .injected _ => none

def atVersion (v : Nat) : VersionedGraphResult K V :=
  match n with
  | .occupied e => e.atVersion v
  | .vacant _ => .compute
  | .injected e => e.atVersion v

def addRdepAt [DecidableEq K] (n : VersionedGraphNode K V) (v : Nat) (k : K) :
    Option (VersionedGraphNode K V) :=
  match n with
  | .occupied e => some (.occupied (e.addRdepAt v k))
  | .injected e => do
    let e ← e.addRdepAt v k
    some (.injected e)
  | .vacant _ => none

def onInjected [DiceValue V] (n : VersionedGraphNode K V) (v : Nat) (value : V) :
    Option (VersionedGraphNode K V × InvalidateResult K) :=
  match n with
  | .occupied e => some (.occupied (e.onInjected v value).1, (e.onInjected v value).2)
  | .injected e => do
    let (e, res) ← e.onInjected v value
    some (.injected e, res)
  | .vacant e =>
    some (.occupied (.new value .none (.ofRange (.beginsWith v)) e.dirtiedHistory), .changed none)

/-- The end of `on_computed`, when the stored value is not reused. -/
def replaceValue (h : ForceDirtyHistory) (overwrite : Bool) (v : Nat)
    (value : V) (validDeps : VersionRanges) (deps : SeriesParallelDeps K) :
    VersionedGraphNode K V × DiceComputedValue V :=
  let ranges := OccupiedGraphNode.addedRanges h v validDeps
  (if overwrite then .occupied (.new value deps ranges h) else n, ⟨value, ranges⟩)

/-- `VersionedGraphNode::on_computed`.  The flag it returns is ignored by its caller. -/
def onComputed [DecidableEq K] [DiceValue V] (n : VersionedGraphNode K V) (v : Nat) (value : V)
    (validDeps : VersionRanges) (reusable : ValueReusable) (deps : SeriesParallelDeps K) :
    Option (VersionedGraphNode K V × DiceComputedValue V) :=
  match n with
  | .occupied e =>
    if reusable.isReusable value deps e then do
      let e := e.markUnchanged v validDeps
      let ret ← e.computedVal
      some (.occupied e, ret)
    else some (n.replaceValue e.dirtiedHistory (!e.everValidAfter v) v value validDeps deps)
  | .vacant e => some (n.replaceValue e.dirtiedHistory true v value validDeps deps)
  | .injected _ => none

/-- `VersionedGraphNode::valid_versions_at`: the outer `Option` is the panic. -/
def validVersionsAt (v : Nat) : Option (Option VersionRanges) :=
  match n with
  | .occupied e => some (if e.verifiedRanges.contains v then some e.verifiedRanges else none)
  | .injected e => do
    let data ← e.dataAt v
    some (some data.validVersions)
  | .vacant _ => none

def intersectValidVersionsAt (v : Nat) (ranges : VersionRanges) : Option VersionRanges := do
  match ← n.validVersionsAt v with
  | none => some .empty
  | some valid => some (ranges.intersectInPlace valid)

end VersionedGraphNode

end Bz.Dice
