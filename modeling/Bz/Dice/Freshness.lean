import Bz.Dice.Evolution

/-!
# Requests around a rewind

Computations at one activation of a version: requests go through the shared cache and are answered
from it, join the task that is running, or spawn a worker, whose first step is a lookup
(`SharedLiveTransactionCtx::compute_opaque` of `dice/src/impls/ctx.rs` and
`DiceTaskWorker::do_work` of `dice/src/impls/worker.rs`).  Any check of deps may succeed or fail,
and an evaluation may end with any value.  The rewinds of each key, the values of computations and
the requests are a record that no step reads.

A worker whose key is rewound while it runs is detached from the cache, but its report is recorded
in the graph all the same (`detached_report_answers`).

Principal result: `rewind_freshness`: as long as such reports only come when the key was already
computed again, a request after a rewind gets the value of a computation that started after it.
-/

namespace Bz.Dice

open VersionedGraph Machine SharedCache List Option List.Subset OccupiedGraphNode

variable {K V : Type} [DecidableEq K] {k : K} {t : TaskId} {reusable : ValueReusable}

/-- Where a worker is, and how often the key had been rewound when it got there. -/
inductive Phase (K V : Type) where
  | spawned
  | checking (mismatch : Mismatch K V) (since : Nat)
  | computing (since : Nat)
  | finished (value : DiceComputedValue V)
  | cancelled

/-- A worker, and how often its key had been rewound when it was spawned. -/
structure Worker (K V : Type) where
  key : K
  spawnedAt : Nat
  phase : Phase K V

/-- What a request got: a value, or a task to wait for. -/
inductive Promise (V : Type) where
  | ready (value : DiceComputedValue V)
  | pending (task : TaskId)

/-- The computations at one activation of a version. -/
structure Session (K V : Type) where
  core : CoreState K V
  tasks : List (Worker K V)
  rewinds : K → Nat
  produced : List (K × Nat × V)
  requests : List (K × Nat × Promise V)

/-- What can happen in a session. -/
inductive Event (K V : Type) where
  | request (key : K)
  | lookup (task : TaskId)
  | depsChanged (task : TaskId)
  | depsMatch (task : TaskId)
  | finish (task : TaskId) (value : V) (deps : SeriesParallelDeps K)
  | finishTransient (task : TaskId) (value : V)
  | cancel (task : TaskId)
  | rewind (keys : List K)

namespace Session

/-- The session of a version that was just activated. -/
def start (core : CoreState K V) : Session K V := ⟨core, [], fun _ => 0, [], []⟩

/-- `DiceTask::get_finished_value`. -/
def finished (s : Session K V) (t : TaskId) : Option (DiceComputedValue V) :=
  match s.tasks[t]? with
  | some ⟨_, _, .finished r⟩ => some r
  | _ => none

section

variable (s : Session K V)

/-- What a request is answered with, if it is. -/
def answer : Promise V → Option V
  | .ready r => some r.value
  | .pending t => (s.finished t).map DiceComputedValue.value

def isCancelled (t : TaskId) : Bool :=
  match s.tasks[t]? with
  | some ⟨_, _, .cancelled⟩ => true
  | _ => false

def setCore (core : CoreState K V) : Session K V := { s with core := core }

/-- The worker goes on to another phase. -/
def setPhase (t : TaskId) (w : Worker K V) (phase : Phase K V) : Session K V :=
  { s with tasks := s.tasks.set t { w with phase := phase } }

def logRequest (k : K) (p : Promise V) : Session K V :=
  { s with requests := (k, s.rewinds k, p) :: s.requests }

/-- The computation of a key that started after `since` rewinds ended with this value. -/
def logValue (k : K) (since : Nat) (x : V) : Session K V :=
  { s with produced := (k, since, x) :: s.produced }

/-- A new task is put into the cache and the request waits for it. -/
def spawn (v : Nat) (cache : SharedCache K V) (k : K) : Session K V :=
  logRequest
    { s with
      core := ⟨s.core.versionTracker.setCache v (cache.insertTask k s.tasks.length), s.core.graph⟩
      tasks := s.tasks ++ [⟨k, s.rewinds k, .spawned⟩] } k (.pending s.tasks.length)

/-- `SharedLiveTransactionCtx::compute_opaque`. -/
def request (v : Nat) (epoch : VersionEpoch) (k : K) : Option (Session K V) := do
  let cache ← s.core.versionTracker.cacheIfRelevant v epoch
  let (ref, cache) ← cache.get s.finished k
  match ref with
  | .computed r =>
    some ((s.setCore ⟨s.core.versionTracker.setCache v cache, s.core.graph⟩).logRequest k
      (.ready r))
  | .occupied t => some (if s.isCancelled t then s.spawn v cache k else s.logRequest k (.pending t))
  | .vacant => some (s.spawn v cache k)
  | .transactionCancelled => some s

/-- The first step of a worker. -/
def lookup (v : Nat) (t : TaskId) (w : Worker K V) : Option (Session K V) :=
  match s.core.lookupKey w.key v with
  | .matched r => some (s.setPhase t w (.finished r))
  | .checkDeps m => some (s.setPhase t w (.checking m (s.rewinds w.key)))
  | .compute => some (s.setPhase t w (.computing (s.rewinds w.key)))
  | .rejected => some (s.setPhase t w .cancelled)
  | _ => none

/-- The core state answers a report of a worker. -/
def reported (t : TaskId) (w : Worker K V) :
    CoreState K V × Except CancellationReason (DiceComputedValue V) → Session K V
  | (core, .ok ret) => (s.setCore core).setPhase t w (.finished ret)
  | (core, .error _) => (s.setCore core).setPhase t w .cancelled

/-- One step of a worker. -/
def work [DiceValue V] (v : Nat) (epoch : VersionEpoch) (t : TaskId) (w : Worker K V) :
    Event K V → Option (Session K V)
  | .lookup _ => match w.phase with
    | .spawned => s.lookup v t w
    | _ => none
  | .depsChanged _ => match w.phase with
    | .checking _ _ => some (s.setPhase t w (.computing (s.rewinds w.key)))
    | _ => none
  | .depsMatch _ => match w.phase with
    | .checking m _ =>
      (s.core.updateMismatchAsUnchanged w.key v epoch .normal m).map (s.reported t w)
    | _ => none
  | .finish _ x deps => match w.phase with
    | .computing since =>
      (s.core.updateComputed w.key v epoch .normal x .equalityBased deps).map
        ((s.logValue w.key since x).reported t w)
    | _ => none
  | .finishTransient _ x => match w.phase with
    | .computing since =>
      some ((s.logValue w.key since x).setPhase t w
        (.finished ⟨x, .ofRange (.beginsWith v)⟩))
    | _ => none
  | .cancel _ => match w.phase with
    | .finished _ => none
    | _ => some (s.setPhase t w .cancelled)
  | _ => none

end

/-- The keys are rewound, and those that are not injected counted. -/
def rewind [DiceValue V] (s : Session K V) (v : Nat) (epoch : VersionEpoch) (keys : List K) :
    Option (Session K V) :=
  (s.core.rewind keys v epoch).map fun core =>
    { s with
      core := core
      rewinds := fun k =>
        if k ∈ keys ∧ ¬ s.core.graph.IsInjected k then s.rewinds k + 1 else s.rewinds k }

end Session

/-- The worker that takes the step. -/
def Event.task : Event K V → Option TaskId
  | .lookup t => some t
  | .depsChanged t => some t
  | .depsMatch t => some t
  | .finish t _ _ => some t
  | .finishTransient t _ => some t
  | .cancel t => some t
  | _ => none

namespace Session

def step [DiceValue V] (v : Nat) (epoch : VersionEpoch) (s : Session K V) (e : Event K V) :
    Option (Session K V) :=
  match e with
  | .request k => s.request v epoch k
  | .rewind keys => s.rewind v epoch keys
  | e => do
    let t ← e.task
    let w ← s.tasks[t]?
    s.work v epoch t w e

/-- A worker is in time if its key was not rewound since it started to check or to compute, or is
verified again already. -/
def InTime (v : Nat) (s : Session K V) (w : Worker K V) : Prop :=
  match w.phase with
  | .checking _ since => since = s.rewinds w.key ∨ s.core.graph.VerifiedAt v w.key
  | .computing since => since = s.rewinds w.key ∨ s.core.graph.VerifiedAt v w.key
  | _ => True

instance (v : Nat) (s : Session K V) (w : Worker K V) : Decidable (s.InTime v w) := by
  unfold InTime
  split <;> infer_instance

/-- Reports to the graph come in time. -/
def ReportsInTime (v : Nat) (s : Session K V) : Event K V → Prop
  | .depsMatch t => ∀ w ∈ s.tasks[t]?, s.InTime v w
  | .finish t _ _ => ∀ w ∈ s.tasks[t]?, s.InTime v w
  | _ => True

instance (v : Nat) (s : Session K V) (e : Event K V) : Decidable (s.ReportsInTime v e) := by
  unfold ReportsInTime
  split <;> infer_instance

end Session

/-! ## The invariant -/

/-- A computation of the key that started after `n` rewinds of it gave this value. -/
def Fresh (produced : List (K × Nat × V)) (k : K) (n : Nat) (x : V) : Prop :=
  ∃ since, n ≤ since ∧ (k, since, x) ∈ produced

omit [DecidableEq K] in
theorem Fresh.mono {produced produced' : List (K × Nat × V)} {n n' : Nat} {x : V}
    (h : Fresh produced k n x) (hsub : produced ⊆ produced') (hn : n' ≤ n) :
    Fresh produced' k n' x := by
  obtain ⟨since, hle, hmem⟩ := h
  exact ⟨since, hn.trans hle, hsub hmem⟩

/-- The task exists and was spawned for the key after at least `n` rewinds of it. -/
def SpawnedSince (tasks : List (Worker K V)) (k : K) (n : Nat) (t : TaskId) : Prop :=
  ∃ w, tasks[t]? = some w ∧ w.key = k ∧ n ≤ w.spawnedAt

/-- A rewound key is overlaid with nothing or with a fresh value, and the running tasks were spawned
after the last rewind of their key. -/
structure CacheFresh (s : Session K V) (cache : SharedCache K V) : Prop where
  overlay : ∀ k, 0 < s.rewinds k → ∃ o, cache.tryGetRewound k = some o ∧
    ∀ r ∈ o, Fresh s.produced k (s.rewinds k) r.value
  storage : ∀ k t, cache.storage.lookup k = some t → SpawnedSince s.tasks k (s.rewinds k) t

/-- A rewound key is force-dirtied at the version, and its node, if it answers, does so with a fresh
value. -/
structure NodeFresh (v : Nat) (s : Session K V) (k : K) : Prop where
  notInjected : ∀ o, s.core.graph.node k ≠ some (.injected o)
  dirtied : (historyOf (s.core.graph.node k)).versions.getLast? = some v
  value : ∀ r, s.core.graph.get k v = .matched r → Fresh s.produced k (s.rewinds k) r.value

/-- A worker of a key that was rewound before it was spawned computes, and finishes with a fresh
value. -/
structure WorkerFresh (s : Session K V) (w : Worker K V) : Prop where
  spawned : w.spawnedAt ≤ s.rewinds w.key
  checking : ∀ m since, w.phase = .checking m since → since = 0 ∧ w.spawnedAt = 0
  computing : ∀ since, w.phase = .computing since → w.spawnedAt ≤ since
  finished : ∀ r, w.phase = .finished r → 0 < w.spawnedAt →
    Fresh s.produced w.key w.spawnedAt r.value

/-- A request made after a rewind got a fresh value, or a task that will give one. -/
def RequestFresh (s : Session K V) (e : K × Nat × Promise V) : Prop :=
  match e.2.2 with
  | .ready r => 0 < e.2.1 → Fresh s.produced e.1 e.2.1 r.value
  | .pending t => SpawnedSince s.tasks e.1 e.2.1 t

/-- The invariant of a session. -/
structure SessionFresh (v : Nat) (epoch : VersionEpoch) (s : Session K V) : Prop where
  cache : ∃ cache, s.core.versionTracker.cacheIfRelevant v epoch = some cache ∧ CacheFresh s cache
  nodes : ∀ k, 0 < s.rewinds k → NodeFresh v s k
  workers : ∀ w ∈ s.tasks, WorkerFresh s w
  requests : ∀ e ∈ s.requests, RequestFresh s e

/-! ## Sessions that only learn more -/

/-- The tasks are still there, for the same keys. -/
def Carries (tasks tasks' : List (Worker K V)) : Prop :=
  ∀ (t : TaskId) (w : Worker K V), tasks[t]? = some w →
    ∃ w', tasks'[t]? = some w' ∧ w'.key = w.key ∧ w'.spawnedAt = w.spawnedAt

omit [DecidableEq K] in
theorem Carries.refl (tasks : List (Worker K V)) : Carries tasks tasks :=
  fun _ w hw => ⟨w, hw, rfl, rfl⟩

omit [DecidableEq K] in
theorem Carries.set {tasks : List (Worker K V)} {w : Worker K V}
    (hw : tasks[t]? = some w) (phase : Phase K V) :
    Carries tasks (tasks.set t { w with phase := phase }) := by
  intro t' w' hw'
  by_cases heq : t = t'
  · subst heq
    rw [hw] at hw'
    cases hw'
    exact ⟨_, getElem?_set_self (List.getElem?_eq_some_iff.mp hw).1, rfl, rfl⟩
  · exact ⟨w', by rw [getElem?_set_ne heq, hw'], rfl, rfl⟩

omit [DecidableEq K] in
theorem SpawnedSince.carry {tasks tasks' : List (Worker K V)} {n : Nat}
    (h : SpawnedSince tasks k n t) (hc : Carries tasks tasks') : SpawnedSince tasks' k n t := by
  obtain ⟨w, hw, hk, hn⟩ := h
  obtain ⟨w', hw', hk', hn'⟩ := hc t w hw
  exact ⟨w', hw', hk'.trans hk, hn.trans hn'.ge⟩

section Mono

variable {v : Nat} {s s' : Session K V}

theorem CacheFresh.mono {cache : SharedCache K V} (h : CacheFresh s cache)
    (hr : s'.rewinds = s.rewinds) (hp : s.produced ⊆ s'.produced)
    (ht : Carries s.tasks s'.tasks) : CacheFresh s' cache := by
  constructor
  · intro k hk
    rw [hr] at hk ⊢
    obtain ⟨o, ho, hfresh⟩ := h.overlay k hk
    exact ⟨o, ho, fun r hmem => (hfresh r hmem).mono hp le_rfl⟩
  · intro k t hlook
    rw [hr]
    exact (h.storage k t hlook).carry ht

theorem NodeFresh.mono (h : NodeFresh v s k) (hg : s'.core.graph = s.core.graph)
    (hr : s'.rewinds = s.rewinds) (hp : s.produced ⊆ s'.produced) : NodeFresh v s' k := by
  refine ⟨by rw [hg]; exact h.notInjected, by rw [hg]; exact h.dirtied, fun r hget => ?_⟩
  rw [hg] at hget
  rw [hr]
  exact (h.value r hget).mono hp le_rfl

omit [DecidableEq K] in
theorem WorkerFresh.mono {w : Worker K V} (h : WorkerFresh s w)
    (hr : ∀ k, s.rewinds k ≤ s'.rewinds k) (hp : s.produced ⊆ s'.produced) : WorkerFresh s' w :=
  ⟨h.spawned.trans (hr _), h.checking, h.computing,
    fun r hf hpos => (h.finished r hf hpos).mono hp le_rfl⟩

omit [DecidableEq K] in
theorem RequestFresh.mono {e : K × Nat × Promise V} (h : RequestFresh s e)
    (hp : s.produced ⊆ s'.produced) (ht : Carries s.tasks s'.tasks) : RequestFresh s' e := by
  obtain ⟨k, n, p⟩ := e
  cases p with
  | ready r => exact fun hn => (h hn).mono hp le_rfl
  | pending t => exact SpawnedSince.carry h ht

end Mono

namespace SessionFresh

variable {v : Nat} {epoch : VersionEpoch} {s s' : Session K V} {w : Worker K V} {phase : Phase K V}

/-- What a worker has to see to when it goes on to another phase. -/
theorem setPhase (h : SessionFresh v epoch s) (hw : s.tasks[t]? = some w)
    (htracker : s'.core.versionTracker = s.core.versionTracker) (hr : s'.rewinds = s.rewinds)
    (hp : s.produced ⊆ s'.produced) (hq : s'.requests = s.requests)
    (ht : s'.tasks = s.tasks.set t { w with phase := phase })
    (hnodes : ∀ k, 0 < s.rewinds k → NodeFresh v s' k)
    (hworker : WorkerFresh s' { w with phase := phase }) : SessionFresh v epoch s' := by
  have hc : Carries s.tasks s'.tasks := by rw [ht]; exact .set hw phase
  obtain ⟨cache, hcache, hfresh⟩ := h.cache
  refine ⟨⟨cache, by rw [htracker]; exact hcache, hfresh.mono hr hp hc⟩, ?_, ?_, ?_⟩
  · rw [hr]; exact hnodes
  · intro w' hw'
    rw [ht] at hw'
    rcases mem_or_eq_of_mem_set hw' with hmem | rfl
    · exact (h.workers w' hmem).mono (by simp [hr]) hp
    · exact hworker
  · rw [hq]
    exact fun e he => (h.requests e he).mono hp hc

/-- After a report the nodes of rewound keys still answer with fresh values, if the report does or
the key was verified before. -/
theorem nodes_of_update [DiceValue V] (h : SessionFresh v epoch s) {x : V}
    {deps : SeriesParallelDeps K} {st : StorageType} {ret : DiceComputedValue V}
    (hup : s.core.graph.update k v x reusable deps st = some (s'.core.graph, ret))
    (hr : s'.rewinds = s.rewinds) (hp : s.produced ⊆ s'.produced)
    (hself : 0 < s.rewinds k → ¬ s.core.graph.VerifiedAt v k →
      reusable = .equalityBased ∧ Fresh s'.produced k (s.rewinds k) x) (l : K)
    (hl : 0 < s.rewinds l) : NodeFresh v s' l := by
  have hn := h.nodes l hl
  refine ⟨update_notInjected hup hn.notInjected, by rw [update_history hup]; exact hn.dirtied, ?_⟩
  intro a ha
  rw [hr]
  by_cases hlk : l = k
  · subst hlk
    obtain ⟨hkept, hnew⟩ := update_answer hup ha
    by_cases hver : s.core.graph.VerifiedAt v l
    · obtain ⟨b, hb, heq⟩ := hkept hver
      rw [heq]
      exact (hn.value b hb).mono hp le_rfl
    · obtain ⟨heq, hfresh⟩ := hself hl hver
      rw [hnew hver heq]
      exact hfresh
  · rw [update_get_ne hup hlk] at ha
    exact (hn.value a ha).mono hp le_rfl

/-- A rewound key is never checked: its node is verified at the version or has to be computed. -/
theorem rewinds_eq_zero_of_checkDeps (h : SessionFresh v epoch s) {m : Mismatch K V}
    (hm : s.core.graph.get k v = .checkDeps m) : s.rewinds k = 0 := by
  by_contra hne
  have hn := h.nodes k (Nat.pos_of_ne_zero hne)
  simp only [VersionedGraph.get] at hm
  have hlast := hn.dirtied
  cases hk : s.core.graph.node k with
  | none => rw [hk] at hm; cases hm
  | some n =>
    rw [hk] at hm hlast
    cases n with
    | vacant o => cases hm
    | injected o => exact hn.notInjected o hk
    | occupied o =>
      obtain ⟨hmem, hle, hrange, hx, -⟩ := atVersion_checkDeps hm
      have hge := ForceDirtyHistory.begin_of_last hlast hrange
      rw [le_antisymm hle hge] at hmem
      simp only [VersionedGraphNode.atVersion] at hm
      rw [atVersion_of_mem hmem hx] at hm
      cases hm

variable (h : SessionFresh v epoch s) (hw : s.tasks[t]? = some w)

include h hw in
theorem advance (hworker : WorkerFresh s { w with phase := phase }) :
    SessionFresh v epoch (s.setPhase t w phase) :=
  h.setPhase hw rfl rfl (refl _) rfl rfl (fun k hk => (h.nodes k hk).mono rfl rfl (refl _))
    ⟨hworker.spawned, hworker.checking, hworker.computing, hworker.finished⟩

theorem logValue (h : SessionFresh v epoch s) (k : K) (since : Nat) (x : V) :
    SessionFresh v epoch (s.logValue k since x) := by
  have hp : s.produced ⊆ (s.logValue k since x).produced := subset_cons_self _ _
  obtain ⟨cache, hcache, hfresh⟩ := h.cache
  exact ⟨⟨cache, hcache, hfresh.mono rfl hp (.refl _)⟩, fun l hl => (h.nodes l hl).mono rfl rfl hp,
    fun w hw => (h.workers w hw).mono (fun _ => le_rfl) hp,
    fun e he => (h.requests e he).mono hp (.refl _)⟩

include h hw in
theorem lookup (hs : s.lookup v t w = some s') : SessionFresh v epoch s' := by
  have hwf := h.workers w (mem_of_getElem? hw)
  have hget : ∀ res, s.core.lookupKey w.key v = res → res ≠ .rejected →
      s.core.graph.get w.key v = res := by
    intro res hres hne
    unfold CoreState.lookupKey at hres
    split at hres
    · exact absurd hres.symm hne
    · exact hres
  unfold Session.lookup at hs
  split at hs
  · next r hr =>
    cases hs
    refine h.advance hw ⟨hwf.spawned, by simp, by simp, fun r' hr' hpos => ?_⟩
    cases hr'
    have hn := h.nodes w.key (hpos.trans_le hwf.spawned)
    exact (hn.value r (hget _ hr (by simp))).mono (refl _) hwf.spawned
  · next m hm =>
    cases hs
    have hzero := h.rewinds_eq_zero_of_checkDeps (hget _ hm (by simp))
    refine h.advance hw ⟨hwf.spawned, fun m' since hc => ?_, by simp, by simp⟩
    cases hc
    exact ⟨hzero, Nat.le_zero.mp (hzero ▸ hwf.spawned)⟩
  · cases hs
    refine h.advance hw ⟨hwf.spawned, by simp, fun since hc => ?_, by simp⟩
    cases hc
    exact hwf.spawned
  · cases hs
    exact h.advance hw ⟨hwf.spawned, by simp, by simp, by simp⟩
  · cases hs

include h hw in
theorem report [DiceValue V] {x : V} {deps : SeriesParallelDeps K}
    {res : CoreState K V × Except CancellationReason (DiceComputedValue V)}
    (hup : s.core.updateComputed w.key v epoch .normal x reusable deps = some res)
    (hself : 0 < s.rewinds w.key → ¬ s.core.graph.VerifiedAt v w.key → reusable = .equalityBased ∧
      Fresh s.produced w.key (s.rewinds w.key) x)
    (hret : ∀ g ret, s.core.graph.update w.key v x reusable deps .normal = some (g, ret) →
      0 < w.spawnedAt → Fresh s.produced w.key w.spawnedAt ret.value) :
    SessionFresh v epoch (s.reported t w res) := by
  have hwf := h.workers w (mem_of_getElem? hw)
  rcases CoreState.updateComputed_cases hup with ⟨e, rfl⟩ | ⟨g', ret, -, hupd, rfl⟩
  · exact h.advance hw ⟨hwf.spawned, by simp, by simp, by simp⟩
  · refine h.setPhase hw rfl rfl (refl _) rfl rfl (h.nodes_of_update hupd rfl (refl _) hself)
      ⟨hwf.spawned, by simp, by simp, fun r hr hpos => ?_⟩
    cases hr
    exact hret g' ret hupd hpos

include h hw in
theorem work [DiceValue V] {e : Event K V} (he : e.task = some t) (hin : s.ReportsInTime v e)
    (hs : s.work v epoch t w e = some s') : SessionFresh v epoch s' := by
  have hwf := h.workers w (mem_of_getElem? hw)
  cases e with
  | request k | rewind keys => cases he
  | lookup t' =>
    cases he
    simp only [Session.work] at hs
    split at hs
    · exact h.lookup hw hs
    · cases hs
  | depsChanged t' =>
    simp only [Session.work] at hs
    split at hs
    · cases hs
      refine h.advance hw ⟨hwf.spawned, by simp, fun since hc => ?_, by simp⟩
      cases hc
      exact hwf.spawned
    · cases hs
  | depsMatch t' =>
    cases he
    simp only [Session.work] at hs
    split at hs
    · next m since hphase =>
      obtain ⟨res, hup, rfl⟩ := map_eq_some_iff.mp hs
      obtain ⟨rfl, hzero⟩ := hwf.checking m since hphase
      refine h.report hw hup (fun hpos hver => ?_) fun _ _ _ hpos => absurd hzero hpos.ne'
      have htime := hin w hw
      simp only [Session.InTime, hphase] at htime
      exact absurd (htime.resolve_right hver) hpos.ne
    · cases hs
  | finish t' x deps =>
    cases he
    simp only [Session.work] at hs
    split at hs
    · next since hphase =>
      obtain ⟨res, hup, rfl⟩ := map_eq_some_iff.mp hs
      have hmem : (w.key, since, x) ∈ (s.logValue w.key since x).produced := mem_cons_self
      refine (h.logValue w.key since x).report hw hup (fun hpos hver => ⟨rfl, since, ?_, hmem⟩)
        fun g ret hupd hpos => ⟨since, hwf.computing since hphase, ?_⟩
      · have htime := hin w hw
        simp only [Session.InTime, hphase] at htime
        exact (htime.resolve_right hver).ge
      · rw [update_ret hupd]
        exact hmem
    · cases hs
  | finishTransient t' x =>
    simp only [Session.work] at hs
    split at hs
    · next since hphase =>
      cases hs
      refine (h.logValue w.key since x).advance hw ⟨hwf.spawned, by simp, by simp, ?_⟩
      intro r hr hpos
      cases hr
      exact ⟨since, hwf.computing since hphase, mem_cons_self⟩
    · cases hs
  | cancel t' =>
    simp only [Session.work] at hs
    split at hs
    · cases hs
    · cases hs
      exact h.advance hw ⟨hwf.spawned, by simp, by simp, by simp⟩

end SessionFresh

section Requests

variable {v : Nat} {epoch : VersionEpoch} {s s' : Session K V} {cache cache' : SharedCache K V}
  {r : DiceComputedValue V}

theorem CacheFresh.promote (h : CacheFresh s cache)
    (hfresh : 0 < s.rewinds k → Fresh s.produced k (s.rewinds k) r.value)
    (hp : cache.promote k r = some cache') : CacheFresh s cache' := by
  have herase : ∀ l t, (cache.storage.erase k).lookup l = some t →
      SpawnedSince s.tasks l (s.rewinds l) t := by
    intro l t hl
    by_cases hlk : l = k
    · subst hlk; simp at hl
    · rw [AList.lookup_erase_ne hlk] at hl
      exact h.storage l t hl
  unfold SharedCache.promote at hp
  split at hp
  · next hsome =>
    cases hp
    refine ⟨fun l hl => ?_, herase⟩
    have hre : cache.hasRewound = true := by
      by_contra hnot
      simp [tryGetRewound, hnot] at hsome
    by_cases hlk : l = k
    · subst hlk
      exact ⟨some r, by simp [tryGetRewound, hre], fun r' hr' => by
        cases hr'
        exact hfresh hl⟩
    · obtain ⟨o, ho, hof⟩ := h.overlay l hl
      refine ⟨o, ?_, hof⟩
      simpa only [tryGetRewound, AList.lookup_insert_ne hlk] using ho
  · split at hp
    · cases hp
      exact ⟨h.overlay, herase⟩
    · cases hp

variable (h : SessionFresh v epoch s)
include h

theorem SessionFresh.setCache (hc : CacheFresh s cache') :
    SessionFresh v epoch (s.setCore ⟨s.core.versionTracker.setCache v cache', s.core.graph⟩) := by
  obtain ⟨cache, hcache, -⟩ := h.cache
  exact ⟨⟨cache', VersionTracker.cacheIfRelevant_setCache hcache cache', hc.overlay, hc.storage⟩,
    fun k hk => (h.nodes k hk).mono rfl rfl (refl _),
    fun w hw => (h.workers w hw).mono (fun _ => le_rfl) (refl _),
    fun e he => (h.requests e he).mono (refl _) (.refl _)⟩

theorem SessionFresh.logRequest {p : Promise V}
    (hp : RequestFresh s (k, s.rewinds k, p)) : SessionFresh v epoch (s.logRequest k p) := by
  obtain ⟨cache, hcache, hfresh⟩ := h.cache
  refine ⟨⟨cache, hcache, hfresh.overlay, hfresh.storage⟩,
    fun k hk => (h.nodes k hk).mono rfl rfl (refl _),
    fun w hw => (h.workers w hw).mono (fun _ => le_rfl) (refl _), ?_⟩
  refine forall_mem_cons.mpr ⟨hp.mono (refl _) (.refl _), fun e he => ?_⟩
  exact (h.requests e he).mono (refl _) (.refl _)

theorem SessionFresh.spawn (hc : CacheFresh s cache) (k : K) :
    SessionFresh v epoch (s.spawn v cache k) := by
  have hcarry : Carries s.tasks (s.tasks ++ [⟨k, s.rewinds k, .spawned⟩]) := fun t w' hw =>
    ⟨w', by rwa [getElem?_append_left (List.getElem?_eq_some_iff.mp hw).1], rfl, rfl⟩
  have hnew : SpawnedSince (s.tasks ++ [⟨k, s.rewinds k, .spawned⟩]) k (s.rewinds k)
      s.tasks.length := ⟨_, getElem?_concat_length, rfl, le_rfl⟩
  refine SessionFresh.logRequest ⟨?_, ?_, ?_, ?_⟩ hnew
  · obtain ⟨cache0, hcache0, -⟩ := h.cache
    refine ⟨_, VersionTracker.cacheIfRelevant_setCache hcache0 _, hc.overlay, fun l t hl => ?_⟩
    by_cases hlk : l = k
    · subst hlk
      simp only [insertTask, AList.lookup_insert, Option.some.injEq] at hl
      rw [← hl]
      exact hnew
    · simp only [insertTask, AList.lookup_insert_ne hlk] at hl
      exact (hc.storage l t hl).carry hcarry
  · exact fun l hl => (h.nodes l hl).mono rfl rfl (refl _)
  · intro w hw
    rcases mem_append.mp hw with hw | hw
    · exact (h.workers w hw).mono (fun _ => le_rfl) (refl _)
    · rw [mem_singleton.mp hw]
      exact ⟨le_rfl, by simp, by simp, by simp⟩
  · exact fun e he => (h.requests e he).mono (refl _) hcarry

theorem SessionFresh.finished {n : Nat}
    (ht : SpawnedSince s.tasks k n t) (hr : s.finished t = some r) (hn : 0 < n) :
    Fresh s.produced k n r.value := by
  obtain ⟨w, hw, rfl, hle⟩ := ht
  unfold Session.finished at hr
  rw [hw] at hr
  have hphase : w.phase = .finished r := by
    obtain ⟨key, n', phase⟩ := w
    cases phase <;> cases hr
    rfl
  have hwf := h.workers w (mem_of_getElem? hw)
  exact (hwf.finished r hphase (hn.trans_le hle)).mono (refl _) hle

theorem SessionFresh.request (hs : s.request v epoch k = some s') : SessionFresh v epoch s' := by
  obtain ⟨cache, hcache, hfresh⟩ := h.cache
  obtain ⟨cache0, hcache0, hs0⟩ := bind_eq_some_iff.mp hs
  obtain rfl : cache0 = cache := Option.some.inj (hcache0.symm.trans hcache)
  obtain ⟨⟨ref, cache'⟩, hget, hs1⟩ := bind_eq_some_iff.mp hs0
  rcases get_cases hget with ⟨r, rfl, rfl, hr⟩ | ⟨r, t, rfl, ht, hr, hp⟩ |
    ⟨t, rfl, rfl, ht⟩ | ⟨rfl, rfl⟩ | ⟨rfl, rfl⟩
  · cases hs1
    refine (h.setCache hfresh).logRequest fun hn => ?_
    obtain ⟨o, ho, hvalue⟩ := hfresh.overlay k hn
    simp only [tryGetComputed, ho] at hr
    exact hvalue r hr
  · cases hs1
    have hval : 0 < s.rewinds k → Fresh s.produced k (s.rewinds k) r.value :=
      h.finished (hfresh.storage k t ht) hr
    exact (h.setCache (hfresh.promote hval hp)).logRequest hval
  · cases hs1
    split
    · exact h.spawn hfresh k
    · exact h.logRequest (hfresh.storage k t ht)
  · cases hs1
    exact h.spawn hfresh k
  · cases hs1
    exact h

end Requests

section Rewinds

variable {v : Nat} {epoch : VersionEpoch} {s s' : Session K V}

/-- A node that only aged answers, if it does, with the value from before. -/
theorem NodeFresh.aged (h : NodeFresh v s k)
    (hage : Aged (s.core.graph.node k) (s'.core.graph.node k))
    (hr : s'.rewinds k = s.rewinds k) (hp : s'.produced = s.produced) : NodeFresh v s' k := by
  refine ⟨fun o ho => ?_, by rw [hage.history]; exact h.dirtied, fun r hget => ?_⟩
  · rw [ho] at hage
    generalize hx : s.core.graph.node k = x at hage
    cases hage with
    | injected hv => exact h.notInjected _ hx
  · rw [hr, hp]
    rcases get_matched hget with ⟨o', ho', hv, hx, -⟩ | ⟨o', data, ho', -, -⟩
    · rw [ho'] at hage
      generalize hx0 : s.core.graph.node k = x at hage
      cases hage with
      | @occupied o _ h1 h2 h3 h4 =>
        refine h.value ⟨r.value, o.verifiedRanges⟩ ?_
        simp only [VersionedGraph.get, hx0]
        exact atVersion_of_mem (h4 v hv) (h1 ▸ hx)
    · rw [ho'] at hage
      generalize hx0 : s.core.graph.node k = x at hage
      cases hage with
      | injected hv => exact absurd hx0 (h.notInjected _)

theorem SessionFresh.rewind [DiceValue V] (h : SessionFresh v epoch s) {keys : List K}
    (hs : s.rewind v epoch keys = some s') : SessionFresh v epoch s' := by
  obtain ⟨core, hcore, rfl⟩ := map_eq_some_iff.mp hs
  obtain ⟨cache, hcache, hfresh⟩ := h.cache
  unfold CoreState.rewind at hcore
  rw [hcache] at hcore
  obtain ⟨⟨cache', g'⟩, hre, hcore⟩ := bind_eq_some_iff.mp hcore
  cases hcore
  have hmono : ∀ k, s.rewinds k ≤
      if k ∈ keys ∧ ¬ s.core.graph.IsInjected k then s.rewinds k + 1 else s.rewinds k := by
    intro k
    split <;> omega
  have hfold := foldl_rewind (keys.filter fun k => decide ¬ s.core.graph.IsInjected k) cache
  rw [← CoreState.rewindKeys_cache hre] at hfold
  refine ⟨⟨cache', VersionTracker.cacheIfRelevant_setCache hcache cache', ?_, ?_⟩, ?_, ?_, ?_⟩
  · intro k hk
    obtain ⟨hin, hout⟩ := hfold k
    by_cases hrew : k ∈ keys ∧ ¬ s.core.graph.IsInjected k
    · exact ⟨none, (hin (by simpa using hrew)).1, by simp⟩
    · simp only [if_neg hrew] at hk ⊢
      obtain ⟨o, ho, hof⟩ := hfresh.overlay k hk
      exact ⟨o, (hout (by simpa using hrew)).1 o ho, hof⟩
  · intro k t ht
    obtain ⟨hin, hout⟩ := hfold k
    by_cases hrew : k ∈ keys ∧ ¬ s.core.graph.IsInjected k
    · rw [(hin (by simpa using hrew)).2] at ht
      cases ht
    · simp only [if_neg hrew]
      rw [(hout (by simpa using hrew)).2] at ht
      exact hfresh.storage k t ht
  · intro k hk
    by_cases hrew : k ∈ keys ∧ ¬ s.core.graph.IsInjected k
    · have hd := CoreState.rewindKeys_dirtied hre hrew.1 fun o ho =>
        hrew.2 (by simp [IsInjected, ho])
      refine ⟨hd.notInjected, hd.last, fun r hget => ?_⟩
      rcases get_matched hget with ⟨o', ho', hv, -⟩ | ⟨o', data, ho', -, -⟩
      · obtain ⟨o, -, -, -, hsub⟩ := hd.occupied o' ho'
        exact absurd (hsub v hv).2 (lt_irrefl v)
      · exact absurd ho' (hd.notInjected o')
    · simp only [if_neg hrew] at hk
      have hn := h.nodes k hk
      refine hn.aged (CoreState.rewindKeys_aged hre fun hmem => ?_) (if_neg hrew) rfl
      exact absurd (IsInjected.node (not_not.mp fun hni => hrew ⟨hmem, hni⟩)).choose_spec
        (hn.notInjected _)
  · exact fun w hw => (h.workers w hw).mono hmono (refl _)
  · exact fun e he => (h.requests e he).mono (refl _) (.refl _)

end Rewinds

variable {v : Nat} {epoch : VersionEpoch}

theorem SessionFresh.start {core : CoreState K V}
    (hcache : core.versionTracker.cacheIfRelevant v epoch = some .new) :
    SessionFresh v epoch (Session.start core) :=
  ⟨⟨.new, hcache, fun _ hk => absurd hk (lt_irrefl 0), fun k t ht => by simp
    [SharedCache.new] at ht⟩,
    fun _ hk => absurd hk (lt_irrefl 0), forall_mem_nil _, forall_mem_nil _⟩

/-- **A step whose report comes in time keeps requests fresh.** -/
theorem SessionFresh.step [DiceValue V] {s s' : Session K V} (h : SessionFresh v epoch s)
    {e : Event K V}
    (hin : s.ReportsInTime v e) (hs : s.step v epoch e = some s') : SessionFresh v epoch s' := by
  have hwork : (do
      let t ← e.task
      let w ← s.tasks[t]?
      s.work v epoch t w e) = some s' → SessionFresh v epoch s' := by
    intro hs
    obtain ⟨t, ht, hs⟩ := bind_eq_some_iff.mp hs
    obtain ⟨w, hw, hs⟩ := bind_eq_some_iff.mp hs
    exact h.work hw ht hin hs
  cases e with
  | request k => exact h.request hs
  | rewind keys => exact h.rewind hs
  | lookup t => exact hwork hs
  | depsChanged t | depsMatch t | finish t x deps | finishTransient t x | cancel t => exact hwork hs

/-- **Rewind freshness.** In every run whose reports come in time, a request for a key that had been
rewound `n` times is answered, if at all, with the value of a computation that started after the
last of these rewinds. -/
theorem rewind_freshness [DiceValue V] {core : CoreState K V}
    (hcache : core.versionTracker.cacheIfRelevant v epoch = some .new) {s : Session K V}
    (h : Reach (Session.step v epoch) (fun s e => s.ReportsInTime v e) (Session.start core) s) :
    ∀ k n p, (k, n, p) ∈ s.requests → 0 < n → ∀ x, s.answer p = some x →
      ∃ since, n ≤ since ∧ (k, since, x) ∈ s.produced := by
  intro k n p hmem hn x hx
  have hs : SessionFresh v epoch s :=
    h.invariant (fun _ _ _ hs hin hstep => hs.step hin hstep) (.start hcache)
  have hreq := hs.requests _ hmem
  cases p with
  | ready r => cases hx; exact hreq hn
  | pending t =>
    obtain ⟨r, hr, rfl⟩ := map_eq_some_iff.mp hx
    exact hs.finished hreq hr hn

/-- Key `1` is computed, rewound and computed again; a later request gets the new value. -/
theorem rewind_freshness_recomputed : ∃ (core : CoreState Nat Nat) (s : Session Nat Nat),
    Reach (Session.step 1 0) (fun s e => s.ReportsInTime 1 e) (Session.start core) s ∧
    (∃ p, (1, 1, p) ∈ s.requests ∧ s.answer p = some 6) ∧
    ∃ since, 1 ≤ since ∧ (1, since, 6) ∈ s.produced := by
  obtain ⟨core, s, -, hcache, hs, p, hp, hx⟩ : ∃ (core : CoreState Nat Nat) (s : Session Nat Nat),
      run CoreState.iteration (fun s r => r.Admissible s) .new
        [.updateState [(0, .updateValue 0 .injected, .normal)], .ctxAtVersion 1] = some core ∧
      core.versionTracker.cacheIfRelevant 1 0 = some .new ∧
      run (Session.step 1 0) (fun s e => s.ReportsInTime 1 e) (Session.start core)
        [.request 1, .lookup 0, .finish 0 5 (.one 0), .rewind [1],
          .request 1, .lookup 1, .finish 1 6 (.one 0), .request 1] = some s ∧
      ∃ p, (1, 1, p) ∈ s.requests ∧ s.answer p = some 6 :=
    ⟨_, _, rfl, rfl, rfl, _, mem_cons_self, rfl⟩
  exact ⟨core, s, reach_of_run _ hs, ⟨p, hp, hx⟩,
    rewind_freshness hcache (reach_of_run _ hs) 1 1 p hp (by decide) 6 hx⟩

/-- Key `1` is rewound while it is being computed; the detached worker reports its value, and the
next request for the key is answered with it. -/
theorem detached_report_answers : ∃ (core : CoreState Nat Nat) (s : Session Nat Nat),
    Reach CoreState.iteration (fun s r => r.Admissible s) .new core ∧
    core.versionTracker.cacheIfRelevant 1 0 = some .new ∧
    Reach (Session.step 1 0) (fun _ _ => True) (Session.start core) s ∧
    (∃ p, (1, 1, p) ∈ s.requests ∧ s.answer p = some 5) ∧ s.produced = [(1, 0, 5)] := by
  exact ⟨_, _, reach_of_run
      [.updateState [(0, .updateValue 0 .injected, .normal)], .ctxAtVersion 1] rfl, rfl,
    reach_of_run
      [.request 1, .lookup 0, .rewind [1], .finish 0 5 (.one 0), .request 1, .lookup 1] rfl,
    ⟨_, mem_cons_self, rfl⟩, rfl⟩

end Bz.Dice
