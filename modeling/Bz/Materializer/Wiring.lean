import Bz.Materializer.Live

/-!
# The futures in the tree

What each command does to the futures that the entries of the tree hold, and the invariant `Wired`:
every such future is that of a job, and each job waits only for jobs created before it.  It needs no
assumption on the commands.

Principal results: `Wired.step`; `futures_resolve`, every job ends after a bounded number of events.
-/

namespace Bz.Materializer

open Bz.Awaits Bz.Machine DataTree List Option

variable {cfg : Config} {s s' : State} {q path : Path} {data : Data} {tree : ArtifactTree}
  {f : Data → Data}

/-! ## What entries are waiting for -/

def State.processingAt (s : State) (q : Path) : Option Processing :=
  (s.tree.get q).map (·.processing)

theorem processingAt_eq_some {p : Processing} :
    s.processingAt q = some p ↔ ∃ data, s.tree.get q = some data ∧ data.processing = p :=
  map_eq_some_iff

theorem processingAt_modify (hpath : s.tree.get path = some data) (q : Path) :
    (s.modify path f).processingAt q =
      if q = path then some (f data).processing else s.processingAt q :=
  map_get_modify (·.processing) hpath q

theorem processingAt_touch (hpath : s.tree.get path = some data)
    (hf : (f data).processing = data.processing) :
    (s.modify path f).processingAt q = s.processingAt q :=
  map_get_touch (·.processing) hpath hf q

theorem Touches.processingAt (h : Touches s s') (q : Path) :
    s'.processingAt q = s.processingAt q := by
  induction h with
  | refl => rfl
  | modify _ hq hf ih => exact (processingAt_touch hq hf.processing).trans ih

theorem Touches.wf (h : Touches s s') (hs : s.tree.WF) : s'.tree.WF := by
  induction h with
  | refl => exact hs
  | modify _ _ _ ih => exact ih.update _ _

section Commands

variable {env : Env} {value : ArtifactValue} {task : Task}

theorem processingAt_replace (htree : s'.tree = (tree.remove path).2.insert
    data path) (q : Path) : s'.processingAt q =
      if q = path then some data.processing
      else if Overlap q path then none else (tree.get q).map (·.processing) := by
  rw [State.processingAt, htree, map_get_insert, map_get_remove]
  by_cases hover : Overlap q path
  · simp only [if_pos hover]
  · simp only [if_neg hover]

theorem declareExisting_processingAt (cfg : Config) (env : Env) (s : State) (path : Path)
    (value : ArtifactValue) (q : Path) :
    (declareExisting cfg env s path value).processingAt q = s.processingAt q ∨
      Overlap q path ∧ ((declareExisting cfg env s path value).processingAt q = none ∨
        q = path ∧ ∃ version, (declareExisting cfg env s path value).processingAt q =
          some (.done version)) := by
  by_cases h : reusesExisting cfg env s path value
  · obtain ⟨data, metadata, time, active, hget, -, -, heq⟩ := declareExisting_of_reuses h
    rw [heq]
    exact .inl (processingAt_touch hget rfl)
  · rw [declareExisting_of_not_reuses h]
    have hget := map_get_insert (·.processing) s.tree ⟨value.deps,
      .materialized value.entry env.now true, .done s.versionTracker, s.versionTracker⟩ path q
    by_cases heq : q = path
    · rw [if_pos heq] at hget
      exact .inr ⟨.inl (by rw [heq]), .inr ⟨heq, _, hget⟩⟩
    · rw [if_neg heq] at hget
      by_cases hover : Overlap q path
      · rw [if_pos hover] at hget
        exact .inr ⟨hover, .inl hget⟩
      · rw [if_neg hover] at hget
        exact .inl hget

theorem invalidatePaths_processingAt (paths : List Path) (q : Path) :
    (invalidatePaths s paths).processingAt q =
      if ∃ path ∈ paths, Overlap q path then none else s.processingAt q := by
  induction paths generalizing s with
  | nil => simp [invalidatePaths]
  | cons path paths ih =>
    have hremoved : State.processingAt { s with tree := (s.tree.remove path).2 } q =
        if Overlap q path then none else s.processingAt q := map_get_remove _ _
    refine (ih (s := { s with tree := (s.tree.remove path).2 })).trans ?_
    rw [hremoved]
    by_cases hover : Overlap q path
    · simp [hover]
    · simp [hover]

theorem cleansAgain_of_get (ok : Bool) (hq : s.tree.get task.path = some data)
    (hcurrent : IsCurrent task task.path data) :
    cleansAgain s task ok = match task.kind with
      | .clean => false
      | .materialize _ => !ok && data.stage.metadata.isNone := by
  have hfound := prefixGet_eq_some.mpr ⟨prefix_rfl, hq⟩
  have hversion : ¬ task.version < data.version := hcurrent.version.ge.not_gt
  cases hkind : task.kind <;> simp [cleansAgain, hkind, hfound, hversion]

end Commands

/-! ## The tree stays a map -/

theorem invalidatePaths_wf (h : s.tree.WF) (paths : List Path) :
    (invalidatePaths s paths).tree.WF := by
  induction paths generalizing s with
  | nil => exact h
  | cons path paths ih => exact ih (s := { s with tree := _ }) (h.remove path)

/-! ## What declarations and messages do -/

section Changes

variable {w : Live} {task : Task}

/-- A declaration touches its entry, or puts one with a new task in place of all that overlaps. -/
inductive DeclaresLive (cfg : Config) (env : LiveEnv) (w : Live) (path : Path)
    (value : ArtifactValue) (method : Method) : Live → Prop
  | kept {state : State} (htouches : Touches w.state state) :
      DeclaresLive cfg env w path value method { w with state }
  | launched {kind : TaskKind} {todo : List (Action FutureId Op)}
      (hkeeps : ¬ keepsDeclared cfg env.toEnv w.state path value)
      (hkind : kind = .materialize (some value.entry) ∧ todo = [.perform (.write path)] ∧
          writesEagerly cfg env.toEnv w.state path value method ∨
        kind = .clean ∧
          todo = waitExisting env (w.state.tree.removePath path) [.perform (.clean path)]) :
      DeclaresLive cfg env w path value method (Live.launch
        { w with state := (State.spawn { w.state.bumpVersion with
            tree := (w.state.tree.remove path).2.insert
              ⟨value.deps, .declared value.entry method,
                .active kind.future w.state.versionTracker, w.state.versionTracker⟩ path }
          ⟨path, w.state.versionTracker, kind, w.state.versionTracker⟩) }
        (.task kind.future w.state.versionTracker path) todo)

theorem declaresLive (cfg : Config) (env : LiveEnv) (w : Live) (path : Path)
    (value : ArtifactValue) (method : Method) :
    DeclaresLive cfg env w path value method (declareLive cfg env w path value method) := by
  have hnew (b : Bool) (hb : writesEagerly cfg env.toEnv w.state path value method = b) :
      declareNew cfg env.toEnv w.state path value method = { w.state.bumpVersion with
        tree := (w.state.tree.remove path).2.insert ⟨value.deps, .declared value.entry method,
            .active (if b then .materializing else .cleaning) w.state.versionTracker,
            w.state.versionTracker⟩ path }.spawn ⟨path, w.state.versionTracker,
          if b then .materialize (some value.entry) else .clean, w.state.versionTracker⟩ := by
    subst hb
    rfl
  unfold declareLive
  split
  · next hkeeps => exact .kept (declare_of_keeps hkeeps method)
  next hkeeps =>
  rw [declare_of_not_keeps hkeeps]
  split
  · next hwrites =>
    rw [hnew true hwrites]
    exact .launched hkeeps (.inl ⟨rfl, rfl, hwrites⟩)
  · next hwrites =>
    rw [hnew false (Bool.not_eq_true _ ▸ hwrites)]
    exact .launched hkeeps (.inr ⟨rfl, rfl⟩)

/-- A message changes nothing, settles the entry of its task, or has it cleaned again. -/
inductive Messages (w : Live) (task : Task) (ok : Bool) : Live → Prop
  | ignored : Messages w task ok w
  | settled {data : Data} {f : Data → Data} {version versionTracker : Version}
      (htracker : w.state.versionTracker ≤ versionTracker)
      (hversion : version = task.version ∨ version = w.state.versionTracker)
      (hq : w.state.tree.get task.path = some data) (hcurrent : IsCurrent task task.path data)
      (hdeps : (f data).deps = data.deps) (hdeclaration : (f data).declaration = data.declaration)
      (hprocessing : (f data).processing = .done version)
      (hstage : (f data).stage = data.stage ∨ ok = true ∧ task.kind ≠ .clean ∧
        data.stage.metadata = none ∧ (f data).stage.metadata ≠ none) :
      Messages w task ok { w with state := { w.state with versionTracker }.modify task.path f }
  | again {data : Data} (hq : w.state.tree.get task.path = some data)
      (hcurrent : IsCurrent task task.path data) :
      Messages w task ok (Live.launch
        { w with state := (w.state.bumpVersion.spawn ⟨task.path, w.state.versionTracker, .clean,
          data.declaration⟩).modify task.path fun info =>
            { info with processing := .active .cleaning w.state.versionTracker } }
        (.task .cleaning w.state.versionTracker task.path) [.perform (.clean task.path)])

theorem messages (hs : Versioned w.state) (ht : task ∈ w.state.tasks) (timestamp : Nat)
    (ok : Bool) : Messages w task ok (finishLive w task timestamp ok) := by
  have hfinishes := finishes hs ht timestamp ok
  unfold finishLive
  generalize finish w.state task timestamp ok = s at hfinishes ⊢
  cases hfinishes with
  | ignored h =>
    rw [if_neg]
    · exact .ignored
    unfold cleansAgain
    split
    · next found info hkind hfound =>
      have hversion := (h found info hfound).resolve_right (by simp [hkind])
      simp [hversion]
    · exact Bool.false_ne_true
  | cleaned hkind hq hcurrent =>
    rw [if_neg (by simp [cleansAgain_of_get _ hq hcurrent, hkind])]
    exact .settled le_rfl (.inl rfl) hq hcurrent rfl rfl rfl (.inl rfl)
  | @written data entry hkind hq hcurrent =>
    rw [if_neg (by simp [cleansAgain_of_get _ hq hcurrent, hkind])]
    refine .settled le_rfl (.inl rfl) hq hcurrent rfl rfl rfl ?_
    cases hstage : data.stage with
    | materialized metadata time active => exact .inl rfl
    | declared declared method =>
      exact .inr ⟨rfl, by simp [hkind], by simp [Stage.metadata], by simp [Stage.metadata]⟩
  | kept hkind hq hcurrent hstage =>
    rw [if_neg (by simp [cleansAgain_of_get _ hq hcurrent, hkind, hstage])]
    exact .settled (Nat.le_succ _) (.inr rfl) hq hcurrent rfl rfl rfl (.inl rfl)
  | again hkind hq hcurrent hstage =>
    rw [if_pos (by simp [cleansAgain_of_get _ hq hcurrent, hkind, hstage])]
    exact .again hq hcurrent

end Changes

/-! ## The invariant -/

/-- Ids are numbered. -/
def FutureId.Below (id : FutureId) (w : Live) : Prop :=
  match id with
  | .task _ version _ => version < w.state.versionTracker
  | .join number _ => number < w.joins

/-- The futures of the tree are those of jobs, and jobs wait for earlier ones. -/
structure Wired (w : Live) : Prop where
  versioned : Versioned w.state
  tree : w.state.tree.WF
  ordered : Ordered w.jobs
  below : ∀ id ∈ ids w.jobs, id.Below w
  active : ∀ q future version, w.state.processingAt q = some (.active future version) →
    .task future version q ∈ ids w.jobs

variable {w w' : Live}
  {id : FutureId} {removed : List (Path × Data)} {copies links : List Materializing}
  {windows : Bool} {todo : List (Action FutureId Op)} {state : State} {future : ProcessingFuture}
  {must : Bool} {write : Option Op} {paths : List Path} {l : LiveLabel} {cleaning : Option FutureId}
  {version : Version} {rest : List (Action FutureId Op)} {entry : Option Entry}
  {stack : List Path} {task : FutureId} {env : LiveEnv}

theorem ids_launch : ids (w.launch id todo).jobs = ids w.jobs ++ [id] := by
  simp [ids, Live.launch, Job.new]

theorem Wired.settle (hw : Wired w) (hversioned : Versioned state) (htree : state.tree.WF)
    (htracker : w.state.versionTracker ≤ state.versionTracker)
    (hactive : ∀ q future version, state.processingAt q = some (.active future version) →
      w.state.processingAt q = some (.active future version)) : Wired { w with state } := by
  refine ⟨hversioned, htree, hw.ordered, ?_, ?_⟩
  · intro id hid
    have hbelow := hw.below id hid
    cases id with
    | task future version path => exact Nat.lt_of_lt_of_le hbelow htracker
    | join number paths => exact hbelow
  · intro q future version h
    exact hw.active q future version (hactive q future version h)

theorem Wired.touches (hw : Wired w) (h : Touches w.state state) : Wired { w with state } := by
  refine hw.settle (h.versioned hw.versioned) (h.wf hw.tree) h.extends.tracker
    fun q future version hactive => ?_
  rwa [h.processingAt] at hactive

theorem Wired.launch {joins : Nat} (hw : Wired w) (hversioned : Versioned state)
    (htree : state.tree.WF) (htracker : w.state.versionTracker ≤ state.versionTracker)
    (hjoins : w.joins ≤ joins) (hid : id ∉ ids w.jobs) (hbelow : id.Below { w with state, joins })
    (htodo : ∀ task must, .await task must ∈ todo → task ∈ ids w.jobs)
    (hactive : ∀ q future version, state.processingAt q = some (.active future version) →
      w.state.processingAt q = some (.active future version) ∨ .task future version q = id) :
    Wired (Live.launch { w with state, joins } id todo) := by
  refine ⟨hversioned, htree, hw.ordered.append hid htodo, ?_, ?_⟩
  · intro id' hid'
    rw [ids_launch] at hid'
    rcases mem_append.mp hid' with hold | hnew
    · have hbelow := hw.below id' hold
      cases id' with
      | task future version path => exact Nat.lt_of_lt_of_le hbelow htracker
      | join number paths => exact Nat.lt_of_lt_of_le hbelow hjoins
    · rw [mem_singleton.mp hnew]
      exact hbelow
  · intro q future version h
    rw [ids_launch]
    rcases hactive q future version h with hold | hnew
    · exact mem_append_left _ (hw.active q future version hold)
    · rw [hnew]
      exact mem_append_right _ mem_cons_self

theorem Wired.task_not_mem (hw : Wired w) (h : w.state.versionTracker ≤ version) :
    .task future version q ∉ ids w.jobs :=
  fun hmem => absurd (hw.below _ hmem) (Nat.not_lt.mpr h)

/-! ## What is waited for -/

theorem mem_existingFutures :
    id ∈ existingFutures removed ↔ ∃ q data future version, (q, data) ∈ removed ∧
      data.processing = .active future version ∧ id = .task future version q := by
  unfold existingFutures
  rw [mem_filterMap]
  constructor
  · rintro ⟨⟨q, data⟩, hmem, hid⟩
    cases hprocessing : data.processing with
    | done version => simp [Processing.intoFuture, hprocessing] at hid
    | active future version =>
      refine ⟨q, data, future, version, hmem, hprocessing, ?_⟩
      simpa [Processing.intoFuture, Data.version, Processing.currentVersion, hprocessing]
        using hid.symm
  · rintro ⟨q, data, future, version, hmem, hprocessing, rfl⟩
    refine ⟨(q, data), hmem, ?_⟩
    simp [Processing.intoFuture, Data.version, Processing.currentVersion, hprocessing]

theorem joinExisting_eq (id : FutureId) : ∃ must, joinExisting id = .await id must := by
  cases id with
  | join number paths => exact ⟨_, rfl⟩
  | task future version path => cases future <;> exact ⟨_, rfl⟩

theorem mem_waitExisting (h : .await task must ∈ waitExisting env removed rest) :
    task ∈ existingFutures removed ∨ .await task must ∈ rest := by
  unfold waitExisting at h
  split at h
  · simp at h
  · rcases mem_append.mp h with hjoin | hrest
    · obtain ⟨id, hid, heq⟩ := mem_map.mp hjoin
      obtain ⟨must', hmust⟩ := joinExisting_eq id
      rw [hmust] at heq
      cases heq
      exact .inl ((env.perm _).mem_iff.mp hid)
    · exact .inr hrest

theorem mem_performMaterialization
    (h : .await task must ∈ performMaterialization windows cleaning copies links write) :
    must ∧ (cleaning = some task ∨ .future task ∈ copies ∨ .future task ∈ links) := by
  have haction {futures : List Materializing}
      (h : .await task must ∈ futures.map Materializing.action) :
      must ∧ .future task ∈ futures := by
    obtain ⟨future, hmem, heq⟩ := mem_map.mp h
    cases future with
    | failed => cases heq
    | future id =>
      cases heq
      exact ⟨rfl, hmem⟩
  have hentry (h : Action.await task must ∈ write.toList.map Action.perform) : False := by
    obtain ⟨op, -, heq⟩ := mem_map.mp h
    cases heq
  rcases mem_append.mp h with h | h
  · rcases mem_append.mp h with h | h
    · obtain ⟨id, hid, heq⟩ := mem_map.mp h
      cases heq
      exact ⟨rfl, .inl (mem_toList.mp hid)⟩
    · exact ⟨(haction h).1, .inr (.inl (haction h).2)⟩
  · split at h
    · rcases mem_append.mp h with h | h
      · exact ⟨(haction h).1, .inr (.inr (haction h).2)⟩
      · exact (hentry h).elim
    · rcases mem_append.mp h with h | h
      · exact (hentry h).elim
      · exact ⟨(haction h).1, .inr (.inr (haction h).2)⟩

theorem action_mem_performMaterialization {future : Materializing}
    (h : future ∈ copies ∨ future ∈ links) :
    future.action ∈ performMaterialization windows cleaning copies links write := by
  rcases h with h | h
  · have hmem := mem_map_of_mem (f := Materializing.action) h
    exact mem_append_left _ (mem_append_right _ hmem)
  · have hmem := mem_map_of_mem (f := Materializing.action) h
    apply mem_append_right
    cases windows with
    | true => exact mem_append_left _ hmem
    | false => exact mem_append_right _ hmem

theorem perform_mem_performMaterialization {op : Op} :
    .perform op ∈ performMaterialization windows cleaning copies links (some op) := by
  unfold performMaterialization
  cases windows <;> simp

theorem get_of_mem_invalidatedEntries (h : tree.WF) {e : Path × Data}
    (hmem : e ∈ invalidatedEntries tree paths) : tree.get e.1 = some e.2 := by
  induction paths generalizing tree with
  | nil => cases hmem
  | cons path paths ih =>
    rcases mem_append.mp hmem with hmem | hmem
    · exact get_of_mem_removePath h hmem
    · exact get_of_get_remove (ih (h.remove path) hmem)

/-- The futures of entries of the tree are those of jobs. -/
theorem Wired.existing (hw : Wired w) (h : ∀ e ∈ removed, w.state.tree.get e.1 = some e.2)
    (hid : id ∈ existingFutures removed) : id ∈ ids w.jobs := by
  obtain ⟨q, data, future, version, hmem, hprocessing, rfl⟩ := mem_existingFutures.mp hid
  exact hw.active q future version (processingAt_eq_some.mpr ⟨data, h _ hmem, hprocessing⟩)

/-! ## Requests -/

theorem processing_of_intoFuture (h : data.processing.intoFuture = some future) :
    data.processing = .active future data.version := by
  rw [Data.version]
  cases hprocessing : data.processing with
  | done version =>
    rw [hprocessing] at h
    cases h
  | active future' version =>
    rw [hprocessing] at h
    cases h
    rfl

/-- What requests add. -/
structure Grows (w w' : Live) : Prop where
  jobs : ∃ new, w'.jobs = w.jobs ++ new ∧ ∀ j ∈ new, ∃ version path,
    j.id = .task .materializing version path ∧ w.state.versionTracker ≤ version
  tracker : w.state.versionTracker ≤ w'.state.versionTracker
  joins : w'.joins = w.joins
  written : w'.written = w.written

namespace Grows

variable {w'' : Live}

theorem refl : Grows w w := ⟨⟨[], by simp⟩, le_rfl, rfl, rfl⟩

theorem trans (h : Grows w w') (h' : Grows w' w'') : Grows w w'' := by
  obtain ⟨new, hnew, hid⟩ := h.jobs
  obtain ⟨new', hnew', hid'⟩ := h'.jobs
  refine ⟨⟨new ++ new', by rw [hnew', hnew, append_assoc], ?_⟩, h.tracker.trans h'.tracker,
    h'.joins.trans h.joins, h'.written.trans h.written⟩
  intro j hj
  rcases mem_append.mp hj with hj | hj
  · exact hid j hj
  · obtain ⟨version, path, heq, hle⟩ := hid' j hj
    exact ⟨version, path, heq, h.tracker.trans hle⟩

theorem mem_ids (h : Grows w w') (hid : id ∈ ids w.jobs) : id ∈ ids w'.jobs := by
  obtain ⟨new, hnew, -⟩ := h.jobs
  rw [hnew, ids, map_append]
  exact mem_append_left _ hid

theorem launch (h : Grows w w') (htracker : w'.state.versionTracker ≤ state.versionTracker)
    (hversion : w.state.versionTracker ≤ version) :
    Grows w (Live.launch { w' with state } (.task .materializing version q) todo) := by
  obtain ⟨new, hnew, hid⟩ := h.jobs
  refine ⟨⟨new ++ [.new (.task .materializing version q) todo], ?_, ?_⟩,
    h.tracker.trans htracker, h.joins, h.written⟩
  · rw [← append_assoc, ← hnew]
    rfl
  · intro j hj
    rcases mem_append.mp hj with hj | hj
    · exact hid j hj
    · cases mem_singleton.mp hj
      exact ⟨version, q, rfl, hversion⟩

end Grows

theorem startTask_processingAt (cfg : Config) (hq : w.state.tree.get q = some data)
    (version : Version)
    (data' : Data) (entry : Option Entry) (copies links : List Materializing) (q' : Path) :
    (w.startTask cfg q version data' entry copies links).state.processingAt q' =
      if q' = q then some (.active .materializing version) else w.state.processingAt q' :=
  map_get_modify (s := w.state.spawn _) (·.processing) hq q'

theorem Answers.wired {future : Option Materializing}
    (h : Answers stack path w future w') (hw : Wired w) :
    Wired w' ∧ Grows w w' ∧ ∀ id, .future id ∈ future.toList → id ∈ ids w'.jobs := by
  obtain ⟨state, htouches, -, heq⟩ := h.touches
  refine ⟨heq ▸ hw.touches htouches, ?_, fun id hid => ?_⟩
  · rw [heq]
    exact ⟨⟨[], by simp⟩, htouches.extends.tracker, rfl, rfl⟩
  · cases h with
    | failed => simp at hid
    | unknown | covered | present | touched => cases hid
    | joined hfound _ hprocessing =>
      obtain ⟨-, hq⟩ := prefixGet_eq_some.mp hfound
      cases mem_singleton.mp hid
      exact hw.active _ _ _ (processingAt_eq_some.mpr ⟨_, hq, hprocessing⟩)

theorem Wired.bumpVersion (hw : Wired w) : Wired { w with state := w.state.bumpVersion } :=
  hw.settle hw.versioned.bumpVersion hw.tree (Nat.le_succ _) fun _ _ _ h => h

/-- When a task is launched: `w` is the state in which it was requested, `w₂` the one after what it
depends on has been requested. -/
structure Launching (stack : List Path) (w w₂ : Live) (q : Path) (data : Data) : Prop where
  get : w.state.tree.get q = some data
  apart : q ∉ stack
  wired : Wired w
  wired₂ : Wired w₂
  extended : Extends (q :: stack) w.state.bumpVersion w₂.state
  grown : Grows { w with state := w.state.bumpVersion } w₂

namespace Launching

variable {w₂ : Live}

variable (h : Launching stack w w₂ q data)

include h in
theorem get₂ : w₂.state.tree.get q = some data :=
  (h.extended.get_of_mem mem_cons_self).trans h.get

include h in
include h in
theorem id_not_mem : FutureId.task .materializing w.state.versionTracker q ∉ ids w₂.jobs := by
  intro hmem
  obtain ⟨new, hnew, hnewid⟩ := h.grown.jobs
  obtain ⟨j, hj, hid⟩ := mem_map.mp hmem
  rw [hnew] at hj
  rcases mem_append.mp hj with hj | hj
  · exact h.wired.task_not_mem le_rfl (hid ▸ Awaits.mem_ids hj)
  · obtain ⟨version, path, heq, hle⟩ := hnewid j hj
    cases hid.symm.trans heq
    exact absurd hle (Nat.not_succ_le_self _)

include h in
include h in
include h in
theorem startTask (hfits : TaskKind.Fits (.materialize entry) data.stage)
    (hfutures : ∀ id, .future id ∈ copies ∨ .future id ∈ links → id ∈ ids w₂.jobs) :
    Wired (w₂.startTask cfg q w.state.versionTracker data entry copies links) := by
  refine Wired.launch (w := w₂) h.wired₂ (Extends.started h.wired.versioned h.get h.apart hfits
    h.wired₂.versioned h.extended).1 (h.wired₂.tree.update _ _) le_rfl le_rfl h.id_not_mem
    h.grown.tracker ?_ ?_
  · intro task must hmem
    obtain ⟨-, hcleaning | hdependency⟩ := mem_performMaterialization hmem
    · -- the clean that the artifact has to wait for
      split at hcleaning
      · next hactive =>
        cases hcleaning
        refine h.grown.mem_ids (h.wired.active q .cleaning data.version ?_)
        exact processingAt_eq_some.mpr ⟨data, h.get, processing_of_intoFuture hactive⟩
      · cases hcleaning
    · exact hfutures task hdependency
  · intro q' future version hactive
    have hactive' := (startTask_processingAt cfg h.get₂ _ data entry copies links q').symm.trans
      hactive
    split at hactive'
    · next heq =>
      cases hactive'
      exact .inr (by rw [heq])
    · exact .inl hactive'

end Launching

theorem Ensures.wired {futures : List Materializing}
    (h : Ensures cfg stack paths w futures w') (hw : Wired w) :
    Wired w' ∧ Grows w w' ∧ ∀ id, .future id ∈ futures → id ∈ ids w'.jobs := by
  induction h with
  | nil => exact ⟨hw, .refl, nofun⟩
  | answered hanswer _ ih =>
    obtain ⟨hw₁, hgrows₁, hfuture⟩ := hanswer.wired hw
    obtain ⟨hw₂, hgrows₂, hfutures⟩ := ih hw₁
    refine ⟨hw₂, hgrows₁.trans hgrows₂, fun id hid => ?_⟩
    rcases mem_append.mp hid with hid | hid
    · exact hgrows₂.mem_ids (hfuture id hid)
    · exact hfutures id hid
  | @started stack path q data paths copied entry w w₁ w₂ w₃ copies links futures hfound hstack
      hprocessing hstarts hcopies hlinks hrest ihcopies ihlinks ihrest =>
    obtain ⟨-, hq⟩ := prefixGet_eq_some.mp hfound
    obtain ⟨hw₁, hgrows₁, hfutures₁⟩ := ihcopies hw.bumpVersion
    obtain ⟨hw₂, hgrows₂, hfutures₂⟩ := ihlinks hw₁
    have hlaunch : Launching stack w w₂ q data := ⟨hq, hstack, hw, hw₂,
      (hcopies.extends hw.bumpVersion.versioned).2.trans (hlinks.extends hw₁.versioned).2,
      hgrows₁.trans hgrows₂⟩
    have hstarted : Wired (w₂.startTask cfg q w.state.versionTracker data entry copies links) :=
      hlaunch.startTask hstarts.fits fun id hid => hid.elim (fun hcopy => hgrows₂.mem_ids
        (hfutures₁ id hcopy)) (hfutures₂ id)
    obtain ⟨hw₃, hgrows₃, hfutures₃⟩ := ihrest hstarted
    have hbumped : Grows w { w with state := w.state.bumpVersion } :=
      ⟨⟨[], by simp⟩, Nat.le_succ _, rfl, rfl⟩
    have hgrows : Grows w (w₂.startTask cfg q w.state.versionTracker data entry copies links) :=
      (hbumped.trans hlaunch.grown).launch le_rfl le_rfl
    refine ⟨hw₃, hgrows.trans hgrows₃, fun id hid => ?_⟩
    rcases mem_cons.mp hid with heq | hid
    · cases heq
      refine hgrows₃.mem_ids ?_
      rw [Live.startTask, ids_launch]
      exact mem_append_right _ mem_cons_self
    · exact hfutures₃ id hid

/-- The launch of a task, and the state after it. -/
theorem Ensures.launching {copied links' : List Path} {w₁ w₂ : Live} (hw : Wired w)
    (hfound : w.state.tree.prefixGet path = some (q, data)) (hstack : q ∉ stack)
    (hstarts : Starts data entry copied)
    (hcopies : Ensures cfg (q :: stack) copied { w with state := w.state.bumpVersion } copies w₁)
    (hlinks : Ensures cfg (q :: stack) links' w₁ links w₂) :
    Launching stack w w₂ q data ∧ Wired w₁ ∧ Grows w₁ w₂ ∧
      Wired (w₂.startTask cfg q w.state.versionTracker data entry copies links) := by
  obtain ⟨-, hq⟩ := prefixGet_eq_some.mp hfound
  obtain ⟨hw₁, hgrows₁, hfutures₁⟩ := hcopies.wired hw.bumpVersion
  obtain ⟨hw₂, hgrows₂, hfutures₂⟩ := hlinks.wired hw₁
  have hlaunch : Launching stack w w₂ q data := ⟨hq, hstack, hw, hw₂,
    (hcopies.extends hw.bumpVersion.versioned).2.trans (hlinks.extends hw₁.versioned).2,
    hgrows₁.trans hgrows₂⟩
  refine ⟨hlaunch, hw₁, hgrows₂, hlaunch.startTask hstarts.fits fun id hid => ?_⟩
  exact hid.elim (fun hcopy => hgrows₂.mem_ids (hfutures₁ id hcopy)) (hfutures₂ id)

/-! ## Runs -/

theorem Wired.declare (hw : Wired w) (value : ArtifactValue) (method : Method) :
    Wired (declareLive cfg env w path value method) := by
  have hversioned : Versioned (declareLive cfg env w path value method).state := by
    rw [declareLive_state]
    exact (declare_spec (P := fun _ _ _ => True) cfg env.toEnv hw.versioned path value method).1
  have hdeclares := declaresLive cfg env w path value method
  generalize declareLive cfg env w path value method = w' at hversioned hdeclares ⊢
  cases hdeclares with
  | kept htouches => exact hw.touches htouches
  | launched _ hkind =>
    refine Wired.launch (w := w) hw hversioned ((hw.tree.remove path).insert _ path)
      (Nat.le_succ _) le_rfl (hw.task_not_mem le_rfl) (Nat.lt_succ_self _) ?_
      fun q future version h => ?_
    · intro task must hmem
      obtain ⟨-, rfl, -⟩ | ⟨-, rfl⟩ := hkind
      · simp at hmem
      · rcases mem_waitExisting hmem with hmem | hmem
        · exact hw.existing (fun e he => get_of_mem_removePath hw.tree he) hmem
        · simp at hmem
    · rw [processingAt_replace rfl] at h
      split at h
      · next heq =>
        cases h
        exact .inr (by rw [heq])
      · split at h
        · cases h
        · exact .inl h

theorem Wired.invalidate (hw : Wired w) (paths : List Path) :
    Wired (invalidateLive env w paths) := by
  refine Wired.launch (w := w) hw
    (invalidatePaths_spec (P := fun _ _ _ => True) hw.versioned paths).1
    (invalidatePaths_wf hw.tree paths) le_rfl (Nat.le_succ _) ?_ (Nat.lt_succ_self _) ?_ ?_
  · exact fun hmem => absurd (hw.below _ hmem) (Nat.lt_irrefl _)
  · intro task must hmem
    rcases mem_waitExisting hmem with hmem | hmem
    · exact hw.existing (fun e he => get_of_mem_invalidatedEntries hw.tree he) hmem
    · cases hmem
  · intro q future version h
    rw [invalidatePaths_processingAt] at h
    split at h
    · cases h
    · exact .inl h

theorem Wired.declareExisting (hw : Wired w) {env : Env} (artifacts : List (Path × ArtifactValue)) :
    Wired { w with
      state := artifacts.foldl
        (fun s (path, value) => Materializer.declareExisting cfg env s path value) w.state } := by
  induction artifacts generalizing w with
  | nil => exact hw
  | cons artifact artifacts ih =>
    refine ih (w := { w with
      state := Materializer.declareExisting cfg env w.state artifact.1 artifact.2 }) ?_
    obtain ⟨htree, htracker⟩ : (Materializer.declareExisting cfg env w.state artifact.1
        artifact.2).tree.WF ∧ w.state.versionTracker ≤
          (Materializer.declareExisting cfg env w.state artifact.1 artifact.2).versionTracker := by
      by_cases hreuses : reusesExisting cfg env w.state artifact.1 artifact.2
      · obtain ⟨_, _, _, _, _, _, _, heq⟩ := declareExisting_of_reuses hreuses
        rw [heq]
        exact ⟨hw.tree.update _ _, le_rfl⟩
      · rw [declareExisting_of_not_reuses hreuses]
        exact ⟨hw.tree.insert _ _, Nat.le_succ _⟩
    refine hw.settle (declareExisting_spec cfg env hw.versioned _ _).1 htree htracker
      fun q future version h => ?_
    rcases declareExisting_processingAt cfg env w.state artifact.1 artifact.2 q with
      hold | ⟨-, hnone | ⟨-, version', hdone⟩⟩
    · rwa [hold] at h
    · rw [hnone] at h
      cases h
    · rw [hdone] at h
      cases h

theorem Wired.finish (hw : Wired w) {task : Task} (ht : task ∈ w.state.tasks) (timestamp : Nat)
    (ok : Bool) : Wired (finishLive w task timestamp ok) := by
  have hversioned : Versioned (finishLive w task timestamp ok).state := by
    rw [finishLive_state]
    exact (finish_spec hw.versioned ht timestamp ok).1
  have hmessage := messages hw.versioned ht timestamp ok
  generalize finishLive w task timestamp ok = w' at hversioned hmessage ⊢
  cases hmessage with
  | ignored => exact hw
  | settled htracker _ hq _ _ _ hprocessing =>
    refine hw.settle hversioned (hw.tree.update _ _) htracker fun q future version h => ?_
    have h' := (processingAt_modify (s := { w.state with versionTracker := _ }) hq q).symm.trans h
    rw [hprocessing] at h'
    split at h'
    · cases h'
    · exact h'
  | again hq =>
    refine Wired.launch (w := w) hw hversioned (hw.tree.update _ _) (Nat.le_succ _) le_rfl
      (hw.task_not_mem le_rfl) (Nat.lt_succ_self _) (by simp) fun q future version h => ?_
    have h' := (processingAt_modify (s := w.state.bumpVersion.spawn _) hq q).symm.trans h
    split at h'
    · next heq =>
      cases h'
      exact .inr (by rw [heq])
    · exact .inl h'

theorem Wired.take (hw : Wired w) (index : Nat) : Wired (w.take index) :=
  hw.settle (hw.versioned.eraseIdx index) hw.tree le_rfl fun _ _ _ h => h

theorem eventLive_spec {event : Event} (h : eventLive w id event = some w') :
    Awaits.step w.jobs (id, event) = some w'.jobs ∧ w'.state = w.state ∧ w'.joins = w.joins := by
  obtain ⟨jobs, hjobs, rfl⟩ := map_eq_some_iff.mp h
  exact ⟨hjobs, rfl, rfl⟩

theorem written_subset_eventLive {event : Event} (h : eventLive w id event = some w')
    {e : Version × Path} (he : e ∈ w.written) : e ∈ w'.written := by
  obtain ⟨jobs, -, rfl⟩ := map_eq_some_iff.mp h
  split
  · exact mem_append_left _ he
  · exact he

theorem written_eventLive (hw : Wired w) {j : Job FutureId Op} (hj : j ∈ w.jobs)
    (hid : j.id = .task future version q) (htodo : j.todo = .perform (.write path) :: rest)
    (h : eventLive w (.task future version q) (.finish true) = some w') :
    (version, path) ∈ w'.written := by
  obtain ⟨jobs, -, rfl⟩ := map_eq_some_iff.mp h
  have hlookup := lookup_of_mem hw.ordered.nodup hj
  rw [hid] at hlookup
  rw [hlookup, bind_some, htodo]
  exact mem_append_right _ mem_cons_self

theorem Wired.event (hw : Wired w) {event : Event} (h : eventLive w id event = some w') :
    Wired w' := by
  obtain ⟨hjobs, hstate, hjoins⟩ := eventLive_spec h
  have hids := step_ids hw.ordered.nodup hjobs
  refine ⟨hstate ▸ hw.versioned, hstate ▸ hw.tree, hw.ordered.step hjobs, ?_, ?_⟩
  · intro id' hid'
    rw [hids] at hid'
    have hbelow := hw.below id' hid'
    cases id' with
    | task future version path => rwa [FutureId.Below, hstate]
    | join number paths => rwa [FutureId.Below, hjoins]
  · rw [hids, hstate]
    exact hw.active

/-- **Every step keeps the futures of the tree those of jobs, in an order without cycles.** -/
theorem Wired.step (hw : Wired w) (h : liveStep cfg w l = some w') : Wired w' := by
  cases l with
  | event id event => exact hw.event h
  | command env command =>
    cases command with
    | declare path value method =>
      cases h
      exact hw.declare value method
    | declareExisting artifacts =>
      cases h
      exact hw.declareExisting artifacts
    | matchArtifacts artifacts =>
      cases h
      exact hw.touches (matchArtifacts_touches artifacts .refl)
    | hasArtifact path =>
      cases h
      exact hw.touches hasArtifact_touches
    | invalidateFilePaths paths =>
      cases h
      exact hw.invalidate paths
    | ensure paths =>
      cases h
      exact ((ensures_ensureLive w paths).wired hw).1
    | finished index timestamp ok =>
      obtain ⟨task, htask, -, rfl⟩ := liveStep_finished h
      have ht : task ∈ w.state.tasks := hw.versioned.running task (mem_of_getElem? htask)
      exact (hw.take index).finish ht timestamp ok

theorem Wired.command_adds (hw : Wired w) {command : Command}
    (h : liveStep cfg w (.command env command) = some w') :
    (∃ new, w'.jobs = w.jobs ++ new) ∧ w'.written = w.written := by
  have hsame {w' : Live} (heq : w'.jobs = w.jobs) : ∃ new, w'.jobs = w.jobs ++ new :=
    ⟨[], by rw [heq, append_nil]⟩
  cases command with
  | declare path value method =>
    cases h
    unfold declareLive
    split
    · exact ⟨hsame rfl, rfl⟩
    split
    · exact ⟨⟨_, rfl⟩, rfl⟩
    · exact ⟨⟨_, rfl⟩, rfl⟩
  | declareExisting artifacts | matchArtifacts artifacts | hasArtifact path =>
    cases h
    exact ⟨hsame rfl, rfl⟩
  | invalidateFilePaths paths =>
    cases h
    exact ⟨⟨_, rfl⟩, rfl⟩
  | ensure paths =>
    cases h
    have hgrows : Grows w (ensureLive cfg env w paths).2 :=
      ((ensures_ensureLive w paths).wired hw).2.1
    obtain ⟨new, hnew, -⟩ := hgrows.jobs
    exact ⟨⟨new, hnew⟩, hgrows.written⟩
  | finished index timestamp ok =>
    obtain ⟨task, -, -, rfl⟩ := liveStep_finished h
    unfold finishLive
    split
    · exact ⟨⟨_, rfl⟩, rfl⟩
    · exact ⟨hsame rfl, rfl⟩

theorem Wired.written_subset (hw : Wired w) (h : liveStep cfg w l = some w') :
    ∀ e ∈ w.written, e ∈ w'.written := by
  intro e he
  cases l with
  | event id event => exact written_subset_eventLive h he
  | command env command => rwa [(hw.command_adds h).2]

theorem Wired.restored (sqliteState : List MaterializerStateEntry)
    (declaredCasState : List MaterializerDeclaredCasStateEntry) :
    Wired (liveRestored sqliteState declaredCasState) := by
  refine ⟨restored_versioned sqliteState declaredCasState, ?_, .nil, nofun, ?_⟩
  · exact DataTree.WF.foldl_insert (DataTree.WF.foldl_insert .new)
  · intro q future version h
    obtain ⟨data, hget, hprocessing⟩ := processingAt_eq_some.mp h
    rw [(restored_get hget).1] at hprocessing
    cases hprocessing

/-! ## Futures resolve -/

/-- Whether a label is an event of one of the given jobs. -/
def LiveLabel.eventsIn (scope : List FutureId) : LiveLabel → Nat
  | .event id _ => if id ∈ scope then 1 else 0
  | .command _ _ => 0

theorem Wired.weight_step {scope : List FutureId} (hw : Wired w)
    (hscope : ∀ id ∈ scope, id ∈ ids w.jobs) (h : liveStep cfg w l = some w') :
    l.eventsIn scope + weight scope w'.jobs ≤ weight scope w.jobs ∧
      ∀ id ∈ scope, id ∈ ids w'.jobs := by
  have hnodup := (hw.step h).ordered.nodup
  cases l with
  | event id event =>
    obtain ⟨hjobs, -⟩ := eventLive_spec h
    refine ⟨Awaits.weight_step hw.ordered.nodup scope hjobs, ?_⟩
    rw [step_ids hw.ordered.nodup hjobs]
    exact hscope
  | command env command =>
    obtain ⟨⟨new, hnew⟩, -⟩ := hw.command_adds h
    rw [hnew, ids, map_append, nodup_append] at hnodup
    rw [hnew, weight_new fun j hj hmem =>
      hnodup.2.2 j.id (hscope j.id hmem) j.id (Awaits.mem_ids hj) rfl]
    refine ⟨(Nat.zero_add _).le, fun id hid => ?_⟩
    rw [ids, map_append]
    exact mem_append_left _ (hscope id hid)

/-- **Futures resolve.** As long as a job has not ended, an event of it or of an earlier job is
possible; and in every run the events of the jobs that it starts with are bounded, whatever comes in
between. -/
theorem futures_resolve (hw : Wired w) :
    (∀ j ∈ w.jobs, j.result = none → ∃ id event, (id = j.id ∨ Earlier (ids w.jobs) id j.id) ∧
      (liveStep cfg w (.event id event)).isSome) ∧
    ∀ ls w', run (liveStep cfg) (fun _ _ => True) w ls = some w' →
      (ls.map (LiveLabel.eventsIn (ids w.jobs))).sum ≤ weight (ids w.jobs) w.jobs := by
  constructor
  · intro j hj hresult
    obtain ⟨id, event, hid, hsome⟩ := hw.ordered.progress hj hresult
    refine ⟨id, event, hid, ?_⟩
    show ((Awaits.step w.jobs (id, event)).map _).isSome
    rw [isSome_map]
    exact hsome
  · have hrun (scope : List FutureId) (ls : List LiveLabel) :
        ∀ w w', Wired w → (∀ id ∈ scope, id ∈ ids w.jobs) →
          run (liveStep cfg) (fun _ _ => True) w ls = some w' →
          (ls.map (LiveLabel.eventsIn scope)).sum ≤ weight scope w.jobs := by
      induction ls with
      | nil => exact fun _ _ _ _ _ => Nat.zero_le _
      | cons l ls ih =>
        intro w w' hw hscope h
        obtain ⟨w₁, hstep, hrest⟩ := bind_eq_some_iff.mp h
        obtain ⟨hweight, hscope₁⟩ := hw.weight_step hscope hstep
        have hle := ih w₁ w' (hw.step hstep) hscope₁ hrest
        rw [map_cons, sum_cons]
        omega
    exact fun ls w' h => hrun _ ls w w' hw (fun _ h => h) h

end Bz.Materializer
