import Bz.Awaits
import Bz.Materializer.Artifacts

/-!
# The tasks of the materializer and what they wait for

`Model` says what the command thread does with its tree.  Here each spawned task is a job that waits
for other futures and then performs its operation on disk, as `clean_path`,
`join_all_existing_futs` and `perform_materialization` have it.  A future is named by the task
behind it; the future that `InvalidateFilePaths` returns is a job that only waits.

Requests to the I/O executor are queued when they are made, so a job goes on without being polled.
Its message to the command thread is sent before the future resolves, and changes nothing that the
job reads.

Principal results: `liveStep_state`, the tree changes as in `Model`; `ensures_ensureLive`, what a
request does, without its recursion depth.
-/

namespace Bz.Materializer

open Bz.Awaits Bz.Machine

/-! ## Futures and jobs -/

/-- The future of a task, or the one that an invalidation returns. -/
inductive FutureId where
  | task (future : ProcessingFuture) (version : Version) (path : Path)
  | join (number : Nat) (paths : List Path)
  deriving DecidableEq, Repr

/-- An operation on disk. -/
inductive Op where
  | clean (path : Path)
  | write (path : Path)

def Op.path : Op → Path
  | .clean path => path
  | .write path => path

/-- The command thread with its jobs. -/
structure Live where
  state : State
  jobs : List (Job FutureId Op)
  /-- The number of invalidations so far. -/
  joins : Nat
  /-- The writes that have succeeded, with the version of their task. -/
  written : List (Version × Path)

def TaskKind.future : TaskKind → ProcessingFuture
  | .clean => .cleaning
  | .materialize _ => .materializing

def Task.id (task : Task) : FutureId := .task task.kind.future task.version task.path

/-- The futures of removed entries. -/
def existingFutures (removed : List (Path × Data)) : List FutureId :=
  removed.filterMap fun (path, data) =>
    data.processing.intoFuture.map fun future => .task future data.version path

/-- How `join_all_existing_futs` waits: errors of materializations are ignored. -/
def joinExisting : FutureId → Action FutureId Op
  | .task .cleaning version path => .await (.task .cleaning version path) true
  | id => .await id false

/-- What a request for one artifact returns: a future, or one that has failed already. -/
inductive Materializing where
  | future (id : FutureId)
  | failed
  deriving DecidableEq, Repr

def Materializing.action : Materializing → Action FutureId Op
  | .future id => .await id true
  | .failed => .fail

def performMaterialization (windows : Bool) (cleaning : Option FutureId)
    (copySources symlinkDestinations : List Materializing) (write : Option Op) :
    List (Action FutureId Op) :=
  let links := symlinkDestinations.map Materializing.action
  let entry := write.toList.map Action.perform
  cleaning.toList.map (Action.await · true) ++ copySources.map Materializing.action ++
    if windows then links ++ entry else entry ++ links

/-- What a command finds outside, with the order of a map of futures. -/
structure LiveEnv extends Env where
  order : List FutureId → List FutureId
  perm : ∀ futures, (order futures).Perm futures

/-! ## Commands -/

section Commands

variable (cfg : Config) (env : LiveEnv)

/-- The jobs after a new one has been added. -/
def Live.launch (w : Live) (id : FutureId) (todo : List (Action FutureId Op)) : Live :=
  { w with jobs := w.jobs ++ [.new id todo] }

/-- What `clean_path` and an invalidation wait for; it fails if the database did. -/
def waitExisting (removed : List (Path × Data)) (rest : List (Action FutureId Op)) :
    List (Action FutureId Op) :=
  if env.deleteFails then [.fail]
  else (env.order (existingFutures removed)).map joinExisting ++ rest

/-- `declareNew` writes at once. -/
def writesEagerly (env : Env) (s : State) (path : Path) (value : ArtifactValue) (method :
    Method) : Bool :=
  let removed := match (s.tree.remove path).1 with
    | some subtree => subtree.values
    | none => []
  let noExistingFuts := !env.deleteFails && removed.all (·.processing.intoFuture.isNone)
  let canUseWriteFastPath := !cfg.macos && noExistingFuts && value.deps.isNone &&
    !cfg.disableEagerWriteDispatch
  canUseWriteFastPath && method = .write

def declareLive (w : Live) (path : Path) (value : ArtifactValue) (method : Method) : Live :=
  let w' := { w with state := declare cfg env.toEnv w.state path value method }
  if keepsDeclared cfg env.toEnv w.state path value then w'
  else if writesEagerly cfg env.toEnv w.state path value method then
    w'.launch (.task .materializing w.state.versionTracker path) [.perform (.write path)]
  else
    w'.launch (.task .cleaning w.state.versionTracker path)
      (waitExisting env (w.state.tree.removePath path) [.perform (.clean path)])

def invalidateLive (w : Live) (paths : List Path) : Live :=
  { w with
    state := invalidatePaths w.state paths
    joins := w.joins + 1 }.launch (.join w.joins paths)
    (waitExisting env (invalidatedEntries w.state.tree paths) [])

/-- The futures of several artifacts, requested one after the other. -/
def collectFutures (recurse : Path → Live → Option Materializing × Live) :
    List Path → Live → List Materializing × Live
  | [], w => ([], w)
  | path :: paths, w =>
    let (future, w) := recurse path w
    let (futures, w) := collectFutures recurse paths w
    (future.toList ++ futures, w)

/-- The end of `materialize_artifact_inner`, where `copies` and `links` are the futures of what the
artifact depends on. -/
def Live.startTask (w : Live) (path : Path) (version : Version) (data : Data)
    (entry : Option Entry) (copies links : List Materializing) : Live :=
  let cleaning := if data.processing.intoFuture = some .cleaning then
    some (FutureId.task .cleaning data.version path) else none
  { w with
    state := (w.state.spawn
      { path, version, kind := .materialize entry, declaration := data.declaration }).modify path
      fun data => { data with processing := .active .materializing version } }.launch
    (.task .materializing version path)
    (performMaterialization cfg.windows cleaning copies links (entry.map fun _ => .write path))

def startLive (recurse : Path → Live → Option Materializing × Live) (w : Live) (path : Path)
    (data : Data) (entry : Option Entry) (copied : List Path) : Option Materializing × Live :=
  let version := w.state.versionTracker
  let (copies, w) := collectFutures recurse copied { w with state := w.state.bumpVersion }
  let (links, w) :=
    collectFutures recurse ((data.deps.map (findArtifacts w.state.tree)).getD []) w
  (some (.future (.task .materializing version path)),
    w.startTask cfg path version data entry copies links)

/-- `materialize_artifact_inner`; `recurse` materializes a dependency. -/
def materializeLiveInner (recurse : List Path → Path → Live → Option Materializing × Live)
    (stack : List Path) (path : Path) (w : Live) : Option Materializing × Live :=
  match w.state.tree.prefixGet path with
  | none => (none, w)
  | some (path, data) =>
    if path ∈ stack then (none, w)
    else if data.processing.intoFuture = some .materializing then
      (some (.future (.task .materializing data.version path)), w)
    else match data.stage with
      | .declared entry (.localCopy srcs) =>
        startLive cfg (recurse (path :: stack)) w path data (some entry) srcs
      | .declared entry _ => startLive cfg (recurse (path :: stack)) w path data (some entry) []
      | .materialized metadata _ active =>
        if !env.pathExists path then (some .failed, w)
        else if data.deps.isSome then
          startLive cfg (recurse (path :: stack)) w path data none []
        else if cfg.accessTimesBuffer then
          (none, { w with state := w.state.modify path fun data =>
            { data with stage := .materialized metadata env.now active } })
        else (none, w)

/-- `materialize_artifact_recurse`, with the room left on the call stack. -/
def materializeLive : Nat → List Path → Path → Live → Option Materializing × Live
  | 0 => fun _ _ w => (some .failed, w)
  | room + 1 => materializeLiveInner cfg env (materializeLive room)

/-- `Ensure`: the futures of the paths. -/
def ensureLive (w : Live) (paths : List Path) : List Materializing × Live :=
  collectFutures (materializeLive cfg env env.stackRoom []) paths w

/-- `materialization_finished` cleans the path again. -/
def cleansAgain (s : State) (task : Task) (ok : Bool) : Bool :=
  match task.kind, s.tree.prefixGet task.path with
  | .materialize _, some (_, info) =>
    !ok && !(task.version < info.version) && info.stage.metadata.isNone
  | _, _ => false

/-- The message of a task. -/
def finishLive (w : Live) (task : Task) (timestamp : Nat) (ok : Bool) : Live :=
  let w' := { w with state := finish w.state task timestamp ok }
  if cleansAgain w.state task ok then
    w'.launch (.task .cleaning w.state.versionTracker task.path) [.perform (.clean task.path)]
  else w'

/-- One event of a job. -/
def eventLive (w : Live) (id : FutureId) (event : Event) : Option Live :=
  (Awaits.step w.jobs (id, event)).map fun jobs =>
    { w with
      jobs
      written := match id, event, (lookup w.jobs id).bind (·.todo.head?) with
        | .task _ version _, .finish true, some (.perform (.write path)) =>
          w.written ++ [(version, path)]
        | _, _, _ => w.written }

end Commands

/-- The steps of the system. -/
inductive LiveLabel where
  | command (env : LiveEnv) (command : Command)
  | event (id : FutureId) (event : Event)

/-- One command or message, or one event of a job.  A message says how its job has ended. -/
def liveStep (cfg : Config) (w : Live) : LiveLabel → Option Live
  | .event id event => eventLive w id event
  | .command env (.declare path value method) => some (declareLive cfg env w path value method)
  | .command env (.declareExisting artifacts) =>
    some { w with
      state := artifacts.foldl (fun s (path, value) => declareExisting cfg env.toEnv s path value)
        w.state }
  | .command env (.matchArtifacts artifacts) =>
    some { w with state := matchArtifacts cfg env.toEnv w.state artifacts }
  | .command env (.hasArtifact path) => some { w with state := hasArtifact env.toEnv w.state path }
  | .command env (.invalidateFilePaths paths) => some (invalidateLive env w paths)
  | .command env (.ensure paths) => some (ensureLive cfg env w paths).2
  | .command _ (.finished index timestamp ok) => match w.state.running[index]? with
    | none => none
    | some task =>
      if resolved w.jobs task.id = some ok then
        let state := { w.state with running := w.state.running.eraseIdx index }
        some (finishLive { w with state } task timestamp ok)
      else none

/-- The message of a running task is taken. -/
def Live.take (w : Live) (index : Nat) : Live :=
  { w with state := { w.state with running := w.state.running.eraseIdx index } }

variable {w w' : Live}

theorem liveStep_finished {cfg : Config} {env : LiveEnv} {index timestamp : Nat}
    {ok : Bool} (h : liveStep cfg w (.command env (.finished index timestamp ok)) = some w') :
    ∃ task, w.state.running[index]? = some task ∧ resolved w.jobs task.id = some ok ∧
      w' = finishLive (w.take index) task timestamp ok := by
  dsimp only [liveStep] at h
  split at h
  · cases h
  next task htask =>
  split at h
  · next hresolved =>
    cases h
    exact ⟨task, htask, hresolved, rfl⟩
  · cases h

/-- The materializer after a restart. -/
def liveRestored (sqliteState : List MaterializerStateEntry)
    (declaredCasState : List MaterializerDeclaredCasStateEntry) : Live :=
  ⟨restored sqliteState declaredCasState, [], 0, []⟩

/-- All paths exist, and futures are walked in the order of the tree. -/
def liveEnv : LiveEnv := ⟨⟨fun _ => true, 5, false, 8⟩, id, fun _ => .refl _⟩

def liveConfig : Config := ⟨false, false, false, false, true⟩

/-! ## What a request does -/

/-- The paths an artifact is copied from. -/
def Method.copySources : Method → List Path
  | .localCopy srcs => srcs
  | _ => []

/-- What a task has to write, and the artifacts it is copied from. -/
inductive Starts (data : Data) : Option Entry → List Path → Prop
  | declared {entry : Entry} {method : Method} (hstage : data.stage = .declared entry method) :
    Starts data (some entry) method.copySources
  | materialized {metadata : Entry} {time : Nat} {active : Bool}
    (hstage : data.stage = .materialized metadata time active) (hdeps : data.deps.isSome) :
    Starts data none []

theorem Starts.fits {data : Data} {entry : Option Entry} {copied : List Path}
    (h : Starts data entry copied) : TaskKind.Fits (.materialize entry) data.stage := by
  cases h with
  | declared hstage => rw [hstage]; rfl
  | materialized hstage => rw [hstage]; trivial

section Ensures

variable (cfg : Config) (env : LiveEnv)

/-- The answer to a request that starts nothing. -/
inductive Answers (stack : List Path) (path : Path) (w : Live) : Option Materializing → Live → Prop
  | failed : Answers stack path w (some .failed) w
  | unknown (hfound : w.state.tree.prefixGet path = none) : Answers stack path w none w
  | covered {q : Path} {data : Data} (hfound : w.state.tree.prefixGet path = some (q, data))
    (hstack : q ∈ stack) : Answers stack path w none w
  | joined {q : Path} {data : Data} {version : Version}
    (hfound : w.state.tree.prefixGet path = some (q, data)) (hstack : q ∉ stack)
    (hprocessing : data.processing = .active .materializing version) :
    Answers stack path w (some (.future (.task .materializing version q))) w
  | present {q : Path} {data : Data} {metadata : Entry} {time : Nat} {active : Bool}
    (hfound : w.state.tree.prefixGet path = some (q, data))
    (hstage : data.stage = .materialized metadata time active) (hdeps : data.deps = none) :
    Answers stack path w none w
  | touched {q : Path} {data : Data} {metadata : Entry} {time : Nat} {active : Bool}
    (hfound : w.state.tree.prefixGet path = some (q, data)) (hstack : q ∉ stack)
    (hstage : data.stage = .materialized metadata time active) (hdeps : data.deps = none)
    (now : Nat) :
    Answers stack path w none { w with state := w.state.modify q fun data =>
      { data with stage := .materialized metadata now active } }

/-- The requests for several artifacts, below the artifacts of a stack. -/
inductive Ensures : List Path → List Path → Live → List Materializing → Live → Prop
  | nil {stack : List Path} {w : Live} : Ensures stack [] w [] w
  | answered {stack : List Path} {path : Path} {paths : List Path} {w w₁ w₂ : Live}
    {future : Option Materializing} {futures : List Materializing}
    (hanswer : Answers stack path w future w₁) (hrest : Ensures stack paths w₁ futures w₂) :
    Ensures stack (path :: paths) w (future.toList ++ futures) w₂
  | started {stack : List Path} {path q : Path} {data : Data} {paths copied : List Path}
    {entry : Option Entry} {w w₁ w₂ w₃ : Live} {copies links futures : List Materializing}
    (hfound : w.state.tree.prefixGet path = some (q, data)) (hstack : q ∉ stack)
    (hprocessing : data.processing.intoFuture ≠ some .materializing)
    (hstarts : Starts data entry copied)
    (hcopies : Ensures (q :: stack) copied { w with state := w.state.bumpVersion } copies w₁)
    (hlinks : Ensures (q :: stack) ((data.deps.map (findArtifacts w₁.state.tree)).getD []) w₁
      links w₂)
    (hrest : Ensures stack paths
      (w₂.startTask cfg q w.state.versionTracker data entry copies links) futures w₃) :
    Ensures stack (path :: paths) w
      (.future (.task .materializing w.state.versionTracker q) :: futures) w₃

variable {cfg env} {stack : List Path}

/-- What has to be shown of one request to be able to put others after it. -/
def Continues (cfg : Config) (stack : List Path)
    (recurse : Path → Live → Option Materializing × Live) : Prop :=
  ∀ path paths w futures w₂, Ensures cfg stack paths (recurse path w).2 futures w₂ →
    Ensures cfg stack (path :: paths) w ((recurse path w).1.toList ++ futures) w₂

theorem Continues.collect {recurse : Path → Live → Option Materializing × Live}
    (h : Continues cfg stack recurse) (paths : List Path) (w : Live) : Ensures cfg stack paths w
      (collectFutures recurse paths w).1 (collectFutures recurse paths w).2 := by
  induction paths generalizing w with
  | nil => exact .nil
  | cons path paths ih => exact h path paths w _ _ (ih _)

theorem materializeLiveInner_continues
    {recurse : List Path → Path → Live → Option Materializing × Live}
    (hrecurse : ∀ stack, Continues cfg stack (recurse stack)) (stack : List Path) :
    Continues cfg stack (materializeLiveInner cfg env recurse stack) := by
  intro path paths w futures w2
  unfold materializeLiveInner
  split
  next hfound => exact .answered (.unknown hfound)
  next q data hfound =>
  split
  next hstack => exact .answered (.covered hfound hstack)
  next hstack =>
  split
  next hactive =>
    cases hprocessing : data.processing with
    | done version =>
      rw [hprocessing] at hactive
      cases hactive
    | active future version =>
      rw [hprocessing] at hactive
      cases hactive
      rw [Data.version, hprocessing]
      exact .answered (.joined hfound hstack hprocessing)
  next hprocessing =>
  have hstart {entry : Option Entry} {copied : List Path} (hstarts : Starts data entry copied) :
      Ensures cfg stack paths
        (startLive cfg (recurse (q :: stack)) w q data entry copied).2 futures w2 →
      Ensures cfg stack (path :: paths) w
        ((startLive cfg (recurse (q :: stack)) w q data entry copied).1.toList ++ futures) w2 :=
    .started hfound hstack hprocessing hstarts ((hrecurse _).collect _ _) ((hrecurse _).collect _ _)
  split
  next entry srcs hstage => exact hstart (.declared hstage)
  next entry method hmethod hstage =>
    have hsources : method.copySources = [] := by
      cases method with
      | localCopy srcs => exact absurd rfl (hmethod srcs)
      | write | casDownload | httpDownload => rfl
    rw [← hsources]
    exact hstart (.declared hstage)
  next metadata time active hstage =>
    split
    · exact .answered .failed
    split
    next hdeps => exact hstart (.materialized hstage hdeps)
    next hdeps =>
      rw [Option.not_isSome_iff_eq_none] at hdeps
      split
      · exact .answered (.touched hfound hstack hstage hdeps env.now)
      · exact .answered (.present hfound hstage hdeps)

theorem materializeLive_continues (room : Nat) (stack : List Path) :
    Continues cfg stack (materializeLive cfg env room stack) := by
  induction room generalizing stack with
  | zero => exact fun path paths w futures w2 => .answered .failed
  | succ room ih => exact materializeLiveInner_continues ih stack

/-- **What an `Ensure` does.** -/
theorem ensures_ensureLive (w : Live) (paths : List Path) :
    Ensures cfg [] paths w (ensureLive cfg env w paths).1 (ensureLive cfg env w paths).2 :=
  (materializeLive_continues env.stackRoom []).collect paths w

theorem ensures_materializeLive (room : Nat) (path : Path) (w : Live) :
    Ensures cfg stack [path] w (materializeLive cfg env room stack path w).1.toList
      (materializeLive cfg env room stack path w).2 := by
  have h : Ensures cfg stack [path] w
      ((materializeLive cfg env room stack path w).1.toList ++ []) _ :=
    materializeLive_continues room stack path [] w [] _ .nil
  rwa [List.append_nil] at h

/-- An answer changes no more than the access time of an artifact that is not on the stack. -/
theorem Answers.touches {path : Path} {future : Option Materializing}
    (h : Answers stack path w future w') :
    ∃ state, Touches w.state state ∧ Extends stack w.state state ∧ w' = { w with state } := by
  cases h with
  | failed | unknown | covered | joined | present => exact ⟨_, .refl, .refl, rfl⟩
  | touched hfound hstack hstage hdeps now =>
    obtain ⟨-, hq⟩ := DataTree.prefixGet_eq_some.mp hfound
    refine ⟨_, .modify .refl hq ⟨rfl, rfl, by rw [hstage]; rfl, ?_⟩,
      .modify hq hstack ⟨rfl, by rw [hstage]; rfl⟩, rfl⟩
    exact fun kind _ => kind.fits_materialized _ _ _

theorem Ensures.extends {paths : List Path} {futures : List Materializing}
    (h : Ensures cfg stack paths w futures w') (hw : Versioned w.state) :
    Versioned w'.state ∧ Extends stack w.state w'.state := by
  induction h with
  | nil => exact ⟨hw, .refl⟩
  | answered hanswer _ ih =>
    obtain ⟨state, htouches, hext1, rfl⟩ := hanswer.touches
    obtain ⟨hw2, hext2⟩ := ih (htouches.versioned hw)
    exact ⟨hw2, hext1.trans hext2⟩
  | started hfound hstack _ hstarts _ _ _ ihcopies ihlinks ihrest =>
    obtain ⟨-, hq⟩ := DataTree.prefixGet_eq_some.mp hfound
    obtain ⟨hw1, hext1⟩ := ihcopies hw.bumpVersion
    obtain ⟨hw2, hext2⟩ := ihlinks hw1
    obtain ⟨hstarted, hext⟩ :=
      Extends.started hw hq hstack hstarts.fits hw2 (hext1.trans hext2)
    obtain ⟨hw3, hext3⟩ := ihrest hstarted
    exact ⟨hw3, hext.trans hext3⟩

end Ensures

/-! ## The tree changes as before -/

section Projection

variable {cfg : Config} {env : LiveEnv}
  {recurse : Path → Live → Option Materializing × Live} {recurse' : Path → State → State}

theorem collectFutures_state (h : ∀ path w, (recurse path w).2.state = recurse' path w.state)
    (paths : List Path) (w : Live) : (collectFutures recurse paths w).2.state =
      paths.foldl (fun s path => recurse' path s) w.state := by
  induction paths generalizing w with
  | nil => rfl
  | cons path paths ih =>
    rw [List.foldl_cons, ← h]
    exact ih _

theorem materializeLive_state (room : Nat) (stack : List Path) (path : Path) (w : Live) :
    (materializeLive cfg env room stack path w).2.state =
      materializeArtifact cfg env.toEnv room stack path w.state := by
  induction room generalizing stack path w with
  | zero => rfl
  | succ room ih =>
    rw [materializeLive, materializeArtifact]
    have hstart (q : Path) (data : Data) (entry : Option Entry) (copied : List Path) :
        (startLive cfg (materializeLive cfg env room (q :: stack)) w q data entry copied).2.state =
          startMaterialization (materializeArtifact cfg env.toEnv room (q :: stack)) w.state q data
            entry copied := by
      unfold startLive startMaterialization Live.startTask Live.launch
      dsimp only
      rw [collectFutures_state (ih _), collectFutures_state (ih _)]
    unfold materializeLiveInner materializeArtifactInner
    cases w.state.tree.prefixGet path with
    | none => rfl
    | some found =>
      obtain ⟨q, data⟩ := found
      dsimp only
      by_cases hstack : q ∈ stack
      · rw [if_pos hstack, if_pos hstack]
      rw [if_neg hstack, if_neg hstack]
      by_cases hactive : data.processing.intoFuture = some .materializing
      · rw [if_pos hactive, if_pos hactive]
      rw [if_neg hactive, if_neg hactive]
      cases data.stage with
      | declared entry method => cases method <;> exact hstart q data _ _
      | materialized metadata time active =>
        dsimp only
        by_cases hexists : (!env.pathExists q) = true
        · rw [if_pos hexists, if_pos hexists]
        rw [if_neg hexists, if_neg hexists]
        by_cases hdeps : data.deps.isSome = true
        · rw [if_pos hdeps, if_pos hdeps]
          exact hstart q data none []
        rw [if_neg hdeps, if_neg hdeps]
        by_cases hbuffer : cfg.accessTimesBuffer = true
        · rw [if_pos hbuffer, if_pos hbuffer]
        · rw [if_neg hbuffer, if_neg hbuffer]

theorem declareLive_state (path : Path) (value : ArtifactValue) (method : Method) :
    (declareLive cfg env w path value method).state =
      declare cfg env.toEnv w.state path value method := by
  unfold declareLive
  split
  · rfl
  split <;> rfl

theorem finishLive_state (task : Task) (timestamp : Nat) (ok : Bool) :
    (finishLive w task timestamp ok).state = finish w.state task timestamp ok := by
  unfold finishLive
  split <;> rfl

/-- **The tree of the live materializer changes as that of `Model`.** -/
theorem liveStep_state {l : LiveLabel} (h : liveStep cfg w l = some w') :
    match l with
    | .command env command => step cfg w.state (env.toEnv, command) = some w'.state
    | .event _ _ => w'.state = w.state := by
  cases l with
  | event id event =>
    obtain ⟨jobs, -, rfl⟩ := Option.map_eq_some_iff.mp h
    rfl
  | command env command =>
    cases command with
    | declare path value method =>
      cases h
      exact congrArg some (declareLive_state path value method).symm
    | declareExisting artifacts | matchArtifacts artifacts | hasArtifact path
    | invalidateFilePaths paths =>
      cases h
      rfl
    | ensure paths =>
      cases h
      exact congrArg some (collectFutures_state (materializeLive_state _ _) paths w).symm
    | finished index timestamp ok =>
      obtain ⟨task, htask, -, rfl⟩ := liveStep_finished h
      rw [finishLive_state]
      simp only [step, htask]
      rfl

end Projection

end Bz.Materializer
