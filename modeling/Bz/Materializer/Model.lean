import Bz.Machine
import Bz.Materializer.DataTree

/-!
# The deferred materializer

The command thread of `bz_execute_impl/src/materializers/deferred/command_processor.rs` and
`artifact_tree.rs`, and the clean and materialize tasks it spawns.

What the artifacts are is kept in an `ArtifactTree`.  A task ends with a message to the command
thread, `MaterializationFinished` or `CleanupFinished`, that carries the task's path and version;
the thread drops it when the entry found for the path has a later version.  Each command is one step
of `step`, and so is the end of a task, which may come at any time with any result.  What a task
waits for and what it does on disk are not modelled, nor are the database, the subscriptions and the
priorities.

Two fields record history: `Data.declaration` is the version under which an entry was inserted, and
a `Task` carries the declaration it was created for.
-/

namespace Bz.Materializer

abbrev Path := List String
instance : LawfulBEq Path := inferInstance
abbrev Version := Nat

/-! ## Artifacts -/

/-- `ActionDirectoryMember`. -/
inductive Member where
  | file (digest : String) (isExecutable : Bool)
  | sourceFile (contentsProxy : String)
  | symlink (target : String)
  | externalSymlink (target : String)
  deriving DecidableEq, Repr

/-- `ActionDirectoryEntry<ActionSharedDirectory>`: shared directories are equal when their
fingerprints are. -/
inductive Entry where
  | dir (fingerprint : String)
  | leaf (member : Member)
  deriving DecidableEq, Repr

def artifactMetadataMatchesEntry (windows : Bool) : Entry → Entry → Bool
  | .dir d1, .dir d2 => d1 == d2
  | .leaf l1, .leaf l2 => match windows, l1, l2 with
    -- without an executable bit on disk, only the contents count
    | true, .file digest1 _, .file digest2 _ => digest1 == digest2
    | _, _, _ => l1 == l2
  | _, _ => false

/-- What `find_artifacts` sees of the directory of an artifact's dependencies. -/
inductive Directory where
  | leaf
  | dir (entries : List (String × Directory))

/-- An entry with its dependencies. -/
structure ArtifactValue where
  entry : Entry
  deps : Option (List (String × Directory))

/-- `ArtifactMaterializationMethod`; of a local copy the sources. -/
inductive Method where
  | localCopy (srcs : List Path)
  | write
  | casDownload
  | httpDownload
  deriving DecidableEq, Repr

/-- `ArtifactMaterializationStage`. -/
inductive Stage where
  | declared (entry : Entry) (method : Method)
  | materialized (metadata : Entry) (lastAccessTime : Nat) (active : Bool)
  deriving DecidableEq, Repr

/-- The metadata of a materialized artifact. -/
def Stage.metadata : Stage → Option Entry
  | .declared _ _ => none
  | .materialized metadata _ _ => some metadata

/-- The future of an entry's task. -/
inductive ProcessingFuture where
  | materializing
  | cleaning
  deriving DecidableEq, Repr

/-- Whether an entry has a task. -/
inductive Processing where
  | done (version : Version)
  | active (future : ProcessingFuture) (version : Version)

def Processing.currentVersion : Processing → Version
  | .done version => version
  | .active _ version => version

def Processing.intoFuture : Processing → Option ProcessingFuture
  | .done _ => none
  | .active future _ => some future

/-- `ArtifactMaterializationData`. -/
structure Data where
  deps : Option (List (String × Directory))
  stage : Stage
  processing : Processing
  /-- The version under which the entry was inserted. -/
  declaration : Version

abbrev Data.version (data : Data) : Version := data.processing.currentVersion

abbrev ArtifactTree := DataTree String Data

/-! ## Dependencies -/

section FindArtifacts

variable {V : Type}

mutual
/-- `walk_deps`: the paths of the artifacts a directory leads to. -/
def walkDeps : Directory → DataTree String V → Path → List Path
  | _, .data _, path => [path]
  | .dir entries, .tree children, path => walkEntries entries children path
  | .leaf, .tree _, _ => []
def walkEntries : List (String × Directory) → List (String × DataTree String V) → Path →
    List Path
  | [], _, _ => []
  | (name, entry) :: entries, children, path =>
    (match DataTree.child children name with
      | some subtree => walkDeps entry subtree (path ++ [name])
      | none => []) ++ walkEntries entries children path
end

def findArtifacts (tree : DataTree String V) (deps : List (String × Directory)) : List Path :=
  walkDeps (.dir deps) tree []

end FindArtifacts

/-! ## State -/

/-- `clean_path`, or the materialization of an entry; of none when only the dependencies of a
materialized artifact are waited for. -/
inductive TaskKind where
  | clean
  | materialize (entry : Option Entry)

/-- A spawned task, with the path and the version of its message. -/
structure Task where
  path : Path
  version : Version
  kind : TaskKind
  /-- The declaration the task was created for. -/
  declaration : Version

/-- The state of the command thread. -/
structure State where
  tree : ArtifactTree
  versionTracker : Version
  /-- Every task in the order of creation. -/
  tasks : List Task
  /-- The tasks whose message is still to come. -/
  running : List Task

namespace State

def bumpVersion (s : State) : State := { s with versionTracker := s.versionTracker + 1 }

def spawn (s : State) (task : Task) : State :=
  { s with tasks := s.tasks ++ [task], running := s.running ++ [task] }

/-- Change the entry that `prefix_get_mut` finds. -/
def modify (s : State) (path : Path) (f : Data → Data) : State :=
  { s with tree := s.tree.update f path }

/-- The most recently created task of a declaration. -/
def latestTask (s : State) (path : Path) (declaration : Version) : Option Task :=
  (s.tasks.filter fun t => t.path = path ∧ t.declaration = declaration).getLast?

end State

/-- A materialized artifact on disk. -/
structure MaterializerStateEntry where
  path : Path
  metadata : Entry
  lastAccessTime : Nat

/-- A declared artifact on disk. -/
structure MaterializerDeclaredCasStateEntry where
  path : Path
  metadata : Entry

/-- `ArtifactTree::initialize` and `VersionTracker::new`. -/
def restored (sqliteState : List MaterializerStateEntry)
    (declaredCasState : List MaterializerDeclaredCasStateEntry) : State :=
  let materialized := sqliteState.foldl (fun tree entry => tree.insert
    ⟨none, .materialized entry.metadata entry.lastAccessTime false, .done 0, 0⟩ entry.path) .new
  { tree := declaredCasState.foldl (fun tree entry => tree.insert
      ⟨none, .declared entry.metadata .casDownload, .done 0, 0⟩ entry.path) materialized
    versionTracker := 1
    tasks := []
    running := [] }

/-! ## Commands -/

/-- The settings of the daemon. -/
structure Config where
  windows : Bool
  macos : Bool
  disableEagerWriteDispatch : Bool
  forceDeclareMismatch : Bool
  accessTimesBuffer : Bool

/-- What a command finds outside the materializer. -/
structure Env where
  /-- `materialized_path_exists`. -/
  pathExists : Path → Bool
  now : Nat
  /-- The database refuses to delete the invalidated paths. -/
  deleteFails : Bool
  /-- The depth of recursion at which `check_stack_overflow` fails. -/
  stackRoom : Nat

section Commands

variable (cfg : Config) (env : Env)

def declareExisting (s : State) (path : Path) (value : ArtifactValue) : State :=
  let inserted : State :=
    { s.bumpVersion with
      tree := s.tree.insert ⟨value.deps, .materialized value.entry env.now true,
        .done s.versionTracker, s.versionTracker⟩ path }
  match s.tree.prefixGet path with
  | some (found, ⟨_, .materialized metadata lastAccessTime _, _, _⟩) =>
    if found = path ∧ artifactMetadataMatchesEntry cfg.windows metadata value.entry ∧
        env.pathExists path then
      s.modify path fun data => { data with stage := .materialized value.entry lastAccessTime true }
    else inserted
  | _ => inserted

/-- The part of `declare` for an artifact that does not match. -/
def declareNew (s : State) (path : Path) (value : ArtifactValue) (method : Method) : State :=
  let version := s.versionTracker
  let removed := match (s.tree.remove path).1 with
    | some subtree => subtree.values
    | none => []
  let noExistingFuts := !env.deleteFails && removed.all (·.processing.intoFuture.isNone)
  let canUseWriteFastPath := !cfg.macos && noExistingFuts && value.deps.isNone &&
    !cfg.disableEagerWriteDispatch
  let writes := canUseWriteFastPath && method = .write
  { s.bumpVersion with
    tree := (s.tree.remove path).2.insert
      { deps := value.deps
        stage := .declared value.entry method
        processing := .active (if writes then .materializing else .cleaning) version
        declaration := version } path }.spawn
    { path, version
      kind := if writes then .materialize (some value.entry) else .clean
      declaration := version }

def declare (s : State) (path : Path) (value : ArtifactValue) (method : Method) : State :=
  match s.tree.prefixGet path with
  | some (found, ⟨_, .materialized metadata lastAccessTime _, _, _⟩) =>
    if found = path ∧ artifactMetadataMatchesEntry cfg.windows metadata value.entry ∧
        !cfg.forceDeclareMismatch ∧ env.pathExists path then
      s.modify path fun data =>
        { data with stage := .materialized metadata lastAccessTime true, deps := value.deps }
    else declareNew cfg env s path value method
  | some (found, ⟨_, .declared entry _, _, _⟩) =>
    if found = path ∧ entry = value.entry then
      s.modify path fun data => { data with deps := value.deps }
    else declareNew cfg env s path value method
  | none => declareNew cfg env s path value method

def matchArtifact (s : State) (path : Path) (value : ArtifactValue) : Bool × State :=
  match s.tree.prefixGet path with
  | none => (false, s)
  | some (found, data) =>
    let isMatch : Bool := match data.stage with
      | .materialized metadata _ _ =>
        artifactMetadataMatchesEntry cfg.windows metadata value.entry && env.pathExists path
      | .declared entry _ => value.entry == entry
    if found = path ∧ isMatch then
      (true, s.modify path fun data => { data with deps := value.deps.or data.deps })
    else (false, s)

/-- The loop of `MatchArtifacts`, which stops at the first mismatch. -/
def matchArtifacts (s : State) : List (Path × ArtifactValue) → State
  | [] => s
  | (path, value) :: rest => match matchArtifact cfg env s path value with
    | (true, s) => matchArtifacts s rest
    | (false, s) => s

def hasArtifact (s : State) (path : Path) : State :=
  match s.tree.prefixGet path with
  | some (found, ⟨_, .materialized metadata _ _, _, _⟩) =>
    if found = path ∧ env.pathExists path then
      s.modify path fun data => { data with stage := .materialized metadata env.now true }
    else s
  | _ => s

/-- `invalidate_paths_and_collect_futures`, of which only `declare` uses the futures. -/
def invalidatePaths (s : State) (paths : List Path) : State :=
  { s with tree := paths.foldl (fun tree path => (tree.remove path).2) s.tree }

/-- The end of `materialize_artifact_inner`: a version, the tasks of what the artifact depends on,
its own task. -/
def startMaterialization (recurse : Path → State → State) (s : State) (path : Path) (data : Data)
    (entry : Option Entry) (copied : List Path) : State :=
  let version := s.versionTracker
  let s := copied.foldl (fun s p => recurse p s) s.bumpVersion
  let s := ((data.deps.map (findArtifacts s.tree)).getD []).foldl (fun s p => recurse p s) s
  (s.spawn { path, version, kind := .materialize entry, declaration := data.declaration }).modify
    path fun data => { data with processing := .active .materializing version }

/-- `materialize_artifact_inner`; `recurse` materializes a dependency. -/
def materializeArtifactInner (recurse : List Path → Path → State → State) (stack : List Path)
    (path : Path) (s : State) : State :=
  match s.tree.prefixGet path with
  | none => s
  | some (path, data) =>
    if path ∈ stack then s
    else if data.processing.intoFuture = some .materializing then s
    else match data.stage with
      | .declared entry (.localCopy srcs) =>
        startMaterialization (recurse (path :: stack)) s path data (some entry) srcs
      | .declared entry _ =>
        startMaterialization (recurse (path :: stack)) s path data (some entry) []
      | .materialized metadata _ active =>
        if !env.pathExists path then s
        else if data.deps.isSome then
          startMaterialization (recurse (path :: stack)) s path data none []
        else if cfg.accessTimesBuffer then
          s.modify path fun data => { data with stage := .materialized metadata env.now active }
        else s

/-- `materialize_artifact_recurse`, with the room left on the call stack. -/
def materializeArtifact : Nat → List Path → Path → State → State
  | 0 => fun _ _ s => s
  | room + 1 => materializeArtifactInner cfg env (materializeArtifact room)

def materializationFinished (s : State) (path : Path) (timestamp : Nat) (version : Version)
    (ok : Bool) : State :=
  match s.tree.prefixGet path with
  | none => s
  | some (_, info) =>
    if version < info.version then s
    else if ok then
      s.modify path fun info =>
        { info with
          stage := match info.stage with
            | .materialized metadata lastAccessTime active =>
              .materialized metadata lastAccessTime active
            | .declared entry _ => .materialized entry timestamp true
          processing := .done version }
    else
      let version := s.versionTracker
      match info.stage with
      | .materialized _ _ _ =>
        s.bumpVersion.modify path fun info => { info with processing := .done version }
      | .declared _ _ =>
        (s.bumpVersion.spawn
          { path, version, kind := .clean, declaration := info.declaration }).modify path
          fun info => { info with processing := .active .cleaning version }

def cleanupFinished (s : State) (path : Path) (version : Version) (ok : Bool) : State :=
  match s.tree.prefixGet path with
  | none => s
  | some (_, info) =>
    if version < info.version then s
    else if ok then s.modify path fun info => { info with processing := .done version }
    else s

end Commands

/-! ## Runs -/

/-- Commands and messages. -/
inductive Command where
  | declare (path : Path) (value : ArtifactValue) (method : Method)
  | declareExisting (artifacts : List (Path × ArtifactValue))
  | matchArtifacts (artifacts : List (Path × ArtifactValue))
  | hasArtifact (path : Path)
  | invalidateFilePaths (paths : List Path)
  | ensure (paths : List Path)
  /-- The message of a running task. -/
  | finished (index : Nat) (timestamp : Nat) (ok : Bool)

/-- The effect of a task's message. -/
def finish (s : State) (task : Task) (timestamp : Nat) (ok : Bool) : State :=
  match task.kind with
  | .clean => cleanupFinished s task.path task.version ok
  | .materialize _ => materializationFinished s task.path timestamp task.version ok

/-- One command or message, with what it finds outside. -/
def step (cfg : Config) (s : State) : Env × Command → Option State
  | (env, .declare path value method) => some (declare cfg env s path value method)
  | (env, .declareExisting artifacts) =>
    some (artifacts.foldl (fun s (path, value) => declareExisting cfg env s path value) s)
  | (env, .matchArtifacts artifacts) => some (matchArtifacts cfg env s artifacts)
  | (env, .hasArtifact path) => some (hasArtifact env s path)
  | (_, .invalidateFilePaths paths) => some (invalidatePaths s paths)
  | (env, .ensure paths) =>
    some (paths.foldl (fun s path => materializeArtifact cfg env env.stackRoom [] path s) s)
  | (_, .finished index timestamp ok) => match s.running[index]? with
    | none => none
    | some task =>
      some (finish { s with running := s.running.eraseIdx index } task timestamp ok)

end Bz.Materializer
