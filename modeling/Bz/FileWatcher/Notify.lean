import Bz.Machine
import Mathlib.Data.List.Basic

/-!
# The notify file watcher

`NotifyFileWatcher` of `bz_file_watcher/src/notify.rs` buffers what the callbacks of the `notify`
library report.  A command takes the buffer when it syncs, turns it into keys that are marked
changed, and commits at the end of its state update, unless a later step of the update fails.  The
log of what happened is a record that no step reads.

Principal results: `NotifyFileData.processPaths_spec`, what a callback leaves in the buffer;
`FileChangeTracker.addEvents_spec`, what the events of a buffer mark changed.
-/

namespace Bz.FileWatcher

open List List.Subset

/-! ## Paths, keys and events -/

/-- A path in a cell. -/
structure CellPath where
  cell : String
  path : List String
  deriving DecidableEq

/-- `CellPath::parent`: the root of a cell has none. -/
def CellPath.parent (p : CellPath) : Option CellPath :=
  if p.path = [] then none else some { p with path := p.path.dropLast }

/-- `PathMetadataForNoWatchFsKey` and `ReadDirForNoWatchFsKey`. -/
inductive FileStateKey where
  | pathMetadata (path : CellPath)
  | readDir (path : CellPath)

/-- `notify::CreateKind`. -/
inductive CreateKind where
  | any | file | folder | other
  deriving DecidableEq

/-- `notify::DataChange`. -/
inductive DataChange where
  | any | size | content | other
  deriving DecidableEq

/-- `notify::MetadataKind`. -/
inductive MetadataKind where
  | any | accessTime | writeTime | permissions | ownership | extended | other
  deriving DecidableEq

/-- `notify::RenameMode`. -/
inductive RenameMode where
  | any | to | from | both | other
  deriving DecidableEq

/-- `notify::ModifyKind`. -/
inductive ModifyKind where
  | any
  | data (change : DataChange)
  | metadata (kind : MetadataKind)
  | name (mode : RenameMode)
  | other
  deriving DecidableEq

/-- `notify::RemoveKind`. -/
inductive RemoveKind where
  | any | file | folder | other
  deriving DecidableEq

/-- `notify::EventKind`; how a file was accessed makes no difference here. -/
inductive EventKind where
  | any
  | access
  | create (kind : CreateKind)
  | modify (kind : ModifyKind)
  | remove (kind : RemoveKind)
  | other
  deriving DecidableEq

/-- `notify::Event`, with the paths as the library gives them. -/
structure Event (P : Type) where
  kind : EventKind
  needRescan : Bool
  paths : List P

/-- An error of the library, or of a path that it gives. -/
inductive NotifyError where
  | notify
  | path

abbrev Callback (P : Type) := Except NotifyError (Event P)

/-- What the watcher knows: the path below the project root, the cell of a path, the external bzlmod
cells, and the ignored paths. -/
structure Project (P : Type) where
  relativize : P → Option (List String)
  getCellPath : List String → CellPath
  isBzlmodExternalCellPath : CellPath → Bool
  isIgnored : CellPath → Bool

def ignoreEventKind : EventKind → Bool
  | .access => true
  | .modify (.metadata .ownership) => false
  | .modify (.metadata .permissions) => false
  | .modify (.metadata _) => true
  | _ => false

/-! ## The buffer -/

/-- Insertion into an ordered set. -/
def insertLast {α : Type} [DecidableEq α] (xs : List α) (x : α) : List α :=
  if x ∈ xs then xs else xs ++ [x]

/-- The buffer of the watcher. -/
structure NotifyFileData where
  ignored : Nat
  events : List (CellPath × EventKind)
  missedEvents : Bool

namespace NotifyFileData

variable {P : Type}

def new : NotifyFileData := ⟨0, [], false⟩

def buckOutDirPrefix : List String := ["buck-out"]

/-- The body of the loop of `NotifyFileData::process`. -/
def processPath (project : Project P) (event : Event P) (d : NotifyFileData) (path : P) :
    Except NotifyError NotifyFileData :=
  match project.relativize path with
  | none => .error .path
  | some path =>
    if buckOutDirPrefix <+: path then .ok d
    else
      let cellPath := project.getCellPath path
      if project.isBzlmodExternalCellPath cellPath then .ok { d with ignored := d.ignored + 1 }
      else
        let d := if event.needRescan then { d with missedEvents := true } else d
        if project.isIgnored cellPath || ignoreEventKind event.kind then
          .ok { d with ignored := d.ignored + 1 }
        else .ok { d with events := insertLast d.events (cellPath, event.kind) }

def processPaths (project : Project P) (event : Event P) (d : NotifyFileData) :
    List P → Except NotifyError NotifyFileData
  | [] => .ok d
  | path :: paths => match d.processPath project event path with
    | .ok d => processPaths project event d paths
    | .error e => .error e

def process (project : Project P) (d : NotifyFileData) : Callback P →
    Except NotifyError NotifyFileData
  | .error e => .error e
  | .ok event => d.processPaths project event event.paths

end NotifyFileData

/-! ## From events to changed keys -/

/-- What is going to be marked. -/
structure FileChangeTracker where
  rawDirsToDirty : List CellPath
  rawPathsToDirty : List CellPath
  maybeModifiedDirs : List CellPath

namespace FileChangeTracker

def new : FileChangeTracker := ⟨[], [], []⟩

variable (t : FileChangeTracker)

section

variable (path : CellPath)

def insertDirKeys : FileChangeTracker :=
  { t with rawDirsToDirty := t.rawDirsToDirty.insert path }

def fileContentsChanged : FileChangeTracker :=
  { t with rawPathsToDirty := t.rawPathsToDirty.insert path }

def entryAddedOrRemoved : FileChangeTracker :=
  let t := t.fileContentsChanged path
  match path.parent with
  | some parent => t.insertDirKeys parent
  | none => t

def fileAddedOrRemoved : FileChangeTracker :=
  (t.fileContentsChanged path).entryAddedOrRemoved path

def dirAddedOrRemoved : FileChangeTracker :=
  (t.insertDirKeys path).entryAddedOrRemoved path

/-- The body of the loop of `write_to_dice`: a directory that may be modified is marked when an
entry of it is. -/
def markModifiedDir : FileChangeTracker :=
  match path.parent with
  | some dir => if dir ∈ t.maybeModifiedDirs then t.entryAddedOrRemoved path else t
  | none => t

end

def markModifiedDirs : FileChangeTracker :=
  t.rawPathsToDirty.foldl markModifiedDir t

/-- `write_to_dice`: the keys that are recorded as changed. -/
def writeToDice : List FileStateKey :=
  t.markModifiedDirs.rawDirsToDirty.map .readDir ++
    t.markModifiedDirs.rawPathsToDirty.map .pathMetadata

/-- The body of the loop of `NotifyFileData::sync`. -/
def addEvent : CellPath × EventKind → FileChangeTracker
  | (path, .create .file) => t.fileAddedOrRemoved path
  | (path, .create .folder) => t.dirAddedOrRemoved path
  | (path, .create _) => (t.fileAddedOrRemoved path).dirAddedOrRemoved path
  | (path, .modify (.data _)) => t.fileContentsChanged path
  | (path, .modify (.metadata _)) => t.fileContentsChanged path
  | (path, .modify _) => (t.fileAddedOrRemoved path).dirAddedOrRemoved path
  | (path, .remove .file) => t.fileAddedOrRemoved path
  | (path, .remove .folder) => t.dirAddedOrRemoved path
  | (path, .remove _) => (t.fileAddedOrRemoved path).dirAddedOrRemoved path
  | _ => t

end FileChangeTracker

/-- `NotifyFileData::sync`, without the statistics: no tracker if events were missed. -/
def NotifyFileData.sync (d : NotifyFileData) : Option FileChangeTracker :=
  if d.missedEvents then none else some (d.events.foldl FileChangeTracker.addEvent .new)

/-! ## The watcher and the commands -/

/-- What happened.  `emptied` is a sync that drops everything in DICE. -/
inductive Happening (P : Type) where
  | callback (callback : Callback P)
  | synced
  | emptied
  | failed
  | committed (changed : List FileStateKey)

/-- A command between its sync and its commit, and what it will mark changed. -/
structure Command where
  syncedAt : Nat
  changed : List FileStateKey

/-- The watcher, the command that updates the state, what happened so far, and when the buffer was
taken and committed last. -/
structure Watcher (P : Type) where
  data : Except NotifyError NotifyFileData
  command : Option Command
  log : List (Happening P)
  takenAt : Nat
  committedSync : Nat

/-- The steps of the watcher. -/
inductive Action (P : Type) where
  | callback (callback : Callback P)
  | sync
  | fail
  | commit

namespace Watcher

variable {P : Type}

def new : Watcher P := ⟨.ok .new, none, [], 0, 0⟩

/-- The closure that the library calls: after an error, callbacks are dropped. -/
def receive (project : Project P) (data : Except NotifyError NotifyFileData)
    (callback : Callback P) : Except NotifyError NotifyFileData :=
  match data with
  | .ok d => d.process project callback
  | .error e => .error e

/-- `sync2`: the buffer is taken, and an error in it fails the command. -/
def sync2 (s : Watcher P) : Watcher P :=
  match s.data with
  | .error _ =>
    { s with data := .ok .new, log := s.log ++ [.failed], takenAt := s.log.length + 1 }
  | .ok d => match d.sync with
    | some changes =>
      { s with
        data := .ok .new
        command := some ⟨s.log.length, changes.writeToDice⟩
        log := s.log ++ [.synced]
        takenAt := s.log.length + 1 }
    | none =>
      { s with
        data := .ok .new
        command := some ⟨s.log.length, []⟩
        log := s.log ++ [.emptied]
        takenAt := s.log.length + 1 }

/-- One step.  Commands update the state one after another. -/
def step (project : Project P) (s : Watcher P) : Action P → Option (Watcher P)
  | .callback c =>
    some { s with data := receive project s.data c, log := s.log ++ [.callback c] }
  | .sync => match s.command with
    | none => some s.sync2
    | some _ => none
  | .fail => match s.command with
    | none => none
    | some _ => some { s with command := none, log := s.log ++ [.failed] }
  | .commit => match s.command with
    | none => none
    | some c =>
      some { s with
        command := none
        log := s.log ++ [.committed c.changed]
        committedSync := c.syncedAt }

end Watcher

/-! ## What a buffer keeps -/

variable {P : Type} {project : Project P} {kind : EventKind}

/-- The event names a path that is watched. -/
def Project.Watches (project : Project P) (raw : P) (p : CellPath) : Prop :=
  ∃ path, project.relativize raw = some path ∧ ¬ NotifyFileData.buckOutDirPrefix <+: path ∧
    project.getCellPath path = p ∧ project.isBzlmodExternalCellPath p = false

/-- The event names a path that is watched and not ignored. -/
def Event.Names (project : Project P) (event : Event P) (p : CellPath) : Prop :=
  project.isIgnored p = false ∧ ∃ raw ∈ event.paths, project.Watches raw p

/-- Create, data, ownership, permission, rename and remove events. -/
def EventKind.isReported : EventKind → Bool
  | .create _ => true
  | .modify (.data _) => true
  | .modify (.metadata .ownership) => true
  | .modify (.metadata .permissions) => true
  | .modify (.name _) => true
  | .remove _ => true
  | _ => false

/-- Create, rename and remove events change the entries of the parent directory. -/
def EventKind.changesEntry : EventKind → Bool
  | .create _ => true
  | .modify (.name _) => true
  | .remove _ => true
  | _ => false

theorem EventKind.isReported_of_changesEntry (h : kind.changesEntry) : kind.isReported := by
  cases kind with
  | modify kind => cases kind <;> first | rfl | cases h
  | _ => first | rfl | cases h

theorem ignoreEventKind_of_isReported (h : kind.isReported) : ignoreEventKind kind = false := by
  cases kind with
  | modify kind =>
    cases kind with
    | metadata kind => cases kind <;> first | rfl | cases h
    | _ => rfl
  | access => cases h
  | _ => rfl

namespace NotifyFileData

/-- Nothing that was noted is lost. -/
structure Extends (d d' : NotifyFileData) : Prop where
  events : d.events ⊆ d'.events
  missedEvents : d.missedEvents = true → d'.missedEvents = true

theorem Extends.refl (d : NotifyFileData) : Extends d d := ⟨List.Subset.refl _, id⟩

variable {d d' : NotifyFileData} {event : Event P} {raws : List P}

theorem Extends.trans {d'' : NotifyFileData} (h : Extends d d') (h' : Extends d' d'') :
    Extends d d'' :=
  ⟨List.Subset.trans h.events h'.events, fun hm => h'.missedEvents (h.missedEvents hm)⟩

theorem mem_insertLast {α : Type} [DecidableEq α] {xs : List α} {x y : α} :
    y ∈ insertLast xs x ↔ y ∈ xs ∨ y = x := by
  unfold insertLast
  split
  · next hx => exact ⟨.inl, fun h => h.elim id fun h => h ▸ hx⟩
  · simp

theorem processPath_spec {raw : P} (h : d.processPath project event raw = .ok d') :
    Extends d d' ∧ ∀ p, project.Watches raw p → (event.needRescan → d'.missedEvents) ∧
      (project.isIgnored p = false → ignoreEventKind event.kind = false →
        (p, event.kind) ∈ d'.events) := by
  unfold processPath at h
  split at h
  · cases h
  · next path hpath =>
    split at h
    · next hout =>
      cases h
      refine ⟨.refl d, fun p hw => ?_⟩
      obtain ⟨path', hpath', hnot, -⟩ := hw
      rw [hpath] at hpath'
      cases hpath'
      exact absurd hout hnot
    · -- both branches keep the flag and what was noted
      have hrescan : Extends d (if event.needRescan then { d with missedEvents := true } else d) ∧
          (event.needRescan → (if event.needRescan then { d with missedEvents := true }
            else d).missedEvents) := by
        split
        · exact ⟨⟨refl _, fun _ => rfl⟩, fun _ => rfl⟩
        · next hno => exact ⟨.refl d, fun hyes => absurd hyes hno⟩
      dsimp only at h
      split at h
      · next hext =>
        cases h
        refine ⟨⟨refl _, id⟩, fun p hw => ?_⟩
        obtain ⟨path', hpath', -, rfl, hno⟩ := hw
        rw [hpath] at hpath'
        cases hpath'
        rw [hno] at hext
        cases hext
      · split at h
        · next hign =>
          cases h
          refine ⟨⟨hrescan.1.events, hrescan.1.missedEvents⟩,
            fun p hw => ⟨hrescan.2, fun hi hk => ?_⟩⟩
          obtain ⟨path', hpath', -, rfl, -⟩ := hw
          rw [hpath] at hpath'
          cases hpath'
          simp [hi, hk] at hign
        · cases h
          refine ⟨⟨fun e he => mem_insertLast.mpr (.inl (hrescan.1.events he)),
            hrescan.1.missedEvents⟩, fun p hw => ⟨hrescan.2, fun _ _ => ?_⟩⟩
          obtain ⟨path', hpath', -, rfl, -⟩ := hw
          rw [hpath] at hpath'
          cases hpath'
          exact mem_insertLast.mpr (.inr rfl)

theorem processPaths_spec (h : d.processPaths project event raws = .ok d') :
    Extends d d' ∧ ∀ raw ∈ raws, ∀ p, project.Watches raw p → (event.needRescan → d'.missedEvents) ∧
      (project.isIgnored p = false → ignoreEventKind event.kind = false →
        (p, event.kind) ∈ d'.events) := by
  induction raws generalizing d with
  | nil =>
    cases h
    exact ⟨.refl _, fun raw hraw => absurd hraw not_mem_nil⟩
  | cons raw raws ih =>
    rw [processPaths] at h
    split at h
    · next d1 hd1 =>
      obtain ⟨hext, hspec⟩ := processPath_spec hd1
      obtain ⟨hext', hspec'⟩ := ih h
      refine ⟨hext.trans hext', fun raw' hraw p hw => ?_⟩
      rcases mem_cons.mp hraw with rfl | hraw
      · obtain ⟨hr, he⟩ := hspec p hw
        exact ⟨fun hn => hext'.missedEvents (hr hn), fun hi hk => hext'.events (he hi hk)⟩
      · exact hspec' raw' hraw p hw
    · cases h

theorem processPaths_ok (d : NotifyFileData) (h : ∀ raw ∈ raws, (project.relativize raw).isSome) :
    ∃ d', d.processPaths project event raws = .ok d' := by
  induction raws generalizing d with
  | nil => exact ⟨d, rfl⟩
  | cons raw raws ih =>
    have hpath : ∃ d1, d.processPath project event raw = .ok d1 := by
      obtain ⟨path, hpath⟩ := Option.isSome_iff_exists.mp (h raw mem_cons_self)
      unfold processPath
      rw [hpath]
      dsimp only
      split
      · exact ⟨_, rfl⟩
      · split
        · exact ⟨_, rfl⟩
        · split
          · exact ⟨_, rfl⟩
          · exact ⟨_, rfl⟩
    obtain ⟨d1, hd1⟩ := hpath
    rw [processPaths, hd1]
    exact ih d1 fun raw' hraw => h raw' (mem_cons_of_mem _ hraw)

end NotifyFileData

/-! ## What a tracker marks changed -/

namespace FileChangeTracker

/-- Nothing that was marked is unmarked. -/
structure Extends (t t' : FileChangeTracker) : Prop where
  dirs : t.rawDirsToDirty ⊆ t'.rawDirsToDirty
  paths : t.rawPathsToDirty ⊆ t'.rawPathsToDirty

theorem Extends.refl (t : FileChangeTracker) : Extends t t :=
  ⟨List.Subset.refl _, List.Subset.refl _⟩

variable {t' : FileChangeTracker}

theorem Extends.trans {t t'' : FileChangeTracker} (h : Extends t t') (h' : Extends t' t'') :
    Extends t t'' :=
  ⟨List.Subset.trans h.dirs h'.dirs, List.Subset.trans h.paths h'.paths⟩

variable (t : FileChangeTracker) (path : CellPath)

theorem extends_insertDirKeys : Extends t (t.insertDirKeys path) :=
  ⟨fun _ h => mem_insert_of_mem h, refl _⟩

theorem extends_fileContentsChanged : Extends t (t.fileContentsChanged path) :=
  ⟨refl _, fun _ h => mem_insert_of_mem h⟩

theorem extends_entryAddedOrRemoved : Extends t (t.entryAddedOrRemoved path) := by
  unfold entryAddedOrRemoved
  cases path.parent with
  | none => exact extends_fileContentsChanged t path
  | some parent => exact (extends_fileContentsChanged t path).trans (extends_insertDirKeys _ parent)

/-- The path and the parent of an entry are marked. -/
structure MarksEntry (t : FileChangeTracker) (path : CellPath) : Prop where
  self : path ∈ t.rawPathsToDirty
  parent : ∀ dir, path.parent = some dir → dir ∈ t.rawDirsToDirty

theorem entryAddedOrRemoved_marks : MarksEntry (t.entryAddedOrRemoved path) path := by
  unfold entryAddedOrRemoved
  cases hp : path.parent with
  | none =>
    refine ⟨mem_insert_self, fun dir hdir => ?_⟩
    rw [hp] at hdir
    cases hdir
  | some parent =>
    refine ⟨mem_insert_self, fun dir hdir => ?_⟩
    rw [hp] at hdir
    cases hdir
    exact mem_insert_self

theorem extends_fileAddedOrRemoved : Extends t (t.fileAddedOrRemoved path) :=
  (extends_fileContentsChanged t path).trans (extends_entryAddedOrRemoved _ path)

theorem extends_dirAddedOrRemoved : Extends t (t.dirAddedOrRemoved path) :=
  (extends_insertDirKeys t path).trans (extends_entryAddedOrRemoved _ path)

/-- What the body of the loop does with the kinds that may be a file or a directory. -/
theorem extends_both : Extends t ((t.fileAddedOrRemoved path).dirAddedOrRemoved path) :=
  (extends_fileAddedOrRemoved t path).trans (extends_dirAddedOrRemoved _ path)

theorem extends_addEvent (e : CellPath × EventKind) : Extends t (t.addEvent e) := by
  unfold addEvent
  split
  · exact extends_fileAddedOrRemoved t _
  · exact extends_dirAddedOrRemoved t _
  · exact extends_both t _
  · exact extends_fileContentsChanged t _
  · exact extends_fileContentsChanged t _
  · exact extends_both t _
  · exact extends_fileAddedOrRemoved t _
  · exact extends_dirAddedOrRemoved t _
  · exact extends_both t _
  · exact .refl t

theorem addEvent_marksEntry (h : kind.changesEntry) :
    MarksEntry (t.addEvent (path, kind)) path := by
  cases kind with
  | create kind | remove kind =>
    cases kind with
    | _ => exact entryAddedOrRemoved_marks _ path
  | modify kind =>
    cases kind with
    | name mode => exact entryAddedOrRemoved_marks _ path
    | _ => cases h
  | _ => cases h

theorem addEvent_marksPath (h : kind.isReported) :
    path ∈ (t.addEvent (path, kind)).rawPathsToDirty := by
  by_cases hentry : kind.changesEntry = true
  · exact (addEvent_marksEntry t path hentry).self
  · cases kind with
    | modify kind =>
      cases kind with
      | data change | metadata kind => exact mem_insert_self
      | name mode => exact absurd rfl hentry
      | _ => cases h
    | create kind | remove kind => exact absurd rfl hentry
    | _ => cases h

theorem extends_addEvents (events : List (CellPath × EventKind)) :
    Extends t (events.foldl addEvent t) := by
  induction events generalizing t with
  | nil => exact .refl t
  | cons e events ih => exact (extends_addEvent t e).trans (ih _)

theorem addEvents_spec {events : List (CellPath × EventKind)} (h : (path, kind) ∈ events) :
    (kind.isReported → path ∈ (events.foldl addEvent t).rawPathsToDirty) ∧
      (kind.changesEntry → MarksEntry (events.foldl addEvent t) path) := by
  induction events generalizing t with
  | nil => exact absurd h not_mem_nil
  | cons e events ih =>
    rcases mem_cons.mp h with rfl | h
    · have hrest := extends_addEvents (t.addEvent (path, kind)) events
      exact ⟨fun hk => hrest.paths (addEvent_marksPath t path hk),
        fun hk => ⟨hrest.paths (addEvent_marksEntry t path hk).self,
          fun dir hdir => hrest.dirs ((addEvent_marksEntry t path hk).parent dir hdir)⟩⟩
    · exact ih (t.addEvent e) h

theorem extends_markModifiedDir : Extends t (t.markModifiedDir path) := by
  unfold markModifiedDir
  split
  · split
    · exact extends_entryAddedOrRemoved t path
    · exact .refl t
  · exact .refl t

theorem extends_markModifiedDirs : Extends t t.markModifiedDirs := by
  unfold markModifiedDirs
  generalize t.rawPathsToDirty = paths
  induction paths generalizing t with
  | nil => exact .refl t
  | cons path paths ih => exact (extends_markModifiedDir t path).trans (ih _)

end FileChangeTracker

end Bz.FileWatcher
