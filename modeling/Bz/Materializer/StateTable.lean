import Bz.Directory.Rebuild
import Bz.Fallible
import Bz.Materializer.Model

/-!
# The database of the materializer

The two tables of `bz_execute_impl/src/sqlite/tables/materializer_state_table.rs`: the rows of an
artifact (`convert_artifact_metadata_to_sqlite_entries`), the inserts and deletes, and reading the
tables back (`convert_sqlite_entries_to_materializer_state`).  An artifact has one row of its own; a
directory artifact has a further row for every node in it, which points to the artifact by its
`parent_path`.

`Directories` says which directory is shared under a fingerprint.  Paths are lists of names, the
three columns of a digest are one, and so are those of the download information.  A select returns
the rows in any order, and so does the hash map of the directories.  A digest of size 0 is read as
that of an empty file under the digest configuration.

Principal results: `read_ok`, a table is read back as the artifacts whose rows it holds;
`Holds.delete` and `Holds.insert`.
-/

open Bz.Directory Bz.Fallible

namespace Bz.Materializer

open DirectoryBuilder DataTree List Option

/-! ## Rows -/

/-- The type of a row. -/
inductive ArtifactType where
  | directory
  | file
  | symlink
  | externalSymlink
  deriving DecidableEq, Repr

/-- A row of the first table. -/
structure SqliteEntry where
  path : Path
  artifactType : ArtifactType
  /-- `digest_size`, `entry_hash` and `entry_hash_kind`. -/
  digest : Option String
  fileIsExecutable : Option Bool
  symlinkTarget : Option String
  lastAccessTime : Option Nat
  parentPath : Option Path

/-- The artifact to which a row belongs. -/
def SqliteEntry.owner (r : SqliteEntry) : Path := r.parentPath.getD r.path

/-- What `TrackedCasDigest::new` knows of digests: their size, and that of an empty file. -/
structure DigestConfig where
  size : String → Nat
  emptyDigest : String

/-- `TrackedCasDigest::new`. -/
def DigestConfig.tracked (config : DigestConfig) (digest : String) : String :=
  if config.size digest = 0 then config.emptyDigest else digest

abbrev SharedDirectory := DirectoryBuilder String Member String

/-- The shared directories; a fingerprint is a function of what a directory denotes. -/
structure Directories extends DigestConfig where
  fingerprint : PathMap String Member → String
  shared : String → Option SharedDirectory
  valid : ∀ {name : String} {d : SharedDirectory}, shared name = some d → d.Valid
  named : ∀ {name : String} {d : SharedDirectory}, shared name = some d → fingerprint d.tree = name

/-- `convert_action_directory_member_to_sqlite_entry`; `none` is its panic. -/
def convertMember (path : Path) (lastAccessTime : Option Nat) (parentPath : Option Path) :
    Member → Option SqliteEntry
  | .file digest isExecutable =>
    some ⟨path, .file, some digest, some isExecutable, none, lastAccessTime, parentPath⟩
  | .sourceFile _ => none
  | .symlink target => some ⟨path, .symlink, none, none, some target, lastAccessTime, parentPath⟩
  | .externalSymlink target =>
    some ⟨path, .externalSymlink, none, none, some target, lastAccessTime, parentPath⟩

/-- The row of a node in a directory artifact. -/
def convertNode (path : Path) : Path × Node Member → Option SqliteEntry
  | (entryPath, .dir) => some ⟨path ++ entryPath, .directory, none, none, none, none, some path⟩
  | (entryPath, .leaf member) => convertMember (path ++ entryPath) none (some path) member

/-- `convert_action_shared_directory_to_sqlite_entries`. -/
def convertSharedDirectory (path : Path) (d : SharedDirectory) (lastAccessTime : Nat) :
    Option (List SqliteEntry) :=
  (d.unorderedWalk.mapM (convertNode path)).map
    (⟨path, .directory, none, none, none, some lastAccessTime, none⟩ :: ·)

/-- `convert_artifact_metadata_to_sqlite_entries`. -/
def convertArtifactMetadata (dirs : Directories) (path : Path) (metadata : Entry)
    (timestamp : Nat) : Option (List SqliteEntry) :=
  match metadata with
  | .dir name => (dirs.shared name).bind fun d => convertSharedDirectory path d timestamp
  | .leaf member => (convertMember path (some timestamp) none member).map ([·])

/-! ## Statements -/

/-- `DELETE ... WHERE path IN paths` and `DELETE ... WHERE parent_path IN paths`. -/
def deleteFromTable (rows : List SqliteEntry) (paths : List Path) : List SqliteEntry :=
  rows.filter fun r => r.path ∉ paths ∧ ∀ parent ∈ r.parentPath, parent ∉ paths

/-- `INSERT`, which fails for a path that the table has. -/
def insertRow (rows : List SqliteEntry) (r : SqliteEntry) : Option (List SqliteEntry) :=
  if r.path ∈ rows.map (·.path) then none else some (rows ++ [r])

/-- `MaterializerStateSqliteTable::insert`. -/
def insertArtifact (dirs : Directories) (rows : List SqliteEntry) (path : Path) (metadata : Entry)
    (timestamp : Nat) : Option (List SqliteEntry) :=
  (convertArtifactMetadata dirs path metadata timestamp).bind fun entries =>
    entries.foldlM insertRow (deleteFromTable rows [path])

/-! ## Reading -/

/-- Why rows are not read. -/
inductive MaterializerStateTableError where
  | expectedFieldIsMissing (field : String) (artifactType : ArtifactType)
  | expectedLastAccessTimeForArtifact
  | codePathNotSupportedForDirEntry
  /-- A path is not below that of its directory. -/
  | stripPrefix (path base : Path)
  | mkdir (path : Path)
  | insert (error : DirectoryBuilder.DirectoryInsertError String)
  | missingDownloadInfo (path : Path)

/-- `convert_non_directory_sqlite_entry_to_action_directory_member`. -/
def convertToMember (config : DigestConfig) (r : SqliteEntry) :
    Except MaterializerStateTableError Member :=
  match r.artifactType with
  | .directory => .error .codePathNotSupportedForDirEntry
  | .file => match r.digest with
    | none => .error (.expectedFieldIsMissing "size" .file)
    | some digest => match r.fileIsExecutable with
      | none => .error (.expectedFieldIsMissing "file_is_executable" .file)
      | some isExecutable => .ok (.file (config.tracked digest) isExecutable)
  | .symlink => match r.symlinkTarget with
    | none => .error (.expectedFieldIsMissing "symlink_target" .symlink)
    | some target => .ok (.symlink target)
  | .externalSymlink => match r.symlinkTarget with
    | none => .error (.expectedFieldIsMissing "symlink_target" .externalSymlink)
    | some target => .ok (.externalSymlink target)

/-- The rows of a directory so far. -/
structure DirectoryData where
  timestamp : Option Nat
  children : List SqliteEntry

/-- `directories.entry(path).or_default()`, changed. -/
def orDefault (directories : List (Path × DirectoryData)) (path : Path)
    (f : DirectoryData → DirectoryData) : List (Path × DirectoryData) :=
  setChild directories path (f ((child directories path).getD ⟨none, []⟩))

/-- A round of the first pass: the directories and the other artifacts so far. -/
def collectEntry (config : DigestConfig)
    (acc : List (Path × DirectoryData) × List MaterializerStateEntry)
    (r : SqliteEntry) : Except MaterializerStateTableError
      (List (Path × DirectoryData) × List MaterializerStateEntry) :=
  match r.parentPath with
  | some parent =>
    .ok (orDefault acc.1 parent fun data => { data with children := data.children ++ [r] }, acc.2)
  | none => match r.lastAccessTime with
    | none => .error .expectedLastAccessTimeForArtifact
    | some time => match r.artifactType with
      | .directory => .ok (orDefault acc.1 r.path fun data => { data with timestamp := some time },
          acc.2)
      | _ => (convertToMember config r).map fun member =>
          (acc.1, acc.2 ++ [⟨r.path, .leaf member, time⟩])

def stripBase (base path : Path) : Option Path :=
  if base <+: path then some (path.drop base.length) else none

/-- A round of the loop that recreates a directory. -/
def addChild (config : DigestConfig) (path : Path) (builder : SharedDirectory)
    (child : SqliteEntry) : Except MaterializerStateTableError SharedDirectory :=
  match stripBase path child.path with
  | none => .error (.stripPrefix child.path path)
  | some rest =>
    if child.artifactType = .directory then
      match builder.mkdir rest with
      | (builder, .ok ()) => .ok builder
      | (_, .error c) => .error (.mkdir c)
    else match convertToMember config child with
      | .error e => .error e
      | .ok member => match builder.insert rest (.leaf member) with
        | (builder, .ok _) => .ok builder
        | (_, .error e) => .error (.insert e)

/-- A round of the second pass; rows without their artifact are ignored. -/
def recreateDirectory (dirs : Directories) (results : List MaterializerStateEntry)
    (directory : Path × DirectoryData) :
    Except MaterializerStateTableError (List MaterializerStateEntry) :=
  match directory.2.children.foldlM (addChild dirs.toDigestConfig directory.1) .empty with
  | .error e => .error e
  | .ok builder => match directory.2.timestamp with
    | none => .ok results
    | some time => .ok (results ++ [⟨directory.1, .dir (dirs.fingerprint builder.tree), time⟩])

/-- `convert_sqlite_entries_to_materializer_state`; `order` is that of the hash map. -/
def convertToMaterializerState (dirs : Directories)
    (order : List (Path × DirectoryData) → List (Path × DirectoryData))
    (rows : List SqliteEntry) :
    Except MaterializerStateTableError (List MaterializerStateEntry) :=
  match rows.foldlM (collectEntry dirs.toDigestConfig) ([], []) with
  | .error e => .error e
  | .ok (directories, results) => (order directories).foldlM (recreateDirectory dirs) results

/-! ## What is read back -/

/-- A member as it is read. -/
def DigestConfig.received (config : DigestConfig) : Member → Member
  | .file digest isExecutable => .file (config.tracked digest) isExecutable
  | member => member

/-- An artifact's metadata as they are read. -/
def Directories.readBack (dirs : Directories) : Entry → Entry
  | .leaf member => .leaf (dirs.received member)
  | .dir name => match dirs.shared name with
    | none => .dir name
    | some d => .dir (dirs.fingerprint (d.tree.map dirs.received))

/-- A file that is not empty, or has the digest of an empty file; any other member. -/
def DigestConfig.EmptyPreferred (config : DigestConfig) : Member → Prop
  | .file digest _ => config.size digest = 0 → digest = config.emptyDigest
  | _ => True

/-- The empty files of an artifact have the digest of an empty file. -/
def Directories.EmptyFilesPreferred (dirs : Directories) : Entry → Prop
  | .leaf member => dirs.EmptyPreferred member
  | .dir name => ∀ d, dirs.shared name = some d → ∀ p member, d.tree p = some (.leaf member) →
      dirs.EmptyPreferred member

theorem DigestConfig.received_eq {config : DigestConfig} {member : Member}
    (h : config.EmptyPreferred member) : config.received member = member := by
  cases member with
  | file digest isExecutable =>
    rw [received, tracked]
    split
    · next hsize => rw [← h hsize]
    · rfl
  | sourceFile proxy | symlink target | externalSymlink target => rfl

theorem Directories.readBack_eq {dirs : Directories} {e : Entry} (h : dirs.EmptyFilesPreferred e) :
    dirs.readBack e = e := by
  cases e with
  | leaf member => exact congrArg Entry.leaf (DigestConfig.received_eq h)
  | dir name =>
    rw [readBack]
    split
    · rfl
    · next d hd =>
      have htree := PathMap.map_eq_self.mpr fun p member hp =>
        DigestConfig.received_eq (h d hd p member hp)
      rw [htree, dirs.named hd]

/-! ## What the rows of an artifact say -/

variable {dirs : Directories} {config : DigestConfig} {r : SqliteEntry} {q : Path} {e : Entry}
  {rows' : List SqliteEntry}
  {acc : List (Path × DirectoryData) × List MaterializerStateEntry}
  {path : Path} {time : Nat} {T : PathMap String Member} {rows : List SqliteEntry}

/-- A row of a directory artifact describes a node in it. -/
structure Describes (config : DigestConfig) (q : Path) (r : SqliteEntry) (p : Path)
    (n : Node Member) : Prop where
  path : r.path = q ++ p
  parent : r.parentPath = some q
  node : match n with
    | .dir => r.artifactType = .directory
    | .leaf member => r.artifactType ≠ .directory ∧ convertToMember config r = .ok member

theorem convertMember_spec {time : Option Nat} {parent : Option Path} {member : Member}
    (h : convertMember path time parent member = some r) :
    r.path = path ∧ r.parentPath = parent ∧ r.lastAccessTime = time ∧
      r.artifactType ≠ .directory ∧ convertToMember config r = .ok (config.received member) := by
  cases member with
  | sourceFile proxy => cases h
  | file digest isExecutable | symlink target | externalSymlink target =>
    cases h
    exact ⟨rfl, rfl, rfl, nofun, rfl⟩

theorem convertNode_spec {x : Path × Node Member} (h : convertNode q x = some r) :
    Describes config q r x.1 (x.2.map config.received) := by
  obtain ⟨p, _ | member⟩ := x
  · cases h
    exact ⟨rfl, rfl, rfl⟩
  · obtain ⟨hpath, hparent, -, htype, hmember⟩ := convertMember_spec h
    exact ⟨hpath, hparent, htype, hmember⟩

theorem forall₂_of_mapM {α β : Type} {f : α → Option β} {l : List α} {l' : List β}
    (h : l.mapM f = some l') : List.Forall₂ (fun a b => f a = some b) l l' := by
  induction l generalizing l' with
  | nil =>
    cases h
    exact .nil
  | cons a l ih =>
    rw [mapM_cons] at h
    obtain ⟨b, hb, h⟩ := bind_eq_some_iff.mp h
    obtain ⟨bs, hbs, h⟩ := bind_eq_some_iff.mp h
    cases h
    exact .cons hb (ih hbs)

/-- The rows of an artifact. -/
inductive RowsOf (q : Path) (dirs : Directories) : Entry → List SqliteEntry → Prop where
  | leaf {member : Member} {r : SqliteEntry} {time : Nat} (path : r.path = q)
      (parent : r.parentPath = none) (time : r.lastAccessTime = some time)
      (type : r.artifactType ≠ .directory)
      (reads : convertToMember dirs.toDigestConfig r = .ok (dirs.received member)) :
      RowsOf q dirs (.leaf member) [r]
  | dir {name : String} {d : SharedDirectory} {r : SqliteEntry} {rows : List SqliteEntry}
      {time : Nat} (shared : dirs.shared name = some d) (path : r.path = q)
      (parent : r.parentPath = none) (time : r.lastAccessTime = some time)
      (type : r.artifactType = .directory)
      (sound : ∀ r ∈ rows, ∃ p n, p ≠ [] ∧ d.tree.map dirs.received p = some n ∧
        Describes dirs.toDigestConfig q r p n)
      (complete : ∀ p n, p ≠ [] → d.tree.map dirs.received p = some n →
        ∃ r ∈ rows, Describes dirs.toDigestConfig q r p n) :
      RowsOf q dirs (.dir name) (r :: rows)

theorem convertArtifactMetadata_spec
    (h : convertArtifactMetadata dirs q e time = some rows) : RowsOf q dirs e rows := by
  cases e with
  | leaf member =>
    obtain ⟨r, hr, rfl⟩ := map_eq_some_iff.mp h
    obtain ⟨hpath, hparent, htime, htype, hmember⟩ := convertMember_spec hr
    exact .leaf hpath hparent htime htype hmember
  | dir name =>
    obtain ⟨d, hd, h⟩ := bind_eq_some_iff.mp h
    obtain ⟨rows, hrows, rfl⟩ := map_eq_some_iff.mp h
    have hforall := forall₂_of_mapM hrows
    have hwalk {p : Path} {n : Node Member} := mem_unorderedWalk (dirs.valid hd) (p := p) (n := n)
    refine .dir hd rfl rfl rfl rfl ?_ ?_
    · intro r hr
      obtain ⟨i, hi, rfl⟩ := getElem_of_mem hr
      have hi' : i < d.unorderedWalk.length := hforall.length_eq ▸ hi
      have hx := (forall₂_iff_get.mp hforall).2 i hi' hi
      obtain ⟨hne, htree⟩ := hwalk.mp (get_mem d.unorderedWalk ⟨i, hi'⟩)
      refine ⟨_, _, hne, ?_, convertNode_spec hx⟩
      rw [PathMap.map, htree]
      rfl
    · intro p n' hne hmap
      obtain ⟨n, htree, rfl⟩ := map_eq_some_iff.mp hmap
      obtain ⟨i, hi, hget⟩ := getElem_of_mem (hwalk.mpr ⟨hne, htree⟩)
      have hi' : i < rows.length := hforall.length_eq ▸ hi
      have hx := (forall₂_iff_get.mp hforall).2 i hi hi'
      simp only [get_eq_getElem, hget] at hx
      exact ⟨_, getElem_mem hi', convertNode_spec hx⟩

/-- Every row of an artifact belongs to it and lies at or below its path. -/
theorem RowsOf.owner (h : RowsOf q dirs e rows) (hr : r ∈ rows) : r.owner = q ∧ q <+: r.path := by
  cases h with
  | leaf path parent =>
    cases mem_singleton.mp hr
    exact ⟨by rw [SqliteEntry.owner, parent, path]; rfl, by rw [path]⟩
  | dir shared path parent time type sound =>
    rcases mem_cons.mp hr with rfl | hr
    · exact ⟨by rw [SqliteEntry.owner, parent, path]; rfl, by rw [path]⟩
    · obtain ⟨p, n, -, -, hdesc⟩ := sound r hr
      exact ⟨by rw [SqliteEntry.owner, hdesc.parent]; rfl, by
        rw [hdesc.path]
        exact prefix_append q p⟩

/-! ## Which artifacts a table holds -/

/-- The table consists of the rows of the artifacts `A`. -/
structure Holds (dirs : Directories) (rows : List SqliteEntry) (A : Path → Entry → Prop) :
    Prop where
  owned : ∀ r ∈ rows, ∃ e, A r.owner e
  rowsOf : ∀ q e, A q e → ∃ es, RowsOf q dirs e es ∧ ∀ r, r ∈ es ↔ r ∈ rows ∧ r.owner = q

variable {A B : Path → Entry → Prop}

theorem Holds.nil : Holds dirs [] fun _ _ => False := ⟨nofun, nofun⟩

theorem Holds.congr (h : Holds dirs rows A) (hAB : ∀ q e, A q e ↔ B q e) : Holds dirs rows B := by
  have : A = B := by
    funext q e
    exact propext (hAB q e)
  exact this ▸ h

theorem Holds.perm (h : Holds dirs rows A) (hperm : rows'.Perm rows) : Holds dirs rows' A := by
  refine ⟨fun r hr => h.owned r (hperm.mem_iff.mp hr), fun q e hq => ?_⟩
  obtain ⟨es, hes, hmem⟩ := h.rowsOf q e hq
  exact ⟨es, hes, fun r => by rw [hmem, hperm.mem_iff]⟩

/-- **Deleting some of the artifacts**, none of which is below one that stays. -/
theorem Holds.delete (h : Holds dirs rows A) {paths : List Path}
    (hpaths : ∀ q e, A q e → q ∉ paths → ∀ p ∈ paths, ¬ q <+: p) :
    Holds dirs (deleteFromTable rows paths) fun q e => A q e ∧ q ∉ paths := by
  have hmem (r : SqliteEntry) (hr : r ∈ rows) :
      r ∈ deleteFromTable rows paths ↔ r.owner ∉ paths := by
    obtain ⟨e, he⟩ := h.owned r hr
    obtain ⟨es, hes, hmem⟩ := h.rowsOf r.owner e he
    have hle := (hes.owner ((hmem r).mpr ⟨hr, rfl⟩)).2
    have hself (hnone : r.parentPath = none) : r.path = r.owner := by
      rw [SqliteEntry.owner, hnone]
      rfl
    have hparent (parent) (hp : r.parentPath = some parent) : parent = r.owner := by
      rw [SqliteEntry.owner, hp]
      rfl
    rw [deleteFromTable, mem_filter]
    simp only [hr, true_and, decide_eq_true_eq]
    constructor
    · rintro ⟨hpath, hpar⟩ hmem
      cases hp : r.parentPath with
      | none => exact hpath (hself hp ▸ hmem)
      | some parent => exact hpar parent hp (hparent parent hp ▸ hmem)
    · intro howner
      exact ⟨fun hpath => hpaths r.owner e he howner r.path hpath hle,
        fun parent hp hmem => howner (hparent parent hp ▸ hmem)⟩
  have hsub : ∀ r ∈ deleteFromTable rows paths, r ∈ rows := fun r hr => (mem_filter.mp hr).1
  constructor
  · intro r hr
    obtain ⟨e, he⟩ := h.owned r (hsub r hr)
    exact ⟨e, he, (hmem r (hsub r hr)).mp hr⟩
  · rintro q e ⟨hq, hpath⟩
    obtain ⟨es, hes, hin⟩ := h.rowsOf q e hq
    refine ⟨es, hes, fun r => ?_⟩
    rw [hin]
    constructor
    · rintro ⟨hr, rfl⟩
      exact ⟨(hmem r hr).mpr hpath, rfl⟩
    · rintro ⟨hr, rfl⟩
      exact ⟨hsub r hr, rfl⟩

theorem foldlM_insertRow {es : List SqliteEntry} (h : es.foldlM insertRow rows = some rows') :
    rows' = rows ++ es := by
  induction es generalizing rows with
  | nil =>
    cases h
    rw [append_nil]
  | cons r es ih =>
    obtain ⟨rows1, h1, h⟩ := bind_eq_some_iff.mp h
    rw [insertRow] at h1
    split at h1
    · cases h1
    · cases h1
      rw [ih h, append_assoc]
      rfl

/-- **Inserting an artifact** that is not below another one. -/
theorem Holds.insert (h : Holds dirs rows A) (hpath : ∀ q e, A q e → q ≠ path → ¬ q <+: path)
    (hinsert : insertArtifact dirs rows path e time = some rows') :
    Holds dirs rows' fun q e' => if q = path then e' = e else A q e' := by
  obtain ⟨es, hes, hinsert⟩ := bind_eq_some_iff.mp hinsert
  cases foldlM_insertRow hinsert
  have hes := convertArtifactMetadata_spec hes
  have hkept : Holds dirs (deleteFromTable rows [path]) fun q e => A q e ∧ q ∉ [path] := by
    refine h.delete fun q e' hq hne p hp => ?_
    cases mem_singleton.mp hp
    exact hpath q e' hq fun heq => hne (mem_singleton.mpr heq)
  constructor
  · intro r hr
    rcases mem_append.mp hr with hr | hr
    · obtain ⟨e', he', hne⟩ := hkept.owned r hr
      refine ⟨e', ?_⟩
      rw [if_neg fun heq => hne (mem_singleton.mpr heq)]
      exact he'
    · exact ⟨e, by rw [if_pos (hes.owner hr).1]⟩
  · intro q e' hq
    by_cases hqp : q = path
    · rw [if_pos hqp] at hq
      subst hqp
      subst hq
      refine ⟨es, hes, fun r => ⟨fun hr => ⟨mem_append_right _ hr, (hes.owner hr).1⟩, ?_⟩⟩
      rintro ⟨hr, howner⟩
      rcases mem_append.mp hr with hr | hr
      · obtain ⟨_, -, hne⟩ := hkept.owned r hr
        exact absurd (mem_singleton.mpr howner) hne
      · exact hr
    · rw [if_neg hqp] at hq
      obtain ⟨es', hes', hin⟩ := hkept.rowsOf q e' ⟨hq, fun h => hqp (mem_singleton.mp h)⟩
      refine ⟨es', hes', fun r => ?_⟩
      rw [hin, mem_append]
      constructor
      · rintro ⟨hr, rfl⟩
        exact ⟨.inl hr, rfl⟩
      · rintro ⟨hr | hr, rfl⟩
        · exact ⟨hr, rfl⟩
        · exact absurd (hes.owner hr).1 hqp

/-! ## Reading back -/

/-- The row makes a directory known to the first pass. -/
def SqliteEntry.OfDirectory (r : SqliteEntry) (q : Path) : Prop :=
  r.parentPath = some q ∨ r.parentPath = none ∧ r.artifactType = .directory ∧ r.path = q

/-- The row is that of an artifact which is no directory. -/
def SqliteEntry.OfLeaf (config : DigestConfig) (r : SqliteEntry) (x : MaterializerStateEntry) :
    Prop :=
  r.parentPath = none ∧ r.artifactType ≠ .directory ∧ r.path = x.path ∧
    r.lastAccessTime = some x.lastAccessTime ∧ ∃ member, convertToMember config r = .ok member ∧
      x.metadata = .leaf member

/-- What the first pass has collected from some rows. -/
structure Collected (config : DigestConfig) (rows : List SqliteEntry)
    (acc : List (Path × DirectoryData) × List MaterializerStateEntry) : Prop where
  nodup : (acc.1.map Prod.fst).Nodup
  known : ∀ q, (child acc.1 q).isSome ↔ ∃ r ∈ rows, r.OfDirectory q
  children : ∀ q data, child acc.1 q = some data →
    ∀ r, r ∈ data.children ↔ r ∈ rows ∧ r.parentPath = some q
  timestamp : ∀ q data, child acc.1 q = some data → (data.timestamp.isSome ↔
    ∃ r ∈ rows, r.parentPath = none ∧ r.artifactType = .directory ∧ r.path = q)
  leaves : ∀ x, x ∈ acc.2 ↔ ∃ r ∈ rows, r.OfLeaf config x
  paths : (acc.2.map (·.path)).Sublist (rows.map (·.path))

/-- The row has what the first pass looks at. -/
def SqliteEntry.Readable (config : DigestConfig) (r : SqliteEntry) : Prop :=
  r.parentPath = none → r.lastAccessTime.isSome ∧
    (r.artifactType ≠ .directory → ∃ member, convertToMember config r = .ok member)

theorem exists_mem_concat {α : Type} {P : α → Prop} {l : List α} {a : α} :
    (∃ x ∈ l ++ [a], P x) ↔ (∃ x ∈ l, P x) ∨ P a := by
  simp [or_and_right, exists_or]

/-- A row changes what is known of the directory it belongs to. -/
theorem Collected.orDefault (h : Collected config rows acc) {f : DirectoryData → DirectoryData}
    (hr : ∀ q', r.OfDirectory q' ↔ q' = q) (hleaf : ∀ x, ¬ r.OfLeaf config x)
    (hchildren : ∀ data r', r' ∈ (f data).children ↔ r' ∈ data.children ∨ r' = r ∧ r.parentPath =
      some q)
    (htimestamp : ∀ data, (f data).timestamp.isSome ↔ data.timestamp.isSome ∨ r.parentPath =
      none ∧ r.artifactType = .directory ∧ r.path = q) :
    Collected config (rows ++ [r]) (orDefault acc.1 q f, acc.2) := by
  have hown {q' : Path} (hp : r.parentPath = some q' ∨
      r.parentPath = none ∧ r.artifactType = .directory ∧ r.path = q') : q' = q := (hr q').mp hp
  have hlookup (q' : Path) : child (Materializer.orDefault acc.1 q f) q' =
      if q' = q then some (f ((child acc.1 q).getD ⟨none, []⟩)) else child acc.1 q' :=
    child_setChild q _ q'
  -- what was there before, or the default for a directory that no row has named
  have hold : (∀ r', r' ∈ ((child acc.1 q).getD ⟨none, []⟩).children ↔
        r' ∈ rows ∧ r'.parentPath = some q) ∧
      (((child acc.1 q).getD ⟨none, []⟩).timestamp.isSome ↔
        ∃ r ∈ rows, r.parentPath = none ∧ r.artifactType = .directory ∧ r.path = q) := by
    cases hq : child acc.1 q with
    | some data => exact ⟨h.children q data hq, h.timestamp q data hq⟩
    | none =>
      have hnone : ¬ ∃ r ∈ rows, r.OfDirectory q := by
        rw [← h.known, hq]
        simp
      refine ⟨fun r' => ⟨nofun, fun hr' => absurd ⟨r', hr'.1, .inl hr'.2⟩ hnone⟩, nofun, ?_⟩
      rintro ⟨r', hr', hdir⟩
      exact absurd ⟨r', hr', .inr hdir⟩ hnone
  refine ⟨nodup_setChild h.nodup q _, fun q' => ?_, fun q' data hq' r' => ?_,
    fun q' data hq' => ?_, fun x => ?_, ?_⟩
  · rw [hlookup, exists_mem_concat, hr, ← h.known]
    split <;> simp_all
  · rw [hlookup] at hq'
    rw [mem_append, mem_singleton]
    split at hq'
    · next heq =>
      cases hq'
      rw [hchildren, hold.1, heq]
      constructor
      · rintro (⟨hr', hp⟩ | ⟨rfl, hp⟩)
        · exact ⟨.inl hr', hp⟩
        · exact ⟨.inr rfl, hp⟩
      · rintro ⟨hr' | rfl, hp⟩
        · exact .inl ⟨hr', hp⟩
        · exact .inr ⟨rfl, hp⟩
    · next hne =>
      rw [h.children q' data hq']
      constructor
      · rintro ⟨hr', hp⟩
        exact ⟨.inl hr', hp⟩
      · rintro ⟨hr' | rfl, hp⟩
        · exact ⟨hr', hp⟩
        · exact absurd (hown (.inl hp)) hne
  · rw [hlookup] at hq'
    rw [exists_mem_concat]
    split at hq'
    · next heq =>
      cases hq'
      rw [htimestamp, hold.2, heq]
    · next hne =>
      rw [h.timestamp q' data hq']
      exact ⟨.inl, fun h => h.resolve_right fun hdir => hne (hown (.inr hdir))⟩
  · rw [exists_mem_concat, h.leaves x]
    exact ⟨.inl, fun h => h.resolve_right (hleaf x)⟩
  · rw [map_append]
    exact h.paths.trans (sublist_append_left _ _)

theorem collectEntry_ok (h : Collected config rows acc) (hr : r.Readable config) :
    ∃ acc', collectEntry config acc r = .ok acc' ∧ Collected config (rows ++ [r]) acc' := by
  rw [collectEntry]
  cases hparent : r.parentPath with
  | some parent =>
    refine ⟨_, rfl, h.orDefault (fun q' => ?_) (fun x hx => ?_) (fun data r' => ?_) fun data => ?_⟩
    · simp [SqliteEntry.OfDirectory, hparent, eq_comm]
    · rw [SqliteEntry.OfLeaf, hparent] at hx
      cases hx.1
    · simp [hparent]
    · simp [hparent]
  | none =>
    obtain ⟨htime, hmember⟩ := hr hparent
    obtain ⟨time, htime⟩ := isSome_iff_exists.mp htime
    simp only [htime]
    by_cases htype : r.artifactType = .directory
    · rw [htype]
      refine ⟨_, rfl, h.orDefault (fun q' => ?_) (fun x hx => hx.2.1 htype) (fun data r' => ?_)
        fun data => ?_⟩
      · simp [SqliteEntry.OfDirectory, hparent, htype, eq_comm]
      · simp [hparent]
      · simp [hparent, htype]
    · obtain ⟨member, hmember⟩ := hmember htype
      have hcollect : (match r.artifactType with
          | .directory => .ok (orDefault acc.1 r.path fun data =>
              { data with timestamp := some time }, acc.2)
          | _ => (convertToMember config r).map fun member =>
              (acc.1, acc.2 ++ [⟨r.path, .leaf member, time⟩])) =
          (.ok (acc.1, acc.2 ++ [⟨r.path, .leaf member, time⟩]) :
            Except MaterializerStateTableError _) := by
        rw [hmember]
        cases htype' : r.artifactType with
        | directory => exact absurd htype' htype
        | file | symlink | externalSymlink => rfl
      have hnot (q : Path) : ¬ r.OfDirectory q := by
        rintro (hp | ⟨-, hdir, -⟩)
        · rw [hparent] at hp
          cases hp
        · exact htype hdir
      refine ⟨_, hcollect, h.nodup, fun q => ?_, fun q data hq r' => ?_, fun q data hq => ?_,
        fun x => ?_, ?_⟩
      · rw [exists_mem_concat, h.known]
        exact ⟨.inl, fun h => h.resolve_right (hnot q)⟩
      · rw [h.children q data hq, mem_append, mem_singleton]
        refine ⟨fun hr' => ⟨.inl hr'.1, hr'.2⟩, ?_⟩
        rintro ⟨hr' | rfl, hp⟩
        · exact ⟨hr', hp⟩
        · rw [hparent] at hp
          cases hp
      · rw [h.timestamp q data hq, exists_mem_concat]
        exact ⟨.inl, fun h => h.resolve_right fun hdir => htype hdir.2.1⟩
      · rw [exists_mem_concat, mem_append, h.leaves, mem_singleton]
        refine or_congr_right ⟨?_, ?_⟩
        · rintro rfl
          exact ⟨hparent, htype, rfl, htime, member, hmember, rfl⟩
        · rintro ⟨-, -, hpath, htime', member', hmember', hmeta⟩
          obtain ⟨xpath, xmeta, xtime⟩ := x
          rw [htime] at htime'
          rw [hmember] at hmember'
          cases htime'
          cases hmember'
          cases hpath
          cases hmeta
          rfl
      · rw [map_append, map_append]
        exact h.paths.append (List.Sublist.refl _)

/-- **The first pass** collects the directories and the other artifacts. -/
theorem collect_ok (h : ∀ r ∈ rows, r.Readable config) :
    ∃ acc, rows.foldlM (collectEntry config) ([], []) = .ok acc ∧ Collected config rows acc := by
  induction rows using List.reverseRecOn with
  | nil =>
    exact ⟨_, rfl, nodup_nil, fun q => by simp [child], nofun, nofun,
      fun x => by simp, List.Sublist.refl _⟩
  | append_singleton rows r ih =>
    obtain ⟨acc, hacc, hcollected⟩ := ih fun r' hr' => h r' (mem_append_left _ hr')
    obtain ⟨acc', hstep, hcollected'⟩ := collectEntry_ok hcollected (h r (by simp))
    refine ⟨acc', ?_, hcollected'⟩
    rw [foldlM_append, hacc, ok_bind, foldlM_cons, hstep]
    rfl

/-- The row of a node of the tree adds it to a part of the tree. -/
theorem addChild_within {p : Path} (hT : PathMap.IsTree T) {n : Node Member} (hp : T p = some n)
    (hdesc : Describes config q r p n) {b : SharedDirectory} (hb : PathMap.Within b.tree T) :
    ∃ b', addChild config q b r = .ok b' ∧ PathMap.Within b'.tree T ∧
      PathMap.Within b.tree b'.tree ∧ b'.tree p = some n := by
  rw [addChild, hdesc.path, stripBase, if_pos (prefix_append q p), drop_left]
  cases n with
  | dir =>
    obtain ⟨b', hmk, hwithin, hgrow, hself⟩ := mkdir_within hT hb hp
    have htype : r.artifactType = .directory := hdesc.node
    simp only [htype, if_true, hmk]
    exact ⟨b', rfl, hwithin, hgrow, hself⟩
  | leaf member =>
    obtain ⟨b', old, hins, hwithin, hgrow, hself⟩ := insert_within hT hb hp
    obtain ⟨htype, hmember⟩ := hdesc.node
    simp only [htype, if_false, hmember, hins]
    exact ⟨b', rfl, hwithin, hgrow, hself⟩

/-- **The rows of the nodes of a directory recreate it**, in any order. -/
theorem addChildren_ok (hT : PathMap.IsTree T) {children : List SqliteEntry}
    (sound : ∀ r ∈ children, ∃ p n, p ≠ [] ∧ T p = some n ∧ Describes config q r p n)
    (complete : ∀ p n, p ≠ [] → T p = some n → ∃ r ∈ children, Describes config q r p n) :
    ∃ builder, children.foldlM (addChild config q) .empty = .ok builder ∧ builder.tree = T := by
  -- a row has been added when the node it describes is there
  let Added (r : SqliteEntry) (b : SharedDirectory) : Prop :=
    ∀ p n, T p = some n → Describes config q r p n → b.tree p = some n
  have hround : ∀ r ∈ children, ∀ b : SharedDirectory, PathMap.Within b.tree T →
      ∃ b', addChild config q b r = .ok b' ∧ PathMap.Within b'.tree T ∧ Added r b' ∧
        ∀ r', Added r' b → Added r' b' := by
    intro r hr b hb
    obtain ⟨p, n, -, hp, hdesc⟩ := sound r hr
    obtain ⟨b', hadd, hwithin, hgrow, hself⟩ := addChild_within hT hp hdesc hb
    refine ⟨b', hadd, hwithin, fun p' n' hp' hdesc' => ?_,
      fun r' hr' p' n' hp' hdesc' => hgrow p' n' (hr' p' n' hp' hdesc')⟩
    cases append_cancel_left (hdesc'.path.symm.trans hdesc.path)
    rw [hself, ← hp, hp']
  have hempty : PathMap.Within (.empty : SharedDirectory).tree T := by
    intro p n hp
    cases p with
    | nil =>
      rw [tree_nil] at hp
      rw [← hp, hT.root]
    | cons k p =>
      cases hp
  obtain ⟨builder, hfold, hwithin, hadded, -⟩ := foldlM_succeeds hround hempty
  refine ⟨builder, hfold, hwithin.antisymm fun p n hp => ?_⟩
  by_cases hne : p = []
  · subst hne
    rw [← hp, tree_nil, hT.root]
  · obtain ⟨r, hr, hdesc⟩ := complete p n hne hp
    exact hadded r hr p n hp hdesc

theorem Holds.readable (h : Holds dirs rows A) (hr : r ∈ rows) :
    r.Readable dirs.toDigestConfig := by
  intro hparent
  obtain ⟨e, he⟩ := h.owned r hr
  obtain ⟨es, hes, hmem⟩ := h.rowsOf r.owner e he
  have hrow := (hmem r).mpr ⟨hr, rfl⟩
  cases hes with
  | leaf path parent time type reads =>
    cases mem_singleton.mp hrow
    exact ⟨by rw [time]; rfl, fun _ => ⟨_, reads⟩⟩
  | dir shared path parent time type sound =>
    rcases mem_cons.mp hrow with rfl | hrow
    · exact ⟨by rw [time]; rfl, fun hne => absurd type hne⟩
    · obtain ⟨p, n, -, -, hdesc⟩ := sound r hrow
      rw [hdesc.parent] at hparent
      cases hparent

theorem SqliteEntry.OfDirectory.owner (h : r.OfDirectory q) : r.owner = q := by
  rw [SqliteEntry.owner]
  rcases h with h | ⟨h, -, hpath⟩
  · rw [h]
    rfl
  · rw [h]
    exact hpath

/-- **A directory of the first pass is recreated.** -/
theorem Holds.recreate (h : Holds dirs rows A) (hacc : Collected dirs.toDigestConfig rows acc)
    {data : DirectoryData} (hq : child acc.1 q = some data) :
    ∃ name time, A q (.dir name) ∧ ∀ results, recreateDirectory dirs results (q, data) =
      .ok (results ++ [⟨q, dirs.readBack (.dir name), time⟩]) := by
  obtain ⟨r, hr, hdir⟩ := (hacc.known q).mp (by rw [hq]; rfl)
  obtain ⟨e, he⟩ := h.owned r hr
  rw [hdir.owner] at he
  obtain ⟨es, hes, hmem⟩ := h.rowsOf q e he
  have hrow := (hmem r).mpr ⟨hr, hdir.owner⟩
  cases hes with
  | leaf path parent time type reads =>
    cases mem_singleton.mp hrow
    rcases hdir with hp | ⟨-, hdir, -⟩
    · rw [parent] at hp
      cases hp
    · exact absurd hdir type
  | @dir name d root members time shared path parent htime type sound complete =>
    -- the children are the rows of the nodes
    have hchildren (r : SqliteEntry) : r ∈ data.children ↔ r ∈ members := by
      rw [hacc.children q data hq]
      constructor
      · rintro ⟨hr, hp⟩
        have howner : r.owner = q := SqliteEntry.OfDirectory.owner (.inl hp)
        rcases mem_cons.mp ((hmem r).mpr ⟨hr, howner⟩) with rfl | hr
        · rw [parent] at hp
          cases hp
        · exact hr
      · intro hr
        obtain ⟨p, n, -, -, hdesc⟩ := sound r hr
        exact ⟨((hmem r).mp (mem_cons_of_mem _ hr)).1, hdesc.parent⟩
    obtain ⟨builder, hfold, htree⟩ := addChildren_ok (d.isTree.map dirs.received)
      (fun r hr => sound r ((hchildren r).mp hr)) fun p n hne hp =>
        (complete p n hne hp).imp fun r hr => ⟨(hchildren r).mpr hr.1, hr.2⟩
    have hroot := (hmem root).mp mem_cons_self
    obtain ⟨time', htime'⟩ := isSome_iff_exists.mp
      ((hacc.timestamp q data hq).mpr ⟨root, hroot.1, parent, type, path⟩)
    refine ⟨name, time', he, fun results => ?_⟩
    rw [recreateDirectory, hfold, htime']
    simp only [htree, Directories.readBack, shared]

theorem Holds.ofLeaf (h : Holds dirs rows A) {x : MaterializerStateEntry}
    (hx : ∃ r ∈ rows, r.OfLeaf dirs.toDigestConfig x) :
    ∃ member, A x.path (.leaf member) ∧ x.metadata = dirs.readBack (.leaf member) := by
  obtain ⟨r, hr, hnone, htype, hpath, -, member, hmember, hmeta⟩ := hx
  obtain ⟨e, he⟩ := h.owned r hr
  obtain ⟨es, hes, hmem⟩ := h.rowsOf r.owner e he
  have hrow := (hmem r).mpr ⟨hr, rfl⟩
  have howner : r.owner = x.path := by
    rw [SqliteEntry.owner, hnone]
    exact hpath
  rw [howner] at he
  cases hes with
  | leaf path parent time type reads =>
    cases mem_singleton.mp hrow
    rw [hmember] at reads
    cases reads
    exact ⟨_, he, hmeta⟩
  | dir shared path parent time type sound =>
    rcases mem_cons.mp hrow with rfl | hrow
    · exact absurd type htype
    · obtain ⟨p, n, -, -, hdesc⟩ := sound r hrow
      rw [hdesc.parent] at hnone
      cases hnone

/-- **A table is read back as the artifacts whose rows it holds**, in any order and up to the
digests of empty files. -/
theorem read_ok {order : List (Path × DirectoryData) → List (Path × DirectoryData)}
    (horder : ∀ directories, (order directories).Perm directories) (h : Holds dirs rows A)
    (hA : ∀ q e e', A q e → A q e' → e = e') :
    ∃ entries, convertToMaterializerState dirs order rows = .ok entries ∧
      (∀ x ∈ entries, ∃ e, A x.path e ∧ x.metadata = dirs.readBack e) ∧
      (∀ q e, A q e → ∃ x ∈ entries, x.path = q ∧ x.metadata = dirs.readBack e) ∧
      ((rows.map (·.path)).Nodup → (entries.map (·.path)).Nodup) := by
  obtain ⟨⟨directories, leaves⟩, hfold, hacc⟩ := collect_ok fun r hr => h.readable hr
  have hlookup {q : Path} {data : DirectoryData} :
      child directories q = some data ↔ (q, data) ∈ order directories := by
    rw [child_eq_some_iff hacc.nodup, (horder directories).mem_iff]
  -- every round of the second pass adds one artifact
  have hsecond (rest : List (Path × DirectoryData)) (hrest : ∀ e ∈ rest, e ∈ order directories)
      (results : List MaterializerStateEntry) :
      ∃ entries, rest.foldlM (recreateDirectory dirs) results = .ok entries ∧
        (∀ x ∈ results, x ∈ entries) ∧
        (∀ x ∈ entries, x ∈ results ∨ ∃ e, A x.path e ∧ x.metadata = dirs.readBack e) ∧
        entries.map (·.path) = results.map (·.path) ++ rest.map Prod.fst := by
    induction rest generalizing results with
    | nil => exact ⟨results, rfl, fun _ hx => hx, fun _ hx => .inl hx, (append_nil _).symm⟩
    | cons e rest ih =>
      obtain ⟨name, time, hname, hround⟩ := h.recreate hacc (hlookup.mpr (hrest e mem_cons_self))
      obtain ⟨entries, hentries, hkeep, hfrom, hpaths⟩ :=
        ih (fun e' he' => hrest e' (mem_cons_of_mem _ he')) 
          (results ++ [⟨e.1, dirs.readBack (.dir name), time⟩])
      refine ⟨entries, ?_, fun x hx => hkeep x (mem_append_left _ hx), fun x hx => ?_, ?_⟩
      · rw [foldlM_cons, hround results]
        exact hentries
      · rcases hfrom x hx with hx | hx
        · rcases mem_append.mp hx with hx | hx
          · exact .inl hx
          · cases mem_singleton.mp hx
            exact .inr ⟨_, hname, rfl⟩
        · exact .inr hx
      · rw [hpaths, map_append, append_assoc]
        rfl
  obtain ⟨entries, hentries, hkeep, hfrom, hpaths⟩ :=
    hsecond (order directories) (fun _ h => h) leaves
  have hsound : ∀ x ∈ entries, ∃ e, A x.path e ∧ x.metadata = dirs.readBack e := by
    intro x hx
    refine (hfrom x hx).elim (fun hx => ?_) id
    obtain ⟨member, hmember, hmeta⟩ := h.ofLeaf ((hacc.leaves x).mp hx)
    exact ⟨_, hmember, hmeta⟩
  refine ⟨entries, by rw [convertToMaterializerState, hfold]; exact hentries, hsound, ?_, ?_⟩
  swap
  · intro hnodup
    rw [hpaths]
    refine List.Nodup.append (hnodup.sublist hacc.paths)
      (((horder directories).map Prod.fst).nodup_iff.mpr hacc.nodup) fun q hleaf hdir => ?_
    -- no artifact is both a directory and not
    obtain ⟨x, hx, rfl⟩ := mem_map.mp hleaf
    obtain ⟨⟨q, data⟩, hmem, rfl⟩ := mem_map.mp hdir
    obtain ⟨name, -, hname, -⟩ := h.recreate hacc (hlookup.mpr hmem)
    obtain ⟨r, hr, hofleaf⟩ := (hacc.leaves x).mp hx
    obtain ⟨member, hmember, -⟩ := h.ofLeaf ⟨r, hr, hofleaf⟩
    cases hA _ _ _ hname hmember
  intro q e he
  suffices ∃ x ∈ entries, x.path = q by
    obtain ⟨x, hx, rfl⟩ := this
    obtain ⟨e', he', hmeta⟩ := hsound x hx
    exact ⟨x, hx, rfl, by rw [hmeta, hA _ _ _ he' he]⟩
  obtain ⟨es, hes, hmem⟩ := h.rowsOf q e he
  cases hes with
  | leaf path parent time type reads =>
    have hr := (hmem _).mp mem_cons_self
    exact ⟨⟨q, _, _⟩, hkeep _ ((hacc.leaves _).mpr ⟨_, hr.1, parent, type, path, time, _, reads,
      rfl⟩),
      rfl⟩
  | dir shared path parent time type =>
    have hr := (hmem _).mp mem_cons_self
    obtain ⟨data, hdata⟩ := isSome_iff_exists.mp
      ((hacc.known q).mpr ⟨_, hr.1, .inr ⟨parent, type, path⟩⟩)
    have hq : q ∈ entries.map (·.path) := by
      rw [hpaths]
      exact mem_append_right _ (mem_map.mpr ⟨_, hlookup.mp hdata, rfl⟩)
    exact mem_map.mp hq

end Bz.Materializer
