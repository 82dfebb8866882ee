import Bz.Files.FileSystem
import Mathlib.Data.List.Sort
import Mathlib.Data.String.Basic

/-!
# Metadata reads and the no-watchfs metadata cache

`read_path_metadata_for_no_watchfs` of `bz_common/src/io/fs.rs` walks down a path and stops at the
first symlink.  `read_path_metadata_for_no_watchfs_cached` is the same walk over a
`NoWatchFsMetadataCache`, which directory reads seed with what they list.
-/

namespace Bz.Files

/-! ## Metadata -/

/-- A symlink that leads out of the project, and the rest of the path behind it. -/
structure ExternalSymlink where
  absTarget : List Component
  remainingPath : Path

/-- Where a symlink leads: a path of the project with the verbatim target, or out of it. -/
inductive RawSymlink where
  | relative (linkPath : Path) (target : List Component)
  | external (symlink : ExternalSymlink)

/-- `RawPathMetadata`, of `FileMetadata`, and `RawPathMetadataForNoWatchFs`, of `FileContentsProxy`.
-/
inductive PathMetadata (F : Type) where
  | symlink (linkAt : Path) (linkTo : RawSymlink)
  | file (metadata : F)
  | directory

abbrev RawPathMetadataForNoWatchFs := PathMetadata FileContentsProxy

/-- The errors of a read: of the operating system, `Attempted to access empty path`, and
`Invalid symlink at`. -/
inductive ReadError where
  | io (error : IoError)
  | emptyPath
  | invalidSymlink (linkAt : Path) (target : List Component)

/-! ## The uncached walk -/

/-- `join_normalized`: no result when the target leaves the project. -/
def joinNormalized (p : Path) : List Component → Option Path
  | [] => some p
  | .curDir :: cs => joinNormalized p cs
  | .parentDir :: cs => if p = [] then none else joinNormalized p.dropLast cs
  | .normal c :: cs => joinNormalized (p ++ [c]) cs

/-- A symlink as it was read. -/
inductive ExactPathSymlinkMetadata where
  | externalSymlink (target : List Component)
  | internalSymlink (linkPath : Path) (target : List Component)

/-- What `lstat` and `read_link` say. -/
inductive ExactPathMetadata where
  | doesNotExist
  | symlink (metadata : ExactPathSymlinkMetadata)
  | fileOrDirectory (stat : Stat)

namespace ExactPathSymlinkMetadata

def fromSymlinkPath (os : Os) (curr : Path) : Except ReadError ExactPathSymlinkMetadata :=
  match os.readLink curr with
  | .error e => .error (.io e)
  | .ok (.absolute dest) => .ok (.externalSymlink dest)
  | .ok (.relative dest) => match joinNormalized curr.dropLast dest with
    | some linkPath => .ok (.internalSymlink linkPath dest)
    | none => .error (.invalidSymlink curr dest)

/-- `into_raw_path_metadata` and `into_raw_path_metadata_for_no_watchfs`. -/
def intoRawPathMetadata {F : Type} (s : ExactPathSymlinkMetadata) (curr rest : Path) :
    PathMetadata F :=
  match s with
  | externalSymlink target => .symlink curr (.external ⟨target, rest⟩)
  | internalSymlink linkPath target =>
    .symlink curr (.relative (linkPath ++ rest) (target ++ rest.map .normal))

end ExactPathSymlinkMetadata

open ExactPathSymlinkMetadata

def ExactPathMetadata.fromExactPath (os : Os) (curr : Path) : Except ReadError ExactPathMetadata :=
  match os.lstat curr with
  | .error e => .error (.io e)
  | .ok (some .symlink) => (fromSymlinkPath os curr).map .symlink
  | .ok (some stat) => .ok (.fileOrDirectory stat)
  | .ok none => .ok .doesNotExist

/-- The loop of `read_path_metadata` and `read_path_metadata_for_no_watchfs`: the path so far, the
last metadata, and the remaining components. -/
def readPathMetadataFrom {F : Type} (os : Os)
    (convert : Path → Stat → Except ReadError (PathMetadata F)) (curr : Path) (last : Option Stat) :
    Path → Except ReadError (Option (PathMetadata F))
  | [] => match last with
    | none => .error .emptyPath
    | some stat => (convert curr stat).map some
  | c :: rest => match ExactPathMetadata.fromExactPath os (curr ++ [c]) with
    | .error e => .error e
    | .ok .doesNotExist => .ok none
    | .ok (.symlink s) => .ok (some (s.intoRawPathMetadata (curr ++ [c]) rest))
    | .ok (.fileOrDirectory stat) => readPathMetadataFrom os convert (curr ++ [c]) (some stat) rest

/-- The metadata of something that is no symlink. -/
def convertMetadataForNoWatchfs : Stat → RawPathMetadataForNoWatchFs
  | .file proxy => .file proxy
  | _ => .directory

def readPathMetadataForNoWatchfs (os : Os) (relpath : Path) :
    Except ReadError (Option RawPathMetadataForNoWatchFs) :=
  readPathMetadataFrom os (fun _ stat => .ok (convertMetadataForNoWatchfs stat)) [] none relpath

/-! ## The cache -/

/-- The shared cache of reads. -/
structure NoWatchFsMetadataCache where
  metadata : Path → Option (Option RawPathMetadataForNoWatchFs)
  readdirs : Path → Option (List RawDirEntry)

/-- `entry(key).or_insert(value)`. -/
def orInsert {α : Type} (m : Path → Option α) (key : Path) (value : α) : Path → Option α :=
  fun q => if q = key then some ((m key).getD value) else m q

def verifyFileName (name : String) : Bool :=
  name ≠ "" ∧ name ≠ "." ∧ name ≠ ".." ∧ '/' ∉ name.toList ∧ '\\' ∉ name.toList

/-- What a cached listing says. -/
inductive CachedDirentType where
  | found (fileType : FileType)
  | notFound
  | unknown

namespace NoWatchFsMetadataCache

def default : NoWatchFsMetadataCache := ⟨fun _ => none, fun _ => none⟩

/-- Directories in a listing are seeded as well, if their names are file names. -/
def seedEntry (dir : Path) (metadata : Path → Option (Option RawPathMetadataForNoWatchFs))
    (entry : RawDirEntry) : Path → Option (Option RawPathMetadataForNoWatchFs) :=
  if entry.fileType = .directory ∧ verifyFileName entry.fileName = true then
    orInsert metadata (dir ++ [entry.fileName]) (some .directory)
  else metadata

def seedReaddir (cache : NoWatchFsMetadataCache) (dir : Path) (entries : List RawDirEntry) :
    NoWatchFsMetadataCache where
  readdirs := orInsert cache.readdirs dir entries
  metadata := entries.foldl (seedEntry dir) (orInsert cache.metadata dir (some .directory))

/-- On a case-sensitive file system, an entry that is not listed does not exist. -/
def cachedDirentType (cache : NoWatchFsMetadataCache) (path : Path) : CachedDirentType :=
  match path.getLast? with
  | none => .unknown
  | some fileName => match cache.readdirs path.dropLast with
    | none => .unknown
    | some parent => match parent.find? fun entry => entry.fileName = fileName with
      | some entry => .found entry.fileType
      | none => .notFound

end NoWatchFsMetadataCache

/-! ## The cached walk -/

def exactPathMetadataForNoWatchfs (os : Os) (curr : Path) :
    Except ReadError (Option RawPathMetadataForNoWatchFs) :=
  (ExactPathMetadata.fromExactPath os curr).map fun
    | .doesNotExist => none
    | .symlink s => some (s.intoRawPathMetadata curr [])
    | .fileOrDirectory stat => some (convertMetadataForNoWatchfs stat)

def exactPathMetadataForNoWatchfsWithCachedType (os : Os) (curr : Path)
    (cache : NoWatchFsMetadataCache) : Except ReadError (Option RawPathMetadataForNoWatchFs) :=
  match cache.cachedDirentType curr with
  | .found .directory => .ok (some .directory)
  | .found .symlink => (fromSymlinkPath os curr).map fun s => some (s.intoRawPathMetadata curr [])
  | .notFound => .ok none
  | .found .file => exactPathMetadataForNoWatchfs os curr
  | .found .unknown => exactPathMetadataForNoWatchfs os curr
  | .unknown => exactPathMetadataForNoWatchfs os curr

def exactPathMetadataForNoWatchfsCached (os : Os) (curr : Path) (cache : NoWatchFsMetadataCache) :
    Except ReadError (Option RawPathMetadataForNoWatchFs) × NoWatchFsMetadataCache :=
  match cache.metadata curr with
  | some cached => (.ok cached, cache)
  | none => match exactPathMetadataForNoWatchfsWithCachedType os curr cache with
    | .ok metadata =>
      (.ok metadata,
        { cache with metadata := Function.update cache.metadata curr (some metadata) })
    | .error e => (.error e, cache)

def appendSymlinkRestForNoWatchfs (linkAt : Path) (linkTo : RawSymlink) (rest : Path) :
    RawPathMetadataForNoWatchFs :=
  .symlink linkAt <|
    if rest = [] then linkTo
    else match linkTo with
      | .external e => .external ⟨e.absTarget, e.remainingPath ++ rest⟩
      | .relative linkPath target => .relative (linkPath ++ rest) (target ++ rest.map .normal)

/-- The loop of `read_path_metadata_for_no_watchfs_cached`. -/
def readCachedFrom (os : Os) (curr : Path) (last : Option RawPathMetadataForNoWatchFs) :
    Path → NoWatchFsMetadataCache →
      Except ReadError (Option RawPathMetadataForNoWatchFs) × NoWatchFsMetadataCache
  | [], cache => match last with
    | none => (.error .emptyPath, cache)
    | some metadata => (.ok (some metadata), cache)
  | c :: rest, cache => match exactPathMetadataForNoWatchfsCached os (curr ++ [c]) cache with
    | (.error e, cache) => (.error e, cache)
    | (.ok none, cache) => (.ok none, cache)
    | (.ok (some (.symlink linkAt linkTo)), cache) =>
      (.ok (some (appendSymlinkRestForNoWatchfs linkAt linkTo rest)), cache)
    | (.ok (some metadata), cache) => readCachedFrom os (curr ++ [c]) (some metadata) rest cache

def readPathMetadataForNoWatchfsCached (os : Os) (relpath : Path) (cache : NoWatchFsMetadataCache) :
    Except ReadError (Option RawPathMetadataForNoWatchFs) × NoWatchFsMetadataCache :=
  readCachedFrom os [] none relpath cache

/-- `read_dir` of the operating system, with the entries sorted by name. -/
def readDirUncached (os : Os) (path : Path) : Except ReadError (List RawDirEntry) :=
  match os.readDir path with
  | .error e => .error (.io e)
  | .ok entries => .ok (entries.insertionSort fun a b => a.fileName ≤ b.fileName)

/-- `read_dir_uncached_with_io_provider_and_metadata_cache`. -/
def readDirWithCache (os : Os) (path : Path) (cache : NoWatchFsMetadataCache) :
    Except ReadError (List RawDirEntry) × NoWatchFsMetadataCache :=
  match readDirUncached os path with
  | .error e => (.error e, cache)
  | .ok entries => (.ok entries, cache.seedReaddir path entries)

/-- The reads that share a cache. -/
inductive CacheRead where
  | readDir (path : Path)
  | metadata (path : Path)

def CacheRead.perform (os : Os) (cache : NoWatchFsMetadataCache) :
    CacheRead → NoWatchFsMetadataCache
  | readDir path => (readDirWithCache os path cache).2
  | metadata path => (readPathMetadataForNoWatchfsCached os path cache).2

/-- The cache after a sequence of reads. -/
def cacheAfter (os : Os) (cache : NoWatchFsMetadataCache) (reads : List CacheRead) :
    NoWatchFsMetadataCache :=
  reads.foldl (CacheRead.perform os) cache

end Bz.Files
