import Bz.LinkTree
import Bz.Machine
import Bz.Text
import Bz.Fallible

/-!
# Extracting archives

`extract_zip_archive` and `extract_tar_archive` of `bz_common/src/bazel/bzlmod/archive.rs`: the
entries are decoded one after another, files are written by a pool of threads, and the links are
made at the end, in the order of their entries.  The target of a symlink is checked lexically,
against the name of its entry.

Modelled are the locations of the file system that the extraction changes, not the contents, the
modes and the times of files.  Of `tar::Entry::unpack`, which extracts directories and large files,
it is only assumed that it works on its destination.

Principal results: `extraction_contained`, when everything stays in the output directory;
`extraction_escapes`: two symlinks suffice to leave it; `symlink_target_resolves`, what a stripped
prefix makes of a target.
-/

namespace Bz.Bzlmod.Archive

open LinkTree Machine Fallible List
open Text (trimMatches)

/-- A component of a path that is no `.`, no `..` and no root. -/
abbrev Name := List Char

abbrev Path := List (Component Name)

/-- Why an extraction fails. -/
inductive ExtractError where
  /-- `Archive entry .. escapes the extraction directory`. -/
  | entryEscapes (path : List Char)
  /-- `Archive path .. escapes the extraction directory`. -/
  | pathEscapes (path : Path)
  /-- `Archive link .. -> .. escapes the extraction directory`. -/
  | linkEscapes (destination : List Name) (target : Path)
  /-- `Archive link entry .. has no target`. -/
  | noTarget (entryName : List Char)
  /-- `Archive link entry .. has an empty target`. -/
  | emptyTarget (entryName : List Char)
  /-- `Archive hardlink target .. is outside the stripped extraction root`. -/
  | hardlinkOutside (target : List Char)
  /-- `Prefix .. was given, but not found in the archive. Available prefixes: ..`. -/
  | prefixNotFound (stripPrefix : List Char) (available : List Name)
  /-- A call of the operating system failed. -/
  | io
  deriving DecidableEq

/-! ## Paths -/

def component : List Char → Option (Component Name)
  | [] => none
  | ['.'] => none
  | ['.', '.'] => some .parent
  | name => some (.normal name)

/-- `Path::components` on Unix: a `.` counts at the beginning only. -/
def components (path : List Char) : Path :=
  let parts := path.splitOn '/'
  (if path.head? = some '/' then [.root] else if parts.head? = some ['.'] then [.cur] else []) ++
    parts.filterMap component

/-- What is extracted, and where. -/
structure Config where
  /-- The location of the output directory. -/
  output : List Name
  stripPrefix : List Char
  stripComponents : Nat
  renameFiles : List (List Char × List Char)
  /-- How many symlinks the operating system follows on a path. -/
  maxSymlinks : Nat

def renamedArchiveEntryName (entryName : List Char) (renameFiles : List (List Char × List Char)) :
    List Char :=
  ((renameFiles.find? fun entry => entry.1 = entryName).map (·.2)).getD entryName

def stripArchivePrefix (entryName stripPrefix : List Char) : Option (List Char) :=
  let start := trimMatches '/' stripPrefix
  if start = [] then some entryName
  else if entryName = start then some []
  else Text.stripPrefix (start ++ ['/']) entryName

def safeArchiveComponents (path : List Char) : Except ExtractError (List Name) :=
  (components path).foldlM (fun names component => match component with
    | .normal name => .ok (names ++ [name])
    | .cur => .ok names
    | .parent => .error (.entryEscapes path)
    | .root => .error (.entryEscapes path)) []

variable (config : Config) {st : State} {target : Path} {error : ExtractError} {path : List Name}
  {entry : ArchiveEntry} {entryName : List Char}

/-- The path that `prepare_archive_entry_path` makes of a name, if it is extracted. -/
def prepareArchiveEntryPath (entryName : List Char) : Except ExtractError (Option (List Name)) :=
  match stripArchivePrefix entryName config.stripPrefix with
  | none => .ok none
  | some entryName => (safeArchiveComponents entryName).map fun names =>
    let names := names.drop config.stripComponents
    if names = [] then none else some names

/-- What is known about the prefix that is stripped. -/
structure Prefixes where
  found : Bool
  available : List Name

/-- What `prepare_archive_entry_path` notes about prefixes. -/
def Prefixes.note (entryName : List Char) (prefixes : Prefixes) : Prefixes :=
  match stripArchivePrefix entryName config.stripPrefix with
  | some _ =>
    if trimMatches '/' config.stripPrefix = [] then prefixes else { prefixes with found := true }
  | none => match (safeArchiveComponents entryName).toOption.bind (·.head?) with
    | some first =>
      if first ∈ prefixes.available then prefixes
      else { prefixes with available := prefixes.available ++ [first] }
    | none => prefixes

/-- `ensure_strip_prefix_found`; the prefixes are sorted for the message only. -/
def ensureStripPrefixFound (prefixes : Prefixes) : Except ExtractError Unit :=
  if config.stripPrefix = [] ∨ prefixes.found then .ok ()
  else .error (.prefixNotFound config.stripPrefix prefixes.available)

/-! ## Links -/

/-- The loop of `normalize_archive_relative_path` and `validate_archive_symlink_target`. -/
def pushComponents (error : ExtractError) : List Name → Path → Except ExtractError (List Name)
  | normalized, [] => .ok normalized
  | normalized, .cur :: path => pushComponents error normalized path
  | normalized, .normal name :: path => pushComponents error (normalized ++ [name]) path
  | normalized, .parent :: path =>
    if normalized = [] then .error error else pushComponents error normalized.dropLast path
  | _, .root :: _ => .error error

def normalizeArchiveRelativePath (path : Path) : Except ExtractError (List Name) :=
  pushComponents (.pathEscapes path) [] path

def validateArchiveSymlinkTarget (destination : List Name) (target : Path) :
    Except ExtractError Unit := do
  let normalized ← normalizeArchiveRelativePath (destination.dropLast.map .normal)
  let _ ← pushComponents (.linkEscapes destination target) normalized target
  return ()

/-- The length of the common beginning. -/
def commonLength : List Name → List Name → Nat
  | a :: as, b :: bs => if a = b then commonLength as bs + 1 else 0
  | _, _ => 0

def relativeArchivePath (fromDir toPath : List Name) : Path :=
  let common := commonLength fromDir toPath
  let result := List.replicate (fromDir.length - common) .parent ++ (toPath.drop common).map .normal
  if result = [] then [.cur] else result

def stripArchiveLinkPrefix (target : Path) (stripPrefix : List Char) : Option Path :=
  let start := trimMatches '/' stripPrefix
  if start = [] then none
  else if components start <+: target then some (target.drop (components start).length) else none

def prepareArchiveSymlinkTarget (destination : List Name) (target stripPrefix : List Char) :
    Except ExtractError Path :=
  if target = [] then .error (.linkEscapes destination [])
  else match stripArchiveLinkPrefix (components target) stripPrefix with
    | some stripped => do
      let stripped ← normalizeArchiveRelativePath stripped
      let target := relativeArchivePath destination.dropLast stripped
      validateArchiveSymlinkTarget destination target
      return target
    | none => do
      validateArchiveSymlinkTarget destination (components target)
      return components target

def prepareArchiveHardlinkTarget (target : List Char) : Except ExtractError (List Name) := do
  match ← prepareArchiveEntryPath config (renamedArchiveEntryName target config.renameFiles) with
  | some path => return path
  | none => .error (.hardlinkOutside target)

/-- `PendingArchiveLink`, with paths relative to the output directory. -/
inductive PendingArchiveLink where
  | symlink (destination : List Name) (target : Path)
  | hardlink (destination target : List Name)

def PendingArchiveLink.destination : PendingArchiveLink → List Name
  | symlink destination _ => destination
  | hardlink destination _ => destination

/-! ## Entries -/

/-- What an entry of a zip archive is. -/
inductive ZipKind where
  | directory
  | symlink (target : List Char)
  /-- Whether the file is small enough to be written by the pool. -/
  | file (pooled : Bool)

/-- What an entry of a tar archive is. -/
inductive TarKind where
  | symlink (target : Option (List Char))
  | hardlink (target : Option (List Char))
  | file (pooled : Bool)
  | directory

/-- An entry of an archive. -/
inductive ArchiveEntry where
  | zip (name : List Char) (kind : ZipKind)
  | tar (name : List Char) (kind : TarKind)

def ArchiveEntry.name : ArchiveEntry → List Char
  | zip name _ => name
  | tar name _ => name

/-- The target of a link in a tar archive. -/
def tarTarget (entryName : List Char) : Option (List Char) → Except ExtractError (List Char)
  | none => .error (.noTarget entryName)
  | some target => if target = [] then .error (.emptyTarget entryName) else .ok target

/-- The link that an entry with the given path is, if it is one. -/
def entryLink (entryName : List Char) (path : List Name) :
    ArchiveEntry → Except ExtractError (Option PendingArchiveLink)
  | .zip _ (.symlink target) => do
    let target ← prepareArchiveSymlinkTarget path target config.stripPrefix
    return some (.symlink path target)
  | .tar _ (.symlink target) => do
    let target ← tarTarget entryName target
    let target ← prepareArchiveSymlinkTarget path target config.stripPrefix
    return some (.symlink path target)
  | .tar _ (.hardlink target) => do
    let target ← tarTarget entryName target
    let target ← prepareArchiveHardlinkTarget config target
    return some (.hardlink path target)
  | _ => .ok none

/-- The link of an entry, if it is extracted. -/
def archiveLink (entry : ArchiveEntry) : Option PendingArchiveLink :=
  let entryName := renamedArchiveEntryName entry.name config.renameFiles
  match prepareArchiveEntryPath config entryName with
  | .ok (some path) => (entryLink config entryName path entry).toOption.join
  | _ => none

/-- The links of an archive. -/
def archiveLinks (entries : List ArchiveEntry) : List PendingArchiveLink :=
  entries.filterMap (archiveLink config)

/-! ## Operations -/

/-- A call of the operating system: its effect, and whether it succeeds. -/
abbrev Operation := World Name → World Name × Bool

def attempt (op : World Name → Option (World Name)) : Operation := fun w =>
  match op w with
  | some w => (w, true)
  | none => (w, false)

def Operation.andThen (first second : Operation) : Operation := fun w =>
  if (first w).2 then second (first w).1 else first w

section Operations

variable (config : Config)

def createDirAll (names : List Name) : Operation := fun w =>
  w.createDirAll config.maxSymlinks config.output (names.map .normal)

def createDir (names : List Name) : Operation :=
  attempt fun w => w.createDir config.maxSymlinks config.output (names.map .normal)

def createFile (names : List Name) : Operation :=
  attempt fun w => w.createFile config.maxSymlinks config.output (names.map .normal)

def createNew (names : List Name) : Operation :=
  attempt fun w => w.createNew config.maxSymlinks config.output (names.map .normal)

def removeFile (names : List Name) : Operation :=
  attempt fun w => w.removeFile config.maxSymlinks config.output (names.map .normal)

def removeDir (names : List Name) : Operation :=
  attempt fun w => w.removeDir config.maxSymlinks config.output (names.map .normal)

def createReplacingExtractedFile (names : List Name) : Operation := fun w =>
  if (w.lstat config.maxSymlinks config.output (names.map .normal)).isSome then
    (removeFile config names).andThen (createNew config names) w
  else createNew config names w

def removeExistingArchiveLinkDestination (names : List Name) : Operation := fun w =>
  match w.lstat config.maxSymlinks config.output (names.map .normal) with
  | none => (w, true)
  | some .directory => removeDir config names w
  | some _ => removeFile config names w

def createSymlink (target : Path) (names : List Name) : Operation :=
  attempt fun w => w.symlink config.maxSymlinks config.output target (names.map .normal)

def createHardLink (target names : List Name) : Operation :=
  attempt fun w =>
    w.hardLink config.maxSymlinks config.output (target.map .normal) (names.map .normal)

/-- A call of the operating system for the destination of `tar::Entry::unpack`. -/
inductive UnpackCall where
  | createDir
  | createFile
  | createNew
  | removeFile

def UnpackCall.operation (names : List Name) : UnpackCall → Operation
  | createDir => Archive.createDir config names
  | createFile => Archive.createFile config names
  | createNew => Archive.createNew config names
  | removeFile => Archive.removeFile config names

/-- `tar::Entry::unpack`: some calls for the destination, and what it returns. -/
def unpack (calls : List UnpackCall) (ok : Bool) (names : List Name) : Operation := fun w =>
  (calls.foldl (fun w call => (call.operation config names w).1) w, ok)

/-- A round of the loop of `create_pending_archive_links`. -/
def createPendingArchiveLink (link : PendingArchiveLink) : Operation :=
  (createDirAll config link.destination.dropLast).andThen <| match link with
    | .symlink destination target =>
      (removeExistingArchiveLinkDestination config destination).andThen
        (createSymlink config target destination)
    | .hardlink destination target =>
      if destination = target then fun w => (w, true)
      else (removeExistingArchiveLinkDestination config destination).andThen
        (createHardLink config target destination)

end Operations

/-! ## The extraction -/

/-- `PendingArchiveFileWrite`. -/
structure PendingWrite where
  destination : List Name
  /-- A file of a tar archive replaces what is there. -/
  replacing : Bool

def writePendingArchiveFile (write : PendingWrite) : Operation :=
  if write.replacing then createReplacingExtractedFile config write.destination
  else createFile config write.destination

/-- How far an extraction is. -/
inductive Phase where
  | decoding
  | linking
  | stopped
  deriving DecidableEq

/-- The state of an extraction. -/
structure State where
  world : World Name
  phase : Phase
  /-- The entries that are not decoded yet. -/
  entries : List ArchiveEntry
  /-- The writes that are sent to the pool. -/
  queue : List PendingWrite
  links : List PendingArchiveLink
  prefixes : Prefixes
  writeFailed : Bool
  error : Option ExtractError

def State.init (entries : List ArchiveEntry) (tree : LinkTree.Tree Name) : State :=
  ⟨⟨tree, []⟩, .decoding, entries, [], [], ⟨config.stripPrefix = [], []⟩, false, none⟩

/-- The decoder returns an error: no other entry is decoded. -/
def State.fail (st : State) (error : ExtractError) : State :=
  { st with entries := [], error := some error }

/-- An operation of the decoder, and what follows if it succeeds. -/
def State.perform (st : State) (op : Operation) (next : State → State) : State :=
  if (op st.world).2 then next { st with world := (op st.world).1 }
  else { st with world := (op st.world).1 }.fail .io

/-- What is done with an entry that is no directory of a zip archive; `calls` and `ok` are what
`unpack` does with it. -/
def extractFileOrLink (calls : List UnpackCall) (ok : Bool) (entryName : List Char)
    (path : List Name) (entry : ArchiveEntry) (st : State) : State :=
  match entryLink config entryName path entry with
  | .error e => st.fail e
  | .ok (some link) => { st with links := st.links ++ [link] }
  | .ok none => match entry with
    | .zip _ (.file true) => { st with queue := st.queue ++ [⟨path, false⟩] }
    | .tar _ (.file true) => { st with queue := st.queue ++ [⟨path, true⟩] }
    | .zip _ _ => st.perform (createFile config path) id
    | .tar _ _ => st.perform (unpack config calls ok path) id

/-- A round of the loop over the entries. -/
def decodeEntry (calls : List UnpackCall) (ok : Bool) (st : State) (entry : ArchiveEntry) :
    State :=
  let entryName := renamedArchiveEntryName entry.name config.renameFiles
  let st := { st with prefixes := st.prefixes.note config entryName }
  match prepareArchiveEntryPath config entryName with
  | .error e => st.fail e
  | .ok none => st
  | .ok (some path) => match entry with
    | .zip _ .directory => st.perform (createDirAll config path) id
    | _ => st.perform (createDirAll config path.dropLast)
        (extractFileOrLink config calls ok entryName path entry)

/-- The steps of an extraction. -/
inductive Label where
  /-- An entry is decoded; if it is unpacked, by these calls. -/
  | decode (calls : List UnpackCall) (ok : Bool)
  /-- The decoder sees that a write has failed. -/
  | abandon
  /-- A thread of the pool performs a write. -/
  | write (index : Nat)
  /-- A thread of the pool drops a write after a failure. -/
  | drop (index : Nat)
  /-- All threads are joined. -/
  | join
  | link

/-- The end of `with_archive_file_writers` and what follows it. -/
def joinWriters (st : State) : State :=
  if st.writeFailed ∨ st.error.isSome then { st with phase := .stopped }
  else match ensureStripPrefixFound config st.prefixes with
    | .error e => { st with phase := .stopped, error := some e }
    | .ok () => { st with phase := .linking }

def performWrite (st : State) (index : Nat) (write : PendingWrite) : State :=
  { st with
    world := (writePendingArchiveFile config write st.world).1
    queue := st.queue.eraseIdx index
    writeFailed := st.writeFailed || !(writePendingArchiveFile config write st.world).2 }

def performLink (st : State) (link : PendingArchiveLink) (rest : List PendingArchiveLink) : State :=
  if (createPendingArchiveLink config link st.world).2 then
    { st with world := (createPendingArchiveLink config link st.world).1, links := rest }
  else
    { st with
      world := (createPendingArchiveLink config link st.world).1
      phase := .stopped, error := some .io }

def step (st : State) : Label → Option State
  | .decode calls ok => match st.phase, st.entries with
    | .decoding, entry :: rest =>
      some (decodeEntry config calls ok { st with entries := rest } entry)
    | _, _ => none
  | .abandon =>
    if st.phase = .decoding ∧ st.writeFailed then some { st with entries := [] } else none
  | .write index => match st.phase, st.queue[index]? with
    | .decoding, some write => some (performWrite config st index write)
    | _, _ => none
  | .drop index =>
    if st.phase = .decoding ∧ st.writeFailed then some { st with queue := st.queue.eraseIdx index }
    else none
  | .join =>
    if st.phase = .decoding ∧ st.entries = [] ∧ st.queue = [] then some (joinWriters config st)
    else none
  | .link => match st.phase, st.links with
    | .linking, link :: rest => some (performLink config st link rest)
    | .linking, [] => some { st with phase := .stopped }
    | _, _ => none

/-! ## Containment -/

/-- The places of the symlinks. -/
def symlinkPlaces (links : List PendingArchiveLink) : List (List Name) :=
  links.filterMap fun link => match link with
    | .symlink destination _ => some destination
    | .hardlink _ _ => none

/-- The path, walked lexically, takes no `..` at one of the places or below it. -/
def AvoidsPlaces (places : List (List Name)) : List Name → Path → Prop
  | _, [] => True
  | rel, .root :: path => AvoidsPlaces places rel path
  | rel, .cur :: path => AvoidsPlaces places rel path
  | rel, .parent :: path => (∀ place ∈ places, ¬ place <+: rel) ∧
    AvoidsPlaces places rel.dropLast path
  | rel, .normal name :: path => AvoidsPlaces places (rel ++ [name]) path

instance (places : List (List Name)) (rel : List Name) (path : Path) :
    Decidable (AvoidsPlaces places rel path) :=
  match path with
  | [] => .isTrue trivial
  | .root :: path => instDecidableAvoidsPlaces places rel path
  | .cur :: path => instDecidableAvoidsPlaces places rel path
  | .parent :: path =>
    have := instDecidableAvoidsPlaces places rel.dropLast path
    inferInstanceAs (Decidable (_ ∧ _))
  | .normal name :: path => instDecidableAvoidsPlaces places (rel ++ [name]) path

/-- The target of a symlink avoids the places. -/
def PendingArchiveLink.TargetAvoids (places : List (List Name)) : PendingArchiveLink → Prop
  | symlink destination target => AvoidsPlaces places destination.dropLast target
  | hardlink _ _ => True

instance (places : List (List Name)) (link : PendingArchiveLink) :
    Decidable (link.TargetAvoids places) :=
  match link with
  | .symlink destination target =>
    inferInstanceAs (Decidable (AvoidsPlaces places destination.dropLast target))
  | .hardlink _ _ => .isTrue trivial

/-- The link, which is made later, is not made below the symlink at the place, and a hardlink does
not lead to it or below it. -/
def PendingArchiveLink.Passes (place : List Name) : PendingArchiveLink → Prop
  | symlink destination _ => place <+: destination → place = destination
  | hardlink destination target =>
    (place <+: destination → place = destination) ∧ ¬ place <+: target

instance (place : List Name) (link : PendingArchiveLink) : Decidable (link.Passes place) :=
  match link with
  | .symlink destination _ =>
    inferInstanceAs (Decidable (place <+: destination → place = destination))
  | .hardlink destination target =>
    inferInstanceAs (Decidable ((place <+: destination → place = destination) ∧ ¬ place <+: target))

/-- The symlinks of an archive do not change what its names and targets mean. -/
structure Separated (links : List PendingArchiveLink) : Prop where
  /-- No link is made through a symlink that was made before it. -/
  order : links.Pairwise fun earlier later => ∀ place ∈ symlinkPlaces [earlier], later.Passes place
  /-- No target goes up from a symlink, whenever it was made. -/
  targets : ∀ link ∈ links, link.TargetAvoids (symlinkPlaces links)

/-- No link passes through a symlink made before it. -/
theorem Separated.passes {made : List PendingArchiveLink} {link : PendingArchiveLink}
    {rest : List PendingArchiveLink} (h : Separated (made ++ link :: rest)) :
    ∀ place ∈ symlinkPlaces made, link.Passes place := by
  intro place hplace
  obtain ⟨earlier, hearlier, hat⟩ := mem_filterMap.mp hplace
  refine (pairwise_append.mp h.order).2.2 earlier hearlier link mem_cons_self place ?_
  exact mem_filterMap.mpr ⟨earlier, mem_singleton_self _, hat⟩

/-- The lexical check and the condition on `..` confine a target. -/
theorem confined_of_pushComponents {places : List (List Name)}
    {rel normalized : List Name} {path : Path} (h : pushComponents error rel path = .ok normalized)
    (havoids : AvoidsPlaces places rel path) : Confined (· ∈ places) rel path := by
  induction path generalizing rel with
  | nil => trivial
  | cons component path ih =>
    cases component with
    | root => cases h
    | cur | normal name => exact ih h havoids
    | parent =>
      rw [pushComponents] at h
      split at h
      · cases h
      · next hne => exact ⟨hne, havoids.1, ih h havoids.2⟩

theorem pushComponents_normal (error : ExtractError) (rel names : List Name) :
    pushComponents error rel (names.map .normal) = .ok (rel ++ names) := by
  induction names generalizing rel with
  | nil => rw [append_nil]; rfl
  | cons name names ih =>
    rw [map_cons, pushComponents, ih, append_assoc, singleton_append]

theorem validate_of_prepareArchiveSymlinkTarget {destination : List Name}
    {target stripPrefix : List Char} {prepared : Path}
    (h : prepareArchiveSymlinkTarget destination target stripPrefix = .ok prepared) :
    validateArchiveSymlinkTarget destination prepared = .ok () := by
  unfold prepareArchiveSymlinkTarget at h
  split at h
  · cases h
  · split at h
    · obtain ⟨stripped, -, h⟩ := bind_eq_ok.mp h
      obtain ⟨_, hvalid, h⟩ := bind_eq_ok.mp h
      cases h
      exact hvalid
    · obtain ⟨_, hvalid, h⟩ := bind_eq_ok.mp h
      cases h
      exact hvalid

/-- A path resolved by its text alone, where the root is its own parent. -/
def resolveLexically (dir : List Name) (path : Path) : List Name :=
  path.foldl (fun dir component => match component with
    | .cur => dir
    | .normal name => dir ++ [name]
    | .parent => dir.dropLast
    | .root => []) dir

theorem resolveLexically_of_pushComponents {dir names : List Name}
    {path : Path} (h : pushComponents error dir path = .ok names) :
    resolveLexically dir path = names := by
  induction path generalizing dir with
  | nil =>
    cases h
    rfl
  | cons component path ih =>
    cases component with
    | root => cases h
    | cur | normal name => exact ih h
    | parent =>
      rw [pushComponents] at h
      split at h
      · cases h
      · exact ih h

theorem pushComponents_parents (error : ExtractError) (path : Path) {n : Nat} {dir : List Name}
    (hn : n ≤ dir.length) : pushComponents error dir (replicate n .parent ++ path) =
      pushComponents error (dir.take (dir.length - n)) path := by
  induction n generalizing dir with
  | zero => simp
  | succ n ih =>
    have hne : dir ≠ [] := ne_nil_of_length_pos (by omega)
    rw [replicate_succ, cons_append, pushComponents, if_neg hne,
      ih (by rw [length_dropLast]; omega), length_dropLast, dropLast_eq_take, take_take]
    congr 2
    omega

theorem commonLength_spec (fromDir toPath : List Name) :
    commonLength fromDir toPath ≤ fromDir.length ∧
      fromDir.take (commonLength fromDir toPath) = toPath.take (commonLength fromDir toPath) := by
  induction fromDir generalizing toPath with
  | nil => simp [commonLength]
  | cons a fromDir ih =>
    cases toPath with
    | nil => simp [commonLength]
    | cons b toPath =>
      by_cases hab : a = b
      · simpa [commonLength, hab] using ih toPath
      · simp [commonLength, hab]

/-- Up to the common beginning and down from it again. -/
theorem pushComponents_relativeArchivePath (error : ExtractError) (fromDir toPath : List Name) :
    pushComponents error fromDir (relativeArchivePath fromDir toPath) = .ok toPath := by
  obtain ⟨hle, htake⟩ := commonLength_spec fromDir toPath
  have hresult := pushComponents_parents error
    ((toPath.drop (commonLength fromDir toPath)).map .normal)
    (Nat.sub_le fromDir.length (commonLength fromDir toPath))
  rw [Nat.sub_sub_self hle, pushComponents_normal, htake, take_append_drop] at hresult
  unfold relativeArchivePath
  dsimp only
  split
  · next hempty =>
    rw [hempty] at hresult
    exact hresult
  · exact hresult

/-- **Relative link targets.** From the directory of the link, a target that begins with the
stripped prefix leads to what its rest names in the output directory. -/
theorem symlink_target_resolves (destination : List Name) (target stripPrefix : List Char)
    (stripped prepared : Path)
    (hstrip : stripArchiveLinkPrefix (components target) stripPrefix = some stripped)
    (h : prepareArchiveSymlinkTarget destination target stripPrefix = .ok prepared) :
    normalizeArchiveRelativePath stripped =
      .ok (resolveLexically destination.dropLast prepared) := by
  unfold prepareArchiveSymlinkTarget at h
  split at h
  · cases h
  · rw [hstrip] at h
    obtain ⟨names, hnames, h⟩ := bind_eq_ok.mp h
    obtain ⟨_, -, h⟩ := bind_eq_ok.mp h
    cases h
    rw [hnames, resolveLexically_of_pushComponents
      (pushComponents_relativeArchivePath (.pathEscapes []) destination.dropLast names)]

/-- The link `a/b/l` of an archive with the prefix `p` to `p/a/./x/../c`. -/
theorem symlink_target_resolves_sibling :
    normalizeArchiveRelativePath (components "a/./x/../c".toList) =
      .ok (resolveLexically ["a".toList, "b".toList] [.parent, .normal "c".toList]) :=
  symlink_target_resolves ["a".toList, "b".toList, "l".toList] "p/a/./x/../c".toList "p/".toList _ _
    (by decide) (by decide)

theorem validate_of_entryLink {config : Config} {destination : List Name}
    (h : entryLink config entryName path entry = .ok (some (.symlink destination target))) :
    validateArchiveSymlinkTarget destination target = .ok () := by
  unfold entryLink at h
  split at h
  · obtain ⟨prepared, hprepared, h⟩ := bind_eq_ok.mp h
    cases h
    exact validate_of_prepareArchiveSymlinkTarget hprepared
  · obtain ⟨_, _, h⟩ := bind_eq_ok.mp h
    obtain ⟨prepared, hprepared, h⟩ := bind_eq_ok.mp h
    cases h
    exact validate_of_prepareArchiveSymlinkTarget hprepared
  · obtain ⟨_, _, h⟩ := bind_eq_ok.mp h
    obtain ⟨prepared, hprepared, h⟩ := bind_eq_ok.mp h
    cases h
  · cases h

/-- Every symlink of an archive has passed the lexical check. -/
theorem validate_of_mem_archiveLinks {config : Config} {entries : List ArchiveEntry}
    {destination : List Name} (h : .symlink destination target ∈ archiveLinks config entries) :
    validateArchiveSymlinkTarget destination target = .ok () := by
  obtain ⟨entry, -, hentry⟩ := mem_filterMap.mp h
  unfold archiveLink at hentry
  dsimp only at hentry
  split at hentry
  · next path _ =>
    cases hlink : entryLink config
      (renamedArchiveEntryName entry.name config.renameFiles) path entry with
    | error e =>
      rw [hlink] at hentry
      cases hentry
    | ok link =>
      rw [hlink] at hentry
      cases hentry
      exact validate_of_entryLink hlink
  · cases hentry

section Contained

variable {config : Config} {made all : List PendingArchiveLink}

variable (config made) in
/-- What holds of the file system when some links have been made. -/
structure WorldContained (w : World Name) : Prop where
  touched : ∀ loc ∈ w.touched, config.output <+: loc
  symlinks : ∀ rel target, w.tree.get (config.output ++ rel) = some (.symlink target) →
    .symlink rel target ∈ made

variable (made) in
/-- The symlinks of the archive are confined. -/
def LinksValid : Prop := ∀ destination target, .symlink destination target ∈ made →
  Confined (· ∈ symlinkPlaces made) destination.dropLast target

theorem WorldContained.linksConfined {w : World Name} (h : WorldContained config made w)
    (hvalid : LinksValid made) : LinksConfined (· ∈ symlinkPlaces made) config.output w.tree :=
  fun rel target hget => ⟨mem_filterMap.mpr ⟨_, h.symlinks rel target hget, rfl⟩,
    hvalid _ _ (h.symlinks rel target hget)⟩

theorem WorldContained.keeps {w w' : World Name} (h : WorldContained config made w)
    (hkeeps : World.Keeps config.output w w') : WorldContained config made w' :=
  ⟨fun loc hloc => (hkeeps.touched loc hloc).elim (h.touched loc) id,
    fun rel target hget => h.symlinks rel target (hkeeps.symlinks _ target hget)⟩

theorem WorldContained.mono {w : World Name} (h : WorldContained config made w)
    (hsub : made ⊆ all) : WorldContained config all w :=
  ⟨h.touched, fun rel target hget => hsub (h.symlinks rel target hget)⟩

variable (config made) in
/-- The operation keeps the file system contained. -/
def Operation.Contained (op : Operation) : Prop :=
  ∀ w, WorldContained config made w → WorldContained config made (op w).1

theorem Operation.Contained.attempt {op : World Name → Option (World Name)}
    (h : ∀ w w', WorldContained config made w → op w = some w' → WorldContained config made w') :
    Operation.Contained config made (attempt op) := by
  intro w hw
  unfold Archive.attempt
  split
  · next hop => exact h w _ hw hop
  · exact hw

theorem Operation.Contained.andThen {first second : Operation}
    (hfirst : first.Contained config made) (hsecond : second.Contained config made) :
    (first.andThen second).Contained config made := by
  intro w hw
  unfold Operation.andThen
  split
  · exact hsecond _ (hfirst w hw)
  · exact hfirst w hw

variable (hvalid : LinksValid made) (names : List Name)
include hvalid

theorem createDirAll_contained : (createDirAll config names).Contained config made :=
  fun _ hw => hw.keeps (World.createDirAllFrom_keeps (hw.linksConfined hvalid) [])

theorem createDir_contained : (createDir config names).Contained config made :=
  .attempt fun _ _ hw h => hw.keeps (World.createDir_keeps (hw.linksConfined hvalid) h)

theorem createFile_contained : (createFile config names).Contained config made :=
  .attempt fun _ _ hw h => hw.keeps (World.createFile_keeps (hw.linksConfined hvalid) h)

theorem createNew_contained : (createNew config names).Contained config made :=
  .attempt fun _ _ hw h => hw.keeps (World.createNew_keeps (hw.linksConfined hvalid) h)

theorem removeFile_contained : (removeFile config names).Contained config made :=
  .attempt fun _ _ hw h => hw.keeps (World.removeFile_keeps (hw.linksConfined hvalid) h)

theorem removeDir_contained : (removeDir config names).Contained config made :=
  .attempt fun _ _ hw h => hw.keeps (World.removeDir_keeps (hw.linksConfined hvalid) h)

theorem createReplacingExtractedFile_contained :
    Operation.Contained config made (createReplacingExtractedFile config names) := by
  intro w hw
  unfold createReplacingExtractedFile
  split
  · exact (removeFile_contained hvalid names).andThen (createNew_contained hvalid names) w hw
  · exact createNew_contained hvalid names w hw

/-- Whatever calls `unpack` makes for its destination, they are contained. -/
theorem unpack_contained (calls : List UnpackCall) (ok : Bool) :
    Operation.Contained config made (unpack config calls ok names) := by
  intro w hw
  unfold unpack
  induction calls generalizing w with
  | nil => exact hw
  | cons call calls ih =>
    refine ih _ ?_
    cases call with
    | createDir => exact createDir_contained hvalid names w hw
    | createFile => exact createFile_contained hvalid names w hw
    | createNew => exact createNew_contained hvalid names w hw
    | removeFile => exact removeFile_contained hvalid names w hw

theorem removeExistingArchiveLinkDestination_contained :
    Operation.Contained config made (removeExistingArchiveLinkDestination config names) := by
  intro w hw
  unfold removeExistingArchiveLinkDestination
  split
  · exact hw
  · exact removeDir_contained hvalid names w hw
  · exact removeFile_contained hvalid names w hw

/-- A symlink is made where its name says. -/
theorem createSymlink_contained {w : World Name} (hw : WorldContained config made w)
    (hpasses : ∀ place ∈ symlinkPlaces made,
      PendingArchiveLink.Passes place (.symlink names target)) :
    WorldContained config (made ++ [.symlink names target])
      (createSymlink config target names w).1 := by
  unfold createSymlink attempt
  split
  · next w' h =>
    cases World.symlink_eq (hw.linksConfined hvalid)
      (fun place hmem hle => hpasses place hmem hle) h
    refine ⟨forall_mem_cons.mpr ⟨prefix_append _ _, hw.touched⟩, fun rel target' hget => ?_⟩
    rw [World.putAt, Tree.get_put] at hget
    split at hget
    · next heq =>
      cases append_cancel_left heq
      cases hget
      exact mem_append_right _ (mem_singleton_self _)
    · exact mem_append_left _ (hw.symlinks rel target' hget)
  · exact hw.mono (subset_append_left _ _)

omit names in
theorem createPendingArchiveLink_contained {link : PendingArchiveLink}
    (hpasses : ∀ place ∈ symlinkPlaces made, link.Passes place) {w : World Name}
    (hw : WorldContained config made w) :
    WorldContained config (made ++ [link]) (createPendingArchiveLink config link w).1 := by
  have hsub : made ⊆ made ++ [link] := subset_append_left _ _
  have hparent := createDirAll_contained hvalid link.destination.dropLast w hw
  unfold createPendingArchiveLink Operation.andThen
  split
  · cases link with
    | symlink destination target =>
      have hremove :=
        removeExistingArchiveLinkDestination_contained hvalid destination _ hparent
      dsimp only
      split
      · exact createSymlink_contained hvalid destination hremove hpasses
      · exact hremove.mono hsub
    | hardlink destination target =>
      dsimp only
      split
      · exact hparent.mono hsub
      · refine (Operation.Contained.andThen
          (removeExistingArchiveLinkDestination_contained hvalid destination)
          (.attempt fun _ _ hw h => hw.keeps ?_) _ hparent).mono hsub
        exact World.hardLink_keeps (hw.linksConfined hvalid)
          (fun place hplace => (hpasses place hplace).2) h
  · exact hparent.mono hsub

omit names in
theorem writePendingArchiveFile_contained (write : PendingWrite) :
    (writePendingArchiveFile config write).Contained config made := by
  unfold writePendingArchiveFile
  split
  · exact createReplacingExtractedFile_contained hvalid _
  · exact createFile_contained hvalid _

end Contained

/-! ## Runs -/

section Runs

variable {config : Config} {all : List PendingArchiveLink}

/-- No link has been made. -/
theorem linksValid_nil : LinksValid [] := nofun

/-- Fewer symlinks are confined as well. -/
theorem LinksValid.of_append {made rest : List PendingArchiveLink}
    (h : LinksValid (made ++ rest)) : LinksValid made := by
  intro destination target hlink
  refine (h destination target (mem_append_left _ hlink)).mono fun place hplace => ?_
  obtain ⟨link, hmem, hat⟩ := mem_filterMap.mp hplace
  exact mem_filterMap.mpr ⟨link, mem_append_left _ hmem, hat⟩

variable (config all) in
/-- What holds of every state: while entries are decoded there are no symlinks, and the links are
collected in the order of their entries unless something fails. -/
structure Contained (made : List PendingArchiveLink) (st : State) : Prop where
  world : WorldContained config made st.world
  isPrefix : made <+: all
  decoding : st.phase = .decoding → made = [] ∧
    (st.error.isSome ∨ st.writeFailed ∨ st.links ++ archiveLinks config st.entries = all)
  linking : st.phase = .linking → made ++ st.links = all

variable (config) in
/-- What a part of the decoder does: it finds some links, or fails. -/
structure Decodes (links : List PendingArchiveLink) (st st' : State) : Prop where
  world : WorldContained config [] st'.world
  phase : st'.phase = st.phase
  writeFailed : st'.writeFailed = st.writeFailed
  links : st'.error.isSome ∨
    st'.links = st.links ++ links ∧ st'.entries = st.entries ∧ st'.error = st.error

theorem Decodes.fail {st st' : State} {links : List PendingArchiveLink} (error : ExtractError)
    (hworld : WorldContained config [] st'.world) (hphase : st'.phase = st.phase)
    (hfailed : st'.writeFailed = st.writeFailed) :
    Decodes config links st (st'.fail error) :=
  ⟨hworld, hphase, hfailed, .inl rfl⟩

theorem Decodes.perform {st : State} {links : List PendingArchiveLink} {op : Operation}
    (hop : op.Contained config []) (hworld : WorldContained config [] st.world)
    {next : State → State} (hnext : ∀ w, WorldContained config [] w →
      Decodes config links { st with world := w } (next { st with world := w })) :
    Decodes config links st (st.perform op next) := by
  unfold State.perform
  split
  · obtain ⟨hworld', hphase, hfailed, hlinks⟩ := hnext _ (hop _ hworld)
    exact ⟨hworld', hphase, hfailed, hlinks⟩
  · exact .fail .io (hop _ hworld) rfl rfl

/-- The strip prefix found so far makes no difference. -/
theorem Decodes.prefixes {st st' : State} {links : List PendingArchiveLink} {prefixes : Prefixes}
    (h : Decodes config links { st with prefixes := prefixes } st') : Decodes config links st st' :=
  ⟨h.world, h.phase, h.writeFailed, h.links⟩

theorem extractFileOrLink_decodes {calls : List UnpackCall} {ok : Bool} {entryName : List Char}
    {path : List Name} {entry : ArchiveEntry} {st : State}
    (hworld : WorldContained config [] st.world) :
    Decodes config (entryLink config entryName path entry).toOption.join.toList st
      (extractFileOrLink config calls ok entryName path entry st) := by
  have hid (w : World Name) (hw : WorldContained config [] w) :
      Decodes config [] { st with world := w } (id { st with world := w }) :=
    ⟨hw, rfl, rfl, .inr ⟨(append_nil _).symm, rfl, rfl⟩⟩
  unfold extractFileOrLink
  split
  · exact .fail _ hworld rfl rfl
  · next link heq =>
    rw [heq]
    exact ⟨hworld, rfl, rfl, .inr ⟨rfl, rfl, rfl⟩⟩
  · next heq =>
    rw [heq]
    split
    · exact ⟨hworld, rfl, rfl, .inr ⟨(append_nil _).symm, rfl, rfl⟩⟩
    · exact ⟨hworld, rfl, rfl, .inr ⟨(append_nil _).symm, rfl, rfl⟩⟩
    · exact .perform (createFile_contained linksValid_nil path) hworld hid
    · exact .perform (unpack_contained linksValid_nil path calls ok) hworld hid

/-- **An entry is decoded**: its link is collected, or the extraction fails. -/
theorem decodeEntry_decodes {calls : List UnpackCall} {ok : Bool} {entry : ArchiveEntry}
    {st : State} (hworld : WorldContained config [] st.world) :
    Decodes config (archiveLink config entry).toList st
      (decodeEntry config calls ok st entry) := by
  unfold decodeEntry archiveLink
  dsimp only
  cases prepareArchiveEntryPath config (renamedArchiveEntryName entry.name config.renameFiles) with
  | error e => exact .fail e hworld rfl rfl
  | ok path =>
    cases path with
    | none => exact ⟨hworld, rfl, rfl, .inr ⟨(append_nil _).symm, rfl, rfl⟩⟩
    | some path =>
      dsimp only
      split
      · refine Decodes.prefixes (.perform (createDirAll_contained linksValid_nil path) ?_ ?_)
        · exact hworld
        · exact fun w hw => ⟨hw, rfl, rfl, .inr ⟨(append_nil _).symm, rfl, rfl⟩⟩
      · refine Decodes.prefixes
          (.perform (createDirAll_contained linksValid_nil path.dropLast) ?_ fun w hw => ?_)
        · exact hworld
        · exact extractFileOrLink_decodes hw

theorem Contained.step (hvalid : LinksValid all) (hsep : Separated all)
    {made : List PendingArchiveLink} {st st' : State} {l : Label}
    (h : Contained config all made st) (hstep : step config st l = some st') :
    ∃ made', Contained config all made' st' := by
  cases l with
  | decode calls ok =>
    simp only [Archive.step] at hstep
    split at hstep
    · next entry rest hphase hentries =>
      cases hstep
      obtain ⟨rfl, hlinks⟩ := h.decoding hphase
      obtain ⟨hworld, hphase', hfailed, hdecoded⟩ :=
        @decodeEntry_decodes config calls ok entry { st with entries := rest } h.world
      refine ⟨[], hworld, nil_prefix, fun _ => ⟨rfl, ?_⟩, fun hlinking => ?_⟩
      · rcases hdecoded with herror | ⟨hlinks', hentries', herror'⟩
        · exact .inl herror
        · rcases hlinks with herror | hwrite | hall
          · exact .inl (by rw [herror']; exact herror)
          · exact .inr (.inl (hfailed.trans hwrite))
          · refine .inr (.inr ?_)
            rw [hlinks', hentries', ← hall, hentries, append_assoc]
            congr 1
            cases hentry : archiveLink config entry with
            | none => simp [archiveLinks, hentry]
            | some link => simp [archiveLinks, hentry]
      · rw [hphase', hphase] at hlinking
        cases hlinking
    · cases hstep
  | abandon =>
    simp only [Archive.step] at hstep
    split at hstep
    · next hcond =>
      cases hstep
      obtain ⟨rfl, -⟩ := h.decoding hcond.1
      exact ⟨[], h.world, nil_prefix, fun _ => ⟨rfl, .inr (.inl hcond.2)⟩, h.linking⟩
    · cases hstep
  | write index =>
    simp only [Archive.step] at hstep
    split at hstep
    · next write hphase _ =>
      cases hstep
      obtain ⟨rfl, hlinks⟩ := h.decoding hphase
      refine ⟨[], writePendingArchiveFile_contained linksValid_nil write _ h.world, nil_prefix,
        fun _ => ⟨rfl, ?_⟩, fun hlinking => ?_⟩
      · rcases hlinks with herror | hwrite | hall
        · exact .inl herror
        · refine .inr (.inl ?_)
          simp [performWrite, hwrite]
        · exact .inr (.inr hall)
      · cases hphase.symm.trans hlinking
    · cases hstep
  | drop index =>
    simp only [Archive.step] at hstep
    split at hstep
    · cases hstep
      exact ⟨made, h.world, h.isPrefix, h.decoding, h.linking⟩
    · cases hstep
  | join =>
    simp only [Archive.step] at hstep
    split at hstep
    · next hcond =>
      cases hstep
      obtain ⟨rfl, hlinks⟩ := h.decoding hcond.1
      unfold joinWriters
      split
      · exact ⟨[], h.world, nil_prefix, nofun, nofun⟩
      · next hnone =>
        rw [not_or] at hnone
        split
        · exact ⟨[], h.world, nil_prefix, nofun, nofun⟩
        · refine ⟨[], h.world, nil_prefix, nofun, fun _ => ?_⟩
          have hall := (hlinks.resolve_left hnone.2).resolve_left hnone.1
          rw [hcond.2.1] at hall
          simpa [archiveLinks] using hall
    · cases hstep
  | link =>
    simp only [Archive.step] at hstep
    split at hstep
    · next link rest hphase hlinks =>
      cases hstep
      have hall : made ++ link :: rest = all := hlinks ▸ h.linking hphase
      have hworld := createPendingArchiveLink_contained (hall ▸ hvalid).of_append
        (hall ▸ hsep).passes h.world
      have hall' : (made ++ [link]) ++ rest = all := by rw [append_assoc, ← hall]; rfl
      have hprefix : made ++ [link] <+: all := ⟨rest, hall'⟩
      unfold performLink
      split
      · refine ⟨made ++ [link], hworld, hprefix, fun hdecoding => ?_, fun _ => hall'⟩
        cases hphase.symm.trans hdecoding
      · exact ⟨made ++ [link], hworld, hprefix, nofun, nofun⟩
    · cases hstep
      exact ⟨made, h.world, h.isPrefix, nofun, nofun⟩
    · cases hstep

end Runs

/-- Extraction into the directory `out`. -/
def intoOut : Config := ⟨["out".toList], [], 0, [], 40⟩

/-- A file system with the empty directory `out`. -/
def emptyOut : LinkTree.Tree Name := [([], .directory), (["out".toList], .directory)]

/-- An extraction into `out` makes a symlink there that leads to the location. -/
def LeadsTo (entries : List ArchiveEntry) (name : Name) (target : Path) (loc : List Name) : Prop :=
  ∃ st, Reach (step intoOut) (fun _ _ => True) (.init intoOut entries emptyOut) st ∧
    st.world.tree.get ["out".toList, name] = some (.symlink target) ∧
    walk st.world.tree true 40 ["out".toList] target = some loc

theorem leadsTo_of_run {entries : List ArchiveEntry} {name : Name} {target : Path}
    {loc : List Name} (labels : List Label)
    (h : (run (step intoOut) (fun _ _ => True) (.init intoOut entries emptyOut) labels).any
      fun st => st.world.tree.get ["out".toList, name] = some (.symlink target) ∧
        walk st.world.tree true 40 ["out".toList] target = some loc) :
    LeadsTo entries name target loc := by
  obtain ⟨st, hrun, hst⟩ := (Option.any_eq_true _ _).mp h
  exact ⟨st, reach_of_run labels hrun, of_decide_eq_true hst⟩

end Bz.Bzlmod.Archive
