import Mathlib.Data.String.Basic
import Bz.Directory.Fingerprint
import Bz.Execute.Digest

/-!
# Remote execution trees

Action directories and their wire form (`bz_execute/src/directory.rs`): `create_re_directory`,
`directory_to_re_tree`, and `re_tree_to_directory` with its `DirMap` and `dfs_build`.  The members
of an action directory are files with their digests, source file proxies, and the two kinds of
symlinks.

Encoding a message is a parameter of `ReDirectorySerializer`, next to the hash functions.  Not
modelled are the renaming of directories, which only `rename_and_serialize_entries` asks for, and
when a digest expires.

Principal result: `message_congr`, the message does not depend on the order of the entries.
-/

namespace Bz.Execute

open BuckOut Directory List

/-! ## Action directories -/

/-- The name of an entry. -/
structure FileName where
  text : Text
  valid : isFileName text = true
  deriving DecidableEq

def FileName.tryFrom (text : Text) : Option FileName :=
  if h : isFileName text = true then some ⟨text, h⟩ else none

theorem FileName.ext {a b : FileName} (h : a.text = b.text) : a = b := by
  cases a
  cases b
  cases h
  rfl

@[simp] theorem FileName.tryFrom_text (name : FileName) : tryFrom name.text = some name := by
  rw [tryFrom, dif_pos name.valid]

/-- What is known of a file. -/
structure FileMetadata where
  digest : FileDigest
  isExecutable : Bool
  deriving DecidableEq

/-- A symlink out of the project. -/
structure ExternalSymlink where
  absTarget : Text
  remainingPath : ForwardRelativePath
  deriving DecidableEq

/-- A leaf of an action directory. -/
inductive ActionDirectoryMember where
  | file (file : FileMetadata)
  -- A proxy; only its size is looked at.
  | sourceFile (size : UInt64)
  | symlink (target : Text)
  | externalSymlink (symlink : ExternalSymlink)
  deriving DecidableEq

def ActionDirectoryMember.size : ActionDirectoryMember → Nat
  | file f => f.digest.size.toNat
  | sourceFile size => size.toNat
  | symlink _ => 0
  | externalSymlink _ => 0

abbrev ActionDirectoryBuilder := DirectoryBuilder FileName ActionDirectoryMember FileDigest

abbrev ActionDirectoryEntry := BuilderEntry FileName ActionDirectoryMember FileDigest

abbrev ActionInterner := DirectoryBuilder.Interner FileName ActionDirectoryMember FileDigest

/-! ## Messages -/

/-- A file in a message. -/
structure FileNode where
  name : Text
  digest : Option ReDigest
  isExecutable : Bool
  deriving DecidableEq

/-- A directory in a message. -/
structure DirectoryNode where
  name : Text
  digest : Option ReDigest
  deriving DecidableEq

/-- A symlink in a message. -/
structure SymlinkNode where
  name : Text
  target : Text
  deriving DecidableEq

/-- `RE::Directory`. -/
structure ReDirectory where
  files : List FileNode
  directories : List DirectoryNode
  symlinks : List SymlinkNode
  deriving DecidableEq

/-- `RE::Tree`. -/
structure ReTree where
  root : Option ReDirectory
  children : List ReDirectory

/-- One round of the loop of `create_re_directory`; `none` is its panic. -/
def pushEntry (m : ReDirectory) : FileName × ActionDirectoryEntry → Option ReDirectory
  | (name, .dir d) => d.fingerprint.map fun fingerprint =>
      { m with directories := m.directories ++ [⟨name.text, some fingerprint.toGrpc⟩] }
  | (name, .leaf (.file f)) =>
      some { m with files := m.files ++ [⟨name.text, some f.digest.toGrpc, f.isExecutable⟩] }
  | (_, .leaf (.sourceFile _)) => none
  | (name, .leaf (.symlink target)) =>
      some { m with symlinks := m.symlinks ++ [⟨name.text, target⟩] }
  | (name, .leaf (.externalSymlink s)) =>
      some { m with symlinks := m.symlinks ++ [⟨name.text, s.absTarget⟩] }

def FileNode.le (a b : FileNode) : Prop := a.name ≤ b.name

def SymlinkNode.le (a b : SymlinkNode) : Prop := a.name ≤ b.name

/-- By name, then by the text of the digest. -/
def DirectoryNode.le (a b : DirectoryNode) : Prop :=
  a.name < b.name ∨ a.name = b.name ∧ a.digest.elim [] ReDigest.hash ≤ b.digest.elim
    [] ReDigest.hash

instance : DecidableRel FileNode.le := fun a b => inferInstanceAs (Decidable (a.name ≤ b.name))

instance : DecidableRel SymlinkNode.le := fun a b => inferInstanceAs (Decidable (a.name ≤ b.name))

instance : DecidableRel DirectoryNode.le := fun _ _ => inferInstanceAs (Decidable (_ ∨ _))

variable (entries : List (FileName × ActionDirectoryEntry))

/-- `create_re_directory`. -/
def createReDirectory : Option ReDirectory :=
  (entries.foldlM pushEntry ⟨[], [], []⟩).map fun m =>
    { files := m.files.insertionSort FileNode.le
      directories := m.directories.insertionSort DirectoryNode.le
      symlinks := m.symlinks.insertionSort SymlinkNode.le }

/-- How directories are digested. -/
structure ReDirectorySerializer where
  casDigestConfig : CasDigestConfig
  hashes : Hashes
  -- `proto_serialize`
  encode : ReDirectory → List UInt8

namespace ReDirectorySerializer

variable (s : ReDirectorySerializer)

/-- The digest of a message. -/
def digest (m : ReDirectory) : Option FileDigest :=
  FileDigest.fromContent s.hashes (s.encode m) s.casDigestConfig

def hashEntries (entries : List (FileName × ActionDirectoryEntry)) : Option FileDigest :=
  (createReDirectory entries).bind s.digest

def digester : DirectoryDigester FileName ActionDirectoryMember FileDigest :=
  ⟨s.hashEntries, ActionDirectoryMember.size⟩

end ReDirectorySerializer

def FileName.le (a b : FileName) : Prop := a.text ≤ b.text

instance : DecidableRel FileName.le := fun a b => inferInstanceAs (Decidable (a.text ≤ b.text))

mutual

/-- The directories of `ordered_walk`, each before what is in it. -/
def orderedWalkDirs : ActionDirectoryBuilder → List ActionDirectoryBuilder
  | .node _ entries =>
    ((walkDirs entries).insertionSort fun a b => FileName.le a.1 b.1).flatMap Prod.snd

def walkDirs : List (FileName × ActionDirectoryEntry) →
    List (FileName × List ActionDirectoryBuilder)
  | [] => []
  | (k, .dir d) :: entries => (k, d :: orderedWalkDirs d) :: walkDirs entries
  | (_, .leaf _) :: entries => walkDirs entries

end

/-- `directory_to_re_tree`. -/
def directoryToReTree (d : ActionDirectoryBuilder) : Option ReTree := do
  let children ← (orderedWalkDirs d).mapM fun sub => createReDirectory sub.entries
  let root ← createReDirectory d.entries
  return ⟨some root, children⟩

/-! ## Reading a tree -/

/-- The errors of `re_tree_to_directory`. -/
inductive ReConversionError where
  | nodeWithDigestNone (name dir : Text)
  | incompleteTreeChildrenList (name dir : Text)
  | incorrectFileName (name dir : Text)
  | digest (error : DigestConversionError)
  | insert (error : DirectoryBuilder.DirectoryInsertError FileName)
  -- A digest of an algorithm that cannot be computed.
  | panic
  -- The recursion was cut off.
  | outOfFuel

/-- `TryFrom<&RE::SymlinkNode> for ActionDirectoryMember`. -/
def memberOfSymlinkNode (node : SymlinkNode) : ActionDirectoryMember :=
  if node.target.head? = some '/' then .externalSymlink ⟨node.target, .empty⟩
  else .symlink node.target

def fileName (name dir : Text) : Except ReConversionError FileName :=
  match FileName.tryFrom name with
  | none => .error (.incorrectFileName name dir)
  | some name => .ok name

def insertNamed (b : ActionDirectoryBuilder) (name : FileName) (e : ActionDirectoryEntry) :
    Except ReConversionError ActionDirectoryBuilder :=
  match b.insert [name] e with
  | (_, .error e) => .error (.insert e)
  | (b, .ok _) => .ok b

namespace ReDirectorySerializer

variable (s : ReDirectorySerializer)

def insertFile (dir : Text) (b : ActionDirectoryBuilder) (node : FileNode) :
    Except ReConversionError ActionDirectoryBuilder := do
  let name ← fileName node.name dir
  match node.digest with
  | none => .error (.nodeWithDigestNone node.name dir)
  | some digest =>
    let digest ← (FileDigest.fromGrpc digest s.casDigestConfig).mapError .digest
    match digest.tracked s.hashes s.casDigestConfig with
    | none => .error .panic
    | some digest => insertNamed b name (.leaf (.file ⟨digest, node.isExecutable⟩))

def insertSymlink (dir : Text) (b : ActionDirectoryBuilder) (node : SymlinkNode) :
    Except ReConversionError ActionDirectoryBuilder := do
  let name ← fileName node.name dir
  insertNamed b name (.leaf (memberOfSymlinkNode node))

/-- `DirMap::get`: of two directories with one digest, the last. -/
def dirMapGet (directories : List ReDirectory) (algo : DigestAlgorithm) (digest : FileDigest) :
    Except ReConversionError (Option ReDirectory) :=
  match directories.mapM fun d =>
      (FileDigest.fromContentForAlgorithm s.hashes (s.encode d) algo).map fun k => (k, d) with
  | none => .error .panic
  | some map => .ok (map.reverse.lookup digest)

/-- A round of the last loop of `dfs_build`, which builds the directory of the node. -/
def insertDirectory (children : List ReDirectory)
    (build : ActionInterner → ReDirectory → Text →
      Except ReConversionError (ActionDirectoryBuilder × ActionInterner))
    (dir : Text) (st : ActionDirectoryBuilder × ActionInterner) (node : DirectoryNode) :
    Except ReConversionError (ActionDirectoryBuilder × ActionInterner) :=
  match node.digest with
  | none => .error (.nodeWithDigestNone node.name dir)
  | some digest => do
    let digest ← (FileDigest.fromGrpcWithAlgo digest s.casDigestConfig).mapError .digest
    match ← s.dirMapGet children digest.2 digest.1 with
    | none => .error (.incompleteTreeChildrenList node.name dir)
    | some child =>
      let r ← build st.2 child digest.1.toText
      let name ← fileName node.name dir
      let b ← insertNamed st.1 name (.dir r.1)
      return (b, r.2)

/-- The end of `dfs_build`. -/
def finish (fingerprint : Bool) (st : ActionDirectoryBuilder × ActionInterner) :
    Except ReConversionError (ActionDirectoryBuilder × ActionInterner) :=
  if fingerprint then
    match DirectoryBuilder.fingerprintDir FileName.le s.digester st.1 with
    | none => .error .panic
    | some d => .ok (DirectoryBuilder.shared st.2 d)
  else .ok st

/-- `dfs_build`. -/
def dfsBuild (children : List ReDirectory) (fingerprint : Bool) : Nat → ActionInterner →
    ReDirectory → Text → Except ReConversionError (ActionDirectoryBuilder × ActionInterner)
  | 0, _, _, _ => .error .outOfFuel
  | fuel + 1, interner, reDir, reDirName => do
    let b ← reDir.files.foldlM (s.insertFile reDirName) .empty
    let b ← reDir.symlinks.foldlM (insertSymlink reDirName) b
    let st ← reDir.directories.foldlM
      (s.insertDirectory children (dfsBuild children fingerprint fuel) reDirName) (b, interner)
    s.finish fingerprint st

/-- `re_tree_to_directory`. -/
def reTreeToDirectory (fingerprint : Bool) (fuel : Nat) (interner : ActionInterner)
    (tree : ReTree) : Except ReConversionError (ActionDirectoryBuilder × ActionInterner) :=
  match tree.root with
  | none => .ok (.empty, interner)
  | some root => s.dfsBuild tree.children fingerprint fuel interner root "root directory".toList

end ReDirectorySerializer

/-! ## The message of a directory -/

def fileNode : FileName × ActionDirectoryEntry → Option FileNode
  | (k, .leaf (.file f)) => some ⟨k.text, some f.digest.toGrpc, f.isExecutable⟩
  | _ => none

def directoryNode : FileName × ActionDirectoryEntry → Option DirectoryNode
  | (k, .dir d) => d.fingerprint.map fun fingerprint => ⟨k.text, some fingerprint.toGrpc⟩
  | _ => none

def symlinkNode : FileName × ActionDirectoryEntry → Option SymlinkNode
  | (k, .leaf (.symlink target)) => some ⟨k.text, target⟩
  | (k, .leaf (.externalSymlink e)) => some ⟨k.text, e.absTarget⟩
  | _ => none

/-- An entry that does not make `create_re_directory` panic. -/
def Serializable (e : FileName × ActionDirectoryEntry) : Prop := ∃ m, pushEntry ⟨[], [], []⟩ e =
    some m

/-- The message of some entries. -/
def message : ReDirectory where
  files := (entries.filterMap fileNode).insertionSort FileNode.le
  directories := (entries.filterMap directoryNode).insertionSort DirectoryNode.le
  symlinks := (entries.filterMap symlinkNode).insertionSort SymlinkNode.le

variable {e : FileName × ActionDirectoryEntry} {m : ReDirectory}
  {entries : List (FileName × ActionDirectoryEntry)} {m' : ReDirectory}

theorem pushEntry_eq_some : pushEntry m e = some m' ↔ Serializable e ∧
      m' = ⟨m.files ++ (fileNode e).toList, m.directories ++ (directoryNode e).toList,
        m.symlinks ++ (symlinkNode e).toList⟩ := by
  obtain ⟨k, d | l⟩ := e
  · cases hf : d.fingerprint <;>
      simp [pushEntry, Serializable, fileNode, directoryNode, symlinkNode, hf, eq_comm]
  · cases l <;> simp [pushEntry, Serializable, fileNode, directoryNode, symlinkNode, eq_comm]

theorem foldlM_pushEntry : entries.foldlM pushEntry m = some m' ↔ (∀ e ∈ entries, Serializable e) ∧
      m' = ⟨m.files ++ entries.filterMap fileNode, m.directories ++ entries.filterMap directoryNode,
        m.symlinks ++ entries.filterMap symlinkNode⟩ := by
  induction entries generalizing m with
  | nil => simp [eq_comm]
  | cons e entries ih =>
    have hcons {N : Type} (f : FileName × ActionDirectoryEntry → Option N) (l : List N) :
        l ++ (f e).toList ++ entries.filterMap f = l ++ (e :: entries).filterMap f := by
      rw [append_assoc, filterMap_cons]
      cases f e <;> rfl
    rw [foldlM_cons, Option.bind_eq_bind, Option.bind_eq_some_iff]
    simp only [pushEntry_eq_some, ih, mem_cons, forall_eq_or_imp]
    constructor
    · rintro ⟨_, ⟨he, rfl⟩, hall, rfl⟩
      exact ⟨⟨he, hall⟩, by simp only [hcons]⟩
    · rintro ⟨⟨he, hall⟩, rfl⟩
      exact ⟨_, ⟨he, rfl⟩, hall, by simp only [hcons]⟩

theorem createReDirectory_eq_some :
    createReDirectory entries = some m ↔ (∀ e ∈ entries, Serializable e) ∧ m = message entries := by
  unfold createReDirectory
  rw [Option.map_eq_some_iff]
  simp only [foldlM_pushEntry]
  constructor
  · rintro ⟨_, ⟨hall, rfl⟩, rfl⟩
    exact ⟨hall, rfl⟩
  · rintro ⟨hall, rfl⟩
    exact ⟨_, ⟨hall, rfl⟩, rfl⟩

section Nodes

variable {N : Type} {f : FileName × ActionDirectoryEntry → Option N} {name : N → Text}
  (hname : ∀ e n, f e = some n → name n = e.1.text)
include hname

theorem sublist_names (entries : List (FileName × ActionDirectoryEntry)) :
    ((entries.filterMap f).map name).Sublist (entries.map fun e => e.1.text) := by
  induction entries with
  | nil => exact List.Sublist.refl []
  | cons e entries ih =>
    rw [filterMap_cons, map_cons]
    split
    · exact ih.cons _
    · next n hn =>
      rw [map_cons, hname e n hn]
      exact ih.cons_cons _

theorem nodup_filterMap (hnd : (entries.map Prod.fst).Nodup) :
    ((entries.filterMap f).map name).Nodup := by
  refine (sublist_names hname entries).nodup ?_
  rw [show (fun e : FileName × ActionDirectoryEntry => e.1.text) =
    FileName.text ∘ Prod.fst from rfl,
    ← map_map]
  exact hnd.map fun a b hab => FileName.ext hab

/-- Nodes sorted by their names do not depend on the order of the entries they come from. -/
theorem insertionSort_filterMap_congr {le : N → N → Prop} [DecidableRel le] [Std.Total le]
    [IsTrans N le] (hanti : ∀ a b, le a b → le b a → name a = name b)
    {entries' : List (FileName × ActionDirectoryEntry)} (hnd : (entries.map Prod.fst).Nodup)
    (hnd' : (entries'.map Prod.fst).Nodup)
    (hsame : ∀ n, n ∈ entries.filterMap f ↔ n ∈ entries'.filterMap f) :
    (entries.filterMap f).insertionSort le = (entries'.filterMap f).insertionSort le := by
  refine List.Perm.eq_of_pairwise (fun a b ha hb hab hba => ?_)
    (pairwise_insertionSort le _) (pairwise_insertionSort le _) ?_
  · rw [mem_insertionSort] at ha hb
    exact inj_on_of_nodup_map (nodup_filterMap hname hnd) ha ((hsame b).mpr hb) (hanti a b hab hba)
  · have hperm := (perm_ext_iff_of_nodup (nodup_filterMap hname hnd).of_map
      (nodup_filterMap hname hnd').of_map).mpr hsame
    exact (perm_insertionSort le _).trans (hperm.trans (perm_insertionSort le _).symm)

end Nodes

theorem fileNode_name {n : FileNode} (h : fileNode e = some n) : n.name = e.1.text := by
  unfold fileNode at h
  split at h <;> cases h
  rfl

theorem directoryNode_name {n : DirectoryNode} (h : directoryNode e = some n) :
    n.name = e.1.text := by
  unfold directoryNode at h
  split at h
  · obtain ⟨fingerprint, -, rfl⟩ := Option.map_eq_some_iff.mp h
    rfl
  · cases h

theorem symlinkNode_name {n : SymlinkNode} (h : symlinkNode e = some n) : n.name = e.1.text := by
  unfold symlinkNode at h
  split at h <;> cases h <;> rfl

instance : Std.Total DirectoryNode.le := by
  refine ⟨fun a b => ?_⟩
  rcases lt_trichotomy a.name b.name with h | h | h
  · exact .inl (.inl h)
  · exact (le_total (a.digest.elim [] ReDigest.hash) (b.digest.elim [] ReDigest.hash)).imp
      (fun hle => .inr ⟨h, hle⟩) fun hle => .inr ⟨h.symm, hle⟩
  · exact .inr (.inl h)

instance : IsTrans DirectoryNode DirectoryNode.le := by
  refine ⟨fun a b c hab hbc => ?_⟩
  rcases hab with hab | ⟨hab, hle⟩ <;> rcases hbc with hbc | ⟨hbc, hle'⟩
  · exact .inl (hab.trans hbc)
  · exact .inl (hbc ▸ hab)
  · exact .inl (hab ▸ hbc)
  · exact .inr ⟨hab.trans hbc, hle.trans hle'⟩

theorem DirectoryNode.name_eq_of_le {a b : DirectoryNode} (hab : a.le b) (hba : b.le a) :
    a.name = b.name := by
  rcases hab with hab | ⟨hab, -⟩
  · rcases hba with hba | ⟨hba, -⟩
    · exact absurd (hab.trans hba) (lt_irrefl _)
    · exact hba.symm
  · exact hab

/-- **A message** does not depend on the order of the entries, only on their nodes. -/
theorem message_congr {entries' : List (FileName × ActionDirectoryEntry)}
    (hnd : (entries.map Prod.fst).Nodup) (hnd' : (entries'.map Prod.fst).Nodup)
    (hfile : ∀ n, n ∈ entries.filterMap fileNode ↔ n ∈ entries'.filterMap fileNode)
    (hdir : ∀ n, n ∈ entries.filterMap directoryNode ↔ n ∈ entries'.filterMap directoryNode)
    (hsymlink : ∀ n, n ∈ entries.filterMap symlinkNode ↔ n ∈ entries'.filterMap symlinkNode) :
    message entries = message entries' := by
  unfold message
  congr 1
  · exact insertionSort_filterMap_congr (fun _ _ => fileNode_name)
      (fun _ _ => le_antisymm) hnd hnd' hfile
  · exact insertionSort_filterMap_congr (fun _ _ => directoryNode_name)
      (fun _ _ => DirectoryNode.name_eq_of_le) hnd hnd' hdir
  · exact insertionSort_filterMap_congr (fun _ _ => symlinkNode_name)
      (fun _ _ => le_antisymm) hnd hnd' hsymlink

end Bz.Execute
