import Mathlib.Data.List.Dedup

/-!
# Project trees and the operating system

What the no-watchfs reads of `bz_common` ask the operating system, and a finite tree of files,
directories and symlinks that it answers for.  `Os.Shows os root` says that the answers fit the
tree on every path that no symlink is passed on; what the operating system says behind a symlink is
left open, since the reads stop at the first one.

Principal result: `treeOs_shows`, an operating system that resolves symlinks in the tree fits it.
-/

namespace Bz.Files

open List Option

/-! ## What the operating system says -/

/-- The components of a forward relative path below the project root. -/
abbrev Path := List String

/-- A component of the target of a symlink. -/
inductive Component where
  | curDir
  | parentDir
  | normal (name : String)

/-- The target of a symlink: an absolute one leads out of the project. -/
inductive LinkTarget where
  | absolute (target : List Component)
  | relative (target : List Component)

/-- `FileContentsProxy`: what `lstat` says about the contents of a file. -/
structure FileContentsProxy where
  size : Nat
  modifiedSecs : Int
  modifiedNanos : Int
  changedSecs : Int
  changedNanos : Int
  nodeId : Nat
  isExecutable : Bool
  deriving DecidableEq

/-- `FileType` of a directory entry. -/
inductive FileType where
  | directory
  | file
  | symlink
  | unknown
  deriving DecidableEq

/-- An entry of a listing. -/
structure RawDirEntry where
  fileName : String
  fileType : FileType

/-- What `lstat` tells apart: everything that is no symlink and no directory is a file. -/
inductive Stat where
  | symlink
  | directory
  | file (proxy : FileContentsProxy)
  deriving DecidableEq

/-- An error of a call. -/
inductive IoError where
  | notFound
  | notADirectory
  | tooManySymlinks
  | other (code : Nat)

/-- The calls of the operating system that the reads make: `symlink_metadata_if_exists`,
`read_link` and `read_dir`. -/
structure Os where
  lstat : Path → Except IoError (Option Stat)
  readLink : Path → Except IoError LinkTarget
  readDir : Path → Except IoError (List RawDirEntry)

/-! ## Trees -/

/-- A tree.  `special` is a socket or another file that is not a regular one. -/
inductive Entry where
  | file (proxy : FileContentsProxy)
  | special (proxy : FileContentsProxy)
  | directory (children : List (String × Entry))
  | symlink (target : LinkTarget)

namespace Entry

def stat : Entry → Stat
  | file proxy => .file proxy
  | special proxy => .file proxy
  | directory _ => .directory
  | symlink _ => .symlink

def fileType : Entry → FileType
  | file _ => .file
  | special _ => .unknown
  | directory _ => .directory
  | symlink _ => .symlink

/-- The first child with the name. -/
def child : Entry → String → Option Entry
  | directory children, name => children.lookup name
  | _, _ => none

/-- The entry at a path, which passes directories only. -/
def get : Entry → Path → Option Entry
  | e, [] => some e
  | e, c :: p => (e.child c).bind fun e' => e'.get p

/-- The listing of a directory. -/
def listing : Entry → List RawDirEntry
  | directory children =>
    (children.map Prod.fst).dedup.filterMap fun name =>
      (children.lookup name).map fun e => ⟨name, e.fileType⟩
  | _ => []

@[simp] theorem get_nil (e : Entry) : e.get [] = some e := by cases e <;> rfl

@[simp] theorem get_cons (e : Entry) (c : String) (p : Path) :
    e.get (c :: p) = (e.child c).bind fun e' => e'.get p := by cases e <;> rfl

theorem get_append (e : Entry) (p q : Path) : e.get (p ++ q) =
    (e.get p).bind fun e' => e'.get q := by
  induction p generalizing e with
  | nil => simp
  | cons c p ih => cases h : e.child c <;> simp [h, ih]

variable {e root : Entry} {q : Path} {p : Path} {c : String} {children : List (String × Entry)}

theorem directory_of_get_snoc (h : root.get (q ++ [c]) = some e) :
    ∃ children, root.get q = some (.directory children) := by
  rw [get_append] at h
  obtain ⟨e', he', hc⟩ := bind_eq_some_iff.mp h
  cases hchild : e'.child c with
  | none => simp [hchild] at hc
  | some _ =>
    cases e' with
    | directory children => exact ⟨children, he'⟩
    | _ => cases hchild

theorem directory_of_get_append (hq : q ≠ []) (h : root.get (p ++ q) = some e) :
    ∃ children, root.get p = some (.directory children) := by
  cases q with
  | nil => exact absurd rfl hq
  | cons c q =>
    rw [append_cons, get_append] at h
    obtain ⟨e', he', -⟩ := bind_eq_some_iff.mp h
    exact directory_of_get_snoc he'

theorem directory_of_get_append_directory (h : root.get (p ++ q) = some (.directory children)) :
    ∃ children, root.get p = some (.directory children) := by
  cases q with
  | nil =>
    rw [append_nil] at h
    exact ⟨_, h⟩
  | cons c q => exact directory_of_get_append (cons_ne_nil c q) h

theorem mem_listing {d : RawDirEntry} : d ∈ (directory children).listing ↔
      ∃ e, (directory children).child d.fileName = some e ∧ e.fileType = d.fileType := by
  simp only [listing, child, mem_filterMap, map_eq_some_iff]
  constructor
  · rintro ⟨name, -, e, he, rfl⟩
    exact ⟨e, he, rfl⟩
  · rintro ⟨e, he, htype⟩
    refine ⟨d.fileName, ?_, e, he, by rw [htype]⟩
    have hmem : (d.fileName, e) ∈ children := by
      obtain ⟨l1, l2, heq, -⟩ := lookup_eq_some_iff.mp he
      simp [heq]
    exact mem_dedup.mpr (mem_map.mpr ⟨_, hmem, rfl⟩)

end Entry

/-! ## Operating systems that show a tree -/

/-- The operating system answers for the tree on paths that pass no symlink.  A listing may fail;
`lstat` and `read_link` do not. -/
structure Os.Shows (os : Os) (root : Entry) : Prop where
  isDirectory : ∃ children, root = .directory children
  lstat : ∀ {p e}, root.get p = some e → os.lstat p = .ok (some e.stat)
  lstat_missing : ∀ {q children c}, root.get q = some (.directory children) →
    root.get (q ++ [c]) = none → os.lstat (q ++ [c]) = .ok none
  lstat_below_file : ∀ {q e c}, root.get q = some e → (∃ proxy, e.stat = .file proxy) →
    ∃ err, os.lstat (q ++ [c]) = .error err
  readLink : ∀ {p target}, root.get p = some (.symlink target) → os.readLink p = .ok target
  readDir : ∀ {q children entries}, root.get q = some (.directory children) →
    os.readDir q = .ok entries → ∀ d : RawDirEntry,
      d ∈ entries ↔ ∃ e, root.get (q ++ [d.fileName]) = some e ∧ e.fileType = d.fileType
  readDir_file : ∀ {q e}, root.get q = some e → (∃ proxy, e.stat = .file proxy) →
    ∃ err, os.readDir q = .error err
  readDir_missing : ∀ {q e c}, root.get q = some e → e.stat ≠ .symlink →
    root.get (q ++ [c]) = none → ∃ err, os.readDir (q ++ [c]) = .error err

/-! ## An operating system for every tree -/

section TreeOs

variable (root : Entry) (outside : List Component → Except IoError Entry)

/-- Path resolution from a directory of the tree.  A symlink at the end is followed only if `follow`
says so.  `expand` resolves with one expansion less. -/
def resolveFrom (follow : Bool) (expand : Path → List Component → Except IoError Entry)
    (dir : Path) : List Component → Except IoError Entry
  | [] => match root.get dir with
    | some e => .ok e
    | none => .error .notFound
  | .curDir :: todo => resolveFrom follow expand dir todo
  | .parentDir :: todo => resolveFrom follow expand dir.dropLast todo
  | .normal c :: todo => match root.get dir with
    | some (.directory _) => match root.get (dir ++ [c]) with
      | none => .error .notFound
      | some (.symlink target) =>
        if todo = [] ∧ follow = false then .ok (.symlink target)
        else match target with
          | .absolute target => outside (target ++ todo)
          | .relative target => expand dir (target ++ todo)
      | some _ => resolveFrom follow expand (dir ++ [c]) todo
    | _ => .error .notADirectory

/-- Path resolution with at most so many expansions of symlinks. -/
def resolve (follow : Bool) : Nat → Path → List Component → Except IoError Entry
  | 0 => fun _ _ => .error .tooManySymlinks
  | n + 1 => resolveFrom root outside follow (resolve follow n)

def maxSymlinkExpansions : Nat := 40

/-- The operating system of a tree; absolute paths are resolved by `outside`. -/
def treeOs : Os where
  lstat p := match resolve root outside false (maxSymlinkExpansions + 1) [] (p.map .normal) with
    | .ok e => .ok (some e.stat)
    | .error .notFound => .ok none
    | .error err => .error err
  readLink p := match resolve root outside false (maxSymlinkExpansions + 1) [] (p.map .normal) with
    | .ok (.symlink target) => .ok target
    | .ok _ => .error (.other 22)
    | .error err => .error err
  readDir p := match resolve root outside true (maxSymlinkExpansions + 1) [] (p.map .normal) with
    | .ok (.directory children) => .ok (Entry.directory children).listing
    | .ok _ => .error .notADirectory
    | .error err => .error err

variable {root outside} {follow : Bool} {expand : Path → List Component → Except IoError Entry}
variable {children : List (String × Entry)} {q : Path} {n : Nat}
  {p : Path} {rest : List Component} {c : String} {e : Entry}

/-- Directories of the tree are passed one by one. -/
theorem resolveFrom_append (h : root.get (p ++ q) = some (.directory children)) :
    resolveFrom root outside follow expand p (q.map .normal ++ rest) =
      resolveFrom root outside follow expand (p ++ q) rest := by
  induction q generalizing p with
  | nil => simp
  | cons c q ih =>
    obtain ⟨cs, hp⟩ := Entry.directory_of_get_append_directory h
    rw [append_cons] at h ⊢
    obtain ⟨cs', hc⟩ := Entry.directory_of_get_append_directory h
    simpa [resolveFrom, hp, hc] using ih h

theorem resolve_snoc (hq : root.get q = some (.directory children)) :
    resolve root outside follow (n + 1) [] (q.map .normal ++ rest) =
      resolveFrom root outside follow (resolve root outside follow n) q rest :=
  resolveFrom_append (p := []) hq

theorem resolve_get (h : root.get p = some e) (hf : follow = false ∨ e.stat ≠ .symlink) :
    resolve root outside follow (n + 1) [] (p.map .normal) = .ok e := by
  rcases eq_nil_or_concat' p with rfl | ⟨q, c, rfl⟩
  · simpa [resolve, resolveFrom] using h
  · obtain ⟨children, hq⟩ := Entry.directory_of_get_snoc h
    rw [map_append, resolve_snoc hq]
    cases e with
    | symlink target =>
      have hfalse : follow = false := hf.resolve_right (by simp [Entry.stat])
      simp [resolveFrom, hq, h, hfalse]
    | _ => simp [resolveFrom, hq, h]

theorem resolve_missing (hq : root.get q = some (.directory children))
    (hc : root.get (q ++ [c]) = none) :
    resolve root outside follow (n + 1) [] ((q ++ [c]).map .normal) = .error .notFound := by
  rw [map_append, resolve_snoc hq]
  simp [resolveFrom, hq, hc]

theorem resolve_below_file (hroot : root.stat = .directory) (hq : root.get q = some e)
    (he : ∃ proxy, e.stat = .file proxy) :
    resolve root outside follow (n + 1) [] ((q ++ [c]).map .normal) = .error .notADirectory := by
  obtain ⟨proxy, he⟩ := he
  rcases eq_nil_or_concat' q with rfl | ⟨q', c', rfl⟩
  · cases hq
    rw [hroot] at he
    cases he
  · obtain ⟨children, hq'⟩ := Entry.directory_of_get_snoc hq
    rw [append_assoc, map_append, resolve_snoc hq']
    cases e with
    | file proxy | special proxy => simp [resolveFrom, hq', hq]
    | _ => cases he

end TreeOs

/-- **The operating system of a tree shows the tree.** -/
theorem treeOs_shows (children : List (String × Entry))
    (outside : List Component → Except IoError Entry) :
    (treeOs (.directory children) outside).Shows (.directory children) where
  isDirectory := ⟨children, rfl⟩
  lstat h := by simp only [treeOs, resolve_get h (.inl rfl)]
  lstat_missing hq hc := by simp only [treeOs, resolve_missing hq hc]
  lstat_below_file hq he := ⟨.notADirectory, by simp only [treeOs, resolve_below_file rfl hq he]⟩
  readLink h := by simp only [treeOs, resolve_get h (.inl rfl)]
  readDir hq hentries d := by
    simp only [treeOs, resolve_get hq (.inr (by simp [Entry.stat])), Except.ok.injEq] at hentries
    rw [← hentries, Entry.mem_listing, Entry.get_append, hq, Option.bind_some]
    cases hd : Entry.child _ d.1 <;> simp [hd]
  readDir_file {q e} hq he := by
    refine ⟨.notADirectory, ?_⟩
    obtain ⟨_, he⟩ := he
    simp only [treeOs, resolve_get hq (.inr (by simp [he]))]
    cases e with
    | directory _ => cases he
    | _ => rfl
  readDir_missing {q e c} hq hns hc := by
    cases e with
    | directory cs => exact ⟨.notFound, by simp only [treeOs, resolve_missing hq hc]⟩
    | symlink _ => exact absurd rfl hns
    | _ => exact ⟨.notADirectory, by simp only [treeOs, resolve_below_file rfl hq ⟨_, rfl⟩]⟩

end Bz.Files
