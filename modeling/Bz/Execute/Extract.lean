import Bz.Directory.Selector
import Bz.Execute.ReTree

/-!
# Extracting artifact values

`expand_selector_for_dependencies` and `extract_artifact_value` of `bz_execute/src/directory.rs`:
the value of an artifact in a directory is its entry, and as dependencies what the symlinks in it
lead to, through further symlinks.  The loop follows symlinks until it meets no new destination; a
destination is taken with everything below it.

`resolve` says what a path leads to in a tree, following at most a number of symlinks.
-/

namespace Bz.Execute

open BuckOut Directory FileName List

abbrev ActionTree := PathMap FileName ActionDirectoryMember

/-! ## Destinations of symlinks -/

def dotDot : Text := ['.', '.']

/-- `RelativePath::join_normalized` of a library, on components.  Assumed is what the documentation
of `ForwardRelativePath::join_normalized` says: every `..` at the front takes a name from the
directory. -/
class JoinNormalized where
  join : List Text → List Text → List Text
  join_names : ∀ (dir names : List FileName) (n : Nat), n ≤ dir.length →
    join (dir.map text) (List.replicate n dotDot ++ names.map text) =
      (dir.take (dir.length - n)).map text ++ names.map text

/-- The components of a relative path. -/
def relativeComponents (target : Text) : List Text := (target.splitOn '/').filter (· ≠ [])

/-- `ForwardRelativePathBuf::try_from`. -/
def fileNames (components : List Text) : Option (List FileName) := components.mapM tryFrom

section

variable [JoinNormalized]

/-- `parent` and `join_system_normalized`; `none` is an invalid symlink. -/
def linkDest (linkPath : List FileName) (target : Text) : Option (List FileName) :=
  fileNames (JoinNormalized.join (linkPath.dropLast.map text) (relativeComponents target))

/-! ## The worklist -/

abbrev ActionSelector := DirectorySelector FileName

/-- The variables of a round of `expand_selector_for_dependencies`. -/
structure Expansion where
  pathsToTake : ActionSelector
  nextPathsToVisit : ActionSelector
  allKnownSymlinks : List (List FileName)

def handleLinkAtPath (st : Expansion) (link : List FileName × Text) : Expansion :=
  match linkDest link.1 link.2 with
  | none => st
  | some dest =>
    if dest ∈ st.allKnownSymlinks then st
    else
      { pathsToTake := st.pathsToTake.select dest
        nextPathsToVisit := st.nextPathsToVisit.select dest
        allKnownSymlinks := dest :: st.allKnownSymlinks }

def asSymlink (x : List FileName × ActionDirectoryMember) : Option (List FileName × Text) :=
  match x.2 with
  | .symlink target => some (x.1, target)
  | _ => none

/-- The symlinks of something that a search finds. -/
def linksOf (r : List FileName × Except ActionDirectoryMember ActionDirectoryEntry) :
    List (List FileName × Text) :=
  match r.2 with
  | .ok e => (e.unorderedWalkLeaves.map fun x => (r.1 ++ x.1, x.2)).filterMap asSymlink
  | .error l => (asSymlink (r.1, l)).toList

/-- A round. -/
def expandRound (builder : ActionDirectoryBuilder) (toTake toVisit : ActionSelector)
    (known : List (List FileName)) : Expansion :=
  ((toVisit.unorderedSearch builder).flatMap linksOf).foldl handleLinkAtPath
    ⟨toTake, .empty, known⟩

/-- The loop of `expand_selector_for_dependencies`, for a number of rounds. -/
def expandLoop (builder : ActionDirectoryBuilder) : Nat → ActionSelector → ActionSelector →
    List (List FileName) → Option ActionSelector
  | 0, _, _, _ => none
  | fuel + 1, toTake, toVisit, known =>
    if toVisit.isEmpty then some toTake
    else
      let st := expandRound builder toTake toVisit known
      expandLoop builder fuel st.pathsToTake st.nextPathsToVisit st.allKnownSymlinks

/-- `expand_selector_for_dependencies`. -/
def expandSelectorForDependencies (builder : ActionDirectoryBuilder) (fuel : Nat)
    (toTake : ActionSelector) : Option ActionSelector :=
  expandLoop builder fuel toTake toTake []

/-! ## Extraction -/

/-- Why an extraction fails. -/
inductive ExtractError where
  | find (leaf : List FileName)
  | insert (error : DirectoryBuilder.DirectoryInsertError FileName)
  | dependencyIsParent (path : List FileName)
  -- Digesting the directories.
  | panic
  -- The loop was cut off.
  | outOfFuel

/-- The entry, the entries of all other paths to take, and whether there are any. -/
structure ExtractedParts where
  entry : ActionDirectoryEntry
  deps : ActionDirectoryBuilder
  hasDeps : Bool

/-- A round of the loop that collects the dependencies. -/
def insertDep (path : List FileName) (st : ActionDirectoryBuilder × Bool)
    (r : List FileName × Except ActionDirectoryMember ActionDirectoryEntry) :
    Except ExtractError (ActionDirectoryBuilder × Bool) :=
  if r.1 = path then .ok st
  else match st.1.insert r.1 (DirectorySelector.found r.2) with
    | (_, .error e) => .error (.insert e)
    | (deps, .ok _) => .ok (deps, true)

/-- `extract_artifact_value` up to the digests. -/
def extractParts (builder : ActionDirectoryBuilder) (path : List FileName) (fuel : Nat) :
    Except ExtractError (Option ExtractedParts) :=
  match builder.find path with
  | .error e => .error (.find e)
  | .ok none => .ok none
  | .ok (some entry) =>
    match expandSelectorForDependencies builder fuel (DirectorySelector.empty.select path) with
    | none => .error .outOfFuel
    | some pathsToTake =>
      match (pathsToTake.unorderedSearch builder).foldlM (insertDep path) (.empty, false) with
      | .error e => .error e
      | .ok st => .ok (some ⟨entry, st.1, st.2⟩)

/-- An entry with its dependencies. -/
structure ArtifactValue where
  entry : ActionDirectoryEntry
  deps : Option ActionDirectoryBuilder

/-- What the dependencies have at a path. -/
def ArtifactValue.depsTree (value : ArtifactValue) : ActionTree :=
  match value.deps with
  | none => fun _ => none
  | some deps => deps.tree

namespace ReDirectorySerializer

variable (s : ReDirectorySerializer)

/-- `fingerprint` and `shared`. -/
def intern (interner : ActionInterner) (d : ActionDirectoryBuilder) :
    Except ExtractError (ActionDirectoryBuilder × ActionInterner) :=
  match d.fingerprintDir le s.digester with
  | none => .error .panic
  | some d => .ok (d.shared interner)

def internEntry (interner : ActionInterner) :
    ActionDirectoryEntry → Except ExtractError (ActionDirectoryEntry × ActionInterner)
  | .leaf l => .ok (.leaf l, interner)
  | .dir d => (s.intern interner d).map fun r => (.dir r.1, r.2)

def internDeps (interner : ActionInterner) (hasDeps : Bool) (deps : ActionDirectoryBuilder) :
    Except ExtractError (Option ActionDirectoryBuilder × ActionInterner) :=
  if hasDeps then (s.intern interner deps).map fun r => (some r.1, r.2) else .ok (none, interner)

/-- `extract_artifact_value`. -/
def extractArtifactValue (builder : ActionDirectoryBuilder) (path : List FileName) (fuel : Nat)
    (interner : ActionInterner) : Except ExtractError (Option ArtifactValue × ActionInterner) :=
  match extractParts builder path fuel with
  | .error e => .error e
  | .ok none => .ok (none, interner)
  | .ok (some parts) => do
    let entry ← s.internEntry interner parts.entry
    match parts.deps.removePrefix path with
    | .error _ => .error (.dependencyIsParent path)
    | .ok rest =>
      let deps ← s.internDeps entry.2 parts.hasDeps rest
      return (some ⟨entry.1, deps.1⟩, deps.2)

end ReDirectorySerializer

end

/-! ## Resolving paths -/

/-- Where the components of a symlink's target lead from its directory. -/
def follow : List FileName → List Text → Option (List FileName)
  | dir, [] => some dir
  | dir, c :: components =>
    if c = ['.'] then follow dir components
    else if c = dotDot then if dir = [] then none else follow dir.dropLast components
    else (tryFrom c).bind fun name => follow (dir ++ [name]) components

/-- What is met on the way along a path. -/
inductive Walked where
  | found (path : List FileName) (entry : ActionTree)
  | missing
  | link (path : List FileName) (target : Text) (rest : List FileName)

/-- Going down from a directory. -/
def walk (t : ActionTree) : List FileName → List FileName → Walked
  | dir, [] => .found dir fun r => t (dir ++ r)
  | dir, name :: rest => match t (dir ++ [name]) with
    | none => .missing
    | some .dir => walk t (dir ++ [name]) rest
    | some (.leaf (.symlink target)) => .link (dir ++ [name]) target rest
    | some (.leaf _) =>
      if rest = [] then .found (dir ++ [name]) fun r => t (dir ++ [name] ++ r) else .missing

/-- What a path leads to: where, and what is there and below. -/
inductive Resolved where
  | found (path : List FileName) (entry : ActionTree)
  | missing
  | tooManyLinks

/-- Resolving a path through at most a number of symlinks. -/
def resolve (t : ActionTree) (n : Nat) (path : List FileName) : Resolved :=
  match walk t [] path with
  | .found path entry => .found path entry
  | .missing => .missing
  | .link link target rest => match n with
    | 0 => .tooManyLinks
    | n + 1 => match follow link.dropLast (relativeComponents target) with
      | none => .missing
      | some dest => resolve t n (dest ++ rest)

/-- The target of a symlink is zero or more `..` followed by names, and stays inside of the root. -/
def Inside (link : List FileName) (target : Text) : Prop :=
  ∃ n, ∃ names : List FileName,
    relativeComponents target = List.replicate n dotDot ++ names.map text ∧ n < link.length

theorem FileName.text_ne (name : FileName) :
    name.text ≠ [] ∧ name.text ≠ ['.'] ∧ name.text ≠ dotDot := by
  have h := name.valid
  simp only [isFileName, Bool.and_eq_true, decide_eq_true_eq] at h
  exact ⟨h.1.1.1.1, h.1.1.1.2, h.1.1.2⟩

theorem fileNames_text (names : List FileName) : fileNames (names.map text) = some names := by
  induction names with
  | nil => rfl
  | cons name names ih =>
    unfold fileNames at ih ⊢
    rw [map_cons, mapM_cons, tryFrom_text, ih]
    rfl

variable {dir : List FileName} {n : Nat}

theorem follow_names (dir names : List FileName) :
    follow dir (names.map text) = some (dir ++ names) := by
  induction names generalizing dir with
  | nil => simp [follow]
  | cons name names ih =>
    rw [map_cons, follow, if_neg name.text_ne.2.1, if_neg name.text_ne.2.2,
      tryFrom_text, Option.bind_some, ih, append_assoc, singleton_append]

theorem follow_ups (h : n ≤ dir.length) (components : List Text) :
    follow dir (List.replicate n dotDot ++ components) =
      follow (dir.take (dir.length - n)) components := by
  induction n generalizing dir with
  | zero => simp
  | succ n ih =>
    obtain rfl | ⟨dir, last, rfl⟩ := dir.eq_nil_or_concat
    · simp at h
    · rw [replicate_succ, cons_append, follow, if_neg (by decide), if_pos rfl,
        if_neg (by simp)]
      have hdrop : (dir.concat last).dropLast = dir := by simp
      rw [hdrop, ih (by simpa using h)]
      congr 1
      simp

/-- **The destination of a symlink** is where its target leads. -/
theorem Inside.dest [JoinNormalized] {link : List FileName} {target : Text}
    (h : Inside link target) :
    ∃ dest, linkDest link target = some dest ∧
      follow link.dropLast (relativeComponents target) = some dest := by
  obtain ⟨n, names, hcomponents, hn⟩ := h
  have hle : n ≤ link.dropLast.length := by
    rw [length_dropLast]
    omega
  refine ⟨link.dropLast.take (link.dropLast.length - n) ++ names, ?_, ?_⟩
  · rw [linkDest, hcomponents, JoinNormalized.join_names _ _ _ hle, ← map_append, fileNames_text]
  · rw [hcomponents, follow_ups hle, follow_names]

end Bz.Execute
