import Bz.Bzlmod.Selection
import Bz.Fallible

/-!
# Module extensions and their unique names

The parts of a module file that generate repositories, the labels of extensions, and
`bzlmod_extension_unique_names` of `bz_common/src/bazel/bzlmod.rs`: every extension that is used
gets a name made of the repository of its file and its own name, with a number when that is taken.

Principal results: `bzlmodExtensionUniqueNames_injective`; `assignUniqueName_ne_outOfAttempts`, the
search for a free number ends.
-/

namespace Bz.Bzlmod.Extensions

open Std (TreeMap TreeSet TransCmp LawfulEqCmp)

/-! ## The parts of a module file -/

/-- A repository that `use_repo` imports. -/
structure BzlmodUseRepoImport where
  aliasName : String
  repoName : String

/-- `override_repo` or `inject_repo`. -/
structure BzlmodRepoOverride where
  repoName : String
  overridingRepoName : String
  mustExist : Bool

/-- A tag, with its arguments as they stand. -/
structure BzlmodExtensionTag where
  kwargs : List (String × String)

/-- A usage of an extension in a module. -/
structure BzlmodExtensionUsage where
  extensionBzlFile : String
  extensionName : String
  imports : List BzlmodUseRepoImport
  repoOverrides : List BzlmodRepoOverride
  tags : List BzlmodExtensionTag

/-- An invocation of a repository rule. -/
structure BzlmodUseRepoRuleInvocation where
  ruleBzlFile : String
  ruleName : String
  repoName : String
  attrs : List (String × String)

/-- `RootBzlmodModule`, as far as the generated repositories depend on it. -/
structure RootBzlmodModule where
  canonicalRepoName : String
  lockfileExtensionGeneratedRepos : TreeMap String (TreeSet String)
  extensionUsages : List BzlmodExtensionUsage
  useRepoRuleInvocations : List BzlmodUseRepoRuleInvocation

/-- `DiscoveredBcrModule`, as far as the generated repositories depend on it. -/
structure DiscoveredBcrModule where
  dep : BazelDep
  useRepoRuleInvocations : List BzlmodUseRepoRuleInvocation
  useRepoAliases : List String
  extensionUsages : List BzlmodExtensionUsage

/-- The aliases that each cell sees. -/
abbrev BzlmodCellAliasesByCell := TreeMap String (TreeMap String String)

/-- `BzlmodDepGraph`, before the unique names are known. -/
structure BzlmodDepGraph where
  rootModule : RootBzlmodModule
  discovered : TreeMap ModuleKey DiscoveredBcrModule
  selectedKeys : TreeSet ModuleKey
  selectedKeysInDependencyOrder : List ModuleKey
  canonicalRepoNamesByKey : TreeMap ModuleKey String
  canonicalRepoNamesByCell : TreeMap String String
  cellAliasesByCell : BzlmodCellAliasesByCell

/-- An extension, by its file and its name. -/
structure BzlmodExtensionId where
  bzlCellName : String
  bzlPath : String
  extensionName : String
  deriving DecidableEq

instance : Ord BzlmodExtensionId :=
  ⟨compareLex (compareOn (·.bzlCellName))
    (compareLex (compareOn (·.bzlPath)) (compareOn (·.extensionName)))⟩

instance : TransCmp (compare : BzlmodExtensionId → BzlmodExtensionId → Ordering) :=
  inferInstanceAs (TransCmp (compareLex (compareOn BzlmodExtensionId.bzlCellName)
    (compareLex (compareOn BzlmodExtensionId.bzlPath)
      (compareOn BzlmodExtensionId.extensionName))))

instance : LawfulEqCmp (compare : BzlmodExtensionId → BzlmodExtensionId → Ordering) where
  eq_of_compare {a b} h := by
    obtain ⟨hcell, hrest⟩ := Ordering.then_eq_eq.mp h
    obtain ⟨hpath, hname⟩ := Ordering.then_eq_eq.mp hrest
    cases a
    cases b
    cases compare_eq_iff_eq.mp hcell
    cases compare_eq_iff_eq.mp hpath
    cases compare_eq_iff_eq.mp hname
    rfl

/-- Why no repositories are generated. -/
inductive GenerateError where
  | labelNotAbsolute (label : String)
  | unknownRepo (label cell aliasName : String)
  | emptyTarget (label : String)
  | labelNotRootRelative (label : String)
  | noCanonicalRepoName (name version : String)
  | unknownCell (id : BzlmodExtensionId)
  | noUniqueName (bzlFile extensionName cell : String)
  | overrideNotVisible (id : BzlmodExtensionId) (repoName overridingRepoName cell : String)
  | noUsages (id : BzlmodExtensionId)
  | importsInjected (bzlFile extensionName parent repoName target : String)
  | outOfAttempts

/-! ## Labels -/

/-- `split_once("//")`. -/
def splitOnceSlashes : List Char → Option (List Char × List Char)
  | '/' :: '/' :: rest => some ([], rest)
  | c :: rest => (splitOnceSlashes rest).map fun (before, after) => (c :: before, after)
  | [] => none

def bzlmodCellAliasTarget (aliasesByCell : BzlmodCellAliasesByCell) (cell aliasName : String) :
    Option String :=
  aliasesByCell[cell]?.bind fun aliases => aliases[aliasName]?

/-- `bzlmod_cell_name`: a cell has the canonical name of its repository. -/
def bzlmodCellName (canonicalRepoName : String) : String := canonicalRepoName

def bzlmodLabelPackageTargetToPath (label : String) (packageAndTarget : List Char) :
    Except GenerateError String :=
  let (package, target) :=
    if ':' ∈ packageAndTarget then splitOnce ':' packageAndTarget
    else (packageAndTarget, (packageAndTarget.reverse.takeWhile (· ≠ '/')).reverse)
  if target = [] then .error (.emptyTarget label)
  else if package = [] then .ok (.ofList target)
  else .ok (.ofList (package ++ '/' :: target))

/-- `bzlmod_resolve_extension_bzl_label`: the cell and the path of a file. -/
def bzlmodResolveExtensionBzlLabel (currentCell label : String)
    (aliasesByCell : BzlmodCellAliasesByCell) : Except GenerateError (String × String) :=
  match label.toList with
  | '@' :: '@' :: rest => match splitOnceSlashes rest with
    | none => .error (.labelNotAbsolute label)
    | some (canonicalRepoName, packageAndTarget) => do
      let cell := if canonicalRepoName = "bazel_tools".toList then "bazel_tools"
        else bzlmodCellName (.ofList canonicalRepoName)
      .ok (cell, ← bzlmodLabelPackageTargetToPath label packageAndTarget)
  | '@' :: rest => match splitOnceSlashes rest with
    | none => .error (.labelNotAbsolute label)
    | some (aliasName, packageAndTarget) =>
      if aliasName = "bazel_tools".toList then do
        .ok ("bazel_tools", ← bzlmodLabelPackageTargetToPath label packageAndTarget)
      else match bzlmodCellAliasTarget aliasesByCell currentCell (.ofList aliasName) with
        | none => .error (.unknownRepo label currentCell (.ofList aliasName))
        | some cell => do .ok (cell, ← bzlmodLabelPackageTargetToPath label packageAndTarget)
  | '/' :: '/' :: packageAndTarget => do
    .ok (currentCell, ← bzlmodLabelPackageTargetToPath label packageAndTarget)
  | ':' :: target => do .ok (currentCell, ← bzlmodLabelPackageTargetToPath label (':' :: target))
  | _ => .error (.labelNotRootRelative label)

def bzlmodResolveExtensionId (currentCell : String) (usage : BzlmodExtensionUsage)
    (aliasesByCell : BzlmodCellAliasesByCell) : Except GenerateError BzlmodExtensionId := do
  let (cell, path) ← bzlmodResolveExtensionBzlLabel currentCell usage.extensionBzlFile aliasesByCell
  .ok ⟨cell, path, usage.extensionName⟩

/-! ## Unique names -/

def bzlmodSelectedCanonicalRepoName (canonicalRepoNamesByKey : TreeMap ModuleKey String)
    (name version : String) : Except GenerateError String :=
  match canonicalRepoNamesByKey[(name, version)]? with
  | some canonicalRepoName => .ok canonicalRepoName
  | none => .error (.noCanonicalRepoName name version)

/-- The extensions of the usages in a cell are added to a set. -/
def addExtensionIds (aliasesByCell : BzlmodCellAliasesByCell) (cell : String)
    (usages : List BzlmodExtensionUsage) (ids : TreeSet BzlmodExtensionId) :
    Except GenerateError (TreeSet BzlmodExtensionId) :=
  usages.foldlM (fun ids usage => do
    .ok (ids.insert (← bzlmodResolveExtensionId cell usage aliasesByCell))) ids

/-- The extensions that the root and the selected modules use. -/
def usedExtensionIds (graph : BzlmodDepGraph) : Except GenerateError (TreeSet BzlmodExtensionId) :=
  do
  let ids ← addExtensionIds graph.cellAliasesByCell "root" graph.rootModule.extensionUsages ∅
  graph.selectedKeys.toList.foldlM (fun ids key => match graph.discovered[key]? with
    | none => .ok ids
    | some module => do
      let canonicalRepoName ← bzlmodSelectedCanonicalRepoName graph.canonicalRepoNamesByKey
        module.dep.name module.dep.version
      addExtensionIds graph.cellAliasesByCell (bzlmodCellName canonicalRepoName)
        module.extensionUsages ids) ids

/-- The name that is tried at an attempt. -/
def uniqueNameCandidate (extensionRepoName extensionName : String) (attempt : Nat) : String :=
  let disambiguator := if attempt = 1 then "" else attempt.repr
  extensionRepoName ++ "+" ++ extensionName ++ disambiguator

/-- The names given so far. -/
structure UniqueNames where
  usedNames : List String
  uniqueNames : TreeMap BzlmodExtensionId String

/-- The body of the loop over the extensions. -/
def assignUniqueName (canonicalRepoNamesByCell : TreeMap String String) (names : UniqueNames)
    (id : BzlmodExtensionId) : Except GenerateError UniqueNames :=
  match canonicalRepoNamesByCell[id.bzlCellName]? with
  | none => .error (.unknownCell id)
  | some extensionRepoName =>
    match Search.firstUnused names.usedNames
      (uniqueNameCandidate extensionRepoName id.extensionName) (names.usedNames.length + 1) 1 with
    | none => .error .outOfAttempts
    | some candidate => .ok ⟨candidate :: names.usedNames, names.uniqueNames.insert id candidate⟩

/-- `bzlmod_extension_unique_names`. -/
def bzlmodExtensionUniqueNames (graph : BzlmodDepGraph) :
    Except GenerateError (TreeMap BzlmodExtensionId String) := do
  let ids ← usedExtensionIds graph
  let names ← ids.toList.foldlM (assignUniqueName graph.canonicalRepoNamesByCell) ⟨[], ∅⟩
  .ok names.uniqueNames

theorem repr_injective : Function.Injective Nat.repr := by
  intro m n h
  rw [Nat.repr_eq_ofList_toDigits, Nat.repr_eq_ofList_toDigits, String.ofList_inj] at h
  have hdigits := congrArg (Nat.ofDigitChars 10 · 0) h
  simpa using hdigits

theorem uniqueNameCandidate_injective (extensionRepoName extensionName : String) :
    Function.Injective (uniqueNameCandidate extensionRepoName extensionName) := by
  intro a b h
  have hsuffix : (if a = 1 then "" else a.repr) = if b = 1 then "" else b.repr :=
    (String.append_right_inj _).mp h
  split at hsuffix <;> split at hsuffix
  · omega
  · exact absurd hsuffix.symm Nat.repr_ne_empty
  · exact absurd hsuffix Nat.repr_ne_empty
  · exact repr_injective hsuffix

theorem assignUniqueName_ne_outOfAttempts (canonicalRepoNamesByCell : TreeMap String String)
    (names : UniqueNames) (id : BzlmodExtensionId) :
    assignUniqueName canonicalRepoNamesByCell names id ≠ .error .outOfAttempts := by
  unfold assignUniqueName
  split
  · exact nofun
  · next extensionRepoName _ =>
    split
    · next hnone =>
      obtain ⟨candidate, hcandidate⟩ := Search.firstUnused_exists
        (uniqueNameCandidate_injective extensionRepoName id.extensionName)
        (Nat.lt_succ_self names.usedNames.length)
      exact nomatch hnone.symm.trans hcandidate
    · exact nofun

/-- What holds of the names: they are all recorded as used, and no two are equal. -/
structure UniqueNames.Distinct (names : UniqueNames) : Prop where
  used : ∀ (id : BzlmodExtensionId) (name : String), names.uniqueNames[id]? = some name →
    name ∈ names.usedNames
  injective : ∀ (id id' : BzlmodExtensionId) (name : String), names.uniqueNames[id]? = some name →
    names.uniqueNames[id']? = some name → id = id'

theorem UniqueNames.Distinct.assign {canonicalRepoNamesByCell : TreeMap String String}
    {names names' : UniqueNames} {id : BzlmodExtensionId} (h : names.Distinct)
    (hassign : assignUniqueName canonicalRepoNamesByCell names id = .ok names') :
    names'.Distinct := by
  unfold assignUniqueName at hassign
  split at hassign
  · cases hassign
  · split at hassign
    · cases hassign
    · next candidate hcandidate =>
      cases hassign
      have hfree := Search.not_mem_of_firstUnused hcandidate
      have hget : ∀ other, (names.uniqueNames.insert id candidate)[other]? =
          if id = other then some candidate else names.uniqueNames[other]? := fun other => by
        simp only [TreeMap.getElem?_insert, LawfulEqCmp.compare_eq_iff_eq]
      refine ⟨fun other name hother => ?_, fun a b name ha hb => ?_⟩
      · rw [hget] at hother
        split at hother
        · cases hother
          exact List.mem_cons_self
        · exact List.mem_cons_of_mem _ (h.used other name hother)
      · rw [hget] at ha hb
        split at ha <;> split at hb
        · next hia hib => rw [← hia, ← hib]
        · cases ha
          exact absurd (h.used _ _ hb) hfree
        · cases hb
          exact absurd (h.used _ _ ha) hfree
        · exact h.injective a b name ha hb

/-- **Unique names.**  Two extensions never get the same name. -/
theorem bzlmodExtensionUniqueNames_injective {graph : BzlmodDepGraph}
    {uniqueNames : TreeMap BzlmodExtensionId String}
    (h : bzlmodExtensionUniqueNames graph = .ok uniqueNames) {id id' : BzlmodExtensionId}
    {name : String} (hid : uniqueNames[id]? = some name) (hid' : uniqueNames[id']? = some name) :
    id = id' := by
  obtain ⟨ids, -, h⟩ := Fallible.bind_eq_ok.mp h
  obtain ⟨names, hnames, h⟩ := Fallible.bind_eq_ok.mp h
  cases h
  have hempty : UniqueNames.Distinct ⟨[], ∅⟩ := ⟨by simp, by simp⟩
  have hdistinct : names.Distinct := Fallible.foldlM_invariant
    (fun id _ names names' hn hassign => hn.assign hassign) hempty hnames
  exact hdistinct.injective id id' name hid hid'

end Bz.Bzlmod.Extensions
