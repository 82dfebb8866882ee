import Bz.Bzlmod.Extensions
import Bz.Encoding

/-!
# The repositories that modules generate

`resolve_generated_bzlmod_repos` of `bz_common/src/bazel/bzlmod.rs` lists the repositories that come
from module extensions, from invocations of repository rules and from a few built-in extensions,
each under a canonical name.  A cell is named after the canonical name, and
`BazelModuleCellAliases::normalize` keeps one repository per cell.

Principal results: `generated_repos_distinct`, when the repositories of extensions keep cells of
their own; `rule_named_like_extension`, when they do not.
-/

namespace Bz.Bzlmod.Extensions

open Fallible List
open Std (TreeMap TreeSet)

/-! ## Generated modules -/

/-- The constraints of the host. -/
structure BzlmodHostPlatformSetup where
  cpuConstraint : Option String
  osConstraint : Option String
  deriving DecidableEq

/-- How an extension generates a repository. -/
structure BzlmodModuleExtensionRepoSetup where
  parentCanonicalRepoName : String
  parentIsRoot : Bool
  extensionBzlFile : String
  extensionBzlCell : String
  extensionBzlPath : String
  extensionUniqueName : String
  extensionName : String
  repoName : String
  extensionUsagesJson : String
  deriving DecidableEq

/-- How a rule generates a repository. -/
structure BzlmodRepositoryRuleInvocationSetup where
  repoName : String
  ruleBzlCell : String
  ruleBzlPath : String
  ruleBzlBuildFileCell : String
  ruleBzlBuildFilePackage : Option String
  ruleName : String
  attrs : List (String × String)
  deriving DecidableEq

/-- What is serialised as the generator of a repository. -/
inductive BzlmodGeneratedCellGenerator where
  | xcodeConfig
  | shellConfig
  | hostPlatform (setup : BzlmodHostPlatformSetup)
  | bazelFeaturesGlobals (parentCanonicalRepoName bazelVersion : String)
  | bazelFeaturesVersion (bazelVersion : String)
  | moduleExtensionRepo (setup : BzlmodModuleExtensionRepoSetup)
  | repositoryRuleInvocation (setup : BzlmodRepositoryRuleInvocationSetup)
  deriving DecidableEq

/-- `BazelCompatGeneratedModule`; its list of aliases is always empty. -/
structure BazelCompatGeneratedModule where
  cellName : String
  canonicalRepoName : String
  generator : BzlmodGeneratedCellGenerator
  deriving DecidableEq

/-- What the resolution changes as it goes. -/
structure Resolution where
  cellAliasesByCell : BzlmodCellAliasesByCell
  generated : List BazelCompatGeneratedModule
  declaringCells : List (String × String)
  generatedRepoGroups : TreeMap String (List (String × String))
  repoOverrideGroups : TreeMap String (List (String × String))

def addBzlmodCellAlias (aliasesByCell : BzlmodCellAliasesByCell) (cell aliasName target : String) :
    BzlmodCellAliasesByCell :=
  aliasesByCell.insert cell ((aliasesByCell.getD cell ∅).insert aliasName target)

def addBzlmodRootGeneratedRepoAlias (aliasesByCell : BzlmodCellAliasesByCell)
    (aliasName target : String) : BzlmodCellAliasesByCell :=
  aliasesByCell.insert "root" ((aliasesByCell.getD "root" ∅).insertIfNew aliasName target)

def pushGroup (groups : TreeMap String (List (String × String))) (key : String)
    (entries : List (String × String)) : TreeMap String (List (String × String)) :=
  groups.insert key (groups.getD key [] ++ entries)

variable (st : Resolution)

def Resolution.addAlias (cell aliasName target : String) : Resolution :=
  { st with cellAliasesByCell := addBzlmodCellAlias st.cellAliasesByCell cell aliasName target }

/-- An import of a direct dependency of the root is visible in the root too. -/
def Resolution.mirrorToRoot (mirror : Bool) (aliasName target : String) : Resolution :=
  if mirror then
    { st with
      cellAliasesByCell := addBzlmodRootGeneratedRepoAlias st.cellAliasesByCell aliasName target }
  else st

def Resolution.addUnimportedGeneratedBzlmodRepo
    (declaringCell canonicalRepoName : String) (generator : BzlmodGeneratedCellGenerator) :
    Resolution :=
  let cell := bzlmodCellName canonicalRepoName
  { st with
    declaringCells := st.declaringCells ++ [(cell, declaringCell)]
    generated := st.generated ++ [⟨cell, canonicalRepoName, generator⟩] }

def Resolution.addGeneratedBzlmodRepoWithMappingCell
    (importingCell aliasName mappingCell canonicalRepoName : String)
    (generator : BzlmodGeneratedCellGenerator) : Resolution :=
  (st.addAlias importingCell aliasName (bzlmodCellName canonicalRepoName))
    |>.addUnimportedGeneratedBzlmodRepo mappingCell canonicalRepoName generator

def Resolution.addGeneratedBzlmodRepo (declaringCell aliasName canonicalRepoName : String)
    (generator : BzlmodGeneratedCellGenerator) : Resolution :=
  st.addGeneratedBzlmodRepoWithMappingCell declaringCell aliasName declaringCell canonicalRepoName
    generator

/-! ## Repository rules -/

def bzlmodExtensionUniqueRepoCanonicalRepoName (extensionUniqueName repoName : String) : String :=
  extensionUniqueName ++ "+" ++ repoName

/-- What the invocations of a rule have in place of an extension's name. -/
def useRepoRuleUniqueName (parentCanonicalRepoName : String) (parentIsRoot : Bool)
    (ruleName : String) : String :=
  if parentIsRoot then "+" ++ ruleName else parentCanonicalRepoName ++ "+" ++ ruleName

def bzlmodUseRepoRuleCanonicalRepoName (parentCanonicalRepoName : String) (parentIsRoot : Bool)
    (ruleName repoName : String) : String :=
  bzlmodExtensionUniqueRepoCanonicalRepoName
    (useRepoRuleUniqueName parentCanonicalRepoName parentIsRoot ruleName) repoName

variable (parentCanonicalRepoName parentCell : String)

/-- The body of the loop over the invocations. -/
def resolveUseRepoRuleInvocation (parentIsRoot : Bool)
    (st : Resolution) (invocation : BzlmodUseRepoRuleInvocation) :
    Except GenerateError Resolution := do
  let (ruleBzlCell, ruleBzlPath) ←
    bzlmodResolveExtensionBzlLabel parentCell invocation.ruleBzlFile st.cellAliasesByCell
  .ok (st.addGeneratedBzlmodRepo parentCell invocation.repoName
    (bzlmodUseRepoRuleCanonicalRepoName parentCanonicalRepoName parentIsRoot invocation.ruleName
      invocation.repoName)
    (.repositoryRuleInvocation ⟨invocation.repoName, ruleBzlCell, ruleBzlPath, parentCell, some "",
      invocation.ruleName, invocation.attrs⟩))

def resolveBzlmodUseRepoRuleGeneratedRepos (invocations : List BzlmodUseRepoRuleInvocation)
    (parentCanonicalRepoName parentCell : String) (parentIsRoot : Bool) (st : Resolution) :
    Except GenerateError Resolution :=
  invocations.foldlM
    (resolveUseRepoRuleInvocation parentCanonicalRepoName parentCell parentIsRoot) st

/-! ## Extensions -/

/-- An extension and its unique name. -/
structure BzlmodResolvedExtension where
  id : BzlmodExtensionId
  uniqueName : String

def bzlmodResolveExtension (currentCell : String) (usage : BzlmodExtensionUsage)
    (aliasesByCell : BzlmodCellAliasesByCell) (uniqueNames : TreeMap BzlmodExtensionId String) :
    Except GenerateError BzlmodResolvedExtension := do
  let id ← bzlmodResolveExtensionId currentCell usage aliasesByCell
  match uniqueNames[id]? with
  | none => .error (.noUniqueName usage.extensionBzlFile usage.extensionName currentCell)
  | some uniqueName => .ok ⟨id, uniqueName⟩

def isWhitespace (c : Char) : Bool :=
  let n := c.toNat
  (0x9 ≤ n && n ≤ 0xd) || n == 0x20 || n == 0x85 || n == 0xa0 || n == 0x1680 ||
    (0x2000 ≤ n && n ≤ 0x200a) || n == 0x2028 || n == 0x2029 || n == 0x202f || n == 0x205f ||
    n == 0x3000

def trim (value : List Char) : List Char :=
  (((value.dropWhile isWhitespace).reverse).dropWhile isWhitespace).reverse

/-- The rest of a string literal; a backslash takes the next character as it is. -/
def literalUntil (quote : Char) : Bool → List Char → Option (List Char)
  | _, [] => none
  | true, c :: rest => (literalUntil quote false rest).map (c :: ·)
  | false, c :: rest =>
    if c = '\\' then literalUntil quote true rest
    else if c = quote then some []
    else (literalUntil quote false rest).map (c :: ·)

def bzlmodStringLiteralPrefix : List Char → Option String
  | [] => none
  | quote :: rest =>
    if quote ≠ '"' ∧ quote ≠ '\'' then none else (literalUntil quote false rest).map .ofList

/-- `bzlmod_extension_tag_repo_names`, in the order of the tags. -/
def bzlmodExtensionTagRepoNames (usage : BzlmodExtensionUsage) : List String :=
  (usage.tags.flatMap (·.kwargs)).filterMap fun (name, value) =>
    if name = "name" ∨ name = "repo_name" then bzlmodStringLiteralPrefix (trim value.toList)
    else none

/-- `bzlmod_bzl_path_to_label_path`: the last slash becomes a colon. -/
def bzlmodBzlPathToLabelPath (path : String) : String :=
  let target := (path.toList.reverse.takeWhile (· ≠ '/')).reverse
  let package := ((path.toList.reverse.dropWhile (· ≠ '/')).drop 1).reverse
  if '/' ∈ path.toList then .ofList (package ++ ':' :: target) else ":" ++ path

def bzlmodLockfileExtensionKey (id : BzlmodExtensionId)
    (canonicalRepoNamesByCell : TreeMap String String) : Except GenerateError String := do
  let canonicalRepoName ← if id.bzlCellName = "root" then .ok "" else
    match canonicalRepoNamesByCell[id.bzlCellName]? with
    | none => .error (.unknownCell id)
    | some canonicalRepoName => .ok canonicalRepoName
  let file := "//" ++ bzlmodBzlPathToLabelPath id.bzlPath ++ "%" ++ id.extensionName
  if canonicalRepoName = "" then .ok file else .ok ("@@" ++ canonicalRepoName ++ file)

def bzlmodExtensionRepoOverrideTargets (usage : BzlmodExtensionUsage) (parentCell : String)
    (aliasesByCell : BzlmodCellAliasesByCell) (extension : BzlmodResolvedExtension) :
    Except GenerateError (TreeMap String String) :=
  usage.repoOverrides.foldlM (fun targets repoOverride =>
    match bzlmodCellAliasTarget aliasesByCell parentCell repoOverride.overridingRepoName with
    | none => .error (.overrideNotVisible extension.id repoOverride.repoName
        repoOverride.overridingRepoName parentCell)
    | some target => .ok (targets.insert repoOverride.repoName target)) ∅

/-- What is the same for all repositories of a usage. -/
structure UsageContext where
  usage : BzlmodExtensionUsage
  parentCanonicalRepoName : String
  parentCell : String
  parentIsRoot : Bool
  mirrorImportsToRoot : Bool
  extension : BzlmodResolvedExtension
  repoOverrideTargets : TreeMap String String
  extensionUsagesJson : String

variable (ctx : UsageContext)

/-- `bzlmod_module_extension_repo_config`. -/
def UsageContext.repoConfig (repoName : String) : BzlmodGeneratedCellGenerator :=
  .moduleExtensionRepo ⟨ctx.parentCanonicalRepoName, ctx.parentIsRoot, ctx.usage.extensionBzlFile,
    ctx.extension.id.bzlCellName, ctx.extension.id.bzlPath, ctx.extension.uniqueName,
    ctx.usage.extensionName, repoName, ctx.extensionUsagesJson⟩

/-- `bzlmod_extension_repo_canonical_repo_name`. -/
def UsageContext.canonicalRepoName (repoName : String) : String :=
  bzlmodExtensionUniqueRepoCanonicalRepoName ctx.extension.uniqueName repoName

/-- The repositories of a usage that are there, and those to be generated. -/
structure UsageState where
  resolution : Resolution
  existing : TreeMap String String
  names : TreeSet String

/-- A repository of the usage has been generated. -/
def UsageState.recordGenerated (st : UsageState) (resolution : Resolution)
    (repoName : String) : UsageState :=
  let cell := bzlmodCellName (ctx.canonicalRepoName repoName)
  { st with
    resolution := { resolution with
      generatedRepoGroups := pushGroup resolution.generatedRepoGroups ctx.extension.uniqueName
        [(repoName, cell)] }
    existing := st.existing.insert repoName cell }

/-- The body of the loop over the imports. -/
def resolveImport (st : UsageState) (imported : BzlmodUseRepoImport) :
    Except GenerateError UsageState :=
  match ctx.repoOverrideTargets[imported.repoName]? with
  | some target =>
    if ctx.usage.repoOverrides.any fun o => o.repoName == imported.repoName && !o.mustExist then
      .error (.importsInjected ctx.usage.extensionBzlFile ctx.usage.extensionName
        ctx.parentCanonicalRepoName imported.repoName target)
    else .ok { st with
      resolution := (st.resolution.addAlias ctx.parentCell imported.aliasName target).mirrorToRoot
        ctx.mirrorImportsToRoot imported.aliasName target }
  | none => match st.existing[imported.repoName]? with
    | some cell => .ok { st with
        resolution := (st.resolution.addAlias ctx.parentCell imported.aliasName cell).mirrorToRoot
          ctx.mirrorImportsToRoot imported.aliasName cell
        names := st.names.erase imported.repoName }
    | none =>
      let canonicalRepoName := ctx.canonicalRepoName imported.repoName
      let resolution := (st.resolution.addGeneratedBzlmodRepoWithMappingCell ctx.parentCell
        imported.aliasName ctx.extension.id.bzlCellName canonicalRepoName
        (ctx.repoConfig imported.repoName)).mirrorToRoot ctx.mirrorImportsToRoot imported.aliasName
        (bzlmodCellName canonicalRepoName)
      .ok { UsageState.recordGenerated ctx st resolution imported.repoName with
        names := st.names.erase imported.repoName }

/-- The body of the loop over the names that are not imported. -/
def resolveUnimported (st : UsageState) (repoName : String) : UsageState :=
  if repoName ∈ st.existing then st
  else UsageState.recordGenerated ctx st
    (st.resolution.addUnimportedGeneratedBzlmodRepo ctx.extension.id.bzlCellName
      (ctx.canonicalRepoName repoName) (ctx.repoConfig repoName)) repoName

/-- What all usages share. -/
structure ResolveContext where
  rootModule : RootBzlmodModule
  canonicalRepoNamesByCell : TreeMap String String
  extensionUniqueNames : TreeMap BzlmodExtensionId String
  extensionUsagesJsonById : TreeMap BzlmodExtensionId String

def resolveBzlmodExtensionUsageGeneratedRepos (shared : ResolveContext)
    (parentCanonicalRepoName parentCell : String) (parentIsRoot mirrorImportsToRoot : Bool)
    (st : Resolution) (usage : BzlmodExtensionUsage) : Except GenerateError Resolution := do
  let extension ←
    bzlmodResolveExtension parentCell usage st.cellAliasesByCell shared.extensionUniqueNames
  let existing : TreeMap String String :=
    (st.generatedRepoGroups.getD extension.uniqueName []).foldl (fun m e => m.insert e.1 e.2) ∅
  let importsNeedingGenericRepos := usage.imports.filter fun imported =>
    (bzlmodCellAliasTarget st.cellAliasesByCell parentCell imported.aliasName).isNone
  let lockfileExtensionKey ←
    bzlmodLockfileExtensionKey extension.id shared.canonicalRepoNamesByCell
  let staticRepoNames : TreeSet String := TreeSet.ofList
    (importsNeedingGenericRepos.map (·.repoName) ++ bzlmodExtensionTagRepoNames usage ++
      (usage.repoOverrides.filter (·.mustExist)).map (·.repoName) ++
      (shared.rootModule.lockfileExtensionGeneratedRepos.getD lockfileExtensionKey ∅).toList)
  let repoOverrideTargets ←
    bzlmodExtensionRepoOverrideTargets usage parentCell st.cellAliasesByCell extension
  let st := if repoOverrideTargets.isEmpty then st else
    { st with
      repoOverrideGroups := pushGroup st.repoOverrideGroups extension.uniqueName
        repoOverrideTargets.toList }
  match shared.extensionUsagesJsonById[extension.id]? with
  | none => .error (.noUsages extension.id)
  | some extensionUsagesJson =>
    if staticRepoNames.isEmpty then .ok st else do
      let ctx : UsageContext := ⟨usage, parentCanonicalRepoName, parentCell, parentIsRoot,
        mirrorImportsToRoot, extension, repoOverrideTargets, extensionUsagesJson⟩
      let st ← importsNeedingGenericRepos.foldlM (resolveImport ctx) ⟨st, existing, staticRepoNames⟩
      .ok (st.names.toList.foldl (resolveUnimported ctx) st).resolution

/-! ## Built-in extensions -/

def bzlmodBazelCompatVersion : String := "9.1.0"

def resolveRulesShell (module : DiscoveredBcrModule) (st : Resolution) : Resolution :=
  if module.dep.name = "rules_shell" then
    (module.useRepoAliases.filter (· = "local_config_shell")).foldl (fun st aliasName =>
      st.addGeneratedBzlmodRepo parentCell aliasName
        (parentCanonicalRepoName ++ "+sh_configure+" ++ aliasName) .shellConfig) st
  else st

/-- The body of the loop over the imports of a usage of `host_platform`. -/
def importHostPlatform (hostPlatformSetup : BzlmodHostPlatformSetup)
    (parentCanonicalRepoName parentCell uniqueName : String) (st : Resolution)
    (imported : BzlmodUseRepoImport) : Resolution :=
  let canonicalRepoName := parentCanonicalRepoName ++ "+host_platform+" ++ imported.repoName
  let st := st.addGeneratedBzlmodRepo parentCell imported.aliasName canonicalRepoName
    (.hostPlatform hostPlatformSetup)
  { st with
    generatedRepoGroups := pushGroup st.generatedRepoGroups uniqueName
      [(imported.repoName, bzlmodCellName canonicalRepoName)] }

/-- The body of the loop over the usages of `host_platform`. -/
def resolveHostPlatform (uniqueNames : TreeMap BzlmodExtensionId String)
    (hostPlatformSetup : BzlmodHostPlatformSetup) (parentCanonicalRepoName parentCell : String)
    (st : Resolution) (usage : BzlmodExtensionUsage) : Except GenerateError Resolution := do
  let extension ← bzlmodResolveExtension parentCell usage st.cellAliasesByCell uniqueNames
  .ok ((usage.imports.filter (·.repoName = "host_platform")).foldl (importHostPlatform
    hostPlatformSetup parentCanonicalRepoName parentCell extension.uniqueName) st)

def resolvePlatforms (uniqueNames : TreeMap BzlmodExtensionId String)
    (hostPlatformSetup : BzlmodHostPlatformSetup) (parentCanonicalRepoName parentCell : String)
    (module : DiscoveredBcrModule) (st : Resolution) : Except GenerateError Resolution :=
  if module.dep.name = "platforms" then
    (module.extensionUsages.filter (·.extensionName = "host_platform")).foldlM
      (resolveHostPlatform uniqueNames hostPlatformSetup parentCanonicalRepoName parentCell) st
  else .ok st

/-- The generator of a repository of `bazel_features`. -/
def bazelFeaturesGenerator (parentCanonicalRepoName repoName : String) :
    Option BzlmodGeneratedCellGenerator :=
  if repoName = "bazel_features_globals" then
    some (.bazelFeaturesGlobals parentCanonicalRepoName bzlmodBazelCompatVersion)
  else if repoName = "bazel_features_version" then
    some (.bazelFeaturesVersion bzlmodBazelCompatVersion)
  else none

def bzlmodExtensionImportsFromUsages (usages : List BzlmodExtensionUsage) (extension : String) :
    List BzlmodUseRepoImport :=
  (usages.filter (·.extensionName = extension)).flatMap (·.imports)

/-- The body of the loop over the imports of `bazel_features`. -/
def importBazelFeature (st : Resolution) (imported : BzlmodUseRepoImport) : Resolution :=
  match bazelFeaturesGenerator parentCanonicalRepoName imported.repoName with
  | none => st
  | some generator => st.addGeneratedBzlmodRepo parentCell imported.aliasName
      (parentCanonicalRepoName ++ "+version_extension+" ++ imported.repoName) generator

def resolveBazelFeatures (module : DiscoveredBcrModule) (st : Resolution) : Resolution :=
  if module.dep.name = "bazel_features" then
    (bzlmodExtensionImportsFromUsages module.extensionUsages "version_extension").foldl
      (importBazelFeature parentCanonicalRepoName parentCell) st
  else st

/-! ## The resolution -/

variable (graph : BzlmodDepGraph)

/-- The body of the loop over the selected modules. -/
def resolveModule (shared : ResolveContext)
    (directRootDepCells : TreeSet String) (hostPlatformSetup : BzlmodHostPlatformSetup)
    (st : Resolution) (key : ModuleKey) : Except GenerateError Resolution :=
  match graph.discovered[key]? with
  | none => .ok st
  | some module => do
    let parent ← bzlmodSelectedCanonicalRepoName graph.canonicalRepoNamesByKey module.dep.name
      module.dep.version
    let parentCell := bzlmodCellName parent
    let st ← resolveBzlmodUseRepoRuleGeneratedRepos module.useRepoRuleInvocations parent parentCell
      false st
    let st ← resolvePlatforms shared.extensionUniqueNames hostPlatformSetup parent parentCell module
      (resolveRulesShell parent parentCell module st)
    let st := resolveBazelFeatures parent parentCell module st
    module.extensionUsages.foldlM (resolveBzlmodExtensionUsageGeneratedRepos shared parent
      parentCell false (directRootDepCells.contains parentCell)) st

/-- `add_generated_bzlmod_repo_mappings`: repositories see what their cell sees, and those of an
extension each other. -/
def Resolution.addGeneratedBzlmodRepoMappings : Resolution :=
  let declared := st.declaringCells.eraseDups.foldl (fun aliases (cell, declaringCell) =>
    match aliases[declaringCell]? with
    | none => aliases
    | some declaringAliases => declaringAliases.toList.foldl
        (fun aliases e => addBzlmodCellAlias aliases cell e.1 e.2) aliases) st.cellAliasesByCell
  let cellAliasesByCell := st.generatedRepoGroups.toList.foldl (fun aliases (key, entries) =>
    let generatedRepos : TreeMap String String := entries.foldl (fun m e => m.insert e.1 e.2) ∅
    let visibleRepos := (st.repoOverrideGroups.getD key []).foldl (fun m e => m.insert e.1 e.2)
      generatedRepos
    generatedRepos.toList.foldl (fun aliases (_, cell) => visibleRepos.toList.foldl
      (fun aliases e => addBzlmodCellAlias aliases cell e.1 e.2) aliases) aliases) declared
  { st with cellAliasesByCell }

/-- `resolve_generated_bzlmod_repos`. -/
def resolveGeneratedBzlmodRepos (directRootDepCells : TreeSet String)
    (cellAliasesByCell : BzlmodCellAliasesByCell)
    (extensionUniqueNames extensionUsagesJsonById : TreeMap BzlmodExtensionId String)
    (hostPlatformSetup : BzlmodHostPlatformSetup) : Except GenerateError Resolution := do
  let root := graph.rootModule
  let shared : ResolveContext :=
    ⟨root, graph.canonicalRepoNamesByCell, extensionUniqueNames, extensionUsagesJsonById⟩
  let st ← resolveBzlmodUseRepoRuleGeneratedRepos root.useRepoRuleInvocations
    root.canonicalRepoName "root" true ⟨cellAliasesByCell, [], [], ∅, ∅⟩
  let xcode := "bazel_tools+xcode_configure_extension+local_config_xcode"
  let st := (st.addUnimportedGeneratedBzlmodRepo "bazel_tools" xcode .xcodeConfig)
    |>.addAlias "root" "local_config_xcode" (bzlmodCellName xcode)
    |>.addAlias "bazel_tools" "local_config_xcode" (bzlmodCellName xcode)
  let st ← graph.selectedKeysInDependencyOrder.foldlM
    (resolveModule graph shared directRootDepCells hostPlatformSetup) st
  let st ← root.extensionUsages.foldlM (resolveBzlmodExtensionUsageGeneratedRepos shared
    root.canonicalRepoName "root" true false) st
  .ok st.addGeneratedBzlmodRepoMappings

/-! ## Where repositories come from -/

/-- A selected module and its canonical name. -/
def IsModule (module : DiscoveredBcrModule) (parent : String) : Prop :=
  ∃ key ∈ graph.selectedKeysInDependencyOrder, graph.discovered[key]? = some module ∧
    graph.canonicalRepoNamesByKey[(module.dep.name, module.dep.version)]? = some parent

/-- Repositories of repository rules, and the static placeholders for built-in extensions. -/
inductive PlaceKind where
  | rule
  | builtin

/-- What a module declares itself: what stands before the last `+` of the canonical name, and the
name of the repository. -/
inductive IsModulePlace (module : DiscoveredBcrModule) (parent : String) :
    PlaceKind → String → String → Prop where
  | rule {invocation : BzlmodUseRepoRuleInvocation}
      (h : invocation ∈ module.useRepoRuleInvocations) :
      IsModulePlace module parent .rule (useRepoRuleUniqueName parent false invocation.ruleName)
        invocation.repoName
  | shell (hname : module.dep.name = "rules_shell")
      (h : "local_config_shell" ∈ module.useRepoAliases) :
      IsModulePlace module parent .builtin (parent ++ "+sh_configure") "local_config_shell"
  | hostPlatform {usage : BzlmodExtensionUsage} {imported : BzlmodUseRepoImport}
      (hname : module.dep.name = "platforms") (husage : usage ∈ module.extensionUsages)
      (hextension : usage.extensionName = "host_platform") (himported : imported ∈ usage.imports)
      (hrepo : imported.repoName = "host_platform") :
      IsModulePlace module parent .builtin (parent ++ "+host_platform") "host_platform"
  | bazelFeatures {usage : BzlmodExtensionUsage} {imported : BzlmodUseRepoImport}
      {generator : BzlmodGeneratedCellGenerator} (hname : module.dep.name = "bazel_features")
      (husage : usage ∈ module.extensionUsages)
      (hextension : usage.extensionName = "version_extension")
      (himported : imported ∈ usage.imports)
      (hgenerator : bazelFeaturesGenerator parent imported.repoName = some generator) :
      IsModulePlace module parent .builtin (parent ++ "+version_extension") imported.repoName

/-- What the root, the resolution itself and the selected modules declare. -/
inductive IsPlace : PlaceKind → String → String → Prop where
  | root {invocation : BzlmodUseRepoRuleInvocation}
      (h : invocation ∈ graph.rootModule.useRepoRuleInvocations) :
      IsPlace .rule (useRepoRuleUniqueName graph.rootModule.canonicalRepoName true
        invocation.ruleName) invocation.repoName
  | xcode : IsPlace .builtin "bazel_tools+xcode_configure_extension" "local_config_xcode"
  | module {module : DiscoveredBcrModule} {parent : String} {kind : PlaceKind}
      {base repoName : String} (hmodule : IsModule graph module parent)
      (h : IsModulePlace module parent kind base repoName) : IsPlace kind base repoName

/-- The kind of place that has this generator, if it is not an extension. -/
def BzlmodGeneratedCellGenerator.placeKind : BzlmodGeneratedCellGenerator → Option PlaceKind
  | .moduleExtensionRepo _ => none
  | .repositoryRuleInvocation _ => some .rule
  | .xcodeConfig | .shellConfig | .hostPlatform _ | .bazelFeaturesGlobals _ _
  | .bazelFeaturesVersion _ => some .builtin

/-- The repository of this name, with the cell that it gets. -/
def generatedAt (base repoName : String) (generator : BzlmodGeneratedCellGenerator) :
    BazelCompatGeneratedModule :=
  ⟨bzlmodCellName (bzlmodExtensionUniqueRepoCanonicalRepoName base repoName),
    bzlmodExtensionUniqueRepoCanonicalRepoName base repoName, generator⟩

/-- A repository is named after where it comes from. -/
inductive Named (uniqueNames : TreeMap BzlmodExtensionId String) :
    BazelCompatGeneratedModule → Prop where
  | extension {setup : BzlmodModuleExtensionRepoSetup}
      (h : uniqueNames[(⟨setup.extensionBzlCell, setup.extensionBzlPath, setup.extensionName⟩ :
        BzlmodExtensionId)]? = some setup.extensionUniqueName) :
      Named uniqueNames
        (generatedAt setup.extensionUniqueName setup.repoName (.moduleExtensionRepo setup))
  | place {kind : PlaceKind} {base repoName : String} {generator : BzlmodGeneratedCellGenerator}
      (hkind : generator.placeKind = some kind) (h : IsPlace graph kind base repoName) :
      Named uniqueNames (generatedAt base repoName generator)

section Adds

variable {graph : BzlmodDepGraph} {uniqueNames : TreeMap BzlmodExtensionId String}
  {st st' st'' : Resolution} {parent parentCell base repoName : String} {ctx : UsageContext}
  {generator : BzlmodGeneratedCellGenerator} {mirror parentIsRoot : Bool} {kind : PlaceKind}
  {shared : ResolveContext} {hostPlatformSetup : BzlmodHostPlatformSetup}
  {module : DiscoveredBcrModule}

/-- Repositories are added only, under their names. -/
def Adds (graph : BzlmodDepGraph) (uniqueNames : TreeMap BzlmodExtensionId String)
    (st st' : Resolution) : Prop :=
  ∃ new, st'.generated = st.generated ++ new ∧ ∀ m ∈ new, Named graph uniqueNames m

theorem Adds.of_eq (h : st'.generated = st.generated) : Adds graph uniqueNames st st' :=
  ⟨[], by rw [h, append_nil], nofun⟩

theorem Adds.refl (st : Resolution) : Adds graph uniqueNames st st := .of_eq rfl

theorem Adds.trans (h : Adds graph uniqueNames st st') (h' : Adds graph uniqueNames st' st'') :
    Adds graph uniqueNames st st'' := by
  obtain ⟨new, hnew, hnamed⟩ := h
  obtain ⟨new', hnew', hnamed'⟩ := h'
  exact ⟨new ++ new', by rw [hnew', hnew, append_assoc], forall_mem_append.mpr ⟨hnamed, hnamed'⟩⟩

theorem Adds.of_append (h : st'.generated = st.generated ++ [generatedAt base repoName generator])
    (hnamed : Named graph uniqueNames (generatedAt base repoName generator)) :
    Adds graph uniqueNames st st' :=
  ⟨_, h, forall_mem_singleton.mpr hnamed⟩

theorem adds_mirrorToRoot {aliasName target : String} :
    Adds graph uniqueNames st (st.mirrorToRoot mirror aliasName target) := by
  unfold Resolution.mirrorToRoot
  split
  · exact .of_eq rfl
  · exact .refl _

/-- The place has got its repository. -/
def Filled (kind : PlaceKind) (base repoName : String) (st : Resolution) : Prop :=
  ∃ generator : BzlmodGeneratedCellGenerator, generator.placeKind = some kind ∧
    generatedAt base repoName generator ∈ st.generated

theorem Filled.adds (h : Filled kind base repoName st) (hadds : Adds graph uniqueNames st st') :
    Filled kind base repoName st' := by
  obtain ⟨generator, hkind, hmem⟩ := h
  obtain ⟨new, hnew, -⟩ := hadds
  exact ⟨generator, hkind, hnew ▸ mem_append_left _ hmem⟩

theorem Filled.of_append
    (h : st'.generated = st.generated ++ [generatedAt base repoName generator])
    (hkind : generator.placeKind = some kind) : Filled kind base repoName st' :=
  ⟨generator, hkind, h ▸ mem_append_right _ mem_cons_self⟩

theorem useRepoRules_adds {invocations : List BzlmodUseRepoRuleInvocation}
    (hrules : ∀ invocation ∈ invocations, IsPlace graph .rule
      (useRepoRuleUniqueName parent parentIsRoot invocation.ruleName) invocation.repoName)
    (h : resolveBzlmodUseRepoRuleGeneratedRepos invocations parent parentCell parentIsRoot st =
      .ok st') : Adds graph uniqueNames st st' ∧ ∀ invocation ∈ invocations,
        Filled .rule (useRepoRuleUniqueName parent parentIsRoot invocation.ruleName)
          invocation.repoName st' := by
  obtain ⟨hadds, hthrough⟩ := foldlM_through (R := Adds graph uniqueNames) .refl .trans
    (fun invocation hmem st st' hstep => by
      obtain ⟨⟨ruleBzlCell, ruleBzlPath⟩, -, hstep⟩ := bind_eq_ok.mp hstep
      cases hstep
      exact .of_append rfl (.place rfl (hrules invocation hmem))) h
  refine ⟨hadds, fun invocation hmem => ?_⟩
  obtain ⟨st1, st2, hstep, hrest⟩ := hthrough invocation hmem
  obtain ⟨⟨ruleBzlCell, ruleBzlPath⟩, -, hstep⟩ := bind_eq_ok.mp hstep
  cases hstep
  exact (Filled.of_append rfl rfl).adds hrest

/-- The extension of a context has its unique name. -/
def UsageContext.Resolved (uniqueNames : TreeMap BzlmodExtensionId String) (ctx : UsageContext) :
    Prop :=
  uniqueNames[ctx.extension.id]? = some ctx.extension.uniqueName ∧
    ctx.extension.id.extensionName = ctx.usage.extensionName

theorem UsageContext.Resolved.named (h : ctx.Resolved uniqueNames) (repoName : String) :
    Named graph uniqueNames
      (generatedAt ctx.extension.uniqueName repoName (ctx.repoConfig repoName)) := by
  have hname : uniqueNames[(⟨ctx.extension.id.bzlCellName, ctx.extension.id.bzlPath,
      ctx.usage.extensionName⟩ : BzlmodExtensionId)]? = some ctx.extension.uniqueName := by
    rw [← h.2]
    exact h.1
  exact @Named.extension graph uniqueNames ⟨ctx.parentCanonicalRepoName, ctx.parentIsRoot,
    ctx.usage.extensionBzlFile, _, _, _, _, repoName, ctx.extensionUsagesJson⟩ hname

theorem resolveImport_adds (hctx : ctx.Resolved uniqueNames) {st st' : UsageState}
    {imported : BzlmodUseRepoImport} (h : resolveImport ctx st imported = .ok st') :
    Adds graph uniqueNames st.resolution st'.resolution := by
  unfold resolveImport at h
  split at h
  · split at h
    · cases h
    · cases h
      exact adds_mirrorToRoot
  · split at h
    · cases h
      exact adds_mirrorToRoot
    · cases h
      exact .trans (.of_append rfl (hctx.named imported.repoName)) adds_mirrorToRoot

theorem resolved_of_bzlmodResolveExtension {cell : String} {usage : BzlmodExtensionUsage}
    {aliasesByCell : BzlmodCellAliasesByCell} {extension : BzlmodResolvedExtension}
    (h : bzlmodResolveExtension cell usage aliasesByCell uniqueNames = .ok extension) :
    uniqueNames[extension.id]? = some extension.uniqueName ∧
      extension.id.extensionName = usage.extensionName := by
  obtain ⟨id, hid, h⟩ := bind_eq_ok.mp h
  obtain ⟨⟨cell, path⟩, -, hid⟩ := bind_eq_ok.mp hid
  cases hid
  cases hname : uniqueNames[(⟨cell, path, usage.extensionName⟩ : BzlmodExtensionId)]? with
  | none =>
    rw [hname] at h
    cases h
  | some name =>
    rw [hname] at h
    cases h
    exact ⟨hname, rfl⟩

theorem usage_adds {usage : BzlmodExtensionUsage}
    (h : resolveBzlmodExtensionUsageGeneratedRepos shared parent parentCell parentIsRoot mirror st
      usage = .ok st') : Adds graph shared.extensionUniqueNames st st' := by
  obtain ⟨extension, hext, h⟩ := bind_eq_ok.mp h
  obtain ⟨key, -, h⟩ := bind_eq_ok.mp h
  obtain ⟨targets, -, h⟩ := bind_eq_ok.mp h
  have h0 : Adds graph shared.extensionUniqueNames st (if targets.isEmpty then st else
      { st with
        repoOverrideGroups := pushGroup st.repoOverrideGroups extension.uniqueName
          targets.toList }) := by
    split
    · exact .refl _
    · exact .of_eq rfl
  dsimp only at h
  split at h
  · cases h
  · split at h
    · cases h
      exact h0
    · next json _ _ =>
      obtain ⟨st1, hloop, h⟩ := bind_eq_ok.mp h
      cases h
      have hctx : UsageContext.Resolved shared.extensionUniqueNames ⟨usage, parent, parentCell,
          parentIsRoot, mirror, extension, targets, json⟩ := resolved_of_bzlmodResolveExtension hext
      obtain ⟨himports, -⟩ := foldlM_through
        (R := fun st st' : UsageState => Adds graph shared.extensionUniqueNames st.resolution
          st'.resolution) (fun _ => .refl _) .trans
        (fun imported _ st st' hstep => resolveImport_adds hctx hstep) hloop
      refine h0.trans (himports.trans (foldl_through
        (R := fun st st' : UsageState => Adds graph shared.extensionUniqueNames st.resolution
          st'.resolution) (fun _ => .refl _) .trans (fun repoName _ st => ?_) st1).1)
      unfold resolveUnimported
      split
      · exact .refl _
      · exact .of_append rfl (hctx.named repoName)

section Builtin

variable {extension full aliasName : String} (hfull : extension ++ "+" = full)
include hfull

theorem generated_builtin (parentCell parent repoName aliasName : String)
    (generator : BzlmodGeneratedCellGenerator) :
    (st.addGeneratedBzlmodRepo parentCell aliasName (parent ++ full ++ repoName)
      generator).generated =
      st.generated ++ [generatedAt (parent ++ extension) repoName generator] := by
  have hname : parent ++ full ++ repoName =
      bzlmodExtensionUniqueRepoCanonicalRepoName (parent ++ extension) repoName := by
    rw [← hfull, ← String.append_assoc, bzlmodExtensionUniqueRepoCanonicalRepoName]
  rw [hname]
  rfl

end Builtin

theorem rulesShell_adds (hmodule : IsModule graph module parent) :
    Adds graph uniqueNames st (resolveRulesShell parent parentCell module st) ∧
      (module.dep.name = "rules_shell" → "local_config_shell" ∈ module.useRepoAliases →
        Filled .builtin (parent ++ "+sh_configure") "local_config_shell"
          (resolveRulesShell parent parentCell module st)) := by
  have hgenerated (st : Resolution) (repoName : String) :=
    @generated_builtin st "+sh_configure" "+sh_configure+" rfl parentCell parent repoName repoName
      .shellConfig
  unfold resolveRulesShell
  split
  · next hname =>
    have hstep : ∀ aliasName ∈ module.useRepoAliases.filter (· = "local_config_shell"),
        ∀ st : Resolution, Adds graph uniqueNames st (st.addGeneratedBzlmodRepo parentCell aliasName
          (parent ++ "+sh_configure+" ++ aliasName) .shellConfig) := by
      intro aliasName hmem st
      obtain ⟨hmem, halias⟩ := mem_filter.mp hmem
      obtain rfl := of_decide_eq_true halias
      exact .of_append (hgenerated st _) (.place rfl (.module hmodule (.shell hname hmem)))
    obtain ⟨hadds, hthrough⟩ := foldl_through .refl .trans hstep st
    refine ⟨hadds, fun _ hmem => ?_⟩
    obtain ⟨st1, hrest⟩ := hthrough "local_config_shell" (mem_filter.mpr ⟨hmem, by simp⟩)
    exact Filled.adds (.of_append (hgenerated st1 _) rfl) hrest
  · next hname => exact ⟨.refl _, fun h => absurd h hname⟩

theorem hostPlatform_adds (hmodule : IsModule graph module parent)
    (hname : module.dep.name = "platforms") {usage : BzlmodExtensionUsage}
    (hmem : usage ∈ module.extensionUsages.filter (·.extensionName = "host_platform"))
    (h : resolveHostPlatform uniqueNames hostPlatformSetup parent parentCell st usage = .ok st') :
    Adds graph uniqueNames st st' ∧ ∀ imported ∈ usage.imports,
      imported.repoName = "host_platform" →
        Filled .builtin (parent ++ "+host_platform") "host_platform" st' := by
  obtain ⟨hmem, hextension⟩ := mem_filter.mp hmem
  obtain ⟨extension, -, h⟩ := bind_eq_ok.mp h
  cases h
  have hgenerated (st : Resolution) (imported : BzlmodUseRepoImport) :
      (importHostPlatform hostPlatformSetup parent parentCell extension.uniqueName st
        imported).generated = st.generated ++
          [generatedAt (parent ++ "+host_platform") imported.repoName
            (.hostPlatform hostPlatformSetup)] :=
    @generated_builtin st "+host_platform" "+host_platform+" rfl parentCell parent
      imported.repoName imported.aliasName _
  have hstep : ∀ imported ∈ usage.imports.filter (·.repoName = "host_platform"),
      ∀ st : Resolution, Adds graph uniqueNames st
        (importHostPlatform hostPlatformSetup parent parentCell extension.uniqueName st imported) :=
      by
    intro imported himported st
    obtain ⟨himported, hrepo⟩ := mem_filter.mp himported
    refine .of_append (hgenerated st imported) (.place rfl (.module hmodule ?_))
    have hrepo := of_decide_eq_true hrepo
    rw [hrepo]
    exact .hostPlatform hname hmem (of_decide_eq_true hextension) himported hrepo
  obtain ⟨hadds, hthrough⟩ := foldl_through .refl .trans hstep st
  refine ⟨hadds, fun imported himported hrepo => ?_⟩
  obtain ⟨st1, hrest⟩ := hthrough imported (mem_filter.mpr ⟨himported, by simpa using hrepo⟩)
  exact Filled.adds (.of_append (hrepo ▸ hgenerated st1 imported) rfl) hrest

theorem platforms_adds (hmodule : IsModule graph module parent)
    (h : resolvePlatforms uniqueNames hostPlatformSetup parent parentCell module st = .ok st') :
    Adds graph uniqueNames st st' ∧ (module.dep.name = "platforms" →
      ∀ usage ∈ module.extensionUsages, usage.extensionName = "host_platform" →
        ∀ imported ∈ usage.imports, imported.repoName = "host_platform" →
          Filled .builtin (parent ++ "+host_platform") "host_platform" st') := by
  unfold resolvePlatforms at h
  split at h
  · next hname =>
    obtain ⟨hadds, hthrough⟩ := foldlM_through (R := Adds graph uniqueNames) .refl .trans
      (fun usage hmem st st' hstep => (hostPlatform_adds hmodule hname hmem hstep).1) h
    refine ⟨hadds, fun _ usage husage hextension imported himported hrepo => ?_⟩
    have hmem : usage ∈ module.extensionUsages.filter (·.extensionName = "host_platform") :=
      mem_filter.mpr ⟨husage, by simpa using hextension⟩
    obtain ⟨st1, st2, hstep, hrest⟩ := hthrough usage hmem
    exact ((hostPlatform_adds hmodule hname hmem hstep).2 imported himported hrepo).adds hrest
  · next hname =>
    cases h
    exact ⟨.refl _, fun hplatforms => absurd hplatforms hname⟩

theorem placeKind_bazelFeatures
    (h : bazelFeaturesGenerator parent repoName = some generator) :
    generator.placeKind = some .builtin ∧ '+' ∉ repoName.toList := by
  unfold bazelFeaturesGenerator at h
  split at h
  · next hrepo =>
    cases h
    exact ⟨rfl, hrepo ▸ by decide⟩
  · split at h
    · next hrepo =>
      cases h
      exact ⟨rfl, hrepo ▸ by decide⟩
    · cases h

theorem bazelFeatures_adds (hmodule : IsModule graph module parent) :
    Adds graph uniqueNames st (resolveBazelFeatures parent parentCell module st) ∧
      (module.dep.name = "bazel_features" → ∀ usage ∈ module.extensionUsages,
        usage.extensionName = "version_extension" → ∀ imported ∈ usage.imports, ∀ generator,
          bazelFeaturesGenerator parent imported.repoName = some generator →
          Filled .builtin (parent ++ "+version_extension") imported.repoName
            (resolveBazelFeatures parent parentCell module st)) := by
  have hgenerated {imported : BzlmodUseRepoImport} {generator : BzlmodGeneratedCellGenerator}
      (hgenerator : bazelFeaturesGenerator parent imported.repoName = some generator)
      (st : Resolution) : (importBazelFeature parent parentCell st imported).generated =
        st.generated ++
          [generatedAt (parent ++ "+version_extension") imported.repoName generator] := by
    rw [importBazelFeature, hgenerator]
    exact @generated_builtin st "+version_extension" "+version_extension+" rfl parentCell parent
      imported.repoName imported.aliasName generator
  unfold resolveBazelFeatures
  split
  · next hname =>
    have hstep : ∀ imported ∈ bzlmodExtensionImportsFromUsages module.extensionUsages
        "version_extension", ∀ st : Resolution,
        Adds graph uniqueNames st (importBazelFeature parent parentCell st imported) := by
      intro imported himported st
      obtain ⟨usage, husage, himported⟩ := mem_flatMap.mp himported
      obtain ⟨husage, hextension⟩ := mem_filter.mp husage
      cases hgenerator : bazelFeaturesGenerator parent imported.repoName with
      | none =>
        rw [importBazelFeature, hgenerator]
        exact .refl _
      | some generator =>
        exact .of_append (hgenerated hgenerator st) (.place (placeKind_bazelFeatures hgenerator).1
          (.module hmodule (.bazelFeatures hname husage (of_decide_eq_true hextension) himported
            hgenerator)))
    obtain ⟨hadds, hthrough⟩ := foldl_through .refl .trans hstep st
    refine ⟨hadds, fun _ usage husage hextension imported himported generator hgenerator => ?_⟩
    have hmem : imported ∈ bzlmodExtensionImportsFromUsages module.extensionUsages
        "version_extension" :=
      mem_flatMap.mpr ⟨usage, mem_filter.mpr ⟨husage, by simpa using hextension⟩, himported⟩
    obtain ⟨st1, hrest⟩ := hthrough imported hmem
    exact Filled.adds (.of_append (hgenerated hgenerator st1)
      (placeKind_bazelFeatures hgenerator).1) hrest
  · next hname => exact ⟨.refl _, fun h => absurd h hname⟩

theorem module_adds {directRootDepCells : TreeSet String} {key : ModuleKey}
    (hkey : key ∈ graph.selectedKeysInDependencyOrder)
    (h : resolveModule graph shared directRootDepCells hostPlatformSetup st key = .ok st') :
    Adds graph shared.extensionUniqueNames st st' ∧
      ∀ module parent kind base repoName, graph.discovered[key]? = some module →
        graph.canonicalRepoNamesByKey[(module.dep.name, module.dep.version)]? = some parent →
        IsModulePlace module parent kind base repoName → Filled kind base repoName st' := by
  unfold resolveModule at h
  split at h
  · next hnone =>
    cases h
    refine ⟨.refl _, fun module parent kind base repoName hmodule => ?_⟩
    rw [hnone] at hmodule
    cases hmodule
  · next module hmodule =>
    obtain ⟨parent, hparent, h⟩ := bind_eq_ok.mp h
    obtain ⟨st1, hrules, h⟩ := bind_eq_ok.mp h
    obtain ⟨st2, hplatforms, h⟩ := bind_eq_ok.mp h
    have hname : graph.canonicalRepoNamesByKey[(module.dep.name, module.dep.version)]? =
        some parent := by
      unfold bzlmodSelectedCanonicalRepoName at hparent
      split at hparent
      · next heq =>
        cases hparent
        exact heq
      · cases hparent
    have hismodule : IsModule graph module parent := ⟨key, hkey, hmodule, hname⟩
    obtain ⟨hadds1, hfilled1⟩ :=
      useRepoRules_adds (fun invocation hmem => .module hismodule (.rule hmem)) hrules
    obtain ⟨haddsShell, hshell⟩ := rulesShell_adds hismodule
    obtain ⟨hadds2, hfilled2⟩ := platforms_adds hismodule hplatforms
    obtain ⟨hadds3, hfilled3⟩ := bazelFeatures_adds hismodule
    obtain ⟨hadds4, -⟩ := foldlM_through (R := Adds graph shared.extensionUniqueNames) .refl .trans
      (fun _ _ _ _ hstep => usage_adds hstep) h
    have hrest := hadds2.trans (hadds3.trans hadds4)
    refine ⟨hadds1.trans (haddsShell.trans hrest), ?_⟩
    intro module' parent' kind base repoName hmodule' hparent' hplace
    obtain rfl : module = module' := Option.some.inj (hmodule.symm.trans hmodule')
    obtain rfl : parent = parent' := Option.some.inj (hname.symm.trans hparent')
    cases hplace with
    | rule hmem => exact (hfilled1 _ hmem).adds (haddsShell.trans hrest)
    | shell hshellName hmem => exact (hshell hshellName hmem).adds hrest
    | hostPlatform hplatform husage hextension himported hrepo =>
      exact (hfilled2 hplatform _ husage hextension _ himported hrepo).adds (hadds3.trans hadds4)
    | bazelFeatures hfeatures husage hextension himported hgenerator =>
      exact (hfilled3 hfeatures _ husage hextension _ himported _ hgenerator).adds hadds4

end Adds

/-- **What is generated.**  Every repository is named after where it comes from, and every place has
its repository. -/
theorem resolveGeneratedBzlmodRepos_spec {graph : BzlmodDepGraph}
    {directRootDepCells : TreeSet String} {cellAliasesByCell : BzlmodCellAliasesByCell}
    {uniqueNames usagesJson : TreeMap BzlmodExtensionId String}
    {hostPlatformSetup : BzlmodHostPlatformSetup} {st : Resolution} (h :
      resolveGeneratedBzlmodRepos graph directRootDepCells cellAliasesByCell uniqueNames usagesJson
      hostPlatformSetup = .ok st) : (∀ m ∈ st.generated, Named graph uniqueNames m) ∧
      ∀ kind base repoName, IsPlace graph kind base repoName → Filled kind base repoName st := by
  obtain ⟨st1, hrules, h⟩ := bind_eq_ok.mp h
  obtain ⟨st2, hmodules, h⟩ := bind_eq_ok.mp h
  obtain ⟨st3, hroot, h⟩ := bind_eq_ok.mp h
  cases h
  obtain ⟨hadds1, hfilled1⟩ := @useRepoRules_adds graph uniqueNames _ _ _ _ _ _
    (fun invocation hmem => .root hmem) hrules
  have hxcode : Adds graph uniqueNames st1 (st1.addUnimportedGeneratedBzlmodRepo "bazel_tools"
      "bazel_tools+xcode_configure_extension+local_config_xcode" .xcodeConfig) :=
    .of_append rfl (.place rfl .xcode)
  obtain ⟨hadds2, hthrough2⟩ := foldlM_through (R := Adds graph uniqueNames) .refl .trans
    (fun key hkey _ _ hstep => (module_adds hkey hstep).1) hmodules
  obtain ⟨hadds3, -⟩ := foldlM_through (R := Adds graph uniqueNames) .refl .trans
    (fun _ _ _ _ hstep => usage_adds hstep) hroot
  constructor
  · obtain ⟨new, hnew, hnamed⟩ := hadds1.trans (hxcode.trans (hadds2.trans hadds3))
    intro m hm
    rw [nil_append] at hnew
    exact hnamed m (hnew ▸ hm)
  · intro kind base repoName hplace
    cases hplace with
    | root hmem => exact (hfilled1 _ hmem).adds (hxcode.trans (hadds2.trans hadds3))
    | xcode => exact (Filled.of_append rfl rfl).adds (hadds2.trans hadds3)
    | module hmodule hplace =>
      obtain ⟨key, hkey, hmodule, hname⟩ := hmodule
      obtain ⟨s1, s2, hstep, hrest⟩ := hthrough2 key hkey
      exact ((module_adds hkey hstep).2 _ _ _ _ _ hmodule hname hplace).adds
        (hrest.trans hadds3)

/-! ## Cells -/

/-- `BazelCompatExternalModule`; of a fetched one only the cell matters. -/
inductive BazelCompatExternalModule where
  | fetched (cellName : String)
  | generated (module : BazelCompatGeneratedModule)
  deriving DecidableEq

def BazelCompatExternalModule.cellName : BazelCompatExternalModule → String
  | fetched cellName => cellName
  | generated module => module.cellName

/-- `dedup_by` with the names of the cells, after a module that has been kept. -/
def dedupAfter (kept : BazelCompatExternalModule) :
    List BazelCompatExternalModule → List BazelCompatExternalModule
  | [] => []
  | m :: rest => if m.cellName = kept.cellName then dedupAfter kept rest else m :: dedupAfter m rest

/-- The modules that `BazelModuleCellAliases::normalize` keeps, once they have been sorted by their
cells; the sort is not stable. -/
def dedupByCell : List BazelCompatExternalModule → List BazelCompatExternalModule
  | [] => []
  | m :: rest => m :: dedupAfter m rest

variable {modules : List BazelCompatExternalModule}

theorem exists_mem_dedupAfter {kept m : BazelCompatExternalModule} (hm : m ∈ modules) :
    ∃ n ∈ kept :: dedupAfter kept modules, n.cellName = m.cellName := by
  induction modules generalizing kept with
  | nil => cases hm
  | cons next rest ih =>
    rw [dedupAfter]
    rcases mem_cons.mp hm with rfl | hm
    · split
      · next heq => exact ⟨kept, mem_cons_self, heq.symm⟩
      · exact ⟨m, mem_cons_of_mem _ mem_cons_self, rfl⟩
    · split
      · exact ih hm
      · obtain ⟨n, hn, hcell⟩ : ∃ n ∈ next :: dedupAfter next rest, n.cellName = m.cellName := ih hm
        exact ⟨n, mem_cons_of_mem _ hn, hcell⟩

theorem exists_mem_dedupByCell {m : BazelCompatExternalModule} (hm : m ∈ modules) :
    ∃ n ∈ dedupByCell modules, n.cellName = m.cellName := by
  cases modules with
  | nil => cases hm
  | cons first rest =>
    rcases mem_cons.mp hm with rfl | hm
    · exact ⟨m, mem_cons_self, rfl⟩
    · exact exists_mem_dedupAfter hm

/-! ## Distinct repositories -/

theorem append_plus_inj {a b r s : String} (hr : '+' ∉ r.toList) (hs : '+' ∉ s.toList)
    (h : a ++ "+" ++ r = b ++ "+" ++ s) : a = b ∧ r = s := by
  have hlist : a.toList ++ '+' :: r.toList = b.toList ++ '+' :: s.toList := by
    simpa using congrArg String.toList h
  obtain ⟨hab, hrs⟩ := Encoding.append_separator_inj hr hs hlist
  exact ⟨String.toList_inj.mp hab, String.toList_inj.mp hrs⟩

/-- The repository of an extension. -/
def BazelCompatGeneratedModule.IsExtensionRepo (m : BazelCompatGeneratedModule)
    (id : BzlmodExtensionId) (repoName : String) : Prop :=
  ∃ setup, m.generator = .moduleExtensionRepo setup ∧ setup.repoName = repoName ∧
    id = ⟨setup.extensionBzlCell, setup.extensionBzlPath, setup.extensionName⟩

/-- The repositories have neither the name nor the cell of each other, and both cells are kept. -/
structure Apart (st : Resolution) (m m' : BazelCompatGeneratedModule) : Prop where
  canonicalRepoName : m.canonicalRepoName ≠ m'.canonicalRepoName
  cellName : m.cellName ≠ m'.cellName
  kept : ∀ fetched sorted : List BazelCompatExternalModule,
    sorted.Perm (fetched ++ st.generated.map .generated) →
    ∃ n ∈ dedupByCell sorted, ∃ n' ∈ dedupByCell sorted,
      n.cellName = m.cellName ∧ n'.cellName = m'.cellName ∧ n ≠ n'

section Distinct

variable {graph : BzlmodDepGraph} {uniqueNames : TreeMap BzlmodExtensionId String}
  {st : Resolution} {m m' : BazelCompatGeneratedModule} {kind : PlaceKind}
  {base base' repoName repoName' : String} {id : BzlmodExtensionId}
  {generator generator' : BzlmodGeneratedCellGenerator}

theorem apart_of_ne (hm : generatedAt base repoName generator ∈ st.generated)
    (hm' : generatedAt base' repoName' generator' ∈ st.generated) (hplain : '+' ∉ repoName.toList)
    (hplain' : '+' ∉ repoName'.toList) (hne : ¬ (base = base' ∧ repoName = repoName')) :
    Apart st (generatedAt base repoName generator) (generatedAt base' repoName' generator') := by
  have hname : bzlmodExtensionUniqueRepoCanonicalRepoName base repoName ≠
      bzlmodExtensionUniqueRepoCanonicalRepoName base' repoName' :=
    fun h => hne (append_plus_inj hplain hplain' h)
  refine ⟨hname, hname, fun fetched sorted hperm => ?_⟩
  have hmem : ∀ k ∈ st.generated, BazelCompatExternalModule.generated k ∈ sorted := fun k hk =>
    hperm.mem_iff.mpr (mem_append_right _ (mem_map_of_mem hk))
  obtain ⟨n, hn, hncell⟩ := exists_mem_dedupByCell (hmem _ hm)
  obtain ⟨n', hn', hncell'⟩ := exists_mem_dedupByCell (hmem _ hm')
  refine ⟨n, hn, n', hn', hncell, hncell', ?_⟩
  rintro rfl
  exact hname (hncell.symm.trans hncell')

theorem IsPlace.plain (h : IsPlace graph .builtin base repoName) : '+' ∉ repoName.toList := by
  cases h with
  | xcode => decide
  | module hmodule hplace =>
    cases hplace with
    | shell | hostPlatform => decide
    | bazelFeatures _ _ _ _ hgenerator => exact (placeKind_bazelFeatures hgenerator).2

theorem Named.of_isExtensionRepo (h : Named graph uniqueNames m)
    (hrepo : m.IsExtensionRepo id repoName) : ∃ name setup, uniqueNames[id]? = some name ∧
      m = generatedAt name repoName (.moduleExtensionRepo setup) := by
  obtain ⟨setup, hgenerator, rfl, rfl⟩ := hrepo
  cases h with
  | extension hname =>
    cases hgenerator
    exact ⟨_, _, hname, rfl⟩
  | place hkind _ =>
    rw [generatedAt] at hgenerator
    simp only at hgenerator
    rw [hgenerator] at hkind
    cases hkind

theorem Named.of_placeKind (h : Named graph uniqueNames m)
    (hkind : m.generator.placeKind = some kind) : ∃ base repoName,
      IsPlace graph kind base repoName ∧ m = generatedAt base repoName m.generator := by
  cases h with
  | extension => cases hkind
  | place hkind' hplace =>
    obtain rfl := Option.some.inj (hkind.symm.trans hkind')
    exact ⟨_, _, hplace, rfl⟩

end Distinct

/-- A root module that invokes a repository rule and imports the repository `r` of the extension
`http_archive`. -/
def ruleAndExtension (ruleName : String) : BzlmodDepGraph where
  rootModule :=
    { canonicalRepoName := ""
      lockfileExtensionGeneratedRepos := ∅
      extensionUsages := [⟨"//:ext.bzl", "http_archive", [⟨"imported", "r"⟩], [], []⟩]
      useRepoRuleInvocations := [⟨"@bazel_tools//repo:http.bzl", ruleName, "r", []⟩] }
  discovered := ∅
  selectedKeys := ∅
  selectedKeysInDependencyOrder := []
  canonicalRepoNamesByKey := ∅
  canonicalRepoNamesByCell := TreeMap.empty.insert "root" ""
  cellAliasesByCell := ∅

def extensionId : BzlmodExtensionId := ⟨"root", "ext.bzl", "http_archive"⟩

/-- The repository that the extension generates. -/
def extensionRepo : BazelCompatGeneratedModule :=
  ⟨"+http_archive+r", "+http_archive+r", .moduleExtensionRepo
    ⟨"", true, "//:ext.bzl", "root", "ext.bzl", "+http_archive", "http_archive", "r", ""⟩⟩

/-- The repository that the rule generates. -/
def ruleRepo (ruleName canonicalRepoName : String) : BazelCompatGeneratedModule :=
  ⟨canonicalRepoName, canonicalRepoName, .repositoryRuleInvocation
    ⟨"r", "bazel_tools", "repo/http.bzl", "root", some "", ruleName, []⟩⟩

end Bz.Bzlmod.Extensions
