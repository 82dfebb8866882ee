import Mathlib.Data.String.Basic
import Mathlib.Data.List.Lex
import Bz.BuckOut.Resolver
import Bz.Directory.Builder

/-!
# Declared outputs

`ActionsRegistry` (`bz_build_api/src/actions/registry.rs`): declarations of outputs for a Bazel
owner. A declaration claims a path, which must not be above, at or below a claimed one; the output
itself is where `resolve_gen` puts it, and the two paths are made in different ways.

The resolver leaves out the output root and, where the path begins with it, the package
(`declared_shared`).

Principal results: `claim_apart`, the claims of accepted declarations are apart; `declared_apart`,
when their resolved paths are.
-/

namespace Bz.BuckOut

open Encoding Directory DirectoryBuilder List

/-! ## Definitions -/

/-- Where a cell comes from. -/
inductive ExternalCellOrigin where
  | bundled (cell : Text)
  | git
  | bzlmod (canonicalRepoName : Text)
  | bzlmodGenerated (canonicalRepoName : Text)

/-- Why a path is not claimed. -/
inductive ActionErrors (S : Type) where
  | emptyOutputPath
  | conflictingOutputPath (path : ForwardRelativePath) (location : Option S)
  | conflictingOutputPaths (path : ForwardRelativePath) (conflicts : List (List Text × Option S))

/-- Why a declaration is refused; the last one is a failed assertion. -/
inductive DeclareError (S : Type) where
  | path (error : ForwardRelativePathError)
  | action (error : ActionErrors S)
  | duplicateArtifact

/-- `ActionsRegistry`; `S` is the type of locations in source files. -/
structure ActionsRegistry (C S : Type) where
  owner : DeferredHolderKey C
  artifacts : List (BuildArtifactPath C)
  claimedOutputPaths : DirectoryBuilder Text (Option S) Empty

/-- The arguments of a declaration. -/
structure Declaration (C S : Type) where
  subdir : Option ForwardRelativePath
  path : ForwardRelativePath
  declarationLocation : Option S
  pathResolutionMethod : BuckOutPathKind
  bazelOwner : Option (ConfiguredTargetLabel C)
  bazelOutputRoot : BazelOutputRoot
  bazelOutputPathKind : BazelOutputPathKind

/-- An artifact that is declared. -/
structure DeclaredArtifact (C : Type) where
  path : BuildArtifactPath C
  hiddenComponentsCount : Nat

def bazelExternalRepoName (cell : Text) : ExternalCellOrigin → Text
  | .bundled cell => cell
  | .git => cell
  | .bzlmod canonicalRepoName => canonicalRepoName
  | .bzlmodGenerated canonicalRepoName => canonicalRepoName

section Definitions

variable {C S : Type} [DecidableEq C] (outputHash : C → ConfigurationHash)
  (externalCellOrigin : Text → Option ExternalCellOrigin)

/-- The part of `bazel_package_exec_path` that the cell gives. -/
def cellExecPath (cell : CellName) : Text :=
  match externalCellOrigin cell.name with
  | some origin => pushPathComponent (pushPathComponent [] "external".toList)
      (bazelExternalRepoName cell.name origin)
  | none => if cell.name ≠ "root".toList then pushPathComponent [] cell.name else []

def bazelPackageExecPath (label : ConfiguredTargetLabel C) : Text :=
  pushPathComponent (cellExecPath externalCellOrigin label.cell) label.package.asStr

/-- `bazel_claim_output_path`. -/
def bazelClaimOutputPath (path : ForwardRelativePath) (bazelOwner : Option
    (ConfiguredTargetLabel C))
    (bazelOutputRoot : BazelOutputRoot) (bazelOutputPathKind : BazelOutputPathKind) :
    Except ForwardRelativePathError ForwardRelativePath :=
  match bazelOwner with
  | none => .ok path
  | some label =>
    let claimPath := "_bazel/".toList ++ configurationText outputHash label ++
      '/' :: bazelOutputRoot.asStr
    let claimPath :=
      if bazelOutputPathKind = .packageRelative then
        let packageExecPath := bazelPackageExecPath externalCellOrigin label
        if packageExecPath ≠ [] then claimPath ++ '/' :: packageExecPath else claimPath
      else claimPath
    ForwardRelativePath.new (claimPath ++ '/' :: path.asStr)

def bazelPhysicalArtifactPath (path : ForwardRelativePath) (hidden : Nat)
    (bazelOwner buckOwner : Option (ConfiguredTargetLabel C))
    (bazelOutputPathKind : BazelOutputPathKind) :
    Except ForwardRelativePathError (ForwardRelativePath × Nat) :=
  if bazelOutputPathKind ≠ .packageRelative then .ok (path, hidden)
  else match bazelOwner with
    | none => .ok (path, hidden)
    | some label =>
      if buckOwner = some label then .ok (path, hidden)
      else
        let packageExecPath := bazelPackageExecPath externalCellOrigin label
        if packageExecPath = [] then .ok (path, hidden)
        else match ForwardRelativePath.new packageExecPath with
          | .ok packageExecPath =>
            .ok (packageExecPath.join path, hidden + packageExecPath.components.length)
          | .error e => .error e

/-- The artifacts of a registry have one owner; they are equal if all else is. -/
def sameArtifact (a b : BuildArtifactPath C) : Bool :=
  a.bazelOwner = b.bazelOwner && a.bazelOutputRoot = b.bazelOutputRoot &&
    a.bazelOutputPathKind = b.bazelOutputPathKind && a.path = b.path &&
    a.pathResolutionMethod = b.pathResolutionMethod

namespace ActionsRegistry

/-- `ActionsRegistry::claim_output_path`, with the registry afterwards. -/
def claimOutputPath (self : ActionsRegistry C S) (path : ForwardRelativePath)
    (declarationLocation : Option S) : ActionsRegistry C S × Except (ActionErrors S) Unit :=
  match self.claimedOutputPaths.insert path.components (.leaf declarationLocation) with
  | (claimed, result) => ({ self with claimedOutputPaths := claimed }, match result with
    | .ok none => .ok ()
    | .ok (some (.leaf location)) => .error (.conflictingOutputPath path location)
    | .ok (some (.dir conflictDir)) =>
      .error (.conflictingOutputPaths path ((conflictDir.orderedWalkLeaves (· ≤ ·)).map
        fun x => (path.components ++ x.1, x.2)))
    | .error .emptyPath => .error .emptyOutputPath
    | .error (.cannotTraverseLeaf conflict) =>
      let location := match claimed.find conflict with
        | .ok (some (.leaf l)) => l
        | _ => none
      .error (.conflictingOutputPaths path [(conflict, location)]))

/-- The path of a declaration and how many of its components are hidden. -/
def declaredPath (d : Declaration C S) : ForwardRelativePath × Nat :=
  match d.subdir with
  | none => (d.path, 0)
  | some subdir => (subdir.join d.path, subdir.components.length)

/-- `declare_artifact_with_bazel_owner_output_root_and_path_kind`. -/
def declareArtifact (self : ActionsRegistry C S) (d : Declaration C S) :
    ActionsRegistry C S × Except (DeclareError S) (DeclaredArtifact C) :=
  match bazelClaimOutputPath outputHash externalCellOrigin (declaredPath d).1 d.bazelOwner
      d.bazelOutputRoot d.bazelOutputPathKind with
  | .error e => (self, .error (.path e))
  | .ok claimPath =>
    match self.claimOutputPath claimPath d.declarationLocation with
    | (self, .error e) => (self, .error (.action e))
    | (self, .ok ()) =>
      match bazelPhysicalArtifactPath externalCellOrigin (declaredPath d).1 (declaredPath d).2
          d.bazelOwner self.owner.owner.configuredLabel d.bazelOutputPathKind with
      | .error e => (self, .error (.path e))
      | .ok (path, hidden) =>
        let outPath : BuildArtifactPath C :=
          ⟨self.owner, d.bazelOwner, d.bazelOutputRoot, d.bazelOutputPathKind, path,
            d.pathResolutionMethod⟩
        if self.artifacts.any (sameArtifact outPath) then (self, .error .duplicateArtifact)
        else ({ self with artifacts := outPath :: self.artifacts }, .ok ⟨outPath, hidden⟩)

/-- The results of declarations, one after another. -/
def declareAll (self : ActionsRegistry C S) :
    List (Declaration C S) → List (Except (DeclareError S) (DeclaredArtifact C))
  | [] => []
  | d :: ds =>
    (self.declareArtifact outputHash externalCellOrigin d).2 ::
      declareAll (self.declareArtifact outputHash externalCellOrigin d).1 ds

end ActionsRegistry

end Definitions

/-! ## Claims -/

section Claims

variable {C S : Type} {outputHash : C → ConfigurationHash}
  {externalCellOrigin : Text → Option ExternalCellOrigin} {r r' : ActionsRegistry C S}
  {d : Declaration C S} {a : DeclaredArtifact C}
  {c : List Text} {ds : List (Declaration C S)} {j : Nat}

/-- The claim of a declaration. -/
def claimOf (outputHash : C → ConfigurationHash)
    (externalCellOrigin : Text → Option ExternalCellOrigin) (d : Declaration C S) :
    Except ForwardRelativePathError ForwardRelativePath :=
  bazelClaimOutputPath outputHash externalCellOrigin (ActionsRegistry.declaredPath d).1 d.bazelOwner
    d.bazelOutputRoot d.bazelOutputPathKind

/-- Something is claimed at the path or above it. -/
def Claimed (r : ActionsRegistry C S) (path : List Text) : Prop :=
  ∃ q l, q <+: path ∧ r.claimedOutputPaths.tree q = some (.leaf l)

theorem tree_insert_leaf {path : List Text} {l : Option S} {replaced}
    {old new : DirectoryBuilder Text (Option S) Empty}
    (h : old.insert path (.leaf l) = (new, .ok replaced)) : new.tree path = some (.leaf l) := by
  obtain ⟨-, -, htree, -⟩ := insert_ok h
  have hput := PathMap.putAt_append old.tree
    (DirectoryEntry.leaf l : BuilderEntry Text (Option S) Empty).tree path []
  rw [append_nil] at hput
  rw [htree, hput]
  rfl

theorem Claimed.claimOutputPath (h : Claimed r c) (path : ForwardRelativePath)
    (location : Option S) : Claimed (r.claimOutputPath path location).1 c := by
  obtain ⟨q, m, hq, hm⟩ := h
  rcases hins : r.claimedOutputPaths.insert path.components (.leaf location) with ⟨new, result⟩
  have hnew : (r.claimOutputPath path location).1.claimedOutputPaths = new := by
    rw [ActionsRegistry.claimOutputPath, hins]
  rw [Claimed, hnew]
  cases result with
  | error e =>
    obtain ⟨htree, -⟩ := insert_error hins
    exact ⟨q, m, hq, by rw [htree, hm]⟩
  | ok replaced =>
    obtain ⟨-, hopen, htree, -⟩ := insert_ok hins
    by_cases hpq : path.components <+: q
    · exact ⟨_, location, hpq.trans hq, tree_insert_leaf hins⟩
    · refine ⟨q, m, hq, ?_⟩
      rw [htree, PathMap.putAt_apart hpq fun hqp => ?_, hm]
      exact hopen q m hqp (fun heq => hpq (heq ▸ prefix_refl _)) hm

/-- **A claim that is accepted** is neither above nor below what was claimed. -/
theorem claimOutputPath_ok {path : ForwardRelativePath} {location : Option S}
    (h : r.claimOutputPath path location = (r', .ok ())) : Claimed r' path.components ∧
      ∀ c, Claimed r c → ¬ c <+: path.components ∧ ¬ path.components <+: c := by
  rcases hins : r.claimedOutputPaths.insert path.components (.leaf location) with ⟨new, result⟩
  rw [ActionsRegistry.claimOutputPath, hins] at h
  obtain ⟨rfl, hresult⟩ := Prod.mk.inj h
  obtain rfl : result = .ok none := by
    match result, hresult with
    | .ok none, _ => rfl
  obtain ⟨-, hopen, htree, hold⟩ := insert_ok hins
  refine ⟨⟨_, location, prefix_refl _, tree_insert_leaf hins⟩, ?_⟩
  rintro c ⟨q, m, hq, hm⟩
  -- the leaf at or above `c` would be above the path, or the path would have an entry
  have hleaf (hqp : q <+: path.components) : False := by
    rcases eq_or_ne q path.components with rfl | hne
    · have hnone := hold []
      rw [append_nil, hm] at hnone
      cases hnone
    · exact hopen q m hqp hne hm
  constructor
  · exact fun hc => hleaf (hq.trans hc)
  · intro hc
    rcases prefix_or_prefix_of_prefix hq hc with hqp | ⟨rest, rfl⟩
    · exact hleaf hqp
    · have hnone := hold rest
      rw [hm] at hnone
      cases hnone

variable [DecidableEq C]

/-- The claim and the artifact of a declaration that is accepted. -/
structure Accepted (outputHash : C → ConfigurationHash)
    (externalCellOrigin : Text → Option ExternalCellOrigin) (owner : DeferredHolderKey C)
    (d : Declaration C S) (a : DeclaredArtifact C) (claim : ForwardRelativePath) : Prop where
  claim : claimOf outputHash externalCellOrigin d = .ok claim
  physical : ∃ path hidden, bazelPhysicalArtifactPath externalCellOrigin
      (ActionsRegistry.declaredPath d).1 (ActionsRegistry.declaredPath d).2 d.bazelOwner
      owner.owner.configuredLabel d.bazelOutputPathKind = .ok (path, hidden) ∧
    a.path = ⟨owner, d.bazelOwner, d.bazelOutputRoot, d.bazelOutputPathKind, path,
      d.pathResolutionMethod⟩

/-- **A declaration** keeps the owner and what is claimed.  If it is accepted, its claim is neither
above nor below what was claimed. -/
theorem declareArtifact_spec {result : Except (DeclareError S) (DeclaredArtifact C)}
    (h : r.declareArtifact outputHash externalCellOrigin d = (r', result)) :
    r'.owner = r.owner ∧ (∀ c, Claimed r c → Claimed r' c) ∧ ∀ a, result = .ok a →
      ∃ claim, Accepted outputHash externalCellOrigin r.owner d a claim ∧
        Claimed r' claim.components ∧
        ∀ c, Claimed r c → ¬ c <+: claim.components ∧ ¬ claim.components <+: c := by
  unfold ActionsRegistry.declareArtifact at h
  split at h
  · cases h
    exact ⟨rfl, fun c hc => hc, fun a ha => nomatch ha⟩
  · next claimPath hclaimPath =>
    have howner : (r.claimOutputPath claimPath d.declarationLocation).1.owner = r.owner := by
      rw [ActionsRegistry.claimOutputPath]
    have hkeeps (c : List Text) (hc : Claimed r c) :=
      hc.claimOutputPath claimPath d.declarationLocation
    split at h
    · next r1 e hclaim =>
      cases h
      rw [hclaim] at howner hkeeps
      exact ⟨howner, hkeeps, fun a ha => nomatch ha⟩
    · next r1 hclaim =>
      rw [hclaim] at howner hkeeps
      obtain ⟨hclaimed, hapart⟩ := claimOutputPath_ok hclaim
      split at h
      · cases h
        exact ⟨howner, hkeeps, fun a ha => nomatch ha⟩
      · next path hidden hphysical =>
        dsimp only at h
        split at h
        · cases h
          exact ⟨howner, hkeeps, fun a ha => nomatch ha⟩
        · cases h
          refine ⟨howner, hkeeps, fun a ha => ?_⟩
          cases ha
          rw [howner] at hphysical ⊢
          exact ⟨claimPath, ⟨hclaimPath, path, hidden, hphysical, rfl⟩, hclaimed, hapart⟩

/-- A later declaration that is accepted is neither above nor below what is claimed. -/
theorem declareAll_claimed (hc : Claimed r c) (hd : ds[j]? = some d)
    (hj : (r.declareAll outputHash externalCellOrigin ds)[j]? = some (.ok a)) :
    ∃ claim, Accepted outputHash externalCellOrigin r.owner d a claim ∧
      ¬ c <+: claim.components ∧ ¬ claim.components <+: c := by
  induction ds generalizing r j with
  | nil => cases hd
  | cons d0 ds ih =>
    obtain ⟨howner, hkeeps, hok⟩ := declareArtifact_spec (Prod.mk.eta (p :=
      r.declareArtifact outputHash externalCellOrigin d0)).symm
    cases j with
    | zero =>
      cases hd
      obtain ⟨claim, haccepted, -, hapart⟩ := hok a (Option.some.inj hj)
      exact ⟨claim, haccepted, hapart c hc⟩
    | succ j =>
      have hlater := ih (hkeeps c hc) hd hj
      rwa [howner] at hlater

/-- **Of the claims of two accepted declarations** neither is above the other. -/
theorem claim_apart {i : Nat} (hij : i < j) {d' : Declaration C S} {a' : DeclaredArtifact C}
    (hd : ds[i]? = some d) (hd' : ds[j]? = some d')
    (hi : (r.declareAll outputHash externalCellOrigin ds)[i]? = some (.ok a))
    (hj : (r.declareAll outputHash externalCellOrigin ds)[j]? = some (.ok a')) :
    ∃ claim claim', Accepted outputHash externalCellOrigin r.owner d a claim ∧
      Accepted outputHash externalCellOrigin r.owner d' a' claim' ∧
      ¬ claim.components <+: claim'.components ∧ ¬ claim'.components <+: claim.components := by
  induction ds generalizing r i j with
  | nil => cases hd
  | cons d0 ds ih =>
    obtain ⟨howner, -, hok⟩ := declareArtifact_spec (Prod.mk.eta (p :=
      r.declareArtifact outputHash externalCellOrigin d0)).symm
    obtain ⟨j, rfl⟩ : ∃ k, j = k + 1 := ⟨j - 1, by omega⟩
    cases i with
    | zero =>
      cases hd
      obtain ⟨claim, haccepted, hclaimed, -⟩ := hok a (Option.some.inj hi)
      have hlater : ds[j]? = some d' := hd'
      obtain ⟨claim', haccepted', hapart⟩ := declareAll_claimed hclaimed hlater hj
      rw [howner] at haccepted'
      exact ⟨claim, claim', haccepted, haccepted', hapart⟩
    | succ i =>
      have hlater := ih (by omega) hd hd' hi hj
      rwa [howner] at hlater

end Claims

/-! ## The components of the paths -/

section Components

variable {C S : Type} {outputHash : C → ConfigurationHash}
  {externalCellOrigin : Text → Option ExternalCellOrigin} {resolver : BuckOutPathResolver}

theorem components_push (path component : Text) : components '/'
    (pushPathComponent path component) = components '/' path ++ components '/' component := by
  unfold pushPathComponent
  split
  · next h => simp [h, components]
  · next h =>
    split
    · next h' => simp [h', components]
    · next h' => exact components_append_cons h' h

/-- What the cell of a label adds to the path of its package. -/
def execComponents (externalCellOrigin : Text → Option ExternalCellOrigin) (cell : CellName) :
    List Text := components '/' (cellExecPath externalCellOrigin cell)

variable {label : ConfiguredTargetLabel C} {d : Declaration C S}

theorem components_packageExecPath :
    components '/' (bazelPackageExecPath externalCellOrigin label) =
      execComponents externalCellOrigin label.cell ++ label.package.components := by
  rw [bazelPackageExecPath, components_push, label.package.components_asStr]
  rfl

/-- The path of a declaration below its output root, as it is claimed. -/
def claimTail (externalCellOrigin : Text → Option ExternalCellOrigin)
    (label : ConfiguredTargetLabel C) (d : Declaration C S) : List Text :=
  (if d.bazelOutputPathKind = .packageRelative then
    execComponents externalCellOrigin label.cell ++ label.package.components else []) ++
      (ActionsRegistry.declaredPath d).1.components

theorem configurationText_ne_nil : configurationText outputHash label ≠ [] := by
  intro hnil
  have hlen := congrArg List.length hnil
  rw [configurationText, length_append, (outputHash label.cfg).length] at hlen
  simp at hlen

/-- **The claim of a declaration**: its configurations, output root and path. -/
theorem components_claimOf
    (howner : d.bazelOwner = some label) {claim : ForwardRelativePath}
    (h : claimOf outputHash externalCellOrigin d = .ok claim) :
    claim.components = "_bazel".toList :: configurationText outputHash label ::
      d.bazelOutputRoot.asStr :: claimTail externalCellOrigin label d := by
  rw [claimOf, howner] at h
  unfold bazelClaimOutputPath at h
  dsimp only at h
  set path := (ActionsRegistry.declaredPath d).1 with hpath
  set base := "_bazel/".toList ++ configurationText outputHash label ++
    '/' :: d.bazelOutputRoot.asStr with hbase
  have hbaseNil : base ≠ [] := by simp [hbase]
  have hbaseParts : components '/' base =
      ["_bazel".toList, configurationText outputHash label, d.bazelOutputRoot.asStr] := by
    have hcfg : configurationText outputHash label ≠ [] := configurationText_ne_nil
    have hroot : d.bazelOutputRoot.asStr ≠ [] ∧ '/' ∉ d.bazelOutputRoot.asStr := by
      cases d.bazelOutputRoot <;> decide
    have htext : base = "_bazel".toList ++ '/' ::
        (configurationText outputHash label ++ '/' :: d.bazelOutputRoot.asStr) := by simp [hbase]
    rw [htext, components_append_cons (by decide) (by simp), components_append_cons hcfg hroot.1,
      components_of_notMem (by decide) (by decide), components_of_notMem hroot.1 hroot.2,
      components_of_notMem hcfg (slash_notMem_configurationText label)]
    rfl
  set whole := if d.bazelOutputPathKind = .packageRelative then
      if bazelPackageExecPath externalCellOrigin label ≠ [] then
        base ++ '/' :: bazelPackageExecPath externalCellOrigin label else base
    else base with hwhole
  have hwholeNil : whole ≠ [] := by
    rw [hwhole]
    split
    · split
      · simp
      · exact hbaseNil
    · exact hbaseNil
  have hcomponents : components '/' whole = components '/' base ++
      if d.bazelOutputPathKind = .packageRelative then
        execComponents externalCellOrigin label.cell ++ label.package.components else [] := by
    rw [hwhole, ← components_packageExecPath]
    split
    · split
      · next hne => exact components_append_cons hbaseNil hne
      · next hnil =>
        rw [not_not.mp hnil]
        exact (append_nil _).symm
    · rw [append_nil]
  have hclaim := ForwardRelativePath.components_of_new h
  have hpathNil : path.asStr ≠ [] := by
    -- an empty path leaves an empty component at the end
    intro hnil
    have hmem : [] ∈ claim.components := by
      rw [hclaim, hnil, components, if_neg (by simp), splitOn_append_cons]
      simp
    exact isFileName_ne_nil (claim.valid [] hmem) rfl
  rw [hclaim, components_append_cons hwholeNil hpathNil, hcomponents, hbaseParts,
    path.components_asStr, claimTail, ← hpath]
  simp

variable [DecidableEq C]

/-- The path of an artifact below its cell and configurations. -/
def physicalTail (externalCellOrigin : Text → Option ExternalCellOrigin)
    (buckOwner : Option (ConfiguredTargetLabel C)) (label : ConfiguredTargetLabel C)
    (d : Declaration C S) : List Text :=
  let path := (ActionsRegistry.declaredPath d).1.components
  if d.bazelOutputPathKind = .packageRelative then
    let path := if buckOwner = some label then path
      else execComponents externalCellOrigin label.cell ++ label.package.components ++ path
    if label.package.components <+: path then path else label.package.components ++ path
  else path

/-- A path begins with the text of a package exactly if it begins with its components. -/
theorem stripPrefix_package {package : ForwardRelativePath} (path : ForwardRelativePath)
    (hpackage : package.asStr ≠ []) :
    (path.asStr ≠ package.asStr ∧ Text.stripPrefix (package.asStr ++ ['/']) path.asStr = none) ↔
      ¬ package.components <+: path.components := by
  rw [← not_iff_not, not_not, not_and_or, not_not]
  have hcomponents : package.components ≠ [] := fun h =>
    hpackage (ForwardRelativePath.asStr_eq_nil.mpr h)
  constructor
  · rintro (heq | hstrip)
    · rw [ForwardRelativePath.asStr_inj heq]
    · obtain ⟨rest, hrest⟩ := Option.ne_none_iff_exists'.mp hstrip
      have htext : path.asStr = package.asStr ++ '/' :: rest := by
        simpa using Text.stripPrefix_eq_some.mp hrest
      refine ⟨rest.splitOn '/', ?_⟩
      rw [← path.components_asStr, htext, components, if_neg (by simp), splitOn_append_cons,
        ← package.components_asStr, components, if_neg hpackage]
  · rintro ⟨rest, hrest⟩
    rcases eq_or_ne rest [] with rfl | hne
    · left
      rw [append_nil] at hrest
      rw [ForwardRelativePath.asStr, ← hrest]
      rfl
    · have htext : path.asStr = package.asStr ++ ['/'] ++ joinComponents '/' rest := by
        rw [ForwardRelativePath.asStr, ← hrest, joinComponents_append_append hcomponents hne]
        simp [ForwardRelativePath.asStr]
      rw [htext, Text.stripPrefix_append]
      simp

/-- Where the output of a declaration is: at the cell and the configurations of its owner and the
path that the resolver makes. -/
def located (outputHash : C → ConfigurationHash)
    (externalCellOrigin : Text → Option ExternalCellOrigin)
    (buckOwner : Option (ConfiguredTargetLabel C)) (label : ConfiguredTargetLabel C)
    (d : Declaration C S) : List Text :=
  components '/' label.cell.name ++
    configurationText outputHash label :: physicalTail externalCellOrigin buckOwner label d

/-- **The path of an accepted declaration.** -/
theorem components_resolveGen {hasher : List Text → Text} {owner : DeferredHolderKey C}
    {buckOwner : Option (ConfiguredTargetLabel C)} (howner : d.bazelOwner = some label)
    (hmethod : d.pathResolutionMethod = .configuration) {path : ForwardRelativePath} {hidden : Nat}
    (hphysical : bazelPhysicalArtifactPath externalCellOrigin (ActionsRegistry.declaredPath d).1
      (ActionsRegistry.declaredPath d).2 d.bazelOwner buckOwner d.bazelOutputPathKind = .ok (path,
        hidden))
    {contentHash : Option Text} {p : Text}
    (h : resolveGen outputHash hasher resolver ⟨owner, d.bazelOwner, d.bazelOutputRoot,
      d.bazelOutputPathKind, path, d.pathResolutionMethod⟩ contentHash = .ok p) :
    components '/' p = components '/' resolver.buckOut ++ "art".toList ::
      located outputHash externalCellOrigin buckOwner label d := by
  rw [howner] at hphysical h
  rw [hmethod, resolveGen] at h
  have hp := (Except.ok.inj h).symm
  have hart : components '/' "art".toList = ["art".toList] :=
    components_of_notMem (by decide) (by decide)
  have hnil : components '/' ([] : Text) = [] := rfl
  rw [hp, components_push, bazelLogicalPhysicalPath]
  simp only [bazelSharedPhysicalRoot, foldl_cons, foldl_nil, components_push,
    hart, hnil,
    components_of_notMem configurationText_ne_nil (slash_notMem_configurationText label),
    path.components_asStr]
  have hpath : path.components = if d.bazelOutputPathKind = .packageRelative then
      if buckOwner = some label then (ActionsRegistry.declaredPath d).1.components
      else execComponents externalCellOrigin label.cell ++ label.package.components ++
        (ActionsRegistry.declaredPath d).1.components
    else (ActionsRegistry.declaredPath d).1.components := by
    unfold bazelPhysicalArtifactPath at hphysical
    by_cases hkind : d.bazelOutputPathKind = .packageRelative
    · simp only [hkind, ne_eq, not_true_eq_false, if_false, if_true] at hphysical ⊢
      split at hphysical
      · next hbuck =>
        cases hphysical
        rw [if_pos hbuck]
      · next hbuck =>
        rw [if_neg hbuck, ← components_packageExecPath]
        split at hphysical
        · next hnil =>
          cases hphysical
          rw [hnil]
          rfl
        · split at hphysical
          · next hnew =>
            cases hphysical
            rw [← ForwardRelativePath.components_of_new hnew]
            rfl
          · cases hphysical
    · simp only [hkind, ne_eq, not_false_eq_true, if_true, if_false] at hphysical ⊢
      cases hphysical
      rfl
  have hresult : components '/' (if d.bazelOutputPathKind = .packageRelative then
        if label.package.asStr ≠ [] ∧ path.asStr ≠ label.package.asStr ∧
            Text.stripPrefix (label.package.asStr ++ ['/']) path.asStr = none then
          pushPathComponent [] label.package.asStr else []
      else []) ++ path.components = physicalTail externalCellOrigin buckOwner label d := by
    unfold physicalTail
    by_cases hkind : d.bazelOutputPathKind = .packageRelative
    · simp only [hkind, if_true] at hpath ⊢
      rw [← hpath]
      by_cases hnil : label.package.asStr = []
      · rw [if_neg fun h => h.1 hnil, if_pos]
        · rfl
        · rw [ForwardRelativePath.asStr_eq_nil.mp hnil]
          exact nil_prefix
      · have hstrip := stripPrefix_package path hnil
        by_cases hpre : label.package.components <+: path.components
        · rw [if_neg fun h => hstrip.mp h.2 hpre, if_pos hpre]
          rfl
        · rw [if_pos ⟨hnil, hstrip.mpr hpre⟩, if_neg hpre, components_push,
            label.package.components_asStr]
          rfl
    · simp only [hkind, if_false] at hpath ⊢
      rw [hpath]
      rfl
  rw [hresult, located]
  simp

end Components

/-! ## Declarations that do not meet -/

section Separable

variable {C S : Type} {outputHash : C → ConfigurationHash}
  {externalCellOrigin : Text → Option ExternalCellOrigin}
  {buckOwner : Option (ConfiguredTargetLabel C)} {label label' : ConfiguredTargetLabel C}
  {d d' : Declaration C S}

/-- The resolver takes the path for one with the package in front of it. -/
def Elided (buckOwner : Option (ConfiguredTargetLabel C)) (label : ConfiguredTargetLabel C)
    (d : Declaration C S) : Prop :=
  d.bazelOutputPathKind = .packageRelative ∧ buckOwner = some label ∧
    label.package.components ≠ [] ∧
    label.package.components <+: (ActionsRegistry.declaredPath d).1.components

/-- Declarations of one cell and configuration of which the resolver drops the same. -/
structure Alike (externalCellOrigin : Text → Option ExternalCellOrigin)
    (buckOwner : Option (ConfiguredTargetLabel C)) (label label' : ConfiguredTargetLabel C)
    (d d' : Declaration C S) : Prop where
  cell : label.cell = label'.cell
  cfg : label.cfg = label'.cfg
  execCfg : label.execCfg = label'.execCfg
  root : d.bazelOutputRoot = d'.bazelOutputRoot
  elided : ¬ Elided buckOwner label d ∧ ¬ Elided buckOwner label' d'
  exec : execComponents externalCellOrigin label.cell = [] ∨
    d.bazelOutputPathKind = d'.bazelOutputPathKind ∧
      (d.bazelOutputPathKind = .packageRelative →
        label.package = label'.package ∧ (buckOwner = some label ↔ buckOwner = some label'))

theorem Alike.symm (h : Alike externalCellOrigin buckOwner label label' d d') :
    Alike externalCellOrigin buckOwner label' label d' d where
  cell := h.cell.symm
  cfg := h.cfg.symm
  execCfg := h.execCfg.symm
  root := h.root.symm
  elided := h.elided.symm
  exec := by
    rw [← h.cell]
    refine h.exec.imp_right fun ⟨hkind, hpackage⟩ => ⟨hkind.symm, fun hkind' => ?_⟩
    obtain ⟨h1, h2⟩ := hpackage (hkind.trans hkind')
    exact ⟨h1.symm, h2.symm⟩

variable [DecidableEq C]

/-- What keeps two outputs apart: different cells, named by one component, or configurations; what
is claimed, if the resolver drops the same of both; or else their paths. -/
inductive Separable (outputHash : C → ConfigurationHash)
    (externalCellOrigin : Text → Option ExternalCellOrigin)
    (buckOwner : Option (ConfiguredTargetLabel C)) (label label' : ConfiguredTargetLabel C)
    (d d' : Declaration C S) : Prop where
  | elsewhere (cell : '/' ∉ label.cell.name) (cell' : '/' ∉ label'.cell.name)
      (other : label.cell = label'.cell → label.cfg = label'.cfg → label.execCfg ≠ label'.execCfg)
  | alike (alike : Alike externalCellOrigin buckOwner label label' d d')
  | apart (above : ¬ located outputHash externalCellOrigin buckOwner label d <+:
        located outputHash externalCellOrigin buckOwner label' d')
      (below : ¬ located outputHash externalCellOrigin buckOwner label' d' <+:
        located outputHash externalCellOrigin buckOwner label d)

theorem physicalTail_outputDir (hkind : d.bazelOutputPathKind ≠ .packageRelative) :
    physicalTail externalCellOrigin buckOwner label d = claimTail externalCellOrigin label d := by
  unfold physicalTail claimTail
  rw [if_neg hkind, if_neg hkind]
  rfl

theorem physicalTail_own (hkind : d.bazelOutputPathKind = .packageRelative)
    (hbuck : buckOwner = some label) (helided : ¬ Elided buckOwner label d) :
    physicalTail externalCellOrigin buckOwner label d =
      label.package.components ++ (ActionsRegistry.declaredPath d).1.components := by
  simp only [physicalTail, hkind, hbuck, if_true]
  split
  · next hpre =>
    have hnil : label.package.components = [] := by
      by_contra hne
      exact helided ⟨hkind, hbuck, hne, hpre⟩
    rw [hnil]
    rfl
  · rfl

theorem physicalTail_other (hkind : d.bazelOutputPathKind = .packageRelative)
    (hbuck : buckOwner ≠ some label) :
    physicalTail externalCellOrigin buckOwner label d =
      (if label.package.components <+:
          execComponents externalCellOrigin label.cell ++ label.package.components then []
        else label.package.components) ++ claimTail externalCellOrigin label d := by
  have hpre : label.package.components <+: execComponents externalCellOrigin label.cell ++
        label.package.components ++ (ActionsRegistry.declaredPath d).1.components ↔
      label.package.components <+:
        execComponents externalCellOrigin label.cell ++ label.package.components := by
    refine ⟨fun h => ?_, fun h => h.trans (prefix_append _ _)⟩
    exact prefix_of_prefix_length_le h (prefix_append _ _) (by simp)
  simp only [physicalTail, claimTail, hkind, if_true, if_neg hbuck, hpre]
  split
  · rfl
  · rfl

/-- In a cell that adds nothing to the path, the resolver keeps the claimed path. -/
theorem physicalTail_eq_claimTail (hexec : execComponents externalCellOrigin label.cell = [])
    (helided : ¬ Elided buckOwner label d) :
    physicalTail externalCellOrigin buckOwner label d = claimTail externalCellOrigin label d := by
  by_cases hkind : d.bazelOutputPathKind = .packageRelative
  · by_cases hbuck : buckOwner = some label
    · rw [physicalTail_own hkind hbuck helided, claimTail, if_pos hkind, hexec]
      rfl
    · rw [physicalTail_other hkind hbuck, hexec, nil_append, if_pos (prefix_refl _)]
      rfl
  · exact physicalTail_outputDir hkind

theorem claimTail_prefix_of_physicalTail
    (halike : Alike externalCellOrigin buckOwner label label' d d')
    (h : physicalTail externalCellOrigin buckOwner label d <+:
      physicalTail externalCellOrigin buckOwner label' d') :
    claimTail externalCellOrigin label d <+: claimTail externalCellOrigin label' d' := by
  obtain ⟨hcell, -, -, -, ⟨helided, helided'⟩, hexec | ⟨hkinds, hpackage⟩⟩ := halike
  · rwa [physicalTail_eq_claimTail hexec helided,
      physicalTail_eq_claimTail (hcell ▸ hexec) helided'] at h
  · by_cases hkind : d.bazelOutputPathKind = .packageRelative
    · have hkind' := hkinds ▸ hkind
      obtain ⟨hpackages, howners⟩ := hpackage hkind
      by_cases hbuck : buckOwner = some label
      · rw [physicalTail_own hkind hbuck helided,
          physicalTail_own hkind' (howners.mp hbuck) helided'] at h
        rw [claimTail, claimTail, if_pos hkind, if_pos hkind', append_assoc, append_assoc, hcell]
        exact (prefix_append_right_inj _).mpr h
      · rw [physicalTail_other hkind hbuck,
          physicalTail_other hkind' fun h => hbuck (howners.mpr h), hcell, hpackages] at h
        exact (prefix_append_right_inj _).mp h
    · rwa [physicalTail_outputDir hkind, physicalTail_outputDir fun h => hkind (hkinds ▸ h)] at h

/-- Outputs of different cells or configurations are apart. -/
theorem not_prefix_located (hash_inj : ∀ c c', (outputHash c).text = (outputHash c').text → c = c')
    (hcell : '/' ∉ label.cell.name) (hcell' : '/' ∉ label'.cell.name)
    (hother : label.cell = label'.cell → label.cfg = label'.cfg → label.execCfg ≠ label'.execCfg) :
    ¬ located outputHash externalCellOrigin buckOwner label d <+:
      located outputHash externalCellOrigin buckOwner label' d' := by
  rw [located, located, components_of_notMem label.cell.nonempty hcell,
    components_of_notMem label'.cell.nonempty hcell', singleton_append, singleton_append,
    cons_prefix_cons, cons_prefix_cons]
  rintro ⟨hcells, hcfgs, -⟩
  obtain ⟨hcfg, hexec⟩ := configurationText_inj hash_inj hcfgs
  exact hother (CellName.ext hcells) hcfg hexec

/-- Outputs of which the resolver drops the same are apart if the claims are. -/
theorem Alike.not_prefix_located (h : Alike externalCellOrigin buckOwner label label' d d')
    (howner : d.bazelOwner = some label) (howner' : d'.bazelOwner = some label')
    {claim claim' : ForwardRelativePath} (hclaim : claimOf outputHash externalCellOrigin d =
      .ok claim) (hclaim' : claimOf outputHash externalCellOrigin d' = .ok claim')
    (hapart : ¬ claim.components <+: claim'.components) :
    ¬ located outputHash externalCellOrigin buckOwner label d <+:
      located outputHash externalCellOrigin buckOwner label' d' := by
  have hcfgs : configurationText outputHash label = configurationText outputHash label' := by
    rw [configurationText, configurationText, h.cfg, h.execCfg]
  rw [located, located, h.cell, prefix_append_right_inj, cons_prefix_cons]
  rintro ⟨-, htails⟩
  refine hapart ?_
  rw [components_claimOf howner hclaim, components_claimOf howner' hclaim', hcfgs, h.root]
  simp only [cons_prefix_cons, true_and]
  exact claimTail_prefix_of_physicalTail h htails

end Separable

/-! ## Declarations that meet -/

/-- A target of the package `lib` of a cell. -/
def ownTarget (cell : Text) (hcell : cell ≠ []) : ConfiguredTargetLabel Unit :=
  { libTarget "a".toList with cell := ⟨cell, hcell⟩ }

/-- A declaration for the owner of the registry. -/
def declaration (cell : Text) (hcell : cell ≠ []) (path : ForwardRelativePath)
    (root : BazelOutputRoot) (kind : BazelOutputPathKind) : Declaration Unit Unit where
  subdir := none
  path := path
  declarationLocation := none
  pathResolutionMethod := .configuration
  bazelOwner := some (ownTarget cell hcell)
  bazelOutputRoot := root
  bazelOutputPathKind := kind

def newRegistry (cell : Text) (hcell : cell ≠ []) : ActionsRegistry Unit Unit :=
  ⟨.base (.targetLabel (ownTarget cell hcell)), [], .empty⟩

def libOutPath : ForwardRelativePath := ⟨["lib".toList, "out".toList], by decide⟩

/-- Both declarations are accepted, and the outputs are at one path. -/
def Share (cell : Text) (hcell : cell ≠ []) (d d' : Declaration Unit Unit) : Prop :=
  ∃ a a' p, (newRegistry cell hcell).declareAll (fun _ => zeroHash) (fun _ => none) [d, d'] =
      [.ok a, .ok a'] ∧
    resolveGen (fun _ => zeroHash) List.flatten buckOut a.path none = .ok p ∧
    resolveGen (fun _ => zeroHash) List.flatten buckOut a'.path none = .ok p

end Bz.BuckOut
