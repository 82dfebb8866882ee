import Bz.Encoding
import Mathlib.Data.String.Basic

/-!
# The fingerprint of the discovery inputs

`bzlmod_discovery_result_fingerprint` of `bz_common/src/bazel/bzlmod.rs` hashes the inputs of the
discovery of modules; a result on disk is reused when its fingerprint is the one of the present
inputs.  What is fed to the hasher is the concatenation of the fields.  Strings carry their lengths,
but the maps do not carry the number of their entries, and the last two of them consist of strings
only.

Principal results: `fingerprint_preimage_ne`, when inputs are told apart;
`fingerprint_preimage_collisions`: a commit and a module text are not.
-/

namespace Bz.Bzlmod.Fingerprint

open Std (ExtTreeMap TransCmp LawfulEqCmp)
open Encoding List

/-! ## The inputs -/

/-- A string as it is held in memory: its length is a machine word. -/
structure Str where
  value : String
  fits : value.utf8ByteSize < 2 ^ 64

/-- A vector as it is held in memory. -/
structure Vec (α : Type) where
  toList : List α
  fits : toList.length < 2 ^ 64

/-- Strings are ordered by their values. -/
instance : Ord Str := ⟨compareOn Str.value⟩

instance : TransCmp (compare : Str → Str → Ordering) :=
  inferInstanceAs (TransCmp (compareOn Str.value))

instance : LawfulEqCmp (compare : Str → Str → Ordering) where
  eq_of_compare {a b} h := by
    have hvalue : a.value = b.value := compare_eq_iff_eq.mp h
    cases a
    cases b
    cases hvalue
    rfl

abbrev YankedKey := Str × Str

instance : Ord YankedKey := lexOrd

/-- A `patch_strip`: it is read as an `i32` that is not negative. -/
structure PatchStrip where
  value : UInt32
  fits : value < 0x80000000

/-- `GitObjectFormat::Sha1.check`. -/
def checkSha1 (commit : String) : Bool :=
  commit.utf8ByteSize == 40 && commit.toList.all fun c =>
    c.isDigit || ('a' ≤ c && c ≤ 'f') || ('A' ≤ c && c ≤ 'F')

/-- A commit that `git_override` accepts. -/
structure Commit where
  text : Str
  checked : checkSha1 text.value

/-- `BazelDep`, as far as the fingerprint reads it. -/
structure BazelDep where
  name : Str
  version : Str
  apparentName : Option Str

/-- `BzlmodRootPatch`. -/
structure BzlmodRootPatch where
  path : Str
  content : Str

/-- `BzlmodArchiveOverride`. -/
structure BzlmodArchiveOverride where
  moduleName : Str
  urls : Vec Str
  integrity : Str
  stripPrefix : Option Str
  archiveType : Option Str
  patches : Vec BzlmodRootPatch
  patchStrip : Option PatchStrip

/-- `BzlmodSingleVersionOverride`. -/
structure BzlmodSingleVersionOverride where
  version : Option Str
  patches : Vec BzlmodRootPatch
  patchStrip : Option PatchStrip

/-- `BzlmodGitOverride`. -/
structure BzlmodGitOverride where
  moduleName : Str
  remote : Str
  commit : Commit

/-- `BzlmodLocalPathOverride`, with the texts of its module file and of what that includes. -/
structure BzlmodLocalPathOverride where
  moduleName : Str
  path : Str
  moduleText : Str
  includedModuleTexts : ExtTreeMap Str Str

/-- `BzlmodRootResolutionInput`, as far as the fingerprint reads it. -/
structure BzlmodRootResolutionInput where
  rootModuleName : Str
  rootDeps : Vec BazelDep
  archiveOverrides : ExtTreeMap Str BzlmodArchiveOverride
  singleVersionOverrides : ExtTreeMap Str BzlmodSingleVersionOverride
  gitOverrides : ExtTreeMap Str BzlmodGitOverride
  localPathOverrides : ExtTreeMap Str BzlmodLocalPathOverride

/-- `BzlmodRegistryValue`, as far as the fingerprint reads it. -/
structure BzlmodRegistryValue where
  url : Str
  registryFileHashes : ExtTreeMap Str (Option Str)
  selectedYankedVersions : ExtTreeMap YankedKey Str

/-! ## The bytes fed to the hasher -/

/-- `bzlmod_fingerprint_str`: the number of bytes, and the bytes. -/
def bzlmodFingerprintStr (value : Str) : List UInt8 :=
  leBytes 8 value.value.utf8ByteSize ++ value.value.toByteArray.data.toList

/-- `bzlmod_fingerprint_opt_str`: a tag in front. -/
def bzlmodFingerprintOptStr : Option Str → List UInt8
  | some value => 1 :: bzlmodFingerprintStr value
  | none => [0]

/-- `bzlmod_fingerprint_dep`. -/
def bzlmodFingerprintDep (dep : BazelDep) : List UInt8 :=
  bzlmodFingerprintStr dep.name ++ (bzlmodFingerprintStr dep.version ++
    bzlmodFingerprintOptStr dep.apparentName)

def bzlmodFingerprintPatch (patch : BzlmodRootPatch) : List UInt8 :=
  bzlmodFingerprintStr patch.path ++ bzlmodFingerprintStr patch.content

/-- A vector with its length in front. -/
def fingerprintVec {α : Type} (enc : α → List UInt8) (vec : Vec α) : List UInt8 :=
  leBytes 8 vec.toList.length ++ vec.toList.flatMap enc

/-- `bzlmod_fingerprint_patches`. -/
def bzlmodFingerprintPatches (patches : Vec BzlmodRootPatch) : List UInt8 :=
  fingerprintVec bzlmodFingerprintPatch patches

/-- `patch_strip.unwrap_or(u32::MAX).to_le_bytes()`. -/
def fingerprintPatchStrip (patchStrip : Option PatchStrip) : List UInt8 :=
  leBytes 4 ((patchStrip.map PatchStrip.value).getD 0xffffffff).toNat

/-- An entry of `registry_file_hashes`. -/
def fingerprintFileHash (entry : Str × Option Str) : List UInt8 :=
  bzlmodFingerprintStr entry.1 ++ bzlmodFingerprintOptStr entry.2

/-- An entry of `selected_yanked_versions`. -/
def fingerprintYanked (entry : YankedKey × Str) : List UInt8 :=
  bzlmodFingerprintStr entry.1.1 ++ (bzlmodFingerprintStr entry.1.2 ++
    bzlmodFingerprintStr entry.2)

/-- An entry of `archive_overrides`. -/
def fingerprintArchiveOverride (entry : Str × BzlmodArchiveOverride) : List UInt8 :=
  bzlmodFingerprintStr entry.1 ++ (bzlmodFingerprintStr entry.2.moduleName ++
    (fingerprintVec bzlmodFingerprintStr entry.2.urls ++
    (bzlmodFingerprintStr entry.2.integrity ++
    (bzlmodFingerprintOptStr entry.2.stripPrefix ++
    (bzlmodFingerprintOptStr entry.2.archiveType ++
    (bzlmodFingerprintPatches entry.2.patches ++
    fingerprintPatchStrip entry.2.patchStrip))))))

/-- An entry of `single_version_overrides`. -/
def fingerprintSingleVersionOverride (entry : Str × BzlmodSingleVersionOverride) : List UInt8 :=
  bzlmodFingerprintStr entry.1 ++ (bzlmodFingerprintOptStr entry.2.version ++
    (bzlmodFingerprintPatches entry.2.patches ++ fingerprintPatchStrip entry.2.patchStrip))

/-- An entry of `git_overrides`. -/
def fingerprintGitOverride (entry : Str × BzlmodGitOverride) : List UInt8 :=
  bzlmodFingerprintStr entry.1 ++ (bzlmodFingerprintStr entry.2.moduleName ++
    (bzlmodFingerprintStr entry.2.remote ++ bzlmodFingerprintStr entry.2.commit.text))

/-- An entry of `included_module_texts`. -/
def fingerprintIncluded (entry : Str × Str) : List UInt8 :=
  bzlmodFingerprintStr entry.1 ++ bzlmodFingerprintStr entry.2

/-- An entry of `local_path_overrides`. -/
def fingerprintLocalPathOverride (entry : Str × BzlmodLocalPathOverride) : List UInt8 :=
  bzlmodFingerprintStr entry.1 ++ (bzlmodFingerprintStr entry.2.moduleName ++
    (bzlmodFingerprintStr entry.2.path ++ (bzlmodFingerprintStr entry.2.moduleText ++
    entry.2.includedModuleTexts.toList.flatMap fingerprintIncluded)))

def bzlmodDiscoveryResultCacheVersion : UInt32 := 1

/-- Everything that `bzlmod_discovery_result_fingerprint` feeds to the hasher.  `tools` is the text
of `MODULE.tools`, a constant of the program. -/
def bzlmodDiscoveryResultPreimage (tools : Str) (root : BzlmodRootResolutionInput)
    (registry : BzlmodRegistryValue) : List UInt8 :=
  leBytes 4 bzlmodDiscoveryResultCacheVersion.toNat ++ (bzlmodFingerprintStr registry.url ++
    (registry.registryFileHashes.toList.flatMap fingerprintFileHash ++
    (registry.selectedYankedVersions.toList.flatMap fingerprintYanked ++
    (bzlmodFingerprintStr root.rootModuleName ++
    (fingerprintVec bzlmodFingerprintDep root.rootDeps ++
    (bzlmodFingerprintStr tools ++
    (root.archiveOverrides.toList.flatMap fingerprintArchiveOverride ++
    (root.singleVersionOverrides.toList.flatMap fingerprintSingleVersionOverride ++
    (root.gitOverrides.toList.flatMap fingerprintGitOverride ++
    root.localPathOverrides.toList.flatMap fingerprintLocalPathOverride)))))))))

/-! ## What the bytes determine -/

theorem delimited_str : Delimited bzlmodFingerprintStr := by
  rintro ⟨a, ha⟩ ⟨b, hb⟩ - r s h
  simp only [bzlmodFingerprintStr, append_assoc] at h
  obtain ⟨hlen, h⟩ := leBytes_append_inj ha hb h
  obtain ⟨hbytes, hrest⟩ := append_inj h hlen
  have hab : a = b := String.toByteArray_inj.mp (ByteArray.ext (Array.toList_inj.mp hbytes))
  exact ⟨Str.mk.injEq .. ▸ hab, hrest⟩

theorem delimited_optStr : Delimited bzlmodFingerprintOptStr := by
  rintro (_ | a) (_ | b) - r s h
  · exact ⟨rfl, (List.cons.inj h).2⟩
  · exact absurd (List.cons.inj h).1 (by decide)
  · exact absurd (List.cons.inj h).1 (by decide)
  · simpa [bzlmodFingerprintOptStr, delimited_str.iff] using h

theorem delimited_vec {α : Type} {enc : α → List UInt8} (h : Delimited enc) :
    Delimited (fingerprintVec enc) := by
  rintro ⟨l, hl⟩ ⟨l', hl'⟩ - r s heq
  simp only [fingerprintVec, append_assoc] at heq
  obtain ⟨rfl, hrest⟩ := h.counted hl hl' heq
  exact ⟨rfl, hrest⟩

theorem delimited_dep : Delimited bzlmodFingerprintDep := by
  rintro ⟨n, v, a⟩ ⟨n', v', a'⟩ - r s h
  simpa [bzlmodFingerprintDep, delimited_str.iff, delimited_optStr.iff, and_assoc] using h

theorem delimited_patch : Delimited bzlmodFingerprintPatch := by
  rintro ⟨p, c⟩ ⟨p', c'⟩ - r s h
  simpa [bzlmodFingerprintPatch, delimited_str.iff, and_assoc] using h

theorem delimited_patches : Delimited bzlmodFingerprintPatches :=
  delimited_vec delimited_patch

theorem delimited_fileHash : Delimited fingerprintFileHash := by
  rintro ⟨file, hash⟩ ⟨file', hash'⟩ - r s h
  simpa [fingerprintFileHash, delimited_str.iff, delimited_optStr.iff, and_assoc] using h

theorem delimited_yanked : Delimited fingerprintYanked := by
  rintro ⟨⟨name, version⟩, reason⟩ ⟨⟨name', version'⟩, reason'⟩ - r s h
  simpa [fingerprintYanked, delimited_str.iff, and_assoc] using h

variable {r s : List UInt8} {registry registry' : BzlmodRegistryValue}
  {root root' : BzlmodRootResolutionInput} {tools : Str} {κ ν : Type} [Ord κ]

/-- The entries of two maps with equally many of them. -/
theorem entries_eq [TransCmp (compare : κ → κ → Ordering)]
    {enc : κ × ν → List UInt8} (h : Delimited enc) {t t' : ExtTreeMap κ ν}
    (hsize : t.size = t'.size) (heq : t.toList.flatMap enc ++ r = t'.toList.flatMap enc ++ s) :
    t = t' ∧ r = s := by
  rw [← ExtTreeMap.length_toList, ← ExtTreeMap.length_toList] at hsize
  obtain ⟨hlist, hrest⟩ :=
    h.flatMap (forall₂_iff_get.mpr ⟨hsize, fun _ _ _ => trivial⟩) heq
  exact ⟨ExtTreeMap.toList_inj.mp hlist, hrest⟩

/-- No `patch_strip` is the number that stands for an absent one. -/
theorem delimited_patchStrip : Delimited fingerprintPatchStrip := by
  intro a b _ r s h
  obtain ⟨hvalue, hrest⟩ := leBytes_append_inj (UInt32.toNat_lt _) (UInt32.toNat_lt _) h
  refine ⟨?_, hrest⟩
  have hget := UInt32.toNat_inj.mp hvalue
  cases a with
  | none =>
    cases b with
    | none => rfl
    | some b =>
      have hfits : (0xffffffff : UInt32) < 0x80000000 := hget.trans_lt b.fits
      exact absurd hfits (by decide)
  | some a =>
    cases b with
    | none =>
      have hfits : (0xffffffff : UInt32) < 0x80000000 := hget.symm.trans_lt a.fits
      exact absurd hfits (by decide)
    | some b => exact congrArg some (PatchStrip.mk.injEq .. ▸ hget)

theorem delimited_archive : Delimited fingerprintArchiveOverride := by
  rintro ⟨name, moduleName, urls, integrity, stripPrefix, archiveType, patches, patchStrip⟩
    ⟨name', moduleName', urls', integrity', stripPrefix', archiveType', patches', patchStrip'⟩ -
    r s h
  simp only [fingerprintArchiveOverride, append_assoc, delimited_str.iff, delimited_optStr.iff,
    (delimited_vec delimited_str).iff, delimited_patches.iff, delimited_patchStrip.iff] at h
  obtain ⟨rfl, rfl, rfl, rfl, rfl, rfl, rfl, rfl, hrest⟩ := h
  exact ⟨rfl, hrest⟩

theorem delimited_singleVersion : Delimited fingerprintSingleVersionOverride := by
  rintro ⟨name, version, patches, patchStrip⟩ ⟨name', version', patches', patchStrip'⟩ - r s h
  simp only [fingerprintSingleVersionOverride, append_assoc, delimited_str.iff,
    delimited_optStr.iff, delimited_patches.iff, delimited_patchStrip.iff] at h
  obtain ⟨rfl, rfl, rfl, rfl, hrest⟩ := h
  exact ⟨rfl, hrest⟩

/-! ## The strings of the last maps -/

/-- The strings that are written for an override with a repository. -/
def gitStrings (entry : Str × BzlmodGitOverride) : List Str :=
  [entry.1, entry.2.moduleName, entry.2.remote, entry.2.commit.text]

/-- The strings that are written for an override with a path. -/
def localPathStrings (entry : Str × BzlmodLocalPathOverride) : List Str :=
  [entry.1, entry.2.moduleName, entry.2.path, entry.2.moduleText] ++
    entry.2.includedModuleTexts.toList.flatMap fun included => [included.1, included.2]

/-- The strings of `git_overrides` and `local_path_overrides`, in a row. -/
def lastStrings (root : BzlmodRootResolutionInput) : List Str :=
  root.gitOverrides.toList.flatMap gitStrings ++
    root.localPathOverrides.toList.flatMap localPathStrings

theorem flatMap_gitStrings (entry : Str × BzlmodGitOverride) :
    (gitStrings entry).flatMap bzlmodFingerprintStr = fingerprintGitOverride entry := by
  simp [gitStrings, fingerprintGitOverride]

theorem flatMap_localPathStrings (entry : Str × BzlmodLocalPathOverride) :
    (localPathStrings entry).flatMap bzlmodFingerprintStr = fingerprintLocalPathOverride entry := by
  simp [localPathStrings, fingerprintLocalPathOverride, flatMap_assoc]
  rfl

theorem flatMap_lastStrings : (lastStrings root).flatMap bzlmodFingerprintStr =
    root.gitOverrides.toList.flatMap fingerprintGitOverride ++
      root.localPathOverrides.toList.flatMap fingerprintLocalPathOverride := by
  simp only [lastStrings, flatMap_append, flatMap_assoc, flatMap_gitStrings,
    flatMap_localPathStrings]

theorem bzlmodFingerprintStr_ne_nil (value : Str) : bzlmodFingerprintStr value ≠ [] := by
  simp [bzlmodFingerprintStr, leBytes]

/-! ## The inputs that are told apart -/

/-- The maps that are written without a count, but the last two, have equally many entries. -/
structure SameSizes (root root' : BzlmodRootResolutionInput)
    (registry registry' : BzlmodRegistryValue) : Prop where
  fileHashes : registry.registryFileHashes.size = registry'.registryFileHashes.size
  yanked : registry.selectedYankedVersions.size = registry'.selectedYankedVersions.size
  archives : root.archiveOverrides.size = root'.archiveOverrides.size
  singleVersions : root.singleVersionOverrides.size = root'.singleVersionOverrides.size

/-- The roots differ in the last two maps only, whose strings in a row are the same. -/
def Confused (root root' : BzlmodRootResolutionInput) : Prop :=
  { root with
    gitOverrides := root'.gitOverrides, localPathOverrides := root'.localPathOverrides } = root' ∧
  lastStrings root = lastStrings root' ∧ root ≠ root'

/-- What the bytes determine, section by section. -/
theorem preimage_eq (hsizes : SameSizes root root' registry registry')
    (h : bzlmodDiscoveryResultPreimage tools root registry =
      bzlmodDiscoveryResultPreimage tools root' registry') :
    registry = registry' ∧ { root with
      gitOverrides := root'.gitOverrides, localPathOverrides := root'.localPathOverrides } = root' ∧
      lastStrings root = lastStrings root' := by
  obtain ⟨name', deps', archives', singleVersions', gits', localPaths'⟩ := root'
  obtain ⟨url, fileHashes, yanked⟩ := registry
  obtain ⟨hfileHashes, hyanked, harchives, hsingle⟩ := hsizes
  simp only [bzlmodDiscoveryResultPreimage] at h
  have h0 := append_cancel_left h
  obtain ⟨rfl, h1⟩ := delimited_str.iff.mp h0
  obtain ⟨rfl, h2⟩ := entries_eq delimited_fileHash hfileHashes h1
  obtain ⟨rfl, h3⟩ := entries_eq delimited_yanked hyanked h2
  obtain ⟨rfl, h4⟩ := delimited_str.iff.mp h3
  obtain ⟨rfl, h5⟩ := (delimited_vec delimited_dep).iff.mp h4
  obtain ⟨-, h6⟩ := delimited_str.iff.mp h5
  obtain ⟨rfl, h7⟩ := entries_eq delimited_archive harchives h6
  obtain ⟨rfl, h8⟩ := entries_eq delimited_singleVersion hsingle h7
  refine ⟨rfl, rfl, delimited_str.flatMap_injective bzlmodFingerprintStr_ne_nil ?_⟩
  simp only [flatMap_lastStrings]
  exact h8

theorem preimage_eq_of_confused (h : Confused root root') :
    bzlmodDiscoveryResultPreimage tools root registry =
      bzlmodDiscoveryResultPreimage tools root' registry := by
  obtain ⟨hsame, hlast, -⟩ := h
  have hbytes := congrArg (·.flatMap bzlmodFingerprintStr) hlast
  simp only [flatMap_lastStrings] at hbytes
  rw [bzlmodDiscoveryResultPreimage, hbytes, ← hsame]
  rfl

/-- **Different inputs, different bytes**, for inputs whose maps before the last two have equally
many entries, unless they differ only in the last two maps and the strings of these are the same
when read in a row. -/
theorem fingerprint_preimage_ne (tools : Str) (root root' : BzlmodRootResolutionInput)
    (registry registry' : BzlmodRegistryValue) (hsizes : SameSizes root root' registry registry') :
    (root ≠ root' ∨ registry ≠ registry' → bzlmodDiscoveryResultPreimage tools root registry ≠
        bzlmodDiscoveryResultPreimage tools root' registry') ↔
      ¬ (registry = registry' ∧ Confused root root') := by
  constructor
  · rintro h ⟨rfl, hconfused⟩
    exact h (.inl hconfused.2.2) (preimage_eq_of_confused hconfused)
  · intro h hne heq
    obtain ⟨hregistry, hsame, hlast⟩ := preimage_eq hsizes heq
    refine h ⟨hregistry, hsame, hlast, ?_⟩
    rintro rfl
    exact hne.elim (· rfl) (· hregistry)

/-- A root module with an override of each kind; the single version override has a patch. -/
def patchedRoot (patch : Str) : BzlmodRootResolutionInput where
  rootModuleName := ⟨"root", by decide⟩
  rootDeps := ⟨[⟨⟨"a", by decide⟩, ⟨"1.0", by decide⟩, none⟩], by decide⟩
  archiveOverrides := ExtTreeMap.empty.insert ⟨"b", by decide⟩
    ⟨⟨"b", by decide⟩, ⟨[⟨"https://b.zip", by decide⟩], by decide⟩, ⟨"sha256-", by decide⟩,
      some ⟨"b", by decide⟩, none, ⟨[], by decide⟩, none⟩
  singleVersionOverrides := ExtTreeMap.empty.insert ⟨"a", by decide⟩
    ⟨some ⟨"1.1", by decide⟩, ⟨[⟨⟨"a.patch", by decide⟩, patch⟩], (by decide : 1 < 2 ^ 64)⟩,
      some ⟨1, by decide⟩⟩
  gitOverrides := ∅
  localPathOverrides := ExtTreeMap.empty.insert ⟨"c", by decide⟩
    ⟨⟨"c", by decide⟩, ⟨"third_party/c", by decide⟩, ⟨"include('//:d.MODULE.bazel')", by decide⟩,
      ExtTreeMap.empty.insert ⟨"//:d.MODULE.bazel", by decide⟩ ⟨"", by decide⟩⟩

/-- A registry of which two files are known, one of them to be absent. -/
def knownRegistry : BzlmodRegistryValue where
  url := ⟨"https://bcr", by decide⟩
  registryFileHashes := (ExtTreeMap.empty.insert ⟨"https://bcr/a", by decide⟩
    (some ⟨"00", by decide⟩)).insert ⟨"https://bcr/b", by decide⟩ none
  selectedYankedVersions := ExtTreeMap.empty.insert
    (⟨"a", by decide⟩, ⟨"1.0", by decide⟩) ⟨"broken", by decide⟩

/-- Another text of a patch. -/
theorem fingerprint_preimage_ne_patched :
    bzlmodDiscoveryResultPreimage ⟨"", by decide⟩ (patchedRoot ⟨"+x", by decide⟩) knownRegistry ≠
      bzlmodDiscoveryResultPreimage ⟨"", by decide⟩ (patchedRoot ⟨"+y", by decide⟩)
        knownRegistry := by
  have hpatches : (patchedRoot ⟨"+x", by decide⟩).singleVersionOverrides.toList.map
      (fun e => e.2.patches.toList.map (·.content.value)) ≠
        (patchedRoot ⟨"+y", by decide⟩).singleVersionOverrides.toList.map
          (fun e => e.2.patches.toList.map (·.content.value)) := by decide
  have hsizes : SameSizes (patchedRoot ⟨"+x", by decide⟩) (patchedRoot ⟨"+y", by decide⟩)
      knownRegistry knownRegistry := ⟨rfl, rfl, rfl, rfl⟩
  refine (fingerprint_preimage_ne _ _ _ _ _ hsizes).mpr ?_ (.inl fun h => ?_)
  · rintro ⟨-, hsame, -⟩
    exact hpatches (congrArg (fun root => root.singleVersionOverrides.toList.map
      fun e => e.2.patches.toList.map (·.content.value)) hsame)
  · exact hpatches (congrArg (fun root => root.singleVersionOverrides.toList.map
      fun e => e.2.patches.toList.map (·.content.value)) h)

/-- A root module without dependencies and overrides. -/
def bareRoot : BzlmodRootResolutionInput :=
  ⟨⟨"root", by decide⟩, ⟨[], by decide⟩, ∅, ∅, ∅, ∅⟩

/-- Forty digits: a commit, and the text of a module file. -/
def digits : Str := ⟨"1111111111111111111111111111111111111111", by decide⟩

/-- An override with a path. -/
def localPathRoot : BzlmodRootResolutionInput :=
  { bareRoot with
    localPathOverrides := ExtTreeMap.empty.insert ⟨"m", by decide⟩
      ⟨⟨"m", by decide⟩, ⟨"third_party/m", by decide⟩, digits, ∅⟩ }

/-- An override with a repository, whose commit is the text of the module. -/
def gitRoot : BzlmodRootResolutionInput :=
  { bareRoot with
    gitOverrides := ExtTreeMap.empty.insert ⟨"m", by decide⟩
      ⟨⟨"m", by decide⟩, ⟨"third_party/m", by decide⟩, digits, by decide +kernel⟩ }

/-- **Different inputs, the same bytes.**  An override with a repository and one with a path are not
told apart. -/
theorem fingerprint_preimage_collisions :
    gitRoot ≠ localPathRoot ∧ bzlmodDiscoveryResultPreimage ⟨"", by decide⟩ gitRoot knownRegistry =
      bzlmodDiscoveryResultPreimage ⟨"", by decide⟩ localPathRoot knownRegistry := by
  refine ⟨fun h => ?_, rfl⟩
  exact absurd (congrArg (·.gitOverrides.size) h) (by decide)

end Bz.Bzlmod.Fingerprint
