import Mathlib.Data.List.Infix
import Bz.Encoding
import Bz.Text

/-!
# Labels and output paths

Forward relative paths (`bz_fs/src/paths/forward_rel_path.rs`), the names of targets
(`bz_core/src/target/name.rs`), configured target labels, the keys of analyses
(`bz_core/src/deferred`) and `BuildArtifactPath` (`bz_core/src/fs/buck_out_path.rs`).

A text is a list of characters.  A forward relative path is kept as its components, which are file
names; configurations are an arbitrary type with a function that gives their output hashes.
-/

namespace Bz.BuckOut

open Encoding List

/-- A text as its characters. -/
abbrev Text := List Char

/-! ## Paths -/

/-- `verify_file_name`. -/
def isFileName (name : Text) : Bool :=
  name ≠ [] && name ≠ ['.'] && name ≠ ['.', '.'] && !name.contains '/' && !name.contains '\\'

variable {name : Text}

theorem isFileName_ne_nil (h : isFileName name) : name ≠ [] := by
  rintro rfl
  cases h

theorem slash_notMem_of_isFileName (h : isFileName name) : '/' ∉ name := by
  simp only [isFileName, Bool.and_eq_true, Bool.not_eq_true', contains_eq_mem,
    decide_eq_false_iff_not] at h
  exact h.1.2

/-- A path of file names. -/
structure ForwardRelativePath where
  components : List Text
  valid : ∀ c ∈ components, isFileName c = true

/-- Why a text is no such path. -/
inductive ForwardRelativePathError where
  | pathNotRelative (path : Text)
  | pathNotNormalized (path : Text)

namespace ForwardRelativePath

variable {p q : ForwardRelativePath}

theorem ext (h : p.components = q.components) : p = q := by
  cases p
  cases q
  cases h
  rfl

instance : DecidableEq ForwardRelativePath := fun p q =>
  decidable_of_iff (p.components = q.components) ⟨ext, fun h => h ▸ rfl⟩

def empty : ForwardRelativePath := ⟨[], by simp⟩

def new (path : Text) : Except ForwardRelativePathError ForwardRelativePath :=
  if path = [] then .ok empty
  else if path.head? = some '/' then .error (.pathNotRelative path)
  else if h : ∀ c ∈ path.splitOn '/', isFileName c = true then .ok ⟨path.splitOn '/', h⟩
  else .error (.pathNotNormalized path)

def asStr (p : ForwardRelativePath) : Text := joinComponents '/' p.components

def join (p q : ForwardRelativePath) : ForwardRelativePath :=
  ⟨p.components ++ q.components, fun c hc => (mem_append.mp hc).elim (p.valid c) (q.valid c)⟩

theorem components_asStr (p : ForwardRelativePath) : Encoding.components '/' p.asStr =
    p.components :=
  components_join (fun c hc => slash_notMem_of_isFileName (p.valid c hc))
    fun c hc => isFileName_ne_nil (p.valid c hc)

theorem asStr_eq_nil : p.asStr = [] ↔ p.components = [] :=
  joinComponents_eq_nil fun c hc => isFileName_ne_nil (p.valid c hc)

theorem asStr_inj (h : p.asStr = q.asStr) : p = q := by
  apply ext
  rw [← p.components_asStr, h, q.components_asStr]

theorem components_of_new {path : Text} (h : new path = .ok p) :
    p.components = Encoding.components '/' path := by
  unfold new at h
  split at h
  · next hnil =>
    cases h
    rw [hnil]
    rfl
  · next hnil =>
    split at h
    · cases h
    · split at h
      · cases h
        rw [Encoding.components, if_neg hnil]
      · cases h

end ForwardRelativePath

/-! ## Names of targets -/

def eqSignSubst : Text := "_eqsb_".toList

/-- Why a text is no target name. -/
inductive TargetNameError where
  | invalidName (name : Text)
  | foundProvidersLabel (name : Text)
  | labelHasSpecialCharacter (name : Text) (c : Char)
  | dotDotDot
  | invalidPattern (name pattern : Text)

namespace TargetName

def validChars : Text :=
  "ABCDEFGHIJKLMNOPQRSTUVWXYZabcdefghijklmnopqrstuvwxyz0123456789_,.=-\\/~@!+$".toList

def badNameError (name : Text) : TargetNameError :=
  match Text.splitOnce ['['] name with
  | some (_, p) => if p.contains ']' then .foundProvidersLabel name else .invalidName name
  | none => .invalidName name

/-- `TargetName::verify`; `softErrors`: whether soft errors are errors. -/
def verify (softErrors : Bool) (name : Text) : Except TargetNameError Unit :=
  if name = [] ∨ ¬ name.all validChars.contains then .error (badNameError name)
  else if eqSignSubst <:+: name then .error (.invalidPattern name eqSignSubst)
  else if name = "...".toList then .error .dotDotDot
  else if ',' ∈ name ∧ softErrors then .error (.labelHasSpecialCharacter name ',')
  else if '$' ∈ name ∧ softErrors then .error (.labelHasSpecialCharacter name '$')
  else .ok ()

theorem verify_eq_ok {softErrors : Bool} : verify softErrors name = .ok () ↔
    name ≠ [] ∧ (∀ c ∈ name, validChars.contains c) ∧ ¬ eqSignSubst <:+: name ∧
      name ≠ "...".toList ∧ ¬ (',' ∈ name ∧ softErrors) ∧ ¬ ('$' ∈ name ∧ softErrors) := by
  unfold verify
  split
  · next h =>
    simp only [reduceCtorEq, false_iff]
    rintro ⟨hne, hchars, -⟩
    exact h.elim (absurd · hne) fun hall => absurd (all_eq_true.mpr hchars) hall
  · next h =>
    obtain ⟨hne, hall⟩ := not_or.mp h
    have hchars := all_eq_true.mp (not_not.mp hall)
    repeat' split
    all_goals simp_all

end TargetName

/-! ## Labels -/

/-- The name of a cell. -/
structure CellName where
  name : Text
  nonempty : name ≠ []

def isHexDigit (c : Char) : Bool := c.isDigit || ('a' ≤ c && c ≤ 'f')

/-- `output_hash` of a configuration. -/
structure ConfigurationHash where
  text : Text
  length : text.length = 16
  hex : ∀ c ∈ text, isHexDigit c = true

theorem CellName.ext {a b : CellName} (h : a.name = b.name) : a = b := by
  cases a
  cases b
  cases h
  rfl

instance : DecidableEq CellName := fun a b =>
  decidable_of_iff (a.name = b.name) ⟨CellName.ext, fun h => h ▸ rfl⟩

/-- `ConfiguredTargetLabel`; `C` is the type of configurations. -/
structure ConfiguredTargetLabel (C : Type) where
  cell : CellName
  package : ForwardRelativePath
  name : Text
  cfg : C
  execCfg : Option C
  deriving DecidableEq

/-! ## Keys -/

/-- How a path is resolved. -/
inductive BuckOutPathKind where
  | configuration
  | contentHash
  deriving DecidableEq

/-- Why a path is not resolved. -/
inductive PathResolutionError where
  | contentBasedPathWithNoContentHash (path : ForwardRelativePath)

/-- An anonymous target or a BXL label: what it answers. -/
structure BaseDeferredKeyDyn (C : Type) where
  configuredLabel : Option (ConfiguredTargetLabel C)
  makeHashedPath : (base root : Text) → (actionKey : Option Text) → ForwardRelativePath →
    BuckOutPathKind → (contentHash : Option Text) → Except PathResolutionError Text

/-- The owner of an analysis. -/
inductive BaseDeferredKey (C : Type) where
  | targetLabel (label : ConfiguredTargetLabel C)
  | dyn (key : BaseDeferredKeyDyn C)

def BaseDeferredKey.configuredLabel {C : Type} :
    BaseDeferredKey C → Option (ConfiguredTargetLabel C)
  | .targetLabel label => some label
  | .dyn key => key.configuredLabel

/-- An analysis or a dynamic lambda of one. -/
inductive DeferredHolderKey (C : Type) where
  | base (key : BaseDeferredKey C)
  | dynamicLambda (holder : DeferredHolderKey C) (index : Nat)

namespace DeferredHolderKey

variable {C : Type}

def owner : DeferredHolderKey C → BaseDeferredKey C
  | base key => key
  | dynamicLambda holder _ => holder.owner

/-- `DeferredHolderKey::action_key`: the indices of the dynamic lambdas. -/
def actionKey : DeferredHolderKey C → Option Text
  | base _ => none
  | dynamicLambda holder index =>
    some (holder.actionKey.getD [] ++ '_' :: (Nat.toDigits 10 index))

theorem slash_notMem_actionKey {key : DeferredHolderKey C} {k : Text} (h : key.actionKey = some k) :
    '/' ∉ k := by
  induction key generalizing k with
  | base key => cases h
  | dynamicLambda holder index ih =>
    cases h
    intro hmem
    rcases mem_append.mp hmem with hmem | hmem
    · cases hk : holder.actionKey with
      | none => simp [hk] at hmem
      | some k' =>
        rw [hk] at hmem
        exact ih hk hmem
    · rcases mem_cons.mp hmem with hmem | hmem
      · cases hmem
      · have := Nat.isDigit_of_mem_toDigits (by omega) (by omega) hmem
        simp at this

end DeferredHolderKey

/-! ## Output paths -/

/-- The root of an output. -/
inductive BazelOutputRoot where
  | bin
  | genfiles
  deriving DecidableEq

def BazelOutputRoot.asStr : BazelOutputRoot → Text
  | bin => "bin".toList
  | genfiles => "genfiles".toList

/-- What a path is relative to. -/
inductive BazelOutputPathKind where
  | packageRelative
  | outputDirRelative
  deriving DecidableEq

/-- The path of a build artifact. -/
structure BuildArtifactPath (C : Type) where
  owner : DeferredHolderKey C
  bazelOwner : Option (ConfiguredTargetLabel C)
  bazelOutputRoot : BazelOutputRoot
  bazelOutputPathKind : BazelOutputPathKind
  path : ForwardRelativePath
  pathResolutionMethod : BuckOutPathKind

end Bz.BuckOut
