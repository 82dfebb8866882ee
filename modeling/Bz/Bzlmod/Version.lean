import Mathlib.Data.String.Basic
import Bz.Fallible

/-!
# Versions of bzlmod modules

`parse_bzlmod_version` and `bzlmod_version_cmp` of `bz_common/src/bazel/bzlmod/validation.rs`.

Principal results: `BzlmodVersion.cmp_eq_compareLex`: versions are compared one feature after
another, which is a total preorder; `version_cmp_preorder`.
-/

namespace Bz.Bzlmod

open List

/-- A part of a version between dots: a number with its digits, or a text. -/
inductive BzlmodVersionIdentifier where
  | digits (number : Nat) (raw : String)
  | text (value : String)

/-- A parsed version. -/
structure BzlmodVersion where
  release : List BzlmodVersionIdentifier
  prerelease : List BzlmodVersionIdentifier

/-- Why a text is no version. -/
inductive VersionError where
  | buildMetadata (build : String)
  | release (release : String)
  | prerelease (prerelease : String)
  | emptyIdentifier (value : String)
  | tooLarge (identifier : String)
  deriving DecidableEq

/-! ## Parsing -/

/-- `split_once(c).unwrap_or((value, ""))`. -/
def splitOnce (c : Char) (value : List Char) : List Char × List Char :=
  (value.takeWhile (· ≠ c), (value.dropWhile (· ≠ c)).drop 1)

/-- The number that ASCII digits stand for. -/
def digitsValue (digits : List Char) : Nat :=
  digits.foldl (fun n c => 10 * n + (c.toNat - '0'.toNat)) 0

def parseIdentifier (value identifier : List Char) :
    Except VersionError BzlmodVersionIdentifier :=
  if identifier = [] then .error (.emptyIdentifier (.ofList value))
  else if identifier.all Char.isDigit then
    if digitsValue identifier < 2 ^ 64 then
      .ok (.digits (digitsValue identifier) (.ofList identifier))
    else .error (.tooLarge (.ofList identifier))
  else .ok (.text (.ofList identifier))

def parseBzlmodVersionIdentifiers (value : List Char) :
    Except VersionError (List BzlmodVersionIdentifier) :=
  (value.splitOn '.').mapM (parseIdentifier value)

def parseBzlmodVersion (version : String) : Except VersionError BzlmodVersion :=
  if version = "" then .ok ⟨[], []⟩
  else
    let (version, build) := splitOnce '+' version.toList
    let (release, prerelease) := splitOnce '-' version
    if build ≠ [] ∧ ¬ build.all (fun c => c.isAlphanum || c == '.' || c == '-') then
      .error (.buildMetadata (.ofList build))
    else if release = [] ∨ ¬ release.all (fun c => c.isAlphanum || c == '.') then
      .error (.release (.ofList release))
    else if prerelease ≠ [] ∧ ¬ prerelease.all (fun c => c.isAlphanum || c == '.' || c == '-') then
      .error (.prerelease (.ofList prerelease))
    else do
      let release ← parseBzlmodVersionIdentifiers release
      let prerelease ← if prerelease = [] then .ok [] else parseBzlmodVersionIdentifiers prerelease
      .ok ⟨release, prerelease⟩

/-! ## Comparison -/

/-- `bzlmod_identifier_cmp`. -/
def BzlmodVersionIdentifier.cmp : BzlmodVersionIdentifier → BzlmodVersionIdentifier → Ordering
  | digits a rawA, digits b rawB => (compare a b).then (compare rawA rawB)
  | digits _ _, text _ => .lt
  | text _, digits _ _ => .gt
  | text a, text b => compare a b

/-- `bzlmod_identifier_lex_cmp`: the common part first, then the lengths. -/
def identifierLexCmp : List BzlmodVersionIdentifier → List BzlmodVersionIdentifier → Ordering
  | [], [] => .eq
  | [], _ :: _ => .lt
  | _ :: _, [] => .gt
  | a :: as, b :: bs => match a.cmp b with
    | .eq => identifierLexCmp as bs
    | o => o

/-- The comparison of parsed versions: the empty version is the greatest, and a version without
prerelease is greater than one with it. -/
def BzlmodVersion.cmp (a b : BzlmodVersion) : Ordering :=
  match a.release.isEmpty, b.release.isEmpty with
  | true, true => .eq
  | true, false => .gt
  | false, true => .lt
  | false, false => match identifierLexCmp a.release b.release with
    | .eq => match a.prerelease.isEmpty, b.prerelease.isEmpty with
      | true, true => .eq
      | true, false => .gt
      | false, true => .lt
      | false, false => identifierLexCmp a.prerelease b.prerelease
    | o => o

/-- `bzlmod_version_cmp`. -/
def bzlmodVersionCmp (a b : String) : Except VersionError Ordering := do
  let a ← parseBzlmodVersion a
  let b ← parseBzlmodVersion b
  .ok (a.cmp b)

/-- The version can be parsed. -/
def Parseable (version : String) : Prop := ∃ v, parseBzlmodVersion version = .ok v

instance (version : String) : Decidable (Parseable version) :=
  match h : parseBzlmodVersion version with
  | .ok v => .isTrue ⟨v, h⟩
  | .error _ => .isFalse fun ⟨_, hv⟩ => nomatch h.symm.trans hv

example : bzlmodVersionCmp "1.10.0" "1.9.0+build" = .ok .gt := by decide

/-! ## The comparison is a total preorder -/

open Std

namespace BzlmodVersionIdentifier

/-- Numbers come before texts. -/
def rank : BzlmodVersionIdentifier → Nat
  | digits _ _ => 0
  | text _ => 1

def number : BzlmodVersionIdentifier → Nat
  | digits n _ => n
  | text _ => 0

def raw : BzlmodVersionIdentifier → String
  | digits _ raw => raw
  | text value => value

instance : Ord BzlmodVersionIdentifier := ⟨cmp⟩

theorem cmp_eq_compareLex :
    cmp = compareLex (compareOn rank) (compareLex (compareOn number) (compareOn raw)) := by
  funext a b
  cases a <;> cases b <;> simp [cmp, compareLex, compareOn] <;> rfl

instance : TransOrd BzlmodVersionIdentifier := by
  show TransCmp cmp
  rw [cmp_eq_compareLex]
  infer_instance

instance : LawfulEqOrd BzlmodVersionIdentifier where
  eq_of_compare {a b} h := by
    replace h : cmp a b = .eq := h
    cases a <;> cases b <;> simp_all [cmp, Ordering.then_eq_eq]

end BzlmodVersionIdentifier

theorem identifierLexCmp_eq_compare (as bs : List BzlmodVersionIdentifier) :
    identifierLexCmp as bs = compare as bs := by
  induction as generalizing bs with
  | nil => cases bs <;> rfl
  | cons a as ih =>
    cases bs with
    | nil => rfl
    | cons b bs =>
      show (match a.cmp b with | .eq => identifierLexCmp as bs | o => o) =
        List.compareLex compare (a :: as) (b :: bs)
      rw [List.compareLex_cons_cons]
      show _ = (a.cmp b).then (compare as bs)
      cases a.cmp b
      · rfl
      · exact ih bs
      · rfl

namespace BzlmodVersion

/-- The prerelease counts only beside a release. -/
def effectivePrerelease (v : BzlmodVersion) : List BzlmodVersionIdentifier :=
  if v.release.isEmpty then [] else v.prerelease

theorem cmp_eq_compareLex : cmp = compareLex (compareOn fun v => v.release.isEmpty)
      (compareLex (compareOn release) (compareLex (compareOn fun v => v.effectivePrerelease.isEmpty)
        (compareOn effectivePrerelease))) := by
  funext a b
  obtain ⟨ra, pa⟩ := a
  obtain ⟨rb, pb⟩ := b
  simp only [cmp, compareLex, compareOn, effectivePrerelease, identifierLexCmp_eq_compare]
  cases ra with
  | nil =>
    cases rb <;> simp
    rfl
  | cons a ra =>
    cases rb with
    | nil => rfl
    | cons b rb =>
      cases hr : compare (a :: ra) (b :: rb) <;> cases pa <;> cases pb <;> simp <;> rfl

instance : TransCmp cmp := by
  rw [cmp_eq_compareLex]
  infer_instance

end BzlmodVersion

/-! ## Versions as texts -/

def releaseText (version : String) : List Char := (splitOnce '-' (splitOnce '+' version.toList).1).1

/-- The text after the first `-`; there may be none. -/
def prereleaseText (version : String) : List Char :=
  (splitOnce '-' (splitOnce '+' version.toList).1).2

/-- The identifiers of a release or a prerelease, of which an empty text has none. -/
def identifiersOf (value : List Char) : Except VersionError (List BzlmodVersionIdentifier) :=
  if value = [] then .ok [] else parseBzlmodVersionIdentifiers value

theorem map_raw_of_mapM {value : List Char} {l : List (List Char)}
    {ids : List BzlmodVersionIdentifier} (h : l.mapM (parseIdentifier value) = .ok ids) :
    ids.map (·.raw.toList) = l := by
  induction l generalizing ids with
  | nil =>
    cases h
    rfl
  | cons identifier l ih =>
    rw [mapM_cons] at h
    obtain ⟨id, hid, h⟩ := Fallible.bind_eq_ok.mp h
    obtain ⟨rest, hrest, h⟩ := Fallible.bind_eq_ok.mp h
    cases h
    have hraw : id.raw.toList = identifier := by
      unfold parseIdentifier at hid
      split_ifs at hid <;> cases hid <;> exact String.toList_ofList
    rw [map_cons, hraw, ih hrest]

/-- The identifiers determine the text, as they are determined by it. -/
theorem identifiersOf_eq_iff {value value' : List Char} {ids ids' : List BzlmodVersionIdentifier}
    (h : identifiersOf value = .ok ids) (h' : identifiersOf value' = .ok ids') :
    ids = ids' ↔ value = value' := by
  have htext {value : List Char} {ids : List BzlmodVersionIdentifier}
      (h : identifiersOf value = .ok ids) : ['.'].intercalate (ids.map (·.raw.toList)) = value := by
    unfold identifiersOf at h
    split at h
    · next hvalue =>
      cases h
      rw [hvalue]
      rfl
    · rw [map_raw_of_mapM h, intercalate_splitOn]
  constructor
  · rintro rfl
    rw [← htext h, ← htext h']
  · rintro rfl
    exact Except.ok.inj (h.symm.trans h')

theorem identifiersOf_of_parse {version : String} {v : BzlmodVersion}
    (h : parseBzlmodVersion version = .ok v) :
    identifiersOf (releaseText version) = .ok v.release ∧
      identifiersOf (prereleaseText version) = .ok v.prerelease ∧
      (version = "" ↔ v.release = []) ∧ (v.release = [] → v.prerelease = []) := by
  unfold parseBzlmodVersion at h
  split at h
  · next hempty =>
    cases h
    rw [hempty]
    exact ⟨rfl, rfl, iff_of_true rfl rfl, fun _ => rfl⟩
  next hempty =>
    dsimp only at h
    split_ifs at h with _ hrelease _ hprerelease
    all_goals
      obtain ⟨release, hreleased, h⟩ := Fallible.bind_eq_ok.mp h
      obtain ⟨prerelease, hprereleased, h⟩ := Fallible.bind_eq_ok.mp h
      cases h
      have hids : identifiersOf (releaseText version) = .ok release :=
        (if_neg fun hnil => hrelease (.inl hnil)).trans hreleased
      have hne : release ≠ [] := fun hnil => hrelease (.inl
        ((identifiersOf_eq_iff hids (rfl : identifiersOf [] = .ok [])).mp hnil))
      refine ⟨hids, ?_, iff_of_false hempty hne, fun hnil => absurd hnil hne⟩
    · exact (if_pos hprerelease).trans hprereleased
    · exact (if_neg hprerelease).trans hprereleased

namespace BzlmodVersion

theorem cmp_eq_eq {v w : BzlmodVersion} (hv : v.release = [] → v.prerelease = [])
    (hw : w.release = [] → w.prerelease = []) : v.cmp w = .eq ↔ v = w := by
  have hpre {v : BzlmodVersion} (hv : v.release = [] → v.prerelease = []) :
      v.effectivePrerelease = v.prerelease := by
    unfold effectivePrerelease
    split
    · next h => exact (hv (List.isEmpty_iff.mp h)).symm
    · rfl
  constructor
  · intro h
    simp only [cmp_eq_compareLex, compareLex_eq_eq, compareOn, hpre hv, hpre hw,
      LawfulEqOrd.compare_eq_iff_eq] at h
    cases v
    cases w
    simp_all
  · rintro rfl
    exact ReflCmp.compare_self

end BzlmodVersion

/-- **The order of versions**, a total preorder of which the classes are the texts without build
metadata. -/
theorem version_cmp_preorder (a b c : String) (ha : Parseable a) (hb : Parseable b)
    (hc : Parseable c) : ∃ ab bc ac,
    (bzlmodVersionCmp a b = .ok ab ∧ bzlmodVersionCmp b a = .ok ab.swap ∧
      bzlmodVersionCmp b c = .ok bc ∧ bzlmodVersionCmp a c = .ok ac) ∧
    (ab.isLE → bc.isLE → ac.isLE) ∧
    (a = "" → b ≠ "" → ab = .gt) ∧
    (releaseText a = releaseText b → prereleaseText a ≠ [] → prereleaseText b = [] → ab = .lt) ∧
    (ab = .eq ↔ releaseText a = releaseText b ∧ prereleaseText a = prereleaseText b) := by
  obtain ⟨va, hva⟩ := ha
  obtain ⟨vb, hvb⟩ := hb
  obtain ⟨vc, hvc⟩ := hc
  have hcmp {x y : String} {v w : BzlmodVersion} (hx : parseBzlmodVersion x = .ok v)
      (hy : parseBzlmodVersion y = .ok w) : bzlmodVersionCmp x y = .ok (v.cmp w) := by
    rw [bzlmodVersionCmp, hx, hy]
    rfl
  obtain ⟨hra, hpa, hea, hna⟩ := identifiersOf_of_parse hva
  obtain ⟨hrb, hpb, heb, hnb⟩ := identifiersOf_of_parse hvb
  refine ⟨va.cmp vb, vb.cmp vc, va.cmp vc, ⟨hcmp hva hvb, ?_, hcmp hvb hvc, hcmp hva hvc⟩,
    Std.TransCmp.isLE_trans, ?_, ?_, ?_⟩
  · rw [hcmp hvb hva, ← OrientedCmp.eq_swap]
  · intro hempty hnonempty
    have hb := isEmpty_eq_false_iff.mpr (mt heb.mpr hnonempty)
    simp [BzlmodVersion.cmp, hea.mp hempty, hb]
  · intro hrelease hsome hnone
    rw [← identifiersOf_eq_iff hra hrb] at hrelease
    have ha := mt (identifiersOf_eq_iff hpa (rfl : identifiersOf [] = .ok [])).mp hsome
    have hb := (identifiersOf_eq_iff hpb (rfl : identifiersOf [] = .ok [])).mpr hnone
    have hne := isEmpty_eq_false_iff.mpr (mt hna ha)
    simp [BzlmodVersion.cmp, ← hrelease, hne, identifierLexCmp_eq_compare,
      isEmpty_eq_false_iff.mpr ha, hb]
  · rw [BzlmodVersion.cmp_eq_eq hna hnb, ← identifiersOf_eq_iff hra hrb,
      ← identifiersOf_eq_iff hpa hpb, BzlmodVersion.mk.injEq]

/-- A prerelease comes before its release, and both before the empty version. -/
theorem version_cmp_preorder_build : ∃ bc ac : Ordering,
    bzlmodVersionCmp "1.0-rc+x" "1.0+y" = .ok .lt ∧ bzlmodVersionCmp "1.0+y" "" = .ok bc ∧
      bzlmodVersionCmp "1.0-rc+x" "" = .ok ac ∧ (bc.isLE → ac.isLE) := by
  obtain ⟨ab, bc, ac, ⟨hab, -, hbc, hac⟩, htrans, -, hpre, -⟩ :=
    version_cmp_preorder "1.0-rc+x" "1.0+y" "" (by decide) (by decide) (by decide)
  obtain rfl := hpre (by decide) (by decide) (by decide)
  exact ⟨bc, ac, hab, hbc, hac, htrans rfl⟩

end Bz.Bzlmod
