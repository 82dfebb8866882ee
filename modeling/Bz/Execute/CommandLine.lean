import Bz.Bzlmod.Fingerprint
import Bz.Execute.Digest

/-!
# The fingerprint of an expanded command line

`fingerprint_expanded_command_line_for_local_action_cache` of `bz_action_impl` hashes the command
line of an action and the digests of its parameter files.  Every argument is followed by its length
and every group of arguments by their number, so what is fed to the hasher can be read from its end.
Of a digest the bytes and the size are written, not the algorithm, which the configuration that all
digests of a daemon have in common gives for each length.

Principal result: `fingerprint_expanded_command_line`: the bytes determine the command line and the
digests.
-/

namespace Bz.Execute

open Encoding List
open Bzlmod.Fingerprint (Str)

/-- A vector whose elements take more than one byte: twice its length is a machine word. -/
abbrev WideVec (α : Type) := { l : List α // 2 * l.length < 2 ^ 64 }

/-- A command line. -/
structure ExpandedCommandLine where
  exe : WideVec Str
  args : WideVec Str
  env : WideVec (Str × Str)

/-- The bytes fed to the hasher, and the number of arguments since the last count. -/
structure ExpandedCommandLineFingerprinter where
  digest : List UInt8
  count : Nat

def asStrBytes (s : Str) : List UInt8 := s.value.toByteArray.data.toList

namespace ExpandedCommandLineFingerprinter

def new : ExpandedCommandLineFingerprinter := ⟨[], 0⟩

variable (f : ExpandedCommandLineFingerprinter)

def pushCount : ExpandedCommandLineFingerprinter :=
  ⟨f.digest ++ leBytes 8 f.count, 0⟩

def pushArgBytes (bytes : List UInt8) : ExpandedCommandLineFingerprinter :=
  ⟨f.digest ++ bytes ++ leBytes 8 bytes.length, f.count + 1⟩

def pushArg (s : Str) : ExpandedCommandLineFingerprinter :=
  f.pushArgBytes (asStrBytes s)

/-- The bytes are not hashed here; `none` is the panic. -/
def finalize : Option (List UInt8) :=
  if f.count > 0 then none else some f.digest

end ExpandedCommandLineFingerprinter

open ExpandedCommandLineFingerprinter

/-- `fingerprint_param_file_digest`. -/
def fingerprintParamFileDigest (f : ExpandedCommandLineFingerprinter) (digest : FileDigest) :
    ExpandedCommandLineFingerprinter :=
  (f.pushArgBytes digest.digest.bytes).pushArgBytes (leBytes 8 digest.size.toNat)

/-- `fingerprint_param_files`. -/
def fingerprintParamFiles (f : ExpandedCommandLineFingerprinter) (paramFiles : List FileDigest) :
    ExpandedCommandLineFingerprinter :=
  (paramFiles.foldl fingerprintParamFileDigest f).pushCount

/-- `fingerprint_expanded_command_line_for_local_action_cache`: the bytes that are hashed. -/
def fingerprintExpandedCommandLine (expanded : ExpandedCommandLine)
    (paramFiles : WideVec FileDigest) : Option (List UInt8) :=
  let f := (expanded.exe.1.foldl pushArg new).pushCount
  let f := (expanded.args.1.foldl pushArg f).pushCount
  let f := (expanded.env.1.foldl (fun f entry => (f.pushArg entry.1).pushArg entry.2) f).pushCount
  (fingerprintParamFiles f paramFiles.1).finalize

/-! ## Groups of arguments -/

variable {α : Type} {a b w w' : List UInt8} {ws ws' : List (List UInt8)}

def word (bytes : List UInt8) : List UInt8 := bytes ++ leBytes 8 bytes.length

def group (ws : List (List UInt8)) : List UInt8 := ws.flatMap word ++ leBytes 8 ws.length

theorem foldl_pushArgBytes (f : ExpandedCommandLineFingerprinter) :
    ws.foldl pushArgBytes f = ⟨f.digest ++ ws.flatMap word, f.count + ws.length⟩ := by
  induction ws generalizing f with
  | nil => simp
  | cons w ws ih => simp [ih, pushArgBytes, word, Nat.add_comm, Nat.add_left_comm]

/-- A loop that pushes the words of each element, and then the count, writes a group. -/
theorem pushCount_foldl (words : α → List (List UInt8)) {l : List α}
    {push : ExpandedCommandLineFingerprinter → α → ExpandedCommandLineFingerprinter}
    (hpush : push = fun f x => (words x).foldl pushArgBytes f) :
    (l.foldl push ⟨a, 0⟩).pushCount = ⟨a ++ group (l.flatMap words), 0⟩ := by
  rw [hpush, ← foldl_flatMap, foldl_pushArgBytes]
  simp [pushCount, group]

theorem append_leBytes_inj {m n : Nat} (hm : m < 2 ^ 64) (hn : n < 2 ^ 64)
    (h : a ++ leBytes 8 m = b ++ leBytes 8 n) : a = b ∧ m = n := by
  obtain ⟨hab, hbytes⟩ := append_inj' h (by simp only [length_leBytes])
  exact ⟨hab, leBytes_inj hm hn hbytes⟩

theorem append_word_inj (hw : w.length < 2 ^ 64) (hw' : w'.length < 2 ^ 64)
    (h : a ++ word w = b ++ word w') : a = b ∧ w = w' := by
  simp only [word, ← append_assoc] at h
  obtain ⟨h, hlen⟩ := append_leBytes_inj hw hw' h
  exact append_inj' h hlen

/-- The lengths of the arguments and their number are machine words. -/
def Fits (ws : List (List UInt8)) : Prop := ws.length < 2 ^ 64 ∧ ∀ w ∈ ws, w.length < 2 ^ 64

theorem append_group_inj (hws : Fits ws) (hws' : Fits ws') (h : a ++ group ws = b ++ group ws') :
    a = b ∧ ws = ws' := by
  simp only [group, ← append_assoc] at h
  obtain ⟨h, hlen⟩ := append_leBytes_inj hws.1 hws'.1 h
  exact append_flatMap_inj append_word_inj hws.2 hws'.2 hlen h

/-! ## What the bytes determine -/

def groups (c : ExpandedCommandLine) (files : WideVec FileDigest) : List (List (List UInt8)) :=
  [c.exe.1.flatMap fun s => [asStrBytes s], c.args.1.flatMap fun s => [asStrBytes s],
    c.env.1.flatMap fun entry => [asStrBytes entry.1, asStrBytes entry.2],
    files.1.flatMap fun d => [d.digest.bytes, leBytes 8 d.size.toNat]]

theorem fingerprint_eq (c : ExpandedCommandLine) (files : WideVec FileDigest) :
    fingerprintExpandedCommandLine c files = some ((groups c files).flatMap group) := by
  rw [fingerprintExpandedCommandLine, fingerprintParamFiles, new,
    pushCount_foldl fun s => [asStrBytes s], pushCount_foldl fun s => [asStrBytes s],
    pushCount_foldl fun entry : Str × Str => [asStrBytes entry.1, asStrBytes entry.2],
    pushCount_foldl fun d => [d.digest.bytes, leBytes 8 d.size.toNat]]
  · simp [finalize, groups]
  all_goals rfl

theorem fits_flatMap {words : α → List (List UInt8)} (l : WideVec α)
    (h : ∀ x, (words x).length ≤ 2 ∧ ∀ w ∈ words x, w.length < 2 ^ 64) :
    Fits (l.1.flatMap words) := by
  refine ⟨lt_of_le_of_lt ?_ l.2, fun w hw => ?_⟩
  · induction l.1 with
    | nil => simp
    | cons x l ih =>
      have := (h x).1
      simp only [flatMap_cons, length_append, length_cons]
      omega
  · obtain ⟨x, -, hw⟩ := mem_flatMap.mp hw
    exact (h x).2 w hw

theorem fits_groups (c : ExpandedCommandLine) (files : WideVec FileDigest) :
    ∀ ws ∈ groups c files, Fits ws := by
  have hs (s : Str) : (asStrBytes s).length < 2 ^ 64 := s.fits
  have hdigest (d : FileDigest) : d.digest.bytes.length < 2 ^ 64 := by
    obtain ⟨⟨x, hx⟩ | ⟨x, hx⟩ | ⟨x, hx⟩ | ⟨x, hx⟩, size⟩ := d <;> simp [RawDigest.bytes, hx]
  simp only [groups, forall_mem_cons]
  refine ⟨fits_flatMap c.exe ?_, fits_flatMap c.args ?_, fits_flatMap c.env ?_,
    fits_flatMap files ?_, by simp⟩ <;> simp_all [length_leBytes]

theorem asStrBytes_injective : Function.Injective asStrBytes := by
  rintro ⟨s, hs⟩ ⟨t, ht⟩ h
  have hst : s = t := String.toByteArray_inj.mp (ByteArray.ext (Array.toList_inj.mp h))
  exact Str.mk.injEq .. ▸ hst

theorem flatMap_pair_inj {f g : α → List UInt8} {l l' : List α} :
    l.flatMap (fun x => [f x, g x]) = l'.flatMap (fun x => [f x, g x]) ↔
      l.map (fun x => (f x, g x)) = l'.map fun x => (f x, g x) := by
  induction l generalizing l' with
  | nil => cases l' <;> simp
  | cons x l ih =>
    cases l' with
    | nil => simp
    | cons y l' => simp [ih, and_assoc]

/-- What the bytes tell about a digest. -/
def FileDigest.fingerprinted (d : FileDigest) : List UInt8 × UInt64 := (d.digest.bytes, d.size)

theorem groups_eq_iff {c c' : ExpandedCommandLine} {files files' : WideVec FileDigest} :
    groups c files = groups c' files' ↔
      c = c' ∧ files.1.map (·.fingerprinted) = files'.1.map (·.fingerprinted) := by
  have henv : Function.Injective fun entry : Str × Str =>
      (asStrBytes entry.1, asStrBytes entry.2) :=
    asStrBytes_injective.prodMap asStrBytes_injective
  have hsize : Function.Injective fun d : List UInt8 × UInt64 => (d.1, leBytes 8 d.2.toNat) := by
    rintro ⟨bytes, m⟩ ⟨bytes', n⟩ h
    obtain ⟨hbytes, h⟩ := Prod.mk.inj h
    exact Prod.ext hbytes (UInt64.toNat_inj.mp (leBytes_inj m.toNat_lt n.toNat_lt h))
  rw [← map_inj_right hsize, map_map, map_map]
  obtain ⟨⟨exe, _⟩, ⟨args, _⟩, ⟨env, _⟩⟩ := c
  obtain ⟨⟨exe', _⟩, ⟨args', _⟩, ⟨env', _⟩⟩ := c'
  simp [groups, flatMap_pair_inj, map_inj_right henv, ← map_eq_flatMap, and_assoc,
    map_inj_right asStrBytes_injective, FileDigest.fingerprinted, Function.comp_def]

/-- The digests of one configuration are known from their texts, and so from what is written. -/
theorem FileDigest.OfConfig.eq_of_fingerprinted {config : CasDigestConfig} {d d' : FileDigest}
    {algo algo' : DigestAlgorithm} (h : d.OfConfig config algo) (h' : d'.OfConfig config algo')
    (heq : d.fingerprinted = d'.fingerprinted) : d = d' := by
  obtain ⟨hbytes, hsize⟩ := Prod.mk.inj heq
  have hparse := parseDigestWithoutSize_toText h.1 h.2
  rw [RawDigest.toText, hbytes, ← RawDigest.toText,
    parseDigestWithoutSize_toText h'.1 h'.2] at hparse
  cases d
  cases d'
  cases hparse
  cases hsize
  rfl

theorem eq_of_map_fingerprinted {config : CasDigestConfig} {l l' : List FileDigest}
    (hconfig : ∀ d ∈ l ++ l', ∃ algo, d.OfConfig config algo)
    (h : l.map (·.fingerprinted) = l'.map (·.fingerprinted)) : l = l' := by
  induction l generalizing l' with
  | nil => exact (map_eq_nil_iff.mp h.symm).symm
  | cons d l ih =>
    obtain ⟨d', l', rfl, hd, hl⟩ := map_eq_cons_iff.mp h.symm
    obtain ⟨algo, halgo⟩ := hconfig d (by simp)
    obtain ⟨algo', halgo'⟩ := hconfig d' (by simp)
    rw [halgo.eq_of_fingerprinted halgo' hd.symm, ih (fun e he => hconfig e ?_) hl.symm]
    rcases mem_append.mp he with he | he <;> simp [he]

/-- **The fingerprint of an expanded command line** does not panic, and is fed the same bytes only
for the same command line and digests of parameter files, all of one configuration. -/
theorem fingerprint_expanded_command_line (config : CasDigestConfig) (c c' : ExpandedCommandLine)
    (files files' : WideVec FileDigest)
    (hconfig : ∀ d ∈ files.1 ++ files'.1, ∃ algo, d.OfConfig config algo) :
    (fingerprintExpandedCommandLine c files).isSome ∧
      (fingerprintExpandedCommandLine c files = fingerprintExpandedCommandLine c' files' ↔
        c = c' ∧ files = files') := by
  rw [fingerprint_eq, fingerprint_eq, Option.some.injEq]
  refine ⟨rfl, fun h => ?_, fun ⟨hc, hfiles⟩ => by rw [hc, hfiles]⟩
  have hgroups := (append_flatMap_inj append_group_inj (fits_groups c files) (fits_groups c' files')
    rfl (a := []) (b := []) h).2
  obtain ⟨hc, hmap⟩ := groups_eq_iff.mp hgroups
  exact ⟨hc, Subtype.ext (eq_of_map_fingerprinted hconfig hmap)⟩

/-- A parameter file with a digest of either algorithm of a configuration. -/
theorem fingerprint_expanded_command_line_two_algorithms :
    let c : ExpandedCommandLine :=
      ⟨⟨[⟨"cc", by decide⟩], by decide⟩, ⟨[⟨"@p", by decide⟩], by decide⟩, ⟨[], by decide⟩⟩
    let files : WideVec FileDigest := ⟨[⟨.sha1 ⟨replicate 20 0, rfl⟩, 1⟩], by decide⟩
    let files' : WideVec FileDigest := ⟨[⟨.sha256 ⟨replicate 32 0, rfl⟩, 1⟩], by decide⟩
    fingerprintExpandedCommandLine c files ≠ fingerprintExpandedCommandLine c files' := by
  intro c files files' h
  have hfiles := (fingerprint_expanded_command_line ⟨.sha256, some .sha1, some .sha256⟩ c c files
    files' (forall_mem_cons.mpr ⟨⟨.sha1, rfl, rfl⟩, forall_mem_cons.mpr ⟨⟨.sha256, rfl, rfl⟩,
      forall_mem_nil _⟩⟩)).2.mp h
  simp [files, files'] at hfiles

end Bz.Execute
