import Bz.BuckOut.Labels
import Bz.Fallible

/-!
# Digests

The digests of `bz_common/src/cas_digest.rs` and what remote execution sees of them
(`bz_execute/src/digest.rs`).  The wire form of a digest is the hexadecimal text of its bytes and
its size; it does not name the algorithm, which the reader takes from its configuration and the
length of the text.

The hash functions themselves are a parameter, `Hashes`.

Principal results: `CasDigestConfig.new_spec`, what a configuration is; `fromGrpcWithAlgo_toGrpc`, a
digest of an algorithm of the configuration comes back from its wire form.
-/

namespace Bz.Execute

open BuckOut Fallible List

/-! ## Hexadecimal texts -/

def hexDigit (n : Nat) : Char := "0123456789abcdef".toList.getD n '0'

def hexEncode (bytes : List UInt8) : Text :=
  bytes.flatMap fun b => [hexDigit (b.toNat / 16), hexDigit (b.toNat % 16)]

/-- Why a text is no hexadecimal number. -/
inductive FromHexError where
  | invalidHexCharacter (c : UInt8) (index : Nat)
  | oddLength
  | invalidStringLength

/-- The value of an ASCII hexadecimal digit. -/
def hexVal (c : UInt8) (index : Nat) : Except FromHexError Nat :=
  if 48 ≤ c.toNat ∧ c.toNat ≤ 57 then .ok (c.toNat - 48)
  else if 65 ≤ c.toNat ∧ c.toNat ≤ 70 then .ok (c.toNat - 65 + 10)
  else if 97 ≤ c.toNat ∧ c.toNat ≤ 102 then .ok (c.toNat - 97 + 10)
  else .error (.invalidHexCharacter c index)

def hexDecodeFrom (index : Nat) : List UInt8 → Except FromHexError (List UInt8)
  | high :: low :: rest => do
    let h ← hexVal high index
    let l ← hexVal low (index + 1)
    let bytes ← hexDecodeFrom (index + 2) rest
    return UInt8.ofNat (h * 16 + l) :: bytes
  | _ => .ok []

theorem length_of_hexDecodeFrom {index : Nat} {data bytes : List UInt8}
    (h : hexDecodeFrom index data = .ok bytes) : bytes.length = data.length / 2 := by
  fun_induction hexDecodeFrom index data generalizing bytes with
  | case1 index high low rest ih =>
    obtain ⟨v, -, h⟩ := bind_eq_ok.mp h
    obtain ⟨w, -, h⟩ := bind_eq_ok.mp h
    obtain ⟨bs, hbs, h⟩ := bind_eq_ok.mp h
    cases h
    simp only [length_cons, ih hbs]
    omega
  | case2 data index hdata =>
    cases h
    cases data with
    | nil => rfl
    | cons a data =>
      cases data with
      | nil => simp
      | cons b rest => exact absurd rfl (hdata a b rest)

/-- An array of bytes. -/
abbrev ByteArr (n : Nat) := { bytes : List UInt8 // bytes.length = n }

def hexDecodeToSlice (n : Nat) (data : List UInt8) : Except FromHexError (ByteArr n) :=
  if data.length % 2 ≠ 0 then .error .oddLength
  else if hn : data.length / 2 = n then
    match h : hexDecodeFrom 0 data with
    | .error e => .error e
    | .ok bytes => .ok ⟨bytes, (length_of_hexDecodeFrom h).trans hn⟩
  else .error .invalidStringLength

def asBytes (text : Text) : List UInt8 := text.flatMap String.utf8EncodeChar

theorem hexDigit_utf8 : ∀ n < 16, ∃ c, String.utf8EncodeChar (hexDigit n) = [c] ∧
    ∀ index, hexVal c index = .ok n := by
  intro n hn
  have key : ∀ m : Fin 16, ∃ c ∈ (List.range 128).map UInt8.ofNat,
      String.utf8EncodeChar (hexDigit m) = [c] ∧ (c.toNat = m + 48 ∧ m.1 < 10 ∨
        c.toNat = m + 87 ∧ 10 ≤ m.1) := by
    decide +kernel
  obtain ⟨c, -, hc, hval⟩ := key ⟨n, hn⟩
  refine ⟨c, hc, fun index => ?_⟩
  unfold hexVal
  rcases hval with ⟨hval, hlt⟩ | ⟨hval, hle⟩
  · rw [hval, if_pos (by omega)]
    simp
  · dsimp only at hval hle
    rw [hval, if_neg (by omega), if_neg (by omega), if_pos (by omega)]
    congr 1
    omega

theorem asBytes_hexEncode_cons (b : UInt8) (bytes : List UInt8) : ∃ high low,
    asBytes (hexEncode (b :: bytes)) = high :: low :: asBytes (hexEncode bytes) ∧
      ∀ index, hexVal high index = .ok (b.toNat / 16) ∧ hexVal low index = .ok (b.toNat % 16) := by
  have hb : b.toNat < 256 := b.toNat_lt
  obtain ⟨high, hhigh, hh⟩ := hexDigit_utf8 (b.toNat / 16) (by omega)
  obtain ⟨low, hlow, hl⟩ := hexDigit_utf8 (b.toNat % 16) (by omega)
  exact ⟨high, low, by simp [asBytes, hexEncode, hhigh, hlow], fun index => ⟨hh index, hl index⟩⟩

theorem hexDecodeFrom_hexEncode (index : Nat) (bytes : List UInt8) :
    hexDecodeFrom index (asBytes (hexEncode bytes)) = .ok bytes := by
  induction bytes generalizing index with
  | nil => rfl
  | cons b bytes ih =>
    obtain ⟨high, low, hcons, hval⟩ := asBytes_hexEncode_cons b bytes
    rw [hcons, hexDecodeFrom, (hval _).1, (hval _).2, ih]
    show Except.ok _ = _
    rw [show b.toNat / 16 * 16 + b.toNat % 16 = b.toNat by omega, UInt8.ofNat_toNat]

theorem length_hexEncode (bytes : List UInt8) :
    (asBytes (hexEncode bytes)).length = bytes.length * 2 := by
  induction bytes with
  | nil => rfl
  | cons b bytes ih =>
    obtain ⟨high, low, hcons, -⟩ := asBytes_hexEncode_cons b bytes
    rw [hcons, length_cons, length_cons, ih, length_cons]
    omega

theorem hexDecodeToSlice_hexEncode {n : Nat} (bytes : ByteArr n) :
    hexDecodeToSlice n (asBytes (hexEncode bytes.1)) = .ok bytes := by
  have hlen := length_hexEncode bytes.1
  unfold hexDecodeToSlice
  rw [if_neg (by omega), dif_pos (by rw [hlen, bytes.2]; omega)]
  split
  · next e h => rw [hexDecodeFrom_hexEncode] at h; cases h
  · next bs h =>
    rw [hexDecodeFrom_hexEncode] at h
    cases h
    rfl

/-! ## Digests and algorithms -/

/-- The kinds of algorithms. -/
inductive DigestAlgorithmFamily where
  | sha1
  | sha256
  | blake3
  | blake3Keyed
  deriving DecidableEq, Repr

/-- The algorithm of a digest. -/
inductive DigestAlgorithm where
  | sha1
  | sha256
  | blake3
  | blake3Keyed
  | blake3KeyedTest
  deriving DecidableEq, Repr

def DigestAlgorithm.family : DigestAlgorithm → DigestAlgorithmFamily
  | .sha1 => .sha1
  | .sha256 => .sha256
  | .blake3 => .blake3
  | .blake3Keyed => .blake3Keyed
  | .blake3KeyedTest => .blake3Keyed

/-- The bytes of a digest. -/
inductive RawDigest where
  | sha1 (bytes : ByteArr 20)
  | sha256 (bytes : ByteArr 32)
  | blake3 (bytes : ByteArr 32)
  | blake3Keyed (bytes : ByteArr 32)
  deriving DecidableEq

/-- Why a text is no digest. -/
inductive CasDigestParseError where
  | invalidSha1 (source : FromHexError)
  | invalidSha256 (source : FromHexError)
  | invalidBlake3 (source : FromHexError)
  | unsupportedDigest (length : Nat)

namespace RawDigest

def bytes : RawDigest → List UInt8
  | sha1 x => x.1
  | sha256 x => x.1
  | blake3 x => x.1
  | blake3Keyed x => x.1

def algorithm : RawDigest → DigestAlgorithmFamily
  | sha1 _ => .sha1
  | sha256 _ => .sha256
  | blake3 _ => .blake3
  | blake3Keyed _ => .blake3Keyed

/-- What `parse_sha1` and its like do. -/
def parse {n : Nat} (make : ByteArr n → RawDigest) (invalid : FromHexError → CasDigestParseError)
    (data : List UInt8) : Except CasDigestParseError RawDigest :=
  match hexDecodeToSlice n data with
  | .error e => .error (invalid e)
  | .ok bytes => .ok (make bytes)

def parseSha1 := parse sha1 .invalidSha1

def parseSha256 := parse sha256 .invalidSha256

def parseBlake3 := parse blake3 .invalidBlake3

def parseBlake3Keyed := parse blake3Keyed .invalidBlake3

/-- `Display`. -/
def toText (d : RawDigest) : Text := hexEncode d.bytes

theorem parse_hexEncode {n : Nat} (make : ByteArr n → RawDigest)
    (invalid : FromHexError → CasDigestParseError) (bytes : ByteArr n) :
    parse make invalid (asBytes (hexEncode bytes.1)) = .ok (make bytes) := by
  rw [parse, hexDecodeToSlice_hexEncode]

end RawDigest

/-- `FileDigest`, a `CasDigest`. -/
structure FileDigest where
  digest : RawDigest
  size : UInt64
  deriving DecidableEq

/-- `Display`. -/
def FileDigest.toText (d : FileDigest) : Text :=
  d.digest.toText ++ ':' :: Nat.toDigits 10 d.size.toNat

/-! ## Configurations -/

/-- What `CasDigestConfig` says about non-source files. -/
structure CasDigestConfig where
  preferredAlgorithm : DigestAlgorithm
  digest160 : Option DigestAlgorithm
  digest256 : Option DigestAlgorithm

/-- Why there is no configuration. -/
inductive CasDigestConfigError where
  | notConfigured
  | invalidPreferredSourceAlgorithm
  | conflict (slot algo : DigestAlgorithm)
  -- `Blake3Keyed is not supported in standalone builds`
  | panic

namespace CasDigestConfig

/-- The slot of an algorithm. -/
def slot (c : CasDigestConfig) : DigestAlgorithm → Option DigestAlgorithm
  | .sha1 => c.digest160
  | _ => c.digest256

/-- One round of the loop of `CasDigestConfigInner::new`. -/
def addAlgorithm (c : CasDigestConfig) (algo : DigestAlgorithm) :
    Except CasDigestConfigError CasDigestConfig :=
  match c.slot algo with
  | some slot => .error (.conflict slot algo)
  | none => match algo with
    | .sha1 => .ok { c with digest160 := some algo }
    | _ => .ok { c with digest256 := some algo }

/-- `CasDigestConfigInner::new`.  The digest of the empty file is computed with both preferred
algorithms. -/
def new (algorithms : List DigestAlgorithm) (preferredSourceAlgorithm : Option DigestAlgorithm) :
    Except CasDigestConfigError CasDigestConfig :=
  match algorithms with
  | [] => .error .notConfigured
  | preferred :: _ =>
    if preferredSourceAlgorithm.any fun a => !algorithms.contains a then
      .error .invalidPreferredSourceAlgorithm
    else match algorithms.foldlM addAlgorithm ⟨preferred, none, none⟩ with
      | .error e => .error e
      | .ok c =>
        if preferred = .blake3Keyed ∨ preferredSourceAlgorithm = some .blake3Keyed then
          .error .panic
        else .ok c

/-- What a configuration is: every algorithm is in its own slot, the preferred one too. -/
structure Configured (c : CasDigestConfig) : Prop where
  preferred : c.slot c.preferredAlgorithm = some c.preferredAlgorithm
  supported : c.preferredAlgorithm ≠ .blake3Keyed
  own160 : ∀ algo, c.digest160 = some algo → algo = .sha1
  own256 : ∀ algo, c.digest256 = some algo → algo ≠ .sha1

variable {c : CasDigestConfig} {c' : CasDigestConfig} {algorithms : List DigestAlgorithm}

/-- What a round of the loop does: the algorithm gets its slot, and no slot changes. -/
theorem addAlgorithm_ok {algo : DigestAlgorithm} (h : c.addAlgorithm algo = .ok c') :
    c'.preferredAlgorithm = c.preferredAlgorithm ∧ c'.slot algo = some algo ∧
      (∀ a b, c.slot a = some b → c'.slot a = some b) ∧
      (∀ a, c'.digest160 = some a → c.digest160 = some a ∨ a = .sha1) ∧
      ∀ a, c'.digest256 = some a → c.digest256 = some a ∨ a ≠ .sha1 := by
  unfold addAlgorithm at h
  split at h
  · cases h
  · next hnone =>
    cases algo with
    | sha1 =>
      cases h
      refine ⟨rfl, rfl, fun a b hab => ?_, fun a ha => .inr ?_, fun a ha => .inl ha⟩
      · cases a <;> first | exact hab | (rw [hnone] at hab; cases hab)
      · cases ha
        rfl
    | sha256 | blake3 | blake3Keyed | blake3KeyedTest =>
      cases h
      refine ⟨rfl, rfl, fun a b hab => ?_, fun a ha => .inl ha, fun a ha => .inr ?_⟩
      · have hnone : c.digest256 = none := hnone
        cases a <;> first | exact hab | (simp only [slot] at hab; rw [hnone] at hab; cases hab)
      · cases ha
        simp

theorem foldlM_addAlgorithm (h : algorithms.foldlM addAlgorithm c = .ok c') :
    c'.preferredAlgorithm = c.preferredAlgorithm ∧ (∀ a b, c.slot a = some b → c'.slot a = some b) ∧
      (∀ algo ∈ algorithms, c'.slot algo = some algo) ∧
      (∀ a, c'.digest160 = some a → c.digest160 = some a ∨ a = .sha1) ∧
      ∀ a, c'.digest256 = some a → c.digest256 = some a ∨ a ≠ .sha1 := by
  induction algorithms generalizing c with
  | nil =>
    cases h
    refine ⟨rfl, fun a b hab => hab, fun a ha => ?_, fun a ha => .inl ha, fun a ha => .inl ha⟩
    cases ha
  | cons algo algorithms ih =>
    obtain ⟨c1, h1, h⟩ := bind_eq_ok.mp h
    obtain ⟨hpref1, hset1, hkeep1, h1601, h2561⟩ := addAlgorithm_ok h1
    obtain ⟨hpref, hkeep, hset, h160, h256⟩ := ih h
    refine ⟨hpref.trans hpref1, fun a b hab => hkeep a b (hkeep1 a b hab), fun a ha => ?_,
      fun a ha => (h160 a ha).elim (h1601 a) .inr, fun a ha => (h256 a ha).elim (h2561 a) .inr⟩
    rcases mem_cons.mp ha with rfl | ha
    · exact hkeep _ _ hset1
    · exact hset a ha

/-- **What a configuration is.** -/
theorem new_spec {source : Option DigestAlgorithm} (h : new algorithms source = .ok c) :
    c.Configured ∧ ∀ algo ∈ algorithms, c.slot algo = some algo := by
  unfold new at h
  split at h
  · cases h
  · next preferred rest =>
    split at h
    · cases h
    · split at h
      · cases h
      · next c' hfold =>
        split at h
        · cases h
        · next hpanic =>
          cases h
          obtain ⟨hpref, -, hset, h160, h256⟩ := foldlM_addAlgorithm hfold
          refine ⟨⟨?_, ?_, fun a ha => (h160 a ha).elim nofun id,
            fun a ha => (h256 a ha).elim nofun id⟩, hset⟩
          · rw [hpref]
            exact hset _ mem_cons_self
          · rw [hpref]
            exact fun heq => hpanic (.inl heq)

end CasDigestConfig

/-! ## Digesting -/

/-- The hash functions. -/
structure Hashes where
  sha1 : List UInt8 → ByteArr 20
  sha256 : List UInt8 → ByteArr 32
  blake3 : List UInt8 → ByteArr 32
  -- With the test key.
  blake3KeyedTest : List UInt8 → ByteArr 32

namespace FileDigest

/-- `FileDigest::from_content_for_algorithm`; `none` is the panic of `digester_for_algorithm`. -/
def fromContentForAlgorithm (hashes : Hashes) (bytes : List UInt8) (algo : DigestAlgorithm) :
    Option FileDigest :=
  let size := UInt64.ofNat bytes.length
  match algo with
  | .sha1 => some ⟨.sha1 (hashes.sha1 bytes), size⟩
  | .sha256 => some ⟨.sha256 (hashes.sha256 bytes), size⟩
  | .blake3 => some ⟨.blake3 (hashes.blake3 bytes), size⟩
  | .blake3Keyed => none
  | .blake3KeyedTest => some ⟨.blake3Keyed (hashes.blake3KeyedTest bytes), size⟩

def fromContent (hashes : Hashes) (bytes : List UInt8) (config : CasDigestConfig) :
    Option FileDigest :=
  fromContentForAlgorithm hashes bytes config.preferredAlgorithm

theorem fromContent_isSome (hashes : Hashes) (bytes : List UInt8) {config : CasDigestConfig}
    (h : config.Configured) : ∃ d, fromContent hashes bytes config = some d := by
  have hsupported := h.supported
  unfold fromContent
  cases hp : config.preferredAlgorithm with
  | blake3Keyed => exact absurd hp hsupported
  | sha1 | sha256 | blake3 | blake3KeyedTest => exact ⟨_, rfl⟩

end FileDigest

/-! ## The wire form -/

/-- `RE::Digest`. -/
structure ReDigest where
  hash : Text
  sizeBytes : Int64
  deriving DecidableEq

/-- Why a wire form is no digest. -/
inductive DigestConversionError where
  | parseError (digest : Text) (error : CasDigestParseError)

namespace FileDigest

def toGrpc (d : FileDigest) : ReDigest := ⟨d.digest.toText, d.size.toInt64⟩

/-- The parser of an algorithm's digests. -/
def parseDigest : DigestAlgorithm → List UInt8 → Except CasDigestParseError RawDigest
  | .sha1 => RawDigest.parseSha1
  | .sha256 => RawDigest.parseSha256
  | .blake3 => RawDigest.parseBlake3
  | .blake3Keyed => RawDigest.parseBlake3Keyed
  | .blake3KeyedTest => RawDigest.parseBlake3Keyed

def parseDigestWithoutSize (data : List UInt8) (config : CasDigestConfig) :
    Except CasDigestParseError (RawDigest × DigestAlgorithm) :=
  let algo :=
    if data.length = 40 then config.digest160
    else if data.length = 64 then config.digest256
    else none
  match algo with
  | none => .error (.unsupportedDigest data.length)
  | some algo => (parseDigest algo data).map fun digest => (digest, algo)

/-- The decimal text of a signed number. -/
def decimal (n : Int64) : Text :=
  if n < 0 then '-' :: Nat.toDigits 10 n.toInt.natAbs else Nat.toDigits 10 n.toInt.natAbs

def fromGrpcWithAlgo (digest : ReDigest) (config : CasDigestConfig) :
    Except DigestConversionError (FileDigest × DigestAlgorithm) :=
  match parseDigestWithoutSize (asBytes digest.hash) config with
  | .error e => .error (.parseError (digest.hash ++ ':' :: decimal digest.sizeBytes) e)
  | .ok (ret, algo) => .ok (⟨ret, digest.sizeBytes.toUInt64⟩, algo)

def fromGrpc (digest : ReDigest) (config : CasDigestConfig) :
    Except DigestConversionError FileDigest :=
  (fromGrpcWithAlgo digest config).map Prod.fst

/-- `TrackedCasDigest::new` and, without the expiry, `new_expires`: a digest of nothing becomes the
one of the preferred algorithm.  `none` is a panic of the hash function. -/
def tracked (hashes : Hashes) (config : CasDigestConfig) (d : FileDigest) : Option FileDigest :=
  if d.size = 0 then fromContent hashes [] config else some d

theorem tracked_isSome (hashes : Hashes) (d : FileDigest) {config : CasDigestConfig}
    (h : config.Configured) : ∃ d', d.tracked hashes config = some d' := by
  unfold tracked
  split
  · exact fromContent_isSome hashes [] h
  · exact ⟨d, rfl⟩

/-- The digest is of an algorithm of the configuration. -/
def OfConfig (d : FileDigest) (config : CasDigestConfig) (algo : DigestAlgorithm) : Prop :=
  config.slot algo = some algo ∧ d.digest.algorithm = algo.family

variable {algo : DigestAlgorithm} {config : CasDigestConfig} {d : FileDigest}

theorem length_toText (d : RawDigest) :
    (asBytes d.toText).length = if d.algorithm = .sha1 then 40 else 64 := by
  rw [RawDigest.toText, length_hexEncode]
  cases d with
  | sha1 x | sha256 x | blake3 x | blake3Keyed x => simp [RawDigest.bytes, RawDigest.algorithm, x.2]

theorem parseDigestWithoutSize_toText {d : RawDigest} (hslot : config.slot algo = some algo)
    (hfamily : d.algorithm = algo.family) :
    parseDigestWithoutSize (asBytes d.toText) config = .ok (d, algo) := by
  have halgo : (if (asBytes d.toText).length = 40 then config.digest160
      else if (asBytes d.toText).length = 64 then config.digest256 else none) = some algo := by
    rw [length_toText, hfamily]
    cases algo <;> exact hslot
  have hparse : parseDigest algo (asBytes d.toText) = .ok d := by
    cases algo <;> cases d <;> cases hfamily <;> exact RawDigest.parse_hexEncode _ _ _
  rw [parseDigestWithoutSize, halgo]
  simp only [hparse]
  rfl

/-- **A digest comes back from its wire form**, with its algorithm. -/
theorem fromGrpcWithAlgo_toGrpc (h : d.OfConfig config algo) :
    fromGrpcWithAlgo d.toGrpc config = .ok (d, algo) := by
  unfold fromGrpcWithAlgo toGrpc
  rw [parseDigestWithoutSize_toText h.1 h.2]
  simp

theorem OfConfig.fromContent {hashes : Hashes} {bytes : List UInt8} (hconfig : config.Configured)
    (h : FileDigest.fromContent hashes bytes config = some d) :
    d.OfConfig config config.preferredAlgorithm := by
  refine ⟨hconfig.preferred, ?_⟩
  unfold FileDigest.fromContent at h
  generalize config.preferredAlgorithm = algo at h ⊢
  cases algo <;> cases h <;> rfl

end FileDigest

end Bz.Execute
