import Mathlib.Algebra.Group.Nat.Defs

/-!
# Encoding of series-parallel descriptors

Model of `SPItem`, `SPSeriesHeader` (`dice/src/impls/deps/graph.rs`) and of `SPEncoder` and
`SPDecoder` (`dice/src/impls/deps/encoding.rs`).  A word of the spec vector is a 4 bit tag above a
28 bit value.  `push` asserts that the value fits, so writing is in `Option`, `none` being the
failed assertion.  Reading is in `Option` as well: every error of the decoder is unwrapped by its
callers, so `none` is the panic; the end of the words is `some none`.

Principal results: `readItem_itemWords`, `readSeriesHeader_headerWords`: what was written is read
back.
-/

namespace Bz.Dice

open Option

/-- `SPSeriesHeader`: the encoded size of a series node. -/
inductive SPSeriesHeader where
  | simple (keyCount : Nat)
  | complex (keyCount specCount : Nat)

/-- `SPItem`: a run of keys or one parallel node of a series node. -/
inductive SPItem where
  | keys (keyCount : Nat)
  | parallel (keyCount specCount : Nat)

def SPSeriesHeader.keysLen : SPSeriesHeader → Nat
  | .simple keyCount => keyCount
  | .complex keyCount _ => keyCount

def SPSeriesHeader.encodedLen : SPSeriesHeader → Nat
  | .simple _ => 1
  | .complex _ specCount => 2 + specCount

def SPItem.encodedLen : SPItem → Nat
  | .keys _ => 1
  | .parallel _ _ => 2

/-- The tag of a word. -/
inductive SPTag where
  | headerSimple
  | headerComplexKeys
  | headerComplexSpecs
  | itemKeys
  | itemParallelKeys
  | itemParallelSpecs

def SPTag.encode : SPTag → Nat
  | .headerSimple => 0
  | .headerComplexKeys => 1
  | .headerComplexSpecs => 2
  | .itemKeys => 3
  | .itemParallelKeys => 4
  | .itemParallelSpecs => 5

def SPTag.decode : Nat → Option SPTag
  | 0 => some .headerSimple
  | 1 => some .headerComplexKeys
  | 2 => some .headerComplexSpecs
  | 3 => some .itemKeys
  | 4 => some .itemParallelKeys
  | 5 => some .itemParallelSpecs
  | _ => none

@[simp] theorem SPTag.decode_encode (t : SPTag) : SPTag.decode t.encode = some t := by
  cases t <;> rfl

/-- The word written for a tag and a value. -/
def word (tag : SPTag) (value : Nat) : Nat := tag.encode <<< 28 ||| value

/-- `push`: appends a word, asserting that the value has 28 bits. -/
def push (spec : List Nat) (tag : SPTag) (value : Nat) : Option (List Nat) :=
  if value < 2 ^ 28 then some (spec ++ [word tag value]) else none

def split (v : Nat) : Nat × Nat := (v >>> 28, v &&& 0x0FFFFFFF)

variable {tag : SPTag} {value : Nat} {header : SPSeriesHeader} {item : SPItem}

theorem split_word (h : value < 2 ^ 28) : split (word tag value) = (tag.encode, value) := by
  have hw : word tag value = tag.encode * 2 ^ 28 + value := by
    rw [word, ← Nat.shiftLeft_add_eq_or_of_lt h, Nat.shiftLeft_eq]
  have hm : (0x0FFFFFFF : Nat) = 2 ^ 28 - 1 := rfl
  rw [split, hw, Nat.shiftRight_eq_div_pow, hm, Nat.and_two_pow_sub_one_eq_mod]
  refine Prod.ext ?_ ?_
  · omega
  · omega

def writeSeriesHeader (spec : List Nat) : SPSeriesHeader → Option (List Nat)
  | .simple keyCount => push spec .headerSimple keyCount
  | .complex keyCount specCount => do
    let spec ← push spec .headerComplexKeys keyCount
    push spec .headerComplexSpecs specCount

def writeItem (spec : List Nat) : SPItem → Option (List Nat)
  | .keys keyCount => push spec .itemKeys keyCount
  | .parallel keyCount specCount => do
    let spec ← push spec .itemParallelKeys keyCount
    push spec .itemParallelSpecs specCount

/-- `SPDecoder::read`: the next tag and value, and the remaining words. -/
def read : List Nat → Option (Option (SPTag × Nat) × List Nat)
  | [] => some (none, [])
  | v :: rest => do
    let tag ← SPTag.decode (split v).1
    some (some (tag, (split v).2), rest)

def readSeriesHeader (specs : List Nat) : Option (Option SPSeriesHeader × List Nat) := do
  match ← read specs with
  | (none, rest) => some (none, rest)
  | (some (.headerSimple, keyCount), rest) => some (some (.simple keyCount), rest)
  | (some (.headerComplexKeys, keyCount), rest) =>
    match ← read rest with
    | (some (.headerComplexSpecs, specCount), rest) =>
      some (some (.complex keyCount specCount), rest)
    | _ => none
  | _ => none

def readItem (specs : List Nat) : Option (Option SPItem × List Nat) := do
  match ← read specs with
  | (none, rest) => some (none, rest)
  | (some (.itemKeys, keyCount), rest) => some (some (.keys keyCount), rest)
  | (some (.itemParallelKeys, keyCount), rest) =>
    match ← read rest with
    | (some (.itemParallelSpecs, specCount), rest) =>
      some (some (.parallel keyCount specCount), rest)
    | _ => none
  | _ => none

/-! ## Written words are read back -/

/-- The words of a header. -/
def headerWords : SPSeriesHeader → List Nat
  | .simple keyCount => [word .headerSimple keyCount]
  | .complex keyCount specCount =>
    [word .headerComplexKeys keyCount, word .headerComplexSpecs specCount]

/-- The words of an item. -/
def itemWords : SPItem → List Nat
  | .keys keyCount => [word .itemKeys keyCount]
  | .parallel keyCount specCount =>
    [word .itemParallelKeys keyCount, word .itemParallelSpecs specCount]

/-- Every count of the header fits into a word. -/
def SPSeriesHeader.Fits : SPSeriesHeader → Prop
  | .simple keyCount => keyCount < 2 ^ 28
  | .complex keyCount specCount => keyCount < 2 ^ 28 ∧ specCount < 2 ^ 28

/-- Every count of the item fits into a word. -/
def SPItem.Fits : SPItem → Prop
  | .keys keyCount => keyCount < 2 ^ 28
  | .parallel keyCount specCount => keyCount < 2 ^ 28 ∧ specCount < 2 ^ 28

theorem writeSeriesHeader_eq (h : header.Fits) (spec : List Nat) :
    writeSeriesHeader spec header = some (spec ++ headerWords header) := by
  cases header with
  | simple keyCount =>
    have hk : keyCount < 2 ^ 28 := h
    simp only [writeSeriesHeader, push, if_pos hk, headerWords]
  | complex keyCount specCount =>
    obtain ⟨hk, hs⟩ := h
    simp only [writeSeriesHeader, push, if_pos hk, if_pos hs, headerWords, bind_eq_bind,
      bind_some, List.append_assoc, List.singleton_append]

theorem writeItem_eq (h : item.Fits) (spec : List Nat) :
    writeItem spec item = some (spec ++ itemWords item) := by
  cases item with
  | keys keyCount =>
    have hk : keyCount < 2 ^ 28 := h
    simp only [writeItem, push, if_pos hk, itemWords]
  | parallel keyCount specCount =>
    obtain ⟨hk, hs⟩ := h
    simp only [writeItem, push, if_pos hk, if_pos hs, itemWords, bind_eq_bind,
      bind_some, List.append_assoc, List.singleton_append]

theorem read_word (h : value < 2 ^ 28) (rest : List Nat) :
    read (word tag value :: rest) = some (some (tag, value), rest) := by
  simp [read, split_word h]

/-- **A written header is read back.** -/
theorem readSeriesHeader_headerWords (h : header.Fits) (rest : List Nat) :
    readSeriesHeader (headerWords header ++ rest) = some (some header, rest) := by
  cases header with
  | simple keyCount =>
    have hk : keyCount < 2 ^ 28 := h
    simp [readSeriesHeader, headerWords, read_word hk]
  | complex keyCount specCount =>
    obtain ⟨hk, hs⟩ := h
    simp [readSeriesHeader, headerWords, read_word hk, read_word hs]

/-- **A written item is read back.** -/
theorem readItem_itemWords (h : item.Fits) (rest : List Nat) :
    readItem (itemWords item ++ rest) = some (some item, rest) := by
  cases item with
  | keys keyCount =>
    have hk : keyCount < 2 ^ 28 := h
    simp [readItem, itemWords, read_word hk]
  | parallel keyCount specCount =>
    obtain ⟨hk, hs⟩ := h
    simp [readItem, itemWords, read_word hk, read_word hs]

end Bz.Dice
