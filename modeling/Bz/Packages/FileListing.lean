import Bz.Encoding
import Mathlib.Data.List.Lex
import Mathlib.Order.Fin.Basic

/-!
# Searching a package listing

`files_with_prefix` and `files_within` of `bz_common/src/package_listing/file_listing.rs`, with
`binary_search_by` of `binary_search.rs`.  The files of a listing are ordered by the bytes of their
paths.  The two searches do not compare by that order: a file with the prefix counts as greater in
the one and as less in the other.  What counts as less is an initial part of the listing all the
same, because whatever lies between two strings with a prefix has it too.

Principal result: `listing_search_exact`.
-/

namespace Bz.Packages

open Encoding List

/-! ## Binary search -/

/-- The loop of `binary_search_by`; there is no result if a comparison panics. -/
def binarySearchLoop (f : Nat → Option Ordering) (base size : Nat) : Option Nat :=
  if 1 < size then
    (f (base + size / 2)).bind fun cmp =>
      binarySearchLoop f (if cmp = .gt then base else base + size / 2) (size - size / 2)
  else some base
termination_by size

def binarySearchBy (len : Nat) (f : Nat → Option Ordering) : Option (Except Nat Nat) :=
  if len = 0 then some (.error 0)
  else do
    let base ← binarySearchLoop f 0 len
    match ← f base with
    | .eq => return .ok base
    | .lt => return .error (base + 1)
    | .gt => return .error base

section Search

variable {f : Nat → Option Ordering} {len t : Nat}
  (hf : ∀ i < len, f i = some (if i < t then .lt else .gt))
include hf

/-- The last index that is less stays within the range, and before the range there is none that
is not. -/
theorem binarySearchLoop_spec {base size : Nat} (hsize : 0 < size) (hlen : base + size ≤ len)
    (hbase : base = 0 ∨ base < t) (ht : t ≤ base + size) :
    ∃ b < len, binarySearchLoop f base size = some b ∧ (b = 0 ∨ b < t) ∧ t ≤ b + 1 := by
  induction size using Nat.strong_induction_on generalizing base with
  | h size ih =>
    unfold binarySearchLoop
    split
    · rw [hf _ (by omega), Option.bind_some]
      by_cases hmid : base + size / 2 < t
      · rw [if_pos hmid, if_neg (by decide)]
        exact ih _ (by omega) (by omega) (by omega) (.inr hmid) (by omega)
      · rw [if_neg hmid, if_pos rfl]
        exact ih _ (by omega) (by omega) (by omega) hbase (by omega)
    · exact ⟨base, by omega, rfl, hbase, by omega⟩

theorem binarySearchBy_eq (ht : t ≤ len) : binarySearchBy len f = some (.error t) := by
  unfold binarySearchBy
  split
  · simp [show t = 0 by omega]
  · obtain ⟨b, hb, hloop, hlow, hhigh⟩ := @binarySearchLoop_spec f len t hf 0 len (by omega)
      (by omega) (.inl rfl) (by omega)
    rw [hloop, Option.bind_eq_bind, Option.bind_some, hf b hb]
    split_ifs with hlt
    · simp [show b + 1 = t by omega]
    · simp [show b = t by omega]

end Search

/-! ## Listings -/

abbrev Byte := Fin 256

def slash : Byte := 0x2F

/-- A path in a package. -/
structure PackageRelativePath where
  components : List (List Byte)
  valid : ∀ c ∈ components, slash ∉ c ∧ c ≠ []

def PackageRelativePath.asStr (p : PackageRelativePath) : List Byte :=
  joinComponents slash p.components

/-- The sorted files of a package. -/
structure PackageFileListing where
  files : List PackageRelativePath
  sorted : files.Pairwise fun x y => x.asStr < y.asStr

namespace PackageFileListing

variable (listing : PackageFileListing)

/-- A search of `files_with_prefix`, in which a file with the prefix compares as given. -/
def search (start : List Byte) (found : Ordering) : Option Nat :=
  (binarySearchBy listing.files.length fun i => listing.files[i]?.map fun x =>
    if start <+: x.asStr then found else cmp x.asStr start).map fun
    | .ok i => i
    | .error i => i

/-- `files_with_prefix`. -/
def filesWithPrefix (start : List Byte) : Option (List PackageRelativePath) := do
  let lower ← listing.search start .gt
  let upper ← listing.search start .lt
  (range' lower (upper - lower)).mapM fun i => listing.files[i]?

/-- The test of `files_within`; there is no result if an index is out of range. -/
def isWithin (len : Nat) (x : PackageRelativePath) : Option Bool :=
  if len = 0 ∨ len = x.asStr.length then some true else x.asStr[len]?.map (· = slash)

/-- `files_within`. -/
def filesWithin (d : PackageRelativePath) : Option (List PackageRelativePath) := do
  (← listing.filesWithPrefix d.asStr).filterM (isWithin d.asStr.length)

end PackageFileListing

/-! ## Initial parts of a sorted list -/

section Initial

variable {α : Type} {l : List α} {q r : α → Bool}

/-- What satisfies the predicate stands at the beginning of the list. -/
def Initial (q : α → Bool) (l : List α) : Prop := l.Pairwise fun x y => q y → q x

theorem filter_eq_nil_of_initial {x : α} (h : Initial q (x :: l)) (hx : q x = false) :
    l.filter q = [] :=
  filter_eq_nil_iff.mpr fun y hy hqy => by simp [(pairwise_cons.mp h).1 y hy hqy] at hx

theorem lt_length_filter (h : Initial q l) {i : Nat} (hi : i < l.length) :
    i < (l.filter q).length ↔ q l[i] := by
  induction l generalizing i with
  | nil => simp at hi
  | cons x l ih =>
    have hl := @ih (pairwise_cons.mp h).2
    cases i with
    | zero => cases hx : q x <;> simp [hx, filter_eq_nil_of_initial h]
    | succ i =>
      rw [getElem_cons_succ, ← hl (Nat.lt_of_succ_lt_succ hi)]
      cases hx : q x <;> simp [hx, filter_eq_nil_of_initial h]

/-- What satisfies the one predicate but not the other stands between. -/
theorem take_drop_filter (hq : Initial q l) (hr : Initial r l) (hqr : ∀ x, q x → r x) :
    (l.drop (l.filter q).length).take ((l.filter r).length - (l.filter q).length) =
      l.filter fun x => r x && !q x := by
  induction l with
  | nil => rfl
  | cons x l ih =>
    have hl := ih (pairwise_cons.mp hq).2 (pairwise_cons.mp hr).2
    cases hx : q x with
    | true => simpa [hx, hqr x hx] using hl
    | false =>
      rw [filter_eq_nil_of_initial hq hx] at hl
      cases hrx : r x with
      | true => simpa [hx, hrx, filter_eq_nil_of_initial hq hx] using hl
      | false =>
        rw [filter_eq_nil_of_initial hr hrx] at hl
        simpa [hrx, filter_eq_nil_of_initial hr hrx] using hl

theorem mapM_range' {lo n : Nat} (h : lo + n ≤ l.length) :
    (range' lo n).mapM (fun i => l[i]?) = some ((l.drop lo).take n) := by
  induction n generalizing lo with
  | zero => simp
  | succ n ih =>
    have hlo : lo < l.length := by omega
    rw [range'_succ, mapM_cons, ih (by omega), getElem?_eq_getElem hlo, drop_eq_getElem_cons hlo]
    rfl

end Initial

/-! ## What the searches find -/

variable {s x y : List Byte}

/-- Whatever lies between two strings with a prefix has it too. -/
theorem isPrefix_of_between (hy : s <+: y) (hsx : ¬ x < s) (hxy : x < y) : s <+: x := by
  induction s generalizing x y with
  | nil => exact nil_prefix
  | cons a s ih =>
    obtain ⟨y, rfl, hy⟩ := cons_prefix_iff.mp hy
    cases x with
    | nil => exact absurd (nil_lt_cons a s) hsx
    | cons b x =>
      rw [cons_lt_cons_iff] at hsx hxy
      obtain ⟨rfl, hlt⟩ := hxy.resolve_left fun h => hsx (.inl h)
      have hge : ¬ x < s := fun h => hsx (.inr ⟨rfl, h⟩)
      exact cons_prefix_cons.mpr ⟨rfl, ih (by simpa using hy) hge hlt⟩

/-- A file that counts as less. -/
def isBelow (start : List Byte) (found : Ordering) (x : PackageRelativePath) : Bool :=
  x.asStr < start ∨ start <+: x.asStr ∧ found = .lt

namespace PackageFileListing

variable {listing : PackageFileListing} {start : List Byte} {found : Ordering}

theorem isBelow_of_lt {x y : PackageRelativePath} (h : x.asStr < y.asStr)
    (hy : isBelow start found y) : isBelow start found x := by
  simp only [isBelow, decide_eq_true_eq] at hy ⊢
  obtain hy | ⟨hy, hfound⟩ := hy
  · exact .inl (h.trans hy)
  · by_cases hx : x.asStr < start
    · exact .inl hx
    · exact .inr ⟨isPrefix_of_between hy hx h, hfound⟩

theorem isBelow_lt_of_gt (x : PackageRelativePath) (h : isBelow start .gt x) :
    isBelow start .lt x := by
  simp only [isBelow, decide_eq_true_eq, reduceCtorEq, and_false, or_false] at h ⊢
  exact .inl h

theorem compares_eq (hfound : found ≠ .eq) (x : PackageRelativePath) :
    (if start <+: x.asStr then found else cmp x.asStr start) =
      if isBelow start found x then .lt else .gt := by
  by_cases hx : start <+: x.asStr
  · have hge : ¬ x.asStr < start := List.not_lt.mpr hx.le
    cases found <;> simp_all [isBelow]
  · rcases lt_trichotomy x.asStr start with h | h | h
    · simp [isBelow, hx, h, cmp, cmpUsing]
    · simp [h] at hx
    · simp [isBelow, hx, h, h.not_gt, cmp, cmpUsing]

theorem initial_isBelow : Initial (isBelow start found) listing.files :=
  listing.sorted.imp isBelow_of_lt

/-- A search finds how many files count as less. -/
theorem search_eq (hfound : found ≠ .eq) :
    listing.search start found = some (listing.files.filter (isBelow start found)).length := by
  rw [search, binarySearchBy_eq (t := (listing.files.filter (isBelow start found)).length)]
  · rfl
  · intro i hi
    rw [getElem?_eq_getElem hi, Option.map_some, compares_eq hfound]
    simp [lt_length_filter initial_isBelow hi]
  · exact length_filter_le _ _

theorem filesWithPrefix_eq :
    listing.filesWithPrefix start = some (listing.files.filter fun x => start <+: x.asStr) := by
  have hle := (monotone_filter_right listing.files (@isBelow_lt_of_gt start)).length_le
  have hlength := length_filter_le (isBelow start .lt) listing.files
  simp only [filesWithPrefix, search_eq (by decide : Ordering.gt ≠ .eq),
    search_eq (by decide : Ordering.lt ≠ .eq), Option.bind_eq_bind, Option.bind_some]
  rw [mapM_range' (by omega), take_drop_filter initial_isBelow initial_isBelow isBelow_lt_of_gt]
  congr 1
  refine filter_congr fun x _ => ?_
  have hge : start <+: x.asStr → ¬ x.asStr < start := fun hx => List.not_lt.mpr hx.le
  rw [Bool.eq_iff_iff]
  simp only [isBelow, Bool.and_eq_true, Bool.not_eq_true', decide_eq_true_eq,
    decide_eq_false_iff_not]
  tauto

/-! ## Directories -/

variable {d p : PackageRelativePath}

theorem asStr_eq_nil : d.asStr = [] ↔ d.components = [] :=
  joinComponents_eq_nil fun c hc => (d.valid c hc).2

theorem splitOn_asStr (h : p.asStr ≠ []) : p.asStr.splitOn slash = p.components := by
  have hjoin : Encoding.components slash p.asStr = p.components :=
    components_join (fun c hc => (p.valid c hc).1) fun c hc => (p.valid c hc).2
  rwa [Encoding.components, if_neg h] at hjoin

/-- A path is in a directory, component by component, if its string goes on with a slash. -/
theorem isPrefix_components : d.components <+: p.components ↔
    ∃ r, d.asStr ++ r = p.asStr ∧ (d.asStr = [] ∨ r = [] ∨ r[0]? = some slash) := by
  by_cases hd : d.asStr = []
  · simp [hd, asStr_eq_nil.mp hd]
  constructor
  · rintro ⟨rest, hrest⟩
    by_cases hnil : rest = []
    · exact ⟨[], by simp [PackageRelativePath.asStr, ← hrest, hnil], .inr (.inl rfl)⟩
    · refine ⟨slash :: joinComponents slash rest, ?_, .inr (.inr rfl)⟩
      rw [PackageRelativePath.asStr, PackageRelativePath.asStr, ← hrest,
        joinComponents_append_append (mt asStr_eq_nil.mpr hd) hnil]
  · rintro ⟨r, hr, hstart⟩
    rw [← splitOn_asStr hd, ← splitOn_asStr (p := p) (by simp [← hr, hd]), ← hr]
    cases r with
    | nil => simp
    | cons b r =>
      obtain rfl : b = slash := by simpa [hd] using hstart
      rw [splitOn_append_cons]
      exact prefix_append _ _

theorem isWithin_eq (h : d.asStr <+: p.asStr) :
    isWithin d.asStr.length p = some (decide (d.components <+: p.components)) := by
  obtain ⟨r, hr⟩ := h
  unfold isWithin
  by_cases hd : d.asStr = []
  · simp [isPrefix_components, ← hr, hd]
  · cases r <;> simp [isPrefix_components, ← hr, hd]

theorem filterM_eq {α : Type} {f : α → Option Bool} {q : α → Bool} {l : List α}
    (h : ∀ x ∈ l, f x = some (q x)) : l.filterM f = some (l.filter q) := by
  have haux : ∀ acc, filterAuxM f l acc = some ((l.filter q).reverse ++ acc) := by
    induction l with
    | nil => exact fun acc => rfl
    | cons x l ih =>
      obtain ⟨hx, hl⟩ := forall_mem_cons.mp h
      intro acc
      rw [filterAuxM, hx]
      cases hq : q x <;> simp [hq, ih hl]
  simp [List.filterM, haux]

/-- **Searching a listing** finds exactly the files with a prefix, and exactly the files in a
directory, in the order of the listing; no index is out of range. -/
theorem listing_search_exact (listing : PackageFileListing) (start : List Byte)
    (d : PackageRelativePath) :
    (∃ lower upper, listing.search start .gt = some lower ∧
      listing.search start .lt = some upper ∧ lower ≤ upper ∧ upper ≤ listing.files.length) ∧
    listing.filesWithPrefix start = some (listing.files.filter fun x => start <+: x.asStr) ∧
    listing.filesWithin d =
      some (listing.files.filter fun x => d.components <+: x.components) := by
  refine ⟨⟨_, _, search_eq (by decide), search_eq (by decide),
    (monotone_filter_right _ isBelow_lt_of_gt).length_le, length_filter_le _ _⟩,
    filesWithPrefix_eq, ?_⟩
  rw [filesWithin, filesWithPrefix_eq, Option.bind_eq_bind, Option.bind_some,
    filterM_eq fun x hx => isWithin_eq (by simpa using (mem_filter.mp hx).2), filter_filter]
  congr 1
  refine filter_congr fun x _ => ?_
  simp only [Bool.and_eq_left_iff_imp, decide_eq_true_eq]
  exact fun h => (isPrefix_components.mp h).imp fun r hr => hr.1

end PackageFileListing

end Bz.Packages
