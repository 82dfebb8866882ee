import Mathlib.Algebra.Group.Nat.Defs
import Mathlib.Data.List.Forall2
import Mathlib.Data.List.Induction

/-!
# Encodings that end where they say

A value written after another can be read back only if it is known where the first one ends.
`DelimitedOn R enc` says so for the values that `R` relates: whatever follows them, equal byte
strings come from equal values.  Numbers of a fixed width are delimited, lists with a count in front
are, and lists without one are when their lengths agree.
-/

namespace Bz.Encoding

open List

variable {α β : Type}
  {enc : α → List β} {l l' r s : List α} {width : Nat} {c : α} {a b : List α} {m n : Nat}

/-- Of two related values, the encodings are equal, with anything after them, only if the values
are. -/
def DelimitedOn (R : α → α → Prop) (enc : α → List β) : Prop :=
  ∀ ⦃a b : α⦄, R a b → ∀ ⦃r s : List β⦄, enc a ++ r = enc b ++ s → a = b ∧ r = s

/-- All values are delimited. -/
abbrev Delimited (enc : α → List β) : Prop := DelimitedOn (fun _ _ => True) enc

theorem Delimited.iff (h : Delimited enc) {a b : α} {r s : List β} :
    enc a ++ r = enc b ++ s ↔ a = b ∧ r = s :=
  ⟨@h a b trivial r s, by rintro ⟨rfl, rfl⟩; rfl⟩

theorem DelimitedOn.flatMap {R : α → α → Prop} (h : DelimitedOn R enc) :
    DelimitedOn (List.Forall₂ R) fun l => l.flatMap enc := by
  intro l l' hl
  induction hl with
  | nil => exact fun r s heq => ⟨rfl, heq⟩
  | cons hab _ ih =>
    intro r s heq
    simp only [flatMap_cons, append_assoc] at heq
    obtain ⟨rfl, htail⟩ := h hab heq
    obtain ⟨rfl, hrest⟩ := ih htail
    exact ⟨rfl, hrest⟩

/-- Without a count, a list is read back to the end. -/
theorem Delimited.flatMap_injective (h : Delimited enc) (hne : ∀ a, enc a ≠ []) :
    Function.Injective fun l : List α => l.flatMap enc := by
  intro l l' heq
  induction l generalizing l' with
  | nil =>
    cases l' with
    | nil => rfl
    | cons b l' => exact absurd (append_eq_nil_iff.mp heq.symm).1 (hne b)
  | cons a l ih =>
    cases l' with
    | nil => exact absurd (append_eq_nil_iff.mp heq).1 (hne a)
    | cons b l' =>
      obtain ⟨rfl, htail⟩ := h.iff.mp heq
      rw [ih htail]

/-- Values that are known from the end of their encodings are known one after another. -/
theorem append_flatMap_inj {P : α → Prop}
    (henc : ∀ {a b x y}, P x → P y → a ++ enc x = b ++ enc y → a = b ∧ x = y)
    (hl : ∀ x ∈ l, P x) (hl' : ∀ x ∈ l', P x) (hlen : l.length = l'.length) {a b : List β}
    (h : a ++ l.flatMap enc = b ++ l'.flatMap enc) : a = b ∧ l = l' := by
  induction l using List.reverseRecOn generalizing l' with
  | nil =>
    obtain rfl := length_eq_zero_iff.mp hlen.symm
    simpa using h
  | append_singleton l x ih =>
    obtain rfl | ⟨l', y, rfl⟩ := eq_nil_or_concat' l'
    · simp at hlen
    · simp only [forall_mem_append, forall_mem_singleton] at hl hl'
      simp only [flatMap_append, flatMap_singleton, ← append_assoc] at h
      obtain ⟨hfront, rfl⟩ := henc hl.2 hl'.2 h
      obtain ⟨rfl, rfl⟩ := ih hl.1 hl'.1 (by simpa using hlen) hfront
      exact ⟨rfl, rfl⟩

/-! ## Numbers of a fixed width -/

/-- The `width` low bytes of a number, the lowest first. -/
def leBytes : Nat → Nat → List UInt8
  | 0, _ => []
  | width + 1, n => UInt8.ofNat n :: leBytes width (n / 256)

theorem length_leBytes (n : Nat) : (leBytes width n).length = width := by
  induction width generalizing n with
  | zero => rfl
  | succ width ih => rw [leBytes, length_cons, ih]

theorem leBytes_inj (hm : m < 256 ^ width) (hn : n < 256 ^ width)
    (h : leBytes width m = leBytes width n) : m = n := by
  induction width generalizing m n with
  | zero => omega
  | succ width ih =>
    obtain ⟨hlow, hhigh⟩ := List.cons.inj h
    have hmod : m % 256 = n % 256 := by simpa using congrArg UInt8.toNat hlow
    have hdiv : m / 256 = n / 256 := ih (by omega) (by omega) hhigh
    omega

theorem leBytes_append_inj {r s : List UInt8} (hm : m < 256 ^ width)
    (hn : n < 256 ^ width) (h : leBytes width m ++ r = leBytes width n ++ s) : m = n ∧ r = s := by
  obtain ⟨hbytes, hrest⟩ := append_inj h (by rw [length_leBytes, length_leBytes])
  exact ⟨leBytes_inj hm hn hbytes, hrest⟩

theorem Delimited.counted {enc : α → List UInt8} (h : Delimited enc) {r s : List UInt8}
    (hl : l.length < 256 ^ width) (hl' : l'.length < 256 ^ width)
    (heq : leBytes width l.length ++ (l.flatMap enc ++ r) = leBytes width l'.length ++
      (l'.flatMap enc ++ s)) : l = l' ∧ r = s := by
  obtain ⟨hlen, heq⟩ := leBytes_append_inj hl hl' heq
  exact DelimitedOn.flatMap h (forall₂_iff_get.mpr ⟨hlen, fun _ _ _ => trivial⟩) heq

/-! ## Separators -/

/-- What stands before and after the last separator is determined. -/
theorem append_separator_inj (hr : c ∉ r) (hs : c ∉ s)
    (h : a ++ c :: r = b ++ c :: s) : a = b ∧ r = s := by
  rcases append_eq_append_iff.mp h with ⟨l, hb, hl⟩ | ⟨l, ha, hl⟩
  · cases l with
    | nil => exact ⟨by simpa using hb.symm, by simpa using hl⟩
    | cons d l => exact absurd ((List.cons.inj hl).2 ▸ by simp) hr
  · cases l with
    | nil => exact ⟨by simpa using ha, by simpa using hl.symm⟩
    | cons d l => exact absurd ((List.cons.inj hl).2 ▸ by simp) hs

/-- What stands before and after the first separator is determined. -/
theorem first_separator_inj (ha : c ∉ a) (hb : c ∉ b) (h : a ++ c :: r = b ++ c :: s) :
    a = b ∧ r = s := by
  have hrev := congrArg List.reverse h
  simp only [reverse_append, reverse_cons, append_assoc, singleton_append] at hrev
  obtain ⟨hr, ha⟩ := append_separator_inj (by simpa using ha) (by simpa using hb) hrev
  exact ⟨reverse_injective ha, reverse_injective hr⟩

/-- A list of words with a separator after each is read back up to the first word that is marked. -/
theorem flatMap_separator_inj {marked : List α → Prop} {ls ls' : List (List α)} {x y : List α}
    (hls : ∀ l ∈ ls, c ∉ l ∧ ¬ marked l) (hls' : ∀ l ∈ ls', c ∉ l ∧ ¬ marked l)
    (hx : c ∉ x ∧ marked x) (hy : c ∉ y ∧ marked y)
    (h : ls.flatMap (· ++ [c]) ++ (x ++ c :: r) = ls'.flatMap (· ++ [c]) ++ (y ++ c :: s)) :
    ls = ls' ∧ x = y ∧ r = s := by
  induction ls generalizing ls' with
  | nil =>
    cases ls' with
    | nil => exact ⟨rfl, first_separator_inj hx.1 hy.1 h⟩
    | cons l' ls' =>
      obtain ⟨hl', -⟩ := forall_mem_cons.mp hls'
      simp only [flatMap_nil, nil_append, flatMap_cons, append_assoc, singleton_append] at h
      obtain ⟨rfl, -⟩ := first_separator_inj hx.1 hl'.1 h
      exact absurd hx.2 hl'.2
  | cons l ls ih =>
    obtain ⟨hl, htail⟩ := forall_mem_cons.mp hls
    cases ls' with
    | nil =>
      simp only [flatMap_nil, nil_append, flatMap_cons, append_assoc, singleton_append] at h
      obtain ⟨rfl, -⟩ := first_separator_inj hl.1 hy.1 h
      exact absurd hy.2 hl.2
    | cons l' ls' =>
      obtain ⟨hl', htail'⟩ := forall_mem_cons.mp hls'
      simp only [flatMap_cons, append_assoc, singleton_append] at h
      obtain ⟨rfl, hrest⟩ := first_separator_inj hl.1 hl'.1 h
      obtain ⟨rfl, hxy⟩ := ih htail htail' hrest
      exact ⟨rfl, hxy⟩

section RsplitOnce

variable [DecidableEq α]

/-- What stands before and after the last separator. -/
def rsplitOnce (c : α) : List α → Option (List α × List α)
  | [] => none
  | d :: l => match rsplitOnce c l with
    | some (before, after) => some (d :: before, after)
    | none => if d = c then some ([], l) else none

theorem rsplitOnce_eq_none_iff : rsplitOnce c l = none ↔ c ∉ l := by
  induction l with
  | nil => simp [rsplitOnce]
  | cons d l ih =>
    rw [rsplitOnce, mem_cons, not_or, ← ih]
    split
    · next hsome => simp [hsome]
    · next hnone => simp [hnone, eq_comm]

theorem eq_of_rsplitOnce_eq_some (h : rsplitOnce c l = some (a, b)) : l = a ++ c :: b ∧ c ∉ b := by
  fun_induction rsplitOnce c l generalizing a with
  | case1 | case4 => cases h
  | case2 d l before after hsome ih =>
    cases h
    obtain ⟨rfl, hplain⟩ := ih hsome
    exact ⟨rfl, hplain⟩
  | case3 l hnone ih =>
    cases h
    exact ⟨rfl, rsplitOnce_eq_none_iff.mp hnone⟩

theorem rsplitOnce_eq_some_iff : rsplitOnce c l = some (a, b) ↔ l = a ++ c :: b ∧ c ∉ b := by
  refine ⟨eq_of_rsplitOnce_eq_some, fun ⟨hl, hplain⟩ => ?_⟩
  cases h : rsplitOnce c l with
  | none => exact absurd (hl ▸ by simp) (rsplitOnce_eq_none_iff.mp h)
  | some p =>
    obtain ⟨hl', hplain'⟩ := eq_of_rsplitOnce_eq_some h
    obtain ⟨rfl, rfl⟩ := append_separator_inj hplain hplain' (hl.symm.trans hl')
    rfl

end RsplitOnce

/-! ## Components -/

section Components

variable [DecidableEq α] {ls : List (List α)}

/-- What stands between separators; the empty text has no components. -/
def components (c : α) (text : List α) : List (List α) := if text = [] then [] else text.splitOn c

def joinComponents (c : α) (ls : List (List α)) : List α := [c].intercalate ls

theorem splitOn_append_cons : (a ++ c :: b).splitOn c = a.splitOn c ++ b.splitOn c :=
  splitOnP_append_cons a b (by simp)

theorem components_append_cons (ha : a ≠ []) (hb : b ≠ []) :
    components c (a ++ c :: b) = components c a ++ components c b := by
  rw [components, if_neg (by simp), components, if_neg ha, components, if_neg hb,
    splitOn_append_cons]

theorem components_of_notMem (ha : a ≠ []) (h : c ∉ a) : components c a = [a] := by
  rw [components, if_neg ha]
  simpa using @splitOn_intercalate _ [a] _ _ c (by simpa using h) (by simp)

omit [DecidableEq α] in
theorem joinComponents_eq_nil (h : ∀ l ∈ ls, l ≠ []) : joinComponents c ls = [] ↔ ls = [] := by
  constructor
  · intro heq
    cases ls with
    | nil => rfl
    | cons l ls =>
      cases ls with
      | nil => exact absurd (by simpa [joinComponents] using heq) (h l mem_cons_self)
      | cons l' ls => simp [joinComponents, List.intercalate] at heq
  · rintro rfl
    rfl

omit [DecidableEq α] in
theorem joinComponents_append (h : ls ≠ []) :
    joinComponents c ls ++ [c] = ls.flatMap (· ++ [c]) := by
  induction ls with
  | nil => exact absurd rfl h
  | cons l ls ih =>
    cases ls with
    | nil => simp [joinComponents]
    | cons l' ls =>
      rw [flatMap_cons, ← ih (by simp)]
      simp [joinComponents, List.intercalate]

omit [DecidableEq α] in
theorem joinComponents_append_append {ls' : List (List α)} (h : ls ≠ []) (h' : ls' ≠ []) :
    joinComponents c (ls ++ ls') = joinComponents c ls ++ c :: joinComponents c ls' := by
  have happend : joinComponents c (ls ++ ls') ++ [c] =
      joinComponents c ls ++ c :: joinComponents c ls' ++ [c] := by
    rw [joinComponents_append (by simp [h]), flatMap_append, ← joinComponents_append h,
      ← joinComponents_append h']
    simp
  exact append_cancel_right happend

/-- Components without separators that are not empty are read back. -/
theorem components_join (hc : ∀ l ∈ ls, c ∉ l) (hne : ∀ l ∈ ls, l ≠ []) :
    components c (joinComponents c ls) = ls := by
  rw [components]
  split
  · next h => exact ((joinComponents_eq_nil hne).mp h).symm
  · next h =>
    refine splitOn_intercalate c hc fun hnil => h ?_
    rw [hnil]
    rfl

end Components

end Bz.Encoding
