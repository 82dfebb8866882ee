import Mathlib.Data.List.Infix

/-!
# Trees as maps from paths

A tree of directories with leaves is described by what it has at each path: nothing, a directory or
a leaf.  `merge` puts one tree on top of another, and a leaf hides what the other tree has below it.

Principal results: `merge_eq_leaf` and `merge_eq_dir`; `merge_comm`; `IsUnion.merge` and
`IsUnion.unique`.
-/

namespace Bz

open List

/-- What a tree has at a path. -/
inductive Node (L : Type) where
  | dir
  | leaf (value : L)
  deriving DecidableEq, Repr

/-- What a tree has at every path. -/
abbrev PathMap (K L : Type) := List K → Option (Node L)

/-- A node with another leaf in the place of its leaf. -/
def Node.map {L : Type} (f : L → L) : Node L → Node L
  | .dir => .dir
  | .leaf value => .leaf (f value)

namespace PathMap

variable {K L : Type} {A B C R : PathMap K L} {p q : List K} {k : K} {l m : L}

/-- What is below a name. -/
def below (A : PathMap K L) (k : K) : PathMap K L := fun p => A (k :: p)

/-- A tree with every leaf replaced. -/
def map (f : L → L) (A : PathMap K L) : PathMap K L := fun p => (A p).map (Node.map f)

/-- Replacing the leaves changes nothing iff no leaf changes. -/
theorem map_eq_self {f : L → L} : A.map f = A ↔ ∀ p l, A p = some (.leaf l) → f l = l := by
  constructor
  · intro h p l hl
    have hp := congrFun h p
    rw [map, hl] at hp
    exact Node.leaf.inj (Option.some.inj hp)
  · intro h
    funext p
    rw [map]
    match hp : A p with
    | none => rfl
    | some .dir => rfl
    | some (.leaf l) => exact congrArg (some ∘ Node.leaf) (h p l hp)

/-- The root is a directory, and what is above an entry is one. -/
structure IsTree (A : PathMap K L) : Prop where
  root : A [] = some .dir
  parent : ∀ p k, A (p ++ [k]) ≠ none → A p = some .dir

namespace IsTree

theorem map (h : IsTree A) (f : L → L) : IsTree (A.map f) := by
  refine ⟨by rw [PathMap.map, h.root]; rfl, fun p k hp => ?_⟩
  have hparent := h.parent p k fun hnone => hp (by rw [PathMap.map, hnone]; rfl)
  rw [PathMap.map, hparent]
  rfl

theorem below (h : IsTree A) (hk : A [k] = some .dir) : IsTree (A.below k) :=
  ⟨hk, fun p k' hp => h.parent (k :: p) k' hp⟩

theorem dir_of_append (h : IsTree A) (hq : q ≠ []) (hpq : A (p ++ q) ≠ none) : A p = some .dir := by
  induction q using List.reverseRecOn with
  | nil => exact absurd rfl hq
  | append_singleton q k ih =>
    rw [← append_assoc] at hpq
    have hparent := h.parent _ _ hpq
    rcases eq_or_ne q [] with rfl | hq
    · rwa [append_nil] at hparent
    · exact ih hq (by simp [hparent])

theorem dir_above (h : IsTree A) (hqp : q <+: p) (hne : q ≠ p) (hp : A p ≠ none) :
    A q = some .dir := by
  obtain ⟨r, rfl⟩ := hqp
  exact h.dir_of_append (fun hr => hne (by rw [hr, append_nil])) hp

theorem eq_none_of_cons (h : IsTree A) (hk : A [k] ≠ some .dir) (hp : p ≠ []) :
    A (k :: p) = none := by
  by_contra hne
  exact hk (h.dir_of_append (p := [k]) hp hne)

end IsTree

/-! ## Merging -/

/-- `B` on top of `A`; a leaf hides a directory. -/
def merge (A B : PathMap K L) : PathMap K L
  | [] => some .dir
  | k :: p =>
    match A [k], B [k] with
    | _, none => A (k :: p)
    | none, some _ => B (k :: p)
    | some .dir, some .dir => merge (A.below k) (B.below k) p
    | some (.leaf _), some .dir => A (k :: p)
    | some _, some (.leaf _) => B (k :: p)

/-- What `merge` does below a name. -/
def mergeBelow (A B : PathMap K L) : PathMap K L := fun p =>
  match A [], B [] with
  | _, none => A p
  | none, some _ => B p
  | some .dir, some .dir => merge A B p
  | some (.leaf _), some .dir => A p
  | some _, some (.leaf _) => B p

theorem below_merge (A : PathMap K L) :
    (merge A B).below k = mergeBelow (A.below k) (B.below k) := rfl

/-- The trees have no different leaves at one path. -/
def Agree (A B : PathMap K L) : Prop := ∀ p l m, A p = some (.leaf l) → B p = some (.leaf m) → l = m

theorem Agree.symm (h : Agree A B) : Agree B A := fun p l m hl hm => (h p m l hm hl).symm

theorem Agree.below (h : Agree A B) (k : K) : Agree (A.below k) (B.below k) := fun p => h (k :: p)

/-- `A` has a leaf where `B` has a directory. -/
def Clash (A B : PathMap K L) (p : List K) (l : L) : Prop :=
  A p = some (.leaf l) ∧ B p = some .dir

/-- No leaf of the tree is above the path. -/
def Open (A : PathMap K L) (p : List K) : Prop :=
  ∀ q l, q <+: p → q ≠ p → A q ≠ some (.leaf l)

theorem open_nil (A : PathMap K L) : Open A [] :=
  fun _ _ hq hne => absurd (prefix_nil.mp hq) hne

theorem IsTree.open_of_ne_none (h : IsTree A) (hp : A p ≠ none) : Open A p := by
  intro q l hq hne hl
  have hdir := h.dir_above hq hne hp
  rw [hl] at hdir
  cases hdir

theorem open_cons (hroot : A [] = some .dir) :
    Open A (k :: p) ↔ (p = [] ∨ ∀ l, A [k] ≠ some (.leaf l)) ∧ Open (A.below k) p := by
  constructor
  · intro h
    refine ⟨?_, fun q l hq hne => h (k :: q) l (cons_prefix_cons.mpr ⟨rfl, hq⟩) (by simpa)⟩
    refine or_iff_not_imp_left.mpr fun hp l => h [k] l ?_ (by simpa using Ne.symm hp)
    exact cons_prefix_cons.mpr ⟨rfl, nil_prefix⟩
  · rintro ⟨hk, hbelow⟩ q l hq hne hl
    cases q with
    | nil =>
      rw [hroot] at hl
      cases hl
    | cons k' q =>
      obtain ⟨rfl, hqp⟩ := cons_prefix_cons.mp hq
      exact hbelow q l hqp (fun heq => hne (by rw [heq])) hl

/-- What a tree has at a name decides what it has below. -/
theorem IsTree.cons_cases (h : IsTree A) (k : K) (p : List K) :
    (A [k] = none ∧ A (k :: p) = none ∧ Open A (k :: p)) ∨ (∃ l, A [k] = some (.leaf l) ∧
      (p = [] ∧ Open A [k] ∨ A (k :: p) = none ∧ ¬ Open A (k :: p))) ∨
    (A [k] = some .dir ∧ IsTree (A.below k) ∧ (Open A (k :: p) ↔ Open (A.below k) p)) := by
  cases hk : A [k] with
  | none =>
    have hnone (q : List K) : A (k :: q) = none := by
      rcases eq_or_ne q [] with rfl | hq
      · exact hk
      · exact h.eq_none_of_cons (by simp [hk]) hq
    refine .inl ⟨rfl, hnone p, (open_cons h.root).mpr ⟨.inr (by simp [hk]), ?_⟩⟩
    intro q l _ _
    simp [PathMap.below, hnone]
  | some n =>
    cases n with
    | leaf l =>
      refine .inr (.inl ⟨l, rfl, ?_⟩)
      rcases eq_or_ne p [] with rfl | hp
      · exact .inl ⟨rfl, (open_cons h.root).mpr ⟨.inl rfl, open_nil _⟩⟩
      · refine .inr ⟨h.eq_none_of_cons (by simp [hk]) hp, fun hopen => ?_⟩
        exact ((open_cons h.root).mp hopen).1.elim hp fun hl => hl l hk
    | dir =>
      refine .inr (.inr ⟨rfl, h.below hk, ?_⟩)
      rw [open_cons h.root]
      simp [hk]

/-- What a merge has at a path that is hidden by neither tree. -/
def pick : Option (Node L) → Option (Node L) → Option (Node L)
  | a, none => a
  | some (.leaf l), some .dir => some (.leaf l)
  | _, some n => some n

@[simp] theorem pick_none_left (b : Option (Node L)) : pick none b = b := by
  rcases b with _ | _ | _ <;> rfl

@[simp] theorem pick_none_right (a : Option (Node L)) : pick a none = a := by cases a <;> rfl

theorem merge_eq_some (hA : IsTree A) (hB : IsTree B) (p : List K) (n : Node L) :
    merge A B p = some n ↔ (Open A p ∧ Open B p) ∧ pick (A p) (B p) = some n := by
  induction p generalizing A B with
  | nil => simp [merge, hA.root, hB.root, open_nil, pick]
  | cons k p ih =>
    have hAn : A (k :: p) = some n → Open A (k :: p) := fun h => hA.open_of_ne_none (by simp [h])
    have hBn : B (k :: p) = some n → Open B (k :: p) := fun h => hB.open_of_ne_none (by simp [h])
    obtain ⟨hAk, hAp, hAo⟩ | ⟨x, hAk, hAp⟩ | ⟨hAk, hAt, hAo⟩ := hA.cons_cases k p <;>
      obtain ⟨hBk, hBp, hBo⟩ | ⟨y, hBk, hBp⟩ | ⟨hBk, hBt, hBo⟩ := hB.cons_cases k p
    · simp [merge, hAk, hBk, hAp, hBp]
    · simp only [merge, hAk, hBk, hAp, hAo, pick_none_left]
      tauto
    · simp only [merge, hAk, hBk, hAp, hAo, pick_none_left]
      tauto
    · simp only [merge, hAk, hBk, hBp, hBo, pick_none_right]
      tauto
    · simp only [merge, hAk, hBk]
      grind [pick]
    · simp only [merge, hAk, hBk]
      grind [pick, open_nil]
    · simp only [merge, hAk, hBk, hBp, hBo, pick_none_right]
      tauto
    · simp only [merge, hAk, hBk]
      grind [pick, open_nil]
    · simp only [merge, hAk, hBk, hAo, hBo]
      exact ih hAt hBt

/-- **The leaves of a merge.** -/
theorem merge_eq_leaf (hA : IsTree A) (hB : IsTree B) :
    merge A B p = some (.leaf l) ↔ B p = some (.leaf l) ∧ Open A p ∨
      A p = some (.leaf l) ∧ Open B p ∧ ∀ m, B p ≠ some (.leaf m) := by
  have hAo := hA.open_of_ne_none (p := p)
  have hBo := hB.open_of_ne_none (p := p)
  rw [merge_eq_some hA hB]
  generalize A p = a at hAo ⊢
  generalize B p = b at hBo ⊢
  rcases a with _ | _ | x <;> rcases b with _ | _ | y <;> simp [pick] at hAo hBo ⊢ <;> tauto

/-- **The directories of a merge.** -/
theorem merge_eq_dir (hA : IsTree A) (hB : IsTree B) :
    merge A B p = some .dir ↔ (A p = some .dir ∨ B p = some .dir) ∧ (Open A p ∧ Open B p) ∧
      (∀ l, A p ≠ some (.leaf l)) ∧ ∀ l, B p ≠ some (.leaf l) := by
  rw [merge_eq_some hA hB]
  rcases A p with _ | _ | x <;> rcases B p with _ | _ | y <;> simp [pick]

theorem ext_of_iff {x y : Option (Node L)} (hdir : x = some .dir ↔ y = some .dir)
    (hleaf : ∀ l, x = some (.leaf l) ↔ y = some (.leaf l)) : x = y := by
  cases x with
  | none =>
    rcases y with _ | _ | l
    · rfl
    · exact hdir.mpr rfl
    · exact (hleaf l).mpr rfl
  | some n =>
    cases n with
    | dir => exact (hdir.mp rfl).symm
    | leaf l => exact ((hleaf l).mp rfl).symm

theorem merge_self (hA : IsTree A) : merge A A = A := by
  funext p
  refine ext_of_iff ?_ fun l => ?_
  · rw [merge_eq_dir hA hA]
    refine ⟨fun h => h.1.elim id id, fun h => ?_⟩
    have hopen := hA.open_of_ne_none (p := p) (by simp [h])
    exact ⟨.inl h, ⟨hopen, hopen⟩, by simp [h], by simp [h]⟩
  · rw [merge_eq_leaf hA hA]
    refine ⟨fun h => h.elim And.left And.left, fun h => .inl ⟨h, ?_⟩⟩
    exact hA.open_of_ne_none (by simp [h])

/-- Nothing of a tree is seen if the tree on top has all of it. -/
theorem merge_of_le (hB : IsTree B) (hle : ∀ p n, A p = some n → B p = some n) :
    merge A B = B := by
  funext p
  induction p generalizing A B with
  | nil => exact hB.root.symm
  | cons k p ih =>
    rw [merge]
    split
    · next hk =>
      have hnone : B (k :: p) = none := by
        rcases eq_or_ne p [] with rfl | hp
        · exact hk
        · exact hB.eq_none_of_cons (by simp [hk]) hp
      rw [hnone, Option.eq_none_iff_forall_ne_some]
      intro n hn
      rw [hle _ _ hn] at hnone
      cases hnone
    · rfl
    · next hAk hBk => exact ih (hB.below hBk) fun q n => hle (k :: q) n
    · next hAk hBk =>
      rw [hle _ _ hAk] at hBk
      cases hBk
    · rfl

theorem mergeBelow_of_le (hB : IsTree B) (hle : ∀ p n, A p = some n → B p = some n) :
    mergeBelow A B = B := by
  funext p
  rw [mergeBelow]
  split
  · next hroot => cases hB.root.symm.trans hroot
  · rfl
  · rw [merge_of_le hB hle]
  · next hroot hdir =>
    rw [hle _ _ hroot] at hdir
    cases hdir
  · rfl

/-- Which tree is on top does not matter if the trees agree on leaves. -/
theorem merge_comm (hA : IsTree A) (hB : IsTree B) (h : Agree A B) : merge A B = merge B A := by
  funext p
  have hflip {C D : PathMap K L} (hC : IsTree C) (hD : IsTree D) (h : Agree C D) {l : L}
      (hl : merge C D p = some (.leaf l)) : merge D C p = some (.leaf l) := by
    rw [merge_eq_leaf hC hD] at hl
    rw [merge_eq_leaf hD hC]
    obtain ⟨hDp, hCo⟩ | ⟨hCp, hDo, -⟩ := hl
    · by_cases hCp : ∃ m, C p = some (.leaf m)
      · obtain ⟨m, hm⟩ := hCp
        obtain rfl := h p m l hm hDp
        exact .inl ⟨hm, hD.open_of_ne_none (by simp [hDp])⟩
      · exact .inr ⟨hDp, hCo, fun m hm => hCp ⟨m, hm⟩⟩
    · exact .inl ⟨hCp, hDo⟩
  refine ext_of_iff ?_ fun l => ⟨hflip hA hB h, hflip hB hA h.symm⟩
  rw [merge_eq_dir hA hB, merge_eq_dir hB hA]
  tauto

/-! ## Putting a tree at a path -/

section PutAt

variable [DecidableEq K] {path : List K}

/-- The tree with another one put at a path. -/
def putAt (A B : PathMap K L) : List K → PathMap K L
  | [] => B
  | k :: path => fun
    | [] => some .dir
    | l :: p => if l = k then putAt (A.below k) B path p else A (l :: p)

theorem putAt_append (A B : PathMap K L) (path q : List K) : putAt A B path (path ++ q) = B q := by
  induction path generalizing A with
  | nil => rfl
  | cons k path ih => simp [putAt, ih]

theorem putAt_above (hq : q <+: path) (hne : q ≠ path) : putAt A B path q = some .dir := by
  induction path generalizing A q with
  | nil => exact absurd (prefix_nil.mp hq) hne
  | cons k path ih =>
    cases q with
    | nil => rfl
    | cons l q =>
      obtain ⟨rfl, hqp⟩ := cons_prefix_cons.mp hq
      simp only [putAt, if_true]
      exact ih hqp fun heq => hne (by rw [heq])

theorem putAt_apart (h : ¬ path <+: q) (h' : ¬ q <+: path) : putAt A B path q = A q := by
  induction path generalizing A q with
  | nil => exact absurd nil_prefix h
  | cons k path ih =>
    cases q with
    | nil => exact absurd nil_prefix h'
    | cons l q =>
      rw [cons_prefix_cons, not_and] at h h'
      by_cases hl : l = k
      · subst hl
        simp only [putAt, if_true]
        exact ih (h rfl) (h' rfl)
      · simp [putAt, hl]

/-- The tree that has an entry at a path and the directories above it, and nothing else. -/
def only (path : List K) (B : PathMap K L) : PathMap K L := putAt (fun _ => none) B path

theorem only_isTree (hB : ∀ p k, B (p ++ [k]) ≠ none → B p = some .dir) (hpath : path ≠ []) :
    IsTree (only path B) := by
  refine ⟨?_, fun p k => ?_⟩
  · cases path with
    | nil => exact absurd rfl hpath
    | cons k path => rfl
  · clear hpath
    induction path generalizing p with
    | nil => exact hB p k
    | cons k' path ih =>
      cases p with
      | nil => exact fun _ => rfl
      | cons l p =>
        rw [cons_append]
        simp only [only, putAt]
        split
        · exact ih p
        · exact fun h => absurd rfl h

/-- **Merging one entry** puts it at its path, if it hides what is there or is there already. -/
theorem mergeBelow_only (hR : path = [] ∨ IsTree R ∨ ∀ q, R q = none) (hopen : Open R path)
    (hB : mergeBelow (fun q => R (path ++ q)) B = B) :
    mergeBelow R (only path B) = putAt R B path := by
  induction path generalizing R with
  | nil => exact hB
  | cons k path ih =>
    rcases hR with hnil | htree | hnone
    · cases hnil
    · funext q
      have hmerge : mergeBelow R (only (k :: path) B) q = merge R (only (k :: path) B) q := by
        simp [mergeBelow, htree.root, only, putAt]
      rw [hmerge]
      cases q with
      | nil => rfl
      | cons l q =>
        refine (congrFun (below_merge R) q).trans ?_
        simp only [putAt]
        split
        · next hl =>
          subst hl
          have hbelow : (only (l :: path) B).below l = only path B := by
            funext q
            simp only [only, putAt, below, if_true]
            rfl
          have hopen' := (open_cons htree.root).mp hopen
          have hR' : path = [] ∨ IsTree (R.below l) ∨ ∀ q, R.below l q = none := by
            rcases hk : R [l] with _ | _ | m
            · refine .inr (.inr fun q => ?_)
              rcases eq_or_ne q [] with rfl | hq
              · exact hk
              · exact htree.eq_none_of_cons (by simp [hk]) hq
            · exact .inr (.inl (htree.below hk))
            · exact .inl (hopen'.1.resolve_right fun h => h m hk)
          rw [hbelow, ih hR' hopen'.2 hB]
        · next hl => simp [mergeBelow, below, only, putAt, hl]
    · obtain rfl : R = fun _ => none := funext hnone
      funext q
      simp [mergeBelow, only, putAt]

theorem merge_only (hR : IsTree R) (hpath : path ≠ []) (hopen : Open R path)
    (hB : mergeBelow (fun q => R (path ++ q)) B = B) : merge R (only path B) = putAt R B path := by
  rw [← mergeBelow_only (.inr (.inl hR)) hopen hB]
  cases path with
  | nil => exact absurd rfl hpath
  | cons k path =>
    funext q
    simp [mergeBelow, hR.root, only, putAt]

theorem merge_only_hidden (hR : IsTree R) (hq : q <+: path) (hne : q ≠ path)
    (hl : R q = some (.leaf l)) : merge R (only path B) = R := by
  induction q generalizing R path with
  | nil =>
    rw [hR.root] at hl
    cases hl
  | cons k q ih =>
    obtain ⟨rest, rfl⟩ := hq
    have hrest : q ++ rest ≠ [] := by
      intro h
      obtain ⟨rfl, rfl⟩ := append_eq_nil_iff.mp h
      exact hne rfl
    have hroot : only (q ++ rest) B [] = some .dir := putAt_above nil_prefix hrest.symm
    funext p
    cases p with
    | nil => exact hR.root.symm
    | cons k' p =>
      by_cases hk : k' = k
      · subst hk
        have honly : (only (k' :: q ++ rest) B).below k' = only (q ++ rest) B := by
          funext q'
          simp only [only, putAt, below, cons_append, if_true]
          rfl
        refine (congrFun (below_merge R) p).trans ?_
        rw [honly, mergeBelow, hroot]
        rcases eq_or_ne q [] with rfl | hqne
        · simp only [below, hl]
        · have hdir : R [k'] = some .dir := hR.dir_of_append (p := [k']) hqne (by simp [hl])
          simp only [below, hdir]
          refine congrFun (ih (hR.below hdir) (prefix_append _ _) ?_ hl) p
          exact fun h => hne (by rw [cons_append, ← h])
      · simp [merge, only, putAt, hk]

end PutAt

/-! ## Unions -/

/-- The union of trees: what lies below a leaf of one of them is hidden. -/
structure IsUnion (trees : List (PathMap K L)) (R : PathMap K L) : Prop where
  leaf : ∀ p l, R p = some (.leaf l) ↔
    (∃ A ∈ trees, A p = some (.leaf l)) ∧ ∀ A ∈ trees, Open A p
  dir : ∀ p, R p = some .dir ↔ (p = [] ∨ ∃ A ∈ trees, A p = some .dir) ∧
    (∀ A ∈ trees, Open A p) ∧ ∀ A ∈ trees, ∀ l, A p ≠ some (.leaf l)

namespace IsUnion

variable {trees trees' : List (PathMap K L)}

theorem congr (h : IsUnion trees R) (hmem : ∀ A, A ∈ trees ↔ A ∈ trees') : IsUnion trees' R := by
  constructor
  · simpa only [hmem] using h.leaf
  · simpa only [hmem] using h.dir

theorem unique (h : IsUnion trees R) (h' : IsUnion trees C) : R = C := by
  funext p
  refine ext_of_iff ?_ fun l => ?_
  · rw [h.dir, h'.dir]
  · rw [h.leaf, h'.leaf]

theorem nil : IsUnion [] (fun p => if p = ([] : List K) then some (.dir : Node L) else none) := by
  constructor
  · intro p l
    by_cases hp : p = [] <;> simp [hp]
  · intro p
    by_cases hp : p = [] <;> simp [hp]

variable (h : IsUnion trees R)
include h

/-- A leaf of one of the trees above a path is, or is below, a leaf of the union. -/
theorem exists_leaf (hA : A ∈ trees) (hl : A p = some (.leaf l)) :
    ∃ q m, q <+: p ∧ R q = some (.leaf m) ∧ ∃ B ∈ trees, B q = some (.leaf m) := by
  induction hn : p.length using Nat.strong_induction_on generalizing A p l with
  | h n ih =>
    by_cases hopen : ∀ B ∈ trees, Open B p
    · exact ⟨p, l, prefix_refl p, (h.leaf p l).mpr ⟨⟨A, hA, hl⟩, hopen⟩, A, hA, hl⟩
    · simp only [Open, not_forall] at hopen
      obtain ⟨B, hB, q, m, hq, hne, hm⟩ := hopen
      have hlt : q.length < n := by
        refine hn ▸ lt_of_le_of_ne hq.length_le fun heq => hne (hq.eq_of_length heq)
      obtain ⟨r, m', hr, hR⟩ := ih _ hlt hB (not_not.mp hm) rfl
      exact ⟨r, m', hr.trans hq, hR⟩

theorem open_iff : Open R p ↔ ∀ A ∈ trees, Open A p := by
  constructor
  · intro hopen A hA q l hq hne hl
    obtain ⟨r, m, hr, hR, -⟩ := h.exists_leaf hA hl
    refine hopen r m (hr.trans hq) ?_ hR
    rintro rfl
    exact hne (hq.eq_of_length (le_antisymm hq.length_le hr.length_le))
  · intro hopen q l hq hne hl
    obtain ⟨⟨A, hA, hAl⟩, -⟩ := (h.leaf q l).mp hl
    exact hopen A hA q l hq hne hAl

theorem isTree (htrees : ∀ A ∈ trees, IsTree A) : IsTree R := by
  constructor
  · refine (h.dir []).mpr ⟨.inl rfl, fun A _ => open_nil A, fun A hA l => ?_⟩
    rw [(htrees A hA).root]
    simp
  · intro p k hp
    obtain ⟨⟨A, hA, hAp⟩, hopen⟩ : (∃ A ∈ trees, A (p ++ [k]) ≠ none) ∧
        ∀ A ∈ trees, Open A (p ++ [k]) := by
      obtain ⟨n, hn⟩ := Option.ne_none_iff_exists'.mp hp
      cases n with
      | dir =>
        obtain ⟨hdir, hopen, -⟩ := (h.dir _).mp hn
        obtain hnil | ⟨A, hA, hAp⟩ := hdir
        · simp at hnil
        · exact ⟨⟨A, hA, by simp [hAp]⟩, hopen⟩
      | leaf l =>
        obtain ⟨⟨A, hA, hAp⟩, hopen⟩ := (h.leaf _ l).mp hn
        exact ⟨⟨A, hA, by simp [hAp]⟩, hopen⟩
    have hpk : p <+: p ++ [k] := prefix_append _ _
    refine (h.dir p).mpr ⟨.inr ⟨A, hA, (htrees A hA).parent p k hAp⟩, ?_, ?_⟩
    · intro B hB q l hq hne
      refine hopen B hB q l (hq.trans hpk) ?_
      rintro rfl
      have hlen := hq.length_le
      exact absurd hlen (by simp)
    · exact fun B hB l => hopen B hB p l hpk (by simp)

theorem agree (hagree : ∀ A ∈ trees, Agree A B) : Agree R B := by
  intro p l m hl hm
  obtain ⟨⟨A, hA, hAl⟩, -⟩ := (h.leaf p l).mp hl
  exact hagree A hA p l m hAl hm

theorem clash_left (hclash : Clash R B p l) : ∃ A ∈ trees, Clash A B p l := by
  obtain ⟨⟨A, hA, hAl⟩, -⟩ := (h.leaf p l).mp hclash.1
  exact ⟨A, hA, hAl, hclash.2⟩

theorem clash_right (hclash : Clash B R p l) (hp : p ≠ []) : ∃ A ∈ trees, Clash B A p l := by
  obtain ⟨hdir, -⟩ := (h.dir p).mp hclash.2
  obtain ⟨A, hA, hAp⟩ := hdir.resolve_left hp
  exact ⟨A, hA, hclash.1, hAp⟩

/-- **Merging another tree** gives the union with it. -/
theorem merge (htrees : ∀ A ∈ trees, IsTree A) (hB : IsTree B)
    (hagree : ∀ A ∈ trees, Agree A B) : IsUnion (B :: trees) (merge R B) := by
  have hR := h.isTree htrees
  constructor
  · intro p l
    rw [merge_eq_leaf hR hB, h.open_iff]
    constructor
    · rintro (⟨hBp, hopen⟩ | ⟨hRp, hBo, -⟩)
      · refine ⟨⟨B, mem_cons_self, hBp⟩, forall_mem_cons.mpr ⟨?_, hopen⟩⟩
        exact hB.open_of_ne_none (by simp [hBp])
      · obtain ⟨⟨A, hA, hAp⟩, hopen⟩ := (h.leaf p l).mp hRp
        exact ⟨⟨A, mem_cons_of_mem _ hA, hAp⟩, forall_mem_cons.mpr ⟨hBo, hopen⟩⟩
    · rintro ⟨⟨A, hA, hAp⟩, hall⟩
      obtain ⟨hBo, hopen⟩ := forall_mem_cons.mp hall
      rcases mem_cons.mp hA with rfl | hA
      · exact .inl ⟨hAp, hopen⟩
      · by_cases hBp : ∃ m, B p = some (.leaf m)
        · obtain ⟨m, hm⟩ := hBp
          obtain rfl := hagree A hA p l m hAp hm
          exact .inl ⟨hm, hopen⟩
        · exact .inr ⟨(h.leaf p l).mpr ⟨⟨A, hA, hAp⟩, hopen⟩, hBo, fun m hm => hBp ⟨m, hm⟩⟩
  · intro p
    rw [merge_eq_dir hR hB, h.open_iff]
    constructor
    · rintro ⟨hdir, ⟨hopen, hBo⟩, hRl, hBl⟩
      have hleaf : ∀ A ∈ trees, ∀ l, A p ≠ some (.leaf l) :=
        fun A hA l hl => hRl l ((h.leaf p l).mpr ⟨⟨A, hA, hl⟩, hopen⟩)
      refine ⟨?_, forall_mem_cons.mpr ⟨hBo, hopen⟩, forall_mem_cons.mpr ⟨hBl, hleaf⟩⟩
      rcases hdir with hRp | hBp
      · exact ((h.dir p).mp hRp).1.imp_right fun ⟨A, hA, hAp⟩ =>
          ⟨A, mem_cons_of_mem _ hA, hAp⟩
      · exact .inr ⟨B, mem_cons_self, hBp⟩
    · rintro ⟨hdir, hopen, hleaf⟩
      obtain ⟨hBo, hopen⟩ := forall_mem_cons.mp hopen
      obtain ⟨hBl, hleaf⟩ := forall_mem_cons.mp hleaf
      have hRl : ∀ l, R p ≠ some (.leaf l) := by
        intro l hl
        obtain ⟨⟨A, hA, hAp⟩, -⟩ := (h.leaf p l).mp hl
        exact hleaf A hA l hAp
      refine ⟨?_, ⟨hopen, hBo⟩, hRl, hBl⟩
      obtain rfl | ⟨A, hA, hAp⟩ := hdir
      · exact .inr hB.root
      · rcases mem_cons.mp hA with rfl | hA
        · exact .inr hAp
        · exact .inl ((h.dir p).mpr ⟨.inr ⟨A, hA, hAp⟩, hopen, hleaf⟩)

/-- What all trees have below a path is in a tree: so is what the union has there. -/
theorem le_of_forall {D : PathMap K L} {path : List K} (hpath : path ≠ [])
    (hle : ∀ A ∈ trees, ∀ q n, A (path ++ q) = some n → D q = some n) (q : List K) (n : Node L)
    (hq : R (path ++ q) = some n) : D q = some n := by
  cases n with
  | leaf l =>
    obtain ⟨⟨A, hA, hl⟩, -⟩ := (h.leaf _ l).mp hq
    exact hle A hA q _ hl
  | dir =>
    obtain ⟨A, hA, hdir⟩ := ((h.dir _).mp hq).1.resolve_left (by simp [hpath])
    exact hle A hA q _ hdir

end IsUnion

end PathMap

end Bz
