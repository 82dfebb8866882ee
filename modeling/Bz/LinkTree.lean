import Mathlib.Data.List.Infix

/-!
# File trees with symlinks

A tree maps locations, the names from the root on, to directories, files and symlinks.  A path is
walked component by component, and a symlink on the way is replaced by its target; the number of
symlinks of one walk is bounded, as in an operating system.

Principal result: `walk_confined`: a walk that never takes `..` at a symlink, or below one, stays
below the directory it begins in.
-/

namespace Bz.LinkTree

open List Option

variable {α : Type}

/-- A component of a path. -/
inductive Component (α : Type) where
  | root
  | cur
  | parent
  | normal (name : α)
  deriving DecidableEq

/-- What can be at a location. -/
inductive Node (α : Type) where
  | directory
  | file
  | symlink (target : List (Component α))
  deriving DecidableEq

/-- What is at the locations; an entry hides later ones. -/
abbrev Tree (α : Type) := List (List α × Node α)

variable [DecidableEq α] {follow : Bool} {names : List α}

namespace Tree

def get : Tree α → List α → Option (Node α)
  | [], _ => none
  | (loc', node) :: tree, loc => if loc = loc' then some node else get tree loc

def put (tree : Tree α) (loc : List α) (node : Node α) : Tree α := (loc, node) :: tree

def del (tree : Tree α) (loc : List α) : Tree α := tree.filter fun entry => entry.1 ≠ loc

/-- Nothing is in the directory. -/
def isEmpty (tree : Tree α) (loc : List α) : Bool :=
  tree.all fun entry => !(entry.1 ≠ [] && entry.1.dropLast = loc)

theorem get_cons (entry : List α × Node α) (tree : Tree α) (loc : List α) :
    get (entry :: tree) loc = if loc = entry.1 then some entry.2 else tree.get loc := rfl

theorem get_put (tree : Tree α) (loc : List α) (node : Node α) (loc' : List α) :
    (tree.put loc node).get loc' = if loc' = loc then some node else tree.get loc' :=
  get_cons _ _ _

theorem get_del (tree : Tree α) (loc loc' : List α) :
    (tree.del loc).get loc' = if loc' = loc then none else tree.get loc' := by
  induction tree with
  | nil => simp [del, get]
  | cons entry tree ih =>
    rw [del] at ih ⊢
    by_cases hentry : entry.1 = loc
    · rw [filter_cons_of_neg (by simpa using hentry), ih, get_cons, hentry]
      split <;> rfl
    · rw [filter_cons_of_pos (by simpa using hentry), get_cons, get_cons, ih]
      by_cases hloc : loc' = entry.1
      · rw [if_pos hloc, if_pos hloc, if_neg fun h => hentry (hloc ▸ h)]
      · rw [if_neg hloc, if_neg hloc]

end Tree

/-! ## Walks -/

/-- A walk from a location, with what a symlink leads to; at the end of the path only if `follow`
says so. -/
def walkFrom (tree : Tree α) (follow : Bool) (jump : List α → List (Component α) → Option
    (List α)) :
    List α → List (Component α) → Option (List α)
  | loc, [] => some loc
  | _, .root :: path => walkFrom tree follow jump [] path
  | loc, .cur :: path => walkFrom tree follow jump loc path
  | loc, .parent :: path => walkFrom tree follow jump loc.dropLast path
  | loc, .normal name :: path => match tree.get (loc ++ [name]) with
    | some (.symlink target) =>
      if path = [] ∧ follow = false then some (loc ++ [name]) else jump loc (target ++ path)
    | some .directory => walkFrom tree follow jump (loc ++ [name]) path
    | some .file => if path = [] then some (loc ++ [name]) else none
    | none => if path = [] then some (loc ++ [name]) else none

/-- Where a path leads from a location, over at most `links` symlinks. -/
def walk (tree : Tree α) (follow : Bool) : Nat → List α → List (Component α) → Option (List α)
  | 0 => walkFrom tree follow fun _ _ => none
  | links + 1 => walkFrom tree follow (walk tree follow links)

section Confined

variable (linked : List α → Prop)

/-- The path, walked lexically from below a directory, stays there and takes `..` only where no
symlink is passed. -/
def Confined : List α → List (Component α) → Prop
  | _, [] => True
  | _, .root :: _ => False
  | rel, .cur :: path => Confined rel path
  | rel, .parent :: path =>
    rel ≠ [] ∧ (∀ link, linked link → ¬ link <+: rel) ∧ Confined rel.dropLast path
  | rel, .normal name :: path => Confined (rel ++ [name]) path

/-- The symlinks below the directory are at the given places, and are confined. -/
def LinksConfined (dir : List α) (tree : Tree α) : Prop :=
  ∀ rel target, tree.get (dir ++ rel) = some (.symlink target) →
    linked rel ∧ Confined linked rel.dropLast target

variable {linked} {path : List (Component α)} {rel dir loc : List α} {tree : Tree α}

omit [DecidableEq α] in
theorem confined_normal (rel names : List α) : Confined linked rel (names.map .normal) := by
  induction names generalizing rel with
  | nil => trivial
  | cons name names ih => exact ih _

omit [DecidableEq α] in
/-- Below a symlink, a confined path has no `..`, and may be walked from anywhere. -/
theorem Confined.of_linked {link : List α} (hlink : linked link) (hle : link <+: rel)
    (h : Confined linked rel path) (rel' : List α) : Confined linked rel' path := by
  induction path generalizing rel rel' with
  | nil => trivial
  | cons component path ih =>
    cases component with
    | root => exact h
    | cur => exact ih hle h rel'
    | parent => exact absurd hle (h.2.1 link hlink)
    | normal name => exact ih (hle.trans (prefix_append _ _)) h _

omit [DecidableEq α] in
/-- Fewer symlinks confine a path as well. -/
theorem Confined.mono {linked' : List α → Prop} (h : Confined linked rel path)
    (hsub : ∀ link, linked' link → linked link) : Confined linked' rel path := by
  induction path generalizing rel with
  | nil => trivial
  | cons component path ih =>
    cases component with
    | root => exact h
    | cur | normal name => exact ih h
    | parent => exact ⟨h.1, fun link hlink => h.2.1 link (hsub link hlink), ih h.2.2⟩

omit [DecidableEq α] in
theorem Confined.append {rest : List (Component α)} (h : Confined linked rel path)
    (hrest : ∀ rel', Confined linked rel' rest) : Confined linked rel (path ++ rest) := by
  induction path generalizing rel with
  | nil => exact hrest rel
  | cons component path ih =>
    cases component with
    | root => exact h
    | cur | normal name => exact ih h
    | parent => exact ⟨h.1, h.2.1, ih h.2.2⟩

variable (hlinks : LinksConfined linked dir tree)
include hlinks

theorem walkFrom_confined {jump : List α → List (Component α) → Option (List α)}
    (hjump : ∀ rel path loc, Confined linked rel path → jump (dir ++ rel) path = some loc →
      dir <+: loc)
    (hpath : Confined linked rel path) (h : walkFrom tree follow jump (dir ++ rel) path =
      some loc) : dir <+: loc := by
  induction path generalizing rel with
  | nil =>
    cases h
    exact prefix_append _ _
  | cons component path ih =>
    cases component with
    | root => exact hpath.elim
    | cur => exact ih hpath h
    | parent =>
      obtain ⟨hne, -, hpath⟩ := hpath
      rw [walkFrom, dropLast_append_of_ne_nil hne] at h
      exact ih hpath h
    | normal name =>
      have hend : some (dir ++ rel ++ [name]) = some loc → dir <+: loc := fun heq =>
        Option.some.inj heq ▸ (prefix_append _ _).trans (prefix_append _ _)
      rw [walkFrom] at h
      split at h
      · next target hget =>
        rw [append_assoc] at hget
        obtain ⟨hlinked, htarget⟩ := hlinks _ _ hget
        rw [dropLast_concat] at htarget
        split at h
        · exact hend h
        · exact hjump rel _ loc
            (htarget.append fun rel' => hpath.of_linked hlinked (prefix_refl _) rel') h
      · rw [append_assoc] at h
        exact ih hpath h
      · split at h
        · exact hend h
        · cases h
      · split at h
        · exact hend h
        · cases h

/-- **Confined walks.**  A confined path leads to a location below the directory, if the symlinks
there are confined. -/
theorem walk_confined (links : Nat) (hpath : Confined linked rel path)
    (h : walk tree follow links (dir ++ rel) path = some loc) : dir <+: loc := by
  induction links generalizing rel path loc with
  | zero => exact walkFrom_confined hlinks (fun _ _ _ _ h => by cases h) hpath h
  | succ links ih => exact walkFrom_confined hlinks (fun _ _ _ hpath h => ih hpath h) hpath h

theorem walk_names_append (links : Nat)
    (hnames : ∀ link, linked link → link <+: rel ++ names → link <+: rel ∨ link = rel ++ names)
    (h : walk tree false links (dir ++ rel) (names.map .normal) = some loc) :
    loc = dir ++ (rel ++ names) := by
  have hfrom : ∃ jump, walk tree false links = walkFrom tree false jump := by
    cases links with
    | zero | succ links => exact ⟨_, rfl⟩
  obtain ⟨jump, hwalk⟩ := hfrom
  rw [hwalk] at h
  induction names generalizing rel with
  | nil =>
    cases h
    rw [append_nil]
  | cons name names ih =>
    have hassoc : rel ++ name :: names = rel ++ [name] ++ names := by
      rw [append_assoc, singleton_append]
    have hend : names.map Component.normal = [] → some (dir ++ rel ++ [name]) = some loc →
        loc = dir ++ (rel ++ name :: names) := by
      intro hnil heq
      rw [map_eq_nil_iff] at hnil
      rw [← Option.some.inj heq, hnil, append_assoc]
    rw [map_cons, walkFrom] at h
    split at h
    · next target hget =>
      split at h
      · next hlast => exact hend hlast.1 h
      · next hlast =>
        -- a symlink on the way would be one of the places that the path avoids
        rw [append_assoc] at hget
        have hlinked := (hlinks _ _ hget).1
        rcases hnames _ hlinked (hassoc ▸ prefix_append _ _) with hle | heq
        · have hlength := hle.length_le
          rw [length_append, length_singleton] at hlength
          omega
        · rw [hassoc] at heq
          exact absurd ⟨by rw [self_eq_append_right.mp heq]; rfl, rfl⟩ hlast
    · rw [append_assoc] at h
      rw [hassoc] at hnames ⊢
      refine ih (fun link hlinked hle => ?_) h
      rcases hnames link hlinked hle with hle | heq
      · exact .inl (hle.trans (prefix_append _ _))
      · exact .inr heq
    · split at h
      · next hnil => exact hend hnil h
      · cases h
    · split at h
      · next hnil => exact hend hnil h
      · cases h

/-- A path of names that passes no symlink before its end leads where it says. -/
theorem walk_names (links : Nat) (hnames : ∀ link, linked link → link <+: names → link = names)
    (h : walk tree false links dir (names.map .normal) = some loc) : loc = dir ++ names := by
  have hrel : ∀ link, linked link → link <+: [] ++ names → link <+: [] ∨ link = [] ++ names :=
    fun link hlinked hle => .inr (hnames link hlinked hle)
  rw [← append_nil dir] at h
  exact walk_names_append hlinks links hrel h

end Confined

/-! ## Operations -/

/-- A tree, and the locations that operations have touched. -/
structure World (α : Type) where
  tree : Tree α
  touched : List (List α)

namespace World

variable (links : Nat) (dir : List α) (w : World α)

def putAt (loc : List α) (node : Node α) : World α :=
  ⟨w.tree.put loc node, loc :: w.touched⟩

def delAt (loc : List α) : World α := ⟨w.tree.del loc, loc :: w.touched⟩

def touch (loc : List α) : World α := ⟨w.tree, loc :: w.touched⟩

/-- What is at a path, whose last component is not followed. -/
def lstat (path : List (Component α)) : Option (Node α) :=
  (walk w.tree false links dir path).bind w.tree.get

def isDir (path : List (Component α)) : Bool :=
  ((walk w.tree true links dir path).bind w.tree.get) = some .directory

/-- Make a directory, unless there is one. -/
def createDir (path : List (Component α)) : Option (World α) :=
  (walk w.tree false links dir path).bind fun loc =>
    if w.tree.get loc = none then some (w.putAt loc .directory)
    else if w.isDir links dir path then some w else none

/-- Make the directories of a path, up to the first that fails. -/
def createDirAllFrom : List (Component α) → List (Component α) → World α → World α × Bool
  | _, [], w => (w, true)
  | start, component :: path, w => match w.createDir links dir (start ++ [component]) with
    | none => (w, false)
    | some w => createDirAllFrom (start ++ [component]) path w

section

variable (path : List (Component α))

def createDirAll : World α × Bool :=
  createDirAllFrom links dir [] path w

/-- Make a file where there is nothing. -/
def createNew : Option (World α) :=
  (walk w.tree false links dir path).bind fun loc =>
    if w.tree.get loc = none then some (w.putAt loc .file) else none

/-- Make a file, or overwrite the one that is there. -/
def createFile : Option (World α) :=
  (walk w.tree true links dir path).bind fun loc => match w.tree.get loc with
    | none => some (w.putAt loc .file)
    | some .file => some (w.touch loc)
    | some _ => none

/-- Remove a file or a symlink. -/
def removeFile : Option (World α) :=
  (walk w.tree false links dir path).bind fun loc => match w.tree.get loc with
    | none => none
    | some .directory => none
    | some _ => some (w.delAt loc)

/-- Remove an empty directory. -/
def removeDir : Option (World α) :=
  (walk w.tree false links dir path).bind fun loc =>
    if w.tree.get loc = some .directory ∧ w.tree.isEmpty loc then some (w.delAt loc) else none

end

def symlink (target path : List (Component α)) : Option (World α) :=
  (walk w.tree false links dir path).bind fun loc =>
    if w.tree.get loc = none then some (w.putAt loc (.symlink target)) else none

/-- Another name for a file; a symlink is not followed. -/
def hardLink (source path : List (Component α)) : Option (World α) :=
  (walk w.tree false links dir source).bind fun source =>
    (walk w.tree false links dir path).bind fun loc =>
      match w.tree.get source with
      | none => none
      | some .directory => none
      | some node =>
        if w.tree.get loc = none then some ((w.touch source).putAt loc node) else none

/-- Only locations below the directory are touched, and no symlinks are made. -/
structure Keeps (w w' : World α) : Prop where
  touched : ∀ loc ∈ w'.touched, loc ∈ w.touched ∨ dir <+: loc
  symlinks : ∀ loc target, w'.tree.get loc = some (.symlink target) →
    w.tree.get loc = some (.symlink target)

variable {links dir} {linked : List α → Prop} {w w' w'' : World α} {loc : List α}

theorem Keeps.refl (w : World α) : Keeps dir w w := ⟨fun _ => .inl, fun _ _ => id⟩

theorem Keeps.trans (h : Keeps dir w w') (h' : Keeps dir w' w'') : Keeps dir w w'' :=
  ⟨fun loc hloc => (h'.touched loc hloc).elim (h.touched loc) .inr,
    fun loc target hget => h.symlinks loc target (h'.symlinks loc target hget)⟩

theorem Keeps.putAt (hloc : dir <+: loc) {node : Node α} (hnode : ∀ target,
    node ≠ .symlink target) : Keeps dir w (w.putAt loc node) := by
  refine ⟨forall_mem_cons.mpr ⟨.inr hloc, fun _ => .inl⟩, fun loc' target hget => ?_⟩
  rw [World.putAt, Tree.get_put] at hget
  split at hget
  · exact absurd (Option.some.inj hget) (hnode target)
  · exact hget

theorem Keeps.delAt (hloc : dir <+: loc) : Keeps dir w (w.delAt loc) := by
  refine ⟨forall_mem_cons.mpr ⟨.inr hloc, fun _ => .inl⟩, fun loc' target hget => ?_⟩
  rw [World.delAt, Tree.get_del] at hget
  split at hget
  · cases hget
  · exact hget

theorem Keeps.touch (hloc : dir <+: loc) : Keeps dir w (w.touch loc) :=
  ⟨forall_mem_cons.mpr ⟨.inr hloc, fun _ => .inl⟩, fun _ _ => id⟩

section Names

variable (hlinks : LinksConfined linked dir w.tree)
include hlinks

theorem prefix_of_walk
    (h : walk w.tree follow links dir (names.map .normal) = some loc) : dir <+: loc := by
  rw [← append_nil dir] at h
  exact walk_confined hlinks links (confined_normal [] names) h

theorem createDir_keeps (h : w.createDir links dir (names.map .normal) = some w') :
    Keeps dir w w' := by
  obtain ⟨loc, hwalk, h⟩ := bind_eq_some_iff.mp h
  split at h
  · cases h
    exact .putAt (prefix_of_walk hlinks hwalk) nofun
  · split at h
    · cases h
      exact .refl w
    · cases h

theorem createDirAllFrom_keeps (start : List α) :
    Keeps dir w (createDirAllFrom links dir (start.map .normal) (names.map .normal) w).1 := by
  induction names generalizing start w with
  | nil => exact .refl _
  | cons name names ih =>
    have hstart : start.map Component.normal ++ [.normal name] = (start ++ [name]).map .normal := by
      rw [map_append, map_singleton]
    rw [map_cons, createDirAllFrom, hstart]
    split
    · exact .refl _
    · next hnext =>
      have hkeeps := createDir_keeps hlinks hnext
      refine hkeeps.trans (ih (fun rel target hget => ?_) _)
      exact hlinks rel target (hkeeps.symlinks _ target hget)

theorem createNew_keeps (h : w.createNew links dir (names.map .normal) = some w') :
    Keeps dir w w' := by
  obtain ⟨loc, hwalk, h⟩ := bind_eq_some_iff.mp h
  split at h
  · cases h
    exact .putAt (prefix_of_walk hlinks hwalk) nofun
  · cases h

theorem createFile_keeps (h : w.createFile links dir (names.map .normal) = some w') :
    Keeps dir w w' := by
  obtain ⟨loc, hwalk, h⟩ := bind_eq_some_iff.mp h
  split at h
  · cases h
    exact .putAt (prefix_of_walk hlinks hwalk) nofun
  · cases h
    exact .touch (prefix_of_walk hlinks hwalk)
  · cases h

theorem removeFile_keeps (h : w.removeFile links dir (names.map .normal) = some w') :
    Keeps dir w w' := by
  obtain ⟨loc, hwalk, h⟩ := bind_eq_some_iff.mp h
  split at h
  · cases h
  · cases h
  · cases h
    exact .delAt (prefix_of_walk hlinks hwalk)

theorem removeDir_keeps (h : w.removeDir links dir (names.map .normal) = some w') :
    Keeps dir w w' := by
  obtain ⟨loc, hwalk, h⟩ := bind_eq_some_iff.mp h
  split at h
  · cases h
    exact .delAt (prefix_of_walk hlinks hwalk)
  · cases h

/-- A symlink is made at its place, where its path passes no other. -/
theorem symlink_eq (hnames : ∀ link, linked link → link <+: names → link = names)
    {target : List (Component α)} (h : w.symlink links dir target (names.map .normal) = some w') :
    w' = w.putAt (dir ++ names) (.symlink target) := by
  obtain ⟨loc, hwalk, h⟩ := bind_eq_some_iff.mp h
  split at h
  · cases h
    rw [walk_names hlinks links hnames hwalk]
  · cases h

theorem hardLink_keeps {source : List α} (hsource : ∀ link, linked link → ¬ link <+: source)
    (h : w.hardLink links dir (source.map .normal) (names.map .normal) = some w') :
    Keeps dir w w' := by
  obtain ⟨loc, hwalk, h⟩ := bind_eq_some_iff.mp h
  obtain ⟨loc', hwalk', h⟩ := bind_eq_some_iff.mp h
  have hloc := prefix_of_walk hlinks hwalk
  have hloc' := prefix_of_walk hlinks hwalk'
  split at h
  · cases h
  · cases h
  · next node _ hget =>
    split at h
    · cases h
      refine (Keeps.touch hloc).trans (.putAt hloc' ?_)
      rintro target rfl
      rw [walk_names hlinks links (fun link hlinked hle => absurd hle (hsource link hlinked)) hwalk]
        at hget
      exact hsource _ (hlinks _ _ hget).1 (prefix_refl _)
    · cases h

end Names

end World

end Bz.LinkTree
