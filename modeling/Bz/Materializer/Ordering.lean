import Bz.Materializer.Running

/-!
# The order of operations on overlapping paths

A clean waits for the futures of the entries that its declaration removes from the tree, and a
materialization for the clean of its entry.  An operation that is still to come has to be found by
every later operation on an overlapping path: it is *represented* by the future of an entry at or
above its path, or by that of an invalidation.  A declaration below a path that is still being
written drops the entry that represents the write, and a future that fails early no longer stands
for what it was waiting for.

Principal results: `Arranged.step`, the invariant, for steps that are `Orderly`;
`overlapping_operations_ordered`.
-/

namespace Bz.Materializer

open Bz.Awaits Bz.Machine DataTree List

/-! ## Futures that stand for operations -/

/-- The paths that a future is about. -/
def FutureId.scope : FutureId → List Path
  | .task _ _ path => [path]
  | .join _ paths => paths

/-- The path overlaps one that the future is about. -/
def Meets (q : Path) (u : FutureId) : Prop := ∃ p ∈ u.scope, Overlap q p

theorem Overlap.symm {a b : Path} (h : Overlap a b) : Overlap b a := Or.symm h

variable {p : Path} {u id : FutureId} {k : Job FutureId Op} {op : Op} {state s : State}
  {todo rest : List (Action FutureId Op)} {must : Bool} {stack : List Path}
  {copies links : List Materializing}
  {future : ProcessingFuture} {version : Version} {j : Job FutureId Op} {joins index : Nat}
  {a : Action FutureId Op} {ok windows : Bool} {task : Task} {futures : List Materializing}
  {paths : List Path} {cleaning : Option FutureId} {write : Option Op}

theorem meets_task {q : Path} : Meets q (.task future version p) ↔ Overlap q p := by
  simp [Meets, FutureId.scope]

/-- The future `u` resolves only after the operation at `q` of the job `k`. -/
def StandsFor (ids : List FutureId) (u k : FutureId) (q : Path) : Prop :=
  u = k ∨ Earlier ids k u ∧ Meets q u

/-- What a job waits for before it does anything. -/
def guard (todo : List (Action FutureId Op)) : List (Action FutureId Op) :=
  todo.takeWhile fun
    | .await _ _ => true
    | _ => false

/-- A future that has not resolved. -/
def Unresolved (w : Live) (u : FutureId) : Prop := u ∈ ids w.jobs ∧ resolved w.jobs u = none

/-- The invariant of orderly runs. -/
structure Arranged (w : Live) : Prop where
  /-- A job performs operations at its path. -/
  shape : ∀ j ∈ w.jobs, ∀ op, .perform op ∈ j.todo → ∃ future version,
    j.id = .task future version op.path
  /-- A materialization waits for nothing at its path but the clean, which comes first. -/
  first : ∀ j ∈ w.jobs, ∀ version q, j.id = .task .materializing version q →
    ∀ a rest, j.todo = a :: rest → ∀ u must, .await u must ∈ rest → ¬ Meets q u
  /-- A job waits for every earlier operation that overlaps. -/
  guarded : ∀ j ∈ w.jobs, ∀ k ∈ w.jobs, Earlier (ids w.jobs) k.id j.id →
    ∀ op, .perform op ∈ k.todo → Meets op.path j.id → ∃ u must,
      .await u must ∈ guard j.todo ∧ (∃ p ∈ j.id.scope, Meets p u) ∧
      StandsFor (ids w.jobs) u k.id op.path
  /-- Every operation still to come is represented. -/
  represented : ∀ k ∈ w.jobs, ∀ op, .perform op ∈ k.todo →
    (∃ r future version, w.state.processingAt r = some (.active future version) ∧
      r <+: op.path ∧ StandsFor (ids w.jobs) (.task future version r) k.id op.path) ∨
    ∃ number paths, Unresolved w (.join number paths) ∧ (∃ p ∈ paths, p <+: op.path) ∧
      Earlier (ids w.jobs) k.id (.join number paths)
  /-- Nothing has been declared where an invalidation is waited for. -/
  apart : ∀ number paths, Unresolved w (.join number paths) → ∀ p ∈ paths, ∀ r,
    w.state.processingAt r ≠ none → ¬ Overlap r p

/-! ## Steps that keep the order -/

/-- No invalidation of an overlapping path is waited for. -/
def NoJoin (w : Live) (path : Path) : Prop :=
  ∀ number paths, Unresolved w (.join number paths) → ∀ p ∈ paths, ¬ Overlap path p

/-- The futures of entries strictly above the path have resolved; if the database fails, those of
all entries that overlap. -/
def Removable (w : Live) (env : LiveEnv) (path : Path) : Prop :=
  ∀ r future version, w.state.processingAt r = some (.active future version) →
    (r <+: path ∧ r ≠ path) ∨ (env.deleteFails ∧ Overlap r path) →
    ¬ Unresolved w (.task future version r)

/-- The condition under which a step keeps operations in order. -/
def Orderly (cfg : Config) (w : Live) : LiveLabel → Prop
  | .event id _ =>
    -- a clean or an invalidation that fails has nothing more to wait for
    ∀ j ∈ w.jobs, j.id = id → (∀ version q, id ≠ .task .materializing version q) →
      ∀ u rest, j.todo = .await u true :: rest → resolved w.jobs u = some false →
      ∀ u' must, .await u' must ∈ rest → ¬ Unresolved w u'
  | .command env (.declare path value _) =>
    keepsDeclared cfg env.toEnv w.state path value ∨ NoJoin w path ∧ Removable w env path
  | .command _ (.declareExisting artifacts) => ∀ artifact ∈ artifacts, NoJoin w artifact.1 ∧
    ∀ r future version, w.state.processingAt r = some (.active future version) →
      Overlap r artifact.1 → ¬ Unresolved w (.task future version r)
  | .command env (.invalidateFilePaths paths) =>
    ∀ path ∈ paths, NoJoin w path ∧ Removable w env path
  | .command _ _ => True

variable {cfg : Config} {w w' : Live} {q path : Path} {data : Data}

theorem Unresolved.of_job (hw : Wired w) (hj : j ∈ w.jobs) (hid : j.id = u)
    (hresult : j.result = none) : Unresolved w u := by
  refine ⟨hid ▸ Awaits.mem_ids hj, ?_⟩
  rw [← hid, resolved_of_mem hw.ordered.nodup hj, hresult]

/-- What has resolved stands for nothing that is still to come. -/
theorem Arranged.not_standsFor (hw : Wired w) (h : Arranged w) (hk : k ∈ w.jobs)
    (hop : .perform op ∈ k.todo) (hu : u ∈ ids w.jobs) (hresolved : ¬ Unresolved w u) :
    ¬ StandsFor (ids w.jobs) u k.id op.path := by
  obtain ⟨j, hlookup⟩ := exists_lookup hu
  obtain ⟨hj, rfl⟩ := lookup_mem hlookup
  have htodo : j.todo = [] := hw.ordered.ended j hj fun hnone =>
    hresolved (.of_job hw hj rfl hnone)
  rintro (heq | ⟨hearlier, hmeets⟩)
  · rw [← eq_of_id_eq hw.ordered.nodup hj hk heq, htodo] at hop
    cases hop
  · obtain ⟨_, _, hguard, -⟩ := h.guarded j hj k hk hearlier op hop hmeets
    rw [htodo] at hguard
    cases hguard

theorem StandsFor.append {l new : List FutureId} {k : FutureId} (h : StandsFor l u k q) :
    StandsFor (l ++ new) u k q :=
  h.imp id fun ⟨hearlier, hmeets⟩ => ⟨hearlier.append new, hmeets⟩

/-! ## Changes of the tree alone -/

/-- A change after which the entries are fewer, and those that are gone or settled stood for
nothing. -/
theorem Arranged.settle (hw : Wired w) (h : Arranged w)
    (hentry : ∀ r future version, w.state.processingAt r = some (.active future version) →
      state.processingAt r = some (.active future version) ∨ ¬ Unresolved w
        (.task future version r))
    (hkeys : ∀ r, state.processingAt r ≠ none → w.state.processingAt r ≠ none ∨ NoJoin w r) :
    Arranged { w with state } := by
  refine ⟨h.shape, h.first, h.guarded, ?_, ?_⟩
  · intro k hk op hop
    refine (h.represented k hk op hop).imp ?_ (fun hjoin => hjoin)
    rintro ⟨r, future, version, hr, hle, hstands⟩
    rcases hentry r future version hr with hkept | hresolved
    · exact ⟨r, future, version, hkept, hle, hstands⟩
    · exact absurd hstands (h.not_standsFor hw hk hop (hw.active r future version hr) hresolved)
  · intro number paths hunresolved p hp r hr
    rcases hkeys r hr with hold | hnojoin
    · exact h.apart number paths hunresolved p hp r hold
    · exact hnojoin number paths hunresolved p hp

theorem Arranged.touches (hw : Wired w) (h : Arranged w) (ht : Touches w.state state) :
    Arranged { w with state } := by
  refine h.settle hw (fun r _ _ hr => .inl ((ht.processingAt r).trans hr)) fun r hr => .inl ?_
  rwa [ht.processingAt] at hr

/-! ## A new job -/

theorem unresolved_launch (hid : id ∉ ids w.jobs) :
    Unresolved (Live.launch { w with state, joins } id todo) u ↔ Unresolved w u ∨ u = id := by
  have hids : ids (Live.launch { w with state, joins } id todo).jobs = ids w.jobs ++ [id] :=
    ids_launch
  unfold Unresolved
  rw [hids, mem_append, mem_singleton]
  by_cases heq : u = id
  · subst heq
    exact ⟨fun _ => .inr rfl, fun _ => ⟨.inr rfl, resolved_new hid todo⟩⟩
  · constructor
    · rintro ⟨hmem, hnone⟩
      have hold := hmem.resolve_right heq
      exact .inl ⟨hold, (resolved_append hold _).symm.trans hnone⟩
    · rintro (⟨hold, hnone⟩ | hnew)
      · exact ⟨.inl hold, (resolved_append hold _).trans hnone⟩
      · exact absurd hnew heq

/-- What a new job has to wait for, and what it takes over. -/
structure Launches (w : Live) (state : State) (id : FutureId) (todo : List (Action FutureId Op)) :
    Prop where
  fresh : id ∉ ids w.jobs
  shape : ∀ op, .perform op ∈ todo → ∃ future version, id = .task future version op.path
  first : ∀ version q, id = .task .materializing version q → ∀ a rest, todo = a :: rest →
    ∀ u must, .await u must ∈ rest → ¬ Meets q u
  guarded : ∀ k ∈ w.jobs, ∀ op, .perform op ∈ k.todo → Meets op.path id → ∃ u must,
    .await u must ∈ guard todo ∧ (∃ p ∈ id.scope, Meets p u) ∧
    StandsFor (ids w.jobs) u k.id op.path
  /-- The future of a task is put into the tree. -/
  entered : ∀ future version q, id = .task future version q →
    state.processingAt q = some (.active future version)
  /-- An entry stays, stands for nothing, or is at or below what the job is about. -/
  entry : ∀ r future version, w.state.processingAt r = some (.active future version) →
    state.processingAt r = some (.active future version) ∨
    ¬ Unresolved w (.task future version r) ∨ ∃ p ∈ id.scope, p <+: r
  keys : ∀ r, state.processingAt r ≠ none → w.state.processingAt r ≠ none ∨ NoJoin w r
  apart : ∀ number paths, id = .join number paths → ∀ p ∈ paths, ∀ r,
    state.processingAt r ≠ none → ¬ Overlap r p

theorem Arranged.launch (hw : Wired w) (h : Arranged w) (hlaunch : Launches w state id todo) :
    Arranged (Live.launch { w with state, joins } id todo) := by
  have hids : ids (Live.launch { w with state, joins } id todo).jobs = ids w.jobs ++ [id] :=
    ids_launch
  have hjob (j : Job FutureId Op) (hj : j ∈ w.jobs ++ [.new id todo]) :
      j ∈ w.jobs ∨ j = .new id todo :=
    (mem_append.mp hj).imp (fun x => x) mem_singleton.mp
  have hnew {k : Job FutureId Op} (hk : k ∈ w.jobs) : Earlier (ids w.jobs ++ [id]) k.id id :=
    .of_new (Awaits.mem_ids hk) mem_cons_self hlaunch.fresh
  refine ⟨?_, ?_, ?_, ?_, ?_⟩
  · intro j hj op hop
    rcases hjob j hj with hold | rfl
    · exact h.shape j hold op hop
    · exact hlaunch.shape op hop
  · intro j hj version q hid
    rcases hjob j hj with hold | rfl
    · exact h.first j hold version q hid
    · exact hlaunch.first version q hid
  · intro j hj k hk hearlier op hop hmeets
    rw [hids] at hearlier ⊢
    rcases hjob j hj with hold | rfl
    · -- no job is later than the new one
      have hearlier' := hearlier.of_append (Awaits.mem_ids hold)
      rcases hjob k hk with hkold | rfl
      · obtain ⟨u, must, hguard, hmeets', hstands⟩ :=
        h.guarded j hold k hkold hearlier' op hop hmeets
        exact ⟨u, must, hguard, hmeets', hstands.append⟩
      · exact absurd hearlier'.mem_left hlaunch.fresh
    · rcases hjob k hk with hkold | rfl
      · obtain ⟨u, must, hguard, hmeets', hstands⟩ := hlaunch.guarded k hkold op hop hmeets
        exact ⟨u, must, hguard, hmeets', hstands.append⟩
      · exact absurd rfl hearlier.ne
  · intro k hk op hop
    rw [hids]
    rcases hjob k hk with hkold | rfl
    · rcases h.represented k hkold op hop with ⟨r, future, version, hr, hle, hstands⟩ |
        ⟨number, paths, hunresolved, hle, hearlier⟩
      · rcases hlaunch.entry r future version hr with hkept | hresolved | ⟨p, hp, hpr⟩
        · exact .inl ⟨r, future, version, hkept, hle, hstands.append⟩
        · exact absurd hstands
            (h.not_standsFor hw hkold hop (hw.active r future version hr) hresolved)
        · -- the job waits for the operation, and so it stands for it
          have hpop := hpr.trans hle
          cases id with
          | task future' version' q =>
            cases mem_singleton.mp hp
            exact .inl ⟨p, future', version', hlaunch.entered future' version' p rfl, hpop,
              .inr ⟨hnew hkold, p, mem_cons_self, .inr hpop⟩⟩
          | join number paths =>
            exact .inr ⟨number, paths, (unresolved_launch hlaunch.fresh).mpr (.inr rfl),
              ⟨p, hp, hpop⟩, hnew hkold⟩
      · exact .inr ⟨number, paths, (unresolved_launch hlaunch.fresh).mpr (.inl hunresolved), hle,
          hearlier.append _⟩
    · obtain ⟨future, version, rfl⟩ := hlaunch.shape op hop
      exact .inl ⟨op.path, future, version, hlaunch.entered future version op.path rfl,
        prefix_rfl, .inl rfl⟩
  · intro number paths hunresolved p hp r hr
    rcases (unresolved_launch hlaunch.fresh).mp hunresolved with hold | rfl
    · rcases hlaunch.keys r hr with hkey | hnojoin
      · exact h.apart number paths hold p hp r hkey
      · exact hnojoin number paths hold p hp
    · exact hlaunch.apart number paths rfl p hp r hr

/-- The operations that overlap a path, and the futures that represent them. -/
theorem Arranged.overlapping (h : Arranged w) (hk : k ∈ w.jobs) (hop : .perform op ∈ k.todo)
    (hover : Overlap op.path p) (hnojoin : NoJoin w p) : ∃ r future version,
      w.state.processingAt r = some (.active future version) ∧ Overlap r p ∧
      StandsFor (ids w.jobs) (.task future version r) k.id op.path := by
  rcases h.represented k hk op hop with ⟨r, future, version, hr, hle, hstands⟩ |
    ⟨number, paths, hunresolved, ⟨p', hp', hle⟩, -⟩
  · exact ⟨r, future, version, hr, .of_le hle hover, hstands⟩
  · exact absurd (Overlap.of_le hle hover).symm (hnojoin number paths hunresolved p' hp')

/-! ## Events -/

theorem guard_cons_await : guard (.await u must :: rest) = .await u must :: guard rest := rfl

theorem mem_of_mem_guard (h : a ∈ guard todo) : a ∈ todo :=
  (takeWhile_sublist _).subset h

/-- An event of a job leaves nothing that the job has to wait for unguarded. -/
theorem Arranged.guarded_advance {j' : Job FutureId Op} {event : Event} (hw : Wired w)
    (h : Arranged w) (hj : j ∈ w.jobs) (hadvance : Advance (resolved w.jobs) j event j')
    (horderly : Orderly cfg w (.event j.id event)) (hk : k ∈ w.jobs) (hop : .perform op ∈ k.todo)
    (hguard : .await u must ∈ guard j.todo) (hmeets : ∃ p ∈ j.id.scope, Meets p u)
    (hstands : StandsFor (ids w.jobs) u k.id op.path) : .await u must ∈ guard j'.todo := by
  have hu : u ∈ ids w.jobs :=
    (hw.ordered.earlier j hj u must (mem_of_mem_guard hguard)).mem_left
  have hended {ok : Bool} (hresolved : resolved w.jobs u = some ok) : False := by
    refine h.not_standsFor hw hk hop hu (fun hunresolved => ?_) hstands
    rw [hunresolved.2] at hresolved
    cases hresolved
  cases hadvance with
  | completed | started => exact hguard
  | gaveUp htodo | performed htodo | broken htodo =>
    rw [htodo] at hguard
    cases hguard
  | passed htodo hresolved =>
    rw [htodo, guard_cons_await] at hguard
    rcases mem_cons.mp hguard with heq | hrest
    · cases heq
      exact (hended hresolved).elim
    · exact hrest
  | lost htodo hresolved =>
    have hguard' := hguard
    rw [htodo, guard_cons_await] at hguard'
    rcases mem_cons.mp hguard' with heq | hrest
    · cases heq
      exact (hended hresolved).elim
    have hmem := mem_of_mem_guard hrest
    by_cases hkind : ∃ version q, j.id = .task .materializing version q
    · obtain ⟨version, q, hid⟩ := hkind
      obtain ⟨p, hp, hmeets⟩ := hmeets
      rw [hid] at hp
      cases mem_singleton.mp hp
      exact absurd hmeets (h.first j hj version _ hid _ _ htodo u must hmem)
    · have hresolved' := horderly j hj rfl (fun version q hid => hkind ⟨version, q, hid⟩) _ _ htodo
        hresolved u must hmem
      exact (h.not_standsFor hw hk hop hu hresolved' hstands).elim

theorem Arranged.event {event : Event} (hw : Wired w) (h : Arranged w)
    (horderly : Orderly cfg w (.event id event)) (hevent : eventLive w id event = some w') :
    Arranged w' := by
  obtain ⟨hjobs, hstate, -⟩ := eventLive_spec hevent
  have hids := step_ids hw.ordered.nodup hjobs
  have hw' : Wired w' := hw.event hevent
  -- a job has an earlier form, with more to do
  have hjob (j' : Job FutureId Op) (hj' : j' ∈ w'.jobs) : ∃ j ∈ w.jobs, j.id = j'.id ∧
      j'.todo <:+ j.todo ∧ (j' = j ∨ j.id = id ∧ Advance (resolved w.jobs) j event j') := by
    rcases mem_of_step hw.ordered.nodup hjobs hj' with ⟨hold, -⟩ | ⟨j, hj, hid, -, hadvance⟩
    · exact ⟨j', hold, rfl, suffix_rfl, .inl rfl⟩
    · exact ⟨j, hj, hadvance.id_eq.symm, hadvance.todo_suffix, .inr ⟨hid, hadvance⟩⟩
  have hunresolved {u : FutureId} (hu : Unresolved w' u) : Unresolved w u := by
    obtain ⟨hmem, hnone⟩ := hu
    rw [hids] at hmem
    obtain ⟨j, hlookup⟩ := exists_lookup hmem
    obtain ⟨hj, rfl⟩ := lookup_mem hlookup
    cases hresult : j.result with
    | none => exact .of_job hw hj rfl hresult
    | some ok =>
      rcases mem_step hw.ordered.nodup hjobs hj with ⟨hj', -⟩ | ⟨-, hnone', -⟩
      · rw [resolved_of_mem hw'.ordered.nodup hj', hresult] at hnone
        cases hnone
      · rw [hnone'] at hresult
        cases hresult
  have hguarded : ∀ j ∈ w'.jobs, ∀ k ∈ w'.jobs, Earlier (ids w'.jobs) k.id j.id →
      ∀ op, .perform op ∈ k.todo → Meets op.path j.id → ∃ u must,
        .await u must ∈ guard j.todo ∧ (∃ p ∈ j.id.scope, Meets p u) ∧
        StandsFor (ids w'.jobs) u k.id op.path := by
    intro j' hj' k' hk' hearlier op hop hmeets
    obtain ⟨j, hj, hjid, -, hadvance⟩ := hjob j' hj'
    obtain ⟨k, hk, hkid, hsuffix, -⟩ := hjob k' hk'
    rw [hids] at hearlier ⊢
    rw [← hjid, ← hkid] at hearlier
    rw [← hjid] at hmeets ⊢
    rw [← hkid]
    have hop' := hsuffix.subset hop
    obtain ⟨u, must, hguard, hscope, hstands⟩ := h.guarded j hj k hk hearlier op hop' hmeets
    refine ⟨u, must, ?_, hscope, hstands⟩
    rcases hadvance with rfl | ⟨rfl, hadvance⟩
    · exact hguard
    · exact h.guarded_advance hw hj hadvance horderly hk hop' hguard hscope hstands
  refine ⟨?_, ?_, hguarded, ?_, ?_⟩
  · intro j' hj' op hop
    obtain ⟨j, hj, hid, hsuffix, -⟩ := hjob j' hj'
    rw [← hid]
    exact h.shape j hj op (hsuffix.subset hop)
  · intro j' hj' version q hid a rest htodo u must hmem
    obtain ⟨j, hj, hjid, ⟨front, hfront⟩, -⟩ := hjob j' hj'
    rw [htodo] at hfront
    cases front with
    | nil => exact h.first j hj version q (hjid.trans hid) a rest hfront.symm u must hmem
    | cons b front =>
      refine h.first j hj version q (hjid.trans hid) b _ hfront.symm u must ?_
      exact mem_append_right _ (mem_cons_of_mem _ hmem)
  · intro k' hk' op hop
    obtain ⟨k, hk, hkid, hsuffix, -⟩ := hjob k' hk'
    rw [hids, hstate, ← hkid]
    refine (h.represented k hk op (hsuffix.subset hop)).imp (fun x => x) ?_
    rintro ⟨number, paths, hjoin, ⟨p, hp, hle⟩, hearlier⟩
    refine ⟨number, paths, ?_, ⟨p, hp, hle⟩, hearlier⟩
    -- an invalidation resolves after everything it stands for
    obtain ⟨j, hlookup⟩ := exists_lookup (hids ▸ hjoin.1)
    obtain ⟨hj, hid⟩ := lookup_mem hlookup
    cases hresult : j.result with
    | none => exact .of_job hw' hj hid hresult
    | some ok =>
      have htodo : j.todo = [] := hw'.ordered.ended j hj (by rw [hresult]; nofun)
      have hearlier' : Earlier (ids w'.jobs) k'.id j.id := by
        rw [hid, hids, ← hkid]
        exact hearlier
      obtain ⟨_, _, hguard, -⟩ := hguarded j hj k' hk' hearlier' op hop
        (by rw [hid]; exact ⟨p, hp, .inr hle⟩)
      rw [htodo] at hguard
      cases hguard
  · intro number paths hjoin p hp r hr
    rw [hstate] at hr
    exact h.apart number paths (hunresolved hjoin) p hp r hr

/-! ## Declarations and invalidations -/

theorem guard_append {l : List (Action FutureId Op)} (h : ∀ a ∈ l, ∃ u must, a = .await u must) :
    guard (l ++ rest) = l ++ guard rest := by
  induction l with
  | nil => rfl
  | cons a l ih =>
    obtain ⟨u, must, rfl⟩ := h a mem_cons_self
    rw [cons_append, guard_cons_await, ih fun b hb => h b (mem_cons_of_mem _ hb)]
    rfl

section Commands

variable {env : LiveEnv} {r : Path} {removed : List (Path × Data)}
  {method : Method} {value : ArtifactValue}

theorem mem_guard_waitExisting (hfails : ¬ env.deleteFails) (hu : u ∈ existingFutures removed) :
    ∃ must, .await u must ∈ guard (waitExisting env removed rest) := by
  obtain ⟨must, hmust⟩ := joinExisting_eq u
  refine ⟨must, ?_⟩
  rw [waitExisting, if_neg hfails, guard_append fun a ha => ?_]
  · refine mem_append_left _ (mem_map.mpr ⟨u, (env.perm _).mem_iff.mpr hu, hmust⟩)
  · obtain ⟨id, -, rfl⟩ := mem_map.mp ha
    obtain ⟨must, hmust⟩ := joinExisting_eq id
    exact ⟨id, must, hmust⟩

theorem perform_mem_waitExisting
    (h : .perform op ∈ waitExisting env removed rest) : .perform op ∈ rest := by
  unfold waitExisting at h
  split at h
  · simp at h
  · rcases mem_append.mp h with hjoin | hrest
    · obtain ⟨id, -, heq⟩ := mem_map.mp hjoin
      obtain ⟨must, hmust⟩ := joinExisting_eq id
      rw [hmust] at heq
      cases heq
    · exact hrest

/-- A write that is started at once overlaps nothing that is being processed. -/
theorem not_overlap_of_writesEagerly (h : writesEagerly cfg env.toEnv w.state path value method)
    (hr : w.state.processingAt r = some (.active future version)) : ¬ Overlap r path := by
  intro hover
  obtain ⟨data, hdata, hprocessing⟩ := processingAt_eq_some.mp hr
  have hmem := mem_map_of_mem (f := Prod.snd) (mem_removePath hdata hover)
  rw [map_removePath] at hmem
  cases hremove : (w.state.tree.remove path).1 with
  | none =>
    rw [hremove] at hmem
    cases hmem
  | some subtree =>
  simp only [writesEagerly, hremove, Bool.and_eq_true, all_eq_true] at h hmem
  have hnone := h.1.1.1.2.2 data hmem
  rw [hprocessing] at hnone
  cases hnone

theorem Arranged.declare (hw : Wired w) (h : Arranged w)
    (horderly : Orderly cfg w (.command env (.declare path value method))) :
    Arranged (declareLive cfg env w path value method) := by
  have hdeclares := declaresLive cfg env w path value method
  generalize declareLive cfg env w path value method = w' at hdeclares ⊢
  cases hdeclares with
  | kept htouches => exact h.touches hw htouches
  | launched hkeeps hkind =>
    obtain ⟨hnojoin, hremovable⟩ := horderly.resolve_left hkeeps
    refine Arranged.launch (w := w) hw h ⟨hw.task_not_mem le_rfl, ?_, ?_, ?_, ?_, ?_, ?_, nofun⟩
    · intro op hop
      have hclean : op.path = path := by
        obtain ⟨-, rfl, -⟩ | ⟨-, rfl⟩ := hkind
        · rw [(Action.perform.injEq ..).mp (mem_singleton.mp hop)]
          rfl
        · cases mem_singleton.mp (perform_mem_waitExisting hop)
          rfl
      exact ⟨_, _, by rw [hclean]⟩
    · intro version q hid a rest htodo u must hmem
      obtain ⟨-, rfl, -⟩ | ⟨rfl, -⟩ := hkind
      · cases htodo
        cases hmem
      · cases hid
    · intro k hk op hop hmeets
      obtain ⟨r, future, version, hr, hover, hstands⟩ :=
        h.overlapping hk hop (meets_task.mp hmeets) hnojoin
      obtain ⟨-, -, hwrites⟩ | ⟨-, rfl⟩ := hkind
      · exact absurd hover (not_overlap_of_writesEagerly hwrites hr)
      by_cases hfails : env.deleteFails
      · have hresolved := hremovable r future version hr (.inr ⟨hfails, hover⟩)
        exact absurd hstands (h.not_standsFor hw hk hop (hw.active r future version hr) hresolved)
      · obtain ⟨data, hdata, hprocessing⟩ := processingAt_eq_some.mp hr
        obtain ⟨must, hguard⟩ := mem_guard_waitExisting hfails (mem_existingFutures.mpr
          ⟨r, data, future, version, mem_removePath hdata hover, hprocessing, rfl⟩)
        exact ⟨_, must, hguard, ⟨path, mem_cons_self, meets_task.mpr hover.symm⟩, hstands⟩
    · intro future version q hid
      cases hid
      rw [processingAt_replace rfl, if_pos rfl]
    · intro r future version hr
      by_cases hbelow : path <+: r
      · exact .inr (.inr ⟨path, mem_cons_self, hbelow⟩)
      have hne : r ≠ path := fun heq => hbelow (by rw [heq])
      by_cases habove : r <+: path
      · exact .inr (.inl (hremovable r future version hr (.inl ⟨habove, hne⟩)))
      · rw [processingAt_replace rfl, if_neg hne,
          if_neg (show ¬ Overlap r path from not_or.mpr ⟨habove, hbelow⟩)]
        exact .inl hr
    · intro r hr
      rw [processingAt_replace rfl] at hr
      split at hr
      · next heq => exact .inr (heq ▸ hnojoin)
      · split at hr
        · exact absurd rfl hr
        · exact .inl hr

theorem mem_existing_invalidated {tree : ArtifactTree}
    (hr : tree.get r = some data) (hp : p ∈ paths) (hover : Overlap r p) :
    (r, data) ∈ invalidatedEntries tree paths := by
  induction paths generalizing tree with
  | nil => cases hp
  | cons path paths ih =>
    by_cases hfirst : Overlap r path
    · exact mem_append_left _ (mem_removePath hr hfirst)
    · rcases mem_cons.mp hp with rfl | hp
      · exact absurd hover hfirst
      · refine mem_append_right _ (ih ?_ hp)
        rw [get_remove, if_neg (show ¬ (r <+: path ∨ path <+: r) from hfirst)]
        exact hr

theorem Arranged.invalidate (hw : Wired w) (h : Arranged w)
    (horderly : Orderly cfg w (.command env (.invalidateFilePaths paths))) :
    Arranged (invalidateLive env w paths) := by
  have hmem (r : Path) : (∃ p ∈ paths, Overlap r p) ∨ ∀ p ∈ paths, ¬ Overlap r p := by
    by_cases hany : ∃ p ∈ paths, Overlap r p
    · exact .inl hany
    · exact .inr fun p hp hover => hany ⟨p, hp, hover⟩
  refine Arranged.launch (w := w) hw h ⟨?_, ?_, nofun, ?_, nofun, ?_, ?_, ?_⟩
  · exact fun hold => absurd (hw.below _ hold) (Nat.lt_irrefl _)
  · intro op hop
    cases perform_mem_waitExisting hop
  · rintro k hk op hop ⟨p, hp, hover⟩
    obtain ⟨hnojoin, hremovable⟩ := horderly p hp
    obtain ⟨r, future, version, hr, hover', hstands⟩ := h.overlapping hk hop hover hnojoin
    by_cases hfails : env.deleteFails
    · have hresolved := hremovable r future version hr (.inr ⟨hfails, hover'⟩)
      exact absurd hstands (h.not_standsFor hw hk hop (hw.active r future version hr) hresolved)
    · obtain ⟨data, hdata, hprocessing⟩ := processingAt_eq_some.mp hr
      have hexisting := mem_existingFutures.mpr ⟨r, data, future, version,
        mem_existing_invalidated hdata hp hover', hprocessing, rfl⟩
      obtain ⟨must, hguard⟩ := mem_guard_waitExisting hfails hexisting
      exact ⟨_, must, hguard, ⟨p, hp, meets_task.mpr hover'.symm⟩, hstands⟩
  · intro r future version hr
    rcases hmem r with ⟨p, hp, hover⟩ | hnone
    · by_cases hbelow : p <+: r
      · exact .inr (.inr ⟨p, hp, hbelow⟩)
      · have habove := hover.resolve_right hbelow
        refine .inr (.inl ((horderly p hp).2 r future version hr (.inl ⟨habove, ?_⟩)))
        exact fun heq => hbelow (by rw [heq])
    · left
      rw [invalidatePaths_processingAt, if_neg fun ⟨p, hp, hover⟩ => hnone p hp hover]
      exact hr
  · intro r hr
    rw [invalidatePaths_processingAt] at hr
    split at hr
    · exact absurd rfl hr
    · exact .inl hr
  · intro number paths' hid p hp r hr hover
    cases hid
    rw [invalidatePaths_processingAt, if_pos ⟨p, hp, hover⟩] at hr
    exact absurd rfl hr

theorem Arranged.declareExisting {artifacts : List (Path × ArtifactValue)} (hw : Wired w)
    (h : Arranged w) (horderly : Orderly cfg w (.command env (.declareExisting artifacts))) :
    Arranged { w with
      state := artifacts.foldl (fun s (path, value) =>
        Materializer.declareExisting cfg env.toEnv s path value) w.state } := by
  induction artifacts generalizing w with
  | nil => exact h
  | cons artifact artifacts ih =>
    obtain ⟨hnojoin, hresolved⟩ := horderly artifact mem_cons_self
    have hone := declareExisting_processingAt cfg env.toEnv w.state artifact.1 artifact.2
    refine ih (w := { w with
      state := Materializer.declareExisting cfg env.toEnv w.state artifact.1 artifact.2 })
      (hw.declareExisting [artifact]) ?_ ?_
    · refine h.settle hw (fun r future version hr => ?_) fun r hr => ?_
      · rcases hone r with hsame | ⟨hover, -⟩
        · exact .inl (hsame.trans hr)
        · exact .inr (hresolved r future version hr hover)
      · rcases hone r with hsame | ⟨-, hnone | ⟨rfl, -⟩⟩
        · exact .inl (hsame ▸ hr)
        · exact absurd hnone hr
        · exact .inr hnojoin
    · intro artifact' hartifact'
      obtain ⟨hnojoin', hresolved'⟩ := horderly artifact' (mem_cons_of_mem _ hartifact')
      refine ⟨hnojoin', fun r future version hr => hresolved' r future version ?_⟩
      rcases hone r with hsame | ⟨-, hnone | ⟨-, _, hdone⟩⟩
      · exact hsame.symm.trans hr
      · exact absurd (hnone.symm.trans hr) (by simp)
      · exact absurd (hdone.symm.trans hr) (by simp)

end Commands

/-! ## Messages -/

theorem processingAt_ne_none : s.processingAt q ≠ none ↔ ∃ data, s.tree.get q = some data := by
  rw [State.processingAt, ne_eq, Option.map_eq_none_iff]
  exact Option.ne_none_iff_exists'

theorem entry_unique (hp : s.processingAt p ≠ none) (hq : s.processingAt q ≠ none)
    (hover : Overlap p q) : p = q :=
  eq_of_overlap (metadataAt_ne_none.mpr (processingAt_ne_none.mp hp))
    (metadataAt_ne_none.mpr (processingAt_ne_none.mp hq)) hover

/-- An operation that overlaps the path of an entry is represented by that entry. -/
theorem Arranged.overlapping_entry (h : Arranged w) (hk : k ∈ w.jobs) (hop : .perform op ∈ k.todo)
    (hq : w.state.processingAt q ≠ none) (hover : Overlap op.path q) : ∃ future version,
      w.state.processingAt q = some (.active future version) ∧
      StandsFor (ids w.jobs) (.task future version q) k.id op.path := by
  have hnojoin : NoJoin w q := fun number paths hjoin p hp => h.apart number paths hjoin p hp q hq
  obtain ⟨r, future, version, hr, hover', hstands⟩ := h.overlapping hk hop hover hnojoin
  cases entry_unique (by rw [hr]; simp) hq hover'
  exact ⟨future, version, hr, hstands⟩

theorem Tracked.reported (h : Tracked w) (htask : w.state.running[index]? = some task)
    (hresolved : resolved w.jobs task.id = some ok) (hq : w.state.tree.get task.path = some data)
    (hcurrent : IsCurrent task task.path data)
    (hactive : w.state.processingAt task.path = some (.active future version)) :
    ¬ Unresolved w (.task future version task.path) := by
  have hawaited := (h.entry _ data hq).awaited task (mem_of_getElem? htask) rfl hcurrent.version
  rw [State.processingAt, hq, Option.map_some, hawaited] at hactive
  cases hactive
  rintro ⟨-, hnone⟩
  rw [Task.id, hnone] at hresolved
  cases hresolved

theorem Arranged.finish {timestamp : Nat} (hw : Wired w) (ht : Tracked w) (h : Arranged w)
    (htask : w.state.running[index]? = some task) (hresolved : resolved w.jobs task.id = some ok) :
    Arranged (finishLive (w.take index) task timestamp ok) := by
  have hmem : task ∈ w.state.tasks := hw.versioned.running task (mem_of_getElem? htask)
  have hw' := hw.take index
  have h' : Arranged (w.take index) := h.settle hw (fun _ _ _ hr => .inl hr) fun _ hr => .inl hr
  have hmessage := messages hw'.versioned hmem timestamp ok
  generalize finishLive (w.take index) task timestamp ok = w' at hmessage ⊢
  cases hmessage with
  | ignored => exact h'
  | @settled data f _ versionTracker _ _ hq hcurrent _ _ hprocessing =>
    have hafter := processingAt_modify (s := { (w.take index).state with versionTracker })
      (f := f) hq
    refine h'.settle hw' (fun r future version hr => ?_) fun r hr => .inl ?_
    · by_cases heq : r = task.path
      · subst heq
        exact .inr (ht.reported htask hresolved hq hcurrent hr)
      · exact .inl (((hafter r).trans (if_neg heq)).trans hr)
    · by_cases heq : r = task.path
      · exact heq ▸ processingAt_ne_none.mpr ⟨data, hq⟩
      · exact fun hnone => hr (((hafter r).trans (if_neg heq)).trans hnone)
  | @again data hq hcurrent =>
    have hkey : (w.take index).state.processingAt task.path ≠ none :=
      processingAt_ne_none.mpr ⟨data, hq⟩
    have hafter := processingAt_modify (s := (w.take index).state.bumpVersion.spawn
      ⟨task.path, w.state.versionTracker, .clean, data.declaration⟩) (f := fun info =>
        { info with processing := .active .cleaning w.state.versionTracker }) hq
    refine Arranged.launch (w := w.take index) hw' h' ⟨hw'.task_not_mem le_rfl, ?_, nofun,
      ?_, ?_, ?_, ?_, nofun⟩
    · intro op hop
      cases mem_singleton.mp hop
      exact ⟨_, _, rfl⟩
    · -- what overlaps the path was represented by a future that has resolved
      intro k hk op hop hmeets
      obtain ⟨future, version, hactive, hstands⟩ :=
        h'.overlapping_entry hk hop hkey (meets_task.mp hmeets)
      exact absurd hstands (h'.not_standsFor hw' hk hop (hw'.active _ future version hactive)
        (ht.reported htask hresolved hq hcurrent hactive))
    · intro future version q hid
      cases hid
      exact (hafter _).trans (if_pos rfl)
    · intro r future version hr
      by_cases heq : r = task.path
      · exact .inr (.inr ⟨task.path, mem_cons_self, by rw [heq]⟩)
      · exact .inl (((hafter r).trans (if_neg heq)).trans hr)
    · intro r hr
      by_cases heq : r = task.path
      · exact .inl (heq ▸ hkey)
      · exact .inl fun hnone => hr (((hafter r).trans (if_neg heq)).trans hnone)

/-! ## Requests -/

theorem Extends.keeps {s' : State} (h : Extends stack s s') (hq : s.processingAt q ≠ none) :
    s'.processingAt q ≠ none := by
  rcases h.entry q with heq | ⟨-, data, data', -, hdata', -⟩
  · rwa [State.processingAt, heq]
  · exact processingAt_ne_none.mpr ⟨data', hdata'⟩

/-- What requests return are materializations of artifacts that are not on the stack. -/
theorem Ensures.futures_apart (h : Ensures cfg stack paths w futures w') (hw : Wired w) :
    ∀ id, .future id ∈ futures → ∃ version q, id = .task .materializing version q ∧ q ∉ stack ∧
      w'.state.processingAt q ≠ none := by
  induction h with
  | nil => nofun
  | answered hanswer hrest ih =>
    have hw1 := (hanswer.wired hw).1
    intro id hid
    rcases mem_append.mp hid with hid | hid
    · cases hanswer with
      | failed => simp at hid
      | unknown | covered | present | touched => cases hid
      | joined hfound hstack hprocessing =>
        cases mem_singleton.mp hid
        obtain ⟨-, hq⟩ := prefixGet_eq_some.mp hfound
        refine ⟨_, _, rfl, hstack, (hrest.extends hw1.versioned).2.keeps ?_⟩
        exact processingAt_ne_none.mpr ⟨_, hq⟩
    · exact ih hw1 id hid
  | @started stack path q data paths copied entry w w1 w2 w3 copies links futures hfound hstack
      hprocessing hstarts hcopies hlinks hrest _ _ ihrest =>
    obtain ⟨hlaunch, -, -, hstarted⟩ := hcopies.launching hw hfound hstack hstarts hlinks
    intro id hid
    rcases mem_cons.mp hid with heq | hid
    · cases heq
      refine ⟨_, q, rfl, hstack, (hrest.extends hstarted.versioned).2.keeps ?_⟩
      rw [startTask_processingAt cfg hlaunch.get₂, if_pos rfl]
      simp
    · exact ihrest hstarted id hid

theorem perform_of_mem_performMaterialization
    (h : .perform op ∈ performMaterialization windows cleaning copies links write) :
    write = some op := by
  have haction (futures : List Materializing) :
      Action.perform op ∉ futures.map Materializing.action := by
    intro hmem
    obtain ⟨future, -, heq⟩ := mem_map.mp hmem
    cases future <;> cases heq
  have hentry : Action.perform (I := FutureId) op ∈ write.toList.map Action.perform := by
    unfold performMaterialization at h
    cases windows <;> simpa [haction] using h
  obtain ⟨_, hmem, heq⟩ := mem_map.mp hentry
  cases heq
  exact Option.mem_toList.mp hmem

/-- Only the first thing that a materialization waits for is the clean. -/
theorem await_of_performMaterialization
    (h : performMaterialization windows cleaning copies links write = a :: rest)
    (hu : .await u must ∈ rest) : .future u ∈ copies ∨ .future u ∈ links := by
  have hnone : .await u must ∈ performMaterialization windows none copies links write := by
    cases cleaning with
    | none =>
      rw [h]
      exact mem_cons_of_mem _ hu
    | some id =>
      cases h
      exact hu
  obtain ⟨-, hcleaning | hfuture⟩ := mem_performMaterialization hnone
  · cases hcleaning
  · exact hfuture

/-- The task of a request waits for the clean of its entry, which stands for what is before it. -/
theorem Arranged.start {w2 : Live} {entry : Option Entry} (h : Arranged w2)
    (hlaunch : Launching stack w w2 q data)
    (hprocessing : data.processing.intoFuture ≠ some .materializing)
    (hfutures : ∀ id, .future id ∈ copies ∨ .future id ∈ links → ∃ version r, id =
      .task .materializing version r ∧ r ≠ q ∧ w2.state.processingAt r ≠ none) :
    Arranged (w2.startTask cfg q w.state.versionTracker data entry copies links) := by
  have hkey : w2.state.processingAt q ≠ none := processingAt_ne_none.mpr ⟨data, hlaunch.get₂⟩
  have hafter := startTask_processingAt cfg hlaunch.get₂ w.state.versionTracker data entry copies
    links
  refine Arranged.launch (w := w2) hlaunch.wired₂ h ⟨hlaunch.id_not_mem, ?_, ?_, ?_, ?_, ?_, ?_,
    nofun⟩
  · intro op hop
    obtain ⟨_, -, rfl⟩ := Option.map_eq_some_iff.mp (perform_of_mem_performMaterialization hop)
    exact ⟨_, _, rfl⟩
  · intro version q' hid a rest htodo u must hu hmeets
    cases hid
    obtain ⟨version, r, rfl, hne, hr⟩ := hfutures u (await_of_performMaterialization htodo hu)
    exact hne (entry_unique hr hkey (meets_task.mp hmeets).symm)
  · intro k hk op hop hmeets
    obtain ⟨future, version, hactive, hstands⟩ :=
      h.overlapping_entry hk hop hkey (meets_task.mp hmeets)
    rw [State.processingAt, hlaunch.get₂, Option.map_some] at hactive
    have hactive' := Option.some.inj hactive
    cases future with
    | materializing =>
      rw [hactive'] at hprocessing
      exact absurd rfl hprocessing
    | cleaning =>
      have hversion : data.version = version := by rw [Data.version, hactive']; rfl
      have hcleaning : data.processing.intoFuture = some .cleaning := by rw [hactive']; rfl
      refine ⟨.task .cleaning version q, true, ?_, ⟨q, mem_cons_self, ?_⟩, hstands⟩
      · rw [if_pos hcleaning, hversion]
        exact mem_cons_self
      · exact meets_task.mpr (.inl prefix_rfl)
  · intro future version q' hid
    cases hid
    exact (hafter q).trans (if_pos rfl)
  · intro r future version hr
    by_cases heq : r = q
    · exact .inr (.inr ⟨q, mem_cons_self, by rw [heq]⟩)
    · exact .inl (((hafter r).trans (if_neg heq)).trans hr)
  · intro r hr
    by_cases heq : r = q
    · exact .inl (heq ▸ hkey)
    · exact .inl fun hnone => hr (((hafter r).trans (if_neg heq)).trans hnone)

theorem Ensures.arranged (h : Ensures cfg stack paths w futures w') (hw : Wired w)
    (ha : Arranged w) : Arranged w' := by
  induction h with
  | nil => exact ha
  | answered hanswer _ ih =>
    obtain ⟨state, htouches, -, rfl⟩ := hanswer.touches
    exact ih (hanswer.wired hw).1 (ha.touches hw htouches)
  | @started stack path q data paths copied entry w w1 w2 w3 copies links futures hfound hstack
      hprocessing hstarts hcopies hlinks hrest ihcopies ihlinks ihrest =>
    obtain ⟨hlaunch, hw1, -, hstarted⟩ := hcopies.launching hw hfound hstack hstarts hlinks
    have ha1 := ihcopies hw.bumpVersion (ha.settle hw (fun _ _ _ hr => .inl hr) fun _ hr => .inl hr)
    refine ihrest hstarted ((ihlinks hw1 ha1).start hlaunch hprocessing fun id hid => ?_)
    have hkeep (r : Path) (hr : w1.state.processingAt r ≠ none) : w2.state.processingAt r ≠ none :=
      (hlinks.extends hw1.versioned).2.keeps hr
    rcases hid with hid | hid
    · obtain ⟨version, r, rfl, hr, hkey⟩ := hcopies.futures_apart hw.bumpVersion id hid
      exact ⟨version, r, rfl, fun heq => hr (heq ▸ mem_cons_self), hkeep r hkey⟩
    · obtain ⟨version, r, rfl, hr, hkey⟩ := hlinks.futures_apart hw1 id hid
      exact ⟨version, r, rfl, fun heq => hr (heq ▸ mem_cons_self), hkey⟩

/-! ## Runs -/

/-- Every orderly step keeps the operations arranged. -/
theorem Arranged.step {l : LiveLabel} (hw : Wired w) (ht : Tracked w) (h : Arranged w)
    (horderly : Orderly cfg w l) (hstep : liveStep cfg w l = some w') : Arranged w' := by
  cases l with
  | event id event => exact h.event hw horderly hstep
  | command env command =>
    cases command with
    | declare path value method =>
      cases hstep
      exact h.declare hw horderly
    | declareExisting artifacts =>
      cases hstep
      exact h.declareExisting hw horderly
    | matchArtifacts artifacts =>
      cases hstep
      exact h.touches hw (matchArtifacts_touches artifacts .refl)
    | hasArtifact path =>
      cases hstep
      exact h.touches hw hasArtifact_touches
    | invalidateFilePaths paths =>
      cases hstep
      exact h.invalidate hw horderly
    | ensure paths =>
      cases hstep
      exact (ensures_ensureLive w paths).arranged hw h
    | finished index timestamp ok =>
      obtain ⟨task, htask, hresolved, rfl⟩ := liveStep_finished hstep
      exact h.finish hw ht htask hresolved

/-- **Operations on overlapping paths are performed in the order in which they were created**, in
every run whose steps are `Orderly`: when an operation starts, no earlier one at a path above or
below is still to come or under way. -/
theorem overlapping_operations_ordered {sqliteState : List MaterializerStateEntry}
    {declaredCasState : List MaterializerDeclaredCasStateEntry}
    (h : Reach (liveStep cfg) (Orderly cfg) (liveRestored sqliteState declaredCasState) w)
    {j k : Job FutureId Op} {op op' : Op} {rest : List (Action FutureId Op)} (hj : j ∈ w.jobs)
    (htodo : j.todo = .perform op :: rest) (hk : k ∈ w.jobs)
    (hearlier : Earlier (ids w.jobs) k.id j.id) (hop : .perform op' ∈ k.todo) :
    ¬ Overlap op'.path op.path := by
  have hinvariant : (Wired w ∧ Tracked w) ∧ Arranged w :=
    h.invariant (I := fun w => (Wired w ∧ Tracked w) ∧ Arranged w)
      (fun _ _ _ hw horderly hstep => ⟨⟨hw.1.1.step hstep, hw.1.2.step hw.1.1 hstep⟩,
        hw.2.step hw.1.1 hw.1.2 horderly hstep⟩)
      ⟨⟨.restored sqliteState declaredCasState, .restored sqliteState declaredCasState⟩,
        nofun, nofun, nofun, nofun, fun _ _ hunresolved => absurd hunresolved.1 not_mem_nil⟩
  obtain ⟨-, harranged⟩ := hinvariant
  intro hover
  obtain ⟨future, version, hid⟩ := harranged.shape j hj op (htodo ▸ mem_cons_self)
  obtain ⟨_, _, hguard, -⟩ := harranged.guarded j hj k hk hearlier op' hop
    (hid ▸ meets_task.mpr hover)
  rw [htodo] at hguard
  cases hguard

/-! ## Two examples -/

/-- The label is that of an invalidation. -/
def LiveLabel.invalidates : LiveLabel → Bool
  | .command _ (.invalidateFilePaths _) => true
  | _ => false

/-- A declared artifact that is requested. -/
def requested : Live :=
  (run (liveStep liveConfig) (fun _ l => l.invalidates = false) (liveRestored [] [])
    [.command liveEnv (.declare ["a"] ⟨.dir "a", none⟩ .casDownload),
      .command liveEnv (.ensure [["a"]])]).get (by decide)

/-- Another one is declared beside it. -/
def declaredBeside : Live :=
  declareLive liveConfig liveEnv requested ["b"] ⟨.dir "b", none⟩ .casDownload

theorem declaredBeside_reach : Reach (liveStep liveConfig) (Orderly liveConfig)
    (liveRestored [] []) declaredBeside := by
  have hnone : Orderly liveConfig (liveRestored [] [])
      (.command liveEnv (.declare ["a"] ⟨.dir "a", none⟩ .casDownload)) := by
    refine .inr ⟨fun number paths hjoin => absurd hjoin.1 not_mem_nil, ?_⟩
    exact fun r future version hr hover hunresolved => absurd hunresolved.1 not_mem_nil
  have hrequested : Reach (liveStep liveConfig) (Orderly liveConfig) (liveRestored [] [])
      requested :=
    (Reach.refl.tail hnone rfl).tail (l := .command liveEnv (.ensure [["a"]])) trivial rfl
  refine hrequested.tail (l := .command liveEnv (.declare ["b"] ⟨.dir "b", none⟩ .casDownload))
    (.inr ⟨?_, ?_⟩) rfl
  · intro number paths hjoin
    have hmem : FutureId.join number paths ∈
        [FutureId.task .cleaning 1 ["a"], .task .materializing 2 ["a"]] := hjoin.1
    simp at hmem
  · rintro r future version hr (⟨hle, -⟩ | ⟨hfails, -⟩)
    · obtain ⟨data, hdata, -⟩ := processingAt_eq_some.mp hr
      have hkey : (r, data) ∈ requested.state.tree.iterWithPaths := mem_iterWithPaths hdata
      have hr' : r ∈ [["a"]] := mem_map_of_mem (f := Prod.fst) hkey
      rw [mem_singleton.mp hr'] at hle
      exact absurd hle (by decide)
    · cases hfails

theorem overlapping_operations_ordered_beside :
    (lookup declaredBeside.jobs (.task .materializing 2 ["a"])).map (·.todo) =
        some [.await (.task .cleaning 1 ["a"]) true, .perform (.write ["a"])] ∧
      (lookup declaredBeside.jobs (.task .cleaning 3 ["b"])).map (·.todo) =
        some [.perform (.clean ["b"])] ∧
      ¬ Overlap (Op.write ["a"]).path (Op.clean ["b"]).path := by
  have hk := (lookup_mem (show lookup declaredBeside.jobs (.task .materializing 2 ["a"]) =
    some _ from rfl)).1
  have hj := (lookup_mem (show lookup declaredBeside.jobs (.task .cleaning 3 ["b"]) =
    some _ from rfl)).1
  exact ⟨rfl, rfl, overlapping_operations_ordered declaredBeside_reach hj rfl hk
    ⟨by decide, by decide⟩ (.tail _ (.head _))⟩

/-- While `a` is written, `a/x` is declared, and then `a/y`, whose clean starts at once. -/
def overtaken : Live :=
  (run (liveStep liveConfig) (fun _ l => l.invalidates = false) requested
    [.event (.task .cleaning 1 ["a"]) .start,
      .event (.task .cleaning 1 ["a"]) (.finish true),
      .event (.task .cleaning 1 ["a"]) .proceed,
      .event (.task .materializing 2 ["a"]) .proceed,
      .event (.task .materializing 2 ["a"]) .start,
      .command liveEnv (.declare ["a", "x"] ⟨.dir "x", none⟩ .casDownload),
      .command liveEnv (.declare ["a", "y"] ⟨.dir "y", none⟩ .casDownload),
      .event (.task .cleaning 4 ["a", "y"]) .start]).get (by decide)

/-- **A clean may start while a directory above it is still being written.** The declaration of
`a/x` waits for the write of `a`, but replaces its entry; that of `a/y` finds nothing to wait for.
-/
theorem declaration_overtakes_write :
    Reach (liveStep liveConfig) (fun _ l => l.invalidates = false) (liveRestored [] []) overtaken ∧
      Earlier (ids overtaken.jobs) (.task .materializing 2 ["a"]) (.task .cleaning 4 ["a", "y"]) ∧
      lookup overtaken.jobs (.task .materializing 2 ["a"]) =
        some ⟨.task .materializing 2 ["a"], [.perform (.write ["a"])], true, none⟩ ∧
      lookup overtaken.jobs (.task .cleaning 4 ["a", "y"]) =
        some ⟨.task .cleaning 4 ["a", "y"], [.perform (.clean ["a", "y"])], true, none⟩ ∧
      Overlap ["a"] ["a", "y"] := by
  refine ⟨Relation.ReflTransGen.trans (reach_of_run _ (Option.some_get _).symm)
    (reach_of_run _ (Option.some_get _).symm), ⟨by decide, by decide⟩, rfl, rfl, by decide⟩

end Bz.Materializer
