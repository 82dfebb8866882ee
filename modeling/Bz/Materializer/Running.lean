import Bz.Materializer.Wiring

/-!
# Tasks that are running

An entry whose current task is still running holds the future of that task, and the task of a
declared artifact writes it: `Tracked`.  Like `Wired` this holds in every run.

Principal results: `Tracked.step`; `live_invariant`, both invariants of every run.
-/

namespace Bz.Materializer

open Bz.Awaits Bz.Machine DataTree List

variable {cfg : Config} {s : State} {w w' : Live} {q path : Path} {data : Data} {t : Task}
  {state : State} {env : Env}

/-! ## The invariant -/

/-- What is known of an entry: the current task is waited for, and writes what is declared. -/
structure Entered (w : Live) (q : Path) (data : Data) : Prop where
  declared : data.declaration ≤ data.version
  awaited : ∀ t ∈ w.state.running, t.path = q → t.version = data.version →
    data.processing = .active t.kind.future t.version
  writes : ∀ version, data.processing = .active .materializing version →
    data.stage.metadata = none → ∀ j ∈ w.jobs, j.id = .task .materializing version q →
    j.result = some false ∨ .fail ∈ j.todo ∨ (version, q) ∈ w.written ∨
      .perform (.write q) ∈ j.todo

/-- The invariant of running tasks. -/
structure Tracked (w : Live) : Prop where
  running : w.state.running.Sublist w.state.tasks
  entry : ∀ q data, w.state.tree.get q = some data → Entered w q data

/-- The entry was there before, with the same future. -/
def Kept (s : State) (q : Path) (data' : Data) : Prop :=
  ∃ data, s.tree.get q = some data ∧ data'.processing = data.processing ∧
    data'.declaration = data.declaration ∧
    (data'.stage.metadata = none → data.stage.metadata = none)

theorem Kept.refl (h : s.tree.get q = some data) : Kept s q data := ⟨data, h, rfl, rfl, id⟩

/-- Tasks and jobs that are added concern no entry that stays. -/
theorem Tracked.change (h : Tracked w) (hrunning : w'.state.running.Sublist w'.state.tasks)
    (hnew : ∀ t ∈ w'.state.running, t ∈ w.state.running ∨
      ∀ data, w.state.tree.get t.path = some data → t.version ≠ data.version)
    (hjobs : ∀ j ∈ w'.jobs, j ∈ w.jobs ∨ ∀ q data, w.state.tree.get q = some data →
      j.id ≠ .task .materializing data.version q) (hwritten : w'.written = w.written)
    (hentry : ∀ q data, w'.state.tree.get q = some data → Kept w.state q data ∨ Entered w' q data) :
    Tracked w' := by
  refine ⟨hrunning, fun q data' hq' => ?_⟩
  rcases hentry q data' hq' with ⟨data, hq, hprocessing, hdeclaration, hstage⟩ | hentered
  swap
  · exact hentered
  have hdata := h.entry q data hq
  have hversion : data'.version = data.version := by rw [Data.version, hprocessing]
  refine ⟨?_, ?_, ?_⟩
  · rw [hdeclaration, hversion]
    exact hdata.declared
  · intro t ht hpath htv
    rw [hversion] at htv
    rcases hnew t ht with hold | hnew
    · rw [hprocessing]
      exact hdata.awaited t hold hpath htv
    · exact absurd htv (hnew data (hpath ▸ hq))
  · intro version hactive hmetadata j hj hid
    rw [hprocessing] at hactive
    rw [hwritten]
    rcases hjobs j hj with hold | hnew
    · exact hdata.writes version hactive (hstage hmetadata) j hold hid
    · refine absurd ?_ (hnew q data hq)
      rw [hid, Data.version, hactive]
      rfl

theorem Tracked.settle (h : Tracked w) (hrunning : state.running = w.state.running)
    (htasks : state.tasks = w.state.tasks)
    (hentry : ∀ q data, state.tree.get q = some data → Kept w.state q data ∨ Entered
      { w with state } q data) : Tracked { w with state } := by
  refine h.change ?_ ?_ (fun j hj => .inl hj) rfl hentry
  · rw [hrunning, htasks]
    exact h.running
  · intro t ht
    rw [hrunning] at ht
    exact .inl ht

theorem Tracked.modify {f : Data → Data} (h : Tracked w) (hq : w.state.tree.get q = some data)
    (hprocessing : (f data).processing = data.processing)
    (hdeclaration : (f data).declaration = data.declaration)
    (hstage : (f data).stage.metadata = none → data.stage.metadata = none) :
    Tracked { w with state := w.state.modify q f } := by
  refine h.settle rfl rfl fun q' data' hq' => .inl ?_
  rcases get_of_get_update hq hq' with ⟨rfl, rfl⟩ | hold
  · exact ⟨data, hq, hprocessing, hdeclaration, hstage⟩
  · exact .refl hold

theorem Tracked.touches (h : Tracked w) (ht : Touches w.state state) :
    Tracked { w with state } := by
  induction ht with
  | refl => exact h
  | modify _ hq hf ih =>
    exact ih.modify hq hf.processing hf.declaration fun hnone => by rwa [hf.metadata] at hnone

/-! ## Commands -/

/-- An entry with the next version, of which no task is running. -/
theorem Entered.fresh (hw : Wired w) (hrunning : ∀ t ∈ w'.state.running, t ∈ w.state.running)
    (hdeclaration : data.declaration ≤ w.state.versionTracker)
    (hprocessing : data.processing = .done w.state.versionTracker) : Entered w' q data := by
  have hversion : data.version = w.state.versionTracker := by rw [Data.version, hprocessing]; rfl
  refine ⟨by rw [hversion]; exact hdeclaration, ?_, ?_⟩
  · intro t ht _ htv
    have hlt := hw.versioned.task_lt t (hw.versioned.running t (hrunning t ht))
    rw [htv, hversion] at hlt
    exact absurd hlt (Nat.lt_irrefl _)
  · intro version hactive
    rw [hprocessing] at hactive
    cases hactive

theorem Tracked.declareExisting {value : ArtifactValue} (hw : Wired w) (h : Tracked w) :
    Tracked { w with state := Materializer.declareExisting cfg env w.state path value } := by
  by_cases hreuses : reusesExisting cfg env w.state path value
  · obtain ⟨data, metadata, time, active, hget, hstage, -, heq⟩ :=
      declareExisting_of_reuses hreuses
    rw [heq]
    exact h.modify hget rfl rfl fun hnone => by cases hnone
  · rw [declareExisting_of_not_reuses hreuses]
    refine h.settle rfl rfl fun q data hq => ?_
    obtain ⟨-, rfl⟩ | hold := get_of_get_insert hq
    · exact .inr (.fresh hw (fun _ ht => ht) le_rfl rfl)
    · exact .inl (.refl hold)

theorem Tracked.foldl_declareExisting (hw : Wired w) (h : Tracked w)
    (artifacts : List (Path × ArtifactValue)) : Tracked { w with
      state := artifacts.foldl
        (fun s (path, value) => Materializer.declareExisting cfg env s path value) w.state } := by
  induction artifacts generalizing w with
  | nil => exact h
  | cons artifact artifacts ih =>
    exact ih (hw.declareExisting [artifact]) (h.declareExisting hw)

/-- The version of the task is new at its path. -/
structure Unused (w : Live) (t : Task) : Prop where
  running : ∀ t' ∈ w.state.running, t'.path = t.path → t'.version ≠ t.version
  entry : ∀ data, w.state.tree.get t.path = some data → data.version ≠ t.version
  job : .task .materializing t.version t.path ∉ ids w.jobs

theorem Unused.next (hw : Wired w) (hversion : t.version = w.state.versionTracker) :
    Unused w t := by
  refine ⟨fun t' ht _ => ?_, fun data hq => ?_, hw.task_not_mem hversion.ge⟩ <;> rw [hversion]
  · exact (hw.versioned.task_lt t' (hw.versioned.running t' ht)).ne
  · exact (hw.versioned.data_lt _ data hq).ne

theorem Tracked.launch {todo : List (Action FutureId Op)} (h : Tracked w) (hunused : Unused w t)
    (htasks : state.tasks = w.state.tasks ++ [t])
    (hrunning : state.running = w.state.running ++ [t])
    (hentry : ∀ q data, state.tree.get q = some data → Kept w.state q data ∨
      q = t.path ∧ data.declaration ≤ t.version ∧
        data.processing = .active t.kind.future t.version ∧
        (t.kind ≠ .clean → data.stage.metadata = none → .perform (.write t.path) ∈ todo)) :
    Tracked (Live.launch { w with state } t.id todo) := by
  have hmem (t' : Task) (ht : t' ∈ state.running) : t' ∈ w.state.running ∨ t' = t := by
    simpa [hrunning] using ht
  have hjob (j : Job FutureId Op) (hj : j ∈ w.jobs ++ [.new t.id todo]) :
      j ∈ w.jobs ∨ j = .new t.id todo := by
    simpa using hj
  refine h.change ?_ ?_ ?_ rfl ?_
  · show state.running.Sublist state.tasks
    rw [htasks, hrunning]
    exact h.running.append_right _
  · intro t' ht
    refine (hmem t' ht).imp id ?_
    rintro rfl data hdata heq
    exact hunused.entry data hdata heq.symm
  · intro j hj
    refine (hjob j hj).imp id ?_
    rintro rfl q data hdata hid
    injection hid with _ hversion hpath
    exact hunused.entry data (hpath ▸ hdata) hversion.symm
  · intro q data hq
    refine (hentry q data hq).imp id ?_
    rintro ⟨rfl, hdeclaration, hprocessing, hwrites⟩
    have hversion : data.version = t.version := by rw [Data.version, hprocessing]; rfl
    refine ⟨by rw [hversion]; exact hdeclaration, ?_, ?_⟩
    · intro t' ht hpath htv
      rcases hmem t' ht with hold | rfl
      · exact absurd (htv.trans hversion) (hunused.running t' hold hpath)
      · exact hprocessing
    · intro version hactive hmetadata j hj hid
      rw [hprocessing] at hactive
      injection hactive with hfuture hv
      subst hv
      rcases hjob j hj with hold | rfl
      · exact absurd (hid ▸ Awaits.mem_ids hold) hunused.job
      · refine .inr (.inr (.inr (hwrites (fun hclean => ?_) hmetadata)))
        rw [hclean] at hfuture
        cases hfuture

section Steps

variable {env : LiveEnv} {stack : List Path} {index : Nat} {task : Task}

theorem Tracked.declare (hw : Wired w) (h : Tracked w) (value : ArtifactValue) (method : Method) :
    Tracked (declareLive cfg env w path value method) := by
  have hdeclares := declaresLive cfg env w path value method
  generalize declareLive cfg env w path value method = w' at hdeclares ⊢
  cases hdeclares with
  | kept htouches => exact h.touches htouches
  | @launched kind todo _ hkind =>
    refine h.launch (t := ⟨path, w.state.versionTracker, kind, w.state.versionTracker⟩)
      (.next hw rfl) rfl rfl fun q data hq => ?_
    obtain ⟨rfl, rfl⟩ | hold := get_of_get_insert hq
    · refine .inr ⟨rfl, le_rfl, rfl, fun hclean _ => ?_⟩
      obtain ⟨-, rfl, -⟩ | ⟨rfl, -⟩ := hkind
      · exact mem_cons_self
      · exact absurd rfl hclean
    · exact .inl (.refl (get_of_get_remove hold))

theorem Answers.tracked {future : Option Materializing} (h : Answers stack path w future w')
    (ht : Tracked w) : Tracked w' := by
  obtain ⟨state, htouches, -, rfl⟩ := h.touches
  exact ht.touches htouches

theorem Tracked.start {copied : List Path} {w2 : Live} {entry : Option Entry}
    {copies links : List Materializing} (h : Tracked w2) (hlaunch : Launching stack w w2 q data)
    (hstarts : Starts data entry copied) :
    Tracked (w2.startTask cfg q w.state.versionTracker data entry copies links) := by
  -- the task of a request is newer than the entry, and no other one at its path is newer
  have hunused : Unused w2 ⟨q, w.state.versionTracker, .materialize entry, data.declaration⟩ := by
    refine ⟨fun t' ht hpath => ?_, fun data' hq => ?_, hlaunch.id_not_mem⟩
    · rcases hlaunch.extended.task t' (hlaunch.wired₂.versioned.running t' ht) with
        hbefore | ⟨hnot, -⟩
      · exact (hlaunch.wired.versioned.task_lt t' hbefore).ne
      · exact absurd (by rw [hpath]; exact mem_cons_self) hnot
    · cases hq.symm.trans hlaunch.get₂
      exact (hlaunch.wired.versioned.data_lt _ data hlaunch.get).ne
  refine h.launch hunused rfl rfl fun q' data' hq' => ?_
  rcases get_of_get_update hlaunch.get₂ hq' with ⟨rfl, rfl⟩ | hold
  · have hlt := hlaunch.wired.versioned.data_lt q' data hlaunch.get
    refine .inr ⟨rfl, ((h.entry q' data hlaunch.get₂).declared.trans_lt hlt).le, rfl, ?_⟩
    intro _ hmetadata
    cases hstarts with
    | declared => exact perform_mem_performMaterialization
    | materialized hstage =>
      rw [show data.stage.metadata = _ from congrArg Stage.metadata hstage] at hmetadata
      cases hmetadata
  · exact .inl (.refl hold)

/-- Of a materialization at the end of a request all that was there before is older. -/
theorem Ensures.tracked {paths : List Path} {futures : List Materializing}
    (h : Ensures cfg stack paths w futures w') (hw : Wired w) (ht : Tracked w) : Tracked w' := by
  induction h with
  | nil => exact ht
  | answered hanswer _ ih => exact ih (hanswer.wired hw).1 (hanswer.tracked ht)
  | @started stack path q data paths copied entry w w1 w2 w3 copies links futures hfound hstack
      hprocessing hstarts hcopies hlinks hrest ihcopies ihlinks ihrest =>
    obtain ⟨hlaunch, hw1, -, hstarted⟩ := hcopies.launching hw hfound hstack hstarts hlinks
    have ht1 := ihcopies hw.bumpVersion (ht.settle rfl rfl fun q data hq => .inl (.refl hq))
    refine ihrest hstarted ((ihlinks hw1 ht1).start hlaunch hstarts)

/-- Of two running tasks of one declaration the versions differ. -/
theorem Tracked.version_ne {t' : Task} (hw : Wired w) (h : Tracked w)
    (ht : w.state.running[index]? = some t) (ht' : t' ∈ w.state.running.eraseIdx index)
    (hpath : t'.path = t.path) (hdeclaration : t'.declaration = t.declaration) :
    t'.version ≠ t.version := by
  have hordered := hw.versioned.ordered.sublist h.running
  obtain ⟨i, hne, hi⟩ := mem_eraseIdx_iff_getElem?.mp ht'
  rw [pairwise_iff_getElem] at hordered
  obtain ⟨hi', hti⟩ := List.getElem?_eq_some_iff.mp hi
  obtain ⟨hindex, htindex⟩ := List.getElem?_eq_some_iff.mp ht
  rcases Nat.lt_or_gt_of_ne hne with hlt | hlt
  · have hversion := hordered i index hi' hindex hlt
    rw [hti, htindex] at hversion
    exact (hversion hpath hdeclaration).ne
  · have hversion := hordered index i hindex hi' hlt
    rw [hti, htindex] at hversion
    exact (hversion hpath.symm hdeclaration.symm).ne'

theorem Tracked.finish (hw : Wired w) (h : Tracked w) (htask : w.state.running[index]? = some task)
    (timestamp : Nat) (ok : Bool) : Tracked (finishLive (w.take index) task timestamp ok) := by
  have ht : task ∈ w.state.tasks := hw.versioned.running task (mem_of_getElem? htask)
  have h' : Tracked (w.take index) :=
    h.change ((eraseIdx_sublist _ _).trans h.running)
      (fun t ht => .inl (mem_of_mem_eraseIdx ht)) (fun j hj => .inl hj) rfl
      fun q data hq => .inl (.refl hq)
  have hmessage := messages (hw.take index).versioned ht timestamp ok
  generalize finishLive (w.take index) task timestamp ok = w' at hmessage ⊢
  cases hmessage with
  | ignored => exact h'
  | @settled data f version _ _ hversion hq hcurrent _ hdeclaration hprocessing =>
    refine h'.settle rfl rfl fun q data' hq' => ?_
    rcases get_of_get_update hq hq' with ⟨heq, rfl⟩ | hold
    swap
    · exact .inl (.refl hold)
    have hle := (h.entry task.path data hq).declared
    right
    rcases hversion with rfl | rfl
    · have hversion : (f data).version = task.version := by rw [Data.version, hprocessing]; rfl
      refine ⟨?_, ?_, ?_⟩
      · rw [hversion, hcurrent.version, hdeclaration]
        exact hle
      · intro t' ht' hpath htv
        rw [hversion] at htv
        have hpath' : t'.path = task.path := hpath.trans heq
        have hmem := hw.versioned.running t' (mem_of_mem_eraseIdx ht')
        rcases hw.versioned.current _ data t' hq hmem (by rw [hpath']) with hlt | hcurrent'
        · rw [htv, hcurrent.version] at hlt
          exact absurd hlt (Nat.lt_irrefl _)
        · refine absurd htv (h.version_ne hw htask ht' hpath' ?_)
          rw [hcurrent'.declaration, hcurrent.declaration]
      · intro version hactive
        rw [hprocessing] at hactive
        cases hactive
    · refine .fresh hw (fun t ht => mem_of_mem_eraseIdx ht) ?_ hprocessing
      rw [hdeclaration]
      exact (hle.trans_lt (hw.versioned.data_lt _ data hq)).le
  | @again data hq =>
    refine h'.launch (t := ⟨task.path, w.state.versionTracker, .clean, data.declaration⟩)
      (.next (hw.take index) rfl) rfl rfl fun q data' hq' => ?_
    rcases get_of_get_update hq hq' with ⟨heq, rfl⟩ | hold
    · have hle := (h.entry task.path data hq).declared
      have hlt := hw.versioned.data_lt _ data hq
      exact .inr ⟨heq, (hle.trans_lt hlt).le, rfl, fun hclean => absurd rfl hclean⟩
    · exact .inl (.refl hold)

/-- A job that has to write goes on to write, has written, or fails. -/
theorem Tracked.event {id : FutureId} {event : Event} (hw : Wired w) (h : Tracked w)
    (hevent : eventLive w id event = some w') : Tracked w' := by
  obtain ⟨hjobs, hstate, -⟩ := eventLive_spec hevent
  refine ⟨by rw [hstate]; exact h.running, fun q data hq => ?_⟩
  rw [hstate] at hq
  have hentry := h.entry q data hq
  refine ⟨hentry.declared, by rw [hstate]; exact hentry.awaited, ?_⟩
  intro version hactive hmetadata k hk hkid
  rcases mem_of_step hw.ordered.nodup hjobs hk with ⟨hold, -⟩ | ⟨j, hj, hjid, hresult, hadvance⟩
  · rcases hentry.writes version hactive hmetadata k hold hkid with hfalse | hfail | hwritten | hop
    · exact .inl hfalse
    · exact .inr (.inl hfail)
    · exact .inr (.inr (.inl (written_subset_eventLive hevent hwritten)))
    · exact .inr (.inr (.inr hop))
  · rw [hadvance.id_eq] at hkid
    rcases hentry.writes version hactive hmetadata j hj hkid with hfalse | hfail | hwritten | hop
    · rw [hresult] at hfalse
      cases hfalse
    · exact (hadvance.fail_mem hfail).imp_right .inl
    · exact .inr (.inr (.inl (written_subset_eventLive hevent hwritten)))
    · rcases hadvance.mem_todo hop with hfalse | hop | ⟨_, _, _, heq, -⟩ | ⟨_, heq, htodo, hfinish⟩
      · exact .inl hfalse
      · exact .inr (.inr (.inr hop))
      · cases heq
      · cases heq
        have hid : id = .task .materializing version q := hjid.symm.trans hkid
        cases hfinish
        rw [hid] at hevent
        exact .inr (.inr (.inl (written_eventLive hw hj hkid htodo hevent)))

theorem Tracked.step {l : LiveLabel} (hw : Wired w) (h : Tracked w)
    (hstep : liveStep cfg w l = some w') : Tracked w' := by
  cases l with
  | event id event => exact h.event hw hstep
  | command env command =>
    cases command with
    | declare path value method =>
      cases hstep
      exact h.declare hw value method
    | declareExisting artifacts =>
      cases hstep
      exact h.foldl_declareExisting hw artifacts
    | matchArtifacts artifacts =>
      cases hstep
      exact h.touches (matchArtifacts_touches artifacts .refl)
    | hasArtifact path =>
      cases hstep
      exact h.touches hasArtifact_touches
    | invalidateFilePaths paths =>
      cases hstep
      refine h.change h.running (fun t ht => .inl ht) ?_ rfl ?_
      · intro j hj
        refine (mem_append.mp hj).imp id fun hnew q data _ hid => ?_
        rw [mem_singleton.mp hnew] at hid
        cases hid
      · exact fun q data hq => .inl (.refl (get_of_get_invalidatePaths hq))
    | ensure paths =>
      cases hstep
      exact (ensures_ensureLive w paths).tracked hw h
    | finished index timestamp ok =>
      obtain ⟨task, htask, -, rfl⟩ := liveStep_finished hstep
      exact h.finish hw htask timestamp ok

end Steps

theorem Tracked.restored (sqliteState : List MaterializerStateEntry)
    (declaredCasState : List MaterializerDeclaredCasStateEntry) :
    Tracked (liveRestored sqliteState declaredCasState) := by
  refine ⟨List.Sublist.refl _, fun q data hq => ?_⟩
  obtain ⟨hprocessing, hdeclaration⟩ := restored_get hq
  refine ⟨by rw [hdeclaration]; exact Nat.zero_le _, nofun, ?_⟩
  intro version hactive
  rw [hprocessing] at hactive
  cases hactive

/-- **In every run the futures of the tree are those of jobs, and the current tasks of entries that
are running are the ones waited for.** -/
theorem live_invariant {sqliteState : List MaterializerStateEntry}
    {declaredCasState : List MaterializerDeclaredCasStateEntry} {P : Live → LiveLabel → Prop}
    (h : Reach (liveStep cfg) P (liveRestored sqliteState declaredCasState) w) :
    Wired w ∧ Tracked w :=
  h.invariant (I := fun w => Wired w ∧ Tracked w)
    (fun _ _ _ hw _ hstep => ⟨hw.1.step hstep, hw.2.step hw.1 hstep⟩)
    ⟨.restored sqliteState declaredCasState, .restored sqliteState declaredCasState⟩

end Bz.Materializer
