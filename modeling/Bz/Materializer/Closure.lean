import Bz.Materializer.Running

/-!
# An `Ensure` materializes what the artifact depends on

The recursion of `materialize_artifact_inner` skips an artifact that is on the stack of the request,
because the request that put it there waits for it; but the task created in this way is kept in the
tree, and a later request joins it.  When the dependencies are cyclic, that request does not wait
for all of them.

Principal results: `mem_findArtifacts`; `Covered.step`, for a window without declarations and
invalidations; `ensure_materializes_closure`.
-/

namespace Bz.Materializer

open Bz.Awaits Bz.Machine DataTree List Option

/-! ## Dependencies -/

mutual
/-- A directory of dependencies leads to a path: it ends at an entry of the directory, or below a
leaf nothing more is asked for. -/
def Directory.Leads : Directory → Path → Prop
  | _, [] => True
  | .leaf, _ :: _ => False
  | .dir entries, name :: path => EntriesLead entries name path
def EntriesLead : List (String × Directory) → String → Path → Prop
  | [], _, _ => False
  | (name', entry) :: entries, name, path =>
    name' = name ∧ entry.Leads path ∨ EntriesLead entries name path
end

section FindArtifacts

variable {V : Type}

mutual
theorem mem_walkDeps (d : Directory) (t : DataTree String V) (base p : Path) :
    p ∈ walkDeps d t base ↔ ∃ r, p = base ++ r ∧ (t.get r).isSome ∧ d.Leads r := by
  match d, t with
  | d, .data v =>
    have hwalk : walkDeps d (.data v) base = [base] := by
      cases d <;> rw [walkDeps]
    rw [hwalk, mem_singleton]
    constructor
    · rintro rfl
      exact ⟨[], (append_nil p).symm, rfl, by cases d <;> trivial⟩
    · rintro ⟨r, rfl, hget, -⟩
      cases r with
      | nil => exact append_nil base
      | cons k r => cases hget
  | .leaf, .tree children =>
    constructor
    · nofun
    · rintro ⟨r, rfl, hget, hleads⟩
      cases r with
      | nil => cases hget
      | cons k r => exact hleads.elim
  | .dir entries, .tree children =>
    rw [walkDeps, mem_walkEntries entries children base p]
    constructor
    · rintro ⟨name, r, rfl, hget, hleads⟩
      exact ⟨name :: r, rfl, hget, hleads⟩
    · rintro ⟨r, rfl, hget, hleads⟩
      cases r with
      | nil => cases hget
      | cons name r => exact ⟨name, r, rfl, hget, hleads⟩
theorem mem_walkEntries (entries : List (String × Directory))
    (children : List (String × DataTree String V)) (base p : Path) :
    p ∈ walkEntries entries children base ↔ ∃ name r, p = base ++ name :: r ∧
      ((DataTree.tree children).get (name :: r)).isSome ∧ EntriesLead entries name r := by
  match entries with
  | [] =>
    constructor
    · nofun
    · rintro ⟨name, r, -, -, hleads⟩
      exact hleads.elim
  | (name', entry) :: entries =>
    rw [walkEntries, mem_append, mem_walkEntries entries children base p]
    have hhead : p ∈ (match DataTree.child children name' with
        | some subtree => walkDeps entry subtree (base ++ [name'])
        | none => []) ↔ ∃ r, p = base ++ name' :: r ∧
          ((DataTree.tree children).get (name' :: r)).isSome ∧ entry.Leads r := by
      simp only [get_cons_tree]
      cases DataTree.child children name' with
      | none => simp
      | some subtree =>
        rw [mem_walkDeps entry subtree (base ++ [name']) p]
        simp [append_assoc]
    refine (or_congr hhead Iff.rfl).trans ?_
    constructor
    · rintro (⟨r, hp, hget, hleads⟩ | ⟨name, r, hp, hget, hleads⟩)
      · exact ⟨name', r, hp, hget, .inl ⟨rfl, hleads⟩⟩
      · exact ⟨name, r, hp, hget, .inr hleads⟩
    · rintro ⟨name, r, hp, hget, ⟨rfl, hleads⟩ | hleads⟩
      · exact .inl ⟨r, hp, hget, hleads⟩
      · exact .inr ⟨name, r, hp, hget, hleads⟩
end

theorem mem_findArtifacts {tree : DataTree String V} {deps : List (String × Directory)} {p : Path} :
    p ∈ findArtifacts tree deps ↔ (tree.get p).isSome ∧ (Directory.dir deps).Leads p := by
  rw [findArtifacts, mem_walkDeps]
  constructor
  · rintro ⟨r, rfl, h⟩
    exact h
  · exact fun h => ⟨p, rfl, h⟩

end FindArtifacts

section

variable (tree : ArtifactTree)

/-- The paths that a request for an artifact goes on to. -/
def dependencies (data : Data) : List Path :=
  (match data.stage with
    | .declared _ method => method.copySources
    | .materialized _ _ _ => []) ++ (data.deps.map (findArtifacts tree)).getD []

/-- The artifact at `q` is copied from the one at `q'`, or has a symlink to it. -/
def DependsOn (q q' : Path) : Prop :=
  ∃ data path data', tree.get q = some data ∧ path ∈ dependencies tree data ∧
    tree.prefixGet path = some (q', data')

/-- Everything that the artifact at `q` leads to, with itself. -/
abbrev Leads : Path → Path → Prop :=
  Relation.ReflTransGen (DependsOn tree)

/-- No artifact that `q` leads to depends on itself. -/
def Acyclic (q : Path) : Prop :=
  ∀ q', Leads tree q q' → ¬ Relation.TransGen (DependsOn tree) q' q'

end

theorem Acyclic.of_dependsOn {tree : ArtifactTree} {q q' : Path} (h : Acyclic tree q)
    (hedge : DependsOn tree q q') : Acyclic tree q' :=
  fun q'' hleads => h q'' (.head hedge hleads)

/-! ## A window without declarations -/

/-- Requests, messages and events. -/
def LiveLabel.isRequest : LiveLabel → Bool
  | .event _ _ => true
  | .command _ (.ensure _) => true
  | .command _ (.finished _ _ _) => true
  | .command _ _ => false

/-- The materializations under way are writes that were started when their artifact was declared,
and it depends on nothing. -/
def Quiet (w : Live) : Prop :=
  ∀ q data version, w.state.tree.get q = some data →
    data.processing = .active .materializing version →
    data.stage.metadata = none ∧ dependencies w.state.tree data = []

/-- The artifact was materialized in the first state, or has been written since it was declared. -/
def Written (w₀ w : Live) (q : Path) : Prop :=
  ∃ data, w₀.state.tree.get q = some data ∧ (data.stage.metadata ≠ none ∨
    ∃ version, data.declaration ≤ version ∧ (version, q) ∈ w.written)

/-- All that the artifact leads to has been written. -/
def Closed (w₀ w : Live) (q : Path) : Prop :=
  ∀ q', Leads w₀.state.tree q q' → Written w₀ w q'

/-- A task of the window, or one of the writes that were under way. -/
def Recent (w₀ : Live) (version : Version) (q : Path) : Prop :=
  ∃ data, w₀.state.tree.get q = some data ∧ (w₀.state.versionTracker ≤ version ∨
    data.processing = .active .materializing version)

section Window

variable {cfg : Config} {w0 w w' : Live} {q q' path : Path} {data : Data}
  {data0 : Data} {stack : List Path}
  {version : Version} {futures : List Materializing} {copied : List Path}
  {entry : Option Entry} {w1 : Live} {f : Data → Data}

theorem Written.mono (h : Written w0 w q) (hwritten : ∀ e ∈ w.written, e ∈ w'.written) :
    Written w0 w' q := by
  obtain ⟨data, hq, hmaterialized | ⟨version, hle, hmem⟩⟩ := h
  · exact ⟨data, hq, .inl hmaterialized⟩
  · exact ⟨data, hq, .inr ⟨version, hle, hwritten _ hmem⟩⟩

theorem Closed.mono (h : Closed w0 w q) (hwritten : ∀ e ∈ w.written, e ∈ w'.written) :
    Closed w0 w' q :=
  fun q' hleads => (h q' hleads).mono hwritten

theorem Closed.of_edges (hq : Written w0 w q)
    (h : ∀ q', DependsOn w0.state.tree q q' → Closed w0 w q') : Closed w0 w q := by
  intro q' hleads
  rcases Relation.ReflTransGen.cases_head hleads with rfl | ⟨q1, hedge, hrest⟩
  · exact hq
  · exact h q1 hedge q' hrest

/-- How an entry of the window is related to the one it started as. -/
structure SameEntry (w₀ : Live) (q : Path) (data₀ data : Data) : Prop where
  deps : data.deps = data₀.deps
  declared : data.stage.metadata = none → data.stage = data₀.stage
  materialized : data₀.stage.metadata ≠ none → data.stage.metadata ≠ none
  recent : ∀ version, data.processing = .active .materializing version → Recent w₀ version q

/-- The tree of the window has the artifacts that it started with. -/
structure Steady (w₀ w : Live) : Prop where
  tracker : w₀.state.versionTracker ≤ w.state.versionTracker
  entry : ∀ q, w₀.state.tree.get q = none ∧ w.state.tree.get q = none ∨
    ∃ data₀ data, w₀.state.tree.get q = some data₀ ∧ w.state.tree.get q = some data ∧
      SameEntry w₀ q data₀ data

namespace Steady

theorem refl : Steady w w := by
  refine ⟨le_rfl, fun q => ?_⟩
  cases hq : w.state.tree.get q with
  | none => exact .inl ⟨rfl, rfl⟩
  | some data =>
    exact .inr ⟨data, data, rfl, rfl, rfl, fun _ => rfl, id, fun version hactive =>
      ⟨data, hq, .inr hactive⟩⟩

variable (h : Steady w0 w)
include h

theorem of_get (hq : w.state.tree.get q = some data) :
    ∃ data0, w0.state.tree.get q = some data0 ∧ SameEntry w0 q data0 data := by
  rcases h.entry q with ⟨-, hnone⟩ | ⟨data0, data', hdata0, hdata', hsame⟩
  · rw [hnone] at hq
    cases hq
  · cases hq.symm.trans hdata'
    exact ⟨data0, hdata0, hsame⟩

theorem isSome_get : (w.state.tree.get q).isSome = (w0.state.tree.get q).isSome := by
  rcases h.entry q with ⟨h0, h⟩ | ⟨data0, data, h0, h, -⟩
  · rw [h0, h]
  · rw [h0, h]
    rfl

theorem prefixGet (hfound : w0.state.tree.prefixGet path = some (q, data0)) :
    ∃ data, w.state.tree.prefixGet path = some (q, data) ∧ SameEntry w0 q data0 data := by
  obtain ⟨hle, hq⟩ := prefixGet_eq_some.mp hfound
  rcases h.entry q with ⟨hnone, -⟩ | ⟨data0', data, hdata0, hdata, hsame⟩
  · rw [hnone] at hq
    cases hq
  · cases hq.symm.trans hdata0
    exact ⟨data, prefixGet_eq_some.mpr ⟨hle, hdata⟩, hsame⟩

theorem modify (hq : w.state.tree.get q = some data)
    (hf : ∀ data0, SameEntry w0 q data0 data → SameEntry w0 q data0 (f data))
    (htracker : w.state.versionTracker ≤ w'.state.versionTracker)
    (htree : w'.state.tree = w.state.tree.update f q) : Steady w0 w' := by
  refine ⟨h.tracker.trans htracker, fun q' => ?_⟩
  have hget := get_update_key hq f q'
  rw [← htree] at hget
  by_cases heq : q' = q
  · subst heq
    rw [if_pos rfl] at hget
    obtain ⟨data0, hdata0, hsame⟩ := h.of_get hq
    exact .inr ⟨data0, f data, hdata0, hget, hf data0 hsame⟩
  · rw [if_neg heq] at hget
    rcases h.entry q' with ⟨h0, hnone⟩ | ⟨data0, data', h0, hsome, hsame⟩
    · exact .inl ⟨h0, hget.trans hnone⟩
    · exact .inr ⟨data0, data', h0, hget.trans hsome, hsame⟩

end Steady

/-- Every task waits for what its artifact depends on, or it has been written; a materialized
artifact depends on its symlinks only. -/
structure Covered (w₀ w : Live) : Prop where
  job : ∀ j ∈ w.jobs, ∀ version q, j.id = .task .materializing version q → Recent w₀ version q →
    Acyclic w₀.state.tree q → j.result = some false ∨ .fail ∈ j.todo ∨
      (Written w₀ w q ∨ .perform (.write q) ∈ j.todo) ∧
      ∀ q', DependsOn w₀.state.tree q q' → Closed w₀ w q' ∨
        ∃ version', .await (.task .materializing version' q') true ∈ j.todo ∧
          Recent w₀ version' q'
  materialized : ∀ q data₀ data, w₀.state.tree.get q = some data₀ →
    w.state.tree.get q = some data → data.stage.metadata ≠ none → Acyclic w₀.state.tree q →
    Written w₀ w q ∧ (data₀.stage.metadata = none →
      ∀ q', DependsOn w₀.state.tree q q' → Closed w₀ w q')

/-- A task that has succeeded has seen to everything. -/
theorem Covered.closed (h : Covered w0 w) (hw : Wired w)
    (hresolved : resolved w.jobs (.task .materializing version q) = some true)
    (hrecent : Recent w0 version q) (hacyclic : Acyclic w0.state.tree q) :
    Written w0 w q ∧ ∀ q', DependsOn w0.state.tree q q' → Closed w0 w q' := by
  obtain ⟨j, hj, hid, hresult⟩ := exists_of_resolved hresolved
  have htodo : j.todo = [] := hw.ordered.ended j hj (by rw [hresult]; nofun)
  have hjob := h.job j hj version q hid hrecent hacyclic
  rw [hresult, htodo] at hjob
  rcases hjob with hfalse | hfail | ⟨hwritten, hedges⟩
  · cases hfalse
  · cases hfail
  refine ⟨hwritten.resolve_right not_mem_nil, fun q' hedge => ?_⟩
  rcases hedges q' hedge with hclosed | ⟨version', hawait, -⟩
  · exact hclosed
  · cases hawait

/-- A recent task that writes an artifact does it under the current declaration. -/
theorem Recent.written (hrecent : Recent w0 version q) (hw0 : Wired w0) (ht0 : Tracked w0)
    (hmem : (version, q) ∈ w.written) : Written w0 w q := by
  obtain ⟨data, hdata, hversion⟩ := hrecent
  refine ⟨data, hdata, .inr ⟨version, ?_, hmem⟩⟩
  have hle := (ht0.entry q data hdata).declared
  rcases hversion with hnew | hactive
  · exact (hle.trans_lt (hw0.versioned.data_lt q data hdata)).le.trans hnew
  · rw [Data.version, hactive] at hle
    exact hle

theorem Covered.refl (hw : Wired w) (ht : Tracked w) (hquiet : Quiet w) : Covered w w := by
  refine ⟨?_, ?_⟩
  · intro j hj version q hid hrecent _
    have hbelow := hw.below _ (Awaits.mem_ids hj)
    rw [hid] at hbelow
    obtain ⟨data, hdata, hnew | hactive⟩ := hrecent
    · exact absurd hbelow (Nat.not_lt.mpr hnew)
    obtain ⟨hmetadata, hnone⟩ := hquiet q data version hdata hactive
    have hedges (q' : Path) (hedge : DependsOn w.state.tree q q') : False := by
      obtain ⟨data', path, -, hdata', hmem, -⟩ := hedge
      cases hdata.symm.trans hdata'
      rw [hnone] at hmem
      cases hmem
    rcases (ht.entry q data hdata).writes version hactive hmetadata j hj hid with
      hfalse | hfail | hwritten | hop
    · exact .inl hfalse
    · exact .inr (.inl hfail)
    · refine .inr (.inr ⟨.inl ?_, fun q' hedge => (hedges q' hedge).elim⟩)
      exact Recent.written ⟨data, hdata, .inr hactive⟩ hw ht hwritten
    · exact .inr (.inr ⟨.inr hop, fun q' hedge => (hedges q' hedge).elim⟩)
  · intro q data0 data hdata0 hdata hmetadata _
    cases hdata0.symm.trans hdata
    exact ⟨⟨data0, hdata0, .inl hmetadata⟩, fun hnone => absurd hnone hmetadata⟩

/-! ## Events and messages -/

/-- A wait for a task is over when the task has succeeded, and then all below it has been
written. -/
theorem Covered.event {id : FutureId} {event : Event} (hw0 : Wired w0) (ht0 : Tracked w0)
    (hw : Wired w) (hs : Steady w0 w) (h : Covered w0 w)
    (hevent : eventLive w id event = some w') : Steady w0 w' ∧ Covered w0 w' := by
  obtain ⟨hjobs, hstate, -⟩ := eventLive_spec hevent
  have hmono : ∀ e ∈ w.written, e ∈ w'.written := fun e he => written_subset_eventLive hevent he
  refine ⟨⟨by rw [hstate]; exact hs.tracker, by rw [hstate]; exact hs.entry⟩, ?_, ?_⟩
  · intro k hk version q hkid hrecent hacyclic
    rcases mem_of_step hw.ordered.nodup hjobs hk with ⟨hold, -⟩ | ⟨j, hj, hjid, hresult, hadvance⟩
    · rcases h.job k hold version q hkid hrecent hacyclic with hfalse | hfail | ⟨hwrites, hedges⟩
      · exact .inl hfalse
      · exact .inr (.inl hfail)
      · refine .inr (.inr ⟨hwrites.imp (·.mono hmono) (fun x => x), fun q' hedge => ?_⟩)
        exact (hedges q' hedge).imp (·.mono hmono) (fun x => x)
    rw [hadvance.id_eq] at hkid
    rcases h.job j hj version q hkid hrecent hacyclic with hfalse | hfail | ⟨hwrites, hedges⟩
    · rw [hresult] at hfalse
      cases hfalse
    · exact (hadvance.fail_mem hfail).imp_right .inl
    · by_cases hfalse : k.result = some false
      · exact .inl hfalse
      refine .inr (.inr ⟨?_, fun q' hedge => ?_⟩)
      · rcases hwrites with hwritten | hop
        · exact .inl (hwritten.mono hmono)
        rcases hadvance.mem_todo hop with hfail | hop | ⟨_, _, _, heq, -⟩ | ⟨_, heq, htodo, hfinish⟩
        · exact absurd hfail hfalse
        · exact .inr hop
        · cases heq
        · cases heq
          cases hfinish
          have hid : id = .task .materializing version q := hjid.symm.trans hkid
          rw [hid] at hevent
          exact .inl (hrecent.written hw0 ht0 (written_eventLive hw hj hkid htodo hevent))
      · rcases hedges q' hedge with hclosed | ⟨version', hawait, hrecent'⟩
        · exact .inl (hclosed.mono hmono)
        rcases hadvance.mem_todo hawait with hfail | hawait | ⟨task, must, ok, heq, hended, hok⟩ |
          ⟨_, heq, -⟩
        · exact absurd hfail hfalse
        · exact .inr ⟨version', hawait, hrecent'⟩
        · cases heq
          cases hok rfl
          obtain ⟨hwritten, hbelow⟩ :=
            h.closed hw hended hrecent' (hacyclic.of_dependsOn hedge)
          exact .inl ((Closed.of_edges hwritten hbelow).mono hmono)
        · cases heq
  · intro q data0 data hdata0 hdata hmetadata hacyclic
    rw [hstate] at hdata
    obtain ⟨hwritten, hbelow⟩ := h.materialized q data0 data hdata0 hdata hmetadata hacyclic
    exact ⟨hwritten.mono hmono, fun hnone q' hedge => (hbelow hnone q' hedge).mono hmono⟩

/-- A change of one entry, which makes the artifact materialized only when it has been seen to. -/
theorem Covered.modify {state : State} {jobs : List (Job FutureId Op)}
    (h : Covered w0 w) (hq : w.state.tree.get q = some data)
    (htree : state.tree = w.state.tree.update f q)
    (hjobs : ∀ j ∈ jobs, j ∈ w.jobs ∨ ∀ version q, j.id ≠ .task .materializing version q)
    (hf : (f data).stage.metadata ≠ none → data.stage.metadata ≠ none ∨
      (Acyclic w0.state.tree q → Written w0 w q ∧
        ∀ q', DependsOn w0.state.tree q q' → Closed w0 w q')) :
    Covered w0 { w with state, jobs } := by
  refine ⟨fun j hj version q hid => ?_, fun q' data0 data' hdata0 hdata' hmetadata hacyclic => ?_⟩
  · rcases hjobs j hj with hold | hnew
    · exact h.job j hold version q hid
    · exact absurd hid (hnew version q)
  · rcases get_of_get_update hq (htree ▸ hdata') with ⟨rfl, rfl⟩ | hdata
    · rcases hf hmetadata with hold | hclosed
      · exact h.materialized q' data0 data hdata0 hq hold hacyclic
      · obtain ⟨hwritten, hbelow⟩ := hclosed hacyclic
        exact ⟨hwritten, fun _ => hbelow⟩
    · exact h.materialized q' data0 data' hdata0 hdata hmetadata hacyclic

/-- A message makes an artifact materialized when its task has seen to everything. -/
theorem Covered.finish {index : Nat} {task : Task} {timestamp : Nat} {ok : Bool} (hw : Wired w)
    (ht : Tracked w) (hs : Steady w0 w) (h : Covered w0 w)
    (htask : w.state.running[index]? = some task) (hresolved : resolved w.jobs task.id = some ok) :
    Steady w0 (finishLive (w.take index) task timestamp ok) ∧
      Covered w0 (finishLive (w.take index) task timestamp ok) := by
  have hmem : task ∈ w.state.tasks := hw.versioned.running task (mem_of_getElem? htask)
  have hmessage := messages (hw.take index).versioned hmem timestamp ok
  generalize finishLive (w.take index) task timestamp ok = w' at hmessage ⊢
  cases hmessage with
  | ignored => exact ⟨⟨hs.tracker, hs.entry⟩, h.job, h.materialized⟩
  | settled htracker _ hq hcurrent hdeps _ hprocessing hstage =>
    constructor
    · refine hs.modify hq (fun data0 hsame => ⟨hdeps.trans hsame.deps, ?_, ?_, ?_⟩) htracker rfl
      · intro hnone
        rcases hstage with hstage | ⟨-, -, -, hsome⟩
        · rw [hstage] at hnone ⊢
          exact hsame.declared hnone
        · exact absurd hnone hsome
      · intro hsome
        rcases hstage with hstage | ⟨-, -, -, hsome'⟩
        · rw [hstage]
          exact hsame.materialized hsome
        · exact hsome'
      · intro version hactive
        rw [hprocessing] at hactive
        cases hactive
    · refine h.modify hq rfl (fun j hj => .inl hj) fun hmetadata => ?_
      rcases hstage with hstage | ⟨rfl, hkind, -, -⟩
      · rw [hstage] at hmetadata
        exact .inl hmetadata
      -- the task of a message that is heeded is the one the entry waits for
      have hfuture : task.kind.future = .materializing := by
        cases hk : task.kind with
        | clean => exact absurd hk hkind
        | materialize entry => rfl
      have hactive := (ht.entry _ _ hq).awaited task (mem_of_getElem? htask) rfl hcurrent.version
      obtain ⟨_, _, hsame⟩ := hs.of_get hq
      rw [Task.id, hfuture] at hresolved
      rw [hfuture] at hactive
      exact .inr (h.closed hw hresolved (hsame.recent task.version hactive))
  | again hq =>
    constructor
    · refine hs.modify hq (fun data0 hsame => ⟨hsame.deps, hsame.declared, hsame.materialized, ?_⟩)
        (Nat.le_succ _) rfl
      intro version hactive
      cases hactive
    · refine h.modify hq rfl (fun j hj => (mem_append.mp hj).imp id fun hnew => ?_) .inl
      cases mem_singleton.mp hnew
      nofun

/-! ## Requests -/

/-- What is known of a path that has been requested. -/
def Seen (w₀ w : Live) (futures : List Materializing) (q : Path) : Prop :=
  .failed ∈ futures ∨ Closed w₀ w q ∨
    ∃ version, .future (.task .materializing version q) ∈ futures ∧ Recent w₀ version q

theorem Seen.mono {futures' : List Materializing} (h : Seen w0 w futures q)
    (hfutures : ∀ f ∈ futures, f ∈ futures') (hwritten : ∀ e ∈ w.written, e ∈ w'.written) :
    Seen w0 w' futures' q := by
  rcases h with hfailed | hclosed | ⟨version, hmem, hrecent⟩
  · exact .inl (hfutures _ hfailed)
  · exact .inr (.inl (hclosed.mono hwritten))
  · exact .inr (.inr ⟨version, hfutures _ hmem, hrecent⟩)

/-- An artifact that is materialized and has no dependencies is all that it leads to, or has been
written with them. -/
theorem Covered.present (h : Covered w0 w) (hdata0 : w0.state.tree.get q = some data0)
    (hq : w.state.tree.get q = some data) (hsame : SameEntry w0 q data0 data)
    (hmetadata : data.stage.metadata ≠ none) (hdeps : data.deps = none)
    (hacyclic : Acyclic w0.state.tree q) : Closed w0 w q := by
  obtain ⟨hwritten, hbelow⟩ := h.materialized q data0 data hdata0 hq hmetadata hacyclic
  refine .of_edges hwritten fun q' hedge => ?_
  cases hstage : data0.stage.metadata with
  | none => exact hbelow hstage q' hedge
  | some metadata =>
    obtain ⟨data', path, -, hdata', hmem, -⟩ := hedge
    cases hdata0.symm.trans hdata'
    rw [dependencies, ← hsame.deps, hdeps] at hmem
    cases hdata0stage : data0.stage with
    | declared entry method =>
      rw [hdata0stage] at hstage
      cases hstage
    | materialized metadata time active =>
      rw [hdata0stage] at hmem
      cases hmem

theorem Answers.covers {future : Option Materializing} (h : Answers stack path w future w')
    (hs : Steady w0 w) (hc : Covered w0 w)
    (hstack : ∀ p ∈ stack, ∀ q data, w0.state.tree.prefixGet path = some (q, data) →
      Relation.TransGen (DependsOn w0.state.tree) p q) :
    Steady w0 w' ∧ Covered w0 w' ∧ w'.written = w.written ∧
      ∀ q data, w0.state.tree.prefixGet path = some (q, data) → Acyclic w0.state.tree q →
        Seen w0 w' future.toList q := by
  cases h with
  | failed => exact ⟨hs, hc, rfl, fun _ _ _ _ => .inl mem_cons_self⟩
  | unknown hfound =>
    refine ⟨hs, hc, rfl, fun q data hfound0 _ => ?_⟩
    obtain ⟨data', hfound', -⟩ := hs.prefixGet hfound0
    rw [hfound] at hfound'
    cases hfound'
  | covered hfound hmem =>
    refine ⟨hs, hc, rfl, fun q data hfound0 hacyclic => ?_⟩
    obtain ⟨data', hfound', -⟩ := hs.prefixGet hfound0
    cases hfound.symm.trans hfound'
    -- the artifact is on the stack, so it depends on itself
    exact absurd (hstack _ hmem _ _ hfound0) (hacyclic _ .refl)
  | joined hfound _ hactive =>
    refine ⟨hs, hc, rfl, fun q data hfound0 _ => ?_⟩
    obtain ⟨data', hfound', hsame⟩ := hs.prefixGet hfound0
    cases hfound.symm.trans hfound'
    exact .inr (.inr ⟨_, mem_cons_self, hsame.recent _ hactive⟩)
  | present hfound hstage hdeps =>
    refine ⟨hs, hc, rfl, fun q data hfound0 hacyclic => .inr (.inl ?_)⟩
    obtain ⟨data', hfound', hsame⟩ := hs.prefixGet hfound0
    cases hfound.symm.trans hfound'
    exact hc.present (prefixGet_eq_some.mp hfound0).2 (prefixGet_eq_some.mp hfound).2
      hsame (by rw [hstage]; nofun) hdeps hacyclic
  | @touched q data metadata time active hfound hnot hstage hdeps now =>
    obtain ⟨-, hq⟩ := prefixGet_eq_some.mp hfound
    have hmetadata : data.stage.metadata ≠ none := by
      rw [hstage]
      nofun
    refine ⟨?_, hc.modify hq rfl (fun j hj => .inl hj) fun _ => .inl hmetadata, rfl,
      fun q' data' hfound0 hacyclic => .inr (.inl ?_)⟩
    · refine hs.modify hq (fun data0 hsame => ⟨hsame.deps, ?_, ?_, hsame.recent⟩) le_rfl rfl
      · exact fun hnone => by cases hnone
      · exact fun _ => nofun
    · obtain ⟨data'', hfound', hsame⟩ := hs.prefixGet hfound0
      cases hfound.symm.trans hfound'
      exact hc.present (prefixGet_eq_some.mp hfound0).2 hq hsame hmetadata hdeps hacyclic

/-- The paths that a task goes on to are dependencies of its artifact, and the others have been seen
to already. -/
theorem Steady.edges (hs1 : Steady w0 w1) (hdata0 : w0.state.tree.get q = some data0)
    (hsame : SameEntry w0 q data0 data) (hstarts : Starts data entry copied) :
    (∀ p, p ∈ copied ∨ p ∈ (data.deps.map (findArtifacts w1.state.tree)).getD [] →
      ∀ q' data', w0.state.tree.prefixGet p = some (q', data') → DependsOn w0.state.tree q q') ∧
    ∀ q', DependsOn w0.state.tree q q' →
      (∃ p data', (p ∈ copied ∨ p ∈ (data.deps.map (findArtifacts w1.state.tree)).getD []) ∧
        w0.state.tree.prefixGet p = some (q', data')) ∨
      data.stage.metadata ≠ none ∧ data0.stage.metadata = none := by
  have hlinks (p : Path) : p ∈ (data.deps.map (findArtifacts w1.state.tree)).getD [] ↔
      p ∈ (data0.deps.map (findArtifacts w0.state.tree)).getD [] := by
    rw [hsame.deps]
    cases data0.deps with
    | none => rfl
    | some deps =>
      exact (mem_findArtifacts.trans (by rw [hs1.isSome_get])).trans mem_findArtifacts.symm
  have hedge {p q' : Path} {data' : Data} (hmem : p ∈ dependencies w0.state.tree data0)
      (hfound : w0.state.tree.prefixGet p = some (q', data')) : DependsOn w0.state.tree q q' :=
    ⟨data0, p, data', hdata0, hmem, hfound⟩
  cases hstarts with
  | @declared entry method hstage =>
    have hdependencies : dependencies w0.state.tree data0 =
        method.copySources ++ (data0.deps.map (findArtifacts w0.state.tree)).getD [] := by
      rw [dependencies, ← hsame.declared (by rw [hstage]; rfl), hstage]
    constructor
    · intro p hp q' data' hfound
      refine hedge ?_ hfound
      rw [hdependencies, mem_append, ← hlinks]
      exact hp
    · rintro q' ⟨data', p, data'', hdata', hmem, hfound⟩
      cases hdata0.symm.trans hdata'
      rw [hdependencies, mem_append, ← hlinks] at hmem
      exact .inl ⟨p, data'', hmem, hfound⟩
  | materialized hstage =>
    constructor
    · intro p hp q' data' hfound
      rcases hp with hp | hp
      · cases hp
      · exact hedge (mem_append_right _ ((hlinks p).mp hp)) hfound
    · rintro q' ⟨data', p, data'', hdata', hmem, hfound⟩
      cases hdata0.symm.trans hdata'
      rcases mem_append.mp hmem with hcopy | hlink
      · right
        refine ⟨by rw [hstage]; nofun, ?_⟩
        cases hdata0stage : data0.stage with
        | declared entry method => rfl
        | materialized metadata time active =>
          rw [hdata0stage] at hcopy
          cases hcopy
      · exact .inl ⟨p, data'', .inr ((hlinks p).mpr hlink), hfound⟩

/-- The new task waits for everything that its artifact depends on. -/
theorem Covered.start {w2 : Live} {copies links : List Materializing} (hs : Steady w0 w)
    (hs1 : Steady w0 w1) (hs2 : Steady w0 w2) (hc2 : Covered w0 w2)
    (hlaunch : Launching stack w w2 q data) (hdata0 : w0.state.tree.get q = some data0)
    (hsame : SameEntry w0 q data0 data) (hstarts : Starts data entry copied)
    (hseen : Acyclic w0.state.tree q → ∀ p q' data', p ∈ copied ∨ p ∈ (data.deps.map
      (findArtifacts w1.state.tree)).getD [] → w0.state.tree.prefixGet p = some (q', data') →
        Seen w0 w2 (copies ++ links) q') :
    Steady w0 (w2.startTask cfg q w.state.versionTracker data entry copies links) ∧
      Covered w0 (w2.startTask cfg q w.state.versionTracker data entry copies links) := by
  have hrecent : Recent w0 w.state.versionTracker q := ⟨data0, hdata0, .inl hs.tracker⟩
  have haction {future : Materializing} (hmem : future ∈ copies ++ links) :
      future.action ∈ performMaterialization cfg.windows
        (if data.processing.intoFuture = some .cleaning then
          some (FutureId.task .cleaning data.version q) else none) copies links
        (entry.map fun _ => .write q) :=
    action_mem_performMaterialization (mem_append.mp hmem)
  refine ⟨?_, ?_, ?_⟩
  · refine hs2.modify hlaunch.get₂ (fun data0 hsame => ⟨hsame.deps, hsame.declared,
      hsame.materialized, ?_⟩) le_rfl rfl
    intro version hactive
    cases hactive
    exact hrecent
  · intro j hj version q' hid hrecent' hacyclic
    rcases mem_append.mp hj with hold | hnew
    · exact hc2.job j hold version q' hid hrecent' hacyclic
    cases mem_singleton.mp hnew
    cases hid
    by_cases hfailed : Materializing.failed ∈ copies ++ links
    · exact .inr (.inl (haction hfailed))
    refine .inr (.inr ⟨?_, fun q' hedge => ?_⟩)
    · cases hstarts with
      | declared => exact .inr perform_mem_performMaterialization
      | materialized hstage =>
        left
        exact (hc2.materialized q data0 data hdata0 hlaunch.get₂ (by rw [hstage]; nofun) hacyclic).1
    · rcases (hs1.edges hdata0 hsame hstarts).2 q' hedge with ⟨p, data', hp, hfound⟩ |
        ⟨hmaterialized, hnone⟩
      · rcases hseen hacyclic p q' data' hp hfound with hfail | hclosed | ⟨version, hmem, hrecent⟩
        · exact absurd hfail hfailed
        · exact .inl hclosed
        · exact .inr ⟨version, haction hmem, hrecent⟩
      · exact .inl ((hc2.materialized q data0 data hdata0 hlaunch.get₂ hmaterialized
          hacyclic).2 hnone q' hedge)
  · intro q' data0' data' hdata0' hdata' hmetadata hacyclic
    rcases get_of_get_update hlaunch.get₂ hdata' with ⟨rfl, rfl⟩ | hdata''
    · exact hc2.materialized q' data0' data hdata0' hlaunch.get₂ hmetadata hacyclic
    · exact hc2.materialized q' data0' data' hdata0' hdata'' hmetadata hacyclic

/-- **Requests keep the invariant**, and what they return stands for all that was requested. -/
theorem Ensures.covers {paths : List Path} (h : Ensures cfg stack paths w futures w') (hw : Wired w)
    (hs : Steady w0 w) (hc : Covered w0 w)
    (hstack : ∀ path ∈ paths, ∀ p ∈ stack, ∀ q data, w0.state.tree.prefixGet path = some (q,
      data) → Relation.TransGen (DependsOn w0.state.tree) p q) :
    Steady w0 w' ∧ Covered w0 w' ∧ ∀ path ∈ paths, ∀ q data,
      w0.state.tree.prefixGet path = some (q, data) → Acyclic w0.state.tree q →
      Seen w0 w' futures q := by
  induction h with
  | nil => exact ⟨hs, hc, nofun⟩
  | answered hanswer hrest ih =>
    obtain ⟨hs1, hc1, -, hseen1⟩ := hanswer.covers hs hc (hstack _ mem_cons_self)
    have hw1 := (hanswer.wired hw).1
    obtain ⟨hs2, hc2, hseen2⟩ := ih hw1 hs1 hc1
      fun path hpath => hstack path (mem_cons_of_mem _ hpath)
    have hwritten := (hrest.wired hw1).2.1.written
    refine ⟨hs2, hc2, fun path hpath q data hfound hacyclic => ?_⟩
    rcases mem_cons.mp hpath with rfl | hpath
    · exact (hseen1 q data hfound hacyclic).mono (fun f hf => mem_append_left _ hf)
        fun e he => hwritten ▸ he
    · exact (hseen2 path hpath q data hfound hacyclic).mono
        (fun f hf => mem_append_right _ hf) fun e he => he
  | @started stack path q data paths copied entry w w1 w2 w3 copies links futures hfound hapart
      hprocessing hstarts hcopies hlinks hrest ihcopies ihlinks ihrest =>
    obtain ⟨hlaunch, hw1, hgrows, hstarted⟩ := hcopies.launching hw hfound hapart hstarts hlinks
    obtain ⟨hle, hq⟩ := prefixGet_eq_some.mp hfound
    obtain ⟨data0, hdata0, hsame⟩ := hs.of_get hq
    have hfound0 := prefixGet_eq_some.mpr ⟨hle, hdata0⟩
    -- what is requested below is a dependency of all that is on the stack
    have hbelow {w1 : Live} (hs1 : Steady w0 w1) (p : Path)
        (hp : p ∈ copied ∨ p ∈ (data.deps.map (findArtifacts w1.state.tree)).getD []) :
        ∀ p' ∈ q :: stack, ∀ q' data', w0.state.tree.prefixGet p = some (q', data') →
          Relation.TransGen (DependsOn w0.state.tree) p' q' := by
      intro p' hp' q' data' hfound'
      have hedge := (hs1.edges hdata0 hsame hstarts).1 p hp q' data' hfound'
      rcases mem_cons.mp hp' with rfl | hp'
      · exact .single hedge
      · exact (hstack path mem_cons_self p' hp' q data0 hfound0).tail hedge
    have hs_bump : Steady w0 { w with state := w.state.bumpVersion } :=
      ⟨hs.tracker.trans (Nat.le_succ _), hs.entry⟩
    obtain ⟨hs1, hc1, hseen1⟩ := ihcopies hw.bumpVersion hs_bump ⟨hc.job, hc.materialized⟩
      fun p hp => hbelow hs p (.inl hp)
    obtain ⟨hs2, hc2, hseen2⟩ := ihlinks hw1 hs1 hc1 fun p hp => hbelow hs1 p (.inr hp)
    have hseen (hacyclic : Acyclic w0.state.tree q) (p q' : Path) (data' : Data)
        (hp : p ∈ copied ∨ p ∈ (data.deps.map (findArtifacts w1.state.tree)).getD [])
        (hfound' : w0.state.tree.prefixGet p = some (q', data')) :
        Seen w0 w2 (copies ++ links) q' := by
      have hacyclic' := hacyclic.of_dependsOn
        ((hs1.edges hdata0 hsame hstarts).1 p hp q' data' hfound')
      rcases hp with hp | hp
      · exact (hseen1 p hp q' data' hfound' hacyclic').mono
          (fun f hf => mem_append_left _ hf) fun e he => hgrows.written ▸ he
      · exact (hseen2 p hp q' data' hfound' hacyclic').mono
          (fun f hf => mem_append_right _ hf) fun e he => he
    have hstart := @Covered.start cfg _ _ _ _ _ _ _ _ _ _ _ _ hs hs1 hs2 hc2 hlaunch hdata0 hsame
      hstarts hseen
    obtain ⟨hs', hc'⟩ := hstart
    obtain ⟨hs3, hc3, hseen3⟩ := ihrest hstarted hs' hc' fun p hp => hstack p (mem_cons_of_mem _ hp)
    refine ⟨hs3, hc3, fun p hp q' data' hfound' hacyclic => ?_⟩
    rcases mem_cons.mp hp with rfl | hp
    · cases hfound0.symm.trans hfound'
      exact .inr (.inr ⟨_, mem_cons_self, data0, hdata0, .inl hs.tracker⟩)
    · exact (hseen3 p hp q' data' hfound' hacyclic).mono
        (fun f hf => mem_cons_of_mem _ hf) fun e he => he

/-! ## Runs -/

theorem Covered.step {l : LiveLabel} (hw0 : Wired w0) (ht0 : Tracked w0) (hw : Wired w)
    (ht : Tracked w) (hs : Steady w0 w) (hc : Covered w0 w) (hl : l.isRequest)
    (hstep : liveStep cfg w l = some w') : Steady w0 w' ∧ Covered w0 w' := by
  cases l with
  | event id event => exact Covered.event hw0 ht0 hw hs hc hstep
  | command env command =>
    cases command with
    | ensure paths =>
      cases hstep
      obtain ⟨hs', hc', -⟩ := (ensures_ensureLive w paths).covers hw hs hc nofun
      exact ⟨hs', hc'⟩
    | finished index timestamp ok =>
      obtain ⟨task, htask, hresolved, rfl⟩ := liveStep_finished hstep
      exact Covered.finish hw ht hs hc htask hresolved
    | declare | declareExisting | matchArtifacts | hasArtifact | invalidateFilePaths => cases hl

/-- What holds all along a window. -/
structure InWindow (w₀ w : Live) : Prop where
  wired : Wired w
  tracked : Tracked w
  steady : Steady w₀ w
  covered : Covered w₀ w

theorem InWindow.run (hw0 : Wired w0) (ht0 : Tracked w0) (h : InWindow w0 w)
    (hreach : Reach (liveStep cfg) (fun _ l => l.isRequest) w w') :
    InWindow w0 w' ∧ ∀ e ∈ w.written, e ∈ w'.written := by
  refine hreach.invariant (I := fun w' => InWindow w0 w' ∧ ∀ e ∈ w.written, e ∈ w'.written) ?_
    ⟨h, fun _ he => he⟩
  rintro w l w' ⟨hw, hmono⟩ hl hstep
  obtain ⟨hs, hc⟩ := Covered.step hw0 ht0 hw.wired hw.tracked hw.steady hw.covered hl hstep
  exact ⟨⟨hw.wired.step hstep, hw.tracked.step hw.wired hstep, hs, hc⟩,
    fun e he => hw.wired.written_subset hstep e (hmono e he)⟩

end Window

/-- The future that was handed out has resolved to `Ok`. -/
def ResolvesOk (w : Live) : Option Materializing → Prop
  | none => True
  | some (.future id) => resolved w.jobs id = some true
  | some .failed => False

/-- **An `Ensure` materializes what the artifact depends on, if that is acyclic.** The jobs do not
wait for each other in a cycle, one can always go on, and their events are bounded.  If the
materializations under way are writes without dependencies and a request for `p` resolves to `Ok`,
the artifact that contains `p` and all it leads to was written, or materialized at the start, if
none of them depends on itself. -/
theorem ensure_materializes_closure {cfg : Config} {sqliteState : List MaterializerStateEntry}
    {declaredCasState : List MaterializerDeclaredCasStateEntry} {w₀ : Live}
    (h : Reach (liveStep cfg) (fun _ _ => True) (liveRestored sqliteState declaredCasState) w₀) :
    (∀ u, ¬ Relation.TransGen (Waits w₀.jobs) u u) ∧
    (∀ j ∈ w₀.jobs, j.result = none → ∃ id event, (id = j.id ∨ Earlier (ids w₀.jobs) id j.id) ∧
      (liveStep cfg w₀ (.event id event)).isSome) ∧
    (∀ ls w', run (liveStep cfg) (fun _ _ => True) w₀ ls = some w' →
      (ls.map (LiveLabel.eventsIn (ids w₀.jobs))).sum ≤ weight (ids w₀.jobs) w₀.jobs) ∧
    (Quiet w₀ → ∀ w₁ env p q data w₂,
      Reach (liveStep cfg) (fun _ l => l.isRequest) w₀ w₁ →
      w₀.state.tree.prefixGet p = some (q, data) → Acyclic w₀.state.tree q →
      Reach (liveStep cfg) (fun _ l => l.isRequest)
        (materializeLive cfg env env.stackRoom [] p w₁).2 w₂ →
      ResolvesOk w₂ (materializeLive cfg env env.stackRoom [] p w₁).1 →
      ∀ q', Leads w₀.state.tree q q' → Written w₀ w₂ q') := by
  obtain ⟨hw₀, ht₀⟩ := live_invariant h
  refine ⟨hw₀.ordered.acyclic, (futures_resolve hw₀).1, (futures_resolve hw₀).2, ?_⟩
  intro hquiet w₁ env p q data w₂ hbefore hfound hacyclic hafter hok
  have hstart : InWindow w₀ w₀ := ⟨hw₀, ht₀, .refl, .refl hw₀ ht₀ hquiet⟩
  have hwindow := (hstart.run hw₀ ht₀ hbefore).1
  have hrequest : Ensures cfg [] [p] w₁ (materializeLive cfg env env.stackRoom [] p w₁).1.toList
      (materializeLive cfg env env.stackRoom [] p w₁).2 := ensures_materializeLive _ _ _
  obtain ⟨hs, hc, hseen⟩ := hrequest.covers hwindow.wired hwindow.steady hwindow.covered nofun
  have hrequested : InWindow w₀ (materializeLive cfg env env.stackRoom [] p w₁).2 :=
    ⟨(hrequest.wired hwindow.wired).1, hrequest.tracked hwindow.wired hwindow.tracked, hs, hc⟩
  obtain ⟨hend, hmono⟩ := hrequested.run hw₀ ht₀ hafter
  show Closed w₀ w₂ q
  rcases hseen p mem_cons_self q data hfound hacyclic with hfailed | hclosed | ⟨version, hmem,
    hrecent⟩
  · rw [mem_toList.mp hfailed] at hok
    exact hok.elim
  · exact hclosed.mono hmono
  · rw [mem_toList.mp hmem] at hok
    obtain ⟨hwritten, hbelow⟩ := hend.covered.closed hend.wired hok hrecent hacyclic
    exact .of_edges hwritten hbelow

/-! ## Two examples -/

/-- A directory with a symlink to `b`, and `b`, which is written when it is declared. -/
def linkedDeclared : Live :=
  (run (liveStep liveConfig) (fun _ _ => True) (liveRestored [] [])
    [.command liveEnv (.declare ["a"] ⟨.dir "a", some [("b", .leaf)]⟩ .casDownload),
      .command liveEnv (.declare ["b"] ⟨.leaf (.file "b" false), none⟩ .write)]).get (by decide)

theorem linkedDeclared_get {q : Path} {data : Data}
    (h : linkedDeclared.state.tree.get q = some data) :
    (q, data) = (["b"], ⟨none, .declared (.leaf (.file "b" false)) .write,
        .active .materializing 2, 2⟩) ∨
      (q, data) = (["a"], ⟨some [("b", .leaf)], .declared (.dir "a") .casDownload,
        .active .cleaning 1, 1⟩) :=
  mem_pair.mp (mem_iterWithPaths h)

theorem linkedDeclared_dependsOn {q q' : Path} (h : DependsOn linkedDeclared.state.tree q q') :
    q = ["a"] ∧ q' = ["b"] := by
  obtain ⟨data, path, data', hdata, hmem, hfound⟩ := h
  rcases linkedDeclared_get hdata with h | h <;> cases h
  · cases hmem
  · have hpath : path ∈ [["b"]] := hmem
    cases mem_singleton.mp hpath
    cases hfound
    exact ⟨rfl, rfl⟩

/-- The request for `a` joins the write of `b`; all tasks succeed. -/
def linkedDone : Live :=
  (run (liveStep liveConfig) (fun _ l => l.isRequest)
    (materializeLive liveConfig liveEnv liveEnv.stackRoom [] ["a"] linkedDeclared).2
    [.event (.task .materializing 2 ["b"]) .start,
      .event (.task .materializing 2 ["b"]) (.finish true),
      .event (.task .materializing 2 ["b"]) .proceed,
      .event (.task .cleaning 1 ["a"]) .start,
      .event (.task .cleaning 1 ["a"]) (.finish true),
      .event (.task .cleaning 1 ["a"]) .proceed,
      .event (.task .materializing 3 ["a"]) .proceed,
      .event (.task .materializing 3 ["a"]) .start,
      .event (.task .materializing 3 ["a"]) (.finish true),
      .event (.task .materializing 3 ["a"]) .proceed,
      .event (.task .materializing 3 ["a"]) .proceed]).get (by decide)

theorem ensure_materializes_closure_linked :
    (materializeLive liveConfig liveEnv liveEnv.stackRoom [] ["a"] linkedDeclared).1 =
        some (.future (.task .materializing 3 ["a"])) ∧
      resolved linkedDone.jobs (.task .materializing 3 ["a"]) = some true ∧
      Written linkedDeclared linkedDone ["a"] ∧ Written linkedDeclared linkedDone ["b"] := by
  have hreach : Reach (liveStep liveConfig) (fun _ _ => True) (liveRestored [] []) linkedDeclared :=
    reach_of_run _ (some_get _).symm
  have hquiet : Quiet linkedDeclared := by
    intro q data version hdata hactive
    rcases linkedDeclared_get hdata with h | h <;> cases h
    · exact ⟨rfl, rfl⟩
    · cases hactive
  have hacyclic : Acyclic linkedDeclared.state.tree ["a"] := by
    intro q _ hcycle
    have hfirst : q = ["a"] := by
      obtain ⟨_, hedge, -⟩ := Relation.TransGen.head'_iff.mp hcycle
      exact (linkedDeclared_dependsOn hedge).1
    have hlast : q = ["b"] := by
      obtain ⟨_, -, hedge⟩ := Relation.TransGen.tail'_iff.mp hcycle
      exact (linkedDeclared_dependsOn hedge).2
    rw [hfirst] at hlast
    exact absurd hlast (by decide)
  have hwritten := (ensure_materializes_closure hreach).2.2.2 hquiet linkedDeclared liveEnv ["a"]
    ["a"] _ linkedDone .refl rfl hacyclic (reach_of_run _ (some_get _).symm) rfl
  refine ⟨rfl, rfl, hwritten ["a"] .refl, hwritten ["b"] (.single ?_)⟩
  exact ⟨_, ["b"], _, rfl, mem_cons_self, rfl⟩

/-- Two directories with symlinks to each other. -/
def cyclicDeclared : Live :=
  (run (liveStep liveConfig) (fun _ _ => True) (liveRestored [] [])
    [.command liveEnv (.declare ["a"] ⟨.dir "a", some [("b", .leaf)]⟩ .casDownload),
      .command liveEnv (.declare ["b"] ⟨.dir "b", some [("a", .leaf)]⟩ .casDownload)]).get
    (by decide)

/-- The state after a request for `a`, in which the task of `b` has skipped `a`. -/
def cyclicRequested : Live :=
  (run (liveStep liveConfig) (fun _ l => l.isRequest) cyclicDeclared
    [.command liveEnv (.ensure [["a"]])]).get (by decide)

/-- The task of `b` succeeds before that of `a` has begun. -/
def cyclicDone : Live :=
  (run (liveStep liveConfig) (fun _ l => l.isRequest)
    (materializeLive liveConfig liveEnv liveEnv.stackRoom [] ["b"] cyclicRequested).2
    [.event (.task .cleaning 2 ["b"]) .start,
      .event (.task .cleaning 2 ["b"]) (.finish true),
      .event (.task .cleaning 2 ["b"]) .proceed,
      .event (.task .materializing 4 ["b"]) .proceed,
      .event (.task .materializing 4 ["b"]) .start,
      .event (.task .materializing 4 ["b"]) (.finish true),
      .event (.task .materializing 4 ["b"]) .proceed]).get (by decide)

/-- **A request for an artifact of a cycle may resolve before the others are written.** The request
for `b` joins the task created for the request for `a`; it resolves to `Ok` while `a`, to which `b`
has a symlink, is not written. -/
theorem joined_task_skips_ancestor :
    Reach (liveStep liveConfig) (fun _ _ => True) (liveRestored [] []) cyclicDeclared ∧
      Reach (liveStep liveConfig) (fun _ l => l.isRequest) cyclicDeclared cyclicRequested ∧
      Reach (liveStep liveConfig) (fun _ l => l.isRequest)
        (materializeLive liveConfig liveEnv liveEnv.stackRoom [] ["b"] cyclicRequested).2
        cyclicDone ∧
      ResolvesOk cyclicDone
        (materializeLive liveConfig liveEnv liveEnv.stackRoom [] ["b"] cyclicRequested).1 ∧
      DependsOn cyclicDeclared.state.tree ["b"] ["a"] ∧
      ¬ Written cyclicDeclared cyclicDone ["a"] := by
  refine ⟨reach_of_run _ (some_get _).symm, reach_of_run _ (some_get _).symm,
    reach_of_run _ (some_get _).symm, rfl, ?_, ?_⟩
  · exact ⟨_, ["a"], _, rfl, mem_cons_self, rfl⟩
  · rintro ⟨data, hdata, hmaterialized | ⟨version, -, hmem⟩⟩
    · cases hdata
      exact hmaterialized rfl
    · have hwritten : cyclicDone.written = [(4, ["b"])] := rfl
      rw [hwritten] at hmem
      simp at hmem

end Bz.Materializer
