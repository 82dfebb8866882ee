import Mathlib.Algebra.Ring.Nat
import Mathlib.Data.List.Nodup

/-!
# Jobs that wait for each other

A job is a list of actions that are done one after the other: wait until another job has ended,
perform an operation, or give up.  An operation is started and finished by separate events, and it
may fail; a wait fails the job only if it must succeed.  Jobs are kept in the order of their
creation, and stay in the list after they have ended.

Principal results: `Ordered.append` and `Ordered.step`; `Ordered.acyclic`; `Ordered.progress`, some
event is possible while a job has not ended; `weight_step`, the number of events is bounded.
-/

namespace Bz.Awaits

open List

/-- What a job does next. -/
inductive Action (I A : Type) where
  /-- Wait for a job; if it fails and `must` is set, so does this one. -/
  | await (task : I) (must : Bool)
  | fail
  | perform (op : A)

/-- A job, with what it still has to do. -/
structure Job (I A : Type) where
  id : I
  todo : List (Action I A)
  /-- The operation at the head of `todo` has been started. -/
  started : Bool
  result : Option Bool

/-- What can happen to a job. -/
inductive Event where
  | proceed
  | start
  | finish (ok : Bool)

variable {I A : Type}

def Job.new (id : I) (todo : List (Action I A)) : Job I A := ⟨id, todo, false, none⟩

/-- The job ends without doing the rest. -/
def Job.fails (j : Job I A) : Job I A :=
  { j with todo := [], started := false, result := some false }

/-- One event of a job, given how other jobs have ended. -/
def Job.next (outcome : I → Option Bool) (j : Job I A) (event : Event) : Option (Job I A) :=
  match j.result with
  | some _ => none
  | none => match event, j.todo with
    | .proceed, [] => some { j with result := some true }
    | .proceed, .fail :: _ => some j.fails
    | .proceed, .await task must :: rest => match outcome task with
      | none => none
      | some ok => if must ∧ ok = false then some j.fails else some { j with todo := rest }
    | .start, .perform _ :: _ => if j.started then none else some { j with started := true }
    | .finish ok, .perform _ :: rest =>
      if j.started then
        if ok then some { j with todo := rest, started := false } else some j.fails
      else none
    | _, _ => none

/-- What an event can do to a job. -/
inductive Advance (outcome : I → Option Bool) (j : Job I A) : Event → Job I A → Prop
  | completed (htodo : j.todo = []) : Advance outcome j .proceed { j with result := some true }
  | gaveUp {rest : List (Action I A)} (htodo : j.todo = .fail :: rest) :
    Advance outcome j .proceed j.fails
  | lost {task : I} {rest : List (Action I A)} (htodo : j.todo = .await task true :: rest)
    (hended : outcome task = some false) : Advance outcome j .proceed j.fails
  | passed {task : I} {must ok : Bool} {rest : List (Action I A)}
    (htodo : j.todo = .await task must :: rest) (hended : outcome task = some ok)
    (hok : must = true → ok = true) : Advance outcome j .proceed { j with todo := rest }
  | started {op : A} {rest : List (Action I A)} (htodo : j.todo = .perform op :: rest)
    (hstarted : j.started = false) : Advance outcome j .start { j with started := true }
  | performed {op : A} {rest : List (Action I A)} (htodo : j.todo = .perform op :: rest)
    (hstarted : j.started = true) :
    Advance outcome j (.finish true) { j with todo := rest, started := false }
  | broken {op : A} {rest : List (Action I A)} (htodo : j.todo = .perform op :: rest)
    (hstarted : j.started = true) : Advance outcome j (.finish false) j.fails

section Job

variable {outcome : I → Option Bool} {j j' : Job I A} {event : Event}

theorem Job.next_spec (h : j.next outcome event = some j') :
    j.result = none ∧ Advance outcome j event j' := by
  unfold Job.next at h
  split at h
  · cases h
  next hresult =>
  refine ⟨hresult, ?_⟩
  split at h
  next htodo =>
    cases h
    exact .completed htodo
  next rest htodo =>
    cases h
    exact .gaveUp htodo
  next task must rest htodo =>
    split at h
    · cases h
    next ok hended =>
    split at h
    next hcond =>
      obtain ⟨rfl, rfl⟩ := hcond
      cases h
      exact .lost htodo hended
    next hcond =>
      cases h
      refine .passed htodo hended fun hmust => ?_
      cases ok with
      | true => rfl
      | false => exact absurd ⟨hmust, rfl⟩ hcond
  next op rest htodo =>
    split at h
    · cases h
    next hstarted =>
    cases h
    exact .started htodo (Bool.eq_false_iff.mpr hstarted)
  next ok op rest htodo =>
    split at h
    next hstarted =>
      split at h
      next hok =>
        subst hok
        cases h
        exact .performed htodo hstarted
      next hok =>
        cases Bool.eq_false_iff.mpr hok
        cases h
        exact .broken htodo hstarted
    · cases h
  · cases h

section Advance

variable (h : Advance outcome j event j')
include h

theorem Advance.id_eq : j'.id = j.id := by
  cases h <;> rfl

/-- What is left to do is a part of what was. -/
theorem Advance.todo_suffix : j'.todo <:+ j.todo := by
  cases h with
  | completed | started => exact suffix_rfl
  | gaveUp | lost | broken => exact nil_suffix
  | passed htodo | performed htodo =>
    rw [htodo]
    exact suffix_cons _ _

/-- What is to do stays so, unless the job fails, or it was a wait that is over or an operation that
has succeeded. -/
theorem Advance.mem_todo {a : Action I A} (ha : a ∈ j.todo) : j'.result = some false ∨ a ∈ j'.todo ∨
      (∃ task must ok, a = .await task must ∧ outcome task = some ok ∧ (must → ok)) ∨
      ∃ op, a = .perform op ∧ j.todo = .perform op :: j'.todo ∧ event = .finish true := by
  cases h with
  | completed | started => exact .inr (.inl ha)
  | gaveUp | lost | broken => exact .inl rfl
  | passed htodo hended hok =>
    rw [htodo] at ha
    rcases mem_cons.mp ha with rfl | hrest
    · exact .inr (.inr (.inl ⟨_, _, _, rfl, hended, hok⟩))
    · exact .inr (.inl hrest)
  | performed htodo =>
    have ha' := ha
    rw [htodo] at ha'
    rcases mem_cons.mp ha' with rfl | hrest
    · exact .inr (.inr (.inr ⟨_, rfl, htodo, rfl⟩))
    · exact .inr (.inl hrest)

theorem Advance.fail_mem (ha : .fail ∈ j.todo) : j'.result = some false ∨ .fail ∈ j'.todo := by
  rcases h.mem_todo ha with hfalse | hfail | ⟨_, _, _, heq, -⟩ | ⟨_, heq, -⟩
  · exact .inl hfalse
  · exact .inr hfail
  · cases heq
  · cases heq

theorem Advance.ended (hended : j'.result ≠ none) (hresult : j.result = none) : j'.todo = [] := by
  cases h with
  | completed htodo => exact htodo
  | gaveUp | lost | broken => rfl
  | passed | started | performed => exact absurd hresult hended

end Advance

/-- The number of events a job can still take part in. -/
def Job.weight (j : Job I A) : Nat :=
  match j.result with
  | some _ => 0
  | none => 2 * j.todo.length + 1 + if j.started then 0 else 1

theorem Advance.weight_lt (h : Advance outcome j event j') (hresult : j.result = none) :
    j'.weight < j.weight := by
  have hj : j.weight = 2 * j.todo.length + 1 + if j.started then 0 else 1 := by
    rw [Job.weight, hresult]
  cases h with
  | completed | gaveUp | lost | broken =>
    rw [hj]
    exact Nat.lt_of_lt_of_le (Nat.succ_pos _) (Nat.le_add_right _ _)
  | passed htodo =>
    rw [hj, htodo, Job.weight]
    simp only [hresult, length_cons]
    omega
  | started htodo hstarted =>
    rw [hj, hstarted, Job.weight]
    simp [hresult]
  | performed htodo hstarted =>
    rw [hj, htodo, hstarted, Job.weight]
    simp only [hresult, length_cons, Bool.false_eq_true, if_false, if_true]
    omega

end Job

/-! ## The order of creation -/

section Earlier

variable [DecidableEq I] {ids new : List I} {u v w : I}

/-- The first of two members of a list stands before the second. -/
def Earlier (ids : List I) (u v : I) : Prop := v ∈ ids ∧ ids.idxOf u < ids.idxOf v

namespace Earlier

theorem mem_left (h : Earlier ids u v) : u ∈ ids :=
  idxOf_lt_length_iff.mp (Nat.lt_of_lt_of_le h.2 idxOf_le_length)

theorem trans (h : Earlier ids u v) (h' : Earlier ids v w) : Earlier ids u w :=
  ⟨h'.1, Nat.lt_trans h.2 h'.2⟩

theorem ne (h : Earlier ids u v) : u ≠ v := by
  rintro rfl
  exact absurd h.2 (Nat.lt_irrefl _)

theorem append (h : Earlier ids u v) (new : List I) : Earlier (ids ++ new) u v := by
  refine ⟨mem_append_left _ h.1, ?_⟩
  rw [idxOf_append_of_mem h.mem_left, idxOf_append_of_mem h.1]
  exact h.2

theorem of_new (hu : u ∈ ids) (hv : v ∈ new) (hnot : v ∉ ids) : Earlier (ids ++ new) u v := by
  refine ⟨mem_append_right _ hv, ?_⟩
  rw [idxOf_append_of_mem hu, idxOf_append_of_notMem hnot]
  exact Nat.lt_add_right _ (idxOf_lt_length_iff.mpr hu)

theorem of_append (h : Earlier (ids ++ new) u v) (hv : v ∈ ids) : Earlier ids u v := by
  refine ⟨hv, ?_⟩
  have hlt := h.2
  rw [idxOf_append_of_mem hv] at hlt
  by_cases hu : u ∈ ids
  · rwa [idxOf_append_of_mem hu] at hlt
  · rw [idxOf_append_of_notMem hu] at hlt
    have := idxOf_lt_length_iff.mpr hv
    omega

end Earlier

end Earlier

/-! ## Systems of jobs -/

section Jobs

variable [DecidableEq I] (jobs : List (Job I A))

def ids : List I := jobs.map (·.id)

def lookup (id : I) : Option (Job I A) := jobs.find? (·.id = id)

/-- How the job has ended, if it has. -/
def resolved (id : I) : Option Bool := (lookup jobs id).bind (·.result)

/-- One event of the job with the given id. -/
def step (label : I × Event) : Option (List (Job I A)) :=
  match lookup jobs label.1 with
  | none => none
  | some j => (j.next (resolved jobs) label.2).map fun j' =>
    jobs.map fun k => if k.id = label.1 then j' else k

/-- The job `u` has still to wait for `v`. -/
def Waits (u v : I) : Prop :=
  ∃ j ∈ jobs, j.id = u ∧ ∃ must, .await v must ∈ j.todo

/-- Every job waits for earlier ones only. -/
structure Ordered (jobs : List (Job I A)) : Prop where
  nodup : (ids jobs).Nodup
  earlier : ∀ j ∈ jobs, ∀ task must, .await task must ∈ j.todo → Earlier (ids jobs) task j.id
  ended : ∀ j ∈ jobs, j.result ≠ none → j.todo = []

variable {jobs jobs' : List (Job I A)} {j k : Job I A} {label : I × Event} {id : I}

omit [DecidableEq I] in
theorem mem_ids (h : j ∈ jobs) : j.id ∈ ids jobs := mem_map_of_mem (f := (·.id)) h

theorem lookup_mem (h : lookup jobs id = some j) : j ∈ jobs ∧ j.id = id :=
  ⟨mem_of_find?_eq_some h, by simpa using find?_some h⟩

theorem exists_lookup (h : id ∈ ids jobs) : ∃ j, lookup jobs id = some j := by
  obtain ⟨j, hj, rfl⟩ := mem_map.mp h
  cases hfound : lookup jobs j.id with
  | some k => exact ⟨k, rfl⟩
  | none => simpa using find?_eq_none.mp hfound j hj

omit [DecidableEq I] in
theorem eq_of_id_eq (hnodup : (ids jobs).Nodup) (hj : j ∈ jobs) (hk : k ∈ jobs)
    (h : j.id = k.id) : j = k :=
  inj_on_of_nodup_map hnodup hj hk h

theorem lookup_of_mem (hnodup : (ids jobs).Nodup) (h : j ∈ jobs) : lookup jobs j.id = some j := by
  obtain ⟨k, hk⟩ := exists_lookup (mem_ids h)
  obtain ⟨hmem, hid⟩ := lookup_mem hk
  rw [hk, eq_of_id_eq hnodup hmem h hid]

theorem resolved_of_mem (hnodup : (ids jobs).Nodup) (h : j ∈ jobs) :
    resolved jobs j.id = j.result := by
  rw [resolved, lookup_of_mem hnodup h]
  rfl

theorem exists_of_resolved {ok : Bool} (h : resolved jobs id = some ok) :
    ∃ j ∈ jobs, j.id = id ∧ j.result = some ok := by
  obtain ⟨j, hj, hresult⟩ := Option.bind_eq_some_iff.mp h
  exact ⟨j, (lookup_mem hj).1, (lookup_mem hj).2, hresult⟩

theorem resolved_append (h : id ∈ ids jobs) (new : List (Job I A)) :
    resolved (jobs ++ new) id = resolved jobs id := by
  obtain ⟨j, hj⟩ := exists_lookup h
  have happend : lookup (jobs ++ new) id = some j := by
    rw [lookup, find?_append, show jobs.find? (·.id = id) = some j from hj]
    rfl
  rw [resolved, resolved, happend, hj]

theorem resolved_new (h : id ∉ ids jobs) (todo : List (Action I A)) :
    resolved (jobs ++ [.new id todo]) id = none := by
  have hnone : jobs.find? (·.id = id) = none := by
    refine find?_eq_none.mpr fun j hj heq => h ?_
    rw [← of_decide_eq_true heq]
    exact mem_ids hj
  rw [resolved, lookup, find?_append, hnone]
  simp [Job.new]

variable (hnodup : (ids jobs).Nodup) (h : step jobs label = some jobs')

include hnodup h in
theorem step_spec : ∃ l1 j j' l2, jobs = l1 ++ j :: l2 ∧ jobs' = l1 ++ j' :: l2 ∧ j.id = label.1 ∧
      j.result = none ∧ Advance (resolved jobs) j label.2 j' := by
  unfold step at h
  split at h
  · cases h
  next j hj =>
  obtain ⟨hmem, hid⟩ := lookup_mem hj
  obtain ⟨j', hj', rfl⟩ := Option.map_eq_some_iff.mp h
  obtain ⟨hresult, hadvance⟩ := Job.next_spec hj'
  obtain ⟨l1, l2, rfl⟩ := append_of_mem hmem
  refine ⟨l1, j, j', l2, rfl, ?_, hid, hresult, hadvance⟩
  rw [ids, map_append, map_cons, nodup_append, nodup_cons] at hnodup
  obtain ⟨-, ⟨hafter, -⟩, hbefore⟩ := hnodup
  have hsame (l : List (Job I A)) (hl : j.id ∉ l.map (·.id)) :
      l.map (fun k => if k.id = label.1 then j' else k) = l := by
    refine (map_congr_left fun k hk => ?_).trans (map_id l)
    refine if_neg fun heq => hl ?_
    rw [hid, ← heq]
    exact mem_map_of_mem (f := (·.id)) hk
  rw [map_append, map_cons, if_pos hid, hsame l1, hsame l2 hafter]
  exact fun hmem => hbefore _ hmem _ mem_cons_self rfl

include hnodup h in
theorem step_ids : ids jobs' = ids jobs := by
  obtain ⟨l1, j, j', l2, rfl, rfl, -, -, hadvance⟩ := step_spec hnodup h
  simp [ids, hadvance.id_eq]

include hnodup h in
/-- A job after an event is one from before, or the one of the event. -/
theorem mem_of_step (hk : k ∈ jobs') : k ∈ jobs ∧ k.id ≠ label.1 ∨
      ∃ j ∈ jobs, j.id = label.1 ∧ j.result = none ∧ Advance (resolved jobs) j label.2 k := by
  have hids := step_ids hnodup h
  obtain ⟨l1, j, j', l2, rfl, rfl, hid, hresult, hadvance⟩ := step_spec hnodup h
  by_cases heq : k = j'
  · subst heq
    exact .inr ⟨j, by simp, hid, hresult, hadvance⟩
  · have hk' : k ∈ l1 ++ j :: l2 := by
      simp only [mem_append, mem_cons] at hk ⊢
      tauto
    refine .inl ⟨hk', fun hkid => heq ?_⟩
    rw [← hids] at hnodup
    refine eq_of_id_eq hnodup hk (by simp) ?_
    rw [hkid, hadvance.id_eq, hid]

include hnodup h in
theorem mem_step (hk : k ∈ jobs) : k ∈ jobs' ∧ k.id ≠ label.1 ∨ k.id = label.1 ∧ k.result = none ∧
        ∃ k' ∈ jobs', Advance (resolved jobs) k label.2 k' := by
  obtain ⟨l1, j, j', l2, rfl, rfl, hid, hresult, hadvance⟩ := step_spec hnodup h
  by_cases heq : k = j
  · subst heq
    exact .inr ⟨hid, hresult, j', by simp, hadvance⟩
  · refine .inl ⟨?_, fun hkid => heq (eq_of_id_eq hnodup hk (by simp) (hkid.trans hid.symm))⟩
    simp only [mem_append, mem_cons] at hk ⊢
    tauto

namespace Ordered

theorem nil : Ordered ([] : List (Job I A)) := ⟨nodup_nil, nofun, nofun⟩

theorem append (h : Ordered jobs) (hid : id ∉ ids jobs) {todo : List (Action I A)}
    (htodo : ∀ task must, .await task must ∈ todo → task ∈ ids jobs) :
    Ordered (jobs ++ [.new id todo]) := by
  have hids : ids (jobs ++ [.new id todo]) = ids jobs ++ [id] := by simp [ids, Job.new]
  refine ⟨?_, ?_, ?_⟩
  · rw [hids, nodup_append]
    refine ⟨h.nodup, nodup_singleton _, ?_⟩
    intro u hu v hv heq
    rw [heq, mem_singleton.mp hv] at hu
    exact hid hu
  · intro j hj task must htask
    rw [hids]
    rcases mem_append.mp hj with hold | hnew
    · exact (h.earlier j hold task must htask).append _
    · cases mem_singleton.mp hnew
      exact .of_new (htodo task must htask) mem_cons_self hid
  · intro j hj hended
    rcases mem_append.mp hj with hold | hnew
    · exact h.ended j hold hended
    · cases mem_singleton.mp hnew
      exact absurd rfl hended

theorem step (h : Ordered jobs) (hstep : step jobs label = some jobs') : Ordered jobs' := by
  have hids := step_ids h.nodup hstep
  refine ⟨?_, ?_, ?_⟩
  · rw [hids]
    exact h.nodup
  · intro k hk task must htask
    rw [hids]
    rcases mem_of_step h.nodup hstep hk with ⟨hold, -⟩ | ⟨j, hj, -, -, hadvance⟩
    · exact h.earlier k hold task must htask
    · rw [hadvance.id_eq]
      exact h.earlier j hj task must (hadvance.todo_suffix.subset htask)
  · intro k hk hended
    rcases mem_of_step h.nodup hstep hk with ⟨hold, -⟩ | ⟨j, -, -, hresult, hadvance⟩
    · exact h.ended k hold hended
    · exact hadvance.ended hended hresult

/-- **No job waits for itself, directly or through others.** -/
theorem acyclic (h : Ordered jobs) (u : I) : ¬ Relation.TransGen (Waits jobs) u u := by
  have hearlier {u v : I} (hwaits : Relation.TransGen (Waits jobs) u v) :
      Earlier (ids jobs) v u := by
    induction hwaits with
    | single hone =>
      obtain ⟨j, hj, rfl, must, hmem⟩ := hone
      exact h.earlier j hj _ must hmem
    | tail _ hone ih =>
      obtain ⟨j, hj, rfl, must, hmem⟩ := hone
      exact (h.earlier j hj _ must hmem).trans ih
  exact fun hwaits => (hearlier hwaits).ne rfl

/-- **As long as a job has not ended, some job that is not later can do something.** -/
theorem progress (h : Ordered jobs) (hj : j ∈ jobs) (hresult : j.result = none) :
    ∃ id event, (id = j.id ∨ Earlier (ids jobs) id j.id) ∧
      (Awaits.step jobs (id, event)).isSome := by
  induction hn : (ids jobs).idxOf j.id using Nat.strongRecOn generalizing j with
  | _ n ih =>
    subst hn
    have hself (event : Event) (hnext : (j.next (resolved jobs) event).isSome) :
        ∃ id event, (id = j.id ∨ Earlier (ids jobs) id j.id) ∧
          (Awaits.step jobs (id, event)).isSome := by
      refine ⟨j.id, event, .inl rfl, ?_⟩
      rw [Awaits.step, lookup_of_mem h.nodup hj]
      simpa using hnext
    cases htodo : j.todo with
    | nil => exact hself .proceed (by simp [Job.next, hresult, htodo])
    | cons action rest =>
      cases action with
      | fail => exact hself .proceed (by simp [Job.next, hresult, htodo])
      | perform op =>
        cases hstarted : j.started with
        | false => exact hself .start (by simp [Job.next, hresult, htodo, hstarted])
        | true => exact hself (.finish true) (by simp [Job.next, hresult, htodo, hstarted])
      | await task must =>
        have hearlier := h.earlier j hj task must (by rw [htodo]; exact mem_cons_self)
        obtain ⟨k, hk⟩ := exists_lookup hearlier.mem_left
        obtain ⟨hmem, rfl⟩ := lookup_mem hk
        cases hended : k.result with
        | none =>
          obtain ⟨id, event, hid, hsome⟩ := ih _ hearlier.2 hmem hended rfl
          refine ⟨id, event, .inr ?_, hsome⟩
          rcases hid with rfl | hid
          · exact hearlier
          · exact hid.trans hearlier
        | some ok =>
          apply hself .proceed
          have hresolved : resolved jobs k.id = some ok := by
            rw [resolved_of_mem h.nodup hmem, hended]
          simp only [Job.next, hresult, htodo, hresolved]
          split <;> rfl

end Ordered

/-! ## The number of events -/

/-- The number of events that some of the jobs can still take part in. -/
def weight (scope : List I) (jobs : List (Job I A)) : Nat :=
  ((jobs.filter (·.id ∈ scope)).map Job.weight).sum

theorem weight_append (scope : List I) (new : List (Job I A)) :
    weight scope (jobs ++ new) = weight scope jobs + weight scope new := by
  simp [weight]

theorem weight_cons (scope : List I) :
    weight scope (j :: jobs) = (if j.id ∈ scope then j.weight else 0) + weight scope jobs := by
  unfold weight
  by_cases hmem : j.id ∈ scope
  · simp [hmem]
  · simp [hmem]

theorem weight_new {scope : List I} {new : List (Job I A)} (h : ∀ j ∈ new, j.id ∉ scope) :
    weight scope (jobs ++ new) = weight scope jobs := by
  have hnone : new.filter (·.id ∈ scope) = [] := filter_eq_nil_iff.mpr (by simpa using h)
  rw [weight_append, weight, weight, hnone]
  rfl

/-- Every event of one of the jobs reduces the number, and no other changes it. -/
theorem weight_step (hnodup : (ids jobs).Nodup) (scope : List I)
    (h : step jobs label = some jobs') :
    (if label.1 ∈ scope then 1 else 0) + weight scope jobs' ≤ weight scope jobs := by
  obtain ⟨l1, j, j', l2, rfl, rfl, hid, hresult, hadvance⟩ := step_spec hnodup h
  have hlt := hadvance.weight_lt hresult
  rw [weight_append, weight_append, weight_cons, weight_cons, hadvance.id_eq, ← hid]
  by_cases hmem : j.id ∈ scope
  · simp only [if_pos hmem]
    omega
  · simp only [if_neg hmem]
    omega

end Jobs

end Bz.Awaits
