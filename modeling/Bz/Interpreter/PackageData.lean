import Mathlib.Data.List.Basic

/-!
# Package data of a build file

In a Bazel-compatible cell `eval_build_file` first resolves the globs that are written out in the
syntax tree, and then evaluates the build file from scratch as often as it asks for package data
that is not there yet.  A build file is modelled by what it does after the answers it has got so
far.  An answer is a list of paths, or none if the request fails.

Principal results: `load_agrees`, when a load ends as one run in which every request is answered;
`unused_glob_fails`.
-/

namespace Bz.Interpreter

open List

/-- The arguments of a glob. -/
structure BazelGlobRequest where
  include_ : List String
  exclude : List String
  includeDirectories : Bool
  deriving DecidableEq, Repr

/-- What a build file asks for. -/
inductive BazelPackageDataRequest where
  | glob (request : BazelGlobRequest)
  | subpackages
  deriving DecidableEq, Repr

/-! ## Requests in the syntax tree -/

mutual

/-- `other` stands for the expressions of which only the parts are visited. -/
inductive Expr where
  | string (value : String)
  | list (items : List Expr)
  | tuple (items : List Expr)
  | identifier (name : String)
  | dot (object : Expr) (field : String)
  | call (callee : Expr) (arguments : List Argument)
  | other (parts : List Expr)

/-- An argument of a call. -/
inductive Argument where
  | positional (value : Expr)
  | named (name : String) (value : Expr)
  | args (value : Expr)
  | kwArgs (value : Expr)

end

def packageDataCalleeName : Expr → Option String
  | .identifier name => some name
  | .dot _ field => some field
  | _ => none

def literalString : Expr → Option String
  | .string value => some value
  | _ => none

def literalStringList : Expr → Option (List String)
  | .list items | .tuple items => items.mapM literalString
  | _ => none

/-- The value of the first argument of that name; `none` if it is not a literal, or may not be
written out. -/
def literalNamedArg (name : String) : List Argument → Option (Option (List String))
  | [] => some none
  | .named argName value :: arguments =>
    if argName = name then (literalStringList value).map some else literalNamedArg name arguments
  | .args _ :: _ | .kwArgs _ :: _ => none
  | .positional _ :: arguments => literalNamedArg name arguments

def literalGlobListArg (arguments : List Argument) (name : String) (allowPositional : Bool) :
    Option (Option (List String)) :=
  let positional := arguments.findSome? fun
    | .positional value => some value
    | _ => none
  match allowPositional, positional with
  | true, some value => (literalStringList value).map some
  | _, _ => literalNamedArg name arguments

def hasNamedArg (arguments : List Argument) (name : String) : Bool :=
  arguments.any fun
    | .named argName _ => argName == name
    | _ => false

def literalGlobRequest (arguments : List Argument) : Option BazelGlobRequest := do
  let include_ ← (← literalGlobListArg arguments "include" true)
  let exclude ← literalGlobListArg arguments "exclude" false
  if hasNamedArg arguments "exclude_directories" then none
  else some ⟨include_, exclude.getD [], false⟩

mutual

/-- The callee of a call is not visited. -/
def visitExpr : Expr → List BazelPackageDataRequest
  | .string _ | .identifier _ => []
  | .list items | .tuple items | .other items => visitExprs items
  | .dot object _ => visitExpr object
  | .call callee arguments =>
    (match packageDataCalleeName callee with
      | some "glob" => (literalGlobRequest arguments).toList.map .glob
      | some "sub_packages" => [.subpackages]
      | _ => []) ++ visitArguments arguments

def visitExprs : List Expr → List BazelPackageDataRequest
  | [] => []
  | item :: items => visitExpr item ++ visitExprs items

def visitArguments : List Argument → List BazelPackageDataRequest
  | [] => []
  | argument :: arguments => visitArgument argument ++ visitArguments arguments

def visitArgument : Argument → List BazelPackageDataRequest
  | .positional value | .named _ value | .args value | .kwArgs value => visitExpr value

end

/-- `bazel_package_data_requests_from_ast`, of the expressions of a file. -/
def bazelPackageDataRequestsFromAst (ast : List Expr) : List BazelPackageDataRequest :=
  visitExprs ast

/-! ## Evaluation -/

/-- What a build file does next. -/
inductive Action (R : Type) where
  | complete (result : R)
  | error
  | ask (request : BazelPackageDataRequest)

abbrev Program (R : Type) := List (List String) → Action R

abbrev Answers := BazelPackageDataRequest → Option (List String)

abbrev PackageData := List (BazelPackageDataRequest × List String)

/-- How an evaluation ends. -/
inductive EvalResult (R : Type) where
  | complete (result : R)
  | error
  | needsBazelPackageData (request : BazelPackageDataRequest)

variable {R : Type}

/-- One evaluation; `resolve_bazel_glob` and `sub_packages` end it at the first request that has
no data. -/
def eval (program : Program R) (data : PackageData) :
    Nat → List (List String) → Option (EvalResult R)
  | 0, _ => none
  | fuel + 1, answers =>
    match program answers with
    | .complete result => some (.complete result)
    | .error => some .error
    | .ask request =>
      match data.lookup request with
      | some answer => eval program data fuel (answers ++ [answer])
      | none => some (.needsBazelPackageData request)

def resolveBazelPackageData (A : Answers) (requests : List BazelPackageDataRequest) :
    Option PackageData :=
  requests.mapM fun request => (A request).map (request, ·)

/-- The loop of `eval_build_file`; no result is an error. -/
def evalLoop (A : Answers) (program : Program R) (evalFuel : Nat) :
    Nat → PackageData → Option (Option R)
  | 0, _ => none
  | fuel + 1, data =>
    match eval program data evalFuel [] with
    | none => none
    | some (.complete result) => some (some result)
    | some .error => some none
    | some (.needsBazelPackageData request) =>
      match resolveBazelPackageData A [request] with
      | some results => evalLoop A program evalFuel fuel (results ++ data)
      | none => some none

/-- `eval_build_file`, with a bound. -/
def evalBuildFile (A : Answers) (ast : List Expr) (program : Program R) (evalFuel fuel : Nat) :
    Option (Option R) :=
  match resolveBazelPackageData A (bazelPackageDataRequestsFromAst ast) with
  | some data => evalLoop A program evalFuel fuel data
  | none => some none

/-! ## One run in which every request is answered -/

def directRun (A : Answers) (program : Program R) : Nat → List (List String) → Option (Option R)
  | 0, _ => none
  | fuel + 1, answers =>
    match program answers with
    | .complete result => some (some result)
    | .error => some none
    | .ask request =>
      match A request with
      | some answer => directRun A program fuel (answers ++ [answer])
      | none => some none

/-- The requests of that run. -/
def asked (A : Answers) (program : Program R) :
    Nat → List (List String) → List BazelPackageDataRequest
  | 0, _ => []
  | fuel + 1, answers =>
    match program answers with
    | .ask request =>
      request :: match A request with
        | some answer => asked A program fuel (answers ++ [answer])
        | none => []
    | _ => []

variable {A : Answers} {program : Program R} {o : Option R} {fuel : Nat}
  {data results : PackageData} {answers : List (List String)} {request : BazelPackageDataRequest}
  {requests : List BazelPackageDataRequest} {evalFuel : Nat}

theorem directRun_mono {more : Nat} (hle : fuel ≤ more)
    (h : directRun A program fuel answers = some o) :
    directRun A program more answers = some o := by
  induction fuel generalizing more answers with
  | zero => cases h
  | succ fuel ih =>
    obtain ⟨more, rfl⟩ : ∃ n, more = n + 1 := ⟨more - 1, by omega⟩
    simp only [directRun] at h ⊢
    split at h
    · exact h
    · exact h
    · split at h
      · exact ih (by omega) h
      · exact h

/-- What is in the data is what the request is answered with. -/
def Sound (A : Answers) (data : PackageData) : Prop :=
  ∀ request answer, data.lookup request = some answer → A request = some answer

theorem Sound.cons {answer : List String} (hdata : Sound A data) (h : A request = some answer) :
    Sound A ((request, answer) :: data) := by
  intro other found hlookup
  rw [lookup_cons] at hlookup
  by_cases heq : other = request
  · rw [heq] at hlookup ⊢
    simpa [h] using hlookup
  · simp only [beq_false_of_ne heq] at hlookup
    exact hdata other found hlookup

theorem resolveBazelPackageData_eq_none :
    resolveBazelPackageData A requests = none ↔ ∃ request ∈ requests, A request = none := by
  induction requests with
  | nil => simp [resolveBazelPackageData]
  | cons request requests ih =>
    unfold resolveBazelPackageData at ih ⊢
    cases h : A request <;>
      cases hrest : requests.mapM fun request => (A request).map (request, ·) <;> simp_all

theorem resolveBazelPackageData_singleton :
    resolveBazelPackageData A [request] = (A request).map fun answer => [(request, answer)] := by
  cases h : A request <;> simp [resolveBazelPackageData, h]

theorem resolveBazelPackageData_sound (h : resolveBazelPackageData A requests = some results) :
    Sound A results := by
  induction requests generalizing results with
  | nil =>
    cases h
    exact nofun
  | cons request requests ih =>
    simp only [resolveBazelPackageData, mapM_cons, Option.bind_eq_bind,
      Option.bind_eq_some_iff, Option.map_eq_some_iff] at h
    obtain ⟨_, ⟨answer, hanswer, rfl⟩, rest, hrest, hr⟩ := h
    cases hr
    exact (ih hrest).cons hanswer

/-! ## A load and the direct run -/

/-- The evaluation is the last one, and the load ends with `o`. -/
def Settles (A : Answers) (o : Option R) : EvalResult R → Prop
  | .complete result => o = some result
  | .error => o = none
  | .needsBazelPackageData request => A request = none ∧ o = none

/-- The evaluation is the last one, or stops at one of the requests, which has no data. -/
def Follows (A : Answers) (data : PackageData)
    (requests : List BazelPackageDataRequest) (o : Option R) (result : EvalResult R) : Prop :=
  Settles A o result ∨ ∃ request ∈ requests, result = .needsBazelPackageData request ∧
    data.lookup request = none ∧ (A request).isSome

theorem directRun_of_eval {result : EvalResult R} (hdata : Sound A data)
    (h : eval program data fuel answers = some result) (hresult : Settles A o result) :
    directRun A program fuel answers = some o := by
  fun_induction eval program data fuel answers with
  | case1 => cases h
  | case2 fuel answers r hp =>
    cases h
    rw [directRun, hp, show o = some r from hresult]
  | case3 fuel answers hp =>
    cases h
    rw [directRun, hp, show o = none from hresult]
  | case4 fuel answers request hp answer hlookup ih =>
    simp only [directRun, hp, hdata _ _ hlookup]
    exact ih h
  | case5 fuel answers request hp hlookup =>
    cases h
    simp only [directRun, hp, hresult.1, hresult.2]

theorem eval_of_directRun (hdata : Sound A data) (h : directRun A program fuel answers = some o) :
    ∃ result, eval program data fuel answers = some result ∧
      Follows A data (asked A program fuel answers) o result := by
  fun_induction directRun A program fuel answers with
  | case1 => cases h
  | case2 fuel answers r hp | case3 fuel answers hp =>
    simp only [eval, hp]
    exact ⟨_, rfl, .inl (Option.some.inj h).symm⟩
  | case4 fuel answers request hp answer hanswer ih =>
    simp only [eval, asked, hp, hanswer]
    cases hlookup : data.lookup request with
    | none =>
      exact ⟨_, rfl, .inr ⟨request, mem_cons_self, rfl, hlookup, by rw [hanswer]; rfl⟩⟩
    | some found =>
      cases hanswer.symm.trans (hdata _ _ hlookup)
      obtain ⟨result, heval, hresult⟩ := ih h
      refine ⟨result, heval, hresult.imp_right ?_⟩
      rintro ⟨later, hmem, hlater⟩
      exact ⟨later, mem_cons_of_mem _ hmem, hlater⟩
  | case5 fuel answers request hp hanswer =>
    cases hlookup : data.lookup request with
    | none =>
      simp only [eval, hp, hlookup]
      exact ⟨_, rfl, .inl ⟨hanswer, (Option.some.inj h).symm⟩⟩
    | some found => cases hanswer.symm.trans (hdata _ _ hlookup)

theorem directRun_of_evalLoop (hdata : Sound A data)
    (h : evalLoop A program evalFuel fuel data = some o) :
    directRun A program evalFuel [] = some o := by
  fun_induction evalLoop A program evalFuel fuel data with
  | case1 | case2 => cases h
  | case3 fuel data r heval | case4 fuel data heval =>
    exact directRun_of_eval hdata heval (Option.some.inj h).symm
  | case5 fuel data request heval results hresults ih =>
    rw [resolveBazelPackageData_singleton, Option.map_eq_some_iff] at hresults
    obtain ⟨answer, hanswer, rfl⟩ := hresults
    exact ih (hdata.cons hanswer) h
  | case6 fuel data request heval hnone =>
    rw [resolveBazelPackageData_singleton, Option.map_eq_none_iff] at hnone
    exact directRun_of_eval hdata heval ⟨hnone, (Option.some.inj h).symm⟩

/-- The requests that an evaluation may still stop at. -/
def missing (data : PackageData)
    (requests : List BazelPackageDataRequest) : List BazelPackageDataRequest :=
  requests.filter fun request => (data.lookup request).isNone

/-- A restart answers one of them. -/
theorem missing_cons_lt (answer : List String)
    (hmem : request ∈ requests) (hnone : data.lookup request = none) :
    (missing ((request, answer) :: data) requests).length < (missing data requests).length := by
  have hfilter : missing ((request, answer) :: data) requests =
      (missing data requests).filter (· != request) := by
    unfold missing
    rw [filter_filter]
    apply filter_congr
    intro other _
    rw [lookup_cons]
    by_cases heq : other = request
    · simp [heq]
    · simp [beq_false_of_ne heq, bne]
  rw [hfilter, length_filter_lt_length_iff_exists]
  exact ⟨request, by simp [missing, hmem, hnone], by simp⟩

theorem evalLoop_of_directRun (hdata : Sound A data) (h : directRun A program evalFuel [] = some o)
    (hfuel : (missing data (asked A program evalFuel [])).length < fuel) :
    evalLoop A program evalFuel fuel data = some o := by
  induction fuel generalizing data with
  | zero => omega
  | succ fuel ih =>
    obtain ⟨result, heval, hresult⟩ := eval_of_directRun hdata h
    simp only [evalLoop, heval]
    rcases hresult with hsettles | ⟨request, hasked, rfl, hlookup, hsome⟩
    · cases result with
      | complete r => rw [show o = some r from hsettles]
      | error => rw [show o = none from hsettles]
      | needsBazelPackageData request =>
        simp only [resolveBazelPackageData_singleton, hsettles.1, hsettles.2, Option.map_none]
    · obtain ⟨answer, hanswer⟩ := Option.isSome_iff_exists.1 hsome
      have hlt := missing_cons_lt answer hasked hlookup
      simp only [resolveBazelPackageData_singleton, hanswer, Option.map_some]
      exact ih (hdata.cons hanswer) (Nat.lt_of_lt_of_le hlt (Nat.le_of_lt_succ hfuel))

/-- **A load ends as the direct run, with at most one restart for each of its requests, exactly
when every request in the syntax tree is answered or the direct run fails as well.** -/
theorem load_agrees (A : Answers) (ast : List Expr) (program : Program R) :
    (∀ o, (∀ n m, evalBuildFile A ast program n m = some o →
          ∃ k, directRun A program k [] = some o) ∧
        ∀ n, directRun A program n [] = some o →
          evalBuildFile A ast program n ((asked A program n []).length + 1) = some o) ↔
      (∀ request ∈ bazelPackageDataRequestsFromAst ast, (A request).isSome) ∨
        ∃ n, directRun A program n [] = some none := by
  cases hprefetch : resolveBazelPackageData A (bazelPackageDataRequestsFromAst ast) with
  | none =>
    simp only [evalBuildFile, hprefetch]
    constructor
    · intro h
      exact .inr ((h none).1 0 0 rfl)
    · rintro (hall | ⟨k, herror⟩)
      · obtain ⟨request, hmem, hnone⟩ := resolveBazelPackageData_eq_none.1 hprefetch
        have hsome := hall request hmem
        rw [hnone] at hsome
        cases hsome
      · intro o
        refine ⟨fun n m ho => ⟨k, herror.trans ho⟩, fun n hrun => ?_⟩
        -- Both runs end, so the longer one ends as each of them.
        have hn := directRun_mono (Nat.le_max_left n k) hrun
        have hk := directRun_mono (Nat.le_max_right n k) herror
        exact hk.symm.trans hn
  | some data =>
    have hdata := resolveBazelPackageData_sound hprefetch
    simp only [evalBuildFile, hprefetch]
    constructor
    · intro _
      refine .inl fun request hmem => ?_
      by_contra hnone
      rw [Option.not_isSome_iff_eq_none] at hnone
      rw [resolveBazelPackageData_eq_none.2 ⟨request, hmem, hnone⟩] at hprefetch
      cases hprefetch
    · intro _ o
      refine ⟨fun n m ho => ⟨n, directRun_of_evalLoop hdata ho⟩, fun n hrun => ?_⟩
      exact evalLoop_of_directRun hdata hrun (Nat.lt_succ_of_le (length_filter_le _ _))

/-- `None if True else glob(["/abs"])`: the glob is not executed, and the load fails. -/
theorem unused_glob_fails :
    ∃ (A : Answers) (ast : List Expr) (program : Program Unit),
      directRun A program 1 [] = some (some ()) ∧
        ∀ n m, evalBuildFile A ast program n m = some none := by
  refine ⟨fun _ => none, [.other [.identifier "None", .identifier "True",
      .call (.identifier "glob") [.positional (.list [.string "/abs"])]]],
    fun _ => .complete (), rfl, fun n m => rfl⟩

end Bz.Interpreter
