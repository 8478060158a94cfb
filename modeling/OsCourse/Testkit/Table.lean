import OsCourse.Lib.Except
import Mathlib.Logic.Function.Basic
import Mathlib.Tactic

/-!
# The table of test cases

A test case registers itself before `main` with `tk_add_test`, which stores it in the
next entry of the array `tests`.  After `main` the function `run_all_testcases` goes
through the array until it meets an entry that is not enabled.

Both arrays have a fixed size.  `tk_add_test` checks the number of test cases, but not
the number of arguments: in `argv_copy` the arguments stand between the name of the
program and a null pointer, so 64 entries are enough for 62 arguments.  And the check
admits 1024 test cases, after which no entry of `tests` is left to stop the loop of
`run_all_testcases`.

An access outside of an array is a `Fault`, and so is a failed assertion.
-/

namespace OsCourse.Testkit

/-! ## Data -/

/-- `TK_MAX_TESTS`. -/
def maxTests : Nat := 1024

theorem maxTests_pos : 0 < maxTests := by decide

/-- `TK_MAX_ARGV_LEN`. -/
def maxArgvLen : Nat := 64

/-- The environment, as `getenv` sees it. -/
abbrev Env := String → Option String

/-- The argument of `tk_add_test`, with functions in `F`. -/
structure Declaration (F : Type) where
  /-- Whether the test case is active. -/
  enabled : Int
  /-- The name. -/
  name : String
  /-- The location in the program. -/
  loc : String
  /-- The function that is called before the test. -/
  init : Option F
  /-- The function that is called after the test. -/
  fini : Option F
  /-- The body of a unit test. -/
  utest : Option F
  /-- The body of a system test. -/
  stest : Option F
  /-- `argv`, an array with `argc` elements. -/
  argv : Option (List String)

/-- `UnitTest(name)`. -/
def unitTest {F : Type} (name loc : String) (test : F) : Declaration F where
  enabled := 1
  name := name
  loc := loc
  init := none
  fini := none
  utest := some test
  stest := none
  argv := none

/-- `SystemTest(name, argv)`. -/
def systemTest {F : Type} (name loc : String) (argv : List String) (test : F) : Declaration F where
  enabled := 1
  name := name
  loc := loc
  init := none
  fini := none
  utest := none
  stest := some test
  argv := some argv

/-- The pointer `argv` of an entry. -/
inductive Argv where
  /-- The null pointer. -/
  | null
  /-- The array `argv_copy` of the same entry. -/
  | copy

/-- An entry of `tests`. -/
structure Testcase (F : Type) where
  /-- Whether the test case is active. -/
  enabled : Int
  /-- The name. -/
  name : String
  /-- The location in the program. -/
  loc : String
  /-- The function that is called before the test. -/
  init : Option F
  /-- The function that is called after the test. -/
  fini : Option F
  /-- The body of a unit test. -/
  utest : Option F
  /-- The body of a system test. -/
  stest : Option F
  /-- The number of arguments of `main`. -/
  argc : Nat
  /-- The arguments of `main`. -/
  argv : Argv
  /-- The space for the arguments. -/
  argvCopy : Nat → Option String

/-- What goes wrong. -/
inductive Fault where
  /-- `tk_assert` fails. -/
  | assertion (text : String)
  /-- An index is not in `tests`. -/
  | tests (i : Nat)
  /-- An index is not in `argv_copy`. -/
  | argvCopy (i : Nat)
  /-- An index is not in the array of arguments that was given. -/
  | argv (i : Nat)
deriving DecidableEq

/-- The static variables of TestKit. -/
structure Kit (F : Type) where
  /-- `tests`. -/
  tests : Nat → Testcase F
  /-- `ntests` of `tk_add_test`. -/
  ntests : Nat

variable {F : Type}

/-- An entry that was never written. -/
def Testcase.zero : Testcase F := ⟨0, "", "", none, none, none, none, 0, .null, fun _ => none⟩

/-- The static variables at the start. -/
def Kit.zero : Kit F := ⟨fun _ => .zero, 0⟩

/-! ## Registration -/

/-- `TK_RUN` or `TK_VERBOSE` is set. -/
def Env.enables (env : Env) : Bool := (env "TK_RUN").isSome || (env "TK_VERBOSE").isSome

/-- The text for a full table. -/
def tooMany : String := "TestKit supports up to 1024 test cases"

/-- The text for arguments of a unit test. -/
def onlySystemTests : String := "Only system tests can have argv"

/-- The text for an environment without the name of the program. -/
def needsShell : String := "TestKit requires shell put executable in environ; try run with bash"

/-- `tk_assert`. -/
def tkAssert (cond : Bool) (text : String) : Except Fault Unit :=
  if cond then .ok () else .error (.assertion text)

/-- `argv_copy[i] = v`. -/
def setArgvCopy (copy : Nat → Option String) (i : Nat) (v : Option String) :
    Except Fault (Nat → Option String) :=
  if i < maxArgvLen then .ok (Function.update copy i v) else .error (.argvCopy i)

/-- `argv_copy[i] = argv[i - 1]`. -/
def copyArg (argv : List String) (copy : Nat → Option String) (i : Nat) :
    Except Fault (Nat → Option String) :=
  match argv[i - 1]? with
  | none => .error (.argv (i - 1))
  | some arg => setArgvCopy copy i (some arg)

/-- The part of `tk_add_test` that copies the arguments: the new `argc` and
`argv_copy`. -/
def copyArgv (env : Env) (d : Declaration F) (argv : List String) :
    Except Fault (Nat × (Nat → Option String)) := do
  tkAssert d.stest.isSome onlySystemTests
  let argc := argv.length + 1
  let copy ← setArgvCopy (fun _ => none) argc none
  let copy ← setArgvCopy copy 0 (env "_")
  tkAssert (copy 0).isSome needsShell
  let copy ← (List.range' 1 (argc - 1)).foldlM (copyArg argv) copy
  .ok (argc, copy)

/-- The entry with the fields of a declaration. -/
def Declaration.entry (d : Declaration F) (argc : Nat) (argv : Argv)
    (argvCopy : Nat → Option String) : Testcase F :=
  ⟨d.enabled, d.name, d.loc, d.init, d.fini, d.utest, d.stest, argc, argv, argvCopy⟩

/-- The entry for a declaration. -/
def newEntry (env : Env) (d : Declaration F) : Except Fault (Testcase F) :=
  match d.argv with
  | none => .ok (d.entry 0 .null fun _ => none)
  | some argv => do
      let (argc, copy) ← copyArgv env d argv
      .ok (d.entry argc .copy copy)

/-- `tests[i] = t`. -/
def setTest (tests : Nat → Testcase F) (i : Nat) (t : Testcase F) :
    Except Fault (Nat → Testcase F) :=
  if i < maxTests then .ok (Function.update tests i t) else .error (.tests i)

/-- `tk_add_test`.  The entry is written once, with its final fields. -/
def tkAddTest (env : Env) (k : Kit F) (d : Declaration F) : Except Fault (Kit F) :=
  if env.enables then do
    tkAssert (k.ntests < maxTests) tooMany
    let t ← newEntry env d
    let tests ← setTest k.tests k.ntests t
    .ok ⟨tests, k.ntests + 1⟩
  else .ok k

/-- The calls of `tk_add_test` before `main`. -/
def addAll (env : Env) (ds : List (Declaration F)) : Except Fault (Kit F) :=
  ds.foldlM (tkAddTest env) Kit.zero

/-! ## Execution -/

/-- What the process of a test case calls. -/
inductive Call (F : Type) where
  /-- `t->init()`. -/
  | init (f : F)
  /-- `main(t->argc, t->argv, environ)`, with `argv[0]` to `argv[argc]`. -/
  | main (argc : Nat) (argv : Option (List (Option String)))
  /-- `t->stest(result)`. -/
  | stest (f : F)
  /-- `t->utest()`. -/
  | utest (f : Option F)
deriving DecidableEq

/-- What `run_all_testcases` does. -/
inductive Event (F : Type) where
  /-- A process for `run_testcase`. -/
  | child (calls : List (Call F))
  /-- The line of `check_results`. -/
  | result (succ : Bool) (name loc : String)
  /-- A process for `t->fini()`. -/
  | cleanup (f : F)
  /-- The last line. -/
  | summary (passed ntests : Nat)

/-- The array that `argv` points to. -/
def Testcase.mainArgv (t : Testcase F) : Option (List (Option String)) :=
  match t.argv with
  | .null => none
  | .copy => some ((List.range (t.argc + 1)).map t.argvCopy)

/-- How the process of a test case ends. -/
structure Ending where
  /-- The number of calls that return.  The next one ends the process, by itself or, when
  `main` is killed by a signal, by the same signal that the process sends to itself. -/
  returned : Nat
  /-- It exits and is not killed. -/
  exited : Bool

/-- `run_testcase`, the calls while they return. -/
def runTestcase (t : Testcase F) : List (Call F) :=
  t.init.toList.map .init ++
    match t.stest with
    | some f => [.main t.argc t.mainArgv, .stest f]
    | none => [.utest t.utest]

/-- The calls that a process makes. -/
def Ending.made (e : Ending) (calls : List (Call F)) : List (Call F) :=
  calls.take (e.returned + 1)

/-- The body of the loop, for a test case whose process ends as given. -/
def runEntry (t : Testcase F) (e : Ending) : List (Event F) :=
  [.child (e.made (runTestcase t)), .result e.exited t.name t.loc] ++
    t.fini.toList.map .cleanup

/-- The loop of `run_all_testcases` from entry `i` on.  How the process of an entry ends
is given.  The first argument bounds the number of rounds. -/
def runLoop (ends : Nat → Ending) (tests : Nat → Testcase F) :
    Nat → Nat → Nat → Except Fault (List (Event F))
  | 0, i, _ => .error (.tests i)
  | fuel + 1, i, passed =>
      if i < maxTests then
        if (tests i).enabled = 0 then .ok [.summary passed i]
        else do
          let rest ← runLoop ends tests fuel (i + 1)
              (if (ends i).exited then passed + 1 else passed)
          .ok (runEntry (tests i) (ends i) ++ rest)
      else .error (.tests i)

/-- `run_all_testcases`. -/
def runAllTestcases (ends : Nat → Ending) (k : Kit F) : Except Fault (List (Event F)) :=
  if (k.tests 0).enabled = 0 then .ok []
  else runLoop ends k.tests (maxTests + 1) 0 0

/-- The test cases that were run, by the calls of their processes. -/
def runs : List (Event F) → List (List (Call F))
  | [] => []
  | .child calls :: events => calls :: runs events
  | _ :: events => runs events

/-! ## What should happen -/

/-- The declarations that are registered. -/
def registered (env : Env) (ds : List (Declaration F)) : List (Declaration F) :=
  if env.enables then ds else []

/-- The arguments fit into `argv_copy`, with a name before and a null pointer after
them. -/
def Declaration.Fits (d : Declaration F) : Prop :=
  ∀ argv, d.argv = some argv → argv.length + 2 ≤ maxArgvLen

/-- The call of `main` for a declaration: the name of the program, the arguments and a
null pointer. -/
def Declaration.mainCall (env : Env) (d : Declaration F) : Call F :=
  match d.argv with
  | none => .main 0 none
  | some argv => .main (argv.length + 1) (some (env "_" :: argv.map some ++ [none]))

/-- The calls of the process for a declaration. -/
def Declaration.calls (env : Env) (d : Declaration F) : List (Call F) :=
  d.init.toList.map .init ++
    match d.stest with
    | some f => [d.mainCall env, .stest f]
    | none => [.utest d.utest]

/-! ## Copying the arguments -/

theorem tkAssert_eq_ok {cond : Bool} {text : String} {u : Unit} :
    tkAssert cond text = .ok u ↔ cond = true := by
  cases cond <;> simp [tkAssert]

variable {i : Nat} {env : Env} {d : Declaration F} {ds rest : List (Declaration F)}

theorem setArgvCopy_of_lt {copy : Nat → Option String} (hi : i < maxArgvLen) (v : Option String) :
    setArgvCopy copy i v = .ok (Function.update copy i v) :=
  if_pos hi

/-- `argv_copy` after `n` rounds of the loop. -/
def copied (argv : List String) (n : Nat) (copy : Nat → Option String) (i : Nat) : Option String :=
  if 1 ≤ i ∧ i ≤ n then argv[i - 1]? else copy i

theorem copyLoop_eq {argv : List String} {n : Nat} (hn : n ≤ argv.length) (hfit : n < maxArgvLen)
    (copy : Nat → Option String) :
    (List.range' 1 n).foldlM (copyArg argv) copy = .ok (copied argv n copy) := by
  induction n with
  | zero =>
      have hcopy : copied argv 0 copy = copy := funext fun i => if_neg (by omega)
      rw [hcopy]
      rfl
  | succ n ih =>
      have harg : argv[1 + 1 * n - 1]? = some argv[n] := by
        rw [show 1 + 1 * n - 1 = n by omega]
        exact List.getElem?_eq_getElem (by omega)
      rw [List.range'_concat, List.foldlM_append, ih (by omega) (by omega), ok_bind,
        List.foldlM_cons, copyArg, harg]
      simp only
      rw [setArgvCopy_of_lt (by omega), ok_bind]
      refine congrArg Except.ok (funext fun i => ?_)
      unfold copied
      rcases eq_or_ne i (1 + 1 * n) with rfl | hne
      · rw [Function.update_self, if_pos (by omega), harg]
      · rw [Function.update_of_ne hne]
        by_cases hi : 1 ≤ i ∧ i ≤ n
        · rw [if_pos hi, if_pos (by omega)]
        · rw [if_neg hi, if_neg (by omega)]

/-- The entry of a declaration whose arguments fit. -/
def Declaration.stored (env : Env) (d : Declaration F) : Testcase F :=
  match d.argv with
  | none => d.entry 0 .null fun _ => none
  | some argv => d.entry (argv.length + 1) .copy
      (copied argv argv.length (Function.update (fun _ => none) 0 (env "_")))

/-- With enough space only the assertions matter. -/
theorem copyArgv_eq {argv : List String} (hlen : argv.length + 2 ≤ maxArgvLen) :
    copyArgv env d argv =
      (tkAssert d.stest.isSome onlySystemTests >>= fun _ =>
        tkAssert (env "_").isSome needsShell >>= fun _ =>
          .ok (argv.length + 1,
            copied argv argv.length (Function.update (fun _ => none) 0 (env "_")))) := by
  have hnull : Function.update (fun _ => none : Nat → Option String) (argv.length + 1) none =
      fun _ => none := Function.update_eq_self (argv.length + 1) (fun _ => none)
  have hloop := copyLoop_eq (le_refl argv.length) (by omega : argv.length < maxArgvLen)
    (Function.update (fun _ => none) 0 (env "_"))
  unfold copyArgv
  simp only [setArgvCopy_of_lt (show argv.length + 1 < maxArgvLen by omega), hnull,
    setArgvCopy_of_lt (show 0 < maxArgvLen by decide), Function.update_self, ok_bind,
    Nat.add_sub_cancel, hloop]

/-- A declaration whose arguments fit is stored, or an assertion fails. -/
theorem newEntry_of_fits (env : Env) (hfit : d.Fits) :
    newEntry env d = .ok (d.stored env) ∨ ∃ text, newEntry env d = .error (.assertion text) := by
  unfold newEntry Declaration.stored
  cases hargv : d.argv with
  | none => exact .inl rfl
  | some argv =>
      simp only [copyArgv_eq (hfit argv hargv)]
      cases d.stest with
      | none => exact .inr ⟨_, rfl⟩
      | some f =>
          cases env "_" with
          | none => exact .inr ⟨_, rfl⟩
          | some prog => exact .inl rfl

/-- A declaration that is stored fits. -/
theorem fits_of_newEntry {t : Testcase F} (h : newEntry env d = .ok t) :
    d.Fits ∧ t = d.stored env := by
  have hfit : d.Fits := by
    intro argv hargv
    by_contra hlen
    have hout : setArgvCopy (fun _ => none) (argv.length + 1) none =
        .error (.argvCopy (argv.length + 1)) := if_neg (by omega)
    rw [newEntry, hargv] at h
    obtain ⟨x, hx, -⟩ := bind_ok h
    obtain ⟨-, -, hx⟩ := bind_ok hx
    obtain ⟨copy, hcopy, -⟩ := bind_ok hx
    rw [hout] at hcopy
    cases hcopy
  refine ⟨hfit, ?_⟩
  rcases newEntry_of_fits env hfit with hok | ⟨text, herr⟩
  · exact Except.ok.inj (h.symm.trans hok)
  · rw [h] at herr
    cases herr

/-! ## The table -/

/-- The table after the registration of `ds`. -/
def filled (env : Env) (ds : List (Declaration F)) : Kit F :=
  ⟨fun i => (ds[i]?).elim .zero (Declaration.stored env), ds.length⟩

theorem filled_concat (env : Env) (ds : List (Declaration F)) (d : Declaration F) :
    (⟨Function.update (filled env ds).tests ds.length (d.stored env), ds.length + 1⟩ : Kit F) =
      filled env (ds ++ [d]) := by
  have htests : Function.update (filled env ds).tests ds.length (d.stored env) =
      (filled env (ds ++ [d])).tests := by
    funext i
    rcases lt_trichotomy i ds.length with hlt | rfl | hgt
    · rw [Function.update_of_ne hlt.ne]
      simp only [filled, List.getElem?_append_left hlt]
    · simp [filled]
    · rw [Function.update_of_ne hgt.ne']
      have hnone : (ds ++ [d])[i]? = none := List.getElem?_eq_none (by simp; omega)
      simp only [filled, hnone, List.getElem?_eq_none hgt.le]
  rw [htests]
  simp [filled]

theorem setTest_filled (hlen : ds.length < maxTests) (t : Testcase F) :
    setTest (filled env ds).tests (filled env ds).ntests t =
      .ok (Function.update (filled env ds).tests ds.length t) :=
  if_pos hlen

/-- While there is space, the new entry goes to the end of the table. -/
theorem tkAddTest_of_lt (hon : env.enables = true) (hlen : ds.length < maxTests)
    (d : Declaration F) :
    tkAddTest env (filled env ds) d =
      (newEntry env d >>= fun t =>
        .ok ⟨Function.update (filled env ds).tests ds.length t, ds.length + 1⟩) := by
  have hassert : tkAssert (decide ((filled env ds).ntests < maxTests)) tooMany = .ok () :=
    tkAssert_eq_ok.mpr (decide_eq_true hlen)
  rw [tkAddTest, if_pos hon, hassert, ok_bind]
  simp only [setTest_filled hlen, ok_bind]
  rfl

/-- A declaration whose entry is complete is registered. -/
theorem tkAddTest_of_newEntry (hon : env.enables = true) (hlen : ds.length < maxTests)
    (h : newEntry env d = .ok (d.stored env)) :
    tkAddTest env (filled env ds) d = .ok (filled env (ds ++ [d])) := by
  rw [tkAddTest_of_lt hon hlen, h, ok_bind, filled_concat]

theorem tkAddTest_of_fits (hon : env.enables = true) (hfit : d.Fits) :
    tkAddTest env (filled env ds) d = .ok (filled env (ds ++ [d])) ∨
      ∃ text, tkAddTest env (filled env ds) d = .error (.assertion text) := by
  by_cases hlen : ds.length < maxTests
  · rcases newEntry_of_fits env hfit with hok | ⟨text, herr⟩
    · exact .inl (tkAddTest_of_newEntry hon hlen hok)
    · rw [tkAddTest_of_lt hon hlen, herr]
      exact .inr ⟨text, rfl⟩
  · have hassert : tkAssert (decide ((filled env ds).ntests < maxTests)) tooMany =
        .error (.assertion tooMany) := by
      rw [decide_eq_false (show ¬ (filled env ds).ntests < maxTests from hlen)]
      rfl
    rw [tkAddTest, if_pos hon, hassert]
    exact .inr ⟨tooMany, rfl⟩

theorem tkAddTest_ok (hon : env.enables = true) {k : Kit F}
    (h : tkAddTest env (filled env ds) d = .ok k) :
    d.Fits ∧ ds.length < maxTests ∧ k = filled env (ds ++ [d]) := by
  have hlen : ds.length < maxTests := by
    rw [tkAddTest, if_pos hon] at h
    obtain ⟨u, hassert, -⟩ := bind_ok h
    exact of_decide_eq_true (tkAssert_eq_ok.mp hassert)
  rw [tkAddTest_of_lt hon hlen] at h
  obtain ⟨t, ht, h⟩ := bind_ok h
  obtain ⟨hfit, rfl⟩ := fits_of_newEntry ht
  cases h
  exact ⟨hfit, hlen, filled_concat env ds d⟩

theorem addAll_of_fits (hon : env.enables = true) (hfit : ∀ d ∈ rest, d.Fits) :
    rest.foldlM (tkAddTest env) (filled env ds) = .ok (filled env (ds ++ rest)) ∨
      ∃ text, rest.foldlM (tkAddTest env) (filled env ds) = .error (.assertion text) := by
  induction rest generalizing ds with
  | nil =>
      rw [List.append_nil]
      exact .inl rfl
  | cons d rest ih =>
      obtain ⟨hd, hrest⟩ := List.forall_mem_cons.mp hfit
      rw [List.foldlM_cons, List.append_cons]
      rcases tkAddTest_of_fits hon hd with hok | ⟨text, herr⟩
      · rw [hok, ok_bind]
        exact ih hrest
      · rw [herr]
        exact .inr ⟨text, rfl⟩

theorem addAll_ok (hon : env.enables = true) {k : Kit F} (hds : ds.length ≤ maxTests)
    (h : rest.foldlM (tkAddTest env) (filled env ds) = .ok k) :
    (∀ d ∈ rest, d.Fits) ∧ (ds ++ rest).length ≤ maxTests ∧ k = filled env (ds ++ rest) := by
  induction rest generalizing ds with
  | nil =>
      cases h
      rw [List.append_nil]
      exact ⟨fun d hd => (by cases hd), hds, rfl⟩
  | cons d rest ih =>
      obtain ⟨k', hk', h⟩ := foldlM_cons_ok h
      obtain ⟨hfit, hlen, rfl⟩ := tkAddTest_ok hon hk'
      have hds' : (ds ++ [d]).length ≤ maxTests := by
        rw [List.length_append]
        exact hlen
      rw [List.append_cons]
      obtain ⟨hrest, hall, hk⟩ := ih hds' h
      exact ⟨List.forall_mem_cons.mpr ⟨hfit, hrest⟩, hall, hk⟩

/-! ## The runner -/

theorem runs_append_runEntry (t : Testcase F) (e : Ending) (events : List (Event F)) :
    runs (runEntry t e ++ events) = e.made (runTestcase t) :: runs events := by
  unfold runEntry
  cases t.fini <;> rfl

/-- The calls for a stored test case are those of its declaration. -/
theorem runTestcase_stored (env : Env) (d : Declaration F) :
    runTestcase (d.stored env) = d.calls env := by
  unfold Declaration.stored Declaration.calls Declaration.mainCall
  cases hargv : d.argv with
  | none => rfl
  | some argv =>
      have hseen : (List.range (argv.length + 1 + 1)).map
          (copied argv argv.length (Function.update (fun _ => none) 0 (env "_"))) =
          env "_" :: argv.map some ++ [none] := by
        have hargs : (List.range argv.length).map (copied argv argv.length
            (Function.update (fun _ => none) 0 (env "_")) ∘ Nat.succ) = argv.map some := by
          refine List.ext_getElem (by simp) fun i h1 h2 => ?_
          have hi : i < argv.length := by simpa using h2
          simp [copied, hi]
        rw [List.range_succ, List.map_append, List.range_succ_eq_map, List.map_cons, List.map_map,
          hargs]
        simp [copied]
      unfold runTestcase Testcase.mainArgv Declaration.entry
      simp only [hseen]

theorem tests_filled (hi : i < ds.length) :
    (filled env ds).tests i = ds[i].stored env := by
  simp only [filled, List.getElem?_eq_getElem hi, Option.elim_some]

theorem tests_filled_of_le (hi : ds.length ≤ i) :
    (filled env ds).tests i = .zero := by
  simp only [filled, List.getElem?_eq_none hi, Option.elim_none]

theorem enabled_stored (env : Env) (d : Declaration F) : (d.stored env).enabled = d.enabled := by
  unfold Declaration.stored
  cases d.argv <;> rfl

section Runner

variable {ends : Nat → Ending} {env : Env} {ds : List (Declaration F)} {i fuel : Nat}

theorem enabled_filled (hon : ∀ d ∈ ds, d.enabled ≠ 0) (hi : i < ds.length) :
    ((filled env ds).tests i).enabled ≠ 0 := by
  rw [tests_filled hi, enabled_stored]
  exact hon _ (List.getElem_mem hi)

/-- With a free entry after enabled test cases the loop runs all of them. -/
theorem runLoop_of_enabled (hlen : ds.length < maxTests) (hon : ∀ d ∈ ds, d.enabled ≠ 0)
    (hi : i ≤ ds.length) (hfuel : ds.length - i < fuel) (passed : Nat) :
    ∃ events, runLoop ends (filled env ds).tests fuel i passed = .ok events ∧
      runs events = (ds.drop i).mapIdx fun j d => (ends (i + j)).made (d.calls env) := by
  induction fuel generalizing i passed with
  | zero => omega
  | succ fuel ih =>
      rw [runLoop, if_pos (by omega)]
      rcases Nat.lt_or_ge i ds.length with hlt | hge
      · obtain ⟨events, hrun, hruns⟩ :=
          ih (Nat.succ_le_of_lt hlt) (by omega) (if (ends i).exited then passed + 1 else passed)
        refine ⟨runEntry ((filled env ds).tests i) (ends i) ++ events, ?_, ?_⟩
        · rw [if_neg (enabled_filled hon hlt), hrun, ok_bind]
        · rw [runs_append_runEntry, hruns, tests_filled hlt, runTestcase_stored,
            List.drop_eq_getElem_cons hlt, List.mapIdx_cons]
          simp only [Nat.add_zero, Nat.add_right_comm i 1, Nat.add_assoc]
      · have hzero : ((filled env ds).tests i).enabled = 0 := by
          rw [tests_filled_of_le hge]
          rfl
        refine ⟨[.summary passed i], if_pos hzero, ?_⟩
        rw [List.drop_eq_nil_of_le hge]
        rfl

/-- A loop that runs as many test cases as there are has met an entry that is free. -/
theorem enabled_of_runLoop {passed : Nat} (hi : i ≤ ds.length) {events : List (Event F)}
    (h : runLoop ends (filled env ds).tests fuel i passed = .ok events)
    (hruns : (runs events).length = ds.length - i) :
    ds.length < maxTests ∧ ∀ d ∈ ds.drop i, d.enabled ≠ 0 := by
  induction fuel generalizing i passed events with
  | zero => cases h
  | succ fuel ih =>
      rw [runLoop] at h
      split at h
      next hbound =>
        split at h
        next hoff =>
          cases h
          have hend : ds.length = i := by
            have hnone : (runs ([.summary passed i] : List (Event F))).length = 0 := rfl
            omega
          refine ⟨hend ▸ hbound, fun d hd => ?_⟩
          rw [List.drop_eq_nil_of_le hend.le] at hd
          cases hd
        next hne =>
          obtain ⟨rest, hrest, h⟩ := bind_ok h
          cases h
          have hlt : i < ds.length := by
            by_contra hge
            rw [tests_filled_of_le (Nat.not_lt.mp hge)] at hne
            exact hne rfl
          rw [runs_append_runEntry, List.length_cons] at hruns
          obtain ⟨hlen, hon⟩ := ih (Nat.succ_le_of_lt hlt) hrest (by omega)
          refine ⟨hlen, ?_⟩
          rw [List.drop_eq_getElem_cons hlt, List.forall_mem_cons]
          rw [tests_filled hlt, enabled_stored] at hne
          exact ⟨hne, hon⟩
      next => cases h

/-- All test cases of the table are run, once and in order, exactly when they are
enabled and an entry is left. -/
theorem runAllTestcases_iff :
    (∃ events, runAllTestcases ends (filled env ds) = .ok events ∧
      runs events = ds.mapIdx fun i d => (ends i).made (d.calls env)) ↔
    ds.length < maxTests ∧ ∀ d ∈ ds, d.enabled ≠ 0 := by
  unfold runAllTestcases
  constructor
  · rintro ⟨events, hrun, hruns⟩
    split at hrun
    next hoff =>
      cases hrun
      have hnil : ds = [] := List.mapIdx_eq_nil_iff.mp hruns.symm
      subst hnil
      exact ⟨maxTests_pos, fun d hd => by cases hd⟩
    next =>
      have hlen : (runs events).length = ds.length - 0 := by rw [hruns, List.length_mapIdx]; rfl
      exact enabled_of_runLoop (Nat.zero_le _) hrun hlen
  · rintro ⟨hlen, hon⟩
    split
    next hoff =>
      have hnil : ds = [] := by
        cases ds with
        | nil => rfl
        | cons d ds => exact absurd hoff (enabled_filled hon (Nat.succ_pos _))
      subst hnil
      exact ⟨[], rfl, rfl⟩
    next => simpa using runLoop_of_enabled hlen hon (Nat.zero_le _) (by omega) 0

/-- With a full table the loop looks at an entry behind the last. -/
theorem runLoop_full (hlen : ds.length = maxTests) (hon : ∀ d ∈ ds, d.enabled ≠ 0)
    (hi : i ≤ ds.length) (hfuel : ds.length - i < fuel) (passed : Nat) :
    runLoop ends (filled env ds).tests fuel i passed = .error (.tests maxTests) := by
  induction fuel generalizing i passed with
  | zero => omega
  | succ fuel ih =>
      rw [runLoop]
      rcases Nat.lt_or_ge i ds.length with hlt | hge
      · rw [if_pos (by omega), if_neg (enabled_filled hon hlt),
          ih (Nat.succ_le_of_lt hlt) (by omega)]
        rfl
      · have hend : i = maxTests := by omega
        rw [hend, if_neg (lt_irrefl _)]

theorem runAllTestcases_full (hlen : ds.length = maxTests) (hon : ∀ d ∈ ds, d.enabled ≠ 0) :
    runAllTestcases ends (filled env ds) = .error (.tests maxTests) := by
  have hpos : 0 < ds.length := hlen ▸ maxTests_pos
  rw [runAllTestcases, if_neg (enabled_filled hon hpos)]
  exact runLoop_full hlen hon (Nat.zero_le _) (by omega) 0

end Runner

/-- Test cases without arguments are registered while there is space. -/
theorem addAll_units (hon : env.enables = true) (hlen : (ds ++ rest).length ≤ maxTests)
    (hnone : ∀ d ∈ rest, d.argv = none) :
    rest.foldlM (tkAddTest env) (filled env ds) = .ok (filled env (ds ++ rest)) := by
  induction rest generalizing ds with
  | nil =>
      rw [List.append_nil]
      rfl
  | cons d rest ih =>
      obtain ⟨hd, hrest⟩ := List.forall_mem_cons.mp hnone
      have hlt : ds.length < maxTests := by
        rw [List.length_append, List.length_cons] at hlen
        omega
      have hentry : newEntry env d = .ok (d.stored env) := by
        rw [newEntry, Declaration.stored, hd]
      rw [List.append_cons] at hlen ⊢
      rw [List.foldlM_cons, tkAddTest_of_newEntry hon hlt hentry, ok_bind]
      exact ih hlen hrest

theorem addAll_eq_foldlM (env : Env) (ds : List (Declaration F)) :
    addAll env ds = ds.foldlM (tkAddTest env) (filled env []) := rfl

theorem addAll_disabled (hoff : ¬ env.enables = true) (ds : List (Declaration F)) :
    addAll env ds = .ok Kit.zero := by
  unfold addAll
  induction ds with
  | nil => rfl
  | cons d ds ih =>
      rw [List.foldlM_cons, tkAddTest, if_neg hoff, ok_bind]
      exact ih

/-- An environment with `TK_RUN` and the name of the program. -/
def shell : Env := fun name =>
  if name = "TK_RUN" then some "" else if name = "_" then some "./a.out" else none

/-- Every process makes all of its calls and exits. -/
def returning : Nat → Ending := fun _ => ⟨2, true⟩

/-- A system test with two arguments and a unit test. -/
def twoTests : List (Declaration Nat) :=
  [systemTest "options" "main.c:10" ["-n", "42"] 0, unitTest "parser" "main.c:20" 1]

end OsCourse.Testkit
