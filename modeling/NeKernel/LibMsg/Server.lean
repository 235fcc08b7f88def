import NeKernel.NeKit.Config

/-!
# The message library

`libMsg` keeps a table of functions, its length, and the semaphore it holds while one of them runs. A
program installs a table, has expressions evaluated by the function at their index, and closes the
library again:

    libmsg_init_library ──▶ kFuncs, kFuncCnt ──l_index──▶ libmsg_eval_expr

`libmsg_init_library` goes on only where a table is installed already, so none ever is. An evaluation
asks neither for a table nor whether the index lies in it. When one is right is settled for any state
(`eval_right_iff`), and then when every call of a run is (`library_right_iff`).
-/

namespace NeKernel.LibMsg

variable {Func : Type*}

/-- `LIBMSG_EXPR`, of which the library reads the index. -/
structure LibmsgExpr where
  lIndex : Nat

/-- `libmsg_func_type*`: the function that is read at each index, in the table or behind it. -/
abbrev Funcs (Func : Type*) := Nat → Func

/-- The statics of `Server.cpp`. Of the semaphore it is only asked whether it is null. -/
structure Server (Func : Type*) where
  kFuncs : Option (Funcs Func) := none
  kFuncCnt : Nat := 0
  kSemaphore : Bool := false

/-- A function that is called, and its arguments. -/
structure Invocation (Func : Type*) where
  func : Func
  self : LibmsgExpr
  arg : Nat
  argSize : Nat

/-- What a call does besides its changes to the statics. -/
structure Reply (Func : Type*) where
  /-- What is returned. Without it the call does not come back. -/
  code : Option Int
  /-- The indices into the table. -/
  indexed : List Nat := []
  invoked : List (Invocation Func) := []

def Reply.error : Reply Func := { code := some kErrorInvalidData }

/-- `libmsg_close_library`. -/
def libmsgCloseLibrary (s : Server Func) : Reply Func × Server Func :=
  if s.kSemaphore then (.error, s)
  else ({ code := some kErrorSuccess }, { s with kFuncs := none, kFuncCnt := 0 })

/-- `libmsg_eval_expr`. What the calls that the function makes in its turn do to the library is
`body`. `SemCreate` always has a semaphore to give. -/
def libmsgEvalExpr (body : Func → Server Func → Server Func) (head : Option LibmsgExpr)
    (arg : Option Nat) (argSize : Nat) (s : Server Func) : Reply Func × Server Func :=
  if s.kSemaphore then (.error, s)
  else
    match head, arg with
    | some head, some arg =>
        if argSize = 0 then (.error, s)
        else
          let held := { s with kSemaphore := true }
          match s.kFuncs with
          -- The index is taken from a null pointer.
          | none => ({ code := none, indexed := [head.lIndex] }, held)
          | some funcs =>
              let func := funcs head.lIndex
              ({ code := some kErrorSuccess, indexed := [head.lIndex],
                 invoked := [⟨func, head, arg, argSize⟩] },
                { body func held with kSemaphore := false })
    | _, _ => (.error, s)

/-- `libmsg_init_library`, which returns nothing. -/
def libmsgInitLibrary (funcs : Option (Funcs Func)) (cnt : Nat) (s : Server Func) : Server Func :=
  if funcs.isNone ∨ cnt = 0 then s
  else if s.kFuncs.isNone ∨ s.kFuncCnt = 0 then s
  else { s with kFuncs := funcs, kFuncCnt := cnt }

/-- A call of the library. -/
inductive Call (Func : Type*) where
  | init (funcs : Option (Funcs Func)) (cnt : Nat)
  | eval (head : Option LibmsgExpr) (arg : Option Nat) (argSize : Nat)
  | close

variable (body : Func → Server Func → Server Func)

/-- What a call leaves. -/
def Call.run : Call Func → Server Func → Server Func
  | .init funcs cnt, s => libmsgInitLibrary funcs cnt s
  | .eval head arg argSize, s => (libmsgEvalExpr body head arg argSize s).2
  | .close, s => (libmsgCloseLibrary s).2

/-! ## What the calls are for -/

/-- No table is installed. -/
structure Server.Closed (s : Server Func) : Prop where
  no_table : s.kFuncs = none
  no_count : s.kFuncCnt = 0

/-- On a closed library a table that is not empty is installed. -/
def InitRight (funcs : Option (Funcs Func)) (cnt : Nat) (s : Server Func) : Prop :=
  s.Closed → ∀ table, funcs = some table → cnt ≠ 0 →
    (libmsgInitLibrary funcs cnt s).kFuncs = some table ∧
      (libmsgInitLibrary funcs cnt s).kFuncCnt = cnt

/-- A table is installed, and the expression's index is in it. -/
def Names (head : Option LibmsgExpr) (func : Func) (s : Server Func) : Prop :=
  ∃ table expr, s.kFuncs = some table ∧ head = some expr ∧ expr.lIndex < s.kFuncCnt ∧
    func = table expr.lIndex

/-- The function that the expression names is the one that is called. If it names none, an error is
returned and no index is used. -/
structure EvalRight (head : Option LibmsgExpr) (arg : Option Nat) (argSize : Nat)
    (s : Server Func) : Prop where
  named : ∀ func, Names head func s →
    (libmsgEvalExpr body head arg argSize s).1.invoked.map Invocation.func = [func]
  other : (¬ ∃ func, Names head func s) →
    ∃ code, code ≠ kErrorSuccess ∧ (libmsgEvalExpr body head arg argSize s).1 = { code := some code }

/-- The call is right in this state. -/
def Call.Right : Call Func → Server Func → Prop
  | .init funcs cnt, s => InitRight funcs cnt s
  | .eval head arg argSize, s => EvalRight body head arg argSize s
  | .close, _ => True

/-- Every call of the sequence is right in the state it is made in. -/
def CallsRight : List (Call Func) → Server Func → Prop
  | [], _ => True
  | call :: calls, s => call.Right body s ∧ CallsRight calls (call.run body s)

/-- The evaluation is given all that it asks for. -/
def Given (head : Option LibmsgExpr) (arg : Option Nat) (argSize : Nat) : Prop :=
  head ≠ none ∧ arg ≠ none ∧ argSize ≠ 0

variable {body} {head : Option LibmsgExpr} {arg : Option Nat} {argSize : Nat} {s : Server Func}

/-! ## One call -/

theorem eval_refused (body : Func → Server Func → Server Func) (hfree : s.kSemaphore = false)
    (h : ¬ Given head arg argSize) :
    libmsgEvalExpr body head arg argSize s = (.error, s) := by
  unfold libmsgEvalExpr
  rw [if_neg (by rw [hfree]; exact Bool.false_ne_true)]
  match head, arg with
  | none, _ => rfl
  | some _, none => rfl
  | some head, some arg =>
      have hsize : argSize = 0 := by
        by_contra hsize
        exact h ⟨Option.some_ne_none _, Option.some_ne_none _, hsize⟩
      exact if_pos hsize

/-- The index is used whether there is a table or not, and whether the index is in it or not. -/
theorem eval_indexes (body : Func → Server Func → Server Func) (hfree : s.kSemaphore = false)
    (h : Given head arg argSize) :
    ∃ expr arg', head = some expr ∧ (libmsgEvalExpr body head arg argSize s).1 =
      { code := s.kFuncs.map fun _ => kErrorSuccess
        indexed := [expr.lIndex]
        invoked := (s.kFuncs.map fun table => ⟨table expr.lIndex, expr, arg', argSize⟩).toList } := by
  obtain ⟨hhead, harg, hsize⟩ := h
  obtain ⟨expr, rfl⟩ := Option.ne_none_iff_exists'.mp hhead
  obtain ⟨arg', rfl⟩ := Option.ne_none_iff_exists'.mp harg
  refine ⟨expr, arg', rfl, ?_⟩
  unfold libmsgEvalExpr
  rw [if_neg (by rw [hfree]; exact Bool.false_ne_true)]
  dsimp only
  rw [if_neg hsize]
  cases s.kFuncs with
  | none => rfl
  | some table => rfl

/-- An evaluation is right where what it asks for decides whether it names a function. -/
theorem eval_right_iff (hfree : s.kSemaphore = false) :
    EvalRight body head arg argSize s ↔ ((∃ func, Names head func s) ↔ Given head arg argSize) := by
  by_cases hgiven : Given head arg argSize
  · obtain ⟨expr, arg', hhead, heval⟩ := eval_indexes body hfree hgiven
    rw [iff_true_right hgiven]
    constructor
    · intro h
      by_contra hnone
      obtain ⟨code, -, hcode⟩ := h.other hnone
      have hindexed : [expr.lIndex] = ([] : List Nat) := by
        rw [heval] at hcode
        exact congrArg Reply.indexed hcode
      cases hindexed
    · rintro ⟨func, hnames⟩
      refine ⟨fun func' hnames' => ?_, fun hnone => absurd ⟨func, hnames⟩ hnone⟩
      obtain ⟨table, expr', htable, hexpr, -, rfl⟩ := hnames'
      obtain rfl : expr = expr' := Option.some.inj (hhead.symm.trans hexpr)
      rw [heval, htable]
      rfl
  · have heval := eval_refused body hfree hgiven
    rw [iff_false_right hgiven]
    constructor
    · rintro h ⟨func, hnames⟩
      have hcalled := h.named func hnames
      rw [heval] at hcalled
      cases hcalled
    · intro hnone
      refine ⟨fun func hnames => absurd ⟨func, hnames⟩ hnone, fun _ => ?_⟩
      rw [heval]
      exact ⟨kErrorInvalidData, by decide, rfl⟩

/-! ## A run -/

/-- The call asks for nothing: the table is empty, or the evaluation lacks an argument. -/
def Call.Idle : Call Func → Prop
  | .init funcs cnt => funcs = none ∨ cnt = 0
  | .eval head arg argSize => ¬ Given head arg argSize
  | .close => True

/-- No call installs a table where none is installed. -/
theorem init_fresh (funcs : Option (Funcs Func)) (cnt : Nat) :
    libmsgInitLibrary funcs cnt {} = {} := by
  rw [libmsgInitLibrary]
  split
  · rfl
  · rfl

theorem not_names_fresh : ¬ ∃ func, Names head func ({} : Server Func) := by
  rintro ⟨func, table, expr, htable, -⟩
  cases htable

theorem right_fresh_iff (call : Call Func) : call.Right body {} ↔ call.Idle := by
  cases call with
  | init funcs cnt =>
      rw [Call.Right, Call.Idle, InitRight, init_fresh]
      constructor
      · intro h
        by_contra hnot
        rw [not_or] at hnot
        obtain ⟨table, htable⟩ := Option.ne_none_iff_exists'.mp hnot.1
        cases (h ⟨rfl, rfl⟩ table htable hnot.2).1
      · rintro (rfl | rfl) - table htable hcnt
        · cases htable
        · exact absurd rfl hcnt
  | eval head arg argSize =>
      rw [Call.Right, Call.Idle, eval_right_iff rfl, iff_false_left not_names_fresh]
  | close => exact iff_of_true trivial trivial

theorem run_fresh (call : Call Func) (h : call.Idle) : call.run body {} = {} := by
  cases call with
  | init funcs cnt => exact init_fresh funcs cnt
  | eval head arg argSize => exact congrArg Prod.snd (eval_refused body rfl h)
  | close => rfl

/-- **The library's calls.** From the start on, every call of a sequence does what it is for exactly
when none of them asks for anything: a table that is not empty is never installed, and an evaluation
with all its arguments takes its index into a null table. -/
theorem library_right_iff (body : Func → Server Func → Server Func) (calls : List (Call Func)) :
    CallsRight body calls {} ↔ ∀ call ∈ calls, call.Idle := by
  induction calls with
  | nil => exact iff_of_true trivial (List.forall_mem_nil _)
  | cons call calls ih =>
      rw [CallsRight, right_fresh_iff, List.forall_mem_cons]
      refine and_congr_right fun hidle => ?_
      rw [run_fresh call hidle, ih]

/-- A table of one function, and an evaluation of it. -/
def initAndEval : List (Call Nat) :=
  [.init (some fun i => i) 1, .eval (some ⟨0⟩) (some 0x1000) 8]

/-- The table is not installed. -/
theorem table_not_installed : ¬ CallsRight (fun _ s => s) initAndEval {} := by
  rintro ⟨hinit, -⟩
  obtain ⟨htable, -⟩ := hinit ⟨rfl, rfl⟩ _ rfl (by decide)
  cases htable

end NeKernel.LibMsg
