import Mathlib.Tactic

/-!
# Rewriting of system calls

Before an application runs, a visitor of its syntax tree turns calls of system calls
into yields of the name and the arguments.  The visitor of module `ast` descends into
the fields of each node, unless the class of the node has a method of its own.
`visit_Call` is the only one here.

`Rewritten` says what the visitor is for.  `visit_Call` returns a call of another
function as it is and does not look into the arguments of a system call, so a system
call inside another call stays.  It also drops the keyword arguments of a system call.
On trees without these two, `Flat` trees, the visitor does what it is for, and on no
others.
-/

namespace OsCourse.Mosaic.Transformer

/-! ## Syntax trees -/

/-- The classes of nodes other than `Name` and `Call`, up to Python 3.14. -/
inductive Class where
  | Module | Interactive | Expression | FunctionType
  | FunctionDef | AsyncFunctionDef | ClassDef | Return | Delete | Assign | AugAssign | AnnAssign
  | For | AsyncFor | While | If | With | AsyncWith | Match | Raise | Try | TryStar | Assert
  | Import | ImportFrom | Global | Nonlocal | Expr | Pass | Break | Continue | TypeAlias
  | BoolOp | NamedExpr | BinOp | UnaryOp | Lambda | IfExp | Dict | Set | ListComp | SetComp
  | DictComp | GeneratorExp | Await | Yield | YieldFrom | Compare | FormattedValue | JoinedStr
  | TemplateStr | Interpolation
  | Constant | Attribute | Subscript | Starred | List | Tuple | Slice
  | Load | Store | Del
  | And | Or
  | Add | Sub | Mult | MatMult | Div | Mod | Pow | LShift | RShift | BitOr | BitXor | BitAnd
  | FloorDiv
  | Invert | Not | UAdd | USub
  | Eq | NotEq | Lt | LtE | Gt | GtE | Is | IsNot | In | NotIn
  | comprehension | ExceptHandler | arguments | arg | keyword | alias | withitem | match_case
  | MatchValue | MatchSingleton | MatchSequence | MatchMapping | MatchClass | MatchStar | MatchAs
  | MatchOr
  | TypeIgnore
  | TypeVar | ParamSpec | TypeVarTuple
  deriving DecidableEq, Repr

/-- What stands in a field and is not a node. -/
inductive Value where
  | none
  | bool (b : Bool)
  | int (i : Int)
  | str (s : String)
  /-- Other constants, by their text. -/
  | other (repr : String)
  deriving DecidableEq, Repr

/-- The parts of a tree. -/
inductive Part where
  | node
  | list
  | fields
  deriving DecidableEq, Repr

inductive Ast : Part → Type where
  /-- The context, `Load`, `Store` or `Del`, is a node without fields. -/
  | name (id : String) (ctx : Class) : Ast .node
  | call (func : Ast .node) (args keywords : Ast .list) : Ast .node
  | node (cls : Class) (fields : Ast .fields) : Ast .node
  -- The elements of a list: nodes, and for some classes `None` or identifiers.
  | nil : Ast .list
  | cons (n : Ast .node) (rest : Ast .list) : Ast .list
  | consValue (v : Value) (rest : Ast .list) : Ast .list
  -- The fields of a node, in the order of `_fields`.
  | noField : Ast .fields
  | nodeField (n : Ast .node) (rest : Ast .fields) : Ast .fields
  | listField (l : Ast .list) (rest : Ast .fields) : Ast .fields
  | valueField (v : Value) (rest : Ast .fields) : Ast .fields

/-! ## The visitor -/

/-- `SYSCALLS`, as the decorators fill it. -/
def SYSCALLS : List String :=
  ["sys_spawn", "sys_fork", "sys_sched", "sys_choose", "sys_write", "sys_bread", "sys_bwrite",
    "sys_sync", "sys_crash"]

/-- `yield ('sys_xxx', args)`. -/
def yieldCall (id : String) (args : Ast .list) : Ast .node :=
  let name := .node .Constant (.valueField (.str id) .noField)
  let pair := .node .Tuple (.listField
    (.cons name (.cons (.node .Tuple (.listField args .noField)) .nil)) .noField)
  .node .Yield (.nodeField pair .noField)

/-- `visit_Call`. -/
def visitCall (func : Ast .node) (args keywords : Ast .list) : Ast .node :=
  match func with
  | .name id _ => if id ∈ SYSCALLS then yieldCall id args else .call func args keywords
  | _ => .call func args keywords

/-- `visit` of a node, and `generic_visit` of its fields. -/
def visit {k : Part} : Ast k → Ast k
  | .name id ctx => .name id ctx
  | .call func args keywords => visitCall func args keywords
  | .node cls fields => .node cls (visit fields)
  | .nil => .nil
  | .cons n rest => .cons (visit n) (visit rest)
  | .consValue v rest => .consValue v (visit rest)
  | .noField => .noField
  | .nodeField n rest => .nodeField (visit n) (visit rest)
  | .listField l rest => .listField (visit l) (visit rest)
  | .valueField v rest => .valueField v (visit rest)

/-! ## What the visitor is for -/

/-- The function of a system call. -/
def isSyscall : Ast .node → Bool
  | .name id _ => id ∈ SYSCALLS
  | _ => false

/-- No call of a system call stands anywhere in the tree. -/
def syscallFree {k : Part} : Ast k → Bool
  | .name _ _ => true
  | .call func args keywords =>
      !isSyscall func && syscallFree func && syscallFree args && syscallFree keywords
  | .node _ fields => syscallFree fields
  | .nil => true
  | .cons n rest => syscallFree n && syscallFree rest
  | .consValue _ rest => syscallFree rest
  | .noField => true
  | .nodeField n rest => syscallFree n && syscallFree rest
  | .listField l rest => syscallFree l && syscallFree rest
  | .valueField _ rest => syscallFree rest

/-- The second tree is the first with each system call, at any depth, turned into a
yield of its name and its arguments, and with nothing else changed. -/
inductive Rewritten : {k : Part} → Ast k → Ast k → Prop where
  | syscall {id ctx args args'} (h : id ∈ SYSCALLS) (hargs : Rewritten args args') :
      Rewritten (.call (.name id ctx) args .nil) (yieldCall id args')
  | call {func func' args args' keywords keywords'} (h : isSyscall func = false)
      (hfunc : Rewritten func func') (hargs : Rewritten args args')
      (hkeywords : Rewritten keywords keywords') :
      Rewritten (.call func args keywords) (.call func' args' keywords')
  | name {id ctx} : Rewritten (.name id ctx) (.name id ctx)
  | node {cls fields fields'} (h : Rewritten fields fields') :
      Rewritten (.node cls fields) (.node cls fields')
  | nil : Rewritten .nil .nil
  | cons {n n' rest rest'} (hn : Rewritten n n') (h : Rewritten rest rest') :
      Rewritten (.cons n rest) (.cons n' rest')
  | consValue {v rest rest'} (h : Rewritten rest rest') :
      Rewritten (.consValue v rest) (.consValue v rest')
  | noField : Rewritten .noField .noField
  | nodeField {n n' rest rest'} (hn : Rewritten n n') (h : Rewritten rest rest') :
      Rewritten (.nodeField n rest) (.nodeField n' rest')
  | listField {l l' rest rest'} (hl : Rewritten l l') (h : Rewritten rest rest') :
      Rewritten (.listField l rest) (.listField l' rest')
  | valueField {v rest rest'} (h : Rewritten rest rest') :
      Rewritten (.valueField v rest) (.valueField v rest')

def Ast.isNil : Ast .list → Bool
  | .nil => true
  | _ => false

/-- No system call stands inside another call or has keyword arguments. -/
def flat {k : Part} : Ast k → Bool
  | .name _ _ => true
  | .call func args keywords =>
      syscallFree func && syscallFree args && syscallFree keywords &&
        (!isSyscall func || keywords.isNil)
  | .node _ fields => flat fields
  | .nil => true
  | .cons n rest => flat n && flat rest
  | .consValue _ rest => flat rest
  | .noField => true
  | .nodeField n rest => flat n && flat rest
  | .listField l rest => flat l && flat rest
  | .valueField _ rest => flat rest

/-! ## When it does it -/

section
variable {k : Part}

theorem isSyscall_iff {func : Ast .node} :
    isSyscall func = true ↔ ∃ id ctx, func = .name id ctx ∧ id ∈ SYSCALLS := by
  cases func <;> simp [isSyscall]

theorem visitCall_syscall {id : String} (h : id ∈ SYSCALLS) (ctx : Class)
    (args keywords : Ast .list) :
    visitCall (.name id ctx) args keywords = yieldCall id args :=
  if_pos h

theorem visitCall_other {func : Ast .node} (h : isSyscall func = false)
    (args keywords : Ast .list) : visitCall func args keywords = .call func args keywords := by
  cases func with
  | name id ctx => exact if_neg (by simpa [isSyscall] using h)
  | call | node => rfl

theorem syscallFree_yieldCall (id : String) (args : Ast .list) :
    syscallFree (yieldCall id args) = syscallFree args := by
  simp [yieldCall, syscallFree]

theorem Rewritten.isSyscall_eq {func func' : Ast .node} (h : Rewritten func func')
    (hfunc : isSyscall func = false) : isSyscall func' = false := by
  cases h with
  | name => exact hfunc
  | syscall | call | node => rfl

@[simp] theorem rewritten_node {cls : Class} {fields fields' : Ast .fields} :
    Rewritten (.node cls fields) (.node cls fields') ↔ Rewritten fields fields' :=
  ⟨fun h => by cases h with | node h => exact h, .node⟩

@[simp] theorem rewritten_cons {n n' : Ast .node} {rest rest' : Ast .list} :
    Rewritten (.cons n rest) (.cons n' rest') ↔ Rewritten n n' ∧ Rewritten rest rest' :=
  ⟨fun h => by cases h with | cons hn h => exact ⟨hn, h⟩, fun h => .cons h.1 h.2⟩

@[simp] theorem rewritten_consValue {v : Value} {rest rest' : Ast .list} :
    Rewritten (.consValue v rest) (.consValue v rest') ↔ Rewritten rest rest' :=
  ⟨fun h => by cases h with | consValue h => exact h, .consValue⟩

@[simp] theorem rewritten_nodeField {n n' : Ast .node} {rest rest' : Ast .fields} :
    Rewritten (.nodeField n rest) (.nodeField n' rest') ↔ Rewritten n n' ∧ Rewritten rest rest' :=
  ⟨fun h => by cases h with | nodeField hn h => exact ⟨hn, h⟩, fun h => .nodeField h.1 h.2⟩

@[simp] theorem rewritten_listField {l l' : Ast .list} {rest rest' : Ast .fields} :
    Rewritten (.listField l rest) (.listField l' rest') ↔ Rewritten l l' ∧ Rewritten rest rest' :=
  ⟨fun h => by cases h with | listField hl h => exact ⟨hl, h⟩, fun h => .listField h.1 h.2⟩

@[simp] theorem rewritten_valueField {v : Value} {rest rest' : Ast .fields} :
    Rewritten (.valueField v rest) (.valueField v rest') ↔ Rewritten rest rest' :=
  ⟨fun h => by cases h with | valueField h => exact h, .valueField⟩

/-- No system call is left in a rewritten tree. -/
theorem Rewritten.free {t t' : Ast k} (h : Rewritten t t') :
    syscallFree t' = true := by
  induction h with
  | syscall _ _ ih => rwa [syscallFree_yieldCall]
  | call h hfunc _ _ ihfunc ihargs ihkeywords =>
      simp [syscallFree, hfunc.isSyscall_eq h, ihfunc, ihargs, ihkeywords]
  | node _ ih | consValue _ ih | valueField _ ih => exact ih
  | name | nil | noField => rfl
  | cons _ _ ihn ih | nodeField _ _ ihn ih | listField _ _ ihn ih =>
      simp [syscallFree, ihn, ih]

/-- A tree without system calls is not changed. -/
theorem Rewritten.of_free {t : Ast k} (h : syscallFree t = true) : Rewritten t t := by
  induction t with
  | name => exact .name
  | call func args keywords ihfunc ihargs ihkeywords =>
      simp only [syscallFree, Bool.and_eq_true, Bool.not_eq_true'] at h
      obtain ⟨⟨⟨hsys, hfunc⟩, hargs⟩, hkeywords⟩ := h
      exact .call hsys (ihfunc hfunc) (ihargs hargs) (ihkeywords hkeywords)
  | node _ _ ih => exact .node (ih h)
  | nil => exact .nil
  | consValue _ _ ih => exact .consValue (ih h)
  | noField => exact .noField
  | valueField _ _ ih => exact .valueField (ih h)
  | cons _ _ ihn ih | nodeField _ _ ihn ih | listField _ _ ihn ih =>
      obtain ⟨hn, hrest⟩ := Bool.and_eq_true_iff.mp h
      simpa using ⟨ihn hn, ih hrest⟩

theorem isNil_iff {l : Ast .list} : l.isNil = true ↔ l = .nil := by
  cases l <;> simp [Ast.isNil]

/-- The two ways to rewrite a call. -/
theorem Rewritten.of_call {func : Ast .node} {args keywords : Ast .list} {t : Ast .node}
    (h : Rewritten (.call func args keywords) t) :
    (isSyscall func = true ∧ keywords = .nil ∧
      ∃ id args', Rewritten args args' ∧ t = yieldCall id args') ∨
    (isSyscall func = false ∧ ∃ func' args' keywords', Rewritten func func' ∧
      Rewritten args args' ∧ Rewritten keywords keywords' ∧ t = .call func' args' keywords') := by
  cases h with
  | @syscall id ctx _ args' h hargs =>
      exact .inl ⟨isSyscall_iff.mpr ⟨id, ctx, rfl, h⟩, rfl, id, args', hargs, rfl⟩
  | call h hfunc hargs hkeywords =>
      exact .inr ⟨h, _, _, _, hfunc, hargs, hkeywords, rfl⟩

theorem yieldCall_inj {id id' : String} {args args' : Ast .list}
    (h : yieldCall id args = yieldCall id' args') : args = args' := by
  simp only [yieldCall, Ast.node.injEq, Ast.nodeField.injEq, Ast.listField.injEq,
    Ast.cons.injEq] at h
  tauto

theorem flat_call {func : Ast .node} {args keywords : Ast .list} :
    flat (.call func args keywords) = true ↔
      (syscallFree func = true ∧ syscallFree args = true ∧ syscallFree keywords = true) ∧
        (isSyscall func = true → keywords = .nil) := by
  cases hsys : isSyscall func <;> simp [flat, hsys, isNil_iff, and_assoc]

theorem rewritten_visitCall (func : Ast .node) (args keywords : Ast .list) :
    Rewritten (.call func args keywords) (visitCall func args keywords) ↔
      flat (.call func args keywords) = true := by
  rw [flat_call]
  cases hsys : isSyscall func with
  | true =>
      obtain ⟨id, ctx, rfl, hid⟩ := isSyscall_iff.mp hsys
      rw [visitCall_syscall hid]
      constructor
      · intro h
        rcases h.of_call with ⟨-, rfl, id', args', hargs, heq⟩ | ⟨hno, -⟩
        · obtain rfl := yieldCall_inj heq
          exact ⟨⟨rfl, hargs.free, rfl⟩, fun _ => rfl⟩
        · simp [hsys] at hno
      · rintro ⟨⟨-, hargs, -⟩, hnil⟩
        obtain rfl := hnil rfl
        exact .syscall hid (.of_free hargs)
  | false =>
      rw [visitCall_other hsys]
      constructor
      · intro h
        rcases h.of_call with ⟨hno, -⟩ | ⟨-, _, _, _, hfunc, hargs, hkeywords, heq⟩
        · simp [hsys] at hno
        · obtain ⟨rfl, rfl, rfl⟩ := Ast.call.inj heq
          exact ⟨⟨hfunc.free, hargs.free, hkeywords.free⟩, by simp⟩
      · rintro ⟨⟨hfunc, hargs, hkeywords⟩, -⟩
        exact .call hsys (.of_free hfunc) (.of_free hargs) (.of_free hkeywords)

theorem rewritten_visit (t : Ast k) : Rewritten t (visit t) ↔ flat t = true := by
  induction t with
  | name => exact iff_of_true .name rfl
  | call func args keywords => exact rewritten_visitCall func args keywords
  | node _ _ ih => simpa [visit, flat] using ih
  | nil => exact iff_of_true .nil rfl
  | cons _ _ ihn ih => simp [visit, flat, ihn, ih]
  | consValue _ _ ih => simpa [visit, flat] using ih
  | noField => exact iff_of_true .noField rfl
  | nodeField _ _ ihn ih => simp [visit, flat, ihn, ih]
  | listField _ _ ihl ih => simp [visit, flat, ihl, ih]
  | valueField _ _ ih => simpa [visit, flat] using ih

/-- The visitor does what it is for exactly on the trees in which no system call
stands inside another call or has keyword arguments. -/
theorem rewritten_visit_iff_flat (t : Ast k) :
    (syscallFree (visit t) = true ∧ Rewritten t (visit t)) ↔ flat t = true := by
  rw [rewritten_visit, and_iff_right_iff_imp]
  exact fun h => ((rewritten_visit t).mpr h).free

end

/-- `print(sys_fork())`. -/
def printFork : Ast .node :=
  .call (.name "print" .Load) (.cons (.call (.name "sys_fork" .Load) .nil .nil) .nil) .nil

/-- The visitor leaves a system call among the arguments of a call. -/
theorem not_rewritten_printFork :
    ¬ (syscallFree (visit printFork) = true ∧ Rewritten printFork (visit printFork)) := by
  rw [show syscallFree (visit printFork) = false by decide]
  simp

end OsCourse.Mosaic.Transformer
