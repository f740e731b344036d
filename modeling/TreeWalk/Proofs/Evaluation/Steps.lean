import TreeWalk.Evaluation
import TreeWalk.Proofs.Sequencing

/-!
# More steps

A run that ends is not changed by more steps. What is evaluated with one step more goes on as it does without,
up to where the steps run out.
-/

namespace TreeWalk

/-- The second computation does what the first one does, unless that is left unfinished. -/
def Extends {α : Type} (x y : Run α) : Prop := ∀ m, (∃ m', x m = .error .unfinished m') ∨ y m = x m

namespace Extends

variable {α β : Type} {x y z : Run α}

theorem refl (x : Run α) : Extends x x := fun _ => .inr rfl

theorem unfinished (y : Run α) : Extends Run.unfinished y := fun m => .inl ⟨m, rfl⟩

theorem trans (h : Extends x y) (h' : Extends y z) : Extends x z := fun m => by
  rcases h m with hunfinished | hsame
  · exact .inl hunfinished
  · rw [← hsame]
    exact h' m

theorem bind {k k' : α → Run β} (hx : Extends x y) (hk : ∀ a, Extends (k a) (k' a)) : Extends (x >>= k) (y >>= k') := by
  intro m
  rw [bind_eq_match, bind_eq_match]
  rcases hx m with ⟨m', hunfinished⟩ | hsame
  · rw [hunfinished]
    exact .inl ⟨m', rfl⟩
  · rw [hsame]
    cases x m with
    | ok a m' => exact hk a m'
    | error stop m' => exact .inr rfl

/-- What follows has more steps. -/
theorem before (x : Run α) {k k' : α → Run β} (hk : ∀ a, Extends (k a) (k' a)) : Extends (x >>= k) (x >>= k') :=
  (refl x).bind hk

/-- What precedes has more steps. -/
theorem behind (hx : Extends x y) (k : α → Run β) : Extends (x >>= k) (y >>= k) := hx.bind fun a => refl (k a)

theorem ite {x' y' : Run α} (c : Bool) (h : Extends x y) (h' : Extends x' y') :
    Extends (if c then x else x') (if c then y else y') := by
  cases c with
  | true => exact h
  | false => exact h'

theorem nested (line : Nat) (h : Extends x y) : Extends (Run.nested line x) (Run.nested line y) := fun m => by
  unfold Run.nested
  split
  · exact .inr rfl
  · rcases h { m with depth := m.depth + 1 } with ⟨m', hunfinished⟩ | hsame
    · rw [hunfinished]
      exact .inl ⟨_, rfl⟩
    · rw [hsame]
      exact .inr rfl

end Extends

open Evaluation

/-- All that is evaluated, called and executed within so many steps goes on in the same way with one more. -/
structure ExtendsAt (steps : Nat) : Prop where
  eval : ∀ env e, Extends (eval steps env e) (eval (steps + 1) env e)
  evalAll : ∀ env es, Extends (evalAll steps env es) (evalAll (steps + 1) env es)
  call : ∀ line callee arguments, Extends (call steps line callee arguments) (call (steps + 1) line callee arguments)
  instantiate : ∀ c arguments, Extends (instantiate steps c arguments) (instantiate (steps + 1) c arguments)
  invoke : ∀ c arguments, Extends (invoke steps c arguments) (invoke (steps + 1) c arguments)
  exec : ∀ env s, Extends (exec steps env s) (exec (steps + 1) env s)
  execAll : ∀ env statements, Extends (execAll steps env statements) (execAll (steps + 1) env statements)
  loop : ∀ env condition body increment,
    Extends (loop steps env condition body increment) (loop (steps + 1) env condition body increment)

section Steps

variable {steps : Nat} (ih : ExtendsAt steps)

include ih

/-! ## Expressions and calls -/

theorem eval_extends (env : Environment) (e : Expr) : Extends (eval (steps + 1) env e) (eval (steps + 2) env e) := by
  cases e with
  | literal | «variable» | this | parent | lambda => exact .refl _
  | assign _ e | unary _ e => exact (ih.eval env e).behind _
  | group inner => exact ih.eval env inner
  | binary left _ right | index left _ right =>
    exact (ih.eval env left).bind fun _ => (ih.eval env right).behind _
  | logical left op right =>
    exact (ih.eval env left).bind fun _ => .before _ fun _ => .ite _ (.refl _) (ih.eval env right)
  | conditional condition thenBranch elseBranch =>
    exact (ih.eval env condition).bind fun _ => .before _ fun _ => .ite _ (ih.eval env thenBranch) (ih.eval env elseBranch)
  | call callee line arguments =>
    exact (ih.eval env callee).bind fun v => (ih.evalAll env arguments).bind fun values => ih.call line v _
  | get object name => exact (ih.eval env object).behind _
  | set object name value =>
    refine (ih.eval env object).bind fun v => ?_
    cases v with
    | object => exact (ih.eval env value).behind _
    | _ => exact .refl _
  | list _ elements => exact (ih.evalAll env elements).behind _

theorem evalAll_extends (env : Environment) (es : List Expr) :
    Extends (evalAll (steps + 1) env es) (evalAll (steps + 2) env es) := by
  cases es with
  | nil => exact .refl _
  | cons e rest => exact (ih.eval env e).bind fun _ => (ih.evalAll env rest).behind _

theorem call_extends (line : Nat) (callee : Value) (arguments : List Argument) :
    Extends (call (steps + 1) line callee arguments) (call (steps + 2) line callee arguments) := by
  unfold call
  cases callee.callable? with
  | none => exact .refl _
  | some callable =>
    refine .ite _ (.refl _) (.nested line ?_)
    cases callable with
    | native | constant => exact .refl _
    | closure c => exact ih.invoke c _
    | «class» c => exact ih.instantiate c _

theorem instantiate_extends (c : Class) (arguments : List Value) :
    Extends (instantiate (steps + 1) c arguments) (instantiate (steps + 2) c arguments) := by
  refine .before _ fun id => ?_
  cases c.method? initializerName with
  | none => exact .refl _
  | some initializer => exact .before _ fun bound => (ih.invoke bound arguments).behind _

theorem invoke_extends (c : Closure) (arguments : List Value) :
    Extends (invoke (steps + 1) c arguments) (invoke (steps + 2) c arguments) :=
  .before _ fun inner => (ih.execAll inner c.function.body).behind _

/-! ## Statements -/

theorem exec_extends (env : Environment) (s : Stmt) : Extends (exec (steps + 1) env s) (exec (steps + 2) env s) := by
  cases s with
  | expression value | print _ value => exact (ih.eval env value).behind _
  | var name initializer =>
    cases initializer with
    | none => exact .refl _
    | some initializer => exact (ih.eval env initializer).behind _
  | block body => exact .before _ fun inner => ih.execAll inner body
  | branch condition thenBranch elseBranch =>
    refine (ih.eval env condition).bind fun _ => .before _ fun _ => .ite _ (ih.exec env thenBranch) ?_
    cases elseBranch with
    | none => exact .refl _
    | some elseBranch => exact ih.exec env elseBranch
  | loop condition body increment => exact ih.loop env condition body increment
  | «return» _ value =>
    cases value with
    | none => exact .refl _
    | some value => exact (ih.eval env value).behind _
  | _ => exact .refl _

theorem execAll_extends (env : Environment) (statements : List Stmt) :
    Extends (execAll (steps + 1) env statements) (execAll (steps + 2) env statements) := by
  cases statements with
  | nil => exact .refl _
  | cons s rest =>
    refine (ih.exec env s).bind fun flow => ?_
    cases flow with
    | normal => exact ih.execAll env rest
    | _ => exact .refl _

theorem loop_extends (env : Environment) (condition : Expr) (body : Stmt) (increment : Option Expr) :
    Extends (loop (steps + 1) env condition body increment) (loop (steps + 2) env condition body increment) := by
  refine (ih.eval env condition).bind fun _ => .before _ fun _ => .ite _ ?_ (.refl _)
  refine (ih.exec env body).bind fun flow => ?_
  cases flow with
  | «break» | «return» => exact .refl _
  | normal | «continue» =>
    cases increment with
    | none => exact ih.loop env condition body none
    | some increment => exact (ih.eval env increment).bind fun _ => ih.loop env condition body (some increment)

end Steps

theorem extendsAt (steps : Nat) : ExtendsAt steps := by
  induction steps with
  | zero => constructor <;> intros <;> exact .unfinished _
  | succ steps ih =>
    exact ⟨eval_extends ih, evalAll_extends ih, call_extends ih, instantiate_extends ih, invoke_extends ih,
      exec_extends ih, execAll_extends ih, loop_extends ih⟩

/-- A program that ends does so in the same way with any larger number of steps. -/
theorem program_extends {steps more : Nat} (h : steps ≤ more) (statements : List Stmt) :
    Extends (program steps statements) (program more statements) := by
  induction h with
  | refl => exact .refl _
  | @step more _ ih =>
    refine ih.trans ?_
    clear ih
    induction statements with
    | nil => exact .refl _
    | cons s rest ih => exact ((extendsAt more).exec [] s).bind fun _ => ih

end TreeWalk
