import TreeWalk.Evaluation
import TreeWalk.Proofs.Evaluation.Level

/-!
# Laps of a loop

A loop with an increment executes its body and evaluates the increment in turns. `Laps` says of a run of the loop which
executions and evaluations these are, and how each of them ends.
-/

namespace TreeWalk

open Evaluation

/-- Half a lap of a loop. -/
inductive Lap where
  | body (ending : EStateM.Result Stop Machine Flow)
  | increment (ending : EStateM.Result Stop Machine Value)

namespace Lap

/-- How a loop ends whose body ends in this way, unless it goes on. -/
def exit? : EStateM.Result Stop Machine Flow → Option (EStateM.Result Stop Machine Flow)
  | .error stop m => some (.error stop m)
  | .ok .break m => some (.ok .normal m)
  | .ok (.return value) m => some (.ok (.return value) m)
  | .ok .normal _ | .ok .continue _ => none

/-- The body has come to its end, or to a `continue`. -/
def GoesOn (ending : EStateM.Result Stop Machine Flow) : Prop := ∃ m, ending = .ok .normal m ∨ ending = .ok .continue m

theorem exit?_eq_none_iff {ending : EStateM.Result Stop Machine Flow} : exit? ending = none ↔ GoesOn ending := by
  constructor
  · intro h
    cases ending with
    | error stop m => cases h
    | ok flow m =>
      cases flow with
      | normal => exact ⟨m, .inl rfl⟩
      | «continue» => exact ⟨m, .inr rfl⟩
      | «break» | «return» => cases h
  · rintro ⟨m, rfl | rfl⟩ <;> rfl

/-- The increment is evaluated once behind each execution of the body that goes on, and never otherwise. Behind other
executions of the body comes nothing. -/
structure Alternating (laps : List Lap) : Prop where
  once : ∀ {earlier ending later}, laps = earlier ++ .body ending :: later → GoesOn ending →
    ∃ value rest, later = .increment value :: rest
  only : ∀ {earlier value later}, laps = earlier ++ .increment value :: later →
    ∃ before ending, earlier = before ++ [.body ending] ∧ GoesOn ending
  last : ∀ {earlier ending later}, laps = earlier ++ .body ending :: later → ¬ GoesOn ending → later = []

namespace Alternating

theorem nil : Alternating [] where
  once h := absurd h.symm (List.append_ne_nil_of_right_ne_nil _ (List.cons_ne_nil _ _))
  only h := absurd h.symm (List.append_ne_nil_of_right_ne_nil _ (List.cons_ne_nil _ _))
  last h := absurd h.symm (List.append_ne_nil_of_right_ne_nil _ (List.cons_ne_nil _ _))

theorem leave {ending : EStateM.Result Stop Machine Flow} (h : ¬ GoesOn ending) : Alternating [.body ending] where
  once {earlier ending' later} hsplit hends := by
    rcases earlier with _ | ⟨_, _ | ⟨_, earlier⟩⟩ <;> cases hsplit
    exact absurd hends h
  only {earlier value later} hsplit := by
    rcases earlier with _ | ⟨_, _ | ⟨_, earlier⟩⟩ <;> cases hsplit
  last {earlier ending' later} hsplit _ := by
    rcases earlier with _ | ⟨_, _ | ⟨_, earlier⟩⟩ <;> cases hsplit
    rfl

/-- One lap more in front. -/
theorem lap {ending : EStateM.Result Stop Machine Flow} (h : GoesOn ending) (value : EStateM.Result Stop Machine Value)
    {laps : List Lap} (hlaps : Alternating laps) : Alternating (.body ending :: .increment value :: laps) where
  once {earlier ending' later} hsplit hends := by
    rcases earlier with _ | ⟨_, _ | ⟨_, earlier⟩⟩
    · cases hsplit
      exact ⟨value, laps, rfl⟩
    · cases hsplit
    · exact hlaps.once (List.cons.inj (List.cons.inj hsplit).2).2 hends
  only {earlier value' later} hsplit := by
    rcases earlier with _ | ⟨first, _ | ⟨second, earlier⟩⟩
    · cases hsplit
    · cases hsplit
      exact ⟨[], ending, rfl, h⟩
    · obtain ⟨before, ending', rfl, hends⟩ := hlaps.only (List.cons.inj (List.cons.inj hsplit).2).2
      exact ⟨first :: second :: before, ending', rfl, hends⟩
  last {earlier ending' later} hsplit hends := by
    rcases earlier with _ | ⟨_, _ | ⟨_, earlier⟩⟩
    · cases hsplit
      exact absurd h hends
    · cases hsplit
    · exact hlaps.last (List.cons.inj (List.cons.inj hsplit).2).2 hends

end Alternating

end Lap

/-- In so many steps a loop with an increment comes from the machine to the result, and does this on the way. -/
inductive Laps (env : Environment) (condition : Expr) (body : Stmt) (increment : Expr) :
    Nat → Machine → List Lap → EStateM.Result Stop Machine Flow → Prop where
  | spent (m : Machine) : Laps env condition body increment 0 m [] (.error .unfinished m)
  | undecided {steps : Nat} {m m' : Machine} {stop : Stop} (hcondition : eval steps env condition m = .error stop m') :
    Laps env condition body increment (steps + 1) m [] (.error stop m')
  | ended {steps : Nat} {m m' : Machine} {v : Value} (hcondition : eval steps env condition m = .ok v m')
    (hv : m'.heap.truthy v = false) : Laps env condition body increment (steps + 1) m [] (.ok .normal m')
  | leave {steps : Nat} {m m' : Machine} {v : Value} {result : EStateM.Result Stop Machine Flow}
    (hcondition : eval steps env condition m = .ok v m') (hv : m'.heap.truthy v = true)
    (hbody : Lap.exit? (exec steps env body m') = some result) :
    Laps env condition body increment (steps + 1) m [.body (exec steps env body m')] result
  | stop {steps : Nat} {m m' n n' : Machine} {v : Value} {flow : Flow} {stop : Stop}
    (hcondition : eval steps env condition m = .ok v m') (hv : m'.heap.truthy v = true)
    (hbody : exec steps env body m' = .ok flow n) (hflow : Lap.exit? (.ok flow n) = none)
    (hincrement : eval steps env increment n = .error stop n') :
    Laps env condition body increment (steps + 1) m [.body (.ok flow n), .increment (.error stop n')] (.error stop n')
  | lap {steps : Nat} {m m' n n' : Machine} {v u : Value} {flow : Flow} {laps : List Lap}
    {result : EStateM.Result Stop Machine Flow} (hcondition : eval steps env condition m = .ok v m')
    (hv : m'.heap.truthy v = true) (hbody : exec steps env body m' = .ok flow n) (hflow : Lap.exit? (.ok flow n) = none)
    (hincrement : eval steps env increment n = .ok u n') (h : Laps env condition body increment steps n' laps result) :
    Laps env condition body increment (steps + 1) m (.body (.ok flow n) :: .increment (.ok u n') :: laps) result

section Laps

variable {env : Environment} {condition : Expr} {body : Stmt} {increment : Expr}

theorem Laps.alternating {steps : Nat} {m : Machine} {laps : List Lap} {result : EStateM.Result Stop Machine Flow}
    (h : Laps env condition body increment steps m laps result) : Lap.Alternating laps := by
  induction h with
  | spent | undecided | ended => exact .nil
  | leave _ _ hbody =>
    refine .leave fun hgoes => ?_
    rw [Lap.exit?_eq_none_iff.2 hgoes] at hbody
    cases hbody
  | stop _ _ _ hflow _ => exact .lap (Lap.exit?_eq_none_iff.1 hflow) _ .nil
  | lap _ _ _ hflow _ _ ih => exact .lap (Lap.exit?_eq_none_iff.1 hflow) _ ih

/-- Behind a condition that holds the body is executed. -/
theorem loop_of_truthy {steps : Nat} {m m' : Machine} {v : Value} (hcondition : eval steps env condition m = .ok v m')
    (hv : m'.heap.truthy v = true) : loop (steps + 1) env condition body (some increment) m =
      (do
        match ← exec steps env body with
        | .break => pure .normal
        | .return value => pure (.return value)
        | _ => do
          let _ ← eval steps env increment
          loop steps env condition body (some increment) : Run Flow) m' := by
  refine (bind_ok hcondition).trans ((bind_ok (x := Run.look _) rfl).trans ?_)
  rw [hv]
  rfl

/-- Behind a body that goes on the increment is evaluated, and then the loop begins again. -/
theorem loop_of_goesOn {steps : Nat} {m m' n : Machine} {v : Value} {flow : Flow}
    (hcondition : eval steps env condition m = .ok v m') (hv : m'.heap.truthy v = true)
    (hbody : exec steps env body m' = .ok flow n) (hflow : Lap.exit? (.ok flow n) = none) :
    loop (steps + 1) env condition body (some increment) m =
      (eval steps env increment >>= fun _ => loop steps env condition body (some increment)) n := by
  rw [loop_of_truthy hcondition hv, bind_ok hbody]
  cases flow with
  | normal | «continue» => rfl
  | «break» | «return» => cases hflow

/-- Behind a body that does not go on the loop ends. -/
theorem loop_of_exit {steps : Nat} {m m' : Machine} {v : Value} {result : EStateM.Result Stop Machine Flow}
    (hcondition : eval steps env condition m = .ok v m') (hv : m'.heap.truthy v = true)
    (hbody : Lap.exit? (exec steps env body m') = some result) :
    loop (steps + 1) env condition body (some increment) m = result := by
  rw [loop_of_truthy hcondition hv]
  cases hexec : exec steps env body m' with
  | error stop n =>
    rw [hexec] at hbody
    exact (bind_error hexec).trans (Option.some.inj hbody)
  | ok flow n =>
    rw [hexec] at hbody
    rw [bind_ok hexec]
    cases flow with
    | normal | «continue» => cases hbody
    | «break» | «return» => exact Option.some.inj hbody

/-- Every run of a loop consists of laps. -/
theorem laps_loop (env : Environment) (condition : Expr) (body : Stmt) (increment : Expr) (steps : Nat) (m : Machine) :
    ∃ laps, Laps env condition body increment steps m laps (loop steps env condition body (some increment) m) := by
  induction steps generalizing m with
  | zero => exact ⟨[], .spent m⟩
  | succ steps ih =>
    cases hcondition : eval steps env condition m with
    | error stop m' =>
      have hloop : loop (steps + 1) env condition body (some increment) m = .error stop m' := bind_error hcondition
      exact ⟨[], hloop ▸ .undecided hcondition⟩
    | ok v m' =>
      cases hv : m'.heap.truthy v with
      | false =>
        have hloop : loop (steps + 1) env condition body (some increment) m = .ok .normal m' := by
          refine (bind_ok hcondition).trans ((bind_ok (x := Run.look _) rfl).trans ?_)
          rw [hv]
          rfl
        exact ⟨[], hloop ▸ .ended hcondition hv⟩
      | true =>
        cases hexit : Lap.exit? (exec steps env body m') with
        | some result =>
          rw [loop_of_exit hcondition hv hexit]
          exact ⟨_, .leave hcondition hv hexit⟩
        | none =>
          cases hbody : exec steps env body m' with
          | error stop n =>
            rw [hbody] at hexit
            cases hexit
          | ok flow n =>
            rw [hbody] at hexit
            rw [loop_of_goesOn hcondition hv hbody hexit]
            cases hincrement : eval steps env increment n with
            | error stop n' =>
              rw [bind_error hincrement]
              exact ⟨_, .stop hcondition hv hbody hexit hincrement⟩
            | ok u n' =>
              obtain ⟨laps, hlaps⟩ := ih n'
              rw [bind_ok hincrement]
              exact ⟨_, .lap hcondition hv hbody hexit hincrement hlaps⟩

/-- A run has these laps and no others. -/
theorem Laps.unique {steps : Nat} {m : Machine} {laps laps' : List Lap} {result result' : EStateM.Result Stop Machine Flow}
    (h : Laps env condition body increment steps m laps result) (h' : Laps env condition body increment steps m laps' result') :
    laps' = laps ∧ result' = result := by
  induction h generalizing laps' with
  | spent | undecided | ended | leave | stop => cases h' <;> simp_all
  | lap hcondition _ hbody _ hincrement _ ih =>
    cases h' with
    | lap hcondition' _ hbody' _ hincrement' hrest =>
      cases hcondition.symm.trans hcondition'
      cases hbody.symm.trans hbody'
      cases hincrement.symm.trans hincrement'
      obtain ⟨rfl, rfl⟩ := ih hrest
      exact ⟨rfl, rfl⟩
    | _ => simp_all

end Laps

end TreeWalk
