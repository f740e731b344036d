import Mathlib
import TreeWalk.Proofs.Evaluation.Composition
import TreeWalk.Proofs.Session.Pruning

/-!
# Runs and what has been written before

What a session has written and reported does not matter to a program that runs in it. The same is done, written
and reported behind anything else. A sink that accepts everything goes on to do so.
-/

namespace TreeWalk

/-! ## Sinks that accept everything -/

theorem Transcript.room_writeText {t : Transcript} (h : t.room = none) (origin : Origin) (text : String) :
    (t.writeText origin text).2.room = none := by
  simp [writeText, write, h]

theorem Run.room_writeLine {m : Machine} (h : m.output.room = none) (origin : Origin) (v : Value) :
    (stateBehind (writeLine origin v m)).output.room = none := by
  cases hline : lineOf? m v with
  | none => rw [writeLine_of_endless hline]; exact h
  | some line =>
    rw [writeLine_of_line hline, if_pos (Transcript.writeText_of_unlimited h origin line)]
    exact Transcript.room_writeText h origin line

theorem Recorder.room_bind {α β : Type} {x : Recorder α} {f : α → Recorder β} {r : Recording}
    (hx : (stateBehind (x r)).machine.output.room = none)
    (hf : ∀ a (r' : Recording), r'.machine.output.room = none → (stateBehind (f a r')).machine.output.room = none) :
    (stateBehind ((x >>= f) r)).machine.output.room = none :=
  stateBehind_bind (P := fun r' : Recording => r'.machine.output.room = none) hx fun a r' _ hr' => hf a r' hr'

/-- No part of a run limits the sink. -/
theorem Composed.unlimited {careful : Prop} (hc : ¬careful) {α : Type} {lists : Nat} {post : Nat → α → Prop}
    {x : Recorder α} (h : Composed careful lists post x) (r : Recording) (hr : r.machine.output.room = none) :
    (stateBehind (x r)).machine.output.room = none := by
  have hlift {β : Type} {y : Run β} {r : Recording} (hy : (stateBehind (y r.machine)).output.room = none) :
      (stateBehind (Recorder.lift y r)).machine.output.room = none := by
    unfold Recorder.lift
    cases hyr : y r.machine <;> rw [hyr] at hy <;> exact hy
  induction h generalizing r with
  | quiet hx => exact hlift (by rw [(hx.sink (m := r.machine) fun h => absurd h hc).1]; exact hr)
  | note record hrecord _ => exact hr
  | bind _ _ ihx ihf => exact Recorder.room_bind (ihx r hr) fun a r' => ihf 0 a (fun h => absurd h hc) r'
  | @nested _ _ _ x line _ ih =>
    rw [Recorder.nested_eq]
    split
    · exact hr
    · have hbody := ih r.deeper hr
      cases hxr : x r.deeper <;> rw [hxr] at hbody <;> exact hbody
  | get _ _ ih => exact ih r.machine (fun h => absurd h hc) r hr
  | print _ _ => exact hlift (Run.room_writeLine hr .printed _)
  | @echo _ _ _ v a _ _ =>
    show (stateBehind ((if r.machine.echo then _ else _ : Recorder _) r)).machine.output.room = none
    split
    · exact Recorder.room_bind (hlift (Run.room_writeLine hr .echoed v)) fun _ _ hr' => hr'
    · exact hr
  | @prompt _ _ _ y text line hy =>
    have hroom := Transcript.room_writeText hr .prompt text
    refine hlift ?_
    rw [Run.write_bind]
    split
    · rw [(hy.sink fun h => absurd h hc).1]
      exact hroom
    · exact hroom

theorem Evaluation.room_program {m : Machine} (h : m.output.room = none) (steps : Nat) (program : List Stmt) :
    (stateBehind (Evaluation.program steps program m)).output.room = none := by
  rw [(Recorder.program_mirrors steps program).machine ⟨m, []⟩]
  exact (program_composed False steps 0 program).unlimited id ⟨m, []⟩ h

/-! ## Labels that stay the same -/

theorem Bindings.map_eq_self {α : Type} {f : α → α} (h : ∀ a, f a = a) (b : Bindings α) : b.map f = b := by
  simp [map, h]

theorem Closure.relabel_same (c : Closure) : c.relabel .same = c := by
  rw [relabel, Function.relabel_same]

theorem ClassBody.relabel_same (c : ClassBody) : c.relabel .same = c := by
  rw [relabel, Bindings.map_eq_self Closure.relabel_same]

theorem Class.relabel_same (c : Class) : c.relabel .same = c := by
  rw [relabel, ClassBody.relabel_same, funext ClassBody.relabel_same, List.map_id']

theorem Value.relabel_same : (v : Value) → v.relabel .same = v
  | .nil | .bool _ | .number _ | .text _ | .list _ | .native _ _ => rfl
  | .constant identity result => congrArg (Value.constant identity) result.relabel_same
  | .function identity closure => congrArg (Value.function identity) closure.relabel_same
  | .class c => congrArg Value.class c.relabel_same
  | .object id c => congrArg (Value.object id) c.relabel_same

theorem Heap.relabel_same (h : Heap) : h.relabel .same = h := by
  have hbindings : Bindings.map (Value.relabel .same) = fun b => b := funext (Bindings.map_eq_self Value.relabel_same)
  rw [relabel, hbindings, funext Value.relabel_same]
  simp

theorem Evaluation.program_behind (steps : Nat) (program : List Stmt) (entries : Array Entry) (m : Machine) :
    Evaluation.program steps program { m with output := m.output.behind entries } =
      match Evaluation.program steps program m with
      | .ok a m' => .ok a { m' with output := m'.output.behind entries }
      | .error stop m' => .error stop { m' with output := m'.output.behind entries } := by
  let τ : Transfer := ⟨.same, m.distances, m.distances, fun _ => rfl, entries⟩
  obtain ⟨hrun, htable⟩ := program_transfers τ steps program m rfl
  have hprogram : program.map (Stmt.relabel .same) = program := by
    rw [← Stmt.relabelAll_eq, Stmt.relabelAll_same]
  have hmachine (m' : Machine) (h : m'.distances = m.distances) :
      τ.machine m' = { m' with output := m'.output.behind entries } := by
    rw [Transfer.machine, Heap.relabel_same]
    show ({ m' with distances := m.distances, output := _ } : Machine) = _
    rw [← h]
  rw [hprogram, hmachine m rfl] at hrun
  rw [hrun]
  cases hresult : Evaluation.program steps program m with
  | ok _ m' =>
    rw [hresult] at htable
    exact congrArg _ (hmachine m' htable)
  | error stop m' =>
    rw [hresult] at htable
    rw [Transfer.outcome, hmachine m' htable]
    cases stop with
    | fault fault => cases fault <;> rfl
    | _ => rfl

namespace Session

/-! ## Turns behind other entries -/

/-- The session with other entries in front of all that has been written and reported. -/
def onto (written reported : Array Entry) (s : Session) : Session :=
  { s with
    machine := { s.machine with output := s.machine.output.behind written }
    reports := s.reports.behind reported }

/-- The result with another session behind it. -/
def mapBehind {α : Type} (f : Session → Session) : EStateM.Result Halt Session α → EStateM.Result Halt Session α
  | .ok a s => .ok a (f s)
  | .error halt s => .error halt (f s)

theorem stateBehind_mapBehind {α : Type} (f : Session → Session) (result : EStateM.Result Halt Session α) :
    stateBehind (mapBehind f result) = f (stateBehind result) := by cases result <;> rfl

/-- A turn that does the same behind other entries. -/
def Carries {α : Type} (x : Turn α) : Prop :=
  ∀ written reported s, x (s.onto written reported) = mapBehind (onto written reported) (x s)

namespace Carries

variable {α β : Type} {x : Turn α}

theorem pure (a : α) : Carries (Pure.pure a) := fun _ _ _ => rfl

theorem bind {f : α → Turn β} (hx : Carries x) (hf : ∀ a, Carries (f a)) : Carries (x >>= f) := by
  intro written reported s
  rw [bind_eq_match, bind_eq_match, hx]
  cases x s with
  | ok a s' => exact hf a written reported s'
  | error halt s' => rfl

theorem note (events : List Event) : Carries (Session.note events) := fun _ _ _ => rfl

theorem parse (tokens : List Token) : Carries (Session.parse tokens) := fun _ _ _ => rfl

theorem resolve (program : List Stmt) : Carries (Session.resolve program) := fun _ _ _ => rfl

theorem addDistances (r : Resolution) : Carries (Session.addDistances r) := fun _ _ _ => rfl

theorem report (text : String) : Carries (Session.report text) := by
  intro written reported s
  unfold Session.report Transcript.writeText
  rw [onto, Transcript.write_behind]
  dsimp only
  split <;> rfl

theorem reportAll (stage : String) (messages : List String) : Carries (Session.reportAll stage messages) := by
  induction messages with
  | nil => exact .pure ()
  | cons message rest ih => exact (report _).bind fun _ => ih

theorem execute (steps : Nat) (program : List Stmt) : Carries (Session.execute steps program) := by
  intro written reported s
  unfold Session.execute
  rw [onto]
  dsimp only
  rw [Evaluation.program_behind]
  cases Evaluation.program steps program s.machine with
  | ok _ m => rfl
  | error stop m => cases stop <;> rfl

end Carries

/-- A stage that reports errors ends the turn. -/
theorem carries_check {passes : Bool} {stage : String} {messages : List String} {error : SessionError}
    {next : Unit → Turn Unit} (h : Carries (next ())) :
    Carries (if (!passes) = true then reportAll stage messages >>= fun _ => fail error >>= next
      else next () : Turn Unit) := by
  cases passes with
  | true => exact h
  | false => exact (Carries.reportAll stage messages).bind fun _ => fun _ _ _ => rfl

theorem run_carries (steps : Nat) (source : String) : Carries (run steps source) := by
  refine (Carries.note _).bind fun _ => carries_check ?_
  refine (Carries.parse _).bind fun parsed => (Carries.note _).bind fun _ => carries_check ?_
  refine (Carries.resolve _).bind fun resolution => (Carries.note _).bind fun _ => carries_check ?_
  exact (Carries.addDistances resolution).bind fun _ => .execute steps parsed.statements

/-! ## Sessions with other sinks -/

/-- The session as if all this had been written and reported in it, and nothing else. -/
def telling (s : Session) (written reported : List Entry) : Session :=
  { s with
    machine := { s.machine with output := { s.machine.output with entries := written.toArray } }
    reports := { s.reports with entries := reported.toArray } }

theorem telling_eq_onto (s : Session) (written reported : List Entry) :
    s.telling written reported = (s.telling [] []).onto written.toArray reported.toArray := by
  simp [telling, onto, Transcript.behind]

theorem telling_self (s : Session) : s.telling s.machine.output.entries.toList s.reports.entries.toList = s := rfl

/-- A run does the same whatever the sinks have got. -/
theorem run_telling (s : Session) (steps : Nat) (source : String) (written reported : List Entry) :
    run steps source (s.telling written reported) =
      mapBehind (·.telling (written ++ (s.account (.run steps source)).written)
        (reported ++ (s.account (.run steps source)).reported)) (run steps source s) := by
  have hself : run steps source s =
      mapBehind (onto s.machine.output.entries s.reports.entries) (run steps source (s.telling [] [])) := by
    conv_lhs => rw [← s.telling_self, telling_eq_onto, run_carries]
  have hwritten : (s.account (.run steps source)).written =
      (stateBehind (run steps source (s.telling [] []))).machine.output.entries.toList := by
    show ((stateBehind (run steps source s)).machine.output.entries.toList.drop _) = _
    rw [hself, stateBehind_mapBehind]
    simp [onto, Transcript.behind]
  have hreported : (s.account (.run steps source)).reported =
      (stateBehind (run steps source (s.telling [] []))).reports.entries.toList := by
    show ((stateBehind (run steps source s)).reports.entries.toList.drop _) = _
    rw [hself, stateBehind_mapBehind]
    simp [onto, Transcript.behind]
  rw [hself, hwritten, hreported, telling_eq_onto, run_carries]
  cases run steps source (s.telling [] []) <;> simp [mapBehind, stateBehind, telling, onto, Transcript.behind]

/-- Sinks that accept everything go on to do so. -/
theorem room_after {s : Session} (hout : s.machine.output.room = none) (hreports : s.reports.room = none) (steps : Nat)
    (source : String) :
    (s.after steps source).machine.output.room = none ∧ (s.after steps source).reports.room = none := by
  cases hrejection : s.rejection? source with
  | none =>
    obtain ⟨launch, hlaunch⟩ := Option.isSome_iff_exists.1 (rejection?_eq_none_iff.1 hrejection)
    rw [machine_after_launch hlaunch, after, run_launch hlaunch]
    refine ⟨Evaluation.room_program ?_ steps launch.program, ?_⟩
    · rw [machine_launch hlaunch]
      exact hout
    · rw [(execute_state (s.starting source launch) steps launch.program).2.2]
      exact hreports
  | some e =>
    obtain ⟨s', hrun, hs⟩ := (run_rejected hrejection steps).resolve_right fun hlimited => hlimited.1 hreports
    rw [after, hrun]
    refine ⟨?_, hs.unlimited hreports⟩
    show s'.machine.output.room = none
    rw [hs.machine]
    exact hout

end Session

end TreeWalk
