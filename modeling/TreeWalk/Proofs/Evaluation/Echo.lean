import Mathlib
import TreeWalk.Proofs.Evaluation.Standard

/-!
# Echoed lines

A run that echoes values does what it does without, and only writes more lines.
-/

namespace TreeWalk

/-! ## Without echoes -/

def Entry.echoed (e : Entry) : Bool := e.origin = .echoed

/-- The transcript without what has been echoed from the given entry on. -/
def Transcript.hushed (t : Transcript) (start : Nat) : Transcript :=
  { t with entries := (t.entries.toList.take start ++ (t.entries.toList.drop start).filter (!·.echoed)).toArray }

/-- The machine as it would be had it not echoed since the given entry. -/
def Machine.hushed (m : Machine) (start : Nat) : Machine := m.talking false (m.output.hushed start)

/-- The sink takes everything, and all that has been echoed since the given entry are lines. -/
structure Transcript.Echoing (t : Transcript) (start : Nat) : Prop where
  unlimited : t.room = none
  later : start ≤ t.entries.size
  lines : ∀ e ∈ t.entries.toList.drop start, e.echoed → ∃ text, e.bytes = Lines.encode (text ++ "\n")

namespace Transcript

variable {t : Transcript} {start : Nat}

theorem toList_write (h : t.room = none) (origin : Origin) (bytes : List UInt8) :
    (t.write origin bytes).2.entries.toList = t.entries.toList ++ [⟨origin, bytes⟩] := by
  simp [write, h]

/-- Nothing has been echoed since the last entry. -/
theorem hushed_size (t : Transcript) : t.hushed t.entries.size = t := by
  rw [hushed, ← Array.length_toList, List.take_length, List.drop_length]
  simp

theorem hushed_write (h : t.Echoing start) {origin : Origin} (horigin : origin ≠ .echoed) (bytes : List UInt8) :
    (t.hushed start).write origin bytes = (true, (t.write origin bytes).2.hushed start) := by
  simp [write, hushed, h.unlimited, List.take_append_of_le_length, List.drop_append_of_le_length, h.later, Entry.echoed,
    horigin]

/-- What is echoed is left out. -/
theorem hushed_write_echoed (h : t.Echoing start) (bytes : List UInt8) :
    (t.write .echoed bytes).2.hushed start = t.hushed start := by
  simp [write, hushed, h.unlimited, List.take_append_of_le_length, List.drop_append_of_le_length, h.later, Entry.echoed]

theorem Echoing.write (h : t.Echoing start) (origin : Origin) (bytes : List UInt8)
    (hline : origin = .echoed → ∃ text, bytes = Lines.encode (text ++ "\n")) : (t.write origin bytes).2.Echoing start := by
  have hlength : start ≤ t.entries.toList.length := h.later
  refine ⟨by simp [Transcript.write, h.unlimited], ?_, fun e he hechoed => ?_⟩
  · have hsize := congrArg List.length (toList_write h.unlimited origin bytes)
    simp only [Array.length_toList, List.length_append, List.length_singleton] at hsize
    rw [hsize]
    exact Nat.le_succ_of_le h.later
  · rw [toList_write h.unlimited, List.drop_append_of_le_length hlength] at he
    rcases List.mem_append.1 he with he | he
    · exact h.lines e he hechoed
    · obtain rfl := List.mem_singleton.1 he
      exact hline (by simpa [Entry.echoed] using hechoed)

end Transcript

/-- The quiet run ends as the other one does, and on the same machine but for the echoes. -/
def Hushes {α : Type} (start : Nat) : (loud quiet : EStateM.Result Stop Machine α) → Prop
  | .ok a m, .ok b m' => b = a ∧ m' = m.hushed start ∧ m.output.Echoing start
  | .error stop m, .error stop' m' => stop' = stop ∧ m' = m.hushed start ∧ m.output.Echoing start
  | _, _ => False

/-! ## In step -/

theorem Transcript.Echoing.print {m : Machine} {start : Nat} (h : m.output.Echoing start) {v : Value} {text : String}
    (htext : m.heap.text? v = some text) {origin : Origin} (horigin : origin ≠ .echoed) :
    Hushes start (Run.writeLine origin v m) (Run.writeLine origin v (m.hushed start)) := by
  have hwrite := Transcript.hushed_write h horigin (Lines.encode (text ++ "\n"))
  rw [Run.writeLine_of_unlimited h.unlimited htext, Run.writeLine_of_unlimited (m := m.hushed start) h.unlimited htext]
  refine ⟨rfl, ?_, h.write origin _ fun heq => absurd heq horigin⟩
  show ({ m with echo := false, output := ((m.output.hushed start).write origin _).2 } : Machine) = _
  rw [hwrite]
  rfl

theorem Hushes.bind {α β : Type} {start : Nat} {x : Recorder α} {f : α → Recorder β} {r r' : Recording}
    (hx : Hushes start (withoutRecords (x r)) (withoutRecords (x r')))
    (hf : ∀ a s s', x r = .ok a s → s'.machine = s.machine.hushed start → s.machine.output.Echoing start →
      Hushes start (withoutRecords (f a s)) (withoutRecords (f a s'))) :
    Hushes start (withoutRecords ((x >>= f) r)) (withoutRecords ((x >>= f) r')) := by
  rw [withoutRecords_bind, withoutRecords_bind]
  cases hxr : x r with
  | error stop s =>
    cases hxr' : x r' with
    | ok b s' =>
      rw [hxr, hxr'] at hx
      exact hx.elim
    | error stop' s' =>
      rw [hxr, hxr'] at hx
      exact hx
  | ok a s =>
    cases hxr' : x r' with
    | error stop' s' =>
      rw [hxr, hxr'] at hx
      exact hx.elim
    | ok b s' =>
      rw [hxr, hxr'] at hx
      obtain ⟨rfl, hsame, hechoing⟩ := hx
      exact hf b s s' hxr hsame hechoing

/-- Without a write in the one run there is none in the other. -/
theorem Quiet.hushes {α : Type} {careful : Prop} {lists start : Nat} {post : Nat → α → Prop} {x : Run α}
    (h : Quiet careful lists post x) {m : Machine} (hm : Given careful lists m.heap) (hechoing : m.output.Echoing start) :
    Hushes start (x m) (x (m.hushed start)) := by
  have houtput := (h.sink hm).1
  have htalking : x (m.hushed start) = talking false (m.output.hushed start) (x m) := (h m hm).1 false _
  rw [htalking]
  cases hxm : x m with
  | ok a m' =>
    rw [hxm] at houtput
    have hsame : m'.output = m.output := houtput
    rw [← hsame]
    exact ⟨rfl, rfl, hsame ▸ hechoing⟩
  | error stop m' =>
    rw [hxm] at houtput
    have hsame : m'.output = m.output := houtput
    rw [← hsame]
    exact ⟨rfl, rfl, hsame ▸ hechoing⟩

/-- One call fewer is in progress. -/
theorem Hushes.shallower {α : Type} {start : Nat} {result result' : EStateM.Result Stop Recording α}
    (h : Hushes start (withoutRecords result) (withoutRecords result')) :
    Hushes start (withoutRecords (shallower result)) (withoutRecords (shallower result')) := by
  cases result with
  | ok a s =>
    cases result' with
    | ok b s' =>
      obtain ⟨hresult, hsame, hechoing⟩ := h
      refine ⟨hresult, ?_, hechoing⟩
      rw [hsame]
      rfl
    | error stop s' => exact h.elim
  | error stop s =>
    cases result' with
    | ok b s' => exact h.elim
    | error stop' s' =>
      obtain ⟨hstop, hsame, hechoing⟩ := h
      refine ⟨hstop, ?_, hechoing⟩
      rw [hsame]
      rfl

/-- What is composed with care goes on in step without echoes. -/
theorem Composed.hushes {careful : Prop} (hc : careful) {α : Type} {lists start : Nat} {post : Nat → α → Prop}
    {x : Recorder α} (h : Composed careful lists post x) (r r' : Recording) (hr : r.machine.heap.Ordered)
    (hsize : r.machine.heap.lists.size = lists) (hechoing : r.machine.output.Echoing start)
    (hsame : r'.machine = r.machine.hushed start) : Hushes start (withoutRecords (x r)) (withoutRecords (x r')) := by
  -- The machines are the same up to the echoes (`hsame`), and that lists are in order gives every value a text. Without
  -- one the loud run would be lost in an echo that the quiet run does not make.
  induction h generalizing r r' with
  | quiet hx =>
    rw [Mirrors.lifted, Mirrors.lifted, hsame]
    exact hx.hushes (fun _ => ⟨hr, hsize⟩) hechoing
  | note record _ _ => exact ⟨rfl, hsame, hechoing⟩
  | bind hx _ ihx ihf =>
    refine (ihx r r' hr hsize hechoing hsame).bind fun a s s' hxr hsame' hechoing' => ?_
    have hsettles := hx.settles hc r hr hsize
    rw [hxr] at hsettles
    exact ihf _ a (fun _ => hsettles.2) s s' hsettles.1 rfl hechoing' hsame'
  | @nested _ _ _ x line _ ih =>
    have hdepth : r'.machine.depth = r.machine.depth := by rw [hsame]; rfl
    rw [Recorder.nested_eq, Recorder.nested_eq, hdepth]
    split
    · exact ⟨rfl, hsame, hechoing⟩
    · refine (ih r.deeper r'.deeper hr hsize hechoing ?_).shallower
      rw [Recording.deeper, hsame]
      rfl
  | @get _ _ _ k hk _ ih =>
    show Hushes start (withoutRecords (k r.machine r)) (withoutRecords (k r'.machine r'))
    rw [hsame, Machine.hushed, hk]
    exact ih r.machine (fun _ => ⟨hr, hsize⟩) r r' hr hsize hechoing hsame
  | @print _ _ v hv _ =>
    obtain ⟨text, htext⟩ := Option.isSome_iff_exists.1 (hr.text?_isSome (hsize ▸ hv hc))
    rw [Mirrors.lifted, Mirrors.lifted, hsame]
    exact hechoing.print htext (by decide)
  | @echo _ _ _ v a hv _ =>
    obtain ⟨text, htext⟩ := Option.isSome_iff_exists.1 (hr.text?_isSome (hsize ▸ hv hc))
    have hquiet : r'.machine.echo = false := by rw [hsame]; rfl
    show Hushes start (withoutRecords ((if r.machine.echo then _ else _ : Recorder _) r))
      (withoutRecords ((if r'.machine.echo then _ else _ : Recorder _) r'))
    -- The quiet run writes nothing here. What the loud run writes is left out again.
    rw [hquiet, if_neg Bool.false_ne_true]
    split
    · have hwrite := Transcript.hushed_write_echoed hechoing (Lines.encode (text ++ "\n"))
      rw [withoutRecords_bind, Recorder.lift, Run.writeLine_of_unlimited hechoing.unlimited htext]
      refine ⟨rfl, ?_, hechoing.write .echoed _ fun _ => ⟨text, rfl⟩⟩
      rw [hsame, Machine.hushed, ← hwrite]
      rfl
    · exact ⟨rfl, hsame, hechoing⟩
  | @prompt _ _ _ y text line hy =>
    have hwrite := Transcript.hushed_write hechoing (by decide : Origin.prompt ≠ .echoed) (Lines.encode text)
    have haccepted := Transcript.writeText_of_unlimited hechoing.unlimited .prompt text
    have hhushed : (r.machine.hushed start).output.writeText .prompt text =
        (true, (r.machine.output.writeText .prompt text).2.hushed start) := hwrite
    rw [Mirrors.lifted, Mirrors.lifted, hsame, Run.write_bind, Run.write_bind, haccepted, hhushed, if_pos rfl]
    refine hy.hushes ?_ (hechoing.write .prompt _ fun heq => by cases heq)
    exact fun _ => ⟨hr, hsize⟩

/-! ## Programs -/

theorem Hushes.behind {α : Type} {start : Nat} {loud quiet : EStateM.Result Stop Machine α} (h : Hushes start loud quiet) :
    stopOf quiet = stopOf loud ∧ stateBehind quiet = (stateBehind loud).hushed start ∧
      (stateBehind loud).output.Echoing start := by
  cases loud with
  | ok a m =>
    cases quiet with
    | ok b m' => exact ⟨rfl, h.2⟩
    | error stop m' => exact h.elim
  | error stop m =>
    cases quiet with
    | ok b m' => exact h.elim
    | error stop' m' => exact ⟨congrArg some h.1, h.2⟩

/-- A run that echoes values and one that does not, both from the same machine. -/
structure EchoOnlyAdds (m : Machine) (loud quiet : EStateM.Result Stop Machine Unit) : Prop where
  stop : stopOf quiet = stopOf loud
  /-- Globals, heap and all else but the output are the same in the end. -/
  state : stateBehind quiet = { stateBehind loud with echo := false, output := (stateBehind quiet).output }
  written : ∃ entries,
    (stateBehind loud).output.entries.toList = m.output.entries.toList ++ entries ∧
      (stateBehind quiet).output.entries.toList = m.output.entries.toList ++ entries.filter (!·.echoed) ∧
      ∀ e ∈ entries, e.echoed → ∃ text, e.bytes = Lines.encode (text ++ "\n")

/-- On a machine to which a host has added no functions, and with a sink that takes everything, a program does the
same with echoes and without, and without them writes what it writes with them except for the echoed lines. -/
theorem echo_only_adds {m : Machine} (h : m.Standard) (hroom : m.output.room = none) (steps : Nat)
    (program : List Stmt) :
    EchoOnlyAdds m (Evaluation.program steps program { m with echo := true })
      (Evaluation.program steps program { m with echo := false }) := by
  have hnone : m.output.entries.toList.drop m.output.entries.size = [] := List.drop_length
  have hechoing : m.output.Echoing m.output.entries.size := ⟨hroom, Nat.le_refl _, by simp [hnone]⟩
  have hsame : { m with echo := false } = ({ m with echo := true } : Machine).hushed m.output.entries.size := by
    simp only [Machine.hushed, Machine.talking, Transcript.hushed_size]
  have hhushes := (program_composed True steps m.heap.lists.size program).hushes trivial ⟨{ m with echo := true }, []⟩
    ⟨{ m with echo := false }, []⟩ h.ordered rfl hechoing hsame
  have hgrows := ((program_composed False steps 0 program).grows id ⟨{ m with echo := true }, []⟩).written
  rw [← Mirrors.machine (Recorder.program_mirrors steps program)] at hgrows
  rw [Recorder.program_mirrors, Recorder.program_mirrors] at hhushes
  obtain ⟨entries, hentries⟩ := hgrows
  obtain ⟨hstop, hstate, hlines⟩ := hhushes.behind
  refine ⟨hstop, ?_, entries, hentries.symm, ?_, fun e he => hlines.lines e ?_⟩
  · rw [hstate]
    rfl
  · rw [hstate, Machine.hushed, Machine.talking, Transcript.hushed, ← hentries]
    simp
  · rw [← hentries]
    simpa using he

/-- `print fun() { true; }();` -/
def speakingCall : List Stmt := [.print 1 (.call (.lambda (.mk [] [.expression (.literal (.bool true))])) 1 [])]

/-- A value is echoed inside a function that is called in the middle of another statement. -/
theorem echo_only_adds_in_call :
    (Machine.initial false none fun _ => 0).Standard ∧ (Machine.initial false none fun _ => 0).output.room = none ∧
      EchoOnlyAdds (Machine.initial false none fun _ => 0)
        (Evaluation.program 9 speakingCall { Machine.initial false none fun _ => 0 with echo := true })
        (Evaluation.program 9 speakingCall { Machine.initial false none fun _ => 0 with echo := false }) ∧
      (stateBehind (Evaluation.program 9 speakingCall
        { Machine.initial false none fun _ => 0 with echo := true })).output.entries.toList =
          [⟨.echoed, Lines.encode "true\n"⟩, ⟨.printed, Lines.encode "nil\n"⟩] := by
  have hinitial : (Machine.initial false none fun _ => 0).Standard := .initial false none fun _ => 0
  exact ⟨hinitial, rfl, echo_only_adds hinitial rfl 9 speakingCall, by cbv⟩

end TreeWalk
