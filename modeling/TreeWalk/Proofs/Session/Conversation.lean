import TreeWalk.Proofs.Session.History
import TreeWalk.Proofs.Session.Sinks
import TreeWalk.Proofs.Text.Lines

/-!
# Conversations

A conversation is the sequence of the runs of its lines, with a prompt in front of each and of the end. A line that
fails is reported and has no other effect on those behind it than the run itself has. So what is true of all sessions
to which runs lead is true of those behind conversations.
-/

namespace TreeWalk

/-! ## Runs that come back -/

/-- What has been done has come to an end, with an error or without one. -/
def Account.Returns (a : Account) : Prop := a.halt ≠ some .unfinished ∧ ∀ crash, a.halt ≠ some (.crashed crash)

/-- What a conversation writes for a line. -/
def Account.exchanged (a : Account) : List Entry := ⟨.prompt, Lines.encode "> "⟩ :: a.written

/-- What a conversation reports of a line: what its run reports, and the error with which a program has ended. -/
def Account.announced (a : Account) : List Entry :=
  a.reported ++
    match a.halt with
    | some (.error (.runtime fault)) => [⟨.report, Lines.encode ("Runtime error: " ++ fault.message ++ "\n")⟩]
    | _ => []

namespace Session

/-- The runs of a conversation, one for each line. -/
def runsOf (steps : Nat) (text : String) : List Act := (Lines.ofText text).map fun line => .run steps (trimmed line)

theorem halt_run (s : Session) (steps : Nat) (source : String) :
    (s.account (.run steps source)).halt = haltOf (run steps source s) := rfl

/-- A run that comes back has passed, or a stage has found errors, or the program has ended with an error. -/
theorem halt_of_returns {s : Session} (hreports : s.reports.room = none) {steps : Nat} {source : String}
    (h : (s.account (.run steps source)).Returns) :
    (s.account (.run steps source)).halt = none ∨
      (∃ e, (s.account (.run steps source)).halt = some (.error e) ∧ e.diagnosed?.isSome) ∨
      ∃ fault, (s.account (.run steps source)).halt = some (.error (.runtime fault)) := by
  cases hrejection : s.rejection? source with
  | some e => exact .inr (.inl (account_rejected hrejection hreports steps))
  | none =>
    obtain ⟨launch, hlaunch⟩ := Option.isSome_iff_exists.1 (rejection?_eq_none_iff.1 hrejection)
    have hhalt : (s.account (.run steps source)).halt =
        haltOfProgram (Evaluation.program steps launch.program (s.starting source launch).machine) := by
      show haltOf (run steps source s) = _
      rw [run_launch hlaunch, haltOf_execute]
    unfold Account.Returns at h
    rw [hhalt] at h ⊢
    cases hrun : Evaluation.program steps launch.program (s.starting source launch).machine with
    | ok _ m => exact .inl rfl
    | error stop m =>
      rw [hrun] at h
      cases stop with
      | fault fault => exact .inr (.inr ⟨fault, rfl⟩)
      | crash crash => exact absurd rfl (h.2 crash)
      | unfinished => exact absurd rfl h.1

/-- How a conversation goes on behind the run of a line. -/
def settle : EStateM.Result Halt Session Unit → EStateM.Result Halt Session Unit
  | .error (.error (.runtime fault)) s => report ("Runtime error: " ++ fault.message ++ "\n") s
  | .error (.error (.lexical _)) s => .ok () s
  | .error (.error (.syntactic _)) s => .ok () s
  | .error (.error (.scoping _)) s => .ok () s
  | result => result

theorem answer_eq {line : List UInt8} {text : String} (h : Lines.decode? line = some text) (steps : Nat) (s : Session) :
    answer steps line s = settle (run steps (trimmed text) s) := by
  rw [answer, h]
  dsimp only
  generalize run steps (trimmed text) s = result
  rfl

/-! ## Sessions behind conversations -/

theorem interlude_report (text : String) (s : Session) : s.Interlude (stateBehind (report text s)) := by
  unfold report
  dsimp only
  split <;> exact ⟨rfl, rfl, rfl, Nat.le_refl _⟩

theorem interlude_prompt (s : Session) : s.Interlude (stateBehind (prompt s)) := by
  unfold prompt
  dsimp only
  split <;> exact ⟨rfl, rfl, rfl, Nat.le_refl _⟩

theorem interlude_settle (result : EStateM.Result Halt Session Unit) :
    (stateBehind result).Interlude (stateBehind (settle result)) := by
  unfold settle
  split
  · exact interlude_report _ _
  · exact .refl _
  · exact .refl _
  · exact .refl _
  · exact .refl _

/-- What runs keep and what hosts keep, a conversation keeps, however it ends. -/
theorem converse_keeps {P : Session → Prop} (hrun : ∀ s steps source, P s → P (s.after steps source))
    (hhost : ∀ s s', s.Interlude s' → P s → P s') {s : Session} (h : P s) (steps : Nat) (input : List UInt8) :
    P (stateBehind (converse steps input s)) := by
  have hprompt {s : Session} (h : P s) : P (stateBehind (prompt s)) := hhost _ _ (interlude_prompt s) h
  have hanswer {s : Session} (h : P s) (line : List UInt8) : P (stateBehind (answer steps line s)) := by
    cases hline : Lines.decode? line with
    | none =>
      rw [answer, hline]
      exact h
    | some text =>
      rw [answer_eq hline]
      exact hhost _ _ (interlude_settle _) (hrun s steps _ h)
  unfold converse
  induction Lines.all input generalizing s with
  | nil => exact stateBehind_bind (hprompt h) fun _ s' _ h' => hhost _ _ (interlude_report _ s') h'
  | cons line rest ih =>
    refine stateBehind_bind (hprompt h) fun _ s' _ h' => ?_
    exact stateBehind_bind (hanswer h' line) fun _ s'' _ h'' => ih h''

/-- Whatever is entered, runs lead to the session behind a conversation. -/
theorem Reached.converse {s : Session} {programs : List Loaded} (h : Reached s programs) (steps : Nat)
    (input : List UInt8) : ∃ started, Reached (stateBehind (Session.converse steps input s)) (started ++ programs) := by
  refine converse_keeps (P := fun s' => ∃ started, Reached s' (started ++ programs)) ?_ ?_ ⟨[], h⟩ steps input
  · rintro s' steps source ⟨started, h'⟩
    refine ⟨s'.started source ++ started, ?_⟩
    rw [List.append_assoc]
    exact h'.run steps source
  · rintro s' s'' hhost ⟨started, h'⟩
    exact ⟨started, h'.host hhost⟩

/-- The events of a conversation come on top of those before it. -/
theorem Logged.converse {s : Session} {records : List Record} (h : Logged s records) (steps : Nat)
    (input : List UInt8) : ∃ added, Logged (stateBehind (Session.converse steps input s)) (added ++ records) := by
  refine converse_keeps (P := fun s' => ∃ added, Logged s' (added ++ records)) ?_ ?_ ⟨[], h⟩ steps input
  · rintro s' steps source ⟨added, h'⟩
    refine ⟨(s'.recording steps source).records ++ added, ?_⟩
    rw [List.append_assoc]
    exact h'.run steps source
  · rintro s' s'' hhost ⟨added, h'⟩
    exact ⟨added, h'.host hhost⟩

/-! ## What is written on the way -/

section Told

variable {s : Session} {written reported : List Entry} {steps : Nat} {source : String}

theorem prompt_telling (hout : s.machine.output.room = none) :
    prompt (s.telling written reported) = .ok () (s.telling (written ++ [⟨.prompt, Lines.encode "> "⟩]) reported) := by
  obtain ⟨machine, reports, nextId, events⟩ := s
  obtain ⟨heap, distances, ⟨entries, room⟩, echo, depth, input, clock, readings⟩ := machine
  obtain rfl : room = none := hout
  simp [prompt, telling, Transcript.writeText, Transcript.write]

theorem report_telling (hreports : s.reports.room = none) (text : String) :
    report text (s.telling written reported) =
      .ok () (s.telling written (reported ++ [⟨.report, Lines.encode text⟩])) := by
  obtain ⟨machine, ⟨entries, room⟩, nextId, events⟩ := s
  obtain rfl : room = none := hreports
  simp [report, telling, Transcript.writeText, Transcript.write]

/-- A run that comes back lets the conversation go on, and an error that has ended the program is reported. -/
theorem settle_returns (hout : s.machine.output.room = none) (hreports : s.reports.room = none)
    (h : (s.account (.run steps source)).Returns) :
    settle (run steps source (s.telling written reported)) =
      .ok () ((s.after steps source).telling (written ++ (s.account (.run steps source)).written)
        (reported ++ (s.account (.run steps source)).announced)) := by
  have hends := halt_of_returns hreports h
  have hroom := (room_after hout hreports steps source).2
  rw [run_telling]
  unfold Account.announced
  generalize (s.account (.run steps source)).written = added
  generalize (s.account (.run steps source)).reported = told
  rw [halt_run] at hends ⊢
  rw [after] at hroom ⊢
  cases hrun : run steps source s with
  | ok _ s' => simp [settle, mapBehind, haltOf, stateBehind]
  | error halt s' =>
    rw [hrun] at hends hroom
    rcases hends with hnone | ⟨e, hhalt, he⟩ | ⟨fault, hhalt⟩
    · cases hnone
    · cases hhalt
      cases e with
      | lexical n | syntactic n | scoping n => simp [settle, mapBehind, haltOf, stateBehind]
      | _ => cases he
    · cases hhalt
      exact (report_telling hroom _).trans (by rw [List.append_assoc]; rfl)

/-- A run that does not come back ends the conversation. -/
theorem settle_breaks (h : ¬(s.account (.run steps source)).Returns) :
    ∃ halt, (s.account (.run steps source)).halt = some halt ∧
      settle (run steps source (s.telling written reported)) =
        .error halt ((s.after steps source).telling (written ++ (s.account (.run steps source)).written)
          (reported ++ (s.account (.run steps source)).reported)) := by
  rw [run_telling]
  unfold Account.Returns at h
  generalize (s.account (.run steps source)).written = added
  generalize (s.account (.run steps source)).reported = told
  rw [halt_run] at h ⊢
  rw [after]
  cases hrun : run steps source s with
  | ok _ s' => simp [hrun, haltOf] at h
  | error halt s' =>
    refine ⟨halt, rfl, ?_⟩
    cases halt with
    | error e => simp [hrun, haltOf] at h
    | _ => rfl

end Told

/-! ## Conversations of many lines -/

/-- What is done is the run of the line. -/
def Answers (steps : Nat) (line : List UInt8) (act : Act) : Prop :=
  ∃ text, Lines.decode? line = some text ∧ act = .run steps (trimmed text)

theorem answers_lines (steps : Nat) (text : String) :
    List.Forall₂ (Answers steps) (Lines.all (Lines.encode text)) (runsOf steps text) := by
  rw [runsOf, List.forall₂_map_right_iff]
  refine (Lines.decode?_all text).imp fun bytes line h => ?_
  obtain ⟨read, hread, hline⟩ := h
  exact ⟨read, hread, by rw [hline]⟩

section Lines

variable {s : Session} {steps : Nat} {line : List UInt8}

theorem behind_append (s : Session) (acts others : List Act) :
    s.behind (acts ++ others) = (s.behind acts).behind others :=
  List.foldl_append

theorem behind_nil (s : Session) : s.behind [] = s := rfl

theorem behind_cons (s : Session) (steps : Nat) (source : String) (acts : List Act) :
    s.behind (.run steps source :: acts) = (s.after steps source).behind acts := rfl

theorem accounts_cons (s : Session) (steps : Nat) (source : String) (acts : List Act) :
    s.accounts (.run steps source :: acts) = s.account (.run steps source) :: (s.after steps source).accounts acts :=
  rfl

/-- In front of a line stands a prompt. -/
theorem converseLines_cons (hout : s.machine.output.room = none) {source text : String}
    (hline : Lines.decode? line = some text) (hsource : trimmed text = source) (rest : List (List UInt8))
    (written reported : List Entry) :
    converseLines steps (line :: rest) (s.telling written reported) =
      match settle (run steps source (s.telling (written ++ [⟨.prompt, Lines.encode "> "⟩]) reported)) with
      | .ok _ s' => converseLines steps rest s'
      | .error halt s' => .error halt s' := by
  have hlines : converseLines steps (line :: rest) =
    (prompt >>= fun _ => answer steps line >>= fun _ => converseLines steps rest) := rfl
  rw [hlines, bind_ok (prompt_telling hout), bind_eq_match, answer_eq hline, hsource]
  cases settle (run steps source (s.telling (written ++ [⟨.prompt, Lines.encode "> "⟩]) reported)) <;> rfl

/-- Lines that come back are answered one after the other, each in the session that the run before it has left. -/
theorem converseLines_append {lines : List (List UInt8)} {acts : List Act} (h : List.Forall₂ (Answers steps) lines acts)
    (hout : s.machine.output.room = none) (hreports : s.reports.room = none)
    (hreturn : ∀ a ∈ s.accounts acts, a.Returns) (rest : List (List UInt8)) (written reported : List Entry) :
    (s.behind acts).machine.output.room = none ∧ (s.behind acts).reports.room = none ∧
      converseLines steps (lines ++ rest) (s.telling written reported) =
        converseLines steps rest ((s.behind acts).telling (written ++ (s.accounts acts).flatMap Account.exchanged)
          (reported ++ (s.accounts acts).flatMap Account.announced)) := by
  induction h generalizing s written reported with
  | nil => exact ⟨hout, hreports, by simp [behind, accounts]⟩
  | @cons line act lines acts hline _ ih =>
    obtain ⟨text, htext, rfl⟩ := hline
    obtain ⟨hfirst, hothers⟩ := List.forall_mem_cons.1 hreturn
    obtain ⟨hout', hreports'⟩ := room_after hout hreports steps (trimmed text)
    obtain ⟨hroom, hroom', hrest⟩ := ih hout' hreports' hothers
      (written ++ [⟨.prompt, Lines.encode "> "⟩] ++ (s.account (.run steps (trimmed text))).written)
      (reported ++ (s.account (.run steps (trimmed text))).announced)
    rw [behind_cons, accounts_cons]
    refine ⟨hroom, hroom', ?_⟩
    rw [List.cons_append, converseLines_cons hout htext rfl, settle_returns hout hreports hfirst]
    dsimp only
    rw [hrest, List.flatMap_cons, List.flatMap_cons, Account.exchanged]
    simp only [List.append_assoc, List.cons_append, List.nil_append]

end Lines

/-- A conversation over a text is the sequence of the runs of its lines. If all of them come back, it succeeds, and the
session is the one behind the runs, in which prompts and errors of programs have been written as well. Otherwise it
ends with the first one that does not. -/
theorem converse_folds_runs {s : Session} (hout : s.machine.output.room = none) (hreports : s.reports.room = none)
    (steps : Nat) (text : String) :
    ((∀ a ∈ s.accounts (runsOf steps text), a.Returns) →
      converse steps (Lines.encode text) s =
        .ok () ((s.behind (runsOf steps text)).telling
          (s.machine.output.entries.toList ++ (s.accounts (runsOf steps text)).flatMap Account.exchanged ++
            [⟨.prompt, Lines.encode "> "⟩])
          (s.reports.entries.toList ++ (s.accounts (runsOf steps text)).flatMap Account.announced ++
            [⟨.report, Lines.encode "\nExited plox repl\n"⟩]))) ∧
    ∀ before act after, runsOf steps text = before ++ act :: after → (∀ a ∈ s.accounts before, a.Returns) →
      ¬((s.behind before).account act).Returns →
      ∃ halt, ((s.behind before).account act).halt = some halt ∧
        converse steps (Lines.encode text) s =
          .error halt ((s.behind (before ++ [act])).telling
            (s.machine.output.entries.toList ++ (s.accounts before).flatMap Account.exchanged ++
              ((s.behind before).account act).exchanged)
            (s.reports.entries.toList ++ (s.accounts before).flatMap Account.announced ++
              ((s.behind before).account act).reported)) := by
  have hlines := answers_lines steps text
  refine ⟨fun hreturn => ?_, fun before act after hacts hreturn hbreaks => ?_⟩
  · obtain ⟨hroom, hroom', hall⟩ := converseLines_append hlines hout hreports hreturn [] s.machine.output.entries.toList
      s.reports.entries.toList
    rw [List.append_nil, telling_self] at hall
    rw [converse, hall]
    exact (bind_ok (prompt_telling hroom)).trans (report_telling hroom' _)
  · rw [hacts] at hlines
    have hbefore := List.forall₂_take_append _ _ _ hlines
    have hrest := List.forall₂_drop_append _ _ _ hlines
    generalize hall : Lines.all (Lines.encode text) = lines at *
    obtain ⟨line, others, ⟨found, hfound, rfl⟩, -, hdrop⟩ := List.forall₂_cons_right_iff.1 hrest
    obtain ⟨hroom, -, hconverse⟩ := converseLines_append hbefore hout hreports hreturn (line :: others)
      s.machine.output.entries.toList s.reports.entries.toList
    rw [← hdrop, List.take_append_drop, telling_self, hdrop, converseLines_cons hroom hfound rfl] at hconverse
    obtain ⟨halt, hhalt, hsettle⟩ := settle_breaks hbreaks
    refine ⟨halt, hhalt, ?_⟩
    rw [converse, hall, hconverse, hsettle, behind_append, behind_cons, behind_nil]
    simp only [Account.exchanged, List.append_assoc, List.cons_append, List.nil_append]

/-- A line whose program ends with an error, and one that cannot be read and has no newline. -/
theorem converse_folds_runs_failing :
    new.machine.output.room = none ∧ new.reports.room = none ∧
      (new.accounts (runsOf 9 "b;\n nil")).map (·.halt) =
        [some (.error (.runtime (.evaluation 1 (.undefinedVariable "b")))), some (.error (.syntactic 1))] ∧
      converse 9 (Lines.encode "b;\n nil") new =
        .ok () ((new.behind (runsOf 9 "b;\n nil")).telling
          (new.machine.output.entries.toList ++ (new.accounts (runsOf 9 "b;\n nil")).flatMap Account.exchanged ++
            [⟨.prompt, Lines.encode "> "⟩])
          (new.reports.entries.toList ++ (new.accounts (runsOf 9 "b;\n nil")).flatMap Account.announced ++
            [⟨.report, Lines.encode "\nExited plox repl\n"⟩])) := by
  have hhalts : (new.accounts (runsOf 9 "b;\n nil")).map (·.halt) =
      [some (.error (.runtime (.evaluation 1 (.undefinedVariable "b")))), some (.error (.syntactic 1))] := by cbv
  refine ⟨rfl, rfl, hhalts, (converse_folds_runs rfl rfl 9 "b;\n nil").1 fun a ha => ?_⟩
  have hhalt := List.mem_map_of_mem (f := (·.halt)) ha
  rw [hhalts, List.mem_pair] at hhalt
  rcases hhalt with hhalt | hhalt
  · exact ⟨by simp [hhalt], by simp [hhalt]⟩
  · exact ⟨by simp [hhalt], by simp [hhalt]⟩

end Session

end TreeWalk
