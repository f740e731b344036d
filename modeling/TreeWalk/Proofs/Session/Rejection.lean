import Mathlib
import TreeWalk.Proofs.Parser.Relabeling
import TreeWalk.Proofs.Scan.Joined
import TreeWalk.Proofs.Scope.Relabeling
import TreeWalk.Proofs.Session.Ongoing

/-!
# Rejected programs

A program in which an early stage finds errors leaves nothing behind but its reports. The machine stays as it is,
and programs that run later do what they would do without it, although they are read with other ids.
-/

namespace TreeWalk

/-- How many errors an early stage has found, if one has. -/
def SessionError.diagnosed? : SessionError → Option Nat
  | lexical n | syntactic n | scoping n => some n
  | _ => none

namespace Session

/-! ## What is reported -/

def reportEntry (text : String) : Entry := ⟨.report, Lines.encode text⟩

section Reports

variable {s s' : Session} {stage : String} {messages : List String}

theorem report_ok {text : String} (h : report text s = .ok () s') :
    s' = { s with reports := s'.reports } ∧
      s'.reports.entries.toList = s.reports.entries.toList ++ [reportEntry text] ∧
      (s.reports.room = none → s'.reports.room = none) := by
  unfold report Transcript.writeText Transcript.write at h
  cases hroom : s.reports.room with
  | none =>
    rw [hroom] at h
    cases h
    exact ⟨rfl, by simp [reportEntry], fun _ => rfl⟩
  | some room =>
    rw [hroom] at h
    dsimp only at h
    split at h
    case isFalse => cases h
    case isTrue hfits =>
      cases h
      refine ⟨rfl, ?_, fun h => by cases h⟩
      have hall : (Lines.encode text).take room = Lines.encode text := List.take_of_length_le (by simpa using hfits)
      simp [reportEntry, hall]

theorem report_error {text : String} {halt : Halt} (h : report text s = .error halt s') :
    halt = .error .inputOutput ∧ s.reports.room ≠ none := by
  unfold report Transcript.writeText Transcript.write at h
  cases hroom : s.reports.room with
  | none =>
    rw [hroom] at h
    cases h
  | some room =>
    rw [hroom] at h
    dsimp only at h
    split at h
    case isTrue => cases h
    case isFalse =>
      cases h
      exact ⟨rfl, by simp⟩

/-- What a stage reports comes behind what has been reported before. -/
theorem reportAll_ok (h : reportAll stage messages s = .ok () s') :
    s' = { s with reports := s'.reports } ∧
      s'.reports.entries.toList = s.reports.entries.toList ++
        messages.map (fun message => reportEntry (stage ++ " error: " ++ message ++ "\n")) ∧
      (s.reports.room = none → s'.reports.room = none) := by
  induction messages generalizing s with
  | nil =>
    cases h
    exact ⟨rfl, by simp, id⟩
  | cons message rest ih =>
    obtain ⟨_, s₁, hreport, hrest⟩ := ok_of_bind_ok h
    obtain ⟨hstate, hentries, hroom⟩ := report_ok hreport
    obtain ⟨hstate', hentries', hroom'⟩ := ih hrest
    refine ⟨?_, ?_, hroom' ∘ hroom⟩
    · rw [hstate', hstate]
    · rw [hentries', hentries, List.append_assoc]
      rfl

theorem reportAll_error {halt : Halt} (h : reportAll stage messages s = .error halt s') :
    halt = .error .inputOutput ∧ s.reports.room ≠ none := by
  induction messages generalizing s with
  | nil => cases h
  | cons message rest ih =>
    rcases error_of_bind_error h with hreport | ⟨_, s₁, hreport, hrest⟩
    · exact report_error hreport
    · obtain ⟨hhalt, hlimited⟩ := ih hrest
      exact ⟨hhalt, fun hroom => hlimited ((report_ok hreport).2.2 hroom)⟩

end Reports

/-! ## Runs that are rejected -/

section Rejected

variable {s s' : Session} {source : String} {e : SessionError}

theorem diagnosed?_of_rejection (h : s.rejection? source = some e) :
    e.diagnosed? = some (s.diagnostics source e).length := by
  unfold rejection? at h
  split at h
  · split at h
    · split at h <;> cases h
      simp [SessionError.diagnosed?, diagnostics]
    · cases h
      simp [SessionError.diagnosed?, diagnostics]
  · cases h
    simp [SessionError.diagnosed?, diagnostics]

/-- The session behind a rejected run is the one before it but for reports and ids. -/
structure Rejected (s : Session) (source : String) (e : SessionError) (s' : Session) : Prop where
  machine : s'.machine = s.machine
  nextId : s'.nextId = s.idsBehind source e
  reports : s'.reports.entries.toList = s.reports.entries.toList ++ (s.diagnostics source e).map reportEntry
  unlimited : s.reports.room = none → s'.reports.room = none

/-- A rejected run reports all errors, unless there is no room for them. -/
theorem run_rejected (h : s.rejection? source = some e) (steps : Nat) :
    (∃ s', run steps source s = .error (.error e) s' ∧ s.Rejected source e s') ∨
      s.reports.room ≠ none ∧ ∃ s', run steps source s = .error (.error .inputOutput) s' := by
  refine run_stages s steps source (fun result =>
      (∃ s', result = .error (.error e) s' ∧ s.Rejected source e s') ∨
        s.reports.room ≠ none ∧ ∃ s', result = .error (.error .inputOutput) s') (fun launch hlaunch => ?_) ?_
  · have hsome : (s.launch? source).isSome := by rw [hlaunch]; rfl
    rw [rejection?_eq_none_iff.2 hsome] at h
    cases h
  · intro e' he s₀ hmachine hreports hid stage messages hmessages
    obtain rfl : e = e' := Option.some.inj (h.symm.trans he)
    cases hreport : reportAll stage messages s₀ with
    | ok _ s' =>
      obtain ⟨hstate, hentries, hroom⟩ := reportAll_ok hreport
      have hall : messages.map (fun message => reportEntry (stage ++ " error: " ++ message ++ "\n")) =
          (s.diagnostics source e).map reportEntry := by
        rw [← hmessages, List.map_map]
        rfl
      refine .inl ⟨s', bind_ok hreport, ?_, ?_, ?_, ?_⟩
      · rw [hstate]; exact hmachine
      · rw [hstate]; exact hid
      · rw [hentries, hall, hreports]
      · exact hreports ▸ hroom
    | error halt s' =>
      obtain ⟨rfl, hlimited⟩ := reportAll_error hreport
      exact .inr ⟨hreports ▸ hlimited, s', bind_error hreport⟩

/-- Only programs that an early stage rejects end with the error of one. -/
theorem rejection?_of_run {steps : Nat} (h : run steps source s = .error (.error e) s') (he : e.diagnosed?.isSome) :
    s.rejection? source = some e := by
  cases hrejection : s.rejection? source with
  | none =>
    obtain ⟨launch, hlaunch⟩ := Option.isSome_iff_exists.1 (rejection?_eq_none_iff.1 hrejection)
    rw [run_launch hlaunch] at h
    unfold execute at h
    cases hrun : Evaluation.program steps launch.program (s.starting source launch).machine with
    | ok _ m => rw [hrun] at h; cases h
    | error stop m =>
      rw [hrun] at h
      cases stop <;> cases h
      cases he
  | some e' =>
    rcases run_rejected hrejection steps with ⟨_, hrun, -⟩ | ⟨-, _, hrun⟩
    · rw [hrun] at h
      cases h
      rfl
    · rw [hrun] at h
      cases h
      cases he

end Rejected

end Session

end TreeWalk
