import Mathlib.Data.List.TakeWhile
import TreeWalk.Proofs.Parser.Completeness
import TreeWalk.Proofs.Parser.Soundness

/-!
# Programs are read as the grammar has them

A token list is read without error exactly if the grammar derives it, and then its tokens fall into
one piece for each statement that is read.
-/

namespace TreeWalk

open TreeWalk.Parser TreeWalk.Grammar

theorem program_ends {r : Rules} {n : Nat} {s : ParserState} (hr : r.Sound n) (bound : Nat)
    (hn : s.tokens.length < n) :
    Ends s (fun l s' => Yields (.many none (.symbol (.declaration (s.loopDepth != 0)))) (l.map .stmt) s s' ∧
      Contained l s s' ∧ (s'.errors = s.errors → s.tokens.length ≤ bound → s'.tokens = [])) (program r bound s) := by
  refine (collecting_program r).ends (fun _ => rfl)
    (fun bound s l s' => Yields (.many none (.symbol (.declaration (s.loopDepth != 0)))) (l.map .stmt) s s' ∧
      Contained l s s' ∧ (s'.errors = s.errors → s.tokens.length ≤ bound → s'.tokens = []))
    (fun bound s hstop => ⟨.done, fun _ _ h => by simp at h, fun _ hbound => ?_⟩) hr.declaration ?_ bound hn
  · rcases hstop with rfl | hempty
    · exact List.length_eq_zero_iff.1 (Nat.le_zero.1 hbound)
    · exact hempty
  · intro bound s s₁ s₂ first rest hlater hlater' ⟨hfirst, hcontained⟩ ⟨hrest, hcontained', hend⟩
    refine ⟨?_, hcontained.append hlater hlater' hcontained', fun hclean hbound => ?_⟩
    · rw [hlater.loopDepth] at hrest
      rw [List.map_append]
      exact hfirst.more hrest
    · obtain ⟨hc, hc'⟩ := hlater.clean hlater' hclean
      obtain ⟨ts, hderives, htokens⟩ := hfirst.spans hc
      obtain ⟨t, us, rfl, -⟩ := starts_declaration hderives
      refine hend hc' ?_
      rw [htokens, List.cons_append, List.length_cons, List.length_append] at hbound
      omega

namespace Parse

/-- What can be told of the outcome of reading a token list. -/
structure Sound (firstId : NodeId) (tokens : List Token) (p : Parse) : Prop where
  nextId : firstId ≤ p.nextId
  fresh : Fresh firstId p.nextId (Stmt.referencesAll p.statements)
  settled : ∀ s ∈ p.statements, (Node.stmt s).Every Node.Settled
  unreserved : Worded tokens → ∀ s ∈ p.statements, (Node.stmt s).Every Node.Unreserved
  confined : p.errors = [] → ∀ s ∈ p.statements, (Node.stmt s).Every Node.Confined
  contained : p.errors = [] → ∀ s ∈ p.statements, ¬ s.Escapes
  derives : p.errors = [] → Derives (.symbol .program) (delimited tokens).1

theorem ofTokens_sound (firstId : NodeId) (tokens : List Token) : (ofTokens firstId tokens).Sound firstId tokens := by
  have hall := program_ends (sound_rules ((delimited tokens).1.length + 1)) (delimited tokens).1.length
    (s := ⟨(delimited tokens).1, (delimited tokens).2, 0, firstId, []⟩) (Nat.lt_succ_self _)
  unfold ofTokens
  dsimp only
  cases hread : program (rules ((delimited tokens).1.length + 1)) (delimited tokens).1.length
      ⟨(delimited tokens).1, (delimited tokens).2, 0, firstId, []⟩ with
  | ok statements s' =>
    rw [hread] at hall
    obtain ⟨hlater, hyields, hcontained, hend⟩ := hall
    have hnodes {P : Node → Prop} (h : ∀ n ∈ statements.map Node.stmt, n.Every P) (s : Stmt) (hs : s ∈ statements) :
        (Node.stmt s).Every P := h _ (List.mem_map_of_mem hs)
    exact
      { nextId := hlater.nextId
        fresh := by
          have hreferences : (statements.map Node.stmt).flatMap Node.references = Stmt.referencesAll statements := by
            rw [← references_suite .top [] statements, ← map_suite .top [] statements, List.flatMap_map]
          exact hreferences ▸ hyields.fresh
        settled := hnodes hyields.settled
        unreserved := fun hworded =>
          hnodes (hyields.unreserved fun t ht => hworded t (List.takeWhile_subset _ ht))
        confined := fun hclean => hnodes (hyields.confined hclean)
        contained := fun hclean s hs hescapes => hcontained hclean s hs hescapes rfl
        derives := fun hclean => by
          obtain ⟨ts, hts, htokens⟩ := hyields.spans hclean
          have hbody : (delimited tokens).1 = ts := by
            rwa [hend hclean (Nat.le_refl _), List.append_nil] at htokens
          exact hbody ▸ .symbol hts }
  | error e s' =>
    rw [hread] at hall
    obtain ⟨hlater, -, herrors⟩ := hall
    have hnot : s'.errors ≠ [] := List.ne_nil_of_length_pos herrors
    exact
      { nextId := hlater.nextId
        fresh := .nil
        settled := by simp
        unreserved := by simp
        confined := by simp
        contained := by simp
        derives := fun hclean => absurd hclean hnot }

/-- Every statement is what its own piece of the tokens is read as, and ids go on from piece to piece. -/
inductive Pieces : NodeId → List (List Token) → List Stmt → NodeId → Prop where
  | nil (id : NodeId) : Pieces id [] [] id
  | cons {first middle next : NodeId} {piece : List Token} {pieces : List (List Token)} {s : Stmt}
    {statements : List Stmt} (hderives : Derives (.symbol (.declaration false)) piece)
    (hread : ofTokens first piece = ⟨[s], [], middle⟩) (hs : Pieces middle pieces statements next) :
    Pieces first (piece :: pieces) (s :: statements) next

end Parse

theorem program_nil (first : NodeId) :
    Reads 1 (fun n b => program (rules n) (b - 1)) false (· = []) [] first [] first := by
  refine (Reads.pure first []).congr fun levels rounds s rest hready => ?_
  have hend : s.tokens = [] := by rw [hready.tokens, hready.fits]; rfl
  exact (collecting_program (rules levels)).stop _ s hend

theorem program_cons {piece ts : List Token} {first middle next : NodeId} {statement : Stmt} {statements : List Stmt}
    (h : Reads 1 (fun n _ => (rules n).declaration) false ElseFree piece first (some statement) middle)
    (hs : Reads 1 (fun n b => program (rules n) (b - 1)) false (· = []) ts middle statements next)
    (hpiece : piece ≠ []) (hts : ElseFree ts) :
    Reads 1 (fun n b => program (rules n) (b - 1)) false (· = []) (piece ++ ts) first (statement :: statements) next := by
  have hlength := List.length_pos_of_ne_nil hpiece
  have hround : Reads 1 (fun n b => (rules n).declaration >>= fun o => program (rules n) (b - 1 - 1) >>= fun rest =>
      pure (o.toList ++ rest)) false (· = []) (piece ++ ts) first (statement :: statements) next :=
    h.bind (hs.round.map fun rest => [statement] ++ rest) (fun rest hrest => by simpa [hrest] using hts) (by omega)
  refine hround.congr fun levels rounds s rest hready => ?_
  have hlong : s.tokens.length + 1 ≤ rounds := hready.rounds
  rw [hready.tokens] at hlong
  simp only [List.length_append] at hlong
  obtain ⟨b, rfl⟩ : ∃ b, rounds = b + 2 := ⟨rounds - 2, by omega⟩
  exact (collecting_program (rules levels)).succ b s (by simp [hready.tokens, hpiece])

theorem Parse.ofTokens_of_reads {firstId next : NodeId} {tokens : List Token} {statements : List Stmt}
    (h : Reads 1 (fun n b => program (rules n) (b - 1)) false (· = []) (delimited tokens).1 firstId statements next) :
    ofTokens firstId tokens = ⟨statements, [], next⟩ := by
  have hread : program (rules ((delimited tokens).1.length + 1)) (delimited tokens).1.length
      ⟨(delimited tokens).1, (delimited tokens).2, 0, firstId, []⟩ = .ok statements ⟨[], (delimited tokens).2, 0, next, []⟩ :=
    h ((delimited tokens).1.length + 1) ((delimited tokens).1.length + 1) _ []
      ⟨(List.append_nil _).symm, Nat.le_refl _, Nat.le_refl _, rfl, nofun, rfl⟩
  unfold ofTokens
  dsimp only
  rw [hread]

/-- Declarations in a row are read one by one. -/
theorem program_reads (pieces : List (List Token)) (first : NodeId)
    (hderives : ∀ piece ∈ pieces, Derives (.symbol (.declaration false)) piece)
    (hopen : ∀ piece ∈ pieces, ∀ t ∈ piece, t.kind ≠ .endOfInput) :
    ∃ statements next, Parse.Pieces first pieces statements next ∧
      Reads 1 (fun n b => program (rules n) (b - 1)) false (· = []) pieces.flatten first statements next := by
  induction pieces generalizing first with
  | nil => exact ⟨[], first, .nil first, program_nil first⟩
  | cons piece pieces ih =>
    have hpiece := hderives piece List.mem_cons_self
    have hothers := fun other hother => hderives other (List.mem_cons_of_mem piece hother)
    obtain ⟨_, middle, ⟨statement, rfl⟩, hread⟩ :=
      (complete (piece.length + 1)).declaration false piece (Nat.lt_succ_self _) hpiece first
    obtain ⟨statements, next, hpieces, hreads⟩ :=
      ih middle hothers fun other hother => hopen other (List.mem_cons_of_mem piece hother)
    have hnonempty : piece ≠ [] := by
      obtain ⟨t, us, rfl, -⟩ := starts_declaration hpiece
      exact List.cons_ne_nil t us
    have hfollows : ElseFree pieces.flatten := by
      cases pieces with
      | nil => exact nofun
      | cons other pieces =>
        obtain ⟨t, us, rfl, -, helse⟩ := starts_declaration (hothers other List.mem_cons_self)
        exact fun u hu => Option.some.inj hu ▸ helse
    refine ⟨statement :: statements, next, .cons hpiece ?_ hpieces, program_cons hread hreads hnonempty hfollows⟩
    have halone := program_cons hread (program_nil middle) hnonempty nofun
    have hdelimited : (Parse.delimited piece).1 = piece :=
      List.takeWhile_eq_self_iff.2 fun t ht => by simpa using hopen piece List.mem_cons_self t ht
    exact Parse.ofTokens_of_reads (by rwa [hdelimited, ← List.append_nil piece])

namespace Parse

theorem open_of_delimited {tokens : List Token} {pieces : List (List Token)} (h : (delimited tokens).1 = pieces.flatten) :
    ∀ piece ∈ pieces, ∀ t ∈ piece, t.kind ≠ .endOfInput := by
  intro piece hpiece t ht
  have hmem : t ∈ (delimited tokens).1 := h ▸ List.mem_flatten.2 ⟨piece, hpiece, ht⟩
  simpa using List.mem_takeWhile_imp hmem

/-- What the grammar derives is read piece by piece. -/
theorem ofTokens_of_derives (firstId : NodeId) {tokens : List Token} (h : Derives (.symbol .program) (delimited tokens).1) :
    ∃ pieces statements next, (delimited tokens).1 = pieces.flatten ∧ Pieces firstId pieces statements next ∧
      ofTokens firstId tokens = ⟨statements, [], next⟩ := by
  obtain ⟨pieces, -, hpieces, hbody⟩ := derives_many.1 (derives_symbol.1 h)
  obtain ⟨statements, next, hread, hreads⟩ := program_reads pieces firstId hpieces (open_of_delimited hbody)
  exact ⟨pieces, statements, next, hbody, hread, ofTokens_of_reads (hbody ▸ hreads)⟩

end Parse

/-- The parser accepts exactly the programs of the grammar, and leaves none of their tokens out. -/
theorem Parse.errors_eq_nil_iff_derives (firstId : NodeId) (tokens : List Token) :
    ((ofTokens firstId tokens).errors = [] ↔ Derives (.symbol .program) (delimited tokens).1) ∧
      ((ofTokens firstId tokens).errors = [] → ∃ pieces, (delimited tokens).1 = pieces.flatten ∧
        Pieces firstId pieces (ofTokens firstId tokens).statements (ofTokens firstId tokens).nextId) := by
  refine ⟨⟨(ofTokens_sound firstId tokens).derives, fun h => ?_⟩, fun hclean => ?_⟩
  · obtain ⟨_, _, _, -, -, hparse⟩ := ofTokens_of_derives firstId h
    rw [hparse]
  · obtain ⟨pieces, statements, next, hbody, hpieces, hparse⟩ :=
      ofTokens_of_derives firstId ((ofTokens_sound firstId tokens).derives hclean)
    exact ⟨pieces, hbody, by rwa [hparse]⟩

/-! ## Programs in a row -/

namespace Parse

namespace Pieces

variable {first middle next next' : NodeId} {pieces others : List (List Token)} {statements statements' : List Stmt}

theorem derives (h : Pieces first pieces statements next) :
    ∀ piece ∈ pieces, Derives (.symbol (.declaration false)) piece := by
  induction h with
  | nil => simp
  | cons hderives _ _ ih => exact List.forall_mem_cons.2 ⟨hderives, ih⟩

theorem append (h : Pieces first pieces statements middle) (h' : Pieces middle others statements' next) :
    Pieces first (pieces ++ others) (statements ++ statements') next := by
  induction h with
  | nil => exact h'
  | cons hderives hread _ ih => exact .cons hderives hread (ih h')

theorem unique (h : Pieces first pieces statements next) (h' : Pieces first pieces statements' next') :
    statements = statements' ∧ next = next' := by
  induction h generalizing statements' with
  | nil =>
    cases h'
    exact ⟨rfl, rfl⟩
  | cons _ hread _ ih =>
    cases h' with
    | cons _ hread' hs' =>
      rw [hread] at hread'
      obtain ⟨hs, -, hmiddle⟩ := Parse.mk.inj hread'
      subst hmiddle
      obtain ⟨rfl, rfl⟩ := ih hs'
      exact ⟨by rw [List.cons.inj hs |>.1], rfl⟩

end Pieces

/-- The tokens of two programs in a row are read as the statements of the one and those of the other. -/
theorem ofTokens_append {firstId : NodeId} {tokens others whole : List Token}
    (hbody : (delimited whole).1 = (delimited tokens).1 ++ (delimited others).1)
    (h : (ofTokens firstId tokens).errors = []) (h' : (ofTokens (ofTokens firstId tokens).nextId others).errors = []) :
    ofTokens firstId whole =
      ⟨(ofTokens firstId tokens).statements ++ (ofTokens (ofTokens firstId tokens).nextId others).statements, [],
        (ofTokens (ofTokens firstId tokens).nextId others).nextId⟩ := by
  obtain ⟨pieces, statements, middle, hpieces, hread, hparse⟩ :=
    ofTokens_of_derives firstId ((ofTokens_sound firstId tokens).derives h)
  obtain ⟨pieces', statements', next, hpieces', hread', hparse'⟩ :=
    ofTokens_of_derives (ofTokens firstId tokens).nextId ((ofTokens_sound _ others).derives h')
  rw [hparse']
  rw [hparse] at hread' ⊢
  have hjoined := hread.append hread'
  rw [hpieces, hpieces', ← List.flatten_append] at hbody
  obtain ⟨_, _, hread'', hreads⟩ := program_reads (pieces ++ pieces') firstId hjoined.derives (open_of_delimited hbody)
  obtain ⟨rfl, rfl⟩ := hread''.unique hjoined
  exact ofTokens_of_reads (hbody ▸ hreads)

end Parse

end TreeWalk
