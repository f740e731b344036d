import Mathlib.Data.List.Flatten
import Mathlib.Data.List.Perm.Subperm
import TreeWalk.Proofs.Parser.Language
import TreeWalk.Proofs.Sequencing
import TreeWalk.Proofs.Syntax.Nodes

/-!
# How reading ends

A parser either yields a part of a program or gives up with an error on record, and on the way it
only goes on. `Yields` says what is known of the part: its references have new ids, and when no error
was recorded its tokens are those of a phrase.
-/

namespace TreeWalk

/-- Reading may get from the one state to the other. -/
structure Later (s s' : ParserState) : Prop where
  tokens : s'.tokens <:+ s.tokens
  endLine : s'.endLine = s.endLine
  loopDepth : s'.loopDepth = s.loopDepth
  errors : s.errors <+: s'.errors
  nextId : s.nextId ≤ s'.nextId

namespace Later

variable {s s' s'' : ParserState}

theorem refl (s : ParserState) : Later s s :=
  ⟨List.suffix_refl _, rfl, rfl, List.prefix_refl _, Nat.le_refl _⟩

theorem trans (h : Later s s') (h' : Later s' s'') : Later s s'' :=
  ⟨h'.tokens.trans h.tokens, h'.endLine.trans h.endLine, h'.loopDepth.trans h.loopDepth,
    h.errors.trans h'.errors, Nat.le_trans h.nextId h'.nextId⟩

theorem length_le (h : Later s s') : s'.tokens.length ≤ s.tokens.length := h.tokens.length_le

theorem errors_le (h : Later s s') : s.errors.length ≤ s'.errors.length := h.errors.length_le

/-- Without a new error there is none on the way. -/
theorem clean (h : Later s s') (h' : Later s' s'') (hclean : s''.errors = s.errors) :
    s'.errors = s.errors ∧ s''.errors = s'.errors := by
  have hlength := congrArg List.length hclean
  have := h.errors_le
  have := h'.errors_le
  exact ⟨(h.errors.eq_of_length (by omega)).symm, (h'.errors.eq_of_length (by omega)).symm⟩

end Later

/-- Reading from the state ends as stated or gives up, and then an error has been added. -/
def Ends {α : Type} (s : ParserState) (post : α → ParserState → Prop) :
    EStateM.Result GivenUp ParserState α → Prop
  | .ok a s' => Later s s' ∧ post a s'
  | .error e s' => Later s s' ∧ e = .reported ∧ s.errors.length < s'.errors.length

namespace Ends

variable {α β : Type} {s : ParserState} {post : α → ParserState → Prop} {post' : β → ParserState → Prop}

protected theorem pure {a : α} (h : post a s) : Ends s post ((pure a : Parser α) s) := ⟨.refl s, h⟩

theorem bind {p : Parser α} {f : α → Parser β} (hp : Ends s post (p s))
    (hf : ∀ a s', Later s s' → post a s' → Ends s' post' (f a s')) : Ends s post' ((p >>= f) s) := by
  rw [bind_eq_match]
  cases h : p s with
  | ok a s' =>
    rw [h] at hp
    obtain ⟨hlater, hpost⟩ := hp
    have hnext := hf a s' hlater hpost
    dsimp only
    cases hb : f a s' with
    | ok b s'' => rw [hb] at hnext; exact ⟨hlater.trans hnext.1, hnext.2⟩
    | error e s'' =>
      rw [hb] at hnext
      exact ⟨hlater.trans hnext.1, hnext.2.1, Nat.lt_of_le_of_lt hlater.errors_le hnext.2.2⟩
  | error e s' => rw [h] at hp; exact hp

theorem mono {post₂ : α → ParserState → Prop} {result : EStateM.Result GivenUp ParserState α}
    (h : Ends s post result) (hpost : ∀ a s', Later s s' → post a s' → post₂ a s') : Ends s post₂ result := by
  cases result with
  | ok a s' => exact ⟨h.1, hpost a s' h.1 h.2⟩
  | error e s' => exact h

theorem map {p : Parser α} {f : α → β} (hp : Ends s (fun a s' => post' (f a) s') (p s)) :
    Ends s post' ((f <$> p) s) := by
  rw [map_eq_pure_bind]
  exact hp.bind fun _ _ _ hpost => .pure hpost

theorem fail (token : Token) (cause : SyntaxCause) : Ends s post ((Parser.fail token cause : Parser α) s) :=
  ⟨⟨List.suffix_refl _, rfl, rfl, List.prefix_append _ _, Nat.le_refl _⟩, rfl, by simp⟩

end Ends

/-! ## New references -/

/-- The ids are all different, none is below the first number and all are below the second. -/
def Fresh (first next : NodeId) (references : List Reference) : Prop :=
  (references.map (·.id)).Nodup ∧ ∀ u ∈ references, first ≤ u.id ∧ u.id < next

namespace Fresh

variable {i j k : NodeId} {us vs : List Reference}

theorem nil : Fresh i j [] := ⟨.nil, by simp⟩

theorem append (hu : Fresh i j us) (hv : Fresh j k vs) (hij : i ≤ j) (hjk : j ≤ k) : Fresh i k (us ++ vs) := by
  refine ⟨?_, fun u h => ?_⟩
  · rw [List.map_append, List.nodup_append]
    refine ⟨hu.1, hv.1, fun a ha b hb => ?_⟩
    obtain ⟨u, hmem, rfl⟩ := List.mem_map.1 ha
    obtain ⟨v, hmem', rfl⟩ := List.mem_map.1 hb
    exact Nat.ne_of_lt (Nat.lt_of_lt_of_le (hu.2 u hmem).2 (hv.2 v hmem').1)
  · rcases List.mem_append.1 h with h | h
    · exact ⟨(hu.2 u h).1, Nat.lt_of_lt_of_le (hu.2 u h).2 hjk⟩
    · exact ⟨Nat.le_trans hij (hv.2 u h).1, (hv.2 u h).2⟩

/-- Only the ids matter. -/
theorem subperm (hu : Fresh i j us) (h : (vs.map (·.id)).Subperm (us.map (·.id))) : Fresh i j vs := by
  constructor
  · obtain ⟨l, hperm, hsub⟩ := h
    exact hperm.nodup_iff.1 (hsub.nodup hu.1)
  · intro v hv
    obtain ⟨u, hmem, hid⟩ := List.mem_map.1 (h.subset (List.mem_map_of_mem hv))
    exact hid ▸ hu.2 u hmem

end Fresh

/-! ## What has been read -/

/-- No identifier is a keyword. -/
def Worded (tokens : List Token) : Prop :=
  ∀ t ∈ tokens, t.kind = .identifier → TokenKind.ofWord t.lexeme = .identifier

theorem Worded.later {s s' : ParserState} (h : Worded s.tokens) (hlater : Later s s') : Worded s'.tokens :=
  fun t ht => h t (hlater.tokens.subset ht)

/-- Between the states the nodes have been read, and if no error was added the phrase has. -/
structure Yields (φ : Phrase) (nodes : List Node) (s s' : ParserState) : Prop extends Later s s' where
  fresh : Fresh s.nextId s'.nextId (nodes.flatMap Node.references)
  settled : ∀ n ∈ nodes, n.Every Node.Settled
  unreserved : Worded s.tokens → ∀ n ∈ nodes, n.Every Node.Unreserved
  confined : s'.errors = s.errors → ∀ n ∈ nodes, n.Every Node.Confined
  spans : s'.errors = s.errors → Spans φ s.tokens s'.tokens

namespace Yields

variable {s s' s'' : ParserState} {φ ψ : Phrase} {φs : List Phrase} {xs ys : List Node}

/-- Nothing but tokens. -/
theorem ofLater (h : Later s s') (hφ : s'.errors = s.errors → Spans φ s.tokens s'.tokens) :
    Yields φ [] s s' where
  toLater := h
  fresh := .nil
  settled := by simp
  unreserved := by simp
  confined := by simp
  spans := hφ

theorem nil : Yields (.seq []) [] s s := ofLater (.refl s) fun _ => .nil

theorem cons (h : Yields φ xs s s') (hs : Yields (.seq φs) ys s' s'') :
    Yields (.seq (φ :: φs)) (xs ++ ys) s s'' where
  toLater := h.trans hs.toLater
  fresh := by
    rw [List.flatMap_append]
    exact h.fresh.append hs.fresh h.nextId hs.nextId
  settled n hn := (List.mem_append.1 hn).elim (h.settled n) (hs.settled n)
  unreserved hworded n hn :=
    (List.mem_append.1 hn).elim (h.unreserved hworded n) (hs.unreserved (hworded.later h.toLater) n)
  confined hclean n hn := by
    obtain ⟨hc, hc'⟩ := h.clean hs.toLater hclean
    exact (List.mem_append.1 hn).elim (h.confined hc n) (hs.confined hc' n)
  spans hclean := by
    obtain ⟨hc, hc'⟩ := h.clean hs.toLater hclean
    exact (h.spans hc).cons (hs.spans hc')

/-- Reading may have begun earlier, if no token was consumed in between. -/
theorem behind (h : Later s s') (htokens : s'.tokens = s.tokens) (hs : Yields φ xs s' s'') : Yields φ xs s s'' where
  toLater := h.trans hs.toLater
  fresh := by simpa using Fresh.nil.append hs.fresh h.nextId hs.nextId
  settled := hs.settled
  unreserved hworded := hs.unreserved (hworded.later h)
  confined hclean := hs.confined (h.clean hs.toLater hclean).2
  spans hclean := htokens ▸ hs.spans (h.clean hs.toLater hclean).2

theorem single (h : Yields φ xs s s') : Yields (.seq [φ]) xs s s' := by
  simpa using h.cons nil

theorem imp (h : Yields φ xs s s') (hφ : Spans φ s.tokens s'.tokens → Spans ψ s.tokens s'.tokens) :
    Yields ψ xs s s' := { h with spans := fun hclean => hφ (h.spans hclean) }

theorem imp_of_clean (h : Yields φ xs s s')
    (hφ : s'.errors = s.errors → Spans φ s.tokens s'.tokens → Spans ψ s.tokens s'.tokens) : Yields ψ xs s s' :=
  { h with spans := fun hclean => hφ hclean (h.spans hclean) }

theorem choice (h : Yields φ xs s s') (hφ : φ ∈ φs) : Yields (.choice φs) xs s s' := h.imp (·.choice hφ)

theorem symbol (σ : Symbol) (h : Yields (production σ) xs s s') : Yields (.symbol σ) xs s s' := h.imp .symbol

/-- What comes last need not take tokens. -/
theorem last (h : Yields φ xs s s') (hs : Yields (.seq []) ys s' s'') : Yields φ (xs ++ ys) s s'' :=
  (h.cons hs).imp fun hspans => by
    obtain ⟨_, hφ, hnil⟩ := spans_cons.1 hspans
    exact spans_nil.1 hnil ▸ hφ

theorem done : Yields (.many none φ) [] s s := ofLater (.refl s) fun _ => .done

theorem more (h : Yields φ xs s s') (hs : Yields (.many none φ) ys s' s'') : Yields (.many none φ) (xs ++ ys) s s'' :=
  (h.cons hs.single).imp fun hspans => by
    obtain ⟨_, hfirst, hmany⟩ := spans_pair.1 hspans
    exact hfirst.more hmany

theorem absent : Yields (.maybe φ) [] s s := ofLater (.refl s) fun _ => .absent

theorem present (h : Yields φ xs s s') : Yields (.maybe φ) xs s s' := h.imp .present

/-- What is not used of what was read may be forgotten. -/
theorem subperm (h : Yields φ xs s s') (hys : ys.Subperm xs) : Yields φ ys s s' where
  toLater := h.toLater
  fresh := by
    obtain ⟨l, hl, hsub⟩ := hys
    exact h.fresh.subperm ⟨_, (hl.flatMap_right Node.references).map _, (hsub.flatMap _).map _⟩
  settled n hn := h.settled n (hys.subset hn)
  unreserved hworded n hn := h.unreserved hworded n (hys.subset hn)
  confined hclean n hn := h.confined hclean n (hys.subset hn)
  spans := h.spans

/-- A node may be taken apart again. -/
theorem children {n : Node} (h : Yields φ (n :: xs) s s') (huses : n.uses = []) :
    Yields φ (n.children ++ xs) s s' where
  toLater := h.toLater
  fresh := by simpa [Node.references_children n, huses] using h.fresh
  settled c hc := (List.mem_append.1 hc).elim ((h.settled n (by simp)).child c) fun hc => h.settled c (by simp [hc])
  unreserved hworded c hc := (List.mem_append.1 hc).elim ((h.unreserved hworded n (by simp)).child c) fun hc =>
    h.unreserved hworded c (by simp [hc])
  confined hclean c hc := (List.mem_append.1 hc).elim ((h.confined hclean n (by simp)).child c) fun hc =>
    h.confined hclean c (by simp [hc])
  spans := h.spans

/-- Nodes without references and parts may be added at will. -/
theorem literal (h : Yields φ xs s s') (value : Literal) : Yields φ (.expr (.literal value) :: xs) s s' :=
  have hevery {P : Node → Prop} (hP : P (.expr (.literal value))) : (Node.expr (.literal value)).Every P :=
    .intro hP (by simp [Node.children, Node.parts])
  { h with
    fresh := by simpa [Expr.references] using h.fresh
    settled := List.forall_mem_cons.2 ⟨hevery trivial, h.settled⟩
    unreserved := fun hworded => List.forall_mem_cons.2 ⟨hevery trivial, h.unreserved hworded⟩
    confined := fun hclean => List.forall_mem_cons.2 ⟨hevery trivial, h.confined hclean⟩ }

/-- A node is read when its parts are. -/
theorem node (h : Yields φ xs s s') (n : Node) (hchildren : n.children ⊆ xs)
    (hids : (n.references.map (·.id)).Subperm ((xs.flatMap Node.references).map (·.id))) (hsettled : n.Settled)
    (hconfined : s'.errors = s.errors → n.Confined)
    (hunreserved : Worded s.tokens → n.Unreserved) : Yields φ [n] s s' :=
  { h with
    fresh := by simpa using h.fresh.subperm hids
    settled := by simpa using Node.Every.intro hsettled fun c hc => h.settled c (hchildren hc)
    unreserved := fun hworded => by
      simpa using Node.Every.intro (hunreserved hworded) fun c hc => h.unreserved hworded c (hchildren hc)
    confined := fun hclean => by
      simpa using Node.Every.intro (hconfined hclean) fun c hc => h.confined hclean c (hchildren hc) }

/-- A node without references of its own is read when its parts are, in whatever order. -/
theorem plain (h : Yields φ xs s s') (n : Node) (huses : n.uses = []) (hchildren : n.children.Subperm xs)
    (hsettled : n.Settled) (hconfined : s'.errors = s.errors → n.Confined)
    (hunreserved : Worded s.tokens → n.Unreserved) : Yields φ [n] s s' := by
  refine h.node n hchildren.subset ?_ hsettled hconfined hunreserved
  obtain ⟨l, hl, hsub⟩ := hchildren
  rw [Node.references_children, huses, List.nil_append]
  exact ⟨_, (hl.flatMap_right Node.references).map _, (hsub.flatMap _).map _⟩

theorem atLoopDepth {d : Nat} (h : Yields φ xs { s with loopDepth := d } s') :
    Yields φ xs s { s' with loopDepth := s.loopDepth } where
  tokens := h.tokens
  endLine := h.endLine
  loopDepth := rfl
  errors := h.errors
  nextId := h.nextId
  fresh := h.fresh
  settled := h.settled
  unreserved := h.unreserved
  confined := h.confined
  spans := h.spans

end Yields

end TreeWalk
