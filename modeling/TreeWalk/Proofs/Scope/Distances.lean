import Mathlib.Data.List.Induction
import TreeWalk.Proofs.Scope.Legality

/-!
# Recorded distances

In a legal program resolution records for every reference the distance that its name has at its place.
-/

namespace TreeWalk

namespace Resolution

variable {r : Resolution} {known : Distances} {id : NodeId}

theorem getElem?_addDistances_of_not_mem (h : ∀ name d, .distance id name d ∉ r.findings) :
    (r.addDistances known)[id]? = known[id]? := by
  obtain ⟨findings⟩ := r
  unfold addDistances
  dsimp only at h ⊢
  induction findings using List.reverseRecOn with
  | nil => rfl
  | append_singleton findings finding ih =>
    have hearlier := ih fun name d hmem => h name d (List.mem_append_left _ hmem)
    rw [List.foldl_append, List.foldl_cons, List.foldl_nil]
    cases finding with
    | violation e => exact hearlier
    | distance other name d =>
      have hne : other ≠ id := by
        rintro rfl
        exact h name d (by simp)
      rw [Std.TreeMap.getElem?_insert, if_neg (by simpa using hne)]
      exact hearlier

theorem getElem?_addDistances {name : String} {d : Nat} (h : .distance id name d ∈ r.findings)
    (hsame : ∀ name' d', .distance id name' d' ∈ r.findings → d' = d) : (r.addDistances known)[id]? = some d := by
  obtain ⟨findings⟩ := r
  unfold addDistances
  dsimp only at h hsame ⊢
  induction findings using List.reverseRecOn with
  | nil => cases h
  | append_singleton findings finding ih =>
    have hearlier := fun hmem => ih hmem fun name' d' hmem' => hsame name' d' (List.mem_append_left _ hmem')
    rw [List.foldl_append, List.foldl_cons, List.foldl_nil]
    cases finding with
    | violation e => exact hearlier (by simpa using h)
    | distance other name' d' =>
      rw [Std.TreeMap.getElem?_insert]
      by_cases hother : other = id
      · subst hother
        simpa using hsame name' d' (by simp)
      · rw [if_neg (by simpa using hother)]
        refine hearlier ?_
        rcases List.mem_append.1 h with hmem | hmem
        · exact hmem
        · cases List.mem_singleton.1 hmem
          exact absurd rfl hother

end Resolution

section Nodes

variable {around : Surroundings} {s : Scopes} {n : Node}

theorem mem_locate_iff {id : NodeId} {name : String} {finding : Finding} :
    finding ∈ s.locate id name ↔ ∃ d, s.distance? name = some d ∧ finding = .distance id name d := by
  unfold Scopes.locate
  cases s.distance? name <;> simp

theorem distance_not_mem_declaration (s : Scopes) (name : Name) (id : NodeId) (text : String) (d : Nat) :
    .distance id text d ∉ s.declaration name := by
  unfold Scopes.declaration
  split
  · exact fun h => by cases List.mem_singleton.1 h
  · exact List.not_mem_nil

theorem distance_not_mem_declarations (s : Scopes) (names : List Name) (id : NodeId) (text : String) (d : Nat) :
    .distance id text d ∉ s.declarations names := by
  induction names generalizing s with
  | nil => exact List.not_mem_nil
  | cons first rest ih =>
    rw [Scopes.declarations, List.mem_append, not_or]
    exact ⟨distance_not_mem_declaration s first id text d, ih _⟩

/-- Distances are those of the references in a node. -/
theorem Node.use_of_distance {id : NodeId} {name : String} {d : Nat}
    (h : .distance id name d ∈ n.ownFindings around s) :
    ∃ u ∈ n.uses, u.id = id ∧ u.name.text = name ∧ s.distance? name = some d := by
  have hlocate {u : Reference} (hu : u ∈ n.uses) (h : .distance id name d ∈ s.locate u.id u.name.text) :
      ∃ u ∈ n.uses, u.id = id ∧ u.name.text = name ∧ s.distance? name = some d := by
    obtain ⟨d', hd, heq⟩ := mem_locate_iff.1 h
    cases heq
    exact ⟨u, hu, rfl, rfl, hd⟩
  have hdeclaration {other : Name} (h : .distance id name d ∈ s.declaration other) : False :=
    distance_not_mem_declaration s other id name d h
  rcases n with e | statement | ⟨role, f⟩
  · cases e with
    | «variable» use =>
      refine hlocate (List.mem_singleton_self use) ?_
      rcases List.mem_append.1 h with h | h
      · split at h
        · cases List.mem_singleton.1 h
        · cases h
      · exact h
    | assign target value => exact hlocate (List.mem_singleton_self target) h
    | this id line =>
      refine hlocate (List.mem_singleton_self _) ?_
      simp only [ownFindings, Expr.findings] at h
      split at h
      · cases List.mem_singleton.1 h
      · exact h
    | parent id keyword method =>
      refine hlocate (List.mem_singleton_self _) ?_
      simp only [ownFindings, Expr.findings] at h
      split at h
      · cases List.mem_singleton.1 h
      · cases List.mem_singleton.1 h
      · exact h
    | _ => cases h
  · cases statement with
    | var other value => exact (hdeclaration h).elim
    | function other f => exact (hdeclaration h).elim
    | «class» other parent methods =>
      cases parent with
      | none => exact (hdeclaration h).elim
      | some use =>
        rcases List.mem_append.1 h with h | h
        · exact (hdeclaration h).elim
        · split at h
          · cases List.mem_singleton.1 h
          · cases h
    | «return» line value =>
      cases value with
      | none =>
        simp only [ownFindings, Stmt.findings] at h
        split at h
        · cases List.mem_singleton.1 h
        · cases h
      | some value =>
        simp only [ownFindings] at h
        split at h
        · cases List.mem_singleton.1 h
        · cases List.mem_singleton.1 h
        · cases h
    | _ => cases h
  · exact (distance_not_mem_declarations _ _ id name d h).elim

/-- Without a violation at a node, all that it refers to is located. -/
theorem Node.distance_of_clean (hclean : Clean (n.ownFindings around s)) {u : Reference} (hu : u ∈ n.uses) {d : Nat}
    (hd : s.distance? u.name.text = some d) : .distance u.id u.name.text d ∈ n.ownFindings around s := by
  have hlocate : .distance u.id u.name.text d ∈ s.locate u.id u.name.text := mem_locate_iff.2 ⟨d, hd, rfl⟩
  rcases n with e | statement | ⟨role, f⟩
  · cases e with
    | «variable» use =>
      obtain rfl := List.mem_singleton.1 hu
      exact List.mem_append_right _ hlocate
    | assign target value =>
      obtain rfl := List.mem_singleton.1 hu
      exact hlocate
    | this id line =>
      obtain rfl := List.mem_singleton.1 hu
      simp only [ownFindings, Expr.findings] at hclean ⊢
      split at hclean
      · exact absurd hclean (clean_violation _ _)
      · exact hlocate
    | parent id keyword method =>
      obtain rfl := List.mem_singleton.1 hu
      simp only [ownFindings, Expr.findings] at hclean ⊢
      split at hclean
      · exact absurd hclean (clean_violation _ _)
      · exact absurd hclean (clean_violation _ _)
      · exact hlocate
    | _ => cases hu
  · cases hu
  · cases hu

end Nodes

section Programs

variable {globals : List String} {program : List Stmt} {known : Distances}

theorem Occurs.uses_subset {p : Place} {n : Node} (h : Occurs program p n) : n.uses ⊆ Stmt.referencesAll program := by
  obtain ⟨item, hitem, hwithin⟩ := h
  intro u hu
  rw [← references_suite .top []]
  exact List.mem_flatMap.2 ⟨item, hitem, mem_references_iff.2 ⟨_, hwithin, hu⟩⟩

theorem Occurs.references_subset {p : Place} {n : Node} (h : Occurs program p n) :
    n.references ⊆ Stmt.referencesAll program := by
  obtain ⟨item, hitem, hwithin⟩ := h
  intro u hu
  obtain ⟨⟨q, m⟩, hinner, hum⟩ := (mem_references_iff (p := p)).1 hu
  exact Occurs.uses_subset ⟨item, hitem, hwithin.trans hinner⟩ hum

/-- Every reference of a legal program gets the distance of its place, if its id is new. -/
theorem getElem?_distances (hlegal : ∀ p n, Occurs program p n → Clean (ownAt globals p n))
    (hids : ((Stmt.referencesAll program).map (·.id)).Nodup)
    {p : Place} {n : Node} (hn : Occurs program p n) {u : Reference} (hu : u ∈ n.uses) (hnew : known[u.id]? = none) :
    ((Resolution.ofProgram (Resolution.knownGlobals globals) program).addDistances known)[u.id]? =
      (p.scopes (Resolution.knownGlobals globals)).distance? u.name.text := by
  -- Another finding for the same id comes from the same node.
  have hsame {name : String} {d : Nat}
      (h : .distance u.id name d ∈ (Resolution.ofProgram (Resolution.knownGlobals globals) program).findings) :
      (p.scopes (Resolution.knownGlobals globals)).distance? u.name.text = some d := by
    obtain ⟨q, m, hm, hown⟩ := (mem_findings_iff _ program _).1 h
    obtain ⟨v, hv, hid, hname, hd⟩ := Node.use_of_distance hown
    obtain ⟨rfl, rfl⟩ := hn.unique hids hm hu hv hid.symm
    have huv : u = v := by
      rcases n with e | statement | ⟨role, f⟩
      · cases e <;> simp_all [Node.uses]
      · cases hu
      · cases hu
    rw [huv, hname, hd]
  cases hd : (p.scopes (Resolution.knownGlobals globals)).distance? u.name.text with
  | none =>
    rw [Resolution.getElem?_addDistances_of_not_mem, hnew]
    intro name d h
    rw [hsame h] at hd
    cases hd
  | some d =>
    have hown := Node.distance_of_clean (hlegal p n hn) hu hd
    refine Resolution.getElem?_addDistances ((mem_findings_iff _ program _).2 ⟨p, n, hn, hown⟩) fun name d' h => ?_
    have := hsame h
    rw [hd] at this
    exact (Option.some.inj this).symm

/-- Distances that are known stay the same, if their ids are not those of the program. -/
theorem getElem?_distances_of_ne {id : NodeId} (h : ∀ u ∈ Stmt.referencesAll program, u.id ≠ id) :
    ((Resolution.ofProgram (Resolution.knownGlobals globals) program).addDistances known)[id]? = known[id]? := by
  refine Resolution.getElem?_addDistances_of_not_mem fun name d hmem => ?_
  obtain ⟨p, n, hn, hown⟩ := (mem_findings_iff _ program _).1 hmem
  obtain ⟨u, hu, hid, -, -⟩ := Node.use_of_distance hown
  exact h u (hn.uses_subset hu) hid

end Programs

end TreeWalk
