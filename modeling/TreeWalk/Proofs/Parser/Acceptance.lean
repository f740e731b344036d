import Mathlib.Data.List.Basic
import TreeWalk.Proofs.Parser.Levels
import TreeWalk.Proofs.Parser.Loops
import TreeWalk.Proofs.Parser.Reading

/-!
# Expressions of the grammar are accepted

What the grammar derives as an expression is read without error. An expression ends where a token
follows that binds less tightly than its operators, so `Stops` says up to which tightness.
-/

namespace TreeWalk

open TreeWalk.Parser TreeWalk.Grammar

/-- How tightly a token binds what stands in front of it. -/
def tightness : TokenKind → Nat
  | .equal => 1
  | .question => 2
  | .orKeyword => 3
  | .andKeyword => 4
  | .bangEqual | .equalEqual => 5
  | .greater | .greaterEqual | .less | .lessEqual => 6
  | .minus | .plus => 7
  | .slash | .star => 8
  | .leftParen | .dot | .leftBracket => 9
  | _ => 0

/-- What follows binds less tightly. -/
def Stops (level : Nat) (rest : List Token) : Prop := ∀ t ∈ rest.head?, tightness t.kind < level

theorem Stops.mono {level level' : Nat} {rest : List Token} (h : Stops level rest) (hlevel : level ≤ level') :
    Stops level' rest := fun t ht => Nat.lt_of_lt_of_le (h t ht) hlevel

/-- No operator of the level follows. -/
theorem Stops.operator_eq_none {κ : Type} {operator : TokenKind → Option κ} {level : Nat} {rest : List Token}
    (h : Stops level rest) (htight : ∀ kind, (operator kind).isSome → tightness kind = level) :
    ∀ t ∈ rest.head?, operator t.kind = none := by
  intro t ht
  by_contra hsome
  have := htight t.kind (Option.isSome_iff_ne_none.2 hsome)
  exact absurd (h t ht) (by omega)

theorem stops_cons {level : Nat} {t : Token} {rest : List Token} :
    Stops level (t :: rest) ↔ tightness t.kind < level := by
  simp [Stops]

/-- A token of the kind follows. -/
def Closes (kind : TokenKind) (rest : List Token) : Prop := rest.head?.map (·.kind) = some kind

theorem closes_cons {kind : TokenKind} {t : Token} {rest : List Token} :
    Closes kind (t :: rest) ↔ t.kind = kind := by
  simp [Closes]

theorem Closes.stops {kind : TokenKind} {rest : List Token} (h : Closes kind rest) {level : Nat}
    (hkind : tightness kind < level) : Stops level rest := by
  intro t ht
  simp only [Closes, Option.mem_def.1 ht, Option.map_some, Option.some.injEq] at h
  exact h ▸ hkind

section Lists

variable {α : Type} {item : Nat → Parser α} {φ : Phrase} {inLoop : Bool} {size : Nat}

theorem derives_items {most : Option Nat} {ts : List Token} (h : Derives (.items most φ) ts) :
    ∃ (first : List Token) (pieces : List (List Token)), Derives φ first ∧ (∀ m ∈ most, pieces.length ≤ m - 1) ∧
      (∀ piece ∈ pieces, ∃ t ys, t.kind = .comma ∧ Derives φ ys ∧ piece = t :: ys) ∧
      ts = first ++ pieces.flatten := by
  simp only [Phrase.items, derives_cons, derives_nil] at h
  obtain ⟨first, _, hfirst, ⟨_, _, hmany, rfl, rfl⟩, rfl⟩ := h
  obtain ⟨pieces, hmost, hpieces, rfl⟩ := derives_many.1 hmany
  refine ⟨first, pieces, hfirst, fun m hm => hmost _ (by simp [Option.mem_def.1 hm]), fun piece hp => ?_, by simp⟩
  have hpiece := hpieces piece hp
  simp only [derives_cons, derives_nil, derives_token] at hpiece
  obtain ⟨_, _, ⟨t, ht, rfl⟩, ⟨ys, _, hys, rfl, rfl⟩, rfl⟩ := hpiece
  exact ⟨t, ys, ht, hys, by simp⟩

/-- As long as there is room for another item, none is reported. -/
theorem commaItems_succ (item : Parser α) {tooMany : Option SyntaxCause} {count : Nat}
    (hroom : tooMany.isSome → count ≠ maxItems) (bound : Nat) :
    commaItems item tooMany (bound + 1) count = commaRound item (commaItems item tooMany bound (count + 1)) := by
  cases tooMany with
  | none => rfl
  | some cause =>
    have hcount : (count == maxItems) = false := by simpa using hroom rfl
    rw [commaItems, hcount]
    rfl

theorem commaItems_round {fits : List Token → Prop} {ts : List Token} {post : List α → Prop}
    {tooMany : Option SyntaxCause} {count : Nat} (hroom : tooMany.isSome → count ≠ maxItems)
    (h : Accepts 1 (fun n b => commaRound (item n) (commaItems (item n) tooMany (b - 1) (count + 1))) inLoop fits ts post) :
    Accepts 1 (fun n b => commaItems (item n) tooMany b count) inLoop fits ts post := by
  refine h.congr fun first levels rounds s rest hready => ?_
  obtain ⟨b, rfl⟩ : ∃ b, rounds = b + 1 := ⟨rounds - 1, by have := hready.rounds; omega⟩
  rw [commaItems_succ (item levels) hroom b]
  rfl

/-- So many items with commas between them, and what is known of the list of their results. -/
inductive ItemsRead (item : Nat → Parser α) (inLoop : Bool) : Nat → List Token → (List α → Prop) → Prop where
  | one {ts : List Token} {post : α → Prop} (h : Accepts 1 (fun n _ => item n) inLoop (Stops 1) ts post) :
    ItemsRead item inLoop 1 ts (fun l => ∃ a, post a ∧ l = [a])
  | more {ts us : List Token} {t : Token} {count : Nat} {post : α → Prop} {posts : List α → Prop}
    (h : Accepts 1 (fun n _ => item n) inLoop (Stops 1) ts post) (ht : t.kind = .comma)
    (hs : ItemsRead item inLoop count us posts) :
    ItemsRead item inLoop (count + 1) (ts ++ ([t] ++ us)) (fun l => ∃ a rest, post a ∧ posts rest ∧ l = a :: rest)

theorem itemsRead_pieces (hitem : ∀ ts, ts.length ≤ size → Derives φ ts →
      Accepts 1 (fun n _ => item n) inLoop (Stops 1) ts (fun _ => True)) (pieces : List (List Token)) (first : List Token)
    (hfirst : Derives φ first) (hpieces : ∀ piece ∈ pieces, ∃ t ys, t.kind = .comma ∧ Derives φ ys ∧ piece = t :: ys)
    (hsize : (first ++ pieces.flatten).length ≤ size) :
    ∃ posts, ItemsRead item inLoop (pieces.length + 1) (first ++ pieces.flatten) posts := by
  induction pieces generalizing first with
  | nil =>
    simp only [List.flatten_nil, List.append_nil] at hsize ⊢
    exact ⟨_, .one (hitem first hsize hfirst)⟩
  | cons piece pieces ih =>
    obtain ⟨t, ys, ht, hys, rfl⟩ := hpieces _ List.mem_cons_self
    simp only [List.flatten_cons, List.length_append, List.length_cons] at hsize
    obtain ⟨posts, hrest⟩ := ih ys hys (fun piece hpiece => hpieces piece (List.mem_cons_of_mem _ hpiece))
      (by simp only [List.length_append]; omega)
    exact ⟨_, .more (hitem first (by omega) hfirst) ht hrest⟩

theorem commaItems_accepts {closing : TokenKind} (hclosing : tightness closing = 0) (hcomma : closing ≠ .comma)
    {tooMany : Option SyntaxCause} {items : Nat} {ts : List Token} {posts : List α → Prop}
    (h : ItemsRead item inLoop items ts posts) (count : Nat) (hroom : tooMany.isSome → count + items ≤ maxItems) :
    Accepts 1 (fun n b => commaItems (item n) tooMany b count) inLoop (Closes closing) ts posts := by
  induction h generalizing count with
  | @one ts post h =>
    refine commaItems_round (fun hmany => by have := hroom hmany; omega) ?_
    rw [← List.append_nil ts]
    refine h.bind (fun a ha => ?_) (fun rest hrest => hrest.stops (by omega)) (Nat.le_add_right _ _)
    have hnone : Accepts 1 (fun _ _ => accept .comma) inLoop (Closes closing) [] (· = none) :=
      accept_none fun rest hrest t ht hkind => hcomma (by simpa [Closes, Option.mem_def.1 ht, hkind] using hrest.symm)
    exact hnone.skip (.pure ⟨a, ha, rfl⟩) fun _ h => h
  | @more ts us t items post posts h ht _ ih =>
    refine commaItems_round (fun hmany => by have := hroom hmany; omega) ?_
    refine h.bind (fun a ha => ?_) (fun rest _ => stops_cons.2 (by simp [ht, tightness])) (Nat.le_add_right _ _)
    have hrest := ih (count + 1) fun hmany => by have := hroom hmany; omega
    exact (accept_accepts ht).known (hrest.round.map _ fun rest hposts => ⟨a, rest, ha, hposts, rfl⟩) (Nat.le_refl _)

/-- In front of the closing token there is no item. -/
theorem commaList_nil (item : Nat → Parser α) (tooMany : Option SyntaxCause) (closing : TokenKind) :
    Accepts 1 (fun n _ => commaList (item n) tooMany closing) inLoop (Closes closing) [] (· = []) := by
  have hpure : Accepts 1 (fun _ _ => (pure [] : Parser (List α))) inLoop (Closes closing) [] (· = []) := .pure rfl
  refine hpure.congr fun first levels rounds s rest hready => ?_
  have hsees : s.tokens.head?.any (·.kind == closing) = true := by
    rw [hready.tokens, List.nil_append]
    obtain ⟨t, ht, hkind⟩ := Option.map_eq_some_iff.1 hready.fits
    simp [ht, hkind]
  show (ite (s.tokens.head?.any (·.kind == closing) = true) _ _ : Parser (List α)) s = _
  rw [if_pos hsees]

theorem commaList_items {closing : TokenKind} (hclosing : tightness closing = 0) (hcomma : closing ≠ .comma)
    {tooMany : Option SyntaxCause} {items : Nat} {t : Token} {ts : List Token} {posts : List α → Prop}
    (h : ItemsRead item inLoop items (t :: ts) posts) (ht : t.kind ≠ closing)
    (hroom : tooMany.isSome → items ≤ maxItems) :
    Accepts 1 (fun n _ => commaList (item n) tooMany closing) inLoop (Closes closing) (t :: ts) posts := by
  have hitems := commaItems_accepts hclosing hcomma h 0 fun hmany => by have := hroom hmany; omega
  refine hitems.remaining.congr fun first levels rounds s after hready => ?_
  have hsees : ¬ s.tokens.head?.any (·.kind == closing) = true := by
    rw [hready.tokens]
    simpa using ht
  show (ite (s.tokens.head?.any (·.kind == closing) = true) _ _ : Parser (List α)) s = _
  rw [if_neg hsees]

theorem commaList_accepts (closing : TokenKind) (hclosing : tightness closing = 0) (hcomma : closing ≠ .comma)
    (hitem : ∀ ts, ts.length ≤ size → Derives φ ts →
      Accepts 1 (fun n _ => item n) inLoop (Stops 1) ts (fun _ => True))
    (hstart : ∀ ts, Derives φ ts → ∃ t rest, ts = t :: rest ∧ t.kind ≠ closing)
    (tooMany : Option SyntaxCause) {ts : List Token}
    (h : Derives (.maybe (.items (tooMany.map fun _ => maxItems) φ)) ts) (hsize : ts.length ≤ size) :
    Accepts 1 (fun n _ => commaList (item n) tooMany closing) inLoop (Closes closing) ts (fun _ => True) := by
  rcases derives_maybe.1 h with rfl | h
  · exact (commaList_nil item tooMany closing).mono (fun _ _ => trivial) fun _ h => h
  · obtain ⟨first, pieces, hfirst, hcount, hpieces, rfl⟩ := derives_items h
    obtain ⟨t, rest, rfl, ht⟩ := hstart first hfirst
    obtain ⟨posts, hitems⟩ := itemsRead_pieces hitem pieces (t :: rest) hfirst hpieces hsize
    refine (commaList_items hclosing hcomma hitems ht fun hmany => ?_).mono (fun _ _ => trivial) fun _ h => h
    obtain ⟨cause, rfl⟩ := Option.isSome_iff_exists.1 hmany
    have := hcount maxItems rfl
    simp only [maxItems] at this ⊢
    omega

/-- A loop that collects reads its pieces one by one when it stops only behind them. -/
theorem Collecting.accepts {β : Type} {loop : Nat → Nat → Parser (List β)} {step : Nat → Parser α}
    {add : α → List β → List β} {closes fits : List Token → Prop}
    (hloop : ∀ n, Collecting (loop n) closes (step n) add) (hfits : ∀ rest, closes rest → fits rest)
    (pieces : List (List Token))
    (hpieces : ∀ piece ∈ pieces, Accepts 1 (fun n _ => step n) inLoop fits piece (fun _ => True) ∧
      0 < piece.length ∧ ∀ rest, ¬ closes (piece ++ rest) ∧ fits (piece ++ rest)) :
    Accepts 1 (fun n b => loop n (b - 1)) inLoop closes pieces.flatten (fun _ => True) := by
  induction pieces with
  | nil =>
    have hnil : Accepts 1 (fun _ _ => (pure [] : Parser (List β))) inLoop closes [] (fun _ => True) :=
      .pure trivial
    exact hnil.congr fun first levels rounds s rest hready =>
      (hloop levels).stop _ s (hready.tokens ▸ hready.fits)
  | cons piece pieces ih =>
    obtain ⟨hpiece, hlength, hopens⟩ := hpieces piece List.mem_cons_self
    have hrest := ih fun other hother => hpieces other (List.mem_cons_of_mem _ hother)
    have hround : Accepts 1 (fun n b => step n >>= fun a => loop n (b - 1 - 1) >>= fun rest => pure (add a rest))
        inLoop closes (piece :: pieces).flatten (fun _ => True) := by
      refine hpiece.bind (fun a _ => hrest.round.map _ fun _ _ => trivial) (fun rest hcloses => ?_) (by omega)
      cases pieces with
      | nil => exact hfits rest hcloses
      | cons next pieces =>
        rw [List.flatten_cons, List.append_assoc]
        exact ((hpieces next (by simp)).2.2 _).2
    refine hround.congr fun first levels rounds s rest hready => ?_
    have hlong : s.tokens.length + 1 ≤ rounds := hready.rounds
    rw [hready.tokens, List.flatten_cons] at hlong
    simp only [List.length_append] at hlong
    obtain ⟨b, rfl⟩ : ∃ b, rounds = b + 2 := ⟨rounds - 2, by omega⟩
    refine (hloop levels).succ b s ?_
    rw [hready.tokens, List.flatten_cons, List.append_assoc]
    exact (hopens _).1

/-- A loop that extends an expression reads pieces that it knows by their first tokens. -/
theorem Extending.accepts {κ : Type} {loop : Nat → Nat → Expr → Parser Expr} {choose : Token → Option κ}
    {step : Nat → Expr → κ → Parser Expr} (post : List Token → Expr → Prop) {closes fits : List Token → Prop}
    (hloop : ∀ n, Extending (loop n) choose (step n))
    (hcloses : ∀ rest, closes rest → ∀ t ∈ rest.head?, choose t = none) (hfits : ∀ rest, closes rest → fits rest)
    (pieces : List (List Token))
    (hpieces : ∀ piece ∈ pieces, (∀ rest, fits (piece ++ rest)) ∧ ∃ t rest k, piece = [t] ++ rest ∧ choose t = some k ∧
      ∀ left, Accepts 1 (fun n _ => step n left k) inLoop fits rest (post piece)) (left : Expr) :
    Accepts 0 (fun n b => loop n b left) inLoop closes pieces.flatten
      (fun e => pieces.getLast?.elim (e = left) (post · e)) := by
  have hround {ts : List Token} {result : Expr → Prop} (left : Expr)
      (h : Accepts 0 (fun n b => acceptWhere choose >>= fun found =>
        found.elim (pure left) fun k => step n left k >>= loop n (b - 1)) inLoop closes ts result) :
      Accepts 0 (fun n b => loop n b left) inLoop closes ts result := by
    refine h.congr fun first levels rounds s rest hready => ?_
    cases rounds with
    | zero =>
      have hnil : s.tokens = [] := List.length_eq_zero_iff.1 (Nat.le_zero.1 hready.rounds)
      simp [(hloop levels).zero, bind_eq_match, acceptWhere, hnil]
    | succ b => rw [(hloop levels).succ, Nat.add_sub_cancel]
  induction pieces generalizing left with
  | nil => exact hround left ((acceptWhere_none hcloses).skip (.pure rfl) fun _ h => h)
  | cons piece pieces ih =>
    obtain ⟨-, t, rest, k, rfl, hchoose, hstep⟩ := hpieces piece List.mem_cons_self
    refine hround left ?_
    rw [List.flatten_cons, List.append_assoc]
    refine (acceptWhere_accepts hchoose).known ?_ (Nat.le_refl 1)
    have hothers := fun other hother => hpieces other (List.mem_cons_of_mem _ hother)
    refine (hstep left).bind (fun left' hleft => ?_) (fun rest' hrest => ?_) (Nat.le_add_right 1 _)
    · refine (ih hothers left').round.mono (fun e he => ?_) fun _ h => h
      cases pieces with
      | nil => exact he ▸ hleft
      | cons next pieces => rwa [List.getLast?_cons_cons]
    · cases pieces with
      | nil => exact hfits rest' hrest
      | cons next pieces =>
        rw [List.flatten_cons, List.append_assoc]
        exact (hothers next List.mem_cons_self).1 _

end Lists

/-! ## Functions -/

/-- No `else` follows. -/
def ElseFree (rest : List Token) : Prop := ∀ t ∈ rest.head?, t.kind ≠ .elseKeyword

/-- What the rules inside others accept, of fewer tokens than the given number. -/
structure Complete (size : Nat) : Prop where
  expression : ∀ ts, ts.length < size → Derives (.symbol .expression) ts →
    Accepts 1 (fun n _ => (rules n).expression) false (Stops 1) ts (fun _ => True)
  conditional : ∀ ts, ts.length < size → Derives (.symbol .conditional) ts →
    Accepts 1 (fun n _ => (rules n).conditional) false (Stops 2) ts (fun _ => True)
  unary : ∀ ts, ts.length < size → Derives (.symbol .unary) ts →
    Accepts 1 (fun n _ => (rules n).unary) false (Stops 9) ts (fun _ => True)
  statement : ∀ inLoop beforeElse ts, ts.length < size → Derives (.symbol (.statement inLoop beforeElse)) ts →
    Accepts 1 (fun n _ => (rules n).statement) inLoop (fun rest => beforeElse = true ∨ ElseFree rest) ts
      (fun _ => True)
  declaration : ∀ inLoop ts, ts.length < size → Derives (.symbol (.declaration inLoop)) ts →
    Accepts 1 (fun n _ => (rules n).declaration) inLoop ElseFree ts (fun o => ∃ statement, o = some statement)

section Functions

variable {size : Nat} {ts : List Token}

theorem EndsBody.elseFree {rest : List Token} (h : EndsBody rest) : ElseFree rest := by
  cases rest with
  | nil => exact nofun
  | cons t rest =>
    simp only [EndsBody, List.head?_cons, Option.any_some, List.isEmpty_cons, Bool.or_false, beq_iff_eq] at h
    intro u hu
    obtain rfl := Option.some.inj hu
    simp [h]

theorem endsBody_brace {t : Token} {rest : List Token} (h : t.kind = .rightBrace) : EndsBody (t :: rest) := by
  simp [EndsBody, h]

theorem not_endsBody {t : Token} {rest : List Token} (h : t.kind ≠ .rightBrace) : ¬ EndsBody (t :: rest) := by
  simpa [EndsBody] using h

theorem block_accepts (hk : Complete size) {inLoop : Bool} (h : Derives (.symbol (.block inLoop)) ts)
    (hsize : ts.length ≤ size) : ∃ t rest, ts = [t] ++ rest ∧ t.kind = .leftBrace ∧
      Accepts 1 (fun n _ => block (rules n)) inLoop Anything rest (fun _ => True) := by
  have h := derives_symbol.1 h
  simp only [production, derives_cons, derives_nil, derives_token] at h
  obtain ⟨_, _, ⟨u, hu, rfl⟩, ⟨_, _, hbody, ⟨_, _, ⟨t, ht, rfl⟩, rfl, rfl⟩, rfl⟩, rfl⟩ := h
  obtain ⟨pieces, -, hpieces, rfl⟩ := derives_many.1 hbody
  simp only [List.append_nil, List.length_append, List.length_singleton] at hsize ⊢
  have hloop : Accepts 1 (fun n b => declarations (rules n).declaration (b - 1)) inLoop EndsBody pieces.flatten
      (fun _ => True) := by
    refine Collecting.accepts (fun n => collecting_declarations (rules n).declaration) (fun _ => EndsBody.elseFree) pieces
      fun piece hpiece => ?_
    have hshort : piece.length ≤ pieces.flatten.length := (List.sublist_flatten_of_mem hpiece).length_le
    obtain ⟨u, us, rfl, hbrace, helse⟩ := starts_declaration (hpieces piece hpiece)
    refine ⟨(hk.declaration inLoop _ (by omega) (hpieces _ hpiece)).mono (fun _ _ => trivial) fun _ h => h,
      by simp, fun rest => ⟨not_endsBody hbrace, fun v hv => ?_⟩⟩
    obtain rfl := Option.some.inj hv
    exact helse
  have hbrace : Accepts 1 (fun n b => do
      let body ← declarations (rules n).declaration (b - 1)
      let _ ← expect .rightBrace "'\x7d' after block"
      pure body) inLoop Anything (pieces.flatten ++ [t]) (fun _ => True) :=
    hloop.bind (fun body _ => (expect_accepts ht).map _ fun _ _ => trivial) (fun _ _ => endsBody_brace ht)
      (Nat.le_add_right _ _)
  exact ⟨u, _, rfl, hu, hbrace.remaining⟩

theorem function_accepts (hk : Complete size) (h : Derives (.symbol .function) ts) (hsize : ts.length ≤ size) :
    Accepts 0 (fun n _ => function (rules n)) false Anything ts (fun _ => True) := by
  have h := derives_symbol.1 h
  simp only [production, derives_cons, derives_nil, derives_token] at h
  obtain ⟨_, _, ⟨t, ht, rfl⟩, ⟨params, _, hparams, ⟨_, _, ⟨u, hu, rfl⟩, ⟨_, _, hblock, rfl, rfl⟩, rfl⟩, rfl⟩, rfl⟩ := h
  simp only [List.append_nil, List.length_append, List.length_singleton] at hsize ⊢
  obtain ⟨v, body, rfl, hv, hbody⟩ := block_accepts hk hblock (by omega)
  have hname (ts : List Token) (h : Derives (.token .identifier) ts) :
      Accepts 1 (fun _ _ => expectName "parameter name") false (Stops 1) ts (fun _ => True) := by
    obtain ⟨x, hx, rfl⟩ := derives_token.1 h
    exact (expectName_accepts hx).mono (fun _ _ => trivial) fun _ _ => trivial
  refine (expect_accepts ht).bind (fun _ _ => ?_) (fun _ _ => trivial) (Nat.le_refl 1)
  have hlist : Accepts 1 (fun _ _ => commaList (expectName "parameter name") (some .tooManyParameters) .rightParen)
      false (Closes .rightParen) params (fun _ => True) := by
    refine commaList_accepts .rightParen rfl (by rintro ⟨⟩) (fun ts _ h => hname ts h) (fun ts h => ?_) _ hparams (Nat.le_refl _)
    obtain ⟨x, hx, rfl⟩ := derives_token.1 h
    exact ⟨x, [], rfl, by simp [hx]⟩
  refine hlist.bind (fun params _ => ?_) (fun _ _ => closes_cons.2 hu) (Nat.le_add_right 1 _)
  refine (expect_accepts hu).after fun _ _ => ?_
  refine (expect_accepts hv).after fun _ _ => ?_
  exact (atLoopDepth_accepts hbody (by rintro ⟨⟩)).map _ fun _ _ => trivial

/-- The first token decides what is read. -/
theorem current_accepts {α : Type} {margin : Nat} {q : Token → Nat → Nat → Parser α} {inLoop : Bool}
    {fits : List Token → Prop} {t : Token} {rest : List Token} {post : α → Prop}
    (h : Accepts margin (q t) inLoop fits ([t] ++ rest) post) :
    Accepts margin (fun n b => current >>= fun t => q t n b) inLoop fits ([t] ++ rest) post := by
  refine h.congr fun first levels rounds s after hready => ?_
  simp [bind_eq_match, current, hready.tokens]

/-- A token is passed over. -/
theorem advance_then {α : Type} {margin : Nat} {p : Nat → Nat → Parser α} {inLoop : Bool}
    {fits : List Token → Prop} {t : Token} {rest : List Token} {post : α → Prop}
    (h : Accepts (margin + 1) p inLoop fits rest post) :
    Accepts margin (fun n b => advance >>= fun _ => p n b) inLoop fits ([t] ++ rest) post :=
  (advance_accepts t).bind (fun _ _ => h) (fun _ _ => trivial) (Nat.le_refl _)

/-- The expressions between commas. -/
theorem arguments_accepts (hk : Complete size) (closing : TokenKind) (tooMany : Option SyntaxCause)
    (hclosing : tightness closing = 0) (hcomma : closing ≠ .comma) (hstarts : closing ∉ expressionStarts)
    (h : Derives (.maybe (.items (tooMany.map fun _ => maxItems) (.symbol .expression))) ts) (hsize : ts.length < size) :
    Accepts 1 (fun n _ => commaList (rules n).expression tooMany closing) false (Closes closing) ts
      (fun _ => True) := by
  refine commaList_accepts closing hclosing hcomma (fun us hus h => ?_) (fun us h => ?_) tooMany h (Nat.le_refl _)
  · exact hk.expression us (Nat.lt_of_le_of_lt hus hsize) h
  · obtain ⟨t, rest, rfl, ht, -⟩ := opens_expression h
    exact ⟨t, rest, rfl, fun hkind => hstarts (hkind ▸ ht)⟩

theorem variable_accepts (r : Nat → Rules) {t : Token} (ht : t.kind = .identifier) :
    Accepts 0 (fun n _ => primary (r n)) false Anything [t] (fun e => ∃ use, e = .variable use) := by
  rw [← List.append_nil [t]]
  refine current_accepts ?_
  simp only [ht]
  exact advance_then ((reference_accepts _).map _ fun use _ => ⟨use, rfl⟩)

theorem atom_accepts (r : Nat → Rules) {t : Token} (ht : t.kind ∈ atoms) :
    Accepts 0 (fun n _ => primary (r n)) false Anything [t] (fun _ => True) := by
  simp only [atoms, List.mem_cons, List.not_mem_nil, or_false] at ht
  rcases ht with ht | ht | ht | ht | ht | ht | ht
  case inr.inr.inr.inr.inr.inr => exact (variable_accepts r ht).mono (fun _ _ => trivial) fun _ h => h
  all_goals
    rw [← List.append_nil [t]]
    refine current_accepts ?_
    simp only [ht]
    refine advance_then ?_
  case inr.inr.inr.inr.inr.inl => exact fresh_accepts.map _ fun _ _ => trivial
  all_goals exact .pure trivial

theorem primary_accepts (hk : Complete size) (h : Derives (.symbol .primary) ts) (hsize : ts.length ≤ size) :
    Accepts 0 (fun n _ => primary (rules n)) false Anything ts (fun _ => True) := by
  have h := derives_symbol.1 h
  simp only [production, derives_choice, List.mem_cons, List.not_mem_nil, or_false, exists_eq_or_imp,
    exists_eq_left, derives_oneOf, derives_cons, derives_nil, derives_token] at h
  rcases h with ⟨t, ht, rfl⟩ | ⟨_, ys, ⟨t, ht, rfl⟩, ⟨_, _, ⟨u, hu, rfl⟩, ⟨_, _, ⟨v, hv, rfl⟩, rfl, rfl⟩, rfl⟩, rfl⟩ |
    ⟨_, _, ⟨t, ht, rfl⟩, ⟨xs, _, hinner, ⟨_, _, ⟨u, hu, rfl⟩, rfl, rfl⟩, rfl⟩, rfl⟩ |
    ⟨_, _, ⟨t, ht, rfl⟩, ⟨xs, _, hfunction, rfl, rfl⟩, rfl⟩ |
    ⟨_, _, ⟨t, ht, rfl⟩, ⟨xs, _, helements, ⟨_, _, ⟨u, hu, rfl⟩, rfl, rfl⟩, rfl⟩, rfl⟩
  · exact atom_accepts rules ht
  all_goals
    refine current_accepts ?_
    simp only [ht]
    refine advance_then ?_
    simp only [List.length_append, List.length_singleton] at hsize
  · refine (expect_accepts hu).after fun _ _ => ?_
    refine (expectName_accepts hv).after fun _ _ => ?_
    exact fresh_accepts.map _ fun _ _ => trivial
  · refine (hk.expression xs (by omega) hinner).bind (fun _ _ => ?_) (fun _ _ => stops_cons.2 ?_) (Nat.le_add_right 1 _)
    · exact (expect_accepts hu).map _ fun _ _ => trivial
    · simp [hu, tightness]
  · simp only [List.append_nil] at hsize ⊢
    exact ((function_accepts hk hfunction (by omega)).weaken (Nat.zero_le 1)).map _ fun _ _ => trivial
  · have hitems : Accepts 1 (fun n _ => commaList (rules n).expression none .rightBracket) false
        (Closes .rightBracket) xs (fun _ => True) :=
      arguments_accepts hk .rightBracket none rfl (by rintro ⟨⟩) (by decide) helements (by omega)
    refine hitems.bind (fun _ _ => ?_) (fun _ _ => closes_cons.2 hu) (Nat.le_add_right 1 _)
    exact (expect_accepts hu).map _ fun _ _ => trivial

/-! ## Calls -/

/-- What a value can be assigned to. -/
def Assignable (e : Expr) : Prop := (∃ use, e = .variable use) ∨ ∃ object name, e = .get object name

theorem suffix_accepts (hk : Complete size) (h : Derives suffixPhrase ts) (hsize : ts.length ≤ size) :
    ∃ t rest, ts = [t] ++ rest ∧ opensSuffix t.kind = true ∧ ∀ target,
      Accepts 1 (fun n _ => suffix (rules n) target t) false Anything rest
        (fun e => t.kind = .dot → Assignable e) := by
  simp only [suffixPhrase, derives_choice, List.mem_cons, List.not_mem_nil, or_false, exists_eq_or_imp,
    exists_eq_left, derives_cons, derives_nil, derives_token] at h
  rcases h with ⟨_, _, ⟨t, ht, rfl⟩, ⟨xs, _, harguments, ⟨_, _, ⟨u, hu, rfl⟩, rfl, rfl⟩, rfl⟩, rfl⟩ |
    ⟨_, _, ⟨t, ht, rfl⟩, ⟨_, _, ⟨u, hu, rfl⟩, rfl, rfl⟩, rfl⟩ |
    ⟨_, _, ⟨t, ht, rfl⟩, ⟨xs, _, hposition, ⟨_, _, ⟨u, hu, rfl⟩, rfl, rfl⟩, rfl⟩, rfl⟩
  all_goals
    refine ⟨t, _, rfl, by simp [ht, opensSuffix], fun target => ?_⟩
    simp only [suffix, ht]
    simp only [List.length_append, List.length_singleton] at hsize
  · have hitems : Accepts 1 (fun n _ => commaList (rules n).expression (some .tooManyArguments) .rightParen) false
        (Closes .rightParen) xs (fun _ => True) :=
      arguments_accepts hk .rightParen (some .tooManyArguments) rfl (by rintro ⟨⟩) (by decide) harguments (by omega)
    refine hitems.bind (fun _ _ => ?_) (fun _ _ => closes_cons.2 hu) (Nat.le_add_right 1 _)
    exact (expect_accepts hu).map _ fun _ _ hdot => by cases hdot
  · exact (expectName_accepts hu).map _ fun name _ _ => .inr ⟨target, name, rfl⟩
  · refine (hk.expression xs (by omega) hposition).bind (fun _ _ => ?_) (fun _ _ => stops_cons.2 ?_) (Nat.le_add_right 1 _)
    · exact (expect_accepts hu).map _ fun _ _ hdot => by cases hdot
    · simp [hu, tightness]

theorem suffixes_accepts (hk : Complete size) (pieces : List (List Token))
    (hpieces : ∀ piece ∈ pieces, Derives suffixPhrase piece) (hsize : pieces.flatten.length ≤ size)
    (target : Expr) :
    Accepts 0 (fun n b => suffixes (rules n) b target) false (Stops 9) pieces.flatten
      (fun e => pieces.getLast?.elim (e = target) fun piece => piece.head?.map (·.kind) = some .dot → Assignable e) := by
  have hstops (rest) (hrest : Stops 9 rest) (t) (ht : t ∈ rest.head?) :
      (if opensSuffix t.kind then some t else none) = none := by
    have hkind := hrest t ht
    revert hkind
    cases t.kind <;> simp [tightness, opensSuffix]
  refine Extending.accepts _ (fun n => extending_suffixes (rules n)) hstops (fun _ _ => trivial) pieces
    (fun piece hpiece => ⟨fun _ => trivial, ?_⟩) target
  have hshort := (List.sublist_flatten_of_mem hpiece).length_le
  obtain ⟨t, rest, rfl, hopens, haccepts⟩ := suffix_accepts hk (hpieces piece hpiece) (by omega)
  refine ⟨t, rest, t, rfl, by simp [hopens], fun left => ?_⟩
  exact (haccepts left).mono (fun e he hdot => he (by simpa using hdot)) fun _ h => h

/-- The calls that the grammar derives, and what they are when a property read comes last. -/
theorem call_accepts (hk : Complete size) {first : List Token} {post : Expr → Prop}
    (hfirst : Accepts 0 (fun n _ => primary (rules n)) false Anything first post) (pieces : List (List Token))
    (hpieces : ∀ piece ∈ pieces, Derives suffixPhrase piece) (hsize : (first ++ pieces.flatten).length ≤ size) :
    Accepts 0 (fun n _ => call (rules n)) false (Stops 9) (first ++ pieces.flatten)
      (fun e => pieces.getLast?.elim (post e) fun piece => piece.head?.map (·.kind) = some .dot → Assignable e) := by
  simp only [List.length_append] at hsize
  refine hfirst.bind (fun target htarget => ?_) (fun _ _ => trivial) (Nat.zero_le _)
  refine (suffixes_accepts hk pieces hpieces (by omega) target).remaining.mono (fun e he => ?_) fun _ h => h
  cases hlast : pieces.getLast? with
  | none =>
    rw [hlast] at he
    exact (he : e = target) ▸ htarget
  | some piece => rwa [hlast] at he

/-! ## Operators -/

/-- A level of the expression grammar. What is accepted as a call is read at each level as the same. -/
structure AcceptsLevel (size level : Nat) (operand : Nat → Parser Expr) (σ : Symbol) : Prop where
  derived : ∀ ts, ts.length ≤ size → Derives (.symbol σ) ts →
    Accepts 0 (fun n _ => operand n) false (Stops level) ts (fun _ => True)
  of_call : ∀ ts post, Opens callStarts ts → Accepts 0 (fun n _ => call (rules n)) false (Stops 9) ts post →
    Accepts 0 (fun n _ => operand n) false (Stops level) ts post

/-- What begins like a call is no prefix operator with its operand. -/
theorem unary_of_call {post : Expr → Prop} (hopens : Opens callStarts ts)
    (h : Accepts 0 (fun n _ => call (rules n)) false (Stops 9) ts post) :
    Accepts 0 (fun n _ => unary (rules n)) false (Stops 9) ts post := by
  have hnone (rest : List Token) (hrest : Opens callStarts rest) (u : Token) (hu : u ∈ rest.head?) :
      (unaryKind u.kind).map (fun kind => (⟨kind, u.lexeme, u.line⟩ : Operator UnaryKind)) = none := by
    obtain ⟨t, _, rfl, hkind, -⟩ := hrest
    obtain rfl := Option.some.inj hu
    revert hkind
    cases t.kind <;> simp [callStarts, atoms, unaryKind]
  exact (acceptWhere_none hnone).skip h fun rest _ => hopens.append rest

theorem unary_level (hk : Complete size) : AcceptsLevel size 9 (fun n => unary (rules n)) .unary := by
  refine ⟨fun ts hsize h => ?_, fun ts post => unary_of_call⟩
  have h := derives_symbol.1 h
  simp only [production, derives_choice, List.mem_cons, List.not_mem_nil, or_false, exists_eq_or_imp,
    exists_eq_left, derives_oneOf, derives_cons, derives_nil] at h
  rcases h with ⟨_, _, ⟨t, ht, rfl⟩, ⟨xs, _, hoperand, rfl, rfl⟩, rfl⟩ | hcall
  · obtain ⟨op, hop⟩ : ∃ op, unaryKind t.kind = some op := by
      rcases ht with ht | ht <;> exact ⟨_, by rw [ht]; rfl⟩
    simp only [List.length_append, List.length_singleton, List.append_nil] at hsize ⊢
    refine (acceptWhere_accepts (by rw [hop]; rfl)).known ?_ (Nat.le_refl 1)
    exact (hk.unary xs (by omega) hoperand).map _ fun _ _ => trivial
  · refine unary_of_call (opens_call hcall) ?_
    obtain ⟨first, pieces, hfirst, hpieces, rfl⟩ := derives_repeated (derives_symbol.1 hcall)
    have hprimary := primary_accepts hk hfirst (by simp only [List.length_append] at hsize; omega)
    exact (call_accepts hk hprimary pieces hpieces hsize).mono (fun _ _ => trivial) fun _ h => h

section Chains

variable {κ : Type} (operator : TokenKind → Option κ) (build : Expr → Operator κ → Expr → Expr)
  {operand : Nat → Parser Expr} {operators : List TokenKind} {level : Nat} {τ : Symbol}

theorem leftAssociative_accepts (hoperators : ∀ kind ∈ operators, (operator kind).isSome)
    (htight : ∀ kind, (operator kind).isSome → tightness kind = level)
    (hτ : AcceptsLevel size (level + 1) operand τ) {first : List Token} {post : Expr → Prop}
    (hfirst : Accepts 0 (fun n _ => operand n) false (Stops (level + 1)) first post) (pieces : List (List Token))
    (hpieces : ∀ piece ∈ pieces, Derives (.seq [.oneOf operators, .symbol τ]) piece)
    (hsize : pieces.flatten.length ≤ size) :
    Accepts 0 (fun n _ => leftAssociative operator build (operand n)) false (Stops level) (first ++ pieces.flatten)
      (fun e => pieces = [] → post e) := by
  have hends {rest : List Token} (hrest : Stops level rest) : Stops (level + 1) rest := hrest.mono (Nat.le_succ _)
  have hloop (left : Expr) : Accepts 0 (fun n b => leftGrouped operator build (operand n) b left) false (Stops level)
      pieces.flatten (fun e => pieces.getLast?.elim (e = left) fun _ => True) := by
    refine Extending.accepts (fun _ _ => True) (fun n => extending_leftGrouped operator build (operand n))
      (fun rest hrest t ht => ?_) (fun _ => hends) pieces (fun piece hpiece => ?_) left
    · simp [hrest.operator_eq_none htight t ht]
    · have hshort := (List.sublist_flatten_of_mem hpiece).length_le
      have hpiece := hpieces piece hpiece
      simp only [derives_cons, derives_nil, derives_oneOf] at hpiece
      obtain ⟨_, _, ⟨t, ht, rfl⟩, ⟨rest, _, hrest, rfl, rfl⟩, rfl⟩ := hpiece
      obtain ⟨op, hop⟩ := Option.isSome_iff_exists.1 (hoperators _ ht)
      simp only [List.length_append, List.length_singleton, List.append_nil] at hshort ⊢
      refine ⟨fun _ => stops_cons.2 ?_, t, rest, _, rfl, by rw [hop]; rfl, fun left => ?_⟩
      · exact Nat.lt_succ_of_le (Nat.le_of_eq (htight _ (by simp [hop])))
      · exact ((hτ.derived rest (by omega) hrest).weaken (Nat.zero_le 1)).map _ fun _ _ => trivial
  refine hfirst.bind (fun left hleft => ?_) (fun rest hrest => ?_) (Nat.zero_le _)
  · refine (hloop left).remaining.mono (fun e he hpieces => ?_) fun _ h => h
    subst hpieces
    exact (he : e = left) ▸ hleft
  · cases pieces with
    | nil => exact hends hrest
    | cons piece pieces =>
      have hpiece := hpieces piece List.mem_cons_self
      simp only [derives_cons, derives_oneOf] at hpiece
      obtain ⟨_, ys, ⟨t, ht, rfl⟩, -, rfl⟩ := hpiece
      exact stops_cons.2 (Nat.lt_succ_of_le (Nat.le_of_eq (htight _ (hoperators _ ht))))

theorem chain_level (σ : Symbol) (hσ : production σ = .chain operators (.symbol τ))
    (hoperators : ∀ kind ∈ operators, (operator kind).isSome)
    (htight : ∀ kind, (operator kind).isSome → tightness kind = level)
    (hτ : AcceptsLevel size (level + 1) operand τ) :
    AcceptsLevel size level (fun n => leftAssociative operator build (operand n)) σ := by
  refine ⟨fun ts hsize h => ?_, fun ts post hopens h => ?_⟩
  · obtain ⟨first, pieces, hfirst, hpieces, rfl⟩ := derives_repeated (hσ ▸ derives_symbol.1 h)
    simp only [List.length_append] at hsize
    exact (leftAssociative_accepts operator build hoperators htight hτ (hτ.derived first (by omega) hfirst) pieces
      hpieces (by omega)).mono (fun _ _ => trivial) fun _ h => h
  · have h := leftAssociative_accepts operator build hoperators htight hτ (hτ.of_call ts post hopens h) [] (by simp) (by simp)
    simpa using h

end Chains

theorem disjunction_level (hk : Complete size) :
    AcceptsLevel size 3 (fun n => disjunction (rules n)) .disjunction := by
  have hfactor := chain_level factorKind .binary .factor rfl (by decide) (fun kind => by cases kind <;> decide)
    (unary_level hk)
  have hterm := chain_level termKind .binary .term rfl (by decide) (fun kind => by cases kind <;> decide) hfactor
  have hcomparison := chain_level comparisonKind .binary .comparison rfl (by decide)
    (fun kind => by cases kind <;> decide) hterm
  have hequality := chain_level equalityKind .binary .equality rfl (by decide)
    (fun kind => by cases kind <;> decide) hcomparison
  have hconjunction := chain_level andKind .logical .conjunction rfl (by decide)
    (fun kind => by cases kind <;> decide) hequality
  exact chain_level orKind .logical .disjunction rfl (by decide) (fun kind => by cases kind <;> decide) hconjunction

/-- What has been read is all when it could only go on behind a token that binds more tightly than what follows. -/
theorem Accepts.alone {kind : TokenKind} {level : Nat} {p : Nat → Parser Expr} {more : Nat → Expr → Option Token → Parser Expr}
    {post : Expr → Prop} (h : Accepts 0 (fun n _ => p n) false (Stops (level + 1)) ts post)
    (hkind : level ≤ tightness kind) (hmore : ∀ n e, more n e none = Pure.pure e) :
    Accepts 0 (fun n _ => p n >>= fun e => accept kind >>= more n e) false (Stops level) ts post := by
  rw [← List.append_nil ts]
  refine h.bind (fun e he => ?_) (fun rest hrest => hrest.mono (Nat.le_succ level)) (Nat.zero_le _)
  have hnone : Accepts 0 (fun n _ => more n e none) false (Stops level) [] post := by
    simp only [hmore]
    exact .pure he
  refine (accept_none fun rest hrest t ht hkind' => ?_).skip hnone fun _ h => h
  have htight : tightness t.kind < level := hrest t ht
  exact absurd htight (Nat.not_lt_of_le (hkind' ▸ hkind))

/-- Without a question mark behind it the condition is all. -/
theorem conditional_of_disjunction {post : Expr → Prop}
    (h : Accepts 0 (fun n _ => disjunction (rules n)) false (Stops 3) ts post) :
    Accepts 0 (fun n _ => conditional (rules n)) false (Stops 2) ts post :=
  h.alone (by decide : 2 ≤ tightness .question) fun _ _ => rfl

theorem conditional_level (hk : Complete size) :
    AcceptsLevel size 2 (fun n => conditional (rules n)) .conditional := by
  refine ⟨fun ts hsize h => ?_, fun ts post hopens h =>
    conditional_of_disjunction ((disjunction_level hk).of_call ts post hopens h)⟩
  have h := derives_symbol.1 h
  simp only [production, derives_cons, derives_nil, derives_maybe, derives_token] at h
  obtain ⟨first, _, hfirst, ⟨branches, _, hbranches, rfl, rfl⟩, rfl⟩ := h
  simp only [List.append_nil, List.length_append] at hsize ⊢
  have hdisjunction := (disjunction_level hk).derived first (by omega) hfirst
  rcases hbranches with rfl | ⟨_, _, ⟨t, ht, rfl⟩, ⟨thenTokens, _, hthen, ⟨_, _, ⟨u, hu, rfl⟩,
    ⟨elseTokens, _, helse, rfl, rfl⟩, rfl⟩, rfl⟩, rfl⟩
  · simpa using conditional_of_disjunction hdisjunction
  · simp only [List.length_append, List.length_singleton, List.append_nil] at hsize ⊢
    refine hdisjunction.bind (fun condition _ => ?_) (fun rest hrest => stops_cons.2 ?_) (Nat.zero_le _)
    · refine (accept_accepts ht).known ?_ (Nat.le_refl 1)
      refine (hk.expression thenTokens (by omega) hthen).bind (fun _ _ => ?_) (fun _ _ => stops_cons.2 ?_)
        (Nat.le_add_right 1 _)
      · refine (expect_accepts hu).after fun _ _ => ?_
        exact (hk.conditional elseTokens (by omega) helse).map _ fun _ _ => trivial
      · simp [hu, tightness]
    · simp [ht, tightness]

/-! ## Assignments -/

/-- What may stand in front of an `=`. -/
theorem target_accepts (hk : Complete size) {target : List Token} {t : Token} (ht : t.kind = .identifier)
    (h : Derives (.maybe (.seq [.symbol .call, .token .dot])) target) (hsize : (target ++ [t]).length ≤ size) :
    Accepts 0 (fun n _ => conditional (rules n)) false (Stops 2) (target ++ [t]) Assignable := by
  rcases derives_maybe.1 h with rfl | h
  · have hvariable := call_accepts hk (variable_accepts rules ht) [] (by simp) hsize
    refine (conditional_level hk).of_call _ _ (.cons (by simp [ht, callStarts, atoms]) (by simp [ht])) ?_
    exact hvariable.mono (fun _ h => .inl h) fun _ h => h
  · simp only [derives_cons, derives_nil, derives_token] at h
    obtain ⟨object, _, hcall, ⟨_, _, ⟨dot, hdot, rfl⟩, rfl, rfl⟩, rfl⟩ := h
    have hopens := opens_call hcall
    obtain ⟨first, pieces, hfirst, hpieces, rfl⟩ := derives_repeated (derives_symbol.1 hcall)
    have hprimary := primary_accepts hk hfirst (by simp only [List.length_append] at hsize; omega)
    have hproperty : Derives suffixPhrase [dot, t] := by
      simp [suffixPhrase, hdot, ht]
    have hread := call_accepts hk hprimary (pieces ++ [[dot, t]])
      (by simpa [or_imp, forall_and] using ⟨hpieces, hproperty⟩) (by simpa using hsize)
    rw [List.flatten_append, ← List.append_assoc] at hread
    have hlevel := (conditional_level hk).of_call _ _ (hopens.append _) hread
    simp only [List.flatten_cons, List.flatten_nil, List.append_nil, List.append_assoc] at hlevel ⊢
    exact hlevel.mono (fun e he => by simpa [hdot] using he) fun _ h => h

theorem assignTo_accepts {target : Expr} (h : Assignable target) (equal : Token) (value : Expr) :
    Accepts 1 (fun _ _ => assignTo target equal value) false Anything [] (fun _ => True) := by
  obtain ⟨use, rfl⟩ | ⟨object, name, rfl⟩ := h
  · exact (reference_accepts use.name).map _ fun _ _ => trivial
  · exact .pure trivial

/-- Without an `=` behind it the target is all. -/
theorem expression_of_conditional {post : Expr → Prop}
    (h : Accepts 0 (fun n _ => conditional (rules n)) false (Stops 2) ts post) :
    Accepts 0 (fun n _ => expression (rules n)) false (Stops 1) ts post :=
  h.alone (by decide : 1 ≤ tightness .equal) fun _ _ => rfl

theorem expression_accepts (hk : Complete size) (h : Derives (.symbol .expression) ts) (hsize : ts.length ≤ size) :
    Accepts 0 (fun n _ => expression (rules n)) false (Stops 1) ts (fun _ => True) := by
  have h := derives_symbol.1 (derives_symbol.1 h)
  simp only [production, derives_choice, List.mem_cons, List.not_mem_nil, or_false, exists_eq_or_imp,
    exists_eq_left] at h
  rcases h with h | h
  · simp only [derives_cons, derives_nil, derives_token] at h
    obtain ⟨target, _, htarget, ⟨_, _, ⟨t, ht, rfl⟩, ⟨_, _, ⟨u, hu, rfl⟩, ⟨value, _, hvalue, rfl, rfl⟩, rfl⟩, rfl⟩, rfl⟩ := h
    simp only [← List.append_assoc target, List.append_nil] at hsize ⊢
    simp only [List.length_append, List.length_singleton] at hsize
    refine (target_accepts hk ht htarget (by simp only [List.length_append, List.length_singleton]; omega)).bind
      (fun e he => ?_) (fun rest _ => stops_cons.2 (by simp [hu, tightness])) (Nat.zero_le _)
    refine (accept_accepts hu).known ?_ (Nat.le_refl 1)
    rw [← List.append_nil value]
    exact (hk.expression value (by omega) (.symbol hvalue)).bind
      (fun v _ => (assignTo_accepts he u v).always) (fun _ h => h) (Nat.le_add_right 1 _)
  · exact expression_of_conditional ((conditional_level hk).derived ts hsize h)

end Functions

end TreeWalk
