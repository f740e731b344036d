import TreeWalk.Proofs.Parser.Lookahead
import TreeWalk.Proofs.Sequencing
import TreeWalk.Syntax.Grammar

/-!
# Reading without error

A list of tokens is accepted by a parser when it is read without error, to the last token and with
the same result whatever fits behind it. What follows may decide where reading stops, and each parser
says by `fits` what it can tell apart.
-/

namespace TreeWalk

open TreeWalk.Parser TreeWalk.Grammar

/-- A state in front of the tokens, from which a parser for so many levels and rounds can read them. -/
structure Ready (margin : Nat) (inLoop : Bool) (fits : List Token → Prop) (ts : List Token) (first : NodeId)
    (levels rounds : Nat) (s : ParserState) (rest : List Token) : Prop where
  tokens : s.tokens = ts ++ rest
  levels : s.tokens.length + margin ≤ levels
  rounds : s.tokens.length + margin ≤ rounds
  nextId : s.nextId = first
  loopDepth : inLoop = true → s.loopDepth ≠ 0
  fits : fits rest

/-- The tokens are read as the result, with the ids between the two numbers. -/
def Reads {α : Type} (margin : Nat) (p : Nat → Nat → Parser α) (inLoop : Bool) (fits : List Token → Prop)
    (ts : List Token) (first : NodeId) (a : α) (next : NodeId) : Prop :=
  ∀ levels rounds s rest, Ready margin inLoop fits ts first levels rounds s rest →
    p levels rounds s = .ok a { s with tokens := rest, nextId := next }

/-- From every id on, the tokens are read as something. -/
def Accepts {α : Type} (margin : Nat) (p : Nat → Nat → Parser α) (inLoop : Bool) (fits : List Token → Prop)
    (ts : List Token) (post : α → Prop) : Prop :=
  ∀ first, ∃ a next, post a ∧ Reads margin p inLoop fits ts first a next

/-- Anything may follow. -/
def Anything (_ : List Token) : Prop := True

section Accepts

variable {α β : Type} {margin margin' : Nat} {p p' : Nat → Nat → Parser α} {q : α → Nat → Nat → Parser β}
  {inLoop : Bool} {fits fits' : List Token → Prop} {ts xs ys : List Token} {post post' : α → Prop}
  {postβ : β → Prop}

namespace Ready

variable {first : NodeId} {levels rounds : Nat} {s : ParserState} {rest : List Token}

/-- What is ready for tokens is ready for the first of them. -/
theorem front (h : Ready margin inLoop fits (xs ++ ys) first levels rounds s rest)
    (hfits : fits' (ys ++ rest)) : Ready margin inLoop fits' xs first levels rounds s (ys ++ rest) where
  tokens := by rw [h.tokens, List.append_assoc]
  levels := h.levels
  rounds := h.rounds
  nextId := h.nextId
  loopDepth := h.loopDepth
  fits := hfits

/-- Behind the first tokens one is ready for the rest. -/
theorem behind (h : Ready margin inLoop fits (xs ++ ys) first levels rounds s rest) (next : NodeId)
    (hmargin : margin' ≤ margin + xs.length) :
    Ready margin' inLoop fits ys next levels rounds { s with tokens := ys ++ rest, nextId := next } rest where
  tokens := rfl
  levels := by
    have := h.levels
    rw [h.tokens] at this
    simp only [List.length_append] at this ⊢
    omega
  rounds := by
    have := h.rounds
    rw [h.tokens] at this
    simp only [List.length_append] at this ⊢
    omega
  nextId := rfl
  loopDepth := h.loopDepth
  fits := h.fits

end Ready

namespace Reads

variable {first middle next : NodeId} {a : α} {b : β}

theorem pure (first : NodeId) (a : α) : Reads margin (fun _ _ => Pure.pure a) inLoop fits [] first a first := by
  intro levels rounds s rest hready
  obtain ⟨htokens, -, -, rfl, -, -⟩ := hready
  simp only [List.nil_append] at htokens
  subst htokens
  rfl

theorem bind (hp : Reads margin p inLoop fits xs first a middle)
    (hq : Reads margin' (q a) inLoop fits' ys middle b next) (hfits : ∀ rest, fits' rest → fits (ys ++ rest))
    (hmargin : margin' ≤ margin + xs.length) :
    Reads margin (fun n r => p n r >>= fun a => q a n r) inLoop fits' (xs ++ ys) first b next := by
  intro levels rounds s rest hready
  exact (bind_ok (hp levels rounds s _ (hready.front (hfits rest hready.fits)))).trans
    (hq levels rounds _ rest (hready.behind middle hmargin))

theorem map (hp : Reads margin p inLoop fits ts first a next) (f : α → β) :
    Reads margin (fun n b => p n b >>= fun a => Pure.pure (f a)) inLoop fits ts first (f a) next := by
  intro levels rounds s rest hready
  exact bind_ok (hp levels rounds s rest hready)

theorem mono (hp : Reads margin p inLoop fits ts first a next) (hfits : ∀ rest, fits' rest → fits rest) :
    Reads margin p inLoop fits' ts first a next :=
  fun levels rounds s rest h => hp levels rounds s rest { h with fits := hfits rest h.fits }

/-- Parsers that do the same on such tokens read the same from them. -/
theorem congr (hp : Reads margin p inLoop fits ts first a next)
    (h : ∀ levels rounds s rest, Ready margin inLoop fits ts first levels rounds s rest →
      p' levels rounds s = p levels rounds s) : Reads margin p' inLoop fits ts first a next :=
  fun levels rounds s rest hready =>
    (h levels rounds s rest hready).trans (hp levels rounds s rest hready)

/-- One round less is enough where the margin is larger by one. -/
theorem round (hp : Reads margin p inLoop fits ts first a next) :
    Reads (margin + 1) (fun n b => p n (b - 1)) inLoop fits ts first a next :=
  fun levels rounds s rest h => hp levels (rounds - 1) s rest
    { h with levels := Nat.le_of_succ_le h.levels, rounds := Nat.le_pred_of_lt h.rounds }

end Reads

namespace Accepts

theorem pure {a : α} (h : post a) : Accepts margin (fun _ _ => Pure.pure a) inLoop fits [] post :=
  fun first => ⟨a, first, h, .pure first a⟩

theorem bind (hp : Accepts margin p inLoop fits xs post)
    (hq : ∀ a, post a → Accepts margin' (q a) inLoop fits' ys postβ)
    (hfits : ∀ rest, fits' rest → fits (ys ++ rest)) (hmargin : margin' ≤ margin + xs.length) :
    Accepts margin (fun n b => p n b >>= fun a => q a n b) inLoop fits' (xs ++ ys) postβ := by
  intro first
  obtain ⟨a, middle, ha, hreads⟩ := hp first
  obtain ⟨b, next, hb, hreads'⟩ := hq a ha middle
  exact ⟨b, next, hb, hreads.bind hreads' hfits hmargin⟩

/-- Nothing is consumed, and the result is known. -/
theorem skip {a : α} (hp : Accepts margin p inLoop fits [] (· = a))
    (hq : Accepts margin (q a) inLoop fits' ys postβ) (hfits : ∀ rest, fits' rest → fits (ys ++ rest)) :
    Accepts margin (fun n b => p n b >>= fun a => q a n b) inLoop fits' ys postβ :=
  hp.bind (fun _ h => h ▸ hq) hfits (Nat.le_refl _)

/-- The result of the first tokens is known. -/
theorem known {a : α} (hp : Accepts margin p inLoop Anything xs (· = a))
    (hq : Accepts margin' (q a) inLoop fits' ys postβ) (hmargin : margin' ≤ margin + xs.length) :
    Accepts margin (fun n b => p n b >>= fun a => q a n b) inLoop fits' (xs ++ ys) postβ :=
  hp.bind (fun _ h => h ▸ hq) (fun _ _ => trivial) hmargin

/-- Reading goes on, whatever follows. -/
theorem after (hp : Accepts margin p inLoop Anything xs post)
    (hq : ∀ a, post a → Accepts margin (q a) inLoop fits' ys postβ) :
    Accepts margin (fun n b => p n b >>= fun a => q a n b) inLoop fits' (xs ++ ys) postβ :=
  hp.bind hq (fun _ _ => trivial) (Nat.le_add_right _ _)

/-- The result is changed afterwards. -/
theorem map (hp : Accepts margin p inLoop fits ts post) (f : α → β) (hf : ∀ a, post a → postβ (f a)) :
    Accepts margin (fun n b => p n b >>= fun a => Pure.pure (f a)) inLoop fits ts postβ := by
  intro first
  obtain ⟨a, next, ha, hreads⟩ := hp first
  exact ⟨f a, next, hf a ha, hreads.map f⟩

theorem mono (hp : Accepts margin p inLoop fits ts post) (hpost : ∀ a, post a → post' a)
    (hfits : ∀ rest, fits' rest → fits rest) : Accepts margin p inLoop fits' ts post' := by
  intro first
  obtain ⟨a, next, ha, hreads⟩ := hp first
  exact ⟨a, next, hpost a ha, hreads.mono hfits⟩

/-- What is accepted whatever follows. -/
theorem always (hp : Accepts margin p inLoop Anything ts post) : Accepts margin p inLoop fits ts post :=
  hp.mono (fun _ h => h) fun _ _ => trivial

/-- Parsers that do the same on such tokens accept the same of them. -/
theorem congr (hp : Accepts margin p inLoop fits ts post)
    (h : ∀ first levels rounds s rest, Ready margin inLoop fits ts first levels rounds s rest →
      p' levels rounds s = p levels rounds s) : Accepts margin p' inLoop fits ts post := by
  intro first
  obtain ⟨a, next, ha, hreads⟩ := hp first
  exact ⟨a, next, ha, hreads.congr (h first)⟩

/-- More levels and rounds do no harm. -/
theorem weaken (hp : Accepts margin p inLoop fits ts post) (hmargin : margin ≤ margin') :
    Accepts margin' p inLoop fits ts post := by
  intro first
  obtain ⟨a, next, ha, hreads⟩ := hp first
  exact ⟨a, next, ha, fun levels rounds s rest h => hreads levels rounds s rest
    { h with levels := Nat.le_trans (Nat.add_le_add_left hmargin _) h.levels
             rounds := Nat.le_trans (Nat.add_le_add_left hmargin _) h.rounds }⟩

theorem round (hp : Accepts margin p inLoop fits ts post) :
    Accepts (margin + 1) (fun n b => p n (b - 1)) inLoop fits ts post := by
  intro first
  obtain ⟨a, next, ha, hreads⟩ := hp first
  exact ⟨a, next, ha, hreads.round⟩

/-- The tokens that are left are as many as rounds are needed. -/
theorem remaining (hp : Accepts margin p inLoop fits ts post) :
    Accepts margin (fun n _ => remaining >>= fun k => p n (k + margin)) inLoop fits ts post := by
  intro first
  obtain ⟨a, next, ha, hreads⟩ := hp first
  exact ⟨a, next, ha, fun levels _ s rest h => hreads levels (s.tokens.length + margin) s rest
    { h with rounds := Nat.le_refl _ }⟩

/-- What is accepted anywhere is accepted in loops. -/
theorem anywhere (hp : Accepts margin p false fits ts post) :
    Accepts margin p inLoop fits ts post := by
  intro first
  obtain ⟨a, next, ha, hreads⟩ := hp first
  exact ⟨a, next, ha, fun levels rounds s rest h => hreads levels rounds s rest { h with loopDepth := nofun }⟩

end Accepts

/-! ## Single tokens -/

theorem acceptWhere_accepts {choose : Token → Option α} {t : Token} {a : α} (h : choose t = some a) :
    Accepts margin (fun _ _ => acceptWhere choose) inLoop Anything [t] (· = some a) := by
  refine fun first => ⟨some a, first, rfl, fun levels rounds s rest hready => ?_⟩
  obtain ⟨htokens, -, -, rfl, -, -⟩ := hready
  simp [acceptWhere, htokens, h]

/-- Nothing is consumed in front of a token that is not wanted. -/
theorem acceptWhere_none {choose : Token → Option α}
    (h : ∀ rest, fits rest → ∀ t ∈ rest.head?, choose t = none) :
    Accepts margin (fun _ _ => acceptWhere choose) inLoop fits [] (· = none) := by
  refine fun first => ⟨none, first, rfl, fun levels rounds s rest hready => ?_⟩
  obtain ⟨htokens, -, -, rfl, -, hfits⟩ := hready
  simp only [List.nil_append] at htokens
  subst htokens
  obtain ⟨tokens, endLine, loopDepth, nextId, errors⟩ := s
  cases tokens with
  | nil => rfl
  | cons t rest => simp [acceptWhere, h _ hfits t rfl]

theorem accept_accepts {kind : TokenKind} {t : Token} (h : t.kind = kind) :
    Accepts margin (fun _ _ => accept kind) inLoop Anything [t] (· = some t) :=
  acceptWhere_accepts (by simp [h])

theorem accept_none {kind : TokenKind} (h : ∀ rest, fits rest → ∀ t ∈ rest.head?, t.kind ≠ kind) :
    Accepts margin (fun _ _ => accept kind) inLoop fits [] (· = none) :=
  acceptWhere_none fun rest hfits t ht => by simp [h rest hfits t ht]

theorem expect_accepts {kind : TokenKind} {what : String} {t : Token} (h : t.kind = kind) :
    Accepts margin (fun _ _ => expect kind what) inLoop Anything [t] (· = t) := by
  refine fun first => ⟨t, first, rfl, fun levels rounds s rest hready => ?_⟩
  obtain ⟨htokens, -, -, rfl, -, -⟩ := hready
  simp [expect, accept, acceptWhere, htokens, h, bind_eq_match, Pure.pure, EStateM.pure]

theorem expectName_accepts {what : String} {t : Token} (h : t.kind = .identifier) :
    Accepts margin (fun _ _ => expectName what) inLoop Anything [t] (· = ⟨t.lexeme, t.line⟩) :=
  (expect_accepts h).map _ fun _ h => h ▸ rfl

theorem fresh_accepts : Accepts margin (fun _ _ => fresh) inLoop Anything [] (fun _ => True) := by
  refine fun first => ⟨first, first + 1, trivial, fun levels rounds s rest hready => ?_⟩
  obtain ⟨htokens, -, -, rfl, -, -⟩ := hready
  simp only [List.nil_append] at htokens
  subst htokens
  rfl

theorem reference_accepts (name : Name) :
    Accepts margin (fun _ _ => reference name) inLoop Anything [] (·.name = name) :=
  fresh_accepts.map _ fun _ _ => rfl

theorem advance_accepts (t : Token) : Accepts margin (fun _ _ => advance) inLoop Anything [t] (fun _ => True) := by
  refine fun first => ⟨(), first, trivial, fun levels rounds s rest hready => ?_⟩
  obtain ⟨htokens, -, -, rfl, -, -⟩ := hready
  simp [advance, htokens]

theorem atLoopDepth_accepts {depth : Nat → Nat} {inner : Bool} (h : Accepts margin p inner fits ts post)
    (hdepth : inner = true → ∀ d, depth d ≠ 0) :
    Accepts margin (fun n b => atLoopDepth depth (p n b)) inLoop fits ts post := by
  intro first
  obtain ⟨a, next, ha, hreads⟩ := h first
  refine ⟨a, next, ha, fun levels rounds s rest hready => ?_⟩
  have hinner := hreads levels rounds { s with loopDepth := depth s.loopDepth } rest
    { hready with loopDepth := fun hinner => hdepth hinner _ }
  simp [atLoopDepth, hinner]

end Accepts

end TreeWalk
