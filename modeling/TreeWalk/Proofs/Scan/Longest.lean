import Mathlib.Data.List.TakeWhile
import Mathlib.Data.Nat.Find
import TreeWalk.Proofs.Scan.Spelling

/-!
# The longest segment is split off

A text begins with a longest segment, and `split` finds it: one lemma for each kind of segment says so,
given that the segment could not be longer.
-/

namespace TreeWalk

theorem Digits.single {c : Char} (hc : Digit c) : Digits [c] := ⟨by simp, by simpa using hc⟩

theorem Digits.snoc {digits : List Char} (h : Digits digits) {c : Char} (hc : Digit c) : Digits (digits ++ [c]) :=
  ⟨by simp, fun d hd => (List.mem_append.1 hd).elim (h.digits d) fun hd => List.mem_singleton.1 hd ▸ hc⟩

theorem Word.nonempty {text : List Char} (h : Word text) : text ≠ [] := by
  obtain ⟨c, hc, -⟩ := h.first
  rintro rfl
  cases hc

namespace Segment

/-! ## Characters -/

theorem isBlank_iff {c : Char} : isBlank c = true ↔ Blank c := by
  simp [isBlank, Blank, or_assoc]

theorem isDigit_iff {c : Char} : c.isDigit = true ↔ Digit c := by
  simp [Char.isDigit, Digit, Char.le_def]

theorem startsName_iff {c : Char} : startsName c = true ↔ Letter c := by
  have hupper : c.isUpper = true ↔ 'A' ≤ c ∧ c ≤ 'Z' := decide_eq_true_iff
  have hlower : c.isLower = true ↔ 'a' ≤ c ∧ c ≤ 'z' :=
    Bool.and_eq_true_iff.trans (and_congr decide_eq_true_iff decide_eq_true_iff)
  have halpha : c.isAlpha = (c.isUpper || c.isLower) := rfl
  simp [startsName, Letter, halpha, hupper, hlower, or_comm, or_assoc]

theorem continuesName_iff {c : Char} : continuesName c = true ↔ Letter c ∨ Digit c := by
  rw [← startsName_iff, ← isDigit_iff]
  simp only [continuesName, startsName, Char.isAlphanum, Bool.or_eq_true]
  exact or_right_comm

/-- A character of a name or a number is no punctuation. -/
theorem punctuation?_of_continuesName {c : Char} (h : continuesName c = true) : punctuation? c = none := by
  unfold punctuation?
  split <;> first | rfl | exact absurd h (by decide)

theorem comparison?_of_continuesName {c : Char} (h : continuesName c = true) : comparison? c = none := by
  unfold comparison?
  split <;> first | rfl | exact absurd h (by decide)

theorem isBlank_of_continuesName {c : Char} (h : continuesName c = true) : isBlank c = false := by
  by_contra hblank
  rcases isBlank_iff.1 (Bool.not_eq_false _ ▸ hblank) with rfl | rfl | rfl | rfl <;> exact absurd h (by decide)

/-- A name or a number is told apart by its first character. -/
theorem split_of_continuesName {c : Char} (h : continuesName c = true) (rest : List Char) :
    split c rest = if c.isDigit then afterDigit c rest else if startsName c then afterLetter c rest
      else (fault (.unexpectedCharacter c) [c], rest) := by
  have hslash : (c == '/') = false := by
    by_contra hc
    exact absurd (eq_of_beq (Bool.not_eq_false _ ▸ hc) ▸ h) (by decide)
  have hquote : (c == '"') = false := by
    by_contra hc
    exact absurd (eq_of_beq (Bool.not_eq_false _ ▸ hc) ▸ h) (by decide)
  simp [split, isBlank_of_continuesName h, punctuation?_of_continuesName h, comparison?_of_continuesName h, hslash, hquote]

theorem split_digit {c : Char} (h : Digit c) (rest : List Char) : split c rest = afterDigit c rest := by
  rw [split_of_continuesName (continuesName_iff.2 (.inr h)), if_pos (isDigit_iff.2 h)]

theorem not_digit_of_letter {c : Char} (h : Letter c) : ¬ Digit c := by
  rintro ⟨hlow, hhigh⟩
  rcases h with ⟨h, -⟩ | ⟨h, -⟩ | rfl
  · exact absurd (Char.le_trans h hhigh) (by decide)
  · exact absurd (Char.le_trans h hhigh) (by decide)
  · exact absurd hhigh (by decide)

theorem split_letter {c : Char} (h : Letter c) (rest : List Char) : split c rest = afterLetter c rest := by
  rw [split_of_continuesName (continuesName_iff.2 (.inl h)), if_neg (isDigit_iff.not.2 (not_digit_of_letter h)),
    if_pos (startsName_iff.2 h)]

theorem mem_operators_of_punctuation {c : Char} {kind : TokenKind} (h : punctuation? c = some kind) :
    ([c], kind) ∈ operators := by
  unfold punctuation? at h
  split at h <;> cases h <;> decide

theorem mem_operators_of_comparison {c : Char} {kinds : TokenKind × TokenKind} (h : comparison? c = some kinds) :
    ([c], kinds.1) ∈ operators := by
  unfold comparison? at h
  split at h <;> cases h <;> decide

theorem split_unexpected {c : Char} (h : Unexpected c) (rest : List Char) :
    split c rest = (fault (.unexpectedCharacter c) [c], rest) := by
  have hblank : isBlank c = false := Bool.eq_false_iff.2 (isBlank_iff.not.2 h.blank)
  have hdigit : c.isDigit = false := Bool.eq_false_iff.2 (isDigit_iff.not.2 h.digit)
  have hletter : startsName c = false := Bool.eq_false_iff.2 (startsName_iff.not.2 h.letter)
  have hpunctuation : punctuation? c = none :=
    Option.eq_none_iff_forall_not_mem.2 fun kind hkind => h.operator _ _ (mem_operators_of_punctuation hkind) rfl
  have hcomparison : comparison? c = none :=
    Option.eq_none_iff_forall_not_mem.2 fun kinds hkinds => h.operator _ _ (mem_operators_of_comparison hkinds) rfl
  have hslash : c ≠ '/' := fun hc => h.operator ['/'] .slash (by decide) (by rw [hc]; rfl)
  simp [split, hblank, hdigit, hletter, hpunctuation, hcomparison, hslash, h.quote]

/-! ## Pieces with all characters of a class -/

theorem span_eq {α : Type} {p : α → Bool} {inside : List α} (h : ∀ a ∈ inside, p a = true) (rest : List α)
    (hrest : ∀ a ∈ rest.head?, p a = false) :
    (inside ++ rest).takeWhile p = inside ∧ (inside ++ rest).dropWhile p = rest := by
  rw [List.takeWhile_append_of_pos h, List.dropWhile_append_of_pos h]
  cases rest with
  | nil => simp
  | cons a rest =>
    have ha := hrest a rfl
    simp [ha]

/-! ## Comments -/

theorem splitComment_plain {depth : Nat} {c : Char} {rest : List Char} (hopen : ¬ (c = '/' ∧ rest.head? = some '*'))
    (hclose : ¬ (c = '*' ∧ rest.head? = some '/')) :
    splitComment depth (c :: rest) = (c :: (splitComment depth rest).1, (splitComment depth rest).2) := by
  rw [splitComment]
  · rintro rest' rfl rfl
    exact hopen ⟨rfl, rfl⟩
  · rintro rest' - rfl rfl
    exact hclose ⟨rfl, rfl⟩
  · rintro depth' rest' - rfl rfl
    exact hclose ⟨rfl, rfl⟩

/-- A comment is closed where it is said to be, and the outer ones go on behind it. -/
theorem splitComment_of_closes {body : List Char} (h : ClosesComment body) (depth : Nat) (rest : List Char) :
    splitComment depth (body ++ rest) =
      match depth with
      | 0 => (body, some rest)
      | outer + 1 => (body ++ (splitComment outer rest).1, (splitComment outer rest).2) := by
  induction h generalizing depth rest with
  | close => cases depth <;> rfl
  | @nested inner behind _ _ ihinner ihrest =>
    have hopen : splitComment depth ('/' :: '*' :: inner ++ behind ++ rest) =
        ('/' :: '*' :: (splitComment (depth + 1) (inner ++ (behind ++ rest))).1,
          (splitComment (depth + 1) (inner ++ (behind ++ rest))).2) := by
      rw [List.append_assoc, List.cons_append, List.cons_append]
      rfl
    rw [hopen, ihinner (depth + 1)]
    dsimp only
    rw [ihrest depth]
    cases depth <;> simp
  | @plain c next behind _ hopen hclose ih =>
    have hplain : splitComment depth (c :: next :: behind ++ rest) =
        (c :: (splitComment depth (next :: behind ++ rest)).1, (splitComment depth (next :: behind ++ rest)).2) :=
      splitComment_plain (by simpa using hopen) (by simpa using hclose)
    rw [hplain, ih depth]
    cases depth <;> rfl

/-- If an end is found, a comment is closed. -/
theorem closes_of_splitComment {depth : Nat} {text : List Char} (h : (splitComment depth text).2.isSome) :
    ∃ body rest, ClosesComment body ∧ text = body ++ rest ∧ ∀ outer, depth = outer + 1 → (splitComment outer rest).2.isSome := by
  -- The rest behind a nested comment is no tail of the pattern, so the induction is on the length.
  induction hn : text.length using Nat.strong_induction_on generalizing depth text with
  | _ n ih =>
    subst hn
    rcases text with _ | ⟨c, text⟩
    · simp [splitComment] at h
    by_cases hopen : c = '/' ∧ text.head? = some '*'
    · obtain ⟨rfl, hhead⟩ := hopen
      obtain ⟨text, rfl⟩ := List.head?_eq_some_iff.1 hhead
      have h : (splitComment (depth + 1) text).2.isSome := h
      obtain ⟨inner, behind, hinner, rfl, hbehind⟩ := ih text.length (by simp only [List.length_cons]; omega) h rfl
      have hshorter : behind.length < ('/' :: '*' :: (inner ++ behind)).length := by
        simp only [List.length_cons, List.length_append]
        omega
      obtain ⟨body, rest, hbody, rfl, hrest⟩ := ih behind.length hshorter (hbehind depth rfl) rfl
      exact ⟨'/' :: '*' :: inner ++ body, rest, .nested hinner hbody, by simp, hrest⟩
    by_cases hclose : c = '*' ∧ text.head? = some '/'
    · obtain ⟨rfl, hhead⟩ := hclose
      obtain ⟨text, rfl⟩ := List.head?_eq_some_iff.1 hhead
      refine ⟨['*', '/'], text, .close, rfl, ?_⟩
      rintro outer rfl
      exact h
    · rw [splitComment_plain hopen hclose] at h
      obtain ⟨body, rest, hbody, rfl, hrest⟩ := ih text.length (by simp) h rfl
      rcases body with _ | ⟨next, body⟩
      · cases hbody
      · exact ⟨c :: next :: body, rest, .plain hbody (by simpa using hopen) (by simpa using hclose), rfl, hrest⟩

/-- Without an end a comment takes the whole text. -/
theorem splitComment_eq_none {depth : Nat} {text : List Char} (h : (splitComment depth text).2 = none) :
    (splitComment depth text).1 = text := by
  fun_induction splitComment depth text <;> simp_all

theorem splitComment_of_open {text : List Char} (h : ∀ body rest, text = body ++ rest → ¬ ClosesComment body) :
    splitComment 0 text = (text, none) := by
  have hnone : (splitComment 0 text).2 = none := by
    by_contra hsome
    obtain ⟨body, rest, hbody, htext, -⟩ := closes_of_splitComment (Option.isSome_iff_ne_none.2 hsome)
    exact h body rest htext hbody
  exact Prod.ext (splitComment_eq_none hnone) hnone

/-! ## Lexemes -/

theorem ofWord_of_keyword {word : String} {kind : TokenKind} (h : (word, kind) ∈ TokenKind.keywords) :
    Word word.toList ∧ TokenKind.ofWord word = kind := by
  have hall : ∀ e ∈ TokenKind.keywords, e.1.toList.head?.any startsName = true ∧
      e.1.toList.all continuesName = true ∧ TokenKind.ofWord e.1 = e.2 := by decide
  obtain ⟨hhead, hcontinues, hkind⟩ := hall _ h
  obtain ⟨first, hfirst, hstarts⟩ := (Option.any_eq_true ..).1 hhead
  have hcontinues := List.all_eq_true.1 hcontinues
  exact ⟨⟨⟨first, hfirst, startsName_iff.1 hstarts⟩, fun c hc => continuesName_iff.1 (hcontinues c hc)⟩, hkind⟩

theorem ofWord_of_free {word : String} (h : ∀ kind, (word, kind) ∉ TokenKind.keywords) :
    TokenKind.ofWord word = .identifier := by
  have hnone : TokenKind.keywords.lookup word = none := by
    refine List.lookup_eq_none_iff.2 fun e he => ?_
    by_contra hword
    obtain rfl : word = e.1 := by simpa using hword
    exact h e.2 he
  rw [TokenKind.ofWord, hnone]
  rfl

/-- What is spelled as an identifier is no keyword. -/
theorem ofWord_of_identifier {text : List Char} {literal : Option TokenLiteral} (h : Spells .identifier text literal) :
    TokenKind.ofWord (String.ofList text) = .identifier := by
  cases h with
  | operator h =>
    have hall : ∀ e ∈ operators, e.2 ≠ .identifier := by decide
    exact absurd rfl (hall _ h)
  | keyword h =>
    have hall : ∀ e ∈ TokenKind.keywords, e.2 ≠ .identifier := by decide
    exact absurd rfl (hall _ h)
  | identifier _ hfree => exact ofWord_of_free hfree

/-- Every word is a lexeme, of a keyword or of an identifier. -/
theorem spells_word {text : List Char} (h : Word text) : Spells (.ofWord (String.ofList text)) text none := by
  by_cases hfree : ∀ kind, (String.ofList text, kind) ∉ TokenKind.keywords
  · rw [ofWord_of_free hfree]
    exact .identifier h hfree
  · obtain ⟨kind, hkind⟩ := not_forall_not.1 hfree
    rw [(ofWord_of_keyword hkind).2]
    simpa using Spells.keyword hkind

/-- A segment that could not be longer is not followed by a character that would belong to it. -/
theorem Longest.next {s other : Segment} {rest : List Char} (hlongest : s.Longest rest) {c : Char} (hc : c ∈ rest.head?)
    (hother : other.Spelled) (htext : other.text = s.text ++ [c]) : False := by
  obtain ⟨after, rfl⟩ := List.head?_eq_some_iff.1 hc
  exact absurd (hlongest other hother [c] after rfl htext) (by simp)

theorem split_word {text rest : List Char} (h : Word text)
    (hlongest : (Segment.lexeme (.ofWord (String.ofList text)) text).Longest rest) {c : Char} {tail : List Char}
    (htext : text ++ rest = c :: tail) : split c tail = (.lexeme (.ofWord (String.ofList text)) text, rest) := by
  obtain ⟨first, hfirst, hletter⟩ := h.first
  obtain ⟨text, rfl⟩ := List.head?_eq_some_iff.1 hfirst
  obtain ⟨rfl, rfl⟩ : first = c ∧ text ++ rest = tail := by simpa using htext
  have hstop (d : Char) (hd : d ∈ rest.head?) : continuesName d = false := by
    by_contra hcontinues
    have hcontinues := continuesName_iff.1 (Bool.not_eq_false _ ▸ hcontinues)
    have hlonger : Word (first :: text ++ [d]) :=
      ⟨⟨first, rfl, hletter⟩, fun e he => (List.mem_append.1 he).elim (h.rest e) fun he => List.mem_singleton.1 he ▸ hcontinues⟩
    exact hlongest.next hd (.lexeme (spells_word hlonger)) rfl
  have hinside (d : Char) (hd : d ∈ text) : continuesName d = true :=
    continuesName_iff.2 (h.rest d (List.mem_cons_of_mem _ hd))
  obtain ⟨htake, hdrop⟩ := span_eq hinside rest hstop
  rw [split_letter hletter, afterLetter, htake, hdrop]

/-- Behind the digits of a number. -/
theorem span_digits {digits : List Char} (h : ∀ c ∈ digits, Digit c) (rest : List Char) (hrest : ∀ c ∈ rest.head?, ¬ Digit c) :
    (digits ++ rest).takeWhile Char.isDigit = digits ∧ (digits ++ rest).dropWhile Char.isDigit = rest :=
  span_eq (fun c hc => isDigit_iff.2 (h c hc)) rest fun c hc => Bool.eq_false_iff.2 (isDigit_iff.not.2 (hrest c hc))

/-- A text that begins with digits. -/
theorem split_digits {digits rest : List Char} (h : Digits digits) (hrest : ∀ d ∈ rest.head?, ¬ Digit d) {c : Char}
    {tail : List Char} (htext : digits ++ rest = c :: tail) : ∃ inside, digits = c :: inside ∧
      tail.takeWhile Char.isDigit = inside ∧ tail.dropWhile Char.isDigit = rest ∧ split c tail = afterDigit c tail := by
  obtain ⟨first, inside, rfl⟩ := List.exists_cons_of_ne_nil h.nonempty
  obtain ⟨rfl, rfl⟩ : first = c ∧ inside ++ rest = tail := by simpa using htext
  obtain ⟨htake, hdrop⟩ := span_digits (fun d hd => h.digits d (List.mem_cons_of_mem _ hd)) rest hrest
  exact ⟨inside, rfl, htake, hdrop, split_digit (h.digits first List.mem_cons_self) _⟩

theorem split_whole {digits rest : List Char} (h : Digits digits) (hlongest : (Segment.lexeme .number digits).Longest rest)
    {c : Char} {tail : List Char} (htext : digits ++ rest = c :: tail) : split c tail = (.lexeme .number digits, rest) := by
  have hdigit (d : Char) (hd : d ∈ rest.head?) : ¬ Digit d := fun hdigit =>
    hlongest.next hd (.lexeme (.whole (h.snoc hdigit))) rfl
  have hpoint (d : Char) (hd : d ∈ rest.head?) : d ≠ '.' := by
    rintro rfl
    exact hlongest.next hd (.malformed h) rfl
  obtain ⟨inside, rfl, htake, hdrop, hsplit⟩ := split_digits h hdigit htext
  rw [hsplit, afterDigit, htake, hdrop]
  rcases rest with _ | ⟨d, rest⟩
  · rfl
  · have hd := hpoint d rfl
    dsimp only
    split <;> simp_all

theorem split_decimal {whole fraction rest : List Char} (h : Digits whole) (h' : Digits fraction)
    (hlongest : (Segment.lexeme .number (whole ++ '.' :: fraction)).Longest rest) {c : Char} {tail : List Char}
    (htext : whole ++ '.' :: fraction ++ rest = c :: tail) :
    split c tail = (.lexeme .number (whole ++ '.' :: fraction), rest) := by
  obtain ⟨digit, fraction, rfl⟩ := List.exists_cons_of_ne_nil h'.nonempty
  have hdigit (d : Char) (hd : d ∈ rest.head?) : ¬ Digit d := fun hdigit =>
    hlongest.next hd (.lexeme (.decimal h (h'.snoc hdigit))) (by simp [Segment.text])
  have htext : whole ++ '.' :: (digit :: fraction ++ rest) = c :: tail := by simpa using htext
  obtain ⟨inside, rfl, htake, hdrop, hsplit⟩ := split_digits h (by simp [Digit]) htext
  obtain ⟨htake', hdrop'⟩ := span_digits (fun d hd => h'.digits d (List.mem_cons_of_mem _ hd)) rest hdigit
  rw [hsplit, afterDigit, htake, hdrop]
  simp [isDigit_iff.2 (h'.digits digit List.mem_cons_self), htake', hdrop']

theorem split_malformed {digits rest : List Char} (h : Digits digits)
    (hlongest : (Segment.fault (.malformedNumber (String.ofList (digits ++ ['.']))) (digits ++ ['.'])).Longest rest)
    {c : Char} {tail : List Char} (htext : digits ++ ['.'] ++ rest = c :: tail) :
    split c tail = (.fault (.malformedNumber (String.ofList (digits ++ ['.']))) (digits ++ ['.']), rest) := by
  have hdigit (d : Char) (hd : d ∈ rest.head?) : ¬ Digit d := fun hdigit =>
    hlongest.next hd (.lexeme (.decimal h (.single hdigit))) (by simp [Segment.text])
  have htext : digits ++ '.' :: rest = c :: tail := by simpa using htext
  obtain ⟨inside, rfl, htake, hdrop, hsplit⟩ := split_digits h (by simp [Digit]) htext
  rw [hsplit, afterDigit, htake, hdrop]
  rcases rest with _ | ⟨d, rest⟩
  · rfl
  · simp [Bool.eq_false_iff.2 (isDigit_iff.not.2 (hdigit d rfl))]

/-- The operator `=` makes a longer one with some others. -/
theorem split_comparison {c : Char} {kind longer : TokenKind} {rest : List Char}
    (hkinds : comparison? c = some (kind, longer)) (hlongest : (Segment.lexeme kind [c]).Longest rest)
    (hlonger : ([c, '='], longer) ∈ operators) : split c rest = (.lexeme kind [c], rest) := by
  have hblank : isBlank c = false := by
    unfold comparison? at hkinds
    split at hkinds <;> first | rfl | cases hkinds
  have hpunctuation : punctuation? c = none := by
    unfold comparison? at hkinds
    split at hkinds <;> first | rfl | cases hkinds
  rcases rest with _ | ⟨d, rest⟩
  · simp [split, hblank, hpunctuation, hkinds]
  · have hd : d ≠ '=' := by
      rintro rfl
      exact hlongest.next (Option.mem_some_self _) (.lexeme (.operator hlonger)) rfl
    simp only [split, hblank, hpunctuation, hkinds, Bool.false_eq_true, if_false]
    split <;> simp_all

theorem split_slash {rest : List Char} (hlongest : (Segment.lexeme .slash ['/']).Longest rest) :
    split '/' rest = (.lexeme .slash ['/'], rest) := by
  have hslash : '/' ∉ rest.head? := fun hd => hlongest.next hd (.lineComment [] (by simp)) rfl
  have hstar : '*' ∉ rest.head? := fun hd => by
    refine hlongest.next hd (.openComment [] fun body behind hbody hcloses => ?_) rfl
    obtain ⟨rfl, -⟩ := List.append_eq_nil_iff.1 hbody.symm
    cases hcloses
  show afterSlash rest = _
  unfold afterSlash
  split <;> simp_all

theorem split_operator {text rest : List Char} {kind : TokenKind} (h : (text, kind) ∈ operators)
    (hlongest : (Segment.lexeme kind text).Longest rest) {c : Char} {tail : List Char}
    (htext : text ++ rest = c :: tail) : split c tail = (.lexeme kind text, rest) := by
  simp only [operators, List.mem_cons, Prod.mk.injEq, List.not_mem_nil, or_false] at h
  rcases h with ⟨rfl, rfl⟩ | ⟨rfl, rfl⟩ | ⟨rfl, rfl⟩ | ⟨rfl, rfl⟩ | ⟨rfl, rfl⟩ | ⟨rfl, rfl⟩ | ⟨rfl, rfl⟩ |
    ⟨rfl, rfl⟩ | ⟨rfl, rfl⟩ | ⟨rfl, rfl⟩ | ⟨rfl, rfl⟩ | ⟨rfl, rfl⟩ | ⟨rfl, rfl⟩ | ⟨rfl, rfl⟩ | ⟨rfl, rfl⟩ |
    ⟨rfl, rfl⟩ | ⟨rfl, rfl⟩ | ⟨rfl, rfl⟩ | ⟨rfl, rfl⟩ | ⟨rfl, rfl⟩ | ⟨rfl, rfl⟩ | ⟨rfl, rfl⟩ | ⟨rfl, rfl⟩ <;>
  cases htext <;>
  first
    | rfl
    | exact split_slash hlongest
    | exact split_comparison rfl hlongest (by decide)

/-! ## Strings -/

theorem span_string {text : List Char} (h : '"' ∉ text) (rest : List Char) (hrest : ∀ c ∈ rest.head?, c = '"') :
    (text ++ rest).takeWhile (· != '"') = text ∧ (text ++ rest).dropWhile (· != '"') = rest :=
  span_eq (fun c hc => by simpa using fun hquote : c = '"' => h (hquote ▸ hc)) rest fun c hc => by simpa using hrest c hc

theorem split_string {text : List Char} (h : '"' ∉ text) (rest : List Char) :
    split '"' (text ++ '"' :: rest) = (.lexeme .string ('"' :: text ++ ['"']), rest) := by
  obtain ⟨htake, hdrop⟩ := span_string h ('"' :: rest) (by simp)
  show afterQuote (text ++ '"' :: rest) = _
  rw [afterQuote, htake, hdrop]

theorem split_openString {text : List Char} (h : '"' ∉ text) :
    split '"' text = (.fault .unterminatedString ('"' :: text), []) := by
  obtain ⟨htake, hdrop⟩ := span_string h [] (by simp)
  rw [List.append_nil] at htake hdrop
  show afterQuote text = _
  rw [afterQuote, htake, hdrop]

/-! ## The longest segment -/

theorem stops_of_lineComment {text rest : List Char} (h : '\n' ∉ text)
    (hlongest : (Segment.lineComment ('/' :: '/' :: text)).Longest rest) : ∀ c ∈ rest.head?, c = '\n' := by
  intro c hc
  by_contra hne
  refine hlongest.next hc (.lineComment (text ++ [c]) ?_) rfl
  simp [h, Ne.symm hne]

/-- A string that is not closed takes the whole text. -/
theorem rest_of_openString {text rest : List Char} (h : '"' ∉ text)
    (hlongest : (Segment.fault .unterminatedString ('"' :: text)).Longest rest) : rest = [] := by
  rcases rest with _ | ⟨c, rest⟩
  · rfl
  exfalso
  by_cases hc : c = '"'
  · subst hc
    exact hlongest.next (Option.mem_some_self _) (.lexeme (.string h)) rfl
  · refine hlongest.next (Option.mem_some_self _) (.openString (text ++ [c]) ?_) rfl
    simp [h, Ne.symm hc]

/-- So does a comment. -/
theorem rest_of_openComment {text rest : List Char} (h : ∀ body behind, text = body ++ behind → ¬ ClosesComment body)
    (hlongest : (Segment.fault .unterminatedBlockComment ('/' :: '*' :: text)).Longest rest) : rest = [] := by
  rcases rest with _ | ⟨c, rest⟩
  · rfl
  exfalso
  by_cases hcloses : ClosesComment (text ++ [c])
  · exact hlongest.next (Option.mem_some_self _) (.blockComment hcloses) rfl
  · refine hlongest.next (Option.mem_some_self _) (.openComment (text ++ [c]) fun body behind heq => ?_) rfl
    rcases List.eq_nil_or_concat behind with rfl | ⟨behind, d, rfl⟩
    · rw [List.append_nil] at heq
      exact heq ▸ hcloses
    · rw [List.concat_eq_append, ← List.append_assoc] at heq
      exact h body behind (List.append_inj' heq rfl).1

theorem Spelled.split_eq {s : Segment} {rest : List Char} (h : s.Spelled) (hlongest : s.Longest rest) {c : Char}
    {tail : List Char} (htext : s.text ++ rest = c :: tail) : split c tail = (s, rest) := by
  cases h with
  | blank h =>
    cases htext
    simp [split, isBlank_iff.2 h]
  | lineComment text h =>
    cases htext
    obtain ⟨htake, hdrop⟩ := span_eq (p := (· != '\n')) (fun d hd => by simpa using fun heq : d = '\n' => h (heq ▸ hd)) rest
      fun d hd => by simpa using stops_of_lineComment h hlongest d hd
    show afterSlash ('/' :: (text ++ rest)) = _
    rw [afterSlash, htake, hdrop]
  | @blockComment text h =>
    cases htext
    show afterSlash ('*' :: (text ++ rest)) = _
    rw [afterSlash, splitComment_of_closes h 0 rest]
  | lexeme h =>
    cases h with
    | operator h => exact split_operator h hlongest htext
    | keyword h =>
      obtain ⟨hword, rfl⟩ := ofWord_of_keyword h
      have hsplit := split_word hword (by simpa using hlongest) htext
      simpa using hsplit
    | identifier h hfree =>
      have hkind := ofWord_of_free hfree
      have hsplit := split_word h (by rw [hkind]; exact hlongest) htext
      rwa [hkind] at hsplit
    | whole h => exact split_whole h hlongest htext
    | decimal h h' => exact split_decimal h h' hlongest htext
    | @string inside h =>
      obtain ⟨rfl, rfl⟩ : '"' = c ∧ inside ++ '"' :: rest = tail := by simpa [text] using htext
      exact split_string h rest
  | unexpected h =>
    cases htext
    exact split_unexpected h rest
  | malformed h => exact split_malformed h hlongest htext
  | openString text h =>
    obtain rfl := rest_of_openString h hlongest
    rw [List.append_nil] at htext
    cases htext
    exact split_openString h
  | openComment text h =>
    obtain rfl := rest_of_openComment h hlongest
    rw [List.append_nil] at htext
    cases htext
    show afterSlash ('*' :: text) = _
    rw [afterSlash, splitComment_of_open h]

/-- A segment begins with every character. -/
theorem exists_spelled (c : Char) : ∃ s : Segment, s.Spelled ∧ s.text = [c] := by
  by_cases hblank : Blank c
  · exact ⟨_, .blank hblank, rfl⟩
  by_cases hletter : Letter c
  · have hword : Word [c] := ⟨⟨c, rfl, hletter⟩, fun d hd => List.mem_singleton.1 hd ▸ .inl hletter⟩
    exact ⟨_, .lexeme (spells_word hword), rfl⟩
  by_cases hdigit : Digit c
  · exact ⟨_, .lexeme (.whole (.single hdigit)), rfl⟩
  by_cases hquote : c = '"'
  · exact ⟨_, .openString [] (by simp), by simp [text, hquote]⟩
  by_cases hoperator : ∀ text kind, (text, kind) ∈ operators → text.head? ≠ some c
  · exact ⟨_, .unexpected ⟨hblank, hletter, hdigit, hquote, hoperator⟩, rfl⟩
  · simp only [not_forall, not_not] at hoperator
    obtain ⟨text, kind, hmem, hhead⟩ := hoperator
    -- The first character of an operator is one itself.
    have halone : ∀ e ∈ operators, e.1.head?.all (fun d => operators.any fun e' => e'.1 == [d]) = true := by decide
    have hany := halone _ hmem
    rw [hhead] at hany
    obtain ⟨⟨_, other⟩, hother, hsame⟩ := List.any_eq_true.1 hany
    obtain rfl := eq_of_beq hsame
    exact ⟨_, .lexeme (.operator hother), rfl⟩

/-- There is a longest segment with which the text begins. -/
theorem exists_longest (c : Char) (tail : List Char) :
    ∃ (s : Segment) (rest : List Char), s.Spelled ∧ s.Longest rest ∧ s.text ++ rest = c :: tail := by
  classical
  let begins (n : Nat) : Prop := ∃ s : Segment, s.Spelled ∧ s.text = (c :: tail).take n
  have hone : begins 1 := exists_spelled c
  have hbegins : begins (Nat.findGreatest begins (c :: tail).length) := Nat.findGreatest_spec (by simp) hone
  obtain ⟨s, hs, htext⟩ := hbegins
  refine ⟨s, (c :: tail).drop (Nat.findGreatest begins (c :: tail).length), hs, ?_, ?_⟩
  · intro other hother more after hrest htext'
    have hwhole : other.text ++ after = c :: tail := by
      rw [htext', List.append_assoc, ← hrest, htext, List.take_append_drop]
    have hlength : s.text.length = Nat.findGreatest begins (c :: tail).length := by
      rw [htext, List.length_take, Nat.min_eq_left (Nat.findGreatest_le _)]
    have hlonger : begins other.text.length := ⟨other, hother, by rw [← hwhole, List.take_left]⟩
    have hbound : other.text.length ≤ (c :: tail).length := by
      rw [← hwhole, List.length_append]
      exact Nat.le_add_right _ _
    have hle := Nat.le_findGreatest hbound hlonger
    rw [← hlength, htext', List.length_append] at hle
    exact List.length_eq_zero_iff.1 (by omega)
  · rw [htext, List.take_append_drop]

theorem Spelled.text_ne_nil {s : Segment} (h : s.Spelled) : s.text ≠ [] := by
  cases h with
  | lexeme h =>
    cases h with
    | operator h =>
      have hall : ∀ e ∈ operators, e.1 ≠ [] := by decide
      exact hall _ h
    | keyword h => exact (ofWord_of_keyword h).1.nonempty
    | identifier h => exact h.nonempty
    | whole h => exact h.nonempty
    | decimal h h' => simp [text]
    | string h => simp [text]
  | _ => simp [text]

end Segment

end TreeWalk
