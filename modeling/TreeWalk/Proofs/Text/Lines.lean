import Mathlib.Data.List.Forall2
import TreeWalk.Text.Lines
import TreeWalk.Text.Whitespace

/-!
# Lines of a text

The lines into which the bytes of a text are cut are the encodings of the lines of the text.
-/

namespace TreeWalk

namespace Lines

/-- The characters of each line, without the newline that ends it. What stands behind the last newline is a line
unless it is empty. -/
def pieces (text : List Char) : List (List Char) :=
  let all := text.splitOn '\n'
  if all.getLast? = some [] then all.dropLast else all

/-- The lines of a text. -/
def ofText (text : String) : List String := (pieces text.toList).map String.ofList

/-! ## Encodings -/

def encodeAll (text : List Char) : List UInt8 := text.flatMap String.utf8EncodeChar

theorem encode_ofList (text : List Char) : encode (String.ofList text) = encodeAll text := by
  rw [encode, String.toUTF8_eq_toByteArray, String.toByteArray_ofList, List.utf8Encode]
  simp [encodeAll]

theorem encode_eq (text : String) : encode text = encodeAll text.toList := by
  rw [← encode_ofList, String.ofList_toList]

theorem decode?_encode (text : String) : decode? (encode text) = some text := by
  have hbytes : (⟨(encode text).toArray⟩ : ByteArray) = text.toByteArray := by
    rw [encode, String.toUTF8_eq_toByteArray, Array.toArray_toList]
  have hvalid : (⟨(encode text).toArray⟩ : ByteArray).IsValidUTF8 := hbytes ▸ text.isValidUTF8
  rw [decode?, String.fromUTF8?, dif_pos hvalid]
  exact congrArg some (String.toByteArray_inj.1 hbytes)

/-- All characters but the newline have other bytes. -/
theorem newline_not_mem_encodeChar {c : Char} (hc : c ≠ '\n') : newline ∉ String.utf8EncodeChar c := by
  have hvalue : c.val.toNat ≠ 10 := fun h => hc (Char.ext (UInt32.toNat.inj h))
  have hbyte {n : Nat} (hn : n % 256 ≠ 10) : newline ≠ UInt8.ofNat n := fun h => hn (by
    have hnat := congrArg UInt8.toNat h
    rw [UInt8.toNat_ofNat'] at hnat
    exact hnat.symm)
  unfold String.utf8EncodeChar
  dsimp only
  split
  · exact List.not_mem_cons_of_ne_of_not_mem (hbyte (by omega)) List.not_mem_nil
  · split
    · simp only [List.mem_cons, List.not_mem_nil, or_false, not_or]
      exact ⟨hbyte (by omega), hbyte (by omega)⟩
    · split
      · simp only [List.mem_cons, List.not_mem_nil, or_false, not_or]
        exact ⟨hbyte (by omega), hbyte (by omega), hbyte (by omega)⟩
      · simp only [List.mem_cons, List.not_mem_nil, or_false, not_or]
        exact ⟨hbyte (by omega), hbyte (by omega), hbyte (by omega), hbyte (by omega)⟩

/-! ## Lines of an encoding -/

theorem all_newline (rest : List UInt8) : all (newline :: rest) = [newline] :: all rest := by simp [all]

/-- Bytes without a newline belong to the line that follows. -/
theorem all_append {bytes : List UInt8} (hne : bytes ≠ []) (hbytes : newline ∉ bytes) (rest : List UInt8) :
    all (bytes ++ rest) = match all rest with
      | [] => [bytes]
      | line :: lines => (bytes ++ line) :: lines := by
  induction bytes with
  | nil => exact absurd rfl hne
  | cons byte more ih =>
    obtain ⟨hbyte, hmore⟩ := List.ne_and_not_mem_of_not_mem_cons hbytes
    rw [List.cons_append, all, if_neg (by simpa using hbyte.symm)]
    rcases more with _ | ⟨next, more⟩
    · rw [List.nil_append]
      cases all rest <;> rfl
    · rw [ih (List.cons_ne_nil _ _) hmore]
      cases all rest <;> rfl

theorem pieces_newline (rest : List Char) : pieces ('\n' :: rest) = [] :: pieces rest := by
  unfold pieces
  obtain ⟨first, others, hsplit⟩ := List.exists_cons_of_ne_nil (List.splitOnP_ne_nil (· == '\n') rest)
  have hrest : rest.splitOn '\n' = first :: others := hsplit
  have hcons : ('\n' :: rest).splitOn '\n' = [] :: rest.splitOn '\n' := by
    simp [List.splitOn, List.splitOnP_cons_eq_if_modifyHead]
  dsimp only
  rw [hcons, hrest, List.getLast?_cons_cons]
  split <;> rfl

theorem pieces_cons {c : Char} (hc : c ≠ '\n') (rest : List Char) :
    pieces (c :: rest) = match pieces rest with
      | [] => [[c]]
      | line :: lines => (c :: line) :: lines := by
  unfold pieces
  obtain ⟨first, others, hsplit⟩ := List.exists_cons_of_ne_nil (List.splitOnP_ne_nil (· == '\n') rest)
  have hrest : rest.splitOn '\n' = first :: others := hsplit
  have hcons : (c :: rest).splitOn '\n' = (c :: first) :: others := by
    rw [List.splitOn, List.splitOnP_cons_eq_if_modifyHead, hsplit]
    simp [hc]
  dsimp only
  rw [hcons, hrest]
  rcases others with _ | ⟨second, others⟩
  · cases first <;> rfl
  · rw [List.getLast?_cons_cons, List.getLast?_cons_cons]
    split <;> rfl

/-- The lines of an encoding are the encoded pieces, all of them with a newline but perhaps the last. -/
theorem all_encodeAll (text : List Char) : List.Forall₂
    (fun bytes piece => ∃ ending, (ending = [] ∨ ending = ['\n']) ∧ bytes = encodeAll (piece ++ ending))
    (all (encodeAll text)) (pieces text) := by
  induction text with
  | nil => exact .nil
  | cons c rest ih =>
    by_cases hc : c = '\n'
    · subst hc
      show List.Forall₂ _ (all (newline :: encodeAll rest)) _
      rw [all_newline, pieces_newline]
      exact .cons ⟨['\n'], .inr rfl, rfl⟩ ih
    · show List.Forall₂ _ (all (String.utf8EncodeChar c ++ encodeAll rest)) _
      rw [all_append String.utf8EncodeChar_ne_nil (newline_not_mem_encodeChar hc), pieces_cons hc]
      generalize all (encodeAll rest) = lines at ih ⊢
      generalize pieces rest = rows at ih ⊢
      cases ih with
      | nil => exact .cons ⟨[], .inl rfl, by simp [encodeAll]⟩ .nil
      | cons hline hlines =>
        obtain ⟨ending, hending, rfl⟩ := hline
        exact .cons ⟨ending, hending, rfl⟩ hlines

/-! ## Trimmed lines -/

theorem trimmed_newline (piece : List Char) :
    trimmed (String.ofList (piece ++ ['\n'])) = trimmed (String.ofList piece) := by
  have hnewline : isWhitespace '\n' = true := by decide
  unfold trimmed
  rw [String.toList_ofList, String.toList_ofList]
  congr 2
  rw [List.dropWhile_append]
  split
  case isTrue hempty =>
    rw [List.isEmpty_iff.1 hempty]
    simp [hnewline]
  case isFalse => simp [hnewline]

/-- What is read of each line is the text of that line, up to white space at its ends. -/
theorem decode?_all (text : String) : List.Forall₂
    (fun bytes line => ∃ read, decode? bytes = some read ∧ trimmed read = trimmed line)
    (all (encode text)) (ofText text) := by
  rw [encode_eq, ofText, List.forall₂_map_right_iff]
  refine (all_encodeAll text.toList).imp fun bytes piece h => ?_
  obtain ⟨ending, hending, rfl⟩ := h
  refine ⟨String.ofList (piece ++ ending), by rw [← encode_ofList, decode?_encode], ?_⟩
  rcases hending with rfl | rfl
  · rw [List.append_nil]
  · exact trimmed_newline piece

end Lines

end TreeWalk
