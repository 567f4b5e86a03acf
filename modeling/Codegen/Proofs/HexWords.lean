import Codegen.HexWords

/-!
Code as text read back.

`Renders` says which tokens stand for a code: eight digits for every word, two for every byte that
does not fill one, and in them the bytes of the code. The text of a code splits at its blanks into
such tokens if there is a word, and into none if there is no byte. A code of bytes that do not fill
a word has a blank in front of its first byte, so that its text begins with an empty token.
-/
namespace Codegen

namespace Text

def IsDigit (c : Char) : Prop := '0' ≤ c ∧ c ≤ '9' ∨ 'a' ≤ c ∧ c ≤ 'f'

instance (c : Char) : Decidable (IsDigit c) :=
  inferInstanceAs (Decidable ('0' ≤ c ∧ c ≤ '9' ∨ 'a' ≤ c ∧ c ≤ 'f'))

def digitValue (c : Char) : Nat :=
  if c ≤ '9' then c.toNat - '0'.toNat else c.toNat - 'a'.toNat + 10

def bytesOf : List Char → List UInt8
  | high :: low :: rest => .ofNat (16 * digitValue high + digitValue low) :: bytesOf rest
  | _ => []

/-- What stands between single blanks. An empty text has no tokens. -/
def tokens (text : List Char) : List (List Char) := if text = [] then [] else text.splitOn ' '

theorem isDigit_digitChar {n : Nat} (h : n < 16) : IsDigit n.digitChar := by
  have hall : ∀ k < 16, IsDigit k.digitChar := by decide
  exact hall n h

theorem digitValue_digitChar {n : Nat} (h : n < 16) : digitValue n.digitChar = n := by
  have hall : ∀ k < 16, digitValue k.digitChar = k := by decide
  exact hall n h

theorem isDigit_of_mem_byteDigits {b : UInt8} {c : Char} (h : c ∈ byteDigits b) : IsDigit c := by
  have hlt := b.toNat_lt
  simp only [byteDigits, List.mem_cons, List.not_mem_nil, or_false] at h
  rcases h with rfl | rfl
  · exact isDigit_digitChar (by omega)
  · exact isDigit_digitChar (by omega)

theorem bytesOf_flatMap (bs : List UInt8) : bytesOf (bs.flatMap byteDigits) = bs := by
  induction bs with
  | nil => rfl
  | cons b bs ih =>
      have hlt := b.toNat_lt
      have hvalue : 16 * digitValue (b.toNat / 16).digitChar +
          digitValue (b.toNat % 16).digitChar = b.toNat := by
        rw [digitValue_digitChar (by omega), digitValue_digitChar (by omega)]
        omega
      simp only [List.flatMap_cons, byteDigits, List.cons_append, List.nil_append, bytesOf, hvalue,
        UInt8.ofNat_toNat, ih]

end Text

open Text (tokens bytesOf byteDigits IsDigit)

/-- The tokens of a code: its words, the most significant byte first, and then the bytes that do not
fill a word. -/
structure Renders (words tail : List (List Char)) (code : List UInt8) : Prop where
  words_length : words.length = code.length / 4
  tail_length : tail.length = code.length % 4
  words_digits : ∀ w ∈ words, w.length = 8 ∧ ∀ c ∈ w, IsDigit c
  tail_digits : ∀ b ∈ tail, b.length = 2 ∧ ∀ c ∈ b, IsDigit c
  bytes : (words.flatMap fun w => (bytesOf w).reverse) ++ tail.flatMap bytesOf = code

/-- The tokens stand for the code. -/
def Stand (ts : List (List Char)) (code : List UInt8) : Prop :=
  ∃ words tail, ts = words ++ tail ∧ Renders words tail code

section Split

theorem length_word (bs : List UInt8) : (bs.flatMap byteDigits).length = 2 * bs.length := by
  induction bs with
  | nil => rfl
  | cons b bs ih =>
      rw [List.flatMap_cons, List.length_append, ih, List.length_cons]
      simp only [byteDigits, List.length_cons, List.length_nil]
      omega

theorem isDigit_of_mem_flatMap {bs : List UInt8} {c : Char} (h : c ∈ bs.flatMap byteDigits) :
    IsDigit c := by
  obtain ⟨b, _, hc⟩ := List.mem_flatMap.mp h
  exact Text.isDigit_of_mem_byteDigits hc

theorem splitWords_of_short {code : List UInt8} (h : code.length < 4) :
    splitWords code = ([], code) := by
  match code, h with
  | [], _ => rfl
  | [_], _ => rfl
  | [_, _], _ => rfl
  | [_, _, _], _ => rfl

theorem splitWords_cons (a b c d : UInt8) (rest : List UInt8) :
    splitWords (a :: b :: c :: d :: rest) =
      ([d, c, b, a].flatMap byteDigits :: (splitWords rest).1, (splitWords rest).2) := by
  rw [splitWords]

theorem renders_of_short {code : List UInt8} (h : code.length < 4) :
    Renders [] (code.map byteDigits) code where
  words_length := by rw [List.length_nil]; omega
  tail_length := by rw [List.length_map]; omega
  words_digits := fun w hw => by cases hw
  tail_digits := fun b hb => by
    obtain ⟨x, _, rfl⟩ := List.mem_map.mp hb
    exact ⟨rfl, fun c hc => Text.isDigit_of_mem_byteDigits hc⟩
  bytes := by
    have hbytes : ∀ x : UInt8, bytesOf (byteDigits x) = [x] := fun x => Text.bytesOf_flatMap [x]
    simp [List.flatMap_map, hbytes]

theorem Renders.cons {words tail : List (List Char)} {code : List UInt8}
    (h : Renders words tail code) (a b c d : UInt8) :
    Renders ([d, c, b, a].flatMap byteDigits :: words) tail (a :: b :: c :: d :: code) where
  words_length := by
    have hlength := h.words_length
    simp only [List.length_cons]
    omega
  tail_length := by
    have hlength := h.tail_length
    simp only [List.length_cons]
    omega
  words_digits := List.forall_mem_cons.mpr
    ⟨⟨length_word [d, c, b, a], fun _ hc => isDigit_of_mem_flatMap hc⟩, h.words_digits⟩
  tail_digits := h.tail_digits
  bytes := by
    rw [List.flatMap_cons, Text.bytesOf_flatMap, List.append_assoc, h.bytes]
    rfl

theorem renders_splitWords (code : List UInt8) :
    Renders (splitWords code).1 ((splitWords code).2.map byteDigits) code := by
  -- by the recursion of the splitting, which takes four bytes off the front
  induction code using splitWords.induct with
  | case1 a b c d rest words tail hsplit ih =>
      rw [splitWords_cons]
      exact ih.cons a b c d
  | case2 tail hshort =>
      have hlt : tail.length < 4 := by
        match tail, hshort with
        | [], _ => simp
        | [_], _ => simp
        | [_, _], _ => simp
        | [_, _, _], _ => simp
        | a :: b :: c :: d :: rest, hshort => exact (hshort a b c d rest rfl).elim
      rw [splitWords_of_short hlt]
      exact renders_of_short hlt

theorem not_blank_of_renders {words tail : List (List Char)} {code : List UInt8}
    (h : Renders words tail code) : ∀ t ∈ words ++ tail, ' ' ∉ t := by
  have hblank : ¬ IsDigit ' ' := by decide
  intro t ht hmem
  rcases List.mem_append.mp ht with ht | ht
  · exact hblank ((h.words_digits t ht).2 _ hmem)
  · exact hblank ((h.tail_digits t ht).2 _ hmem)

end Split

section Join

/-- Every part after the first stands behind a separator. -/
theorem intercalate_cons_eq_flatMap (sep t : List Char) (ts : List (List Char)) :
    sep.intercalate (t :: ts) = t ++ ts.flatMap fun u => sep ++ u := by
  induction ts generalizing t with
  | nil => simp
  | cons u ts ih =>
      rw [List.intercalate_cons_cons, ih u, List.flatMap_cons, List.append_assoc, List.append_assoc]

/-- Bytes that each have a blank in front continue a text of tokens. -/
theorem intercalate_append_tail {ts : List (List Char)} (hne : ts ≠ []) (tail : List UInt8) :
    [' '].intercalate ts ++ (tail.flatMap fun b => ' ' :: byteDigits b) =
      [' '].intercalate (ts ++ tail.map byteDigits) := by
  obtain ⟨t, ts, rfl⟩ := List.exists_cons_of_ne_nil hne
  rw [List.cons_append, intercalate_cons_eq_flatMap, intercalate_cons_eq_flatMap,
    List.flatMap_append, List.flatMap_map, List.append_assoc]
  rfl

theorem tokens_intercalate {ts : List (List Char)} (hblank : ∀ t ∈ ts, ' ' ∉ t)
    (hne : [' '].intercalate ts ≠ []) : tokens ([' '].intercalate ts) = ts := by
  rw [tokens, if_neg hne]
  refine List.splitOn_intercalate ' ' hblank ?_
  rintro rfl
  exact hne rfl

end Join

section Tokens

theorem tokens_of_word {code : List UInt8} (h : 4 ≤ code.length) :
    tokens (hexWordChars code) = (splitWords code).1 ++ (splitWords code).2.map byteDigits := by
  have hrenders := renders_splitWords code
  have hwords : (splitWords code).1 ≠ [] := by
    have hlength := hrenders.words_length
    intro hnil
    rw [hnil, List.length_nil] at hlength
    omega
  have htext : hexWordChars code =
      [' '].intercalate ((splitWords code).1 ++ (splitWords code).2.map byteDigits) :=
    intercalate_append_tail hwords (splitWords code).2
  rw [htext]
  refine tokens_intercalate (not_blank_of_renders hrenders) ?_
  obtain ⟨w, words, hcons⟩ := List.exists_cons_of_ne_nil hwords
  have hw : w.length = 8 := (hrenders.words_digits w (by rw [hcons]; exact List.mem_cons_self)).1
  rw [hcons, List.cons_append, intercalate_cons_eq_flatMap]
  intro hnil
  rw [(List.append_eq_nil_iff.mp hnil).1] at hw
  cases hw

/-- Without a word, every byte has a blank in front of it. -/
theorem tokens_of_short {code : List UInt8} (hne : code ≠ []) (h : code.length < 4) :
    tokens (hexWordChars code) = [] :: code.map byteDigits := by
  have htext : hexWordChars code = [' '].intercalate ([[]] ++ code.map byteDigits) := by
    rw [← intercalate_append_tail (List.cons_ne_nil [] []), hexWordChars, splitWords_of_short h]
    rfl
  obtain ⟨b, bs, rfl⟩ := List.exists_cons_of_ne_nil hne
  rw [htext]
  refine tokens_intercalate ?_ ?_
  · have hblank := not_blank_of_renders (renders_of_short h)
    exact List.forall_mem_cons.mpr ⟨List.not_mem_nil, hblank⟩
  · rw [List.singleton_append, intercalate_cons_eq_flatMap]
    exact List.cons_ne_nil _ _

/-- The tokens in the text of a code are those that stand for it, with an empty one in front if
there are bytes and no word. -/
theorem exists_stand (code : List UInt8) :
    ∃ ts, Stand ts code ∧
      tokens (hexWordChars code) =
        if 0 < code.length ∧ code.length < 4 then [] :: ts else ts := by
  by_cases hlength : code.length < 4
  · by_cases hne : code = []
    · subst hne
      exact ⟨[], ⟨[], [], rfl, renders_of_short hlength⟩, rfl⟩
    · refine ⟨code.map byteDigits, ⟨[], _, rfl, renders_of_short hlength⟩, ?_⟩
      rw [if_pos ⟨List.length_pos_iff.mpr hne, hlength⟩]
      exact tokens_of_short hne hlength
  · refine ⟨_, ⟨_, _, rfl, renders_splitWords code⟩, ?_⟩
    rw [if_neg fun hshort => hlength hshort.2]
    exact tokens_of_word (Nat.le_of_not_lt hlength)

theorem not_stand_nil_cons (ts : List (List Char)) (code : List UInt8) :
    ¬ Stand ([] :: ts) code := by
  rintro ⟨words, tail, hts, hrenders⟩
  rcases List.mem_append.mp (hts ▸ List.mem_cons_self) with hmem | hmem
  · exact absurd (hrenders.words_digits [] hmem).1 (by decide)
  · exact absurd (hrenders.tail_digits [] hmem).1 (by decide)

end Tokens

/-- The tokens in the text of a code stand for the code, unless there are bytes and no word. In that
case the tokens that stand for the code come after an empty one. -/
theorem stand_tokens_iff (code : List UInt8) :
    (∃ ts, Stand ts code ∧
      tokens (hexWords code).toList =
        if 0 < code.length ∧ code.length < 4 then [] :: ts else ts) ∧
    (Stand (tokens (hexWords code).toList) code ↔ ¬ (0 < code.length ∧ code.length < 4)) := by
  have hexact := exists_stand code
  rw [show (hexWords code).toList = hexWordChars code from String.toList_ofList]
  refine ⟨hexact, ?_⟩
  obtain ⟨ts, hstand, htokens⟩ := hexact
  rw [htokens]
  by_cases hshort : 0 < code.length ∧ code.length < 4
  · rw [if_pos hshort]
    exact iff_of_false (not_stand_nil_cons ts code) (not_not_intro hshort)
  · rw [if_neg hshort]
    exact iff_of_true hstand hshort

/-- The text of a single byte begins with an empty token. -/
theorem not_stand_oneByte :
    tokens (hexWords [1]).toList = [[], ['0', '1']] ∧
      ¬ Stand (tokens (hexWords [1]).toList) [1] := by
  have htokens : tokens (hexWords [1]).toList = [[], ['0', '1']] := by
    rw [hexWords, String.toList_ofList]
    exact tokens_of_short (List.cons_ne_nil _ _) (by decide)
  refine ⟨htokens, ?_⟩
  rw [htokens]
  exact not_stand_nil_cons _ _

end Codegen
