import SealedChat.Json.Token
import SealedChat.Json.Write

namespace SealedChat.Json

theorem head?_toDigits_ne_zero {n : Nat} (pos : 0 < n) :
    (Nat.toDigits 10 n).head? ≠ some '0' := by
  induction n using Nat.strongRecOn with
  | ind n ih =>
    rw [Nat.toDigits_eq_if (by decide)]
    split
    · next small =>
      have digit : ∀ d < 10, 0 < d → [Nat.digitChar d].head? ≠ some '0' := by decide
      exact digit n small pos
    · rw [List.head?_append, Option.or_of_isSome (by simp)]
      exact ih (n / 10) (by omega) (by omega)

theorem length_toDigits_of_head? {n : Nat} (zero : (Nat.toDigits 10 n).head? = some '0') :
    (Nat.toDigits 10 n).length = 1 := by
  obtain rfl | pos := Nat.eq_zero_or_pos n
  · rfl
  · exact absurd zero (head?_toDigits_ne_zero pos)

theorem exists_toDigits_eq_cons (n : Nat) :
    ∃ c digits, Nat.toDigits 10 n = c :: digits ∧ c.isDigit = true := by
  cases written : Nat.toDigits 10 n with
  | nil => exact absurd written Nat.toDigits_ne_nil
  | cons c digits =>
    have mem : c ∈ Nat.toDigits 10 n := written ▸ List.mem_cons_self
    exact ⟨c, digits, rfl, Nat.isDigit_of_mem_toDigits (by decide) (by decide) mem⟩

theorem le_ofDigitChars (n : Nat) (digits : List Char) : n ≤ Nat.ofDigitChars 10 digits n := by
  induction digits generalizing n with
  | nil => exact Nat.le_refl n
  | cons c digits ih =>
    rw [Nat.ofDigitChars_cons]
    exact Nat.le_trans (by omega) (ih _)

theorem gather_of_lt {n : Nat} {digits : List Char}
    (fits : Nat.ofDigitChars 10 digits n < UInt64.size) :
    Numeral.gather n digits = (Nat.ofDigitChars 10 digits n, []) := by
  induction digits generalizing n with
  | nil => rfl
  | cons c digits ih =>
    rw [Nat.ofDigitChars_cons] at fits ⊢
    rw [Numeral.gather]
    rw [if_pos (Nat.lt_of_le_of_lt (le_ofDigitChars _ digits) fits), ih fits]

def Numeral.ofInt : Int → Numeral
  | .ofNat n => ⟨false, Nat.toDigits 10 n, none, none⟩
  | .negSucc n => ⟨true, Nat.toDigits 10 (n + 1), none, none⟩

theorem ofDigitChars_toDigits (n : Nat) : Nat.ofDigitChars 10 (Nat.toDigits 10 n) 0 = n :=
  Nat.ofDigitChars_toDigits (by decide) (by decide)

theorem Numeral.integer?_ofInt (n : Int) : (Numeral.ofInt n).integer? = some n := by
  cases n with
  | ofNat n | negSucc n =>
    rw [ofInt, integer?, ofDigitChars_toDigits]
    rfl

theorem Numeral.isTooLarge_ofInt {n : Int} (fits : n.natAbs < UInt64.size) :
    (Numeral.ofInt n).isTooLarge = false := by
  have whole (negative : Bool) (n : Nat) (fits : n < UInt64.size) :
      (Numeral.mk negative (Nat.toDigits 10 n) none none).isTooLarge = false := by
    have gathered : gather 0 (Nat.toDigits 10 n) = (n, []) := by
      have magnitude := ofDigitChars_toDigits n
      rw [gather_of_lt (magnitude.symm ▸ fits), magnitude]
    rw [isTooLarge, gathered]
    rfl
  cases n with
  | ofNat n => exact whole false n fits
  | negSucc n => exact whole true (n + 1) fits

theorem addUnit_of_lt {unit : Nat} (small : unit < 0xD800) (pieces : List Piece) :
    Piece.addUnit unit pieces = .char (Char.ofNat unit) :: pieces := by
  have leading : isLeading unit = false := by simp [isLeading]; omega
  have trailing : isTrailing unit = false := by simp [isTrailing]; omega
  unfold Piece.addUnit
  split <;> simp [Piece.ofUnit, leading, trailing]

theorem unit?_control : ∀ n < 0x20,
    unit? '0' '0' (Nat.digitChar (n / 16)) (Nat.digitChar (n % 16)) = some n := by
  decide

theorem scan_plain {c : Char} (quote : c ≠ '"') (backslash : c ≠ '\\') (pieces : List Piece)
    (rest : List Char) : scan pieces (c :: rest) = scan (.ofChar c :: pieces) rest := by
  rw [scan]
  · exact quote
  all_goals
    intros
    exact backslash ‹_›

theorem scan_escape (c : Char) (pieces : List Piece) (rest : List Char) :
    scan pieces (escape c ++ rest) = scan (.char c :: pieces) rest := by
  unfold escape
  split
  -- All but the characters with a letter for their escape, where both sides compute.
  case h_8 quote backslash _ _ _ _ _ =>
    split
    · next control =>
      have small : c.toNat < 0x20 := of_decide_eq_true control
      have read := addUnit_of_lt (Nat.lt_trans small (by decide)) pieces
      rw [Char.ofNat_toNat] at read
      simp only [List.cons_append, List.nil_append]
      rw [scan, unit?_control _ small]
      dsimp only
      rw [read]
    · next printable =>
      rw [List.singleton_append, scan_plain quote backslash, Piece.ofChar, if_neg printable]
  all_goals rfl

theorem scan_escapes (chars : List Char) (pieces : List Piece) (rest : List Char) :
    scan pieces (chars.flatMap escape ++ '"' :: rest) =
      ((chars.map .char).reverse ++ pieces, .ok rest) := by
  induction chars generalizing pieces with
  | nil => rfl
  | cons c chars ih =>
    rw [List.flatMap_cons, List.append_assoc, scan_escape, ih, List.map_cons, List.reverse_cons,
      List.append_assoc, List.singleton_append]

namespace Decoder

theorem chars_escapes (chars rest : List Char) :
    Decoder.chars (chars.flatMap escape ++ '"' :: rest) = .ok (chars, rest) := by
  have all : ((chars.map Piece.char).reverse ++ []).all Piece.isChar = true := by
    simp [Piece.isChar]
  have texts : (((chars.map Piece.char).reverse ++ []).filterMap Piece.char?).reverse = chars := by
    simp [List.filterMap_map, Function.comp_def, Piece.char?]
  rw [Decoder.chars, scan_escapes]
  dsimp only
  rw [if_pos all, texts]

end Decoder

def Ends (rest : List Char) : Prop :=
  ∀ c ∈ rest.head?, c = ',' ∨ c = ']' ∨ c = '}'

namespace Ends

theorem nil : Ends [] := nofun

theorem comma (rest : List Char) : Ends (',' :: rest) :=
  fun _ h => .inl (Option.some.inj h).symm

theorem array (rest : List Char) : Ends (']' :: rest) :=
  fun _ h => .inr (.inl (Option.some.inj h).symm)

theorem object (rest : List Char) : Ends ('}' :: rest) :=
  fun _ h => .inr (.inr (Option.some.inj h).symm)

end Ends

namespace Decoder

theorem accept_false {isOne : Char → Bool} {text : List Char}
    (h : ∀ c ∈ text.head?, isOne c = false) : accept isOne text = .ok (false, text) := by
  cases text with
  | nil => rfl
  | cons c rest =>
    rw [accept, h c rfl]
    rfl

theorem digits_toDigits {rest : List Char} (ends : Ends rest) (n : Nat) (atEnd : Error) :
    digits atEnd (Nat.toDigits 10 n ++ rest) = .ok (Nat.toDigits 10 n, rest) := by
  have digit : ∀ c ∈ Nat.toDigits 10 n, c.isDigit = true := fun c mem =>
    Nat.isDigit_of_mem_toDigits (by decide) (by decide) mem
  have behind : rest.takeWhile Char.isDigit = [] ∧ rest.dropWhile Char.isDigit = rest := by
    cases rest with
    | nil => exact ⟨rfl, rfl⟩
    | cons c rest => rcases ends c rfl with rfl | rfl | rfl <;> exact ⟨rfl, rfl⟩
  have taken : Decoder.takeWhile Char.isDigit (Nat.toDigits 10 n ++ rest) =
      .ok (Nat.toDigits 10 n, rest) := by
    rw [Decoder.takeWhile, List.takeWhile_append_of_pos digit, List.dropWhile_append_of_pos digit,
      behind.1, behind.2, List.append_nil]
  rw [digits, bind_of_ok taken]
  have nonempty : (Nat.toDigits 10 n).isEmpty = false :=
    List.isEmpty_eq_false_iff.2 Nat.toDigits_ne_nil
  rw [nonempty]
  rfl

theorem numeral_digits {rest : List Char} (ends : Ends rest) (n : Nat) (atEnd : Error)
    {text : List Char} {negative : Bool}
    (sign : accept (· = '-') text = .ok (negative, Nat.toDigits 10 n ++ rest)) :
    numeral atEnd text = .ok (⟨negative, Nat.toDigits 10 n, none, none⟩, rest) := by
  have single : ¬((Nat.toDigits 10 n).head? = some '0' ∧ 1 < (Nat.toDigits 10 n).length) := by
    rintro ⟨zero, long⟩
    rw [length_toDigits_of_head? zero] at long
    exact Nat.lt_irrefl 1 long
  have point : accept (· = '.') rest = .ok (false, rest) := by
    apply accept_false
    intro c first
    rcases ends c first with rfl | rfl | rfl <;> rfl
  have power : accept (fun c => c = 'e' ∨ c = 'E') rest = .ok (false, rest) := by
    apply accept_false
    intro c first
    rcases ends c first with rfl | rfl | rfl <;> rfl
  rw [numeral, bind_of_ok sign, bind_of_ok (digits_toDigits ends n atEnd)]
  rw [if_neg single]
  refine (bind_of_ok point).trans ?_
  rw [if_neg Bool.false_ne_true, pure_bind]
  exact bind_of_ok power

theorem numeral_writeInt {rest : List Char} (ends : Ends rest) (n : Int) (atEnd : Error) :
    numeral atEnd (writeInt n ++ rest) = .ok (Numeral.ofInt n, rest) := by
  cases n with
  | ofNat n =>
    obtain ⟨c, digits, written, digit⟩ := exists_toDigits_eq_cons n
    refine numeral_digits ends n atEnd (accept_false fun d first => ?_)
    rw [writeInt, writeNat, written] at first
    obtain rfl := Option.some.inj first
    refine decide_eq_false ?_
    rintro rfl
    cases digit
  | negSucc n => exact numeral_digits ends (n + 1) atEnd rfl

theorem number_writeInt {rest : List Char} (ends : Ends rest) {n : Int}
    (fits : n.natAbs < UInt64.size) :
    number (writeInt n ++ rest) = .ok (Numeral.ofInt n, rest) := by
  rw [number, bind_of_ok (numeral_writeInt ends n _), Numeral.isTooLarge_ofInt fits]
  rfl

theorem skipSpace_cons {c : Char} (h : isSpace c = false) (text : List Char) :
    skipSpace (c :: text) = .ok ((), c :: text) := by
  rw [skipSpace, List.dropWhile_cons_of_neg (Bool.eq_false_iff.1 h)]

theorem peek_cons (c : Char) (text : List Char) : peek (c :: text) = .ok (c, c :: text) :=
  rfl

theorem next_cons (c : Char) (text : List Char) : next (c :: text) = .ok (c, text) :=
  rfl

theorem expect_singleton (c : Char) (text : List Char) :
    expect [c] (c :: text) = .ok ((), text) := by
  rw [expect, bind_of_ok (next_cons c text), if_pos rfl]
  rfl

theorem discard_next_cons (c : Char) (text : List Char) :
    (discard next : Decoder Unit) (c :: text) = .ok ((), text) :=
  rfl

theorem token_text (text : String) (rest : List Char) :
    token (writeText text ++ rest) = .ok (.text text, rest) := by
  have shape : writeText text ++ rest = '"' :: (text.toList.flatMap escape ++ '"' :: rest) := by
    simp [writeText]
  rw [shape, token, bind_of_ok (skipSpace_cons rfl _), bind_of_ok (peek_cons _ _)]
  refine (bind_of_ok (discard_next_cons _ _)).trans ?_
  rw [bind_of_ok (chars_escapes _ _), String.ofList_toList]
  rfl

theorem token_bool (b : Bool) (rest : List Char) :
    token (writeBool b ++ rest) = .ok (.bool b, rest) := by
  cases b <;> rfl

theorem isSpace_of_number {c : Char} (first : c = '-' ∨ c.isDigit = true) : isSpace c = false := by
  refine decide_eq_false ?_
  rintro (rfl | rfl | rfl | rfl) <;> exact absurd first (by decide)

theorem token_eq_number {c : Char} {text : List Char} (first : c = '-' ∨ c.isDigit = true) :
    token (c :: text) = (number >>= fun numeral => pure (.number numeral)) (c :: text) := by
  rw [token, bind_of_ok (skipSpace_cons (isSpace_of_number first) text),
    bind_of_ok (peek_cons c text)]
  split
  case h_7 => rw [if_pos first]
  all_goals exact absurd first (by decide)

theorem token_int {rest : List Char} (ends : Ends rest) {n : Int}
    (fits : n.natAbs < UInt64.size) :
    token (writeInt n ++ rest) = .ok (.number (.ofInt n), rest) := by
  obtain ⟨c, text, written, first⟩ :
      ∃ c text, writeInt n = c :: text ∧ (c = '-' ∨ c.isDigit = true) := by
    cases n with
    | ofNat n =>
      obtain ⟨c, digits, written, digit⟩ := exists_toDigits_eq_cons n
      exact ⟨c, digits, written, .inr digit⟩
    | negSucc n => exact ⟨_, _, rfl, .inl rfl⟩
  have read := number_writeInt ends fits
  rw [written, List.cons_append] at read ⊢
  rw [token_eq_number first, bind_of_ok read]
  rfl

theorem token_array (rest : List Char) : token ('[' :: rest) = .ok (.array, rest) :=
  rfl

theorem token_object (rest : List Char) : token ('{' :: rest) = .ok (.object, rest) :=
  rfl

end Decoder

end SealedChat.Json
