import SealedChat.Utf8

/-!
Texts are read back from their bytes, also where a cut goes through a character, and they are in the
order of their bytes.

Where the bytes of some characters are cut, a scan of the front takes whole characters and leaves at
most three bytes, which the bytes behind the cut complete (`scan_front`).
-/

namespace SealedChat.Utf8

def encodeChars (chars : List Char) : Bytes :=
  chars.flatMap encodeChar

theorem encodeChars_cons (c : Char) (chars : List Char) :
    encodeChars (c :: chars) = encodeChar c ++ encodeChars chars := rfl

theorem scan_none {bytes : Bytes} (h : first? bytes = none) : scan bytes = ([], bytes) := by
  rw [scan]
  split
  · rfl
  · next found => cases h.symm.trans found

theorem scan_some {bytes rest : Bytes} {c : Char} (h : first? bytes = some (c, rest)) :
    scan bytes = (c :: (scan rest).1, (scan rest).2) := by
  rw [scan]
  split
  · next found => cases h.symm.trans found
  · next found =>
    cases h.symm.trans found
    rfl

theorem first?_nil : first? [] = none := by
  cases h : first? [] with
  | none => rfl
  | some found => exact absurd (length_lt_of_first? h) (Nat.not_lt_zero _)

theorem scan_encodeChars (chars : List Char) : scan (encodeChars chars) = (chars, []) := by
  induction chars with
  | nil => exact scan_none first?_nil
  | cons c chars ih =>
    rw [encodeChars_cons, scan_some (first?_encodeChar_append c _), ih]

theorem decode?_encode (text : String) : decode? (encode text) = some text := by
  have scanned : scan (encode text) = (text.toList, []) := scan_encodeChars text.toList
  rw [decode?, scanned]
  dsimp only
  rw [String.ofList_toList]

theorem encode_inj {a b : String} : encode a = encode b ↔ a = b := by
  constructor
  · intro h
    have texts := congrArg decode? h
    rwa [decode?_encode, decode?_encode, Option.some.injEq] at texts
  · exact congrArg encode

theorem encode_ne {a b : String} (h : a ≠ b) : encode a ≠ encode b :=
  mt encode_inj.1 h

theorem eq_of_scan {bytes rest : Bytes} {chars : List Char} (h : scan bytes = (chars, rest)) :
    bytes = encodeChars chars ++ rest ∧ first? rest = none := by
  fun_induction scan bytes generalizing chars rest with
  | case1 bytes none =>
    cases h
    exact ⟨rfl, none⟩
  | case2 bytes c tail found _ more invalid scanned ih =>
    cases h
    obtain ⟨rfl, none⟩ := ih scanned
    refine ⟨?_, none⟩
    rw [encodeChars_cons, List.append_assoc]
    exact eq_append_of_first? found

theorem exists_of_encodeChars_append {front chars : List Char} {tail : Bytes}
    (h : encodeChars front ++ tail = encodeChars chars) :
    ∃ back, chars = front ++ back ∧ tail = encodeChars back := by
  induction front generalizing chars with
  | nil => exact ⟨chars, rfl, h⟩
  | cons c front ih =>
    rw [encodeChars_cons, List.append_assoc] at h
    have found := congrArg first? h
    rw [first?_encodeChar_append] at found
    cases chars with
    | nil => cases found.trans first?_nil
    | cons d chars =>
      rw [encodeChars_cons, first?_encodeChar_append] at found
      obtain ⟨rfl, others⟩ := Prod.mk.inj (Option.some.inj found)
      obtain ⟨back, rfl, tails⟩ := ih others
      exact ⟨back, rfl, tails⟩

theorem length_le_of_first?_none {front behind : Bytes} {chars : List Char}
    (none : first? front = none) (h : front ++ behind = encodeChars chars) : front.length ≤ 3 := by
  cases chars with
  | nil => simp [(List.append_eq_nil_iff.1 h).1]
  | cons c chars =>
    rw [encodeChars_cons] at h
    have size := c.utf8Size_le_four
    rw [← String.length_utf8EncodeChar c] at size
    refine Nat.le_of_lt_succ (Nat.lt_of_lt_of_le (Nat.lt_of_not_le fun long => ?_) size)
    have whole : encodeChar c <+: front ++ behind := h ▸ List.prefix_append _ _
    obtain ⟨rest, rfl⟩ := List.prefix_of_prefix_length_le whole (List.prefix_append _ _) long
    rw [first?_encodeChar_append] at none
    cases none

theorem eq_nil_of_first?_none {chars : List Char} (none : first? (encodeChars chars) = none) :
    chars = [] := by
  cases chars with
  | nil => rfl
  | cons c chars =>
    rw [encodeChars_cons, first?_encodeChar_append] at none
    cases none

theorem scan_front {front behind : Bytes} {chars : List Char}
    (h : front ++ behind = encodeChars chars) :
    ∃ taken others rest, scan front = (taken, rest) ∧ chars = taken ++ others ∧
      rest ++ behind = encodeChars others ∧ first? rest = none ∧ rest.length ≤ 3 := by
  rcases scanned : scan front with ⟨taken, rest⟩
  obtain ⟨rfl, none⟩ := eq_of_scan scanned
  rw [List.append_assoc] at h
  obtain ⟨others, rfl, completed⟩ := exists_of_encodeChars_append h
  exact ⟨taken, others, rest, rfl, rfl, completed, none, length_le_of_first?_none none completed⟩

theorem cons_lt_cons {m n : Nat} {bytes bytes' : Bytes} (small : m < 256) (small' : n < 256) :
    UInt8.ofNat m :: bytes < UInt8.ofNat n :: bytes' ↔ m < n ∨ m = n ∧ bytes < bytes' := by
  rw [List.cons_lt_cons_iff, UInt8.lt_iff_toNat_lt, ← UInt8.toNat_inj, UInt8.toNat_ofNat',
    UInt8.toNat_ofNat', Nat.mod_eq_of_lt small, Nat.mod_eq_of_lt small']

theorem digit_lt {m n : Nat} (h : m < n) :
    m / 64 < n / 64 ∨ m / 64 = n / 64 ∧ m % 64 < n % 64 := by
  omega

theorem digits_lt {m n : Nat} (h : m < n) :
    m / 262144 < n / 262144 ∨ m / 262144 = n / 262144 ∧
      (m / 4096 % 64 < n / 4096 % 64 ∨ m / 4096 % 64 = n / 4096 % 64 ∧
        (m / 64 % 64 < n / 64 % 64 ∨ m / 64 % 64 = n / 64 % 64 ∧ m % 64 < n % 64)) := by
  have shift (v : Nat) : v / 64 / 64 = v / 4096 := Nat.div_div_eq_div_mul ..
  have shift' (v : Nat) : v / 4096 / 64 = v / 262144 := Nat.div_div_eq_div_mul ..
  have first := digit_lt h
  have second (h : m / 64 < n / 64) := digit_lt h
  have third (h : m / 4096 < n / 4096) := digit_lt h
  simp only [shift, shift'] at second third
  omega

theorem encodeChar_lt {c d : Char} (h : c < d) (rest rest' : Bytes) :
    encodeChar c ++ rest < encodeChar d ++ rest' := by
  have below : c.val.toNat < d.val.toNat := h
  have bound : d.val.toNat < 0x110000 := by
    have := d.valid
    rcases this with h | h <;> omega
  have digits := digits_lt below
  simp only [encodeChar, String.utf8EncodeChar]
  generalize c.val.toNat = m at *
  generalize d.val.toNat = n at *
  have top : m / 262144 % 8 = m / 262144 := Nat.mod_eq_of_lt (by omega)
  have top' : n / 262144 % 8 = n / 262144 := Nat.mod_eq_of_lt (by omega)
  -- A shorter character differs in its first byte, one of the same size in some digit.
  repeat' split
  all_goals
    try omega
  all_goals
    simp (disch := omega) only [List.cons_append, List.nil_append, cons_lt_cons, top, top']
  all_goals omega

theorem encodeChars_lt {chars chars' : List Char} (h : chars < chars') :
    encodeChars chars < encodeChars chars' := by
  induction h with
  | @nil c chars' =>
    rw [encodeChars_cons]
    cases bytes : encodeChar c with
    | nil => exact absurd bytes (String.utf8EncodeChar_ne_nil)
    | cons b bytes => exact List.nil_lt_cons b _
  | rel below => exact encodeChar_lt below _ _
  | cons _ ih => exact List.append_left_lt ih

theorem encode_lt {a b : String} (h : a < b) : encode a < encode b :=
  encodeChars_lt h

end SealedChat.Utf8
