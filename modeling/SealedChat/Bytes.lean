namespace SealedChat

abbrev Bytes := List UInt8

namespace Bytes

def ofNat : (width : Nat) → Nat → Bytes
  | 0, _ => []
  | width + 1, n => UInt8.ofNat (n >>> (8 * width)) :: ofNat width n

def toNat (bytes : Bytes) : Nat :=
  bytes.foldl (fun n b => 256 * n + b.toNat) 0

@[simp] theorem length_ofNat (width n : Nat) : (ofNat width n).length = width := by
  induction width with
  | zero => rfl
  | succ width ih => simp [ofNat, ih]

theorem one_shiftLeft_succ (width : Nat) :
    1 <<< (8 * (width + 1)) = 1 <<< (8 * width) * 256 := by
  rw [Nat.one_shiftLeft, Nat.one_shiftLeft, Nat.mul_succ, Nat.pow_add]

theorem foldl_ofNat (width n a : Nat) :
    (ofNat width n).foldl (fun n b => 256 * n + b.toNat) a =
      1 <<< (8 * width) * a + n % 1 <<< (8 * width) := by
  induction width generalizing a with
  | zero => simp [ofNat, Nat.mod_one]
  | succ width ih =>
    have byte : (UInt8.ofNat (n >>> (8 * width))).toNat = n / 1 <<< (8 * width) % 256 := by
      rw [UInt8.toNat_ofNat', Nat.shiftRight_eq_div_pow, Nat.one_shiftLeft]
    rw [ofNat, List.foldl_cons, ih, byte, one_shiftLeft_succ, Nat.mod_mul, Nat.mul_add,
      Nat.mul_assoc]
    omega

theorem toNat_ofNat {width n : Nat} (h : n < 1 <<< (8 * width)) : toNat (ofNat width n) = n := by
  rw [toNat, foldl_ofNat, Nat.mul_zero, Nat.zero_add, Nat.mod_eq_of_lt h]

theorem foldl_eq (bytes : Bytes) (a : Nat) :
    bytes.foldl (fun n b => 256 * n + b.toNat) a = 1 <<< (8 * bytes.length) * a + toNat bytes := by
  induction bytes generalizing a with
  | nil => simp [toNat]
  | cons b bytes ih =>
    rw [toNat, List.foldl_cons, List.foldl_cons, ih, ih (256 * 0 + b.toNat), List.length_cons,
      one_shiftLeft_succ, Nat.mul_zero, Nat.zero_add, Nat.mul_add, Nat.mul_assoc, Nat.add_assoc]

theorem toNat_cons (b : UInt8) (bytes : Bytes) :
    toNat (b :: bytes) = 1 <<< (8 * bytes.length) * b.toNat + toNat bytes := by
  rw [toNat, List.foldl_cons, foldl_eq, Nat.mul_zero, Nat.zero_add]

theorem toNat_lt (bytes : Bytes) : toNat bytes < 1 <<< (8 * bytes.length) := by
  induction bytes with
  | nil => decide
  | cons b bytes ih =>
    have digit : 1 <<< (8 * bytes.length) * b.toNat ≤ 1 <<< (8 * bytes.length) * 255 :=
      Nat.mul_le_mul_left _ (Nat.le_of_lt_succ b.toNat_lt)
    rw [toNat_cons, List.length_cons, one_shiftLeft_succ]
    omega

theorem eq_of_toNat_eq {a b : Bytes} (size : a.length = b.length) (h : toNat a = toNat b) :
    a = b := by
  induction a generalizing b with
  | nil => exact (List.length_eq_zero_iff.1 size.symm).symm
  | cons x a ih =>
    cases b with
    | nil => cases size
    | cons y b =>
      have sizes : a.length = b.length := Nat.succ.inj size
      rw [toNat_cons, toNat_cons, ← sizes] at h
      have lowA := toNat_lt a
      have lowB : toNat b < 1 <<< (8 * a.length) := sizes ▸ toNat_lt b
      have digits := congrArg (· / 1 <<< (8 * a.length)) h
      have rests := congrArg (· % 1 <<< (8 * a.length)) h
      simp only [Nat.mul_add_div (Nat.zero_lt_of_lt lowA), Nat.div_eq_of_lt lowA,
        Nat.div_eq_of_lt lowB, Nat.add_zero] at digits
      simp only [Nat.mul_add_mod_self_left, Nat.mod_eq_of_lt lowA, Nat.mod_eq_of_lt lowB] at rests
      rw [UInt8.toNat_inj.1 digits, ih sizes rests]

theorem ofNat_toNat (bytes : Bytes) : ofNat bytes.length (toNat bytes) = bytes :=
  eq_of_toNat_eq (length_ofNat _ _) (toNat_ofNat (toNat_lt bytes))

def cut? (n : Nat) (bytes : Bytes) : Option (Bytes × Bytes) :=
  let front := bytes.take n
  if front.length = n then some (front, bytes.drop n) else none

theorem cut?_eq_some_iff {n : Nat} {bytes front rest : Bytes} :
    cut? n bytes = some (front, rest) ↔ bytes = front ++ rest ∧ front.length = n := by
  unfold cut?
  constructor
  · intro h
    dsimp only at h
    split at h
    · next hn =>
      obtain ⟨rfl, rfl⟩ := Prod.mk.inj (Option.some.inj h)
      exact ⟨(List.take_append_drop n bytes).symm, hn⟩
    · cases h
  · rintro ⟨rfl, rfl⟩
    simp

theorem cut?_eq_none_iff {n : Nat} {bytes : Bytes} : cut? n bytes = none ↔ bytes.length < n := by
  unfold cut?
  dsimp only
  rw [List.length_take]
  split
  · next h => exact iff_of_false nofun (by omega)
  · next h => exact iff_of_true rfl (by omega)

def hexDigits (b : UInt8) : List Char :=
  [Nat.digitChar (b.toNat / 16), Nat.digitChar (b.toNat % 16)]

def hex (bytes : Bytes) : String :=
  String.ofList (bytes.flatMap hexDigits)

end Bytes

end SealedChat
