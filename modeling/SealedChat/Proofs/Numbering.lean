import SealedChat.Session.Keys

namespace SealedChat

namespace Counter

def ofNat (n : Nat) : Counter :=
  ⟨if n < UInt64.size then some (UInt64.ofNat n) else none⟩

theorem startAt_eq_ofNat (n : UInt64) : startAt n = ofNat n.toNat := by
  rw [ofNat, if_pos n.toNat_lt_size, UInt64.ofNat_toNat]
  rfl

theorem exists_eq_ofNat (counter : Counter) : ∃ n ≤ UInt64.size, counter = ofNat n := by
  obtain ⟨next⟩ := counter
  cases next with
  | none => exact ⟨UInt64.size, Nat.le_refl _, rfl⟩
  | some n => exact ⟨n.toNat, Nat.le_of_lt n.toNat_lt_size, startAt_eq_ofNat n⟩

theorem ofNat_of_le {n : Nat} (h : UInt64.size ≤ n) : ofNat n = ⟨none⟩ := by
  rw [ofNat, if_neg (Nat.not_lt.2 h)]

theorem ofNat_inj {m n : Nat} (hm : m ≤ UInt64.size) (hn : n ≤ UInt64.size)
    (h : ofNat m = ofNat n) : m = n := by
  have next := congrArg Counter.next h
  simp only [ofNat] at next
  split at next <;> split at next
  · next small small' =>
    have numbers := congrArg UInt64.toNat (Option.some.inj next)
    rwa [UInt64.toNat_ofNat_of_lt' small, UInt64.toNat_ofNat_of_lt' small'] at numbers
  · cases next
  · cases next
  · omega

theorem take_of_lt {n : Nat} (h : n < UInt64.size) :
    (ofNat n).take = .ok (UInt64.ofNat n, ofNat (n + 1)) := by
  have number : (UInt64.ofNat n).toNat = n := UInt64.toNat_ofNat_of_lt' h
  have successor : UInt64.ofNat n + 1 = UInt64.ofNat (n + 1) := (UInt64.ofNat_add n 1).symm
  have next : (ofNat n).next = some (UInt64.ofNat n) := by rw [ofNat, if_pos h]
  rw [take, next]
  simp only [ofNat, successor?, number, successor]

theorem take_of_le {n : Nat} (h : UInt64.size ≤ n) :
    (ofNat n).take = .error .counterExhausted := by
  rw [ofNat_of_le h]
  rfl

end Counter

namespace SessionKeys

variable {keys : SessionKeys} {n : Nat}

theorem takeRead_of_lt (stands : keys.readCounter = .ofNat n) (h : n < UInt64.size) :
    keys.takeRead = (.ok (UInt64.ofNat n), { keys with readCounter := .ofNat (n + 1) }) := by
  rw [takeRead, stands, Counter.take_of_lt h]

theorem takeRead_of_le (stands : keys.readCounter = .ofNat n) (h : UInt64.size ≤ n) :
    keys.takeRead = (.error .counterExhausted, keys) := by
  rw [takeRead, stands, Counter.take_of_le h]

theorem takeWrite_of_lt (stands : keys.writeCounter = .ofNat n) (h : n < UInt64.size) :
    keys.takeWrite = (.ok (UInt64.ofNat n), { keys with writeCounter := .ofNat (n + 1) }) := by
  rw [takeWrite, stands, Counter.take_of_lt h]

theorem takeWrite_of_le (stands : keys.writeCounter = .ofNat n) (h : UInt64.size ≤ n) :
    keys.takeWrite = (.error .counterExhausted, keys) := by
  rw [takeWrite, stands, Counter.take_of_le h]

end SessionKeys

end SealedChat
