import SealedChat.Aead.Ghash

namespace SealedChat.Gcm

variable (cipher : Block → Block)

def nonceSize : Nat := 12

def tagSize : Nat := 16

def counterBlock (nonce : Bytes) (counter : UInt32) : Block :=
  let block := Block.ofBytes nonce
  ⟨block.high, block.low ||| counter.toUInt64⟩

def addStream : (stream text done : Bytes) → Bytes × Bytes
  | s :: stream, b :: text, done => addStream stream text ((b ^^^ s) :: done)
  | _, text, done => (text, done)

theorem addStream_eq (stream text done : Bytes) :
    addStream stream text done =
      (text.drop stream.length, (text.zipWith (· ^^^ ·) stream).reverse ++ done) := by
  fun_induction addStream stream text done with
  | case1 done s stream b text ih => simp [ih]
  | case2 stream text done other =>
    cases stream with
    | nil => simp
    | cons s stream =>
      cases text with
      | nil => simp
      | cons b text => exact (other _ _ _ _ rfl rfl).elim

def counterModeFrom (nonce : Bytes) (counter : UInt32) (text done : Bytes) : Bytes :=
  match h : text with
  | [] => done.reverse
  | _ :: _ =>
    let next := addStream (cipher (counterBlock nonce counter)).toBytes text done
    counterModeFrom nonce (counter + 1) next.1 next.2
termination_by text.length
decreasing_by
  simp only [h, addStream_eq, Block.length_toBytes, List.length_drop, List.length_cons, Block.size]
  omega

def counterMode (nonce text : Bytes) : Bytes :=
  -- the block numbered one is for the tag
  counterModeFrom cipher nonce 2 text []

def tag (nonce aad ciphertext : Bytes) : Bytes :=
  (Ghash.hash (cipher Block.zero) aad ciphertext + cipher (counterBlock nonce 1)).toBytes

@[simp] theorem length_tag (nonce aad ciphertext : Bytes) :
    (tag cipher nonce aad ciphertext).length = tagSize := rfl

@[simp] theorem counterModeFrom_empty (nonce : Bytes) (counter : UInt32) (done : Bytes) :
    counterModeFrom cipher nonce counter [] done = done.reverse := by
  rw [counterModeFrom]

theorem counterModeFrom_step (nonce : Bytes) (counter : UInt32) {text : Bytes} (done : Bytes)
    (h : text ≠ []) :
    counterModeFrom cipher nonce counter text done =
      counterModeFrom cipher nonce (counter + 1) (text.drop Block.size)
        ((text.zipWith (· ^^^ ·) (cipher (counterBlock nonce counter)).toBytes).reverse ++
          done) := by
  cases text with
  | nil => contradiction
  | cons b text =>
    rw [counterModeFrom]
    simp only [addStream_eq, Block.length_toBytes]

theorem counterModeFrom_append (nonce : Bytes) (counter : UInt32) (text done more : Bytes) :
    counterModeFrom cipher nonce counter text (done ++ more) =
      more.reverse ++ counterModeFrom cipher nonce counter text done := by
  by_cases h : text = []
  · simp [h]
  · rw [counterModeFrom_step cipher nonce counter _ h,
      counterModeFrom_step cipher nonce counter _ h,
      ← List.append_assoc, counterModeFrom_append]
termination_by text.length
decreasing_by
  have := List.length_pos_iff.2 h
  simp only [List.length_drop, Block.size]
  omega

theorem counterModeFrom_nil (nonce : Bytes) (counter : UInt32) (text : Bytes) :
    counterModeFrom cipher nonce counter text [] =
      text.zipWith (· ^^^ ·) (cipher (counterBlock nonce counter)).toBytes ++
        counterModeFrom cipher nonce (counter + 1) (text.drop Block.size) [] := by
  by_cases h : text = []
  · simp [h]
  · rw [counterModeFrom_step cipher nonce counter _ h, List.append_nil,
      ← List.nil_append (List.reverse _), counterModeFrom_append, List.reverse_reverse]

theorem zipWith_append_of_length_eq (text rest stream : Bytes) (h : text.length = stream.length) :
    (text ++ rest).zipWith (· ^^^ ·) stream = text.zipWith (· ^^^ ·) stream := by
  have split : (text ++ rest).zipWith (· ^^^ ·) (stream ++ []) = _ := List.zipWith_append h
  rwa [List.append_nil, List.zipWith_nil_right, List.append_nil] at split

theorem zipWith_zipWith_xor (text stream : Bytes) :
    (text.zipWith (· ^^^ ·) stream).zipWith (· ^^^ ·) stream = text.take stream.length := by
  induction text generalizing stream with
  | nil => simp
  | cons b text ih =>
    cases stream with
    | nil => rfl
    | cons s stream =>
      simp only [List.zipWith_cons_cons, List.length_cons, List.take_succ_cons, List.cons.injEq]
      exact ⟨by rw [UInt8.xor_assoc, UInt8.xor_self, UInt8.xor_zero], ih stream⟩

theorem length_counterModeFrom (nonce : Bytes) (counter : UInt32) (text done : Bytes) :
    (counterModeFrom cipher nonce counter text done).length = done.length + text.length := by
  by_cases h : text = []
  · simp [h]
  · have size := Block.length_toBytes (cipher (counterBlock nonce counter))
    rw [counterModeFrom_step cipher nonce counter _ h, length_counterModeFrom]
    simp only [List.length_append, List.length_reverse, List.length_zipWith, size, List.length_drop]
    omega
termination_by text.length
decreasing_by
  have := List.length_pos_iff.2 h
  simp only [List.length_drop, Block.size]
  omega

@[simp] theorem length_counterMode (nonce text : Bytes) :
    (counterMode cipher nonce text).length = text.length := by
  rw [counterMode, length_counterModeFrom, List.length_nil, Nat.zero_add]

theorem counterModeFrom_counterModeFrom (nonce : Bytes) (counter : UInt32) (text : Bytes) :
    counterModeFrom cipher nonce counter (counterModeFrom cipher nonce counter text []) [] =
      text := by
  by_cases empty : text = []
  · simp [empty]
  · have ih := counterModeFrom_counterModeFrom nonce (counter + 1) (text.drop Block.size)
    rw [counterModeFrom_nil cipher nonce counter (counterModeFrom _ _ _ _ _),
      counterModeFrom_nil cipher nonce counter text]
    have size := Block.length_toBytes (cipher (counterBlock nonce counter))
    generalize (cipher (counterBlock nonce counter)).toBytes = stream at size
    rcases Nat.le_total text.length Block.size with short | long
    · have back := zipWith_zipWith_xor text stream
      have none : (text.zipWith (· ^^^ ·) stream).drop Block.size = [] := by
        rw [List.drop_eq_nil_iff, List.length_zipWith, size]
        exact Nat.min_le_right _ _
      simp only [List.drop_of_length_le short, counterModeFrom_empty, List.reverse_nil,
        List.append_nil, none, back, size, List.take_of_length_le short]
    · have front : (text.zipWith (· ^^^ ·) stream).length = stream.length := by
        simp only [List.length_zipWith, size]
        omega
      rw [List.drop_left' (front.trans size), ih,
        zipWith_append_of_length_eq _ _ _ front, zipWith_zipWith_xor, size, List.take_append_drop]
termination_by text.length
decreasing_by
  have := List.length_pos_iff.2 empty
  simp only [List.length_drop, Block.size]
  omega

theorem counterMode_counterMode (nonce text : Bytes) :
    counterMode cipher nonce (counterMode cipher nonce text) = text :=
  counterModeFrom_counterModeFrom cipher nonce 2 text

def encrypt (nonce aad plaintext : Bytes) : Bytes :=
  let ciphertext := counterMode cipher nonce plaintext
  ciphertext ++ tag cipher nonce aad ciphertext

def decrypt? (nonce aad sealed : Bytes) : Option Bytes :=
  let size := sealed.length - tagSize
  let ciphertext := sealed.take size
  if sealed.drop size = tag cipher nonce aad ciphertext then
    some (counterMode cipher nonce ciphertext)
  else
    none

end SealedChat.Gcm
