import SealedChat.Json.Format
import SealedChat.Proofs.Tokens

namespace SealedChat.Json

variable {α β σ : Type}

def Reads (decoder : Decoder α) (text : List Char) (value : α) : Prop :=
  ∀ rest, Ends rest → decoder (text ++ rest) = .ok (value, rest)

namespace Decoder

theorem startsWith_cons {c d : Char} (h : isSpace d = false) (text : List Char) :
    startsWith c (d :: text) = .ok (decide (d = c), d :: text) := by
  rw [startsWith, bind_of_ok (skipSpace_cons h text)]
  refine (bind_of_ok rfl).trans ?_
  rw [List.head?_cons, decide_eq_decide.2 Option.some_inj]
  rfl

end Decoder

namespace Reads

open Decoder

theorem expected {value? : Token → Option α} {token : Token} {text : List Char} {value : α}
    (h : Reads Decoder.token text token) (isOne : value? token = some value) :
    Reads (Decoder.expected value?) text value := by
  intro rest ends
  rw [Decoder.expected, bind_of_ok (h rest ends), isOne]
  rfl

theorem text (text : String) : Reads Format.text.read (writeText text) text :=
  expected (fun rest _ => token_text text rest) rfl

theorem bool (b : Bool) : Reads Format.bool.read (writeBool b) b :=
  expected (fun rest _ => token_bool b rest) rfl

theorem integer {toInt : α → Int} {ofInt? : Int → Option α} {n : α}
    (fits : (toInt n).natAbs < UInt64.size) (again : ofInt? (toInt n) = some n) :
    Reads (Format.integer toInt ofInt?).read (writeInt (toInt n)) n := by
  refine expected (fun rest ends => token_int ends fits) ?_
  dsimp only
  rw [Numeral.integer?_ofInt]
  exact again

theorem octet (n : UInt8) : Reads Format.octet.read (Format.octet.write n) n := by
  have size : n.toNat < UInt8.size := n.toNat_lt
  refine integer ?_ ?_
  · exact Nat.lt_trans size (by decide)
  · rw [if_pos ⟨Int.natCast_nonneg _, Int.ofNat_lt.2 size⟩]
    simp

theorem unsigned (n : UInt64) : Reads Format.unsigned.read (Format.unsigned.write n) n := by
  have size : n.toNat < UInt64.size := n.toNat_lt
  refine integer ?_ ?_
  · exact size
  · rw [if_pos ⟨Int.natCast_nonneg _, Int.ofNat_lt.2 size⟩]
    simp

theorem signed (n : Int64) : Reads Format.signed.read (Format.signed.write n) n := by
  have below : Int64.minValue.toInt ≤ n.toInt := n.minValue_le_toInt
  have above : n.toInt ≤ Int64.maxValue.toInt := Int64.toInt_le n
  refine integer ?_ ?_
  · have least : Int64.minValue.toInt = -9223372036854775808 := by decide
    have greatest : Int64.maxValue.toInt = 9223372036854775807 := by decide
    rw [least] at below
    rw [greatest] at above
    change _ < 18446744073709551616
    omega
  · rw [if_pos ⟨below, above⟩]
    simp

theorem null {value : Decoder α} : Reads (Decoder.option value) ['n', 'u', 'l', 'l'] none :=
  fun _ _ => rfl

theorem present {decoder : Decoder α} {c : Char} {text : List Char} {value : α}
    (space : isSpace c = false) (other : c ≠ 'n') (h : Reads decoder (c :: text) value) :
    Reads (Decoder.option decoder) (c :: text) (some value) := by
  intro rest ends
  rw [Decoder.option, List.cons_append, bind_of_ok (startsWith_cons space _), decide_eq_false other,
    if_neg Bool.false_ne_true, ← List.cons_append, bind_of_ok (h rest ends)]
  rfl

theorem optionText (text : Option String) :
    Reads Format.text.option.read (writeOption writeText text) text := by
  cases text with
  | none => exact null
  | some text => exact present rfl (by decide) (Reads.text text)

end Reads

theorem separate_singleton (text : List Char) : separate [text] = text := by
  simp [separate, List.intercalate]

theorem separate_cons_cons (first second : List Char) (others : List (List Char)) :
    separate (first :: second :: others) = first ++ ',' :: separate (second :: others) := by
  simp [separate, List.intercalate]

theorem exists_separate_eq_cons (c : Char) (text : List Char) (texts : List (List Char)) :
    ∃ tail, separate ((c :: text) :: texts) = c :: tail := by
  cases texts with
  | nil => exact ⟨text, separate_singleton _⟩
  | cons second others => exact ⟨_, separate_cons_cons ..⟩

theorem length_le_length_separate (texts : List (List Char)) :
    texts.length ≤ (separate texts).length + 1 := by
  induction texts with
  | nil => exact Nat.zero_le _
  | cons first others ih =>
    cases others with
    | nil => exact Nat.le_add_left 1 _
    | cons second others =>
      simp only [separate_cons_cons, List.length_append, List.length_cons] at ih ⊢
      omega

inductive CellsRead (step : σ → Decoder (σ ⊕ α)) (close : Char) : List (List Char) → σ → α → Prop
  | last {text : List Char} {s : σ} {value : α}
      (h : ∀ rest, step s (text ++ close :: rest) = .ok (.inr value, rest)) :
      CellsRead step close [text] s value
  | more {text : List Char} {texts : List (List Char)} {s next : σ} {value : α}
      (h : ∀ rest, step s (text ++ ',' :: rest) = .ok (.inl next, rest))
      (others : CellsRead step close texts next value) :
      CellsRead step close (text :: texts) s value

def fieldText (field : String × List Char) : List Char :=
  writeText field.1 ++ ':' :: field.2

theorem writeRecord_eq (fields : List (String × List Char)) :
    writeRecord fields = '{' :: (separate (fields.map fieldText) ++ ['}']) :=
  rfl

inductive FieldsRead (decoder : (name : String) → σ → Decoder σ) :
    List (String × List Char) → σ → σ → Prop
  | last {name : String} {text : List Char} {s next : σ}
      (h : Reads (decoder name s) (':' :: text) next) : FieldsRead decoder [(name, text)] s next
  | field {name : String} {text : List Char} {fields : List (String × List Char)} {s next last : σ}
      (h : Reads (decoder name s) (':' :: text) next)
      (others : FieldsRead decoder fields next last) :
      FieldsRead decoder ((name, text) :: fields) s last

namespace CellsRead

open Decoder

theorem repeatWithin {step : σ → Decoder (σ ⊕ α)} {close : Char}
    {texts : List (List Char)} {s : σ} {value : α} (h : CellsRead step close texts s value)
    {bound : List Char} (enough : texts.length ≤ bound.length) (rest : List Char) :
    SealedChat.repeatWithin .unfinished step bound s (separate texts ++ close :: rest) =
      .ok (value, rest) := by
  induction h generalizing bound with
  | @last text s value h =>
    cases bound with
    | nil => cases enough
    | cons b bound =>
      rw [SealedChat.repeatWithin, separate_singleton, bind_of_ok (h rest)]
      rfl
  | @more text texts s next value h others ih =>
    cases bound with
    | nil => cases enough
    | cons b bound =>
      have split : separate (text :: texts) = text ++ ',' :: separate texts := by
        cases others with
        | last => exact separate_cons_cons ..
        | more => exact separate_cons_cons ..
      rw [SealedChat.repeatWithin, split, List.append_assoc, List.cons_append, bind_of_ok (h _)]
      exact ih (Nat.le_of_succ_le_succ enough)

theorem repeatUntil {step : σ → Decoder (σ ⊕ α)} {close : Char}
    {texts : List (List Char)} {s : σ} {value : α} (h : CellsRead step close texts s value)
    (rest : List Char) :
    Decoder.repeatUntil step s (separate texts ++ close :: rest) = .ok (value, rest) := by
  have enough : texts.length ≤ (separate texts ++ close :: rest).length := by
    have := length_le_length_separate texts
    rw [List.length_append, List.length_cons]
    omega
  rw [Decoder.repeatUntil]
  refine (bind_of_ok rfl).trans ?_
  exact h.repeatWithin enough rest

theorem ofValues {step : List α → Decoder (List α ⊕ List α)} {write : α → List Char}
    {value : α} {values : List α}
    (comma : ∀ other ∈ value :: values, ∀ read rest,
      step read (write other ++ ',' :: rest) = .ok (.inl (other :: read), rest))
    (close : ∀ other ∈ value :: values, ∀ read rest,
      step read (write other ++ ']' :: rest) = .ok (.inr (other :: read).reverse, rest))
    (read : List α) :
    CellsRead step ']' ((value :: values).map write) read (read.reverse ++ value :: values) := by
  induction values generalizing value read with
  | nil =>
    have last := close value List.mem_cons_self read
    rw [List.reverse_cons] at last
    exact .last last
  | cons next values ih =>
    refine .more (comma value List.mem_cons_self read) ?_
    have others := ih (fun v mem => comma v (List.mem_cons_of_mem _ mem))
      (fun v mem => close v (List.mem_cons_of_mem _ mem)) (value :: read)
    rwa [List.reverse_cons, List.append_assoc, List.singleton_append] at others

theorem ofFields {step : σ → Decoder (σ ⊕ σ)} {decoder : (name : String) → σ → Decoder σ}
    {fields : List (String × List Char)} {s last : σ} (h : FieldsRead decoder fields s last)
    (comma : ∀ name text s next rest, Reads (decoder name s) (':' :: text) next →
      step s (fieldText (name, text) ++ ',' :: rest) = .ok (.inl next, rest))
    (close : ∀ name text s next rest, Reads (decoder name s) (':' :: text) next →
      step s (fieldText (name, text) ++ '}' :: rest) = .ok (.inr next, rest)) :
    CellsRead step '}' (fields.map fieldText) s last := by
  induction h with
  | last h => exact .last fun rest => close _ _ _ _ rest h
  | field h _ ih => exact .more (fun rest => comma _ _ _ _ rest h) ih

end CellsRead

namespace Reads

open Decoder

theorem list {element : Decoder α} {write : α → List Char} {values : List α}
    (opening : ∀ value ∈ values, ∃ c text, write value = c :: text ∧ isSpace c = false ∧ c ≠ ']')
    (h : ∀ value ∈ values, Reads element (write value) value) :
    Reads (Decoder.list element) (writeList write values) values := by
  intro rest _
  rw [Decoder.list, writeList, List.append_assoc, List.cons_append]
  refine (bind_of_ok (token_array _)).trans ?_
  cases values with
  | nil => rfl
  | cons value values =>
    obtain ⟨⟨c, text, written, space, other⟩, -⟩ := List.forall_mem_cons.1 opening
    obtain ⟨tail, row⟩ := exists_separate_eq_cons c text (values.map write)
    have start : startsWith ']' (separate ((value :: values).map write) ++ ([']'] ++ rest)) =
        .ok (false, separate ((value :: values).map write) ++ ([']'] ++ rest)) := by
      rw [List.map_cons, written, row, List.cons_append, startsWith_cons space,
        decide_eq_false other]
    refine (bind_of_ok start).trans ?_
    rw [if_neg Bool.false_ne_true]
    refine (CellsRead.ofValues (fun value mem read rest => ?_) (fun value mem read rest => ?_)
      []).repeatUntil rest
    · exact bind_of_ok (h value mem _ (.comma rest))
    · exact bind_of_ok (h value mem _ (.array rest))

theorem bytes (bytes : Bytes) : Reads Format.bytes.read (Format.bytes.write bytes) bytes := by
  have row : Reads (Decoder.list Format.octet.read) (Format.bytes.write bytes) bytes := by
    refine list (fun n _ => ?_) fun n _ => octet n
    obtain ⟨c, digits, written, digit⟩ := exists_toDigits_eq_cons n.toNat
    refine ⟨c, digits, written, isSpace_of_number (.inr digit), ?_⟩
    rintro rfl
    cases digit
  intro rest ends
  refine (bind_of_ok (startsWith_cons (rfl : isSpace '[' = false) _)).trans ?_
  rw [if_neg (by decide)]
  exact row rest ends

theorem field {decoder : Decoder α} {text : List Char} {value : α} (set : Option α → β)
    (h : Reads decoder text value) :
    Reads (do return set (← Decoder.field decoder none)) (':' :: text) (set (some value)) := by
  intro rest ends
  have filled : Decoder.field decoder none (':' :: (text ++ rest)) = .ok (some value, rest) := by
    rw [Decoder.field]
    refine (bind_of_ok (skipSpace_cons rfl _)).trans ?_
    rw [bind_of_ok (expect_singleton _ _), bind_of_ok (h rest ends)]
    rfl
  rw [List.cons_append, bind_of_ok filled]
  rfl

end Reads

namespace FieldsRead

open Decoder

theorem named {decoder : (name : String) → σ → Decoder σ} {name : String} {text : List Char}
    {s next : σ} (h : Reads (decoder name s) (':' :: text) next) {behind : σ → Decoder β}
    {rest : List Char} (ends : Ends rest) :
    (do
      skipSpace
      expect ['"']
      behind (← decoder (String.ofList (← chars)) s)) (fieldText (name, text) ++ rest) =
      behind next rest := by
  have shape : fieldText (name, text) ++ rest =
      '"' :: (name.toList.flatMap escape ++ '"' :: (':' :: text ++ rest)) := by
    simp [fieldText, writeText]
  rw [shape, bind_of_ok (skipSpace_cons rfl _), bind_of_ok (expect_singleton _ _),
    bind_of_ok (chars_escapes _ _), String.ofList_toList, bind_of_ok (h rest ends)]

theorem object {decoder : (name : String) → σ → Decoder σ} {fields : List (String × List Char)}
    {s last : σ} (h : FieldsRead decoder fields s last) (rest : List Char) :
    Decoder.object decoder s (separate (fields.map fieldText) ++ '}' :: rest) =
      .ok (last, rest) := by
  obtain ⟨tail, row⟩ : ∃ tail, separate (fields.map fieldText) = '"' :: tail := by
    cases h with
    | last => exact exists_separate_eq_cons ..
    | field => exact exists_separate_eq_cons ..
  have start : startsWith '}' (separate (fields.map fieldText) ++ '}' :: rest) =
      .ok (false, separate (fields.map fieldText) ++ '}' :: rest) := by
    rw [row, List.cons_append, startsWith_cons rfl]
    rfl
  rw [Decoder.object, bind_of_ok start, if_neg Bool.false_ne_true]
  refine CellsRead.repeatUntil (CellsRead.ofFields h ?_ ?_) rest
  · exact fun _ _ _ _ rest h => named h (.comma rest)
  · exact fun _ _ _ _ rest h => named h (.object rest)

theorem record {decoder : (name : String) → σ → Decoder σ} {fields : List (String × List Char)}
    {s last : σ} {cells : Decoder α} {finish : σ → Decoder α} {value : α}
    (h : FieldsRead decoder fields s last) (finished : finish last = pure value) :
    Reads (Decoder.record cells (do finish (← Decoder.object decoder s))) (writeRecord fields)
      value := by
  intro rest _
  rw [writeRecord_eq, List.cons_append, List.append_assoc, Decoder.record,
    bind_of_ok (token_object _)]
  refine (bind_of_ok (h.object rest)).trans ?_
  rw [finished]
  rfl

end FieldsRead

theorem Format.decode_eq {format : Format α} {text : List Char} {value : α}
    (h : Reads format.read text value) : format.decode (String.ofList text) = .ok value := by
  have whole := h [] .nil
  rw [List.append_nil] at whole
  rw [decode, readOne, String.toList_ofList, bind_of_ok whole]
  rfl

end SealedChat.Json
