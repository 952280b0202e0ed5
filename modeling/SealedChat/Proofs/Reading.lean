import SealedChat.Cbor.Format
import SealedChat.Proofs.Characters

/-!
What is written is read back.

`Reads` says what a decoder makes of some bytes, wherever they stand and whatever is behind them: it
reads them to their end, or fails within them. Its lemmas follow the decoders: one for each way to
put decoders together, and one for each kind of value that is written.
-/

namespace SealedChat.Cbor

variable {α β σ : Type}

/-- The decoder's result on the bytes, in front of any others. -/
def Reads (decoder : Decoder α) (bytes : Bytes) (result : Except DecodeError α) : Prop :=
  ∀ offset rest, decoder ⟨offset, bytes ++ rest⟩ =
    result.map fun value => (value, ⟨offset + bytes.length, rest⟩)

namespace Reads

open Decoder

variable {decoder : Decoder α} {next : α → Decoder β} {bytes front back : Bytes} {value : α}
  {result : Except DecodeError α} {last : Except DecodeError β} {n : Nat}

theorem pure (value : α) : Reads (pure value) [] (.ok value) :=
  fun _ _ => rfl

theorem fail (error : DecodeError) (bytes : Bytes) :
    Reads (Decoder.fail error : Decoder α) bytes (.error error) :=
  fun _ _ => rfl

theorem bind {results : α → Except DecodeError β} (first : Reads decoder front result)
    (second : ∀ value, result = .ok value → Reads (next value) back (results value)) :
    Reads (decoder >>= next) (front ++ back) (result >>= results) := by
  intro offset rest
  have read := first offset (back ++ rest)
  rw [List.append_assoc]
  cases result with
  | error error => exact bind_of_error read
  | ok value =>
    rw [bind_of_ok read, List.length_append, ← Nat.add_assoc]
    exact second value rfl (offset + front.length) rest

theorem andThen (first : Reads decoder front (.ok value)) (second : Reads (next value) back last) :
    Reads (decoder >>= next) (front ++ back) last :=
  first.bind fun _ same => Except.ok.inj same ▸ second

theorem stop {error : DecodeError} (first : Reads decoder front (.error error)) (back : Bytes) :
    Reads (decoder >>= next) (front ++ back) (.error error) :=
  first.bind (fun _ same => nomatch same : ∀ value, _ → Reads (next value) back (.error error))

theorem bindEnd {results : α → Except DecodeError β} (first : Reads decoder bytes result)
    (second : ∀ value, result = .ok value → Reads (next value) [] (results value)) :
    Reads (decoder >>= next) bytes (result >>= results) :=
  List.append_nil bytes ▸ first.bind second

theorem andEnd (first : Reads decoder bytes (.ok value)) (second : Reads (next value) [] last) :
    Reads (decoder >>= next) bytes last :=
  first.bindEnd fun _ same => Except.ok.inj same ▸ second

theorem mapResult (f : α → β) (h : Reads decoder bytes result) :
    Reads (do return f (← decoder)) bytes (result.map f) := by
  have mapped := h.bindEnd fun value _ => pure (f value)
  cases result <;> exact mapped

theorem mapNext {value : Item → Decoder α} (f : α → β)
    (h : Reads (nextItem >>= value) bytes result) :
    Reads (nextItem >>= fun item => do return f (← value item)) bytes (result.map f) := by
  have mapped := h.mapResult f
  rwa [bind_assoc] at mapped

theorem place {next : Nat → Decoder β} (h : ∀ place, Reads (next place) bytes last) :
    Reads (Decoder.place >>= next) bytes last :=
  fun offset rest => h offset offset rest

theorem byte (b : UInt8) : Reads Decoder.byte [b] (.ok b) :=
  fun _ _ => rfl

theorem take (bytes : Bytes) : Reads (Decoder.take bytes.length) bytes (.ok bytes) := by
  intro offset rest
  rw [Decoder.take, Bytes.cut?_eq_some_iff.2 ⟨rfl, rfl⟩]
  rfl

end Reads

theorem Major.ofByte_first (major : Major) :
    ∀ info < 32, Major.ofByte (UInt8.ofNat (32 * major.toNat + info)) = major := by
  cases major <;> decide

theorem Info.ofByte_here (major : Major) :
    ∀ info < 24, Info.ofByte (UInt8.ofNat (32 * major.toNat + info)) = .here info := by
  cases major <;> decide

theorem Info.ofByte_next (major : Major) :
    ∀ i < 4, Info.ofByte (UInt8.ofNat (32 * major.toNat + (24 + i))) = .next (1 <<< i) := by
  cases major <;> decide

theorem Header.ofArgument_width {major : Major} (h : major ≠ .other) (width n : Nat) :
    Header.ofArgument major width n = Header.ofArgument major 0 n := by
  cases major with
  | other => exact absurd rfl h
  | _ => rfl

theorem toInt_between (n : Int64) : -(UInt64.size : Int) ≤ n.toInt ∧ n.toInt < UInt64.size :=
  have least : -(UInt64.size : Int) ≤ Int64.minValue.toInt := by decide
  have most : Int64.maxValue.toInt < UInt64.size := by decide
  ⟨Int.le_trans least n.minValue_le_toInt, Int.lt_of_le_of_lt (Int64.toInt_le n) most⟩

inductive IsHead (major : Major) (n : Nat) : Bytes → Prop
  | here (short : n < 24) : IsHead major n [UInt8.ofNat (32 * major.toNat + n)]
  | next {i : Nat} (small : i < 4) (fits : n < 1 <<< (8 * (1 <<< i))) :
      IsHead major n (UInt8.ofNat (32 * major.toNat + (24 + i)) :: Bytes.ofNat (1 <<< i) n)

theorem isHead_head {major : Major} {n : Nat} (size : n < UInt64.size) :
    IsHead major n (head major n) := by
  unfold head
  dsimp only
  split
  · next here => exact .here here
  · split
    · next fits => exact .next (show 0 < 4 by decide) fits
    · split
      · next fits => exact .next (show 1 < 4 by decide) fits
      · split
        · next fits => exact .next (show 2 < 4 by decide) fits
        · exact .next (show 3 < 4 by decide) size

namespace Reads

open Decoder

variable {decoder : Item → Decoder β} {major : Major} {n : Nat} {bytes front : Bytes}
  {last : Except DecodeError β}

theorem item_here (short : n < 24)
    (h : ∀ offset, Reads (decoder ⟨.ofArgument major 0 n, offset⟩) bytes last) :
    Reads (nextItem >>= decoder) (UInt8.ofNat (32 * major.toNat + n) :: bytes) last := by
  unfold nextItem
  simp only [bind_assoc]
  refine place fun start => (byte _).andThen ?_
  simp only [Info.ofByte_here major n short, Major.ofByte_first major n (by omega), pure_bind]
  exact h start

theorem item_next {i : Nat} (small : i < 4) (fits : n < 1 <<< (8 * (1 <<< i)))
    (h : ∀ offset, Reads (decoder ⟨.ofArgument major (1 <<< i) n, offset⟩) bytes last) :
    Reads (nextItem >>= decoder)
      (UInt8.ofNat (32 * major.toNat + (24 + i)) :: (Bytes.ofNat (1 <<< i) n ++ bytes)) last := by
  have argument := take (Bytes.ofNat (1 <<< i) n)
  rw [Bytes.length_ofNat] at argument
  unfold nextItem
  simp only [bind_assoc]
  refine place fun start => (byte _).andThen ?_
  simp only [Info.ofByte_next major i small, Major.ofByte_first major _ (show 24 + i < 32 by omega),
    bind_assoc, pure_bind]
  refine argument.andThen ?_
  rw [Bytes.toNat_ofNat fits]
  exact h start

theorem header (isHead : IsHead major n front) (kind : major ≠ .other)
    (h : ∀ offset, Reads (decoder ⟨.ofArgument major 0 n, offset⟩) bytes last) :
    Reads (nextItem >>= decoder) (front ++ bytes) last := by
  cases isHead with
  | here short => exact item_here short h
  | next small fits =>
    refine item_next small fits fun offset => ?_
    rw [Header.ofArgument_width kind]
    exact h offset

theorem item (size : n < UInt64.size) (short : major = .other → n < 24)
    (h : ∀ offset, Reads (decoder ⟨.ofArgument major 0 n, offset⟩) bytes last) :
    Reads (nextItem >>= decoder) (head major n ++ bytes) last := by
  by_cases kind : major = .other
  · have here : head major n = [UInt8.ofNat (32 * major.toNat + n)] := if_pos (short kind)
    rw [here]
    exact item_here (short kind) h
  · exact header (isHead_head size) kind h

theorem item_indefinite {b : UInt8} {header : Header} (info : Info.ofByte b = .indefinite)
    (kind : Header.indefinite? (Major.ofByte b) = some header)
    (h : ∀ offset, Reads (decoder ⟨header, offset⟩) bytes last) :
    Reads (nextItem >>= decoder) (b :: bytes) last := by
  unfold nextItem
  simp only [bind_assoc]
  refine place fun start => (byte b).andThen ?_
  simp only [info, kind, pure_bind]
  exact h start

theorem textPieces (start remaining : Nat) (carry : Carry) (text : String) (chars : List Char)
    (bytes : Bytes) (size : bytes.length = remaining) (cut : Utf8.first? carry.val = none)
    (h : carry.val ++ bytes = Utf8.encodeChars chars) :
    Reads (Decoder.textPieces start remaining carry text) bytes
      (.ok (text ++ String.ofList chars)) := by
  induction remaining using Nat.strongRecOn generalizing carry text chars bytes with
  | ind remaining ih =>
    rw [Decoder.textPieces]
    split
    · next done =>
      obtain rfl := List.length_eq_zero_iff.1 (size.trans done)
      rw [List.append_nil] at h
      obtain rfl := Utf8.eq_nil_of_first?_none (h ▸ cut)
      rw [if_pos (show carry.val.isEmpty = true by rw [h]; rfl), String.ofList_nil,
        String.append_empty]
      exact pure text
    · next more =>
      have room : 0 < pieceSize - carry.val.length :=
        Nat.sub_pos_of_lt (Nat.lt_of_le_of_lt carry.property (by decide))
      generalize limit : min remaining (pieceSize - carry.val.length) = count
      obtain ⟨front, back, rfl, rfl⟩ : ∃ front back, bytes = front ++ back ∧ front.length = count :=
        ⟨bytes.take count, bytes.drop count, (List.take_append_drop ..).symm, by
          rw [List.length_take]; omega⟩
      rw [← List.append_assoc] at h
      obtain ⟨taken, others, rest, scanned, rfl, completed, cut, short⟩ := Utf8.scan_front h
      refine (take front).andThen ?_
      rw [scanned]
      dsimp only
      rw [dif_pos short, String.ofList_append, ← String.append_assoc]
      rw [List.length_append] at size
      exact ih _ (by omega) ⟨rest, short⟩ _ others back (by omega) cut completed

theorem textContent (text : String) :
    Reads (Decoder.textContent (some (Utf8.encode text).length)) (Utf8.encode text) (.ok text) := by
  refine place fun start => ?_
  have pieces := textPieces (start - headSize (Utf8.encode text).length) _ ⟨[], by simp⟩ ""
    text.toList (Utf8.encode text) rfl Utf8.first?_nil rfl
  rwa [String.ofList_toList, String.empty_append] at pieces

theorem bytesContent (bytes : Bytes) :
    Reads (Decoder.bytesContent (some bytes.length)) bytes (.ok bytes) := by
  simp only [Decoder.bytesContent, content, bind_assoc, pure_bind]
  refine place fun start => ?_
  have piece := (take bytes).mapResult fun piece => [piece].reverse.flatten
  simpa only [Except.map, List.reverse_singleton, List.flatten_singleton] using piece

theorem text {text : String} (size : (Utf8.encode text).length < UInt64.size) :
    Reads (nextItem >>= Decoder.text) (writeText text) (.ok text) :=
  item size nofun fun _ => textContent text

theorem byteString {levels : Nat} {bytes : Bytes} (size : bytes.length < UInt64.size) :
    Reads (nextItem >>= Decoder.byteString levels) (writeBytes bytes) (.ok bytes) :=
  item size nofun fun _ => bytesContent bytes

theorem nameContent {name : String} (size : (Utf8.encode name).length ≤ nameSize) (offset : Nat) :
    Reads (Decoder.name ⟨.text (some (Utf8.encode name).length), offset⟩) (Utf8.encode name)
      (.ok (Utf8.encode name)) := by
  change Reads (if (Utf8.encode name).length ≤ nameSize then _ else _) _ _
  rw [if_pos size]
  refine (take (Utf8.encode name)).andEnd ?_
  rw [Utf8.decode?_encode]
  exact pure (Utf8.encode name)

theorem name {name : String} (size : (Utf8.encode name).length ≤ nameSize) :
    Reads (nextItem >>= Decoder.name) (writeText name) (.ok (Utf8.encode name)) :=
  item (Nat.lt_of_le_of_lt size (by decide)) nofun (nameContent size)

theorem integer {n : Int} (least : -(UInt64.size : Int) ≤ n) (most : n < UInt64.size) :
    Reads (nextItem >>= Decoder.integer) (writeInt n) (.ok n) := by
  cases n with
  | ofNat n =>
    have size : n < UInt64.size := Int.ofNat_lt.1 most
    exact List.append_nil (writeInt n) ▸ item size nofun fun _ => pure (n : Int)
  | negSucc n =>
    have size : n < UInt64.size := by omega
    have number : Int.negSucc n = -1 - n := by omega
    have read : Reads (nextItem >>= Decoder.integer) (head .negative n ++ []) (.ok (-1 - n)) :=
      item size nofun fun _ => pure (-1 - (n : Int))
    rwa [List.append_nil, ← number] at read

theorem unsigned (n : UInt64) :
    Reads (nextItem >>= Decoder.unsigned) (writeNat n.toNat) (.ok n) := by
  have size : (n.toNat : Int) < UInt64.size := Int.ofNat_lt.2 n.toNat_lt_size
  have read : Reads (nextItem >>= Decoder.integer) (writeInt n.toNat) (.ok n.toNat) :=
    integer (by omega) size
  unfold Decoder.unsigned
  rw [← bind_assoc]
  refine read.andEnd ?_
  rw [if_neg (by omega), if_neg (by omega), Int.toNat_natCast, UInt64.ofNat_toNat]
  exact pure n

theorem signed (n : Int64) : Reads (nextItem >>= Decoder.signed) (writeInt n.toInt) (.ok n) := by
  have below : Int64.minValue.toInt ≤ n.toInt := n.minValue_le_toInt
  have above : n.toInt ≤ Int64.maxValue.toInt := Int64.toInt_le n
  obtain ⟨least, most⟩ := toInt_between n
  have read := integer least most
  unfold Decoder.signed
  rw [← bind_assoc]
  refine read.andEnd ?_
  rw [if_neg (by omega), Int64.ofInt_toInt]
  exact pure n

theorem bool (b : Bool) : Reads (nextItem >>= Decoder.bool) (writeBool b) (.ok b) := by
  rw [← List.append_nil (writeBool b)]
  cases b with
  | false => exact item (by decide) (by decide) fun _ => pure false
  | true => exact item (by decide) (by decide) fun _ => pure true

end Reads

namespace Decoder

theorem times_succ (step : Item → σ → Decoder σ) (count : Nat) (s : σ) :
    times step (count + 1) s = (nextItem >>= fun item => step item s) >>= times step count := by
  rw [times, bind_assoc]

theorem foldlM_cons (f : α → Except DecodeError β) (values : List α) (read : List β) :
    values.foldlM (fun read value => return (← f value) :: read) read =
      (values.mapM f).map fun values => values.reverse ++ read := by
  induction values generalizing read with
  | nil => rfl
  | cons value values ih =>
    rw [List.foldlM_cons, List.mapM_cons]
    cases f value with
    | error error => rfl
    | ok value =>
      refine (ih (value :: read)).trans ?_
      cases values.mapM f with
      | error error => rfl
      | ok values =>
        change Except.ok _ = Except.ok ((value :: values).reverse ++ read)
        rw [List.reverse_cons, List.append_assoc]
        rfl

end Decoder

inductive FieldsRead (decoder : (name : Bytes) → σ → Decoder σ) :
    List (String × Bytes) → σ → Except DecodeError σ → Prop
  | done (s : σ) : FieldsRead decoder [] s (.ok s)
  | field {name : String} {value : Bytes} {fields : List (String × Bytes)} {s next : σ}
      {result : Except DecodeError σ} (size : (Utf8.encode name).length ≤ Decoder.nameSize)
      (first : Reads (decoder (Utf8.encode name) s) value (.ok next))
      (others : FieldsRead decoder fields next result) :
      FieldsRead decoder ((name, value) :: fields) s result
  | refused {name : String} {value : Bytes} {fields : List (String × Bytes)} {s : σ}
      {error : DecodeError} (size : (Utf8.encode name).length ≤ Decoder.nameSize)
      (first : Reads (decoder (Utf8.encode name) s) value (.error error)) :
      FieldsRead decoder ((name, value) :: fields) s (.error error)

namespace FieldsRead

variable {decoder : (name : Bytes) → σ → Decoder σ} {name : String} {value : σ → Decoder σ}
  {bytes : Bytes} {fields : List (String × Bytes)} {s next : σ} {result : Except DecodeError σ}

theorem others (different : ∀ field ∈ fields, field.1 ≠ name)
    (h : FieldsRead decoder fields s result) :
    FieldsRead (fun asked s => if asked = Utf8.encode name then value s else decoder asked s)
      fields s result := by
  induction h with
  | done s => exact .done s
  | field size first _ ih =>
    obtain ⟨here, behind⟩ := List.forall_mem_cons.1 different
    exact .field size (by rwa [if_neg (Utf8.encode_ne here)]) (ih behind)
  | refused size first =>
    obtain ⟨here, -⟩ := List.forall_mem_cons.1 different
    exact .refused size (by rwa [if_neg (Utf8.encode_ne here)])

theorem named (first : Reads (value s) bytes (.ok next))
    (size : (Utf8.encode name).length ≤ Decoder.nameSize)
    (different : ∀ field ∈ fields, field.1 ≠ name) (h : FieldsRead decoder fields next result) :
    FieldsRead (fun asked s => if asked = Utf8.encode name then value s else decoder asked s)
      ((name, bytes) :: fields) s result :=
  .field size (by rwa [if_pos rfl]) (h.others different)

end FieldsRead

namespace Reads

open Decoder

variable {step : Item → σ → Decoder σ} {write : β → Bytes} {values : List β}

theorem times {results : σ → β → Except DecodeError σ}
    (h : ∀ value ∈ values, ∀ s,
      Reads (nextItem >>= fun item => step item s) (write value) (results s value)) (s : σ) :
    Reads (Decoder.times step values.length s) (values.flatMap write)
      (values.foldlM results s) := by
  induction values generalizing s with
  | nil => exact pure s
  | cons value values ih =>
    obtain ⟨first, others⟩ := List.forall_mem_cons.1 h
    rw [List.length_cons, times_succ, List.flatMap_cons, List.foldlM_cons]
    exact (first s).bind fun s _ => ih others s

theorem sequence {levels : Nat} {element : (levels : Nat) → Item → Decoder α}
    {ofByte : UInt8 → Except Mismatch α} {results : β → Except DecodeError α}
    (size : values.length < UInt64.size)
    (h : ∀ value ∈ values, Reads (nextItem >>= element levels) (write value) (results value)) :
    Reads (nextItem >>= Decoder.sequence (levels + 1) element ofByte) (writeList write values)
      (values.mapM results) := by
  refine item size nofun fun offset => ?_
  have one (value : β) (mem : value ∈ values) (read : List α) :
      Reads (nextItem >>= fun item => do return (← element levels item) :: read) (write value)
        (do return (← results value) :: read) :=
    (h value mem).mapNext (· :: read)
  have reversed := (times one []).mapResult List.reverse
  have unreversed (read : Except DecodeError (List α)) :
      (read.map fun values => values.reverse ++ []).map List.reverse = read := by
    cases read with
    | error error => rfl
    | ok values => simp [Except.map]
  rwa [foldlM_cons, unreversed] at reversed

theorem map {levels : Nat} {entry : (levels : Nat) → Item → σ → Decoder σ}
    {results : σ → β → Except DecodeError σ} (size : values.length < UInt64.size)
    (h : ∀ value ∈ values, ∀ s,
      Reads (nextItem >>= fun item => entry levels item s) (write value) (results s value))
    (s : σ) :
    Reads (nextItem >>= Decoder.map (levels + 1) entry s)
      (head .map values.length ++ values.flatMap write) (values.foldlM results s) :=
  item size nofun fun _ => times h s

theorem entry {name : String} {value : (name : Bytes) → Decoder α} {bytes : Bytes}
    {result : Except DecodeError α} (size : (Utf8.encode name).length ≤ nameSize)
    (h : Reads (value (Utf8.encode name)) bytes result) :
    Reads (nextItem >>= fun item => do value (← Decoder.name item)) (writeText name ++ bytes)
      result := by
  rw [← bind_assoc]
  exact (Reads.name size).andThen h

theorem record {levels : Nat} {decoder : (levels : Nat) → (name : Bytes) → σ → Decoder σ}
    {fields : List (String × Bytes)} {s : σ} {result : Except DecodeError σ}
    (size : fields.length < UInt64.size) (h : FieldsRead (decoder levels) fields s result) :
    Reads (nextItem >>= Decoder.record (levels + 1) decoder s) (writeRecord fields) result := by
  refine item size nofun fun _ => ?_
  change Reads (Decoder.times _ fields.length s) _ result
  clear size
  induction h with
  | done s => exact pure s
  | field size first _ ih =>
    rw [List.length_cons, times_succ, List.flatMap_cons]
    exact (entry size first).andThen ih
  | refused size first =>
    rw [List.length_cons, times_succ, List.flatMap_cons]
    exact (entry size first).stop _

theorem ofFields {levels : Nat} {decoder : (levels : Nat) → (name : Bytes) → σ → Decoder σ}
    {fields : List (String × Bytes)} {s last : σ} {next : σ → Decoder α} {value : α}
    (h : FieldsRead (decoder levels) fields s (.ok last)) (size : fields.length < UInt64.size)
    (whole : next last = Pure.pure value) :
    Reads (nextItem >>= fun item => Decoder.record (levels + 1) decoder s item >>= next)
      (writeRecord fields) (.ok value) := by
  rw [← bind_assoc]
  refine (record size h).andEnd ?_
  rw [whole]
  exact pure value

theorem field {name : String} {value : Item → Decoder α} {bytes : Bytes}
    {result : Except DecodeError α} (set : Option α → β)
    (h : Reads (nextItem >>= value) bytes result) :
    Reads (do return set (← Decoder.field name value none)) bytes
      (result.map fun value => set (some value)) := by
  have filled := (h.mapNext some).mapResult set
  cases result <;> exact filled

theorem null {value : Item → Decoder α} :
    Reads (nextItem >>= Decoder.option value) writeNull (.ok none) :=
  List.append_nil writeNull ▸ item (by decide) (by decide) fun _ => pure none

theorem present {value : Item → Decoder α} {major : Major} {n : Nat} {bytes : Bytes}
    {result : Except DecodeError α} (size : n < UInt64.size) (kind : major ≠ .other)
    (h : ∀ offset, Reads (value ⟨.ofArgument major 0 n, offset⟩) bytes result) :
    Reads (nextItem >>= Decoder.option value) (head major n ++ bytes) (result.map some) := by
  refine item size (fun same => absurd same kind) fun offset => ?_
  cases major with
  | other => exact absurd rfl kind
  | text =>
    simp only [Decoder.option, Header.ofArgument, Item.settled, bind_assoc, pure_bind]
    exact place fun start => (h _).mapResult some
  | _ => exact (h offset).mapResult some

theorem someText {text : String} (size : (Utf8.encode text).length < UInt64.size) :
    Reads (nextItem >>= Decoder.option Decoder.text) (writeText text) (.ok (some text)) := by
  have whole (offset : Nat) :
      Reads (Decoder.text ⟨.ofArgument .text 0 (Utf8.encode text).length, offset⟩)
        (Utf8.encode text) (.ok text) := textContent text
  exact present size (show Major.text ≠ .other by decide) whole

theorem optionText {text : Option String}
    (size : ∀ value, text = some value → (Utf8.encode value).length < UInt64.size) :
    Reads (nextItem >>= Decoder.option Decoder.text) (writeOption writeText text) (.ok text) := by
  cases text with
  | none => exact null
  | some value => exact someText (size value rfl)

theorem optionBytes {levels : Nat} {bytes : Option Bytes}
    (size : ∀ value, bytes = some value → value.length < UInt64.size) :
    Reads (nextItem >>= Decoder.option (Decoder.byteString levels)) (writeOption writeBytes bytes)
      (.ok bytes) := by
  cases bytes with
  | none => exact null
  | some bytes =>
    have whole (offset : Nat) :
        Reads (Decoder.byteString levels ⟨.ofArgument .bytes 0 bytes.length, offset⟩) bytes
          (.ok bytes) := bytesContent bytes
    exact present (size bytes rfl) (show Major.bytes ≠ .other by decide) whole

end Reads

theorem Format.decode_eq {format : Format α} {bytes : Bytes} {result : Except DecodeError α}
    (h : Reads (Decoder.nextItem >>= format.read levelLimit) bytes result) :
    format.decode bytes = result := by
  have whole : format.readOne ⟨0, bytes ++ []⟩ =
      result.map fun value => (value, ⟨0 + bytes.length, []⟩) := h 0 []
  rw [List.append_nil] at whole
  rw [decode, whole]
  cases result <;> rfl

end SealedChat.Cbor
