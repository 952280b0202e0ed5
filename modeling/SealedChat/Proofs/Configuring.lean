import SealedChat.Proofs.OneValue
import SealedChat.Proofs.Reading

namespace SealedChat.Cbor

open Decoder

variable {α β σ : Type}

theorem untilStop_eq {step : Item → σ → Decoder σ}
    (sequential : ∀ item s, Sequential (step item s)) (s : σ) :
    Decoder.untilStop step s = nextItem >>= fun item =>
      if item.header = .stop then pure s
      else item.settled >>= fun item => step item s >>= Decoder.untilStop step := by
  rw [Decoder.untilStop, repeatUntil_eq, bind_assoc]
  · refine congrArg (nextItem >>= ·) (funext fun item => ?_)
    split
    · next stop => rw [if_pos stop, pure_bind]
    · next more =>
      rw [if_neg more]
      simp only [bind_assoc, pure_bind]
      rfl
  · intro s item
    split
    · exact .pure _
    · exact .bind (.settled item) fun item => .bind (sequential item s) fun _ => .pure _

inductive EntriesRead (step : Item → σ → Decoder σ) : List Bytes → σ → σ → Prop
  | done (s : σ) : EntriesRead step [] s s
  | entry {front rest : Bytes} {n : Nat} {entries : List Bytes} {s next last : σ}
      (head : IsHead .text n front)
      (first : ∀ offset, Reads (step ⟨.text (some n), offset⟩ s) rest (.ok next))
      (others : EntriesRead step entries next last) :
      EntriesRead step ((front ++ rest) :: entries) s last

inductive Encloses (count : Nat) : (front back : Bytes) → Prop
  | counted {front : Bytes} (head : IsHead .map count front) : Encloses count front []
  | stopped : Encloses count [0xBF] [0xFF]

namespace EntriesRead

variable {step : Item → σ → Decoder σ} {entries : List Bytes} {s last : σ}

theorem times (h : EntriesRead step entries s last) :
    Reads (Decoder.times step entries.length s) entries.flatten (.ok last) := by
  induction h with
  | done s => exact Reads.pure s
  | entry head first _ ih =>
    rw [List.length_cons, times_succ, List.flatten_cons]
    exact (Reads.header head nofun first).andThen ih

theorem named {decoder : (name : Bytes) → σ → Decoder σ} {name : String} {front value : Bytes}
    {next : σ} (size : (Utf8.encode name).length ≤ nameSize)
    (head : IsHead .text (Utf8.encode name).length front)
    (first : Reads (decoder (Utf8.encode name) s) value (.ok next))
    (others : EntriesRead (fun item s => do decoder (← Decoder.name item) s) entries next last) :
    EntriesRead (fun item s => do decoder (← Decoder.name item) s)
      ((front ++ Utf8.encode name ++ value) :: entries) s last := by
  rw [List.append_assoc]
  exact .entry head (fun offset => (Reads.nameContent size offset).andThen first) others

theorem untilStop (sequential : ∀ item s, Sequential (step item s))
    (h : EntriesRead step entries s last) :
    Reads (Decoder.untilStop step s) (entries.flatten ++ [0xFF]) (.ok last) := by
  induction h with
  | done s =>
    rw [untilStop_eq sequential]
    exact Reads.item_indefinite (show Info.ofByte 0xFF = .indefinite by decide)
      (show _ = some Header.stop by decide) fun _ => Reads.pure s
  | entry head first _ ih =>
    rw [untilStop_eq sequential, List.flatten_cons, List.append_assoc, List.append_assoc]
    refine Reads.header head nofun fun offset => ?_
    simp only [Header.ofArgument, Item.settled, bind_assoc, pure_bind, reduceCtorEq, if_false]
    exact Reads.place fun _ => (first _).andThen ih

theorem record {levels : Nat} {decoder : (levels : Nat) → (name : Bytes) → σ → Decoder σ}
    {front back : Bytes}
    (h : EntriesRead (fun item s => do decoder levels (← Decoder.name item) s) entries s last)
    (sequential : ∀ name s, Sequential (decoder levels name s))
    (form : Encloses entries.length front back) :
    Reads (nextItem >>= Decoder.record (levels + 1) decoder s) (front ++ entries.flatten ++ back)
      (.ok last) := by
  cases form with
  | counted head =>
    rw [List.append_nil]
    exact Reads.header head nofun fun _ => h.times
  | stopped =>
    have entry (item : Item) (s : σ) :
        Sequential (do decoder levels (← Decoder.name item) s) :=
      .bind (.name item) fun name => sequential name s
    rw [List.append_assoc]
    exact Reads.item_indefinite (show Info.ofByte 0xBF = .indefinite by decide)
      (show _ = some (Header.map none) by decide) fun _ => h.untilStop entry

end EntriesRead

inductive Foreign
  | bool (b : Bool)
  | unsigned (n : UInt64)
  | signed (n : Int64)
  | bytes (content : Bytes)
  | unsignedList (values : List UInt64)
  deriving DecidableEq

namespace Foreign

def toCbor : Foreign → Bytes
  | .bool b => Format.bool.encode b
  | .unsigned n => Format.unsigned.encode n
  | .signed n => Format.signed.encode n
  | .bytes content => Format.bytes.encode content
  | .unsignedList values => Format.unsignedList.encode values

def Sized : Foreign → Prop
  | .bytes content => content.length < UInt64.size
  | .unsignedList values => values.length < UInt64.size
  | _ => True

theorem pass_bool {levels : Nat} (b : Bool) :
    Reads (nextItem >>= pass levels) (writeBool b) (.ok ()) := by
  rw [← List.append_nil (writeBool b)]
  cases b with
  | false =>
    refine Reads.item (by decide) (by decide) fun _ => ?_
    cases levels <;> exact Reads.pure ()
  | true =>
    refine Reads.item (by decide) (by decide) fun _ => ?_
    cases levels <;> exact Reads.pure ()

theorem pass_integer {levels : Nat} {n : Int} (least : -(UInt64.size : Int) ≤ n)
    (most : n < UInt64.size) : Reads (nextItem >>= pass levels) (writeInt n) (.ok ()) := by
  rw [← List.append_nil (writeInt n)]
  cases n with
  | ofNat n =>
    have size : n < UInt64.size := Int.ofNat_lt.1 most
    refine Reads.item size nofun fun _ => ?_
    cases levels <;> exact Reads.pure ()
  | negSucc n =>
    have size : n < UInt64.size := by omega
    refine Reads.item size nofun fun _ => ?_
    cases levels <;> exact Reads.pure ()

theorem pass_unsigned {levels : Nat} (n : UInt64) :
    Reads (nextItem >>= pass levels) (writeNat n.toNat) (.ok ()) := by
  have size : (n.toNat : Int) < UInt64.size := Int.ofNat_lt.2 n.toNat_lt_size
  exact pass_integer (n := n.toNat) (by omega) size

theorem pass_signed {levels : Nat} (n : Int64) :
    Reads (nextItem >>= pass levels) (writeInt n.toInt) (.ok ()) := by
  obtain ⟨least, most⟩ := toInt_between n
  exact pass_integer least most

theorem pass_bytes {levels : Nat} {bytes : Bytes} (size : bytes.length < UInt64.size) :
    Reads (nextItem >>= pass levels) (writeBytes bytes) (.ok ()) := by
  refine Reads.item size nofun fun _ => ?_
  have content : Reads (bytesContent (some bytes.length) >>= fun _ => pure ()) bytes (.ok ()) :=
    (Reads.bytesContent bytes).andEnd (Reads.pure ())
  cases levels <;> exact content

theorem pass_list {levels : Nat} {write : α → Bytes} {values : List α}
    (size : values.length < UInt64.size)
    (h : ∀ value ∈ values, Reads (nextItem >>= pass levels) (write value) (.ok ())) :
    Reads (nextItem >>= pass (levels + 1)) (writeList write values) (.ok ()) := by
  refine Reads.item size nofun fun _ => ?_
  have passed : values.foldlM (fun _ _ => .ok ()) () = (.ok () : Except DecodeError Unit) := by
    clear size h
    induction values with
    | nil => rfl
    | cons _ _ ih => exact ih
  have one (value : α) (mem : value ∈ values) (_ : Unit) :
      Reads (nextItem >>= fun item => pass levels item) (write value) (.ok ()) := h value mem
  have elements := Reads.times one ()
  rwa [passed] at elements

theorem reads_pass {levels : Nat} {value : Foreign} (sized : value.Sized) :
    Reads (nextItem >>= pass (levels + 1)) value.toCbor (.ok ()) := by
  cases value with
  | bool b => exact pass_bool b
  | unsigned n => exact pass_unsigned n
  | signed n => exact pass_signed n
  | bytes content => exact pass_bytes sized
  | unsignedList values => exact pass_list sized fun n _ => pass_unsigned n

end Foreign

end SealedChat.Cbor

namespace SealedChat.FrameConfig

open Cbor

inductive Part
  | maxFrameSize
  | introHeader
  | foreign (front : Bytes) (name : String) (value : Foreign)
  deriving DecidableEq

namespace Part

def toCbor (config : FrameConfig) : Part → Bytes
  | .maxFrameSize => Format.text.encode "max_frame_size" ++
      Format.unsigned.encode config.maxFrameSize
  | .introHeader => Format.text.encode "intro_header" ++
      Format.bytes.option.encode config.introHeader
  | .foreign front name value => front ++ Utf8.encode name ++ value.toCbor

def Valid : Part → Prop
  | .foreign front name value =>
    (name ≠ "max_frame_size" ∧ name ≠ "intro_header") ∧
      (Utf8.encode name).length ≤ Decoder.nameSize ∧
      IsHead .text (Utf8.encode name).length front ∧ value.Sized
  | _ => True

def fill (config : FrameConfig) (fields : Fields) : Part → Fields
  | .maxFrameSize => { fields with maxFrameSize := some config.maxFrameSize }
  | .introHeader => { fields with introHeader := some config.introHeader }
  | .foreign .. => fields

end Part

variable {α : Type} {config : FrameConfig} {parts : List Part} {fields : Fields} {levels : Nat}

theorem foldl_fill (parts : List Part) (fields : Fields) :
    parts.foldl (Part.fill config) fields = {
      maxFrameSize := if .maxFrameSize ∈ parts then some config.maxFrameSize
        else fields.maxFrameSize
      introHeader := if .introHeader ∈ parts then some config.introHeader
        else fields.introHeader } := by
  induction parts generalizing fields with
  | nil => simp
  | cons part parts ih =>
    rw [List.foldl_cons, ih]
    cases part <;> simp [Part.fill]

structure Once (parts : List Part) (fields : Fields) : Prop where
  maxFrameSize : parts.count .maxFrameSize + fields.maxFrameSize.isSome.toNat ≤ 1
  introHeader : parts.count .introHeader + fields.introHeader.isSome.toNat ≤ 1

namespace Once

theorem fill (config : FrameConfig) {part : Part} (h : Once (part :: parts) fields) :
    Once parts (part.fill config fields) := by
  obtain ⟨size, header⟩ := h
  cases part with
  | maxFrameSize =>
    rw [List.count_cons_self] at size
    rw [List.count_cons_of_ne (by decide)] at header
    exact ⟨show _ + 1 ≤ 1 by omega, header⟩
  | introHeader =>
    rw [List.count_cons_of_ne (by decide)] at size
    rw [List.count_cons_self] at header
    exact ⟨size, show _ + 1 ≤ 1 by omega⟩
  | foreign front name value =>
    rw [List.count_cons_of_ne (by nofun)] at size header
    exact ⟨size, header⟩

theorem eq_none {part : Part} {slot : Option α}
    (h : (part :: parts).count part + slot.isSome.toNat ≤ 1) : slot = none := by
  rw [List.count_cons_self] at h
  cases slot with
  | none => rfl
  | some _ => simp at h

end Once

theorem readField_maxFrameSize (once : fields.maxFrameSize = none) :
    Reads (readField levels (Utf8.encode "max_frame_size") fields)
      (Format.unsigned.encode config.maxFrameSize)
      (.ok (Part.fill config fields .maxFrameSize)) := by
  rw [readField, if_pos rfl, once]
  exact (Reads.unsigned _).field fun n => { fields with maxFrameSize := n }

theorem readField_foreign {name : String} {value : Foreign}
    (other : name ≠ "max_frame_size" ∧ name ≠ "intro_header") (sized : value.Sized) :
    Reads (readField (levels + 1) (Utf8.encode name) fields) value.toCbor (.ok fields) := by
  rw [readField, if_neg (Utf8.encode_ne other.1), if_neg (Utf8.encode_ne other.2)]
  exact (Foreign.reads_pass sized).andEnd (Reads.pure fields)

section

variable (sized : ∀ header, config.introHeader = some header → header.length < UInt64.size)

include sized

theorem readField_introHeader (once : fields.introHeader = none) :
    Reads (readField levels (Utf8.encode "intro_header") fields)
      (Format.bytes.option.encode config.introHeader)
      (.ok (Part.fill config fields .introHeader)) := by
  rw [readField, if_neg (by decide), if_pos rfl, once]
  have read : Reads (Decoder.nextItem >>= Decoder.option (Decoder.byteString levels))
      (Format.bytes.option.encode config.introHeader) (.ok config.introHeader) :=
    Reads.optionBytes sized
  exact read.field fun header => { fields with introHeader := header }

theorem entriesRead (valid : ∀ part ∈ parts, part.Valid) (once : Once parts fields) :
    EntriesRead (fun item fields => do readField (levels + 1) (← Decoder.name item) fields)
      (parts.map (Part.toCbor config)) fields (parts.foldl (Part.fill config) fields) := by
  induction parts generalizing fields with
  | nil => exact .done fields
  | cons part parts ih =>
    obtain ⟨first, others⟩ := List.forall_mem_cons.1 valid
    have behind := ih others (once.fill config)
    rw [List.map_cons, List.foldl_cons]
    cases part with
    | maxFrameSize =>
      exact .named (by decide) (isHead_head (by decide))
        (readField_maxFrameSize (Once.eq_none once.maxFrameSize)) behind
    | introHeader =>
      exact .named (by decide) (isHead_head (by decide))
        (readField_introHeader sized (Once.eq_none once.introHeader)) behind
    | foreign front name value =>
      obtain ⟨other, size, head, sized⟩ := first
      exact .named size head (readField_foreign other sized) behind

theorem decode_parts {front back : Bytes} (valid : ∀ part ∈ parts, part.Valid)
    (once : Once parts {}) (form : Encloses parts.length front back) :
    Format.config.decode (front ++ parts.flatMap (Part.toCbor config) ++ back) =
      .ok (.ofFields (parts.foldl (Part.fill config) {})) := by
  rw [← List.length_map (Part.toCbor config)] at form
  rw [List.flatMap_def]
  have sequential := Sequential.configField (Format.levelLimit - 1)
  have entries := (entriesRead sized valid once).record sequential form
  exact Format.decode_eq (entries.mapNext FrameConfig.ofFields)

theorem decode_encode : Format.config.decode (Format.config.encode config) = .ok config := by
  have valid : ∀ part ∈ [Part.maxFrameSize, Part.introHeader], part.Valid := by
    simp [Part.Valid]
  have whole := decode_parts sized valid ⟨by decide, by decide⟩
    (.counted (isHead_head (show 2 < UInt64.size by decide)))
  rw [List.append_nil] at whole
  exact whole

end

/-- A map with each field of a configuration at most once, in any order and among any others, is
read as the values that it gives and the usual ones for those that it does not. -/
theorem decode_fills_defaults {front back : Bytes}
    (sized : ∀ header, config.introHeader = some header → header.length < UInt64.size)
    (valid : ∀ part ∈ parts, part.Valid)
    (once : parts.count .maxFrameSize ≤ 1 ∧ parts.count .introHeader ≤ 1)
    (form : Encloses parts.length front back) :
    Format.config.decode (front ++ parts.flatMap (Part.toCbor config) ++ back) = .ok {
        maxFrameSize := if .maxFrameSize ∈ parts then config.maxFrameSize
          else ({} : FrameConfig).maxFrameSize
        introHeader := if .introHeader ∈ parts then config.introHeader
          else ({} : FrameConfig).introHeader } ∧
      Format.config.decode (Format.config.encode config) = .ok config := by
  refine ⟨?_, decode_encode sized⟩
  rw [decode_parts sized valid ⟨once.1, once.2⟩ form, foldl_fill]
  split <;> split <;> rfl

theorem decode_fills_defaults_of_missing :
    let config : FrameConfig := { maxFrameSize := 7, introHeader := some [1, 2, 3] }
    let parts : List Part := [
      .foreign [0x78, 4] "next" (.unsignedList [1, 70000]),
      .introHeader,
      .foreign [0x64] "next" (.bytes [0x6C, 0xFF]),
      .foreign [0x60] "" (.signed (-500))]
    Format.config.decode ([0xBF] ++ parts.flatMap (Part.toCbor config) ++ [0xFF]) =
      .ok { introHeader := some [1, 2, 3] } := by
  intro config parts
  have sized : ∀ header, config.introHeader = some header → header.length < UInt64.size := by
    rintro _ ⟨⟩
    decide
  have long : IsHead .text 4 [0x78, 4] := .next (i := 0) (by decide) (by decide)
  have short : IsHead .text 4 [0x64] := .here (by decide)
  have none : IsHead .text 0 [0x60] := .here (by decide)
  have valid : ∀ part ∈ parts, part.Valid := by
    simp only [parts, List.forall_mem_cons]
    exact ⟨⟨by decide, by decide, long, show 2 < UInt64.size by decide⟩, trivial,
      ⟨by decide, by decide, short, show 2 < UInt64.size by decide⟩,
      ⟨by decide, by decide, none, trivial⟩, nofun⟩
  exact (decode_fills_defaults sized valid (by decide) .stopped).1

end SealedChat.FrameConfig
