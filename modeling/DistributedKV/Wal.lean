import DistributedKV.WritePath

/-!
# The WAL file

An entry is written as one JSON record behind a header, and read back by `replay`, which
cuts off what stands behind the last whole record. A put keeps its version in the flat
fields of `Record`, a restore leaves them empty and keeps its versions in `items`; both
come back as they were (`fromRecord_toRecord`). How `encoding/json` writes a record is a
parameter, of which only the round trip is assumed.

`Rounds` is a file's whole history : batches of entries of which a crash leaves any part
from the front, with bytes behind it that no one wrote, and a replay after each. What a
replay leaves is exactly the records it returned (`Rounds.file_eq`), so the next batch is
read behind them.
-/

open Framing

namespace DistributedKV

/-! ## Records -/

/-- JSON text; nil is empty. -/
abbrev RawMessage := List UInt8

/-- One version inside a restore record. -/
structure ItemRecord where
  value : RawMessage
  vectorClock : Snapshot
  lastUpdatedBy : String
  isDeleted : Bool

/-- An entry's form on disk. -/
structure Record where
  key : String
  value : RawMessage
  vectorClock : Snapshot
  lastUpdatedBy : String
  isDeleted : Bool
  op : UInt8
  items : List ItemRecord

def opPut : UInt8 := 0

def opRestore : UInt8 := 1

def null : RawMessage := "null".toUTF8.toList

/-- What the text of a record says : a nil `RawMessage` is written as null. -/
def Record.written (r : Record) : Record :=
  { r with value := if r.value = [] then null else r.value }

/-- Why a record is not an entry. -/
inductive RecordError
  | unknownOp (op : UInt8) (key : String)
  /-- A value that is not JSON. -/
  | value (key : String)

section Records

variable (marshalValue : String → RawMessage) (unmarshalValue : RawMessage → Option String)

def toItemRecord (item : DataItem) : ItemRecord :=
  ⟨marshalValue item.value, item.vectorClock.snapshot, item.lastUpdatedBy, item.isDeleted⟩

def fromItemRecord (key : String) (r : ItemRecord) : Except RecordError DataItem :=
  match unmarshalValue r.value with
  | none => .error (.value key)
  | some value => .ok ⟨value, .fromSnapshot r.vectorClock, r.lastUpdatedBy, r.isDeleted⟩

def toRecord : WalEntry → Record
  | .put key item =>
    let ir := toItemRecord marshalValue item
    ⟨key, ir.value, ir.vectorClock, ir.lastUpdatedBy, ir.isDeleted, opPut, []⟩
  | .restore key items =>
    ⟨key, [], ∅, "", false, opRestore, items.map (toItemRecord marshalValue)⟩

def fromRecord (r : Record) : Except RecordError WalEntry :=
  if r.op = opPut then
    (fromItemRecord unmarshalValue r.key
      ⟨r.value, r.vectorClock, r.lastUpdatedBy, r.isDeleted⟩).map (.put r.key)
  else if r.op = opRestore then
    (r.items.mapM (fromItemRecord unmarshalValue r.key)).map (.restore r.key)
  else .error (.unknownOp r.op r.key)

variable {marshalValue unmarshalValue}

theorem fromItemRecord_toItemRecord (hvalue : ∀ v, unmarshalValue (marshalValue v) = some v)
    (key : String) (item : DataItem) :
    fromItemRecord unmarshalValue key (toItemRecord marshalValue item) = .ok item := by
  simp only [fromItemRecord, toItemRecord, hvalue]
  rfl

theorem mapM_fromItemRecord (hvalue : ∀ v, unmarshalValue (marshalValue v) = some v)
    (key : String) : ∀ items : List DataItem,
    (items.map (toItemRecord marshalValue)).mapM (fromItemRecord unmarshalValue key) = .ok items
  | [] => rfl
  | item :: items => by
    rw [List.map_cons, List.mapM_cons, fromItemRecord_toItemRecord hvalue,
      mapM_fromItemRecord hvalue key items]
    rfl

/-- Both shapes of a record come back as the entry they were made of. -/
theorem fromRecord_toRecord (hvalue : ∀ v, unmarshalValue (marshalValue v) = some v)
    (hnil : ∀ v, marshalValue v ≠ []) (e : WalEntry) :
    fromRecord unmarshalValue (toRecord marshalValue e).written = .ok e := by
  cases e with
  | put key item =>
    have hwritten : (toRecord marshalValue (.put key item)).written =
        toRecord marshalValue (.put key item) := by
      simp [Record.written, toRecord, toItemRecord, hnil]
    have hop : (toRecord marshalValue (.put key item)).op = opPut := rfl
    rw [hwritten, fromRecord, if_pos hop]
    exact congrArg (Except.map (WalEntry.put key)) (fromItemRecord_toItemRecord hvalue key item)
  | restore key items =>
    have hop : (toRecord marshalValue (.restore key items)).written.op = opRestore := rfl
    rw [fromRecord, if_neg (by simp [hop, opPut, opRestore]), if_pos hop]
    exact congrArg (Except.map (WalEntry.restore key)) (mapM_fromItemRecord hvalue key items)

end Records

/-- What is used of `encoding/json` : how it writes and reads values and records, that it
reads what it wrote, and that no value's text is empty. -/
structure JSON where
  marshalValue : String → RawMessage
  unmarshalValue : RawMessage → Option String
  marshal : Record → List UInt8
  unmarshal : List UInt8 → Option Record
  unmarshalValue_marshalValue : ∀ v, unmarshalValue (marshalValue v) = some v
  marshalValue_ne_nil : ∀ v, marshalValue v ≠ []
  unmarshal_marshal : ∀ e : WalEntry, unmarshal (marshal (toRecord marshalValue e)) =
    some (toRecord marshalValue e).written

namespace JSON

variable (json : JSON) (checksum : List UInt8 → UInt32)

/-- What `Replay` makes of a payload that checks. -/
def readPayload (payload : List UInt8) : Parsed WalEntry :=
  match json.unmarshal payload with
  | none => .malformed
  | some rec =>
    match fromRecord json.unmarshalValue rec with
    | .ok entry => .record entry
    | .error (.unknownOp _ _) => .unknown
    | .error (.value _) => .malformed

theorem readPayload_marshal (e : WalEntry) :
    json.readPayload (json.marshal (toRecord json.marshalValue e)) = .record e := by
  simp only [readPayload, json.unmarshal_marshal,
    fromRecord_toRecord json.unmarshalValue_marshalValue json.marshalValue_ne_nil]

/-- How `Encode` and `Replay` turn entries into payloads and back. -/
def codec : Codec WalEntry where
  marshal e := json.marshal (toRecord json.marshalValue e)
  unmarshal := json.readPayload
  checksum := checksum

variable {checksum} in
theorem fits_codec {e : WalEntry} (h : ((json.codec checksum).marshal e).length < 2 ^ 32) :
    (json.codec checksum).Fits e :=
  ⟨h, json.readPayload_marshal e⟩

theorem unmarshal_codec_unknown {payload : List UInt8} {rec : Record}
    (hrec : json.unmarshal payload = some rec) (hput : rec.op ≠ opPut)
    (hrestore : rec.op ≠ opRestore) : (json.codec checksum).unmarshal payload = .unknown := by
  simp [codec, readPayload, hrec, fromRecord, hput, hrestore]

end JSON

/-! ## The file -/

namespace Wal

/-- `Replay` : the entries, or the offset of a record whose op is unknown; and the file it
leaves. -/
def replay (c : Codec WalEntry) (file : List UInt8) : Except Nat (List WalEntry) × List UInt8 :=
  match Framing.replay c file with
  | .error offset => (.error offset, file)
  | .ok (entries, validEnd) =>
    (.ok entries, if validEnd < file.length then file.take validEnd else file)

/-- A `WriteBatch` that succeeds. -/
def writeBatch (file : List UInt8) (records : List (List UInt8)) : List UInt8 :=
  file ++ records.flatten

variable {c : Codec WalEntry} {file : List UInt8} {es as : List WalEntry}

theorem writeBatch_encode (c : Codec WalEntry) (file : List UInt8) (as : List WalEntry) :
    writeBatch file (as.map (encode c)) = file ++ encodeAll c as := by
  rw [writeBatch, encodeAll, List.flatMap]

/-- What stands behind the valid records is cut off. -/
theorem replay_of_ok {rest : List UInt8} (h : Framing.replay c (encodeAll c es ++ rest) =
    .ok (es, (encodeAll c es).length)) :
    replay c (encodeAll c es ++ rest) = (.ok es, encodeAll c es) := by
  simp only [replay, h]
  split
  · rw [List.take_left]
  · next hlt =>
    obtain rfl : rest = [] := by simpa using hlt
    rw [List.append_nil]

theorem replay_of_error {offset : Nat} (h : Framing.replay c file = .error offset) :
    replay c file = (.error offset, file) := by
  simp only [replay, h]

/-- The histories of a file : each round writes entries, of which a part from the front
reaches the disk, and replays what is there. `es` is what the last replay returned. -/
inductive Rounds (c : Codec WalEntry) : List UInt8 → List WalEntry → Prop
  | create : Rounds c [] []
  | round {file file' : List UInt8} {es es' : List WalEntry} (h : Rounds c file es)
      (as : List WalEntry) (has : ∀ a ∈ as, (c.marshal a).length < 2 ^ 32)
      {k : Nat} {torn junk : List UInt8} (hcut : Cut c as k torn) (hjunk : Framing.Behind c torn junk)
      (hreplay : replay c (file ++ (encodeAll c (as.take k) ++ torn) ++ junk) = (.ok es', file')) :
      Rounds c file' es'

/-- Reading goes on behind what a replay left. -/
theorem replay_next (hes : ∀ a ∈ es, c.Fits a) (has : ∀ a ∈ as, c.Fits a) {k : Nat}
    {torn junk : List UInt8} (hcut : Cut c as k torn) (hjunk : Framing.Behind c torn junk) :
    replay c (encodeAll c es ++ (encodeAll c (as.take k) ++ torn) ++ junk) =
      (.ok (es ++ as.take k), encodeAll c (es ++ as.take k)) := by
  have hfile : encodeAll c es ++ (encodeAll c (as.take k) ++ torn) ++ junk =
      encodeAll c (es ++ as.take k) ++ (torn ++ junk) := by
    simp only [encodeAll_append, List.append_assoc]
  rw [hfile]
  refine replay_of_ok ?_
  have hfit : ∀ a ∈ es ++ as.take k, c.Fits a := fun a ha =>
    (List.mem_append.mp ha).elim (hes a) fun h => has a (List.mem_of_mem_take h)
  rw [Framing.replay, replayFrom_encodeAll_append hfit, hcut.stops_behind has hjunk]
  simp [Except.map]

/-- A file that was replayed holds the records it returned and nothing else. -/
theorem Rounds.file_eq (hreads : ∀ a, c.unmarshal (c.marshal a) = .record a)
    (h : Rounds c file es) : file = encodeAll c es ∧ ∀ a ∈ es, c.Fits a := by
  induction h with
  | create => exact ⟨rfl, nofun⟩
  | @round file file' es es' _ as has k torn junk hcut hjunk hreplay ih =>
    obtain ⟨rfl, hes⟩ := ih
    have has : ∀ a ∈ as, c.Fits a := fun a ha => ⟨has a ha, hreads a⟩
    rw [replay_next hes has hcut hjunk] at hreplay
    obtain ⟨hes', rfl⟩ := Prod.mk.inj hreplay
    obtain rfl := Except.ok.inj hes'
    exact ⟨rfl, fun a ha =>
      (List.mem_append.mp ha).elim (hes a) fun h => has a (List.mem_of_mem_take h)⟩

variable (json : JSON) (checksum : List UInt8 → UInt32)

/-- After any rounds the file holds what the last replay returned. Of further entries cut
off anywhere, with or without bytes behind them that are no record, a replay returns the
whole ones behind those, and cuts the file to their end; entries written whole all come
back. A record that checks but has an unknown op makes the replay fail and stays where it
is, with all that stands behind it. -/
theorem replay_exact (h : Rounds (json.codec checksum) file es)
    (has : ∀ a ∈ as, ((json.codec checksum).marshal a).length < 2 ^ 32) :
    let c := json.codec checksum
    file = encodeAll c es ∧
    (∀ cut, cut <+: encodeAll c as → ∃ k torn, cut = encodeAll c (as.take k) ++ torn ∧
      (∀ bs cs, as = bs ++ cs → (encodeAll c bs).length ≤ cut.length → bs <+: as.take k) ∧
      ∀ junk, Framing.Behind c torn junk →
        replay c (file ++ cut ++ junk) = (.ok (es ++ as.take k), encodeAll c (es ++ as.take k))) ∧
    replay c (writeBatch file (as.map (encode c))) = (.ok (es ++ as), encodeAll c (es ++ as)) ∧
    ∀ payload rec rest, payload.length < 2 ^ 32 → json.unmarshal payload = some rec →
      rec.op ≠ opPut → rec.op ≠ opRestore →
      let unread := writeBatch file (as.map (encode c)) ++ (frame c payload ++ rest)
      replay c unread = (.error (encodeAll c (es ++ as)).length, unread) := by
  obtain ⟨rfl, hes⟩ := h.file_eq json.readPayload_marshal
  have has := fun a ha => json.fits_codec (has a ha)
  have hall : Cut (json.codec checksum) as as.length [] := Or.inl ⟨rfl, List.take_length⟩
  refine ⟨rfl, fun cut hstarts => ?_, ?_, fun payload rec rest hsmall hrec hput hrestore => ?_⟩
  · obtain ⟨k, torn, rfl, hcut⟩ := exists_take_of_prefix hstarts
    exact ⟨k, torn, rfl, hcut.whole, fun junk hjunk => replay_next hes has hcut hjunk⟩
  · have hnext := replay_next hes has hall (.nothing rfl)
    simpa only [writeBatch_encode, List.take_length, List.append_nil] using hnext
  · have hunknown := json.unmarshal_codec_unknown checksum hrec hput hrestore
    refine replay_of_error ?_
    rw [writeBatch_encode, ← encodeAll_append, Framing.replay, replayFrom_encodeAll_append,
      replayFrom_unknown hsmall hunknown]
    · simp [Except.map]
    · exact fun a ha => (List.mem_append.mp ha).elim (hes a) (has a)

/-- The `Replay` of the write path's Open is this one. -/
theorem replayFile_eq (c : Codec WalEntry) (f : WalFile) :
    (f.replayFile c).map (fun r => (r.1.bytes, r.2)) =
      match replay c f.bytes with
      | (.ok entries, bytes) => some (bytes, entries)
      | (.error _, _) => none := by
  simp only [WalFile.replayFile, replay]
  cases Framing.replay c f.bytes with
  | error => rfl
  | ok =>
    simp only [Option.map_some]
    split_ifs with h
    · rfl
    · rw [List.take_of_length_le (Nat.not_lt.mp h)]

end Wal

/-! ## Some JSON -/

theorem countable_string : Countable String :=
  have : Countable Char := Function.Injective.countable fun _ _ => Char.toNat_inj.mp
  Function.Injective.countable fun _ _ h => String.ext h

theorem countable_walEntry : Countable WalEntry := by
  have := countable_string
  have hclock : Countable VectorClock := Function.Injective.countable
    (f := fun vc : VectorClock => vc.state.toList) fun a b h => by
      cases a
      cases b
      exact congrArg VectorClock.mk (Std.ExtTreeMap.toList_inj.mp h)
  have hitem : Countable DataItem := Function.Injective.countable
    (f := fun i : DataItem => (i.value, i.vectorClock, i.lastUpdatedBy, i.isDeleted))
    fun a b h => by
      cases a
      cases b
      simp_all
  refine Function.Injective.countable (β := (String × DataItem) ⊕ (String × List DataItem))
    (f := fun e => match e with
      | .put k item => Sum.inl (k, item)
      | .restore k items => Sum.inr (k, items)) fun a b h => ?_
  cases a <;> cases b <;> simp_all

/-- Some way of writing values and records has the round trips that are assumed. -/
theorem exists_json (es : List WalEntry) : ∃ json : JSON,
    ∀ e ∈ es, (json.marshal (toRecord json.marshalValue e)).length ≤ es.length := by
  classical
  have := countable_string
  have := countable_walEntry
  obtain ⟨f, hf⟩ := exists_injective_nat String
  obtain ⟨c, hreads, hshort⟩ := exists_codec es
  let marshalValue : String → RawMessage := fun v => List.replicate (f v + 1) 0
  let unmarshalValue : RawMessage → Option String := fun bytes =>
    if h : ∃ v, marshalValue v = bytes then some h.choose else none
  have hvalue : ∀ v, unmarshalValue (marshalValue v) = some v := fun v => by
    have h : ∃ v', marshalValue v' = marshalValue v := ⟨v, rfl⟩
    have hv : h.choose = v := hf (by simpa [marshalValue] using h.choose_spec)
    simp only [unmarshalValue, dif_pos h, hv]
  have hnil : ∀ v, marshalValue v ≠ [] := fun v => by simp [marshalValue]
  have hinj : ∀ a b, toRecord marshalValue a = toRecord marshalValue b → a = b := fun a b h => by
    have hab := fromRecord_toRecord hvalue hnil a
    rw [h, fromRecord_toRecord hvalue hnil b] at hab
    exact (Except.ok.inj hab).symm
  let marshal : Record → List UInt8 := fun r =>
    if h : ∃ e, toRecord marshalValue e = r then c.marshal h.choose else []
  have hmarshal : ∀ e, marshal (toRecord marshalValue e) = c.marshal e := fun e => by
    have h : ∃ e', toRecord marshalValue e' = toRecord marshalValue e := ⟨e, rfl⟩
    simp only [marshal, dif_pos h, hinj _ _ h.choose_spec]
  refine ⟨⟨marshalValue, unmarshalValue, marshal, fun bytes => match c.unmarshal bytes with
    | .record e => some (toRecord marshalValue e).written
    | _ => none, hvalue, hnil, fun e => ?_⟩, fun e he => ?_⟩
  · simp only [hmarshal, hreads]
  · simpa only [hmarshal] using hshort e he

def oneItem : DataItem :=
  ⟨"x", .buildFromContext ∅ "A", "A", false⟩

/-- A version of `k`. -/
def onePut : WalEntry :=
  .put "k" oneItem

/-- A restore of `k` to nothing. -/
def oneRestore : WalEntry :=
  .restore "k" []

/-- A version of another key. -/
def otherPut : WalEntry :=
  .put "l" ⟨"y", .buildFromContext ∅ "B", "B", false⟩

/-- Writes and reads these three entries in a byte each, and reads no other payload. -/
def sampleCodec : Codec WalEntry where
  marshal e := if e = onePut then [1] else if e = oneRestore then [2] else [3]
  unmarshal
    | [1] => .record onePut
    | [2] => .record oneRestore
    | [3] => .record otherPut
    | _ => .malformed
  checksum bytes := bytes.foldl (fun n b => n + b.toUInt32) 0

theorem fits_sampleCodec : ∀ e ∈ [onePut, oneRestore, otherPut], sampleCodec.Fits e := by
  have h : ∀ e ∈ [onePut, oneRestore, otherPut], (sampleCodec.marshal e).length < 2 ^ 32 ∧
      sampleCodec.unmarshal (sampleCodec.marshal e) = .record e := by decide +kernel
  exact fun e he => ⟨(h e he).1, (h e he).2⟩

/-- A put and a restore are written, and the file is cut inside the restore; the replay
returns the put. Then the restore is written again, and both come back. -/
theorem replay_exact_secondRound : ∃ (json : JSON) (checksum : List UInt8 → UInt32),
    let c := json.codec checksum
    let cut := encodeAll c [onePut] ++ (encode c oneRestore).take 3
    Wal.replay c cut = (.ok [onePut], encodeAll c [onePut]) ∧
    Wal.replay c (Wal.writeBatch (encodeAll c [onePut]) [encode c oneRestore]) =
      (.ok [onePut, oneRestore], encodeAll c [onePut, oneRestore]) := by
  obtain ⟨json, hshort⟩ := exists_json [onePut, oneRestore]
  let c := json.codec fun _ => 0
  have hsmall : ∀ a ∈ [onePut, oneRestore], (c.marshal a).length < 2 ^ 32 :=
    fun a ha => (hshort a ha).trans_lt (by decide)
  have hcut : Cut c [onePut, oneRestore] 1 ((encode c oneRestore).take 3) := by
    refine Or.inr ⟨oneRestore, [], rfl, List.take_prefix _ _, ?_⟩
    rw [List.length_take, length_encode, headerSize]
    omega
  have hfirst : Wal.replay c (encodeAll c [onePut] ++ (encode c oneRestore).take 3) =
      (.ok [onePut], encodeAll c [onePut]) := by
    have hnone : ∀ a ∈ ([] : List WalEntry), c.Fits a := by simp
    simpa using Wal.replay_next hnone (fun a ha => json.fits_codec (hsmall a ha)) hcut
      (.nothing rfl)
  have hrounds : Wal.Rounds c (encodeAll c [onePut]) [onePut] :=
    .round .create _ hsmall hcut (.nothing rfl) (by simpa using hfirst)
  have hagain : ∀ a ∈ [oneRestore], (c.marshal a).length < 2 ^ 32 :=
    fun a ha => hsmall a (List.mem_cons_of_mem _ ha)
  exact ⟨json, fun _ => 0, hfirst, (Wal.replay_exact json _ hrounds hagain).2.2.1⟩

end DistributedKV
