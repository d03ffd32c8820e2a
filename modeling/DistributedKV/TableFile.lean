import DistributedKV.Search
import DistributedKV.Framing
import DistributedKV.Compaction

/-!
# SSTable files

A table's file is its records one after the other, then its Bloom filter, its index (each
record's key with the offset the record starts at) and a footer with the offsets of the
filter and of the index. `WriteWithID` writes it under a temporary name and renames it;
`Open` reads the footer, the filter and the index back; `GetAll` and `All` read records at
the index's offsets.

`Reads` is what both the table that `WriteWithID` returns and the one that `Open` returns
have : an index entry for each entry, in order, at whose offset the file has the entry
(`Placed`), and a key range and a filter that rule out none of the keys. From it follow the
answers (`Reads.all`, `Reads.getAll`, `Reads.keys`), which are those of the table without a
file (`Reads.getAll_eq`).

`encoding/json`, the Bloom filter and `path/filepath` are parameters. Of JSON and of the
filter's encoding only the round trip is assumed, of the filter that it has no false
negatives.
-/

open Framing

namespace DistributedKV

namespace TableFile

/-! ## What is written -/

structure IndexEntry where
  key : String
  offset : Nat
deriving DecidableEq, Inhabited

/-- An entry's form on disk. -/
structure TableRecord where
  key : String
  value : List UInt8
  vectorClock : Snapshot
  lastUpdatedBy : String
  isDeleted : Bool
deriving DecidableEq

/-- Files by their paths. -/
abbrev Files := Std.ExtTreeMap String (List UInt8)

/-- The libraries' functions. Errors are their texts. -/
structure Libraries (Bloom : Type) where
  quote : String → String
  /-- `filepath.Base` and `filepath.Join`. -/
  base : String → String
  join : String → String → String
  checksum : List UInt8 → UInt32
  marshalValue : String → Except String (List UInt8)
  unmarshalValue : List UInt8 → Except String String
  marshalRecord : TableRecord → Except String (List UInt8)
  unmarshalRecord : List UInt8 → Except String TableRecord
  marshalIndex : List IndexEntry → Except String (List UInt8)
  unmarshalIndex : List UInt8 → Except String (List IndexEntry)
  /-- A filter for as many strings. -/
  newWithEstimates : Nat → Bloom
  addString : Bloom → String → Bloom
  testString : Bloom → String → Bool
  filterBytes : Bloom → List UInt8
  readFilter : List UInt8 → Except String Bloom

variable {Bloom : Type} (x : Libraries Bloom)

def toRecord (e : Entry) : Except String TableRecord :=
  match x.marshalValue e.item.value with
  | .error err => .error ("sstable: marshal value for key " ++ x.quote e.key ++ ": " ++ err)
  | .ok valueBytes =>
    .ok ⟨e.key, valueBytes, e.item.vectorClock.snapshot, e.item.lastUpdatedBy, e.item.isDeleted⟩

def fromRecord (r : TableRecord) : Except String Entry :=
  match x.unmarshalValue r.value with
  | .error err => .error ("sstable: unmarshal value for key " ++ x.quote r.key ++ ": " ++ err)
  | .ok value =>
    .ok ⟨r.key, ⟨value, .fromSnapshot r.vectorClock, r.lastUpdatedBy, r.isDeleted⟩⟩

def recordHeaderSize : Nat := 8

/-- A record's JSON text. -/
def payload (e : Entry) : Except String (List UInt8) :=
  match toRecord x e with
  | .error err => .error err
  | .ok rec =>
    match x.marshalRecord rec with
    | .error err => .error ("sstable: marshal record for key " ++ x.quote e.key ++ ": " ++ err)
    | .ok payload => .ok payload

def encodeRecord (e : Entry) : Except String (List UInt8) :=
  (payload x e).map fun payload =>
    putUint32 payload.length ++ putUint32 (x.checksum payload).toNat ++ payload

/-- `io.ReadFull` of `n` bytes at an offset. -/
def readFull (file : List UInt8) (offset n : Nat) : Except String (List UInt8) :=
  let bytes := (file.drop offset).take n
  if bytes.length = n then .ok bytes
  else if bytes = [] then .error "EOF"
  else .error "unexpected EOF"

def decodeRecordAt (file : List UInt8) (offset : Nat) : Except String Entry :=
  match readFull file offset recordHeaderSize with
  | .error err => .error ("sstable: read header at " ++ toString offset ++ ": " ++ err)
  | .ok header =>
    let length := uint32 (header.take 4)
    let wantChecksum := uint32 (header.drop 4)
    match readFull file (offset + recordHeaderSize) length with
    | .error err => .error ("sstable: read payload at " ++ toString offset ++ ": " ++ err)
    | .ok payload =>
      if (x.checksum payload).toNat ≠ wantChecksum then
        .error ("sstable: checksum mismatch at offset " ++ toString offset ++ " (file corrupted)")
      else
        match x.unmarshalRecord payload with
        | .error err => .error ("sstable: decode record at " ++ toString offset ++ ": " ++ err)
        | .ok rec => fromRecord x rec

/-! ## Writing a table -/

/-- What fails of a write. -/
structure WriteFaults where
  create : Option String
  /-- The `i`-th write to the file. -/
  write : Nat → Option String
  sync : Option String
  close : Option String
  rename : Option String
  syncDir : Option String
  /-- What stays under the temporary name, if that cannot be removed. -/
  left : Option (List UInt8)

/-- The `i`-th write. A file does not grow past the offsets an `int64` can hold. -/
def write (faults : WriteFaults) (i : Nat) (file buf : List UInt8) : Except String (List UInt8) :=
  match faults.write i with
  | some err => .error err
  | none =>
    if file.length + buf.length < 2 ^ 63 then .ok (file ++ buf) else .error "file too large"

/-- The index, the offset behind the last record, and the file so far. -/
def writeDataSection (faults : WriteFaults) :
    List Entry → Nat → List UInt8 → Nat → Except String (List IndexEntry × Nat × List UInt8)
  | [], _, file, offset => .ok ([], offset, file)
  | e :: entries, i, file, offset =>
    match encodeRecord x e with
    | .error err => .error err
    | .ok buf =>
      match write faults i file buf with
      | .error err => .error ("sstable: write record for key " ++ x.quote e.key ++ ": " ++ err)
      | .ok file =>
        match writeDataSection faults entries (i + 1) file (offset + buf.length) with
        | .error err => .error err
        | .ok (index, bloomStart, file) => .ok (⟨e.key, offset⟩ :: index, bloomStart, file)

def buildFilter (entries : List Entry) : Bloom :=
  entries.foldl (fun filter e => x.addString filter e.key) (x.newWithEstimates entries.length)

/-- The low 64 bits, big endian. -/
def putUint64 (n : Nat) : List UInt8 :=
  putUint32 (n / 2 ^ 32) ++ putUint32 n

def uint64 (bytes : List UInt8) : Nat :=
  bytes.foldl (fun n b => n * 2 ^ 8 + b.toNat) 0

/-- Eight bytes as an `int64`. -/
def int64 (bytes : List UInt8) : Int :=
  if uint64 bytes < 2 ^ 63 then uint64 bytes else uint64 bytes - 2 ^ 64

/-- A table in memory. -/
structure Handle (Bloom : Type) where
  id : String
  path : String
  minKey : String
  maxKey : String
  size : Nat
  index : List IndexEntry
  filter : Option Bloom

/-- What `writeAndPublish` does before it renames the file : the index, the filter, the size
and the file. -/
def writeFile (faults : WriteFaults) (tmpPath : String) (entries : List Entry) :
    Except String (List IndexEntry × Bloom × Nat × List UInt8) := do
  let (index, bloomStart, file) ← writeDataSection x faults entries 0 [] 0
  let filter := buildFilter x entries
  let bloomBytes := x.filterBytes filter
  let calls := entries.length
  let file ← (write faults calls file bloomBytes).mapError ("sstable: write bloom filter: " ++ ·)
  let indexStart := bloomStart + bloomBytes.length
  let indexBytes ← (x.marshalIndex index).mapError ("sstable: marshal index: " ++ ·)
  let file ← (write faults (calls + 1) file indexBytes).mapError ("sstable: write index: " ++ ·)
  let size := indexStart + indexBytes.length + 16
  let footer := putUint64 bloomStart ++ putUint64 indexStart
  let file ← (write faults (calls + 2) file footer).mapError ("sstable: write footer: " ++ ·)
  match faults.sync, faults.close with
  | some err, _ => .error ("sstable: fsync " ++ tmpPath ++ ": " ++ err)
  | none, some err => .error ("sstable: close " ++ tmpPath ++ ": " ++ err)
  | none, none => .ok (index, filter, size, file)

/-- `sort.SliceIsSorted` by key. -/
def sliceIsSorted : List Entry → Bool
  | a :: b :: entries => !decide (b.key < a.key) && sliceIsSorted (b :: entries)
  | _ => true

/-- The temporary file is removed, if it can be. -/
def removeTmp (faults : WriteFaults) (tmpPath : String) (files : Files) : Files :=
  match faults.left with
  | none => files.erase tmpPath
  | some bytes => files.insert tmpPath bytes

def writeWithID (files : Files) (dir id : String) (entries : List Entry) (faults : WriteFaults) :
    Except String (Handle Bloom) × Files :=
  if id = "" ∨ x.base id ≠ id then (.error ("sstable: invalid id " ++ x.quote id), files)
  else if entries.length = 0 then (.error "sstable: cannot write an empty SSTable", files)
  else if sliceIsSorted entries = false then
    (.error "sstable: entries must be sorted by key", files)
  else
    let tmpPath := x.join dir (id ++ ".tmp")
    let finalPath := x.join dir (id ++ ".sst")
    match faults.create with
    | some err => (.error ("sstable: create " ++ tmpPath ++ ": " ++ err), files)
    | none =>
      match writeFile x faults tmpPath entries with
      | .error err => (.error err, removeTmp faults tmpPath files)
      | .ok (index, filter, size, file) =>
        match faults.rename with
        | some err =>
          (.error ("sstable: rename to " ++ finalPath ++ ": " ++ err),
            removeTmp faults tmpPath files)
        | none =>
          let files := (files.erase tmpPath).insert finalPath file
          match faults.syncDir with
          | some err => (.error ("sstable: publish " ++ finalPath ++ ": " ++ err), files)
          | none =>
            (.ok
              { id := id, path := finalPath
                minKey := (entries.head?.map Entry.key).getD ""
                maxKey := (entries.getLast?.map Entry.key).getD ""
                size := size, index := index, filter := some filter }, files)

/-! ## Reading a table -/

def noSuchFile : String := "no such file or directory"

/-- `Open`. -/
def openTable (files : Files) (path : String) : Except String (Handle Bloom) :=
  match files[path]? with
  | none => .error ("sstable: open " ++ path ++ ": " ++ noSuchFile)
  | some file =>
    if file.length < 16 then
      .error ("sstable: " ++ path ++ " is too small to contain a valid footer")
    else
      let footer := file.drop (file.length - 16)
      let bloomStart := int64 (footer.take 8)
      let indexStart := int64 (footer.drop 8)
      if bloomStart < 0 ∨ indexStart < bloomStart ∨ indexStart > file.length - 16 then
        .error ("sstable: " ++ path ++ " has a corrupt footer")
      else
        -- both sections lie in the file, so they are read whole
        let bloomBytes := (file.drop bloomStart.toNat).take (indexStart - bloomStart).toNat
        match x.readFilter bloomBytes with
        | .error err => .error ("sstable: decode bloom filter of " ++ path ++ ": " ++ err)
        | .ok filter =>
          let indexLen := file.length - 16 - indexStart.toNat
          let indexBytes := (file.drop indexStart.toNat).take indexLen
          match x.unmarshalIndex indexBytes with
          | .error err => .error ("sstable: decode index of " ++ path ++ ": " ++ err)
          | .ok index =>
            if index.length = 0 then .error ("sstable: " ++ path ++ " has an empty index")
            else
              .ok
                { id := ((x.base path).dropSuffix ".sst").toString, path := path
                  minKey := (index.head?.map IndexEntry.key).getD ""
                  maxKey := (index.getLast?.map IndexEntry.key).getD ""
                  size := file.length, index := index, filter := some filter }

/-- Whether the filter lets a key through. -/
def Handle.passes (s : Handle Bloom) (key : String) : Bool :=
  match s.filter with
  | none => true
  | some filter => x.testString filter key

/-- A key's versions, if it is found. -/
def getAll (files : Files) (s : Handle Bloom) (key : String) :
    Except String (Option (List DataItem)) :=
  if key < s.minKey ∨ s.maxKey < key then .ok none
  else if s.passes x key = false then .ok none
  else
    let start := Search.search s.index.length fun i => key ≤ (s.index.getD i default).key
    if start ≥ s.index.length ∨ (s.index.getD start default).key ≠ key then .ok none
    else
      let run := (s.index.drop start).takeWhile fun ie => ie.key = key
      match files[s.path]? with
      | none => .error ("sstable: open " ++ s.path ++ ": " ++ noSuchFile)
      | some file =>
        (run.mapM fun ie => (decodeRecordAt x file ie.offset).map Entry.item).map some

def keys (s : Handle Bloom) : List String :=
  s.index.foldl (fun keys ie =>
    if keys.getLast? = some ie.key then keys else keys ++ [ie.key]) []

def all (files : Files) (s : Handle Bloom) : Except String (List Entry) :=
  match files[s.path]? with
  | none => .error ("sstable: open " ++ s.path ++ ": " ++ noSuchFile)
  | some file => s.index.mapM fun ie => decodeRecordAt x file ie.offset

/-! ## What is assumed of the libraries -/

/-- JSON and the filter read back what they wrote, and the filter lets through what was added
to it. -/
structure Sound : Prop where
  value : ∀ v b, x.marshalValue v = .ok b → x.unmarshalValue b = .ok v
  record : ∀ e r b, toRecord x e = .ok r → x.marshalRecord r = .ok b → x.unmarshalRecord b = .ok r
  index : ∀ index b, x.marshalIndex index = .ok b → x.unmarshalIndex b = .ok index
  added : ∀ (strings : List String) (n : Nat), ∀ k ∈ strings,
    x.testString (strings.foldl x.addString (x.newWithEstimates n)) k = true
  filter : ∀ f, ∃ f', x.readFilter (x.filterBytes f) = .ok f' ∧
    ∀ key, x.testString f' key = x.testString f key

/-! ## Records -/

section Records

variable {x}

theorem readFull_append {pre bytes rest : List UInt8} {n : Nat} (hn : bytes.length = n) :
    readFull (pre ++ bytes ++ rest) pre.length n = .ok bytes := by
  subst hn
  simp [readFull]

theorem fromRecord_toRecord (hx : Sound x) {e : Entry} {r : TableRecord}
    (h : toRecord x e = .ok r) : fromRecord x r = .ok e := by
  unfold toRecord at h
  split at h
  · cases h
  · next valueBytes hvalue =>
    obtain rfl := Except.ok.inj h
    simp only [fromRecord, hx.value _ _ hvalue]
    rfl

/-- A record is read back at the offset it was written at, whatever stands around it. -/
theorem decodeRecordAt_append (hx : Sound x) {e : Entry} {buf text : List UInt8}
    (hpayload : payload x e = .ok text) (hsmall : text.length < 2 ^ 32)
    (h : encodeRecord x e = .ok buf) (pre rest : List UInt8) :
    decodeRecordAt x (pre ++ buf ++ rest) pre.length = .ok e := by
  have hbuf : buf = putUint32 text.length ++ putUint32 (x.checksum text).toNat ++ text := by
    rw [encodeRecord, hpayload] at h
    exact (Except.ok.inj h).symm
  have hheader : readFull (pre ++ buf ++ rest) pre.length recordHeaderSize =
      .ok (putUint32 text.length ++ putUint32 (x.checksum text).toNat) := by
    have hsplit : pre ++ buf ++ rest = pre ++
        (putUint32 text.length ++ putUint32 (x.checksum text).toNat) ++ (text ++ rest) := by
      simp [hbuf]
    rw [hsplit]
    exact readFull_append rfl
  have hlength : uint32 ((putUint32 text.length ++ putUint32 (x.checksum text).toNat).take 4) =
      text.length := by
    exact (uint32_putUint32 _).trans (Nat.mod_eq_of_lt hsmall)
  have hchecksum : uint32 ((putUint32 text.length ++ putUint32 (x.checksum text).toNat).drop 4) =
      (x.checksum text).toNat :=
    (uint32_putUint32 _).trans (Nat.mod_eq_of_lt (UInt32.toNat_lt _))
  have htext : readFull (pre ++ buf ++ rest) (pre.length + recordHeaderSize) text.length =
      .ok text := by
    have hsplit : pre ++ buf ++ rest = (pre ++
        (putUint32 text.length ++ putUint32 (x.checksum text).toNat)) ++ text ++ rest := by
      simp [hbuf]
    have hoffset : pre.length + recordHeaderSize =
        (pre ++ (putUint32 text.length ++ putUint32 (x.checksum text).toNat)).length := by
      simp [recordHeaderSize, length_putUint32]
    rw [hsplit, hoffset]
    exact readFull_append rfl
  obtain ⟨r, hr, hmarshal⟩ : ∃ r, toRecord x e = .ok r ∧ x.marshalRecord r = .ok text := by
    unfold payload at hpayload
    split at hpayload
    · cases hpayload
    · next r hr =>
      split at hpayload
      · cases hpayload
      · next text' htext' =>
        obtain rfl := Except.ok.inj hpayload
        exact ⟨r, hr, htext'⟩
  simp only [decodeRecordAt, hheader, hlength, htext, hchecksum, ne_eq, not_true_eq_false, if_false,
    hx.record e r text hr hmarshal, fromRecord_toRecord hx hr]

/-- Each index entry has the key of its entry, and the offset at which the file has it,
whatever else is written behind. -/
def Placed (x : Libraries Bloom) (file : List UInt8) (index : List IndexEntry)
    (entries : List Entry) : Prop :=
  List.Forall₂ (fun ie e => ie.key = e.key ∧
    ∀ rest, decodeRecordAt x (file ++ rest) ie.offset = .ok e) index entries

/-- No record reaches 4 GiB. -/
def Small (x : Libraries Bloom) (entries : List Entry) : Prop :=
  ∀ e ∈ entries, ∀ text, payload x e = .ok text → text.length < 2 ^ 32

theorem write_eq_ok {faults : WriteFaults} {i : Nat} {file buf file' : List UInt8}
    (h : write faults i file buf = .ok file') : file' = file ++ buf ∧ file'.length < 2 ^ 63 := by
  unfold write at h
  split at h
  · cases h
  · split at h
    · next hlen =>
      obtain rfl := Except.ok.inj h
      exact ⟨rfl, by rw [List.length_append]; exact hlen⟩
    · cases h

/-- The loop over the entries : the offsets it notes are those the records are written at. -/
theorem writeDataSection_spec (hx : Sound x) {faults : WriteFaults} :
    ∀ {entries : List Entry} {i : Nat} {file : List UInt8} {offset : Nat}
      {r : List IndexEntry × Nat × List UInt8}, Small x entries → offset = file.length →
      writeDataSection x faults entries i file offset = .ok r →
      (∃ data, r.2.2 = file ++ data) ∧ r.2.1 = r.2.2.length ∧ Placed x r.2.2 r.1 entries
  | [], i, file, offset, r, _, hoffset, h => by
    obtain rfl := Except.ok.inj h
    exact ⟨⟨[], by simp⟩, hoffset, .nil⟩
  | e :: entries, i, file, offset, r, hsmall, hoffset, h => by
    unfold writeDataSection at h
    split at h
    · cases h
    · next buf hbuf =>
      split at h
      · cases h
      · next file₁ hwrite =>
        split at h
        · cases h
        · next index bloomStart file₂ hrest =>
          obtain rfl := Except.ok.inj h
          obtain ⟨rfl, -⟩ := write_eq_ok hwrite
          obtain ⟨⟨data, hdata⟩, hstart, hplaced⟩ := writeDataSection_spec hx
            (fun e he => hsmall e (List.mem_cons_of_mem _ he))
            (by rw [hoffset, List.length_append]) hrest
          refine ⟨⟨buf ++ data, by rw [hdata, List.append_assoc]⟩, hstart, .cons ⟨rfl, ?_⟩ hplaced⟩
          intro rest
          obtain ⟨text, htext⟩ : ∃ text, payload x e = .ok text := by
            cases hp : payload x e with
            | error =>
              rw [encodeRecord, hp] at hbuf
              cases hbuf
            | ok text => exact ⟨text, rfl⟩
          have hdata : file₂ = file ++ buf ++ data := hdata
          show decodeRecordAt x (file₂ ++ rest) offset = .ok e
          rw [hdata, List.append_assoc, hoffset]
          exact decodeRecordAt_append hx htext (hsmall e List.mem_cons_self text htext) hbuf
            file (data ++ rest)

end Records

/-! ## Answers -/

section Answers

variable {x}

theorem mapM_of_forall₂ {α β : Type} {f : α → Except String β} {l : List α} {r : List β}
    (h : List.Forall₂ (fun a b => f a = .ok b) l r) : l.mapM f = .ok r := by
  induction h with
  | nil => rfl
  | cons hab _ ih =>
    rw [List.mapM_cons, hab, ih]
    rfl

theorem forall₂_filter {α β : Type*} {R : α → β → Prop} {p : α → Bool} {q : β → Bool}
    {l : List α} {r : List β} (h : List.Forall₂ R l r) (hpq : ∀ a b, R a b → p a = q b) :
    List.Forall₂ R (l.filter p) (r.filter q) := by
  induction h with
  | nil => exact .nil
  | @cons a b l r hab _ ih =>
    rw [List.filter_cons, List.filter_cons, hpq a b hab]
    split
    · exact .cons hab ih
    · exact ih

/-- In a sorted list, the elements from a key on begin with those of the key. -/
theorem takeWhile_filter_le (key : String) : ∀ {index : List IndexEntry},
    index.Pairwise (fun a b => a.key ≤ b.key) →
    (index.filter fun ie => key ≤ ie.key).takeWhile (fun ie => ie.key = key) =
      index.filter fun ie => ie.key = key
  | [], _ => rfl
  | ie :: index, h => by
    obtain ⟨hie, hindex⟩ := List.pairwise_cons.mp h
    have ih := takeWhile_filter_le key hindex
    rcases lt_trichotomy ie.key key with hlt | heq | hgt
    · rw [List.filter_cons_of_neg (by simpa using hlt), ih,
        List.filter_cons_of_neg (by simpa using hlt.ne)]
    · rw [List.filter_cons_of_pos (by simpa using heq.ge), List.takeWhile_cons_of_pos (by simpa),
        List.filter_cons_of_pos (by simpa), ih]
    · have hnone : index.filter (fun ie => decide (ie.key = key)) = [] := by
        refine List.filter_eq_nil_iff.mpr fun a ha => ?_
        simpa using (hgt.trans_le (hie a ha)).ne'
      rw [List.filter_cons_of_pos (by simpa using hgt.le),
        List.takeWhile_cons_of_neg (by simpa using hgt.ne'),
        List.filter_cons_of_neg (by simpa using hgt.ne'), hnone]

theorem lt_and_getD_of_drop {index rest : List IndexEntry} {first : IndexEntry} {start : Nat}
    (h : index.drop start = first :: rest) :
    start < index.length ∧ index.getD start default = first := by
  have hget : index[start]? = some first := by
    have := congrArg (·[0]?) h
    simpa using this
  obtain ⟨hlt, -⟩ := List.getElem?_eq_some_iff.mp hget
  exact ⟨hlt, by rw [List.getD_eq_getElem?_getD, hget, Option.getD_some]⟩

theorem foldl_keys_sorted : ∀ {keys : List String} {acc : List String},
    keys.Pairwise (· ≤ ·) → acc.Pairwise (· < ·) → (∀ a ∈ acc, ∀ k ∈ keys, a ≤ k) →
    (keys.foldl (fun acc k => if acc.getLast? = some k then acc else acc ++ [k]) acc).Pairwise
      (· < ·)
  | [], acc, _, hacc, _ => hacc
  | k :: keys, acc, hkeys, hacc, hle => by
    obtain ⟨hk, hkeys⟩ := List.pairwise_cons.mp hkeys
    rw [List.foldl_cons]
    split
    · exact foldl_keys_sorted hkeys hacc fun a ha b hb => hle a ha b (List.mem_cons_of_mem _ hb)
    · next hlast =>
      have hlt : ∀ a ∈ acc, a < k := by
        intro a ha
        refine lt_of_le_of_ne (hle a ha k List.mem_cons_self) ?_
        rintro rfl
        -- nothing behind `a` can be greater, so `a` is the last
        obtain ⟨front, rest, rfl⟩ := List.append_of_mem ha
        cases rest with
        | nil => exact hlast (by simp)
        | cons b =>
          have hab : a < b := by
            have := (List.pairwise_append.mp hacc).2.1
            exact (List.pairwise_cons.mp this).1 b List.mem_cons_self
          exact absurd (hle b (by simp) a List.mem_cons_self) hab.not_ge
      refine foldl_keys_sorted hkeys (List.pairwise_append.mpr
        ⟨hacc, List.pairwise_singleton _ _, fun a ha b hb => ?_⟩) fun a ha b hb => ?_
      · rw [List.mem_singleton.mp hb]
        exact hlt a ha
      · rcases List.mem_append.mp ha with ha | ha
        · exact hle a ha b (List.mem_cons_of_mem _ hb)
        · rw [List.mem_singleton.mp ha]
          exact hk b hb

/-- What a table that was written or opened has of its file. -/
structure Reads (x : Libraries Bloom) (files : Files) (entries : List Entry) (s : Handle Bloom) :
    Prop where
  sorted : entries.Pairwise fun a b => a.key ≤ b.key
  found : ∃ file, files[s.path]? = some file ∧ List.Forall₂ (fun ie e => ie.key = e.key ∧
    decodeRecordAt x file ie.offset = .ok e) s.index entries
  low : ∀ e ∈ entries, s.minKey ≤ e.key
  high : ∀ e ∈ entries, e.key ≤ s.maxKey
  passes : ∀ e ∈ entries, s.passes x e.key = true

namespace Reads

variable {files : Files} {entries : List Entry} {s : Handle Bloom}

theorem map_key_index (h : Reads x files entries s) :
    s.index.map IndexEntry.key = entries.map Entry.key := by
  obtain ⟨file, -, hplaced⟩ := h.found
  refine List.forall₂_eq_eq_eq ▸ ?_
  exact List.forall₂_map_left_iff.mpr (List.forall₂_map_right_iff.mpr
    (hplaced.imp fun _ _ hab => hab.1))

theorem sorted_index (h : Reads x files entries s) :
    s.index.Pairwise fun a b => a.key ≤ b.key := by
  have hkeys : (s.index.map IndexEntry.key).Pairwise (· ≤ ·) := by
    rw [h.map_key_index]
    exact List.pairwise_map.mpr h.sorted
  exact List.pairwise_map.mp hkeys

protected theorem all (h : Reads x files entries s) : all x files s = .ok entries := by
  obtain ⟨file, hfile, hplaced⟩ := h.found
  rw [TableFile.all, hfile]
  exact mapM_of_forall₂ (hplaced.imp fun _ _ hab => hab.2)

protected theorem getAll (h : Reads x files entries s) (key : String) :
    getAll x files s key =
      .ok (if ∃ e ∈ entries, e.key = key then some (itemsOf entries key) else none) := by
  obtain ⟨file, hfile, hplaced⟩ := h.found
  have hmem : (∃ ie ∈ s.index, ie.key = key) ↔ ∃ e ∈ entries, e.key = key := by
    rw [← List.mem_map, ← List.mem_map, h.map_key_index]
  obtain ⟨hdrop, -⟩ := Search.filter_search (l := s.index) (p := fun ie => key ≤ ie.key) default
    (h.sorted_index.imp fun hab ha => by
      simp only [decide_eq_true_eq] at ha ⊢
      exact ha.trans hab)
  have hrun := takeWhile_filter_le key h.sorted_index
  rw [hdrop] at hrun
  by_cases hkey : ∃ e ∈ entries, e.key = key
  · obtain ⟨e, he, rfl⟩ := hkey
    obtain ⟨ie, hie, hieq⟩ := hmem.mpr ⟨e, he, rfl⟩
    -- the search ends at the first index entry of the key
    obtain ⟨first, rest, hstart, hfirst⟩ : ∃ first rest,
        s.index.drop (Search.search s.index.length fun i =>
          decide (e.key ≤ (s.index.getD i default).key)) = first :: rest ∧ first.key = e.key := by
      have hmemrun : ie ∈ s.index.filter fun ie => ie.key = e.key :=
        List.mem_filter.mpr ⟨hie, by simpa using hieq⟩
      rw [← hrun] at hmemrun
      generalize s.index.drop _ = l at hmemrun
      cases l with
      | nil => cases hmemrun
      | cons first rest =>
        refine ⟨first, rest, rfl, ?_⟩
        by_contra hne
        rw [List.takeWhile_cons_of_neg (by simpa using hne)] at hmemrun
        cases hmemrun
    obtain ⟨hlt, hget⟩ := lt_and_getD_of_drop hstart
    have hitems : (s.index.filter fun ie => ie.key = e.key).mapM
        (fun ie => (decodeRecordAt x file ie.offset).map Entry.item) =
          .ok (itemsOf entries e.key) := by
      refine mapM_of_forall₂ (List.forall₂_map_right_iff.mpr ?_)
      refine (forall₂_filter hplaced fun a b hab => by rw [hab.1]).imp fun a b hab => ?_
      rw [hab.2]
      rfl
    rw [if_pos ⟨e, he, rfl⟩, TableFile.getAll,
      if_neg (not_or.mpr ⟨(h.low e he).not_gt, (h.high e he).not_gt⟩),
      if_neg (by rw [h.passes e he]; decide)]
    dsimp only
    rw [if_neg (not_or.mpr ⟨Nat.not_le.mpr hlt, not_not.mpr (by rw [hget, hfirst])⟩), hfile, hrun]
    simp only [hitems]
    rfl
  · rw [if_neg hkey, TableFile.getAll]
    split
    · rfl
    · split
      · rfl
      · dsimp only
        split
        · rfl
        · next hin =>
          push Not at hin
          refine absurd (hmem.mp ⟨_, ?_, hin.2⟩) hkey
          rw [List.getD_eq_getElem _ _ hin.1]
          exact List.getElem_mem _

theorem keys_eq (h : Reads x files entries s) :
    keys s = (entries.map Entry.key).foldl (fun acc k =>
      if acc.getLast? = some k then acc else acc ++ [k]) [] := by
  rw [← h.map_key_index, List.foldl_map]
  rfl

protected theorem keys (h : Reads x files entries s) :
    (keys s).Pairwise (· < ·) ∧ ∀ k, k ∈ keys s ↔ ∃ e ∈ entries, e.key = k := by
  rw [h.keys_eq]
  refine ⟨foldl_keys_sorted (List.pairwise_map.mpr h.sorted) .nil (by simp), fun k => ?_⟩
  rw [List.foldl_map]
  simp [mem_foldl_keys]

/-- The file answers like the table it was written from. -/
theorem answers_eq (h : Reads x files entries s) (id : String) (size : Nat) (key : String) :
    getAll x files s key = .ok ((⟨id, entries, size⟩ : SSTable).getAll key) ∧
      keys s = (⟨id, entries, size⟩ : SSTable).keys := by
  refine ⟨?_, by rw [h.keys_eq, List.foldl_map]; rfl⟩
  rw [h.getAll, SSTable.getAll]
  have hempty : (itemsOf entries key).isEmpty = false ↔ ∃ e ∈ entries, e.key = key := by
    rw [List.isEmpty_eq_false_iff_exists_mem]
    constructor
    · rintro ⟨v, hv⟩
      exact ⟨⟨key, v⟩, mem_itemsOf.mp hv, rfl⟩
    · rintro ⟨e, he, rfl⟩
      exact ⟨e.item, mem_itemsOf.mpr he⟩
  by_cases hkey : ∃ e ∈ entries, e.key = key
  · simp only [if_pos hkey, hempty.mpr hkey]
    rfl
  · have hnone := mt hempty.mp hkey
    simp only [if_neg hkey, Bool.not_eq_false] at hnone ⊢
    rw [if_pos hnone]

end Reads

end Answers

/-! ## Round trips -/

section RoundTrips

variable {x}

theorem bind_eq_ok {α β : Type} {r : Except String α} {f : α → Except String β} {b : β} :
    r >>= f = .ok b ↔ ∃ a, r = .ok a ∧ f a = .ok b := by
  cases r with
  | error | ok => simp [bind, Except.bind]

theorem mapError_eq_ok {α : Type} {r : Except String α} {f : String → String} {a : α} :
    r.mapError f = .ok a ↔ r = .ok a := by
  cases r <;> simp [Except.mapError]

theorem length_putUint64 (n : Nat) : (putUint64 n).length = 8 := rfl

theorem int64_putUint64 {n : Nat} (h : n < 2 ^ 63) : int64 (putUint64 n) = n := by
  have huint : uint64 (putUint64 n) = n := by
    simp only [uint64, putUint64, putUint32, List.cons_append, List.nil_append, List.foldl_cons,
      List.foldl_nil, UInt8.toNat_ofNat']
    omega
  rw [int64, huint, if_pos h]

theorem pairwise_of_sliceIsSorted : ∀ {entries : List Entry}, sliceIsSorted entries = true →
    entries.Pairwise fun a b => a.key ≤ b.key
  | [], _ => .nil
  | [a], _ => List.pairwise_singleton _ _
  | a :: b :: entries, h => by
    rw [sliceIsSorted, Bool.and_eq_true] at h
    have hab : a.key ≤ b.key := not_lt.mp (by
      simpa only [Bool.not_eq_true', decide_eq_false_iff_not] using h.1)
    have htail := pairwise_of_sliceIsSorted h.2
    refine List.pairwise_cons.mpr ⟨fun c hc => ?_, htail⟩
    rcases List.mem_cons.mp hc with rfl | hc
    · exact hab
    · exact hab.trans ((List.pairwise_cons.mp htail).1 c hc)

/-- A file of a table : records, filter, index and footer. -/
structure Laid (x : Libraries Bloom) (entries : List Entry) (index : List IndexEntry)
    (filter : Bloom) (file : List UInt8) : Prop where
  parts : ∃ data indexBytes, x.marshalIndex index = .ok indexBytes ∧ Placed x data index entries ∧
    file = data ++ x.filterBytes filter ++ indexBytes ++ (putUint64 data.length ++
      putUint64 (data.length + (x.filterBytes filter).length))
  size : file.length < 2 ^ 63

theorem writeFile_spec (hx : Sound x) {faults : WriteFaults} {tmpPath : String}
    {entries : List Entry} (hsmall : Small x entries)
    {r : List IndexEntry × Bloom × Nat × List UInt8}
    (h : writeFile x faults tmpPath entries = .ok r) :
    r.2.1 = buildFilter x entries ∧ r.2.2.1 = r.2.2.2.length ∧
      Laid x entries r.1 r.2.1 r.2.2.2 := by
  unfold writeFile at h
  obtain ⟨⟨index, bloomStart, data⟩, hdata, h⟩ := bind_eq_ok.mp h
  obtain ⟨-, hstart, hplaced⟩ := writeDataSection_spec hx hsmall rfl hdata
  obtain ⟨file₁, hfile₁, h⟩ := bind_eq_ok.mp h
  obtain ⟨rfl, -⟩ := write_eq_ok (mapError_eq_ok.mp hfile₁)
  obtain ⟨indexBytes, hindex, h⟩ := bind_eq_ok.mp h
  obtain ⟨file₂, hfile₂, h⟩ := bind_eq_ok.mp h
  obtain ⟨rfl, -⟩ := write_eq_ok (mapError_eq_ok.mp hfile₂)
  obtain ⟨file₃, hfile₃, h⟩ := bind_eq_ok.mp h
  obtain ⟨rfl, hlen⟩ := write_eq_ok (mapError_eq_ok.mp hfile₃)
  have hstart : bloomStart = data.length := hstart
  subst hstart
  split at h
  · cases h
  · cases h
  · obtain rfl := Except.ok.inj h
    refine ⟨rfl, ?_, ⟨data, indexBytes, mapError_eq_ok.mp hindex, hplaced, rfl⟩, hlen⟩
    simp only [List.length_append, length_putUint64]

theorem openTable_spec (hx : Sound x) {files : Files} {path : String} {entries : List Entry}
    {index : List IndexEntry} {filter : Bloom} {file : List UInt8}
    (hfile : files[path]? = some file) (hlaid : Laid x entries index filter file)
    (hne : index ≠ []) : ∃ f', (∀ key, x.testString f' key = x.testString filter key) ∧
      openTable x files path = .ok
        { id := ((x.base path).dropSuffix ".sst").toString, path := path
          minKey := (index.head?.map IndexEntry.key).getD ""
          maxKey := (index.getLast?.map IndexEntry.key).getD ""
          size := file.length, index := index, filter := some f' } := by
  obtain ⟨⟨data, indexBytes, hindex, -, hparts⟩, hsize⟩ := hlaid
  obtain ⟨f', hread, htest⟩ := hx.filter filter
  refine ⟨f', htest, ?_⟩
  have hlen : file.length =
      data.length + (x.filterBytes filter).length + indexBytes.length + 16 := by
    rw [hparts]
    simp only [List.length_append, length_putUint64]
  have hfooter : file.drop (file.length - 16) = putUint64 data.length ++
      putUint64 (data.length + (x.filterBytes filter).length) := by
    rw [hparts]
    refine List.drop_left' ?_
    simp only [List.length_append, length_putUint64]
    omega
  have hbloomStart : int64 ((file.drop (file.length - 16)).take 8) = data.length := by
    rw [hfooter, List.take_left' (length_putUint64 _)]
    exact int64_putUint64 (by omega)
  have hindexStart : int64 ((file.drop (file.length - 16)).drop 8) =
      (data.length + (x.filterBytes filter).length : Nat) := by
    rw [hfooter, List.drop_left' (length_putUint64 _)]
    exact int64_putUint64 (by omega)
  have hbloom : (file.drop data.length).take (x.filterBytes filter).length =
      x.filterBytes filter := by
    rw [hparts, List.append_assoc, List.append_assoc, List.drop_left, List.take_left]
  have hindexBytes : (file.drop (data.length + (x.filterBytes filter).length)).take
      indexBytes.length = indexBytes := by
    rw [hparts, List.append_assoc, ← List.length_append, List.drop_left, List.take_left]
  have hvalid : ¬((data.length : Int) < 0 ∨
      ((data.length + (x.filterBytes filter).length : Nat) : Int) < data.length ∨
      ((data.length + (x.filterBytes filter).length : Nat) : Int) > file.length - 16) := by
    omega
  have hbloomLen : (((data.length + (x.filterBytes filter).length : Nat) : Int) -
      data.length).toNat = (x.filterBytes filter).length := by omega
  have hindexLen : file.length - 16 - (data.length + (x.filterBytes filter).length) =
      indexBytes.length := by omega
  have hnonempty : ¬index.length = 0 := mt List.eq_nil_of_length_eq_zero hne
  simp only [openTable, hfile]
  rw [if_neg (by omega), hbloomStart, hindexStart, if_neg hvalid]
  simp only [Int.toNat_natCast, hbloomLen, hbloom, hread, hindexLen, hindexBytes,
    hx.index _ _ hindex, if_neg hnonempty]

theorem head_getLast_bounds {entries : List Entry}
    (hsorted : entries.Pairwise fun a b => a.key ≤ b.key) {e : Entry} (he : e ∈ entries) :
    (entries.head?.map Entry.key).getD "" ≤ e.key ∧
      e.key ≤ (entries.getLast?.map Entry.key).getD "" := by
  constructor
  · cases entries with
    | nil => cases he
    | cons =>
      rcases List.mem_cons.mp he with rfl | he
      · exact le_rfl
      · exact (List.pairwise_cons.mp hsorted).1 e he
  · obtain ⟨front, last, rfl⟩ : ∃ front last, entries = front ++ [last] :=
      ⟨entries.dropLast, entries.getLast (List.ne_nil_of_mem he),
        (List.dropLast_append_getLast _).symm⟩
    rw [List.getLast?_append_of_ne_nil _ (by simp)]
    rcases List.mem_append.mp he with he | he
    · exact (List.pairwise_append.mp hsorted).2.2 e he last (List.mem_singleton_self _)
    · rw [List.mem_singleton.mp he]
      exact le_rfl

/-- A table over a file that was laid out, with the entries' key range and a filter that
answers like the one that was built. -/
theorem reads_of_laid (hx : Sound x) {files : Files} {entries : List Entry} {s : Handle Bloom}
    {filter f' : Bloom} {file : List UInt8}
    (hsorted : entries.Pairwise fun a b => a.key ≤ b.key)
    (hlaid : Laid x entries s.index filter file) (hfile : files[s.path]? = some file)
    (hfilter : filter = buildFilter x entries) (hsf : s.filter = some f')
    (htest : ∀ key, x.testString f' key = x.testString filter key)
    (hmin : s.minKey = (entries.head?.map Entry.key).getD "")
    (hmax : s.maxKey = (entries.getLast?.map Entry.key).getD "") : Reads x files entries s where
  sorted := hsorted
  found := by
    obtain ⟨⟨data, indexBytes, -, hplaced, hparts⟩, -⟩ := hlaid
    refine ⟨file, hfile, hplaced.imp fun ie e hie => ⟨hie.1, ?_⟩⟩
    rw [hparts, List.append_assoc, List.append_assoc]
    exact hie.2 _
  low e he := by
    rw [hmin]
    exact (head_getLast_bounds hsorted he).1
  high e he := by
    rw [hmax]
    exact (head_getLast_bounds hsorted he).2
  passes e he := by
    have hadded := hx.added (entries.map Entry.key) entries.length e.key
      (List.mem_map_of_mem he)
    rw [List.foldl_map] at hadded
    simp only [Handle.passes, hsf, htest, hfilter]
    exact hadded

/-- What `WriteWithID` returned nil for : entries in order, laid out in the file at the
table's path. -/
theorem writeWithID_spec (hx : Sound x) {files files' : Files} {dir id : String}
    {entries : List Entry} {faults : WriteFaults} {s : Handle Bloom} (hsmall : Small x entries)
    (h : writeWithID x files dir id entries faults = (.ok s, files')) :
    entries ≠ [] ∧ (entries.Pairwise fun a b => a.key ≤ b.key) ∧
      ∃ file, files'[s.path]? = some file ∧ s.size = file.length ∧
        s.filter = some (buildFilter x entries) ∧
        Laid x entries s.index (buildFilter x entries) file ∧
        s.minKey = (entries.head?.map Entry.key).getD "" ∧
        s.maxKey = (entries.getLast?.map Entry.key).getD "" := by
  unfold writeWithID at h
  split_ifs at h with hid hempty hsorted
  · cases h
  · cases h
  · cases h
  · dsimp only at h
    split at h
    · cases h
    · split at h
      · cases h
      · next index filter size file hwrite =>
        split at h
        · cases h
        · split at h
          · cases h
          · obtain ⟨hs, rfl⟩ := Prod.mk.inj h
            obtain rfl := Except.ok.inj hs
            obtain ⟨hfilter, hsize, hlaid⟩ := writeFile_spec hx hsmall hwrite
            have hfilter : filter = buildFilter x entries := hfilter
            subst hfilter
            refine ⟨fun hnil => hempty (by rw [hnil]; rfl),
              pairwise_of_sliceIsSorted (by simpa using hsorted), file, ?_, hsize, rfl, hlaid, rfl,
              rfl⟩
            rw [Std.ExtTreeMap.getElem?_insert_self]

/-- After `WriteWithID` returned nil, the table it returned and the one `Open` returns for the
file have the same index, key range and size, and answer with what was written : all entries
in order, a key's versions in order exactly if it occurs, and the sorted distinct keys. -/
theorem writeWithID_round_trip (hx : Sound x) {files files' : Files} {dir id : String}
    {entries : List Entry} {faults : WriteFaults} {s : Handle Bloom} (hsmall : Small x entries)
    (h : writeWithID x files dir id entries faults = (.ok s, files')) :
    ∃ o : Handle Bloom, openTable x files' s.path = .ok o ∧
      o.path = s.path ∧ o.index = s.index ∧ o.minKey = s.minKey ∧ o.maxKey = s.maxKey ∧
      o.size = s.size ∧
      ∀ t, t = s ∨ t = o →
        all x files' t = .ok entries ∧
        (∀ key, getAll x files' t key =
          .ok (if ∃ e ∈ entries, e.key = key then some (itemsOf entries key) else none)) ∧
        (keys t).Pairwise (· < ·) ∧ ∀ k, k ∈ keys t ↔ ∃ e ∈ entries, e.key = k := by
  obtain ⟨hne, hsorted, file, hfile, hsize, hfilter, hlaid, hmin, hmax⟩ :=
    writeWithID_spec hx hsmall h
  have hs : Reads x files' entries s :=
    reads_of_laid hx hsorted hlaid hfile rfl hfilter (fun _ => rfl) hmin hmax
  have hkeys := hs.map_key_index
  have hindex : s.index ≠ [] := by
    intro hnil
    rw [hnil] at hkeys
    exact hne (List.map_eq_nil_iff.mp hkeys.symm)
  obtain ⟨f', htest, hopen⟩ := openTable_spec hx hfile hlaid hindex
  have hmin' : (s.index.head?.map IndexEntry.key).getD "" = s.minKey := by
    rw [hmin, ← List.head?_map, ← List.head?_map, hkeys]
  have hmax' : (s.index.getLast?.map IndexEntry.key).getD "" = s.maxKey := by
    rw [hmax, ← List.getLast?_map, ← List.getLast?_map, hkeys]
  refine ⟨_, hopen, rfl, rfl, hmin', hmax', hsize.symm, ?_⟩
  have hanswers : ∀ t, Reads x files' entries t → all x files' t = .ok entries ∧
      (∀ key, getAll x files' t key =
        .ok (if ∃ e ∈ entries, e.key = key then some (itemsOf entries key) else none)) ∧
      (keys t).Pairwise (· < ·) ∧ ∀ k, k ∈ keys t ↔ ∃ e ∈ entries, e.key = k :=
    fun t ht => ⟨ht.all, ht.getAll, ht.keys⟩
  rintro t (rfl | rfl)
  · exact hanswers _ hs
  · exact hanswers _ (reads_of_laid hx hsorted hlaid hfile rfl rfl htest (hmin'.trans hmin)
      (hmax'.trans hmax))

end RoundTrips

/-! ## Two versions of one key and one of another -/

def sampleVersion (updater : String) : DataItem :=
  ⟨"1", .buildFromContext ∅ updater, updater, false⟩

def sampleEntries : List Entry :=
  [⟨"a", sampleVersion "A"⟩, ⟨"a", sampleVersion "B"⟩, ⟨"b", sampleVersion "A"⟩]

def sampleRecord (key updater : String) : TableRecord :=
  ⟨key, [1], (VectorClock.buildFromContext ∅ updater).snapshot, updater, false⟩

def sampleIndex : List IndexEntry :=
  [⟨"a", 0⟩, ⟨"a", 9⟩, ⟨"b", 18⟩]

/-- Libraries that write what the sample needs, and a filter that rules out nothing. -/
def sampleLibraries : Libraries Unit where
  quote := id
  base := id
  join dir name := dir ++ "/" ++ name
  checksum _ := 0
  marshalValue v := if v = "1" then .ok [1] else .error "unsupported value"
  unmarshalValue _ := .ok "1"
  marshalRecord r :=
    if r = sampleRecord "a" "A" then .ok [0]
    else if r = sampleRecord "a" "B" then .ok [1]
    else if r = sampleRecord "b" "A" then .ok [2]
    else .error "unsupported record"
  unmarshalRecord b :=
    if b = [0] then .ok (sampleRecord "a" "A")
    else if b = [1] then .ok (sampleRecord "a" "B")
    else .ok (sampleRecord "b" "A")
  marshalIndex index := if index = sampleIndex then .ok [7] else .error "unsupported index"
  unmarshalIndex _ := .ok sampleIndex
  newWithEstimates _ := ()
  addString _ _ := ()
  testString _ _ := true
  filterBytes _ := [3, 3]
  readFilter _ := .ok ()

theorem sound_sampleLibraries : Sound sampleLibraries where
  value v b h := by
    simp only [sampleLibraries] at h ⊢
    split_ifs at h with hv
    rw [hv]
  record e r b _ h := by
    simp only [sampleLibraries] at h ⊢
    split_ifs at h with h₁ h₂ h₃
    · rw [← Except.ok.inj h, if_pos rfl, h₁]
    · rw [← Except.ok.inj h, if_neg (by decide), if_pos rfl, h₂]
    · rw [← Except.ok.inj h, if_neg (by decide), if_neg (by decide), h₃]
  index index b h := by
    simp only [sampleLibraries] at h ⊢
    split_ifs at h with hindex
    rw [hindex]
  added _ _ _ _ := rfl
  filter _ := ⟨(), rfl, fun _ => rfl⟩

def noWriteFaults : WriteFaults :=
  ⟨none, fun _ => none, none, none, none, none, none⟩

theorem writeWithID_round_trip_sample : ∃ (s : Handle Unit) (files : Files),
    writeWithID sampleLibraries ∅ "dir" "sst_1" sampleEntries noWriteFaults = (.ok s, files) ∧
    getAll sampleLibraries files s "a" = .ok (some [sampleVersion "A", sampleVersion "B"]) ∧
    getAll sampleLibraries files s "c" = .ok none := by
  have hok : (writeWithID sampleLibraries ∅ "dir" "sst_1" sampleEntries
      noWriteFaults).1.toOption.isSome = true := by decide +kernel
  have hsmall : Small sampleLibraries sampleEntries := by
    have hlen : ∀ e ∈ sampleEntries,
        ((payload sampleLibraries e).toOption.getD []).length < 2 ^ 32 := by decide +kernel
    intro e he text htext
    have := hlen e he
    rwa [htext] at this
  obtain ⟨s, hs⟩ := Option.isSome_iff_exists.mp hok
  cases hwrite : writeWithID sampleLibraries ∅ "dir" "sst_1" sampleEntries noWriteFaults with
  | mk result files =>
    rw [hwrite] at hs
    cases result with
    | error => cases hs
    | ok s =>
      obtain ⟨o, -, -, -, -, -, -, hanswers⟩ :=
        writeWithID_round_trip sound_sampleLibraries hsmall hwrite
      obtain ⟨-, hget, -⟩ := hanswers s (.inl rfl)
      refine ⟨s, files, rfl, ?_, ?_⟩
      · rw [hget, if_pos (by decide)]
        exact congrArg _ (congrArg _ (by decide +kernel))
      · rw [hget, if_neg (by decide)]

end TableFile

end DistributedKV
