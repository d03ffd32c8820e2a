import Mathlib

/-!
# Framed records

A log file is a row of records, each a header of eight bytes (the payload's length and its
checksum, both cut to 32 bits) and the payload. Reading stops at the first record that is
not complete or does not check, and gives the records before it and where the last of them
ends.

Nothing says that every record reads back. A record fits (`Codec.Fits`) when its payload
is below `2 ^ 32` bytes and the decoder takes it for that record. A cut file of such
records reads as those that lie in it wholly (`replay_of_prefix`), because a torn record
announces more bytes than are left. A record whose payload the decoder refuses hides itself
and all that stands behind it (`replayFrom_refused`).

Behind the last whole record there may also be bytes that were never written (`Behind`) :
reading stops where no record starts (`replayFrom_of_noRecord`).
-/

namespace Framing

/-- What a payload is read as. -/
inductive Parsed (α : Type*)
  | record (a : α)
  | malformed
  /-- Well formed, but of a kind this reader does not know. -/
  | unknown
deriving DecidableEq

/-- How records become payloads and how payloads are read. -/
structure Codec (α : Type*) where
  marshal : α → List UInt8
  unmarshal : List UInt8 → Parsed α
  checksum : List UInt8 → UInt32

/-- The header has room for the payload's length, and the payload reads back. -/
structure Codec.Fits {α : Type*} (c : Codec α) (a : α) : Prop where
  length_lt : (c.marshal a).length < 2 ^ 32
  reads : c.unmarshal (c.marshal a) = .record a

def headerSize : Nat := 8

/-- The low 32 bits, big endian. -/
def putUint32 (n : Nat) : List UInt8 :=
  [.ofNat (n / 2 ^ 24), .ofNat (n / 2 ^ 16), .ofNat (n / 2 ^ 8), .ofNat n]

def uint32 (bytes : List UInt8) : Nat :=
  bytes.foldl (fun n b => n * 2 ^ 8 + b.toNat) 0

theorem length_putUint32 (n : Nat) : (putUint32 n).length = 4 := rfl

theorem uint32_putUint32 (n : Nat) : uint32 (putUint32 n) = n % 2 ^ 32 := by
  simp only [uint32, putUint32, List.foldl_cons, List.foldl_nil, UInt8.toNat_ofNat']
  omega

variable {α : Type*} (c : Codec α)

def encode (a : α) : List UInt8 :=
  putUint32 (c.marshal a).length ++ putUint32 (c.checksum (c.marshal a)).toNat ++ c.marshal a

def encodeAll (as : List α) : List UInt8 :=
  as.flatMap (encode c)

/-- Read records from `file`, which starts at offset `pos`. An unknown record is an error at
its offset. -/
def replayFrom (pos : Nat) (file : List UInt8) : Except Nat (List α × Nat) :=
  if file.length < headerSize then .ok ([], pos)
  else
    let length := uint32 (file.take 4)
    let wantChecksum := uint32 ((file.drop 4).take 4)
    let rest := file.drop headerSize
    if length > rest.length then .ok ([], pos)
    else if (c.checksum (rest.take length)).toNat ≠ wantChecksum then .ok ([], pos)
    else match c.unmarshal (rest.take length) with
      | .malformed => .ok ([], pos)
      | .unknown => .error pos
      | .record a =>
        (replayFrom (pos + headerSize + length) (rest.drop length)).map fun r => (a :: r.1, r.2)
termination_by file.length
decreasing_by
  simp only [List.length_drop, headerSize] at *
  omega

def replay (file : List UInt8) : Except Nat (List α × Nat) :=
  replayFrom c 0 file

variable {c}

@[simp] theorem encodeAll_nil : encodeAll c ([] : List α) = [] := rfl

@[simp] theorem encodeAll_cons (a : α) (as : List α) :
    encodeAll c (a :: as) = encode c a ++ encodeAll c as := rfl

theorem encodeAll_append (as bs : List α) :
    encodeAll c (as ++ bs) = encodeAll c as ++ encodeAll c bs :=
  List.flatMap_append ..

theorem length_encode (a : α) : (encode c a).length = headerSize + (c.marshal a).length := by
  simp [encode, length_putUint32, headerSize]
  omega

theorem replayFrom_nil (pos : Nat) : replayFrom c pos [] = .ok ([], pos) := by
  rw [replayFrom]
  simp [headerSize]

/-- What the header of a record says, and what follows it. -/
theorem header_encode_append (a : α) (rest : List UInt8) :
    uint32 ((encode c a ++ rest).take 4) = (c.marshal a).length % 2 ^ 32 ∧
    uint32 (((encode c a ++ rest).drop 4).take 4) = (c.checksum (c.marshal a)).toNat ∧
    (encode c a ++ rest).drop headerSize = c.marshal a ++ rest := by
  refine ⟨uint32_putUint32 _, (uint32_putUint32 _).trans ?_, rfl⟩
  exact Nat.mod_eq_of_lt (UInt32.toNat_lt _)

/-- A whole record is decided by what the decoder makes of its payload. -/
theorem replayFrom_encode_append {a : α} (ha : (c.marshal a).length < 2 ^ 32) (pos : Nat)
    (rest : List UInt8) :
    replayFrom c pos (encode c a ++ rest) = match c.unmarshal (c.marshal a) with
      | .malformed => .ok ([], pos)
      | .unknown => .error pos
      | .record b =>
        (replayFrom c (pos + (encode c a).length) rest).map fun r => (b :: r.1, r.2) := by
  obtain ⟨hlength, hchecksum, hrest⟩ := header_encode_append (c := c) a rest
  rw [Nat.mod_eq_of_lt ha] at hlength
  have hheader : ¬(encode c a ++ rest).length < headerSize := by
    rw [List.length_append, length_encode]
    omega
  rw [replayFrom, if_neg hheader]
  simp only [hlength, hchecksum, hrest, List.take_left, List.drop_left, length_encode,
    List.length_append]
  simp [Nat.add_assoc]

theorem Codec.Fits.replayFrom_append {a : α} (ha : c.Fits a) (pos : Nat) (rest : List UInt8) :
    replayFrom c pos (encode c a ++ rest) =
      (replayFrom c (pos + (encode c a).length) rest).map fun r => (a :: r.1, r.2) := by
  rw [replayFrom_encode_append ha.length_lt, ha.reads]

/-- A record the decoder refuses reads as nothing, and so does all behind it. -/
theorem replayFrom_refused {a : α} (ha : (c.marshal a).length < 2 ^ 32)
    (hrefused : c.unmarshal (c.marshal a) = .malformed) (pos : Nat) (rest : List UInt8) :
    replayFrom c pos (encode c a ++ rest) = .ok ([], pos) := by
  rw [replayFrom_encode_append ha, hrefused]

/-- A record that is cut short reads as nothing. -/
theorem replayFrom_torn {a : α} (ha : (c.marshal a).length < 2 ^ 32) {torn : List UInt8}
    (hstarts : torn <+: encode c a) (hlt : torn.length < (encode c a).length) (pos : Nat) :
    replayFrom c pos torn = .ok ([], pos) := by
  rw [replayFrom]
  split
  · rfl
  · next hheader =>
    obtain ⟨rest, hrest⟩ := hstarts
    -- the header is whole, and announces more than is there
    have hlength : uint32 (torn.take 4) = (c.marshal a).length := by
      have h := (header_encode_append (c := c) a []).1
      rw [List.append_nil, ← hrest, Nat.mod_eq_of_lt ha] at h
      rwa [List.take_append_of_le_length (by simp only [headerSize] at hheader; omega)] at h
    rw [length_encode] at hlt
    have hmissing : uint32 (torn.take 4) > (torn.drop headerSize).length := by
      rw [hlength, List.length_drop]
      omega
    simp only [if_pos hmissing]

theorem replayFrom_encodeAll_append : ∀ {as : List α}, (∀ a ∈ as, c.Fits a) →
    ∀ (pos : Nat) (rest : List UInt8), replayFrom c pos (encodeAll c as ++ rest) =
      (replayFrom c (pos + (encodeAll c as).length) rest).map fun r => (as ++ r.1, r.2)
  | [], _, pos, rest => by
    cases h : replayFrom c pos rest <;> simp [h, Except.map]
  | a :: as, h, pos, rest => by
    rw [List.forall_mem_cons] at h
    rw [encodeAll_cons, List.append_assoc, h.1.replayFrom_append, replayFrom_encodeAll_append h.2,
      List.length_append, Nat.add_assoc]
    cases replayFrom c (pos + ((encode c a).length + (encodeAll c as).length)) rest <;> rfl

variable (c) in
/-- What a cut behind `k` whole records leaves : nothing more is there, or the next record
is torn. -/
def Cut (as : List α) (k : Nat) (torn : List UInt8) : Prop :=
  (torn = [] ∧ as.take k = as) ∨
    ∃ a rest, as = as.take k ++ a :: rest ∧ torn <+: encode c a ∧
      torn.length < (encode c a).length

theorem exists_take_of_prefix : ∀ {as : List α} {file : List UInt8}, file <+: encodeAll c as →
    ∃ k torn, file = encodeAll c (as.take k) ++ torn ∧ Cut c as k torn
  | [], file, h => ⟨0, [], by simpa using h, Or.inl ⟨rfl, rfl⟩⟩
  | a :: as, file, h => by
    rw [encodeAll_cons] at h
    by_cases hlt : file.length < (encode c a).length
    · have hin := List.prefix_of_prefix_length_le h (List.prefix_append _ _) hlt.le
      exact ⟨0, file, by simp, Or.inr ⟨a, as, rfl, hin, hlt⟩⟩
    · obtain ⟨file, rfl⟩ := List.prefix_of_prefix_length_le (List.prefix_append _ _) h
        (Nat.not_lt.mp hlt)
      obtain ⟨k, torn, rfl, hcut⟩ := exists_take_of_prefix ((List.prefix_append_right_inj _).mp h)
      exact ⟨k + 1, torn, by simp, by simpa [Cut] using hcut⟩

theorem Cut.stops {as : List α} {k : Nat} {torn : List UInt8} (h : Cut c as k torn)
    (has : ∀ a ∈ as, c.Fits a) (pos : Nat) :
    replayFrom c pos torn = .ok ([], pos) := by
  rcases h with ⟨rfl, -⟩ | ⟨a, rest, hsplit, hstarts, hlt⟩
  · exact replayFrom_nil _
  · exact replayFrom_torn (has a (by rw [hsplit]; simp)).length_lt hstarts hlt _

/-- One record more would not fit. -/
theorem Cut.whole {as : List α} {k : Nat} {torn : List UInt8} (h : Cut c as k torn) :
    ∀ bs cs, as = bs ++ cs →
      (encodeAll c bs).length ≤ (encodeAll c (as.take k) ++ torn).length → bs <+: as.take k := by
  intro bs cs heq hle
  rcases h with ⟨-, hall⟩ | ⟨a, rest, hsplit, -, hlt⟩
  · rw [hall, heq]
    exact List.prefix_append _ _
  · rcases List.append_eq_append_iff.mp (heq.symm.trans hsplit) with ⟨ds, hds, -⟩ | ⟨ds, hds, hrest⟩
    · exact ⟨ds, hds.symm⟩
    · cases ds with
      | nil => exact ⟨[], by simpa using hds⟩
      | cons =>
        cases hrest
        rw [hds, encodeAll_append, encodeAll_cons, List.length_append, List.length_append,
          List.length_append] at hle
        omega

/-! ## Where no record starts -/

theorem putUint32_uint32 : ∀ {bytes : List UInt8}, bytes.length = 4 →
    putUint32 (uint32 bytes) = bytes
  | [b₀, b₁, b₂, b₃], _ => by
    have h₀ := b₀.toNat_lt
    have h₁ := b₁.toNat_lt
    have h₂ := b₂.toNat_lt
    have h₃ := b₃.toNat_lt
    simp only [putUint32, uint32, List.foldl_cons, List.foldl_nil, List.cons.injEq, and_true,
      ← UInt8.toNat_inj, UInt8.toNat_ofNat']
    omega

theorem uint32_lt : ∀ {bytes : List UInt8}, bytes.length = 4 → uint32 bytes < 2 ^ 32
  | [b₀, b₁, b₂, b₃], _ => by
    have h₀ := b₀.toNat_lt
    have h₁ := b₁.toNat_lt
    have h₂ := b₂.toNat_lt
    have h₃ := b₃.toNat_lt
    simp only [uint32, List.foldl_cons, List.foldl_nil]
    omega

variable (c) in
/-- A payload behind its header. -/
def frame (payload : List UInt8) : List UInt8 :=
  putUint32 payload.length ++ putUint32 (c.checksum payload).toNat ++ payload

variable (c) in
/-- No record starts here, not even one of a kind this reader does not know. -/
def NoRecord (bytes : List UInt8) : Prop :=
  ∀ payload rest, payload.length < 2 ^ 32 → bytes = frame c payload ++ rest →
    c.unmarshal payload = .malformed

/-- What the header of a frame says, and what follows it. -/
theorem header_frame_append {payload : List UInt8} (hsmall : payload.length < 2 ^ 32)
    (rest : List UInt8) :
    uint32 ((frame c payload ++ rest).take 4) = payload.length ∧
    uint32 (((frame c payload ++ rest).drop 4).take 4) = (c.checksum payload).toNat ∧
    (frame c payload ++ rest).drop headerSize = payload ++ rest :=
  ⟨(uint32_putUint32 _).trans (Nat.mod_eq_of_lt hsmall),
    (uint32_putUint32 _).trans (Nat.mod_eq_of_lt (UInt32.toNat_lt _)), rfl⟩

/-- What passes the checks of the header is a frame. -/
theorem eq_frame_append {file : List UInt8} (hheader : headerSize ≤ file.length)
    (hlength : uint32 (file.take 4) ≤ (file.drop headerSize).length)
    (hchecksum : (c.checksum ((file.drop headerSize).take (uint32 (file.take 4)))).toNat =
      uint32 ((file.drop 4).take 4)) :
    file = frame c ((file.drop headerSize).take (uint32 (file.take 4))) ++
      (file.drop headerSize).drop (uint32 (file.take 4)) := by
  simp only [headerSize] at hheader
  rw [frame, hchecksum, List.length_take_of_le hlength, putUint32_uint32 (by simp; omega),
    putUint32_uint32 (by simp; omega), List.append_assoc, List.take_append_drop,
    List.append_assoc, headerSize, ← List.drop_drop (i := 4) (j := 4), List.take_append_drop,
    List.take_append_drop]

theorem replayFrom_of_noRecord {file : List UInt8} (h : NoRecord c file) (pos : Nat) :
    replayFrom c pos file = .ok ([], pos) := by
  rw [replayFrom]
  split_ifs with hheader
  · rfl
  · dsimp only
    split_ifs with hlength hchecksum
    · rfl
    · rfl
    · have hframe := eq_frame_append (c := c) (Nat.not_lt.mp hheader) (Nat.not_lt.mp hlength)
        (not_not.mp hchecksum)
      have hsmall : uint32 (file.take 4) < 2 ^ 32 := by
        refine uint32_lt (List.length_take_of_le ?_)
        simp only [headerSize] at hheader
        omega
      rw [h _ _ ((List.length_take_le _ _).trans_lt hsmall) hframe]

/-- Reading fails at a record of an unknown kind. -/
theorem replayFrom_unknown {payload : List UInt8} (hsmall : payload.length < 2 ^ 32)
    (hunknown : c.unmarshal payload = .unknown) (pos : Nat) (rest : List UInt8) :
    replayFrom c pos (frame c payload ++ rest) = .error pos := by
  obtain ⟨hlength, hchecksum, hrest⟩ := header_frame_append (c := c) hsmall rest
  have hheader : ¬(frame c payload ++ rest).length < headerSize := by
    simp [frame, length_putUint32, headerSize]
    omega
  rw [replayFrom, if_neg hheader]
  simp [hlength, hchecksum, hrest, hunknown]

variable (c) in
/-- What may stand behind the `torn` part of a record : nothing, bytes with which no record
starts there, or, where the torn record's header is whole, bytes that its checksum
rejects. -/
inductive Behind (torn junk : List UInt8) : Prop
  | nothing (hnone : junk = [])
  | noRecord (hno : NoRecord c (torn ++ junk))
  | rejected (a : α) (hsmall : (c.marshal a).length < 2 ^ 32) (hstarts : torn <+: encode c a)
      (hheader : headerSize ≤ torn.length)
      (hrejects : c.checksum (((torn ++ junk).drop headerSize).take (c.marshal a).length) ≠
        c.checksum (c.marshal a))

/-- The header of a torn record asks for that record's payload and no other. -/
theorem noRecord_of_rejected {a : α} {torn junk : List UInt8}
    (hsmall : (c.marshal a).length < 2 ^ 32) (hstarts : torn <+: encode c a)
    (hheader : headerSize ≤ torn.length)
    (hrejects : c.checksum (((torn ++ junk).drop headerSize).take (c.marshal a).length) ≠
      c.checksum (c.marshal a)) : NoRecord c (torn ++ junk) := by
  intro payload rest hpayload heq
  obtain ⟨hlength, hchecksum, hrest⟩ := header_frame_append (c := c) hpayload rest
  obtain ⟨missing, hmissing⟩ := hstarts
  have hwritten : encode c a = frame c (c.marshal a) ++ [] := (List.append_nil _).symm
  obtain ⟨hlength', hchecksum', -⟩ := header_frame_append (c := c) hsmall []
  simp only [headerSize] at hheader
  -- both headers are the first eight bytes of `torn`
  rw [← heq, List.take_append_of_le_length (by omega)] at hlength
  rw [← hwritten, ← hmissing, List.take_append_of_le_length (by omega), hlength] at hlength'
  rw [← heq, List.drop_append_of_le_length (by omega),
    List.take_append_of_le_length (by simp; omega)] at hchecksum
  rw [← hwritten, ← hmissing, List.drop_append_of_le_length (by omega),
    List.take_append_of_le_length (by simp; omega), hchecksum] at hchecksum'
  rw [heq, hrest, ← hlength', List.take_left] at hrejects
  exact absurd (UInt32.toNat_inj.mp hchecksum') hrejects

/-- Reading stops behind the last whole record of a cut file, whatever else is there. -/
theorem Cut.stops_behind {as : List α} {k : Nat} {torn junk : List UInt8}
    (h : Cut c as k torn) (has : ∀ a ∈ as, c.Fits a)
    (hjunk : Behind c torn junk) (pos : Nat) : replayFrom c pos (torn ++ junk) = .ok ([], pos) := by
  cases hjunk with
  | nothing hnone =>
    rw [hnone, List.append_nil]
    exact h.stops has pos
  | noRecord hno => exact replayFrom_of_noRecord hno pos
  | rejected a hsmall hstarts hheader hrejects =>
    exact replayFrom_of_noRecord (noRecord_of_rejected hsmall hstarts hheader hrejects) pos

/-- A cut file reads as the records that lie in it wholly, from whatever offset. -/
theorem replayFrom_of_prefix {as : List α} (has : ∀ a ∈ as, c.Fits a)
    {file : List UInt8} (h : file <+: encodeAll c as) :
    ∃ k, (∀ pos, replayFrom c pos file = .ok (as.take k, pos + (encodeAll c (as.take k)).length)) ∧
      encodeAll c (as.take k) <+: file ∧
      ∀ bs cs, as = bs ++ cs → (encodeAll c bs).length ≤ file.length → bs <+: as.take k := by
  obtain ⟨k, torn, rfl, hcut⟩ := exists_take_of_prefix h
  refine ⟨k, fun pos => ?_, List.prefix_append _ _, hcut.whole⟩
  rw [replayFrom_encodeAll_append fun a ha => has a (List.mem_of_mem_take ha), hcut.stops has]
  simp [Except.map]

theorem replay_of_prefix {as : List α} (has : ∀ a ∈ as, c.Fits a)
    {file : List UInt8} (h : file <+: encodeAll c as) :
    ∃ k, replay c file = .ok (as.take k, (encodeAll c (as.take k)).length) ∧
      encodeAll c (as.take k) <+: file ∧
      ∀ bs cs, as = bs ++ cs → (encodeAll c bs).length ≤ file.length → bs <+: as.take k := by
  obtain ⟨k, hk, hrest⟩ := replayFrom_of_prefix has h
  exact ⟨k, by simpa [replay] using hk 0, hrest⟩

/-- Some codec reads all records back, and has short payloads for given ones. -/
theorem exists_codec [Countable α] (xs : List α) : ∃ c : Codec α,
    (∀ a, c.unmarshal (c.marshal a) = .record a) ∧
      ∀ x ∈ xs, (c.marshal x).length ≤ xs.length := by
  classical
  obtain ⟨f, hf⟩ := exists_injective_nat α
  let marshal : α → List UInt8 := fun e =>
    if e ∈ xs then List.replicate (xs.idxOf e + 1) 0 else 1 :: List.replicate (f e) 0
  have hinj : Function.Injective marshal := by
    intro a b h
    by_cases ha : a ∈ xs <;> by_cases hb : b ∈ xs <;>
      simp only [marshal, ha, hb, if_true, if_false, List.replicate_succ] at h
    · exact (List.idxOf_inj ha).mp (by simpa using congrArg List.length h)
    · simp at h
    · simp at h
    · exact hf (by simpa using congrArg List.length h)
  refine ⟨⟨marshal, fun bytes => if h : ∃ e, marshal e = bytes then .record h.choose else .malformed,
    fun _ => 0⟩, fun a => ?_, fun x hx => ?_⟩
  · have h : ∃ e, marshal e = marshal a := ⟨a, rfl⟩
    simp only [dif_pos h, hinj h.choose_spec]
  · simpa [marshal, hx] using List.idxOf_lt_length_of_mem hx

end Framing
