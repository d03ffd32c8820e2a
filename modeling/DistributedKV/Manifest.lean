import Mathlib

/-!
# The MANIFEST

The MANIFEST is an append-only file of lines `ADD id` and `REMOVE id id ...`; replaying
it gives the set of live SSTable IDs. Its text is a list of characters here, one per byte
as every line is ASCII. Replay reads up to the last newline, so a torn last line is
skipped; it stays in the file, and the next line is appended right behind it.

A call appends some number of bytes of its line, all of them when it returns nil.
`replay_append_line` and `replay_append_torn` say what an append at the start of a line
does to the next replay, and `live_of_run` carries that over every run of calls and
reopens in which each call finds the file empty or ended by a newline.
`torn_line_breaks_open` is the run that does not.
-/

namespace DistributedKV

/-- The live SSTable IDs. -/
abbrev Live := Std.ExtTreeSet String

/-- The white space of `strings.Fields`. -/
def isSpace (c : Char) : Bool :=
  c ∈ ['\t', '\n', Char.ofNat 11, Char.ofNat 12, '\r', ' ', Char.ofNat 133, Char.ofNat 160,
    Char.ofNat 5760, Char.ofNat 8232, Char.ofNat 8233, Char.ofNat 8239, Char.ofNat 8287,
    Char.ofNat 12288] || (8192 ≤ c.toNat && c.toNat ≤ 8202)

/-- `strings.Fields` : the maximal parts without white space. -/
def fields (line : List Char) : List String :=
  ((line.splitOnP isSpace).filter fun part => part ≠ []).map String.ofList

/-- Why a line is malformed. -/
inductive LineError
  | tooFewFields (line : List Char)
  | addNeedsOneID (line : List Char)
  | unknownOperation (op : String)
deriving DecidableEq

/-- Apply one complete line to the live set. -/
def applyLine (live : Live) (line : List Char) : Except LineError Live :=
  match fields line with
  | op :: id :: more =>
    if op = "ADD" then
      if more = [] then .ok (live.insert id) else .error (.addNeedsOneID line)
    else if op = "REMOVE" then .ok ((id :: more).foldl (fun live id => live.erase id) live)
    else .error (.unknownOperation op)
  | _ => .error (.tooFewFields line)

/-- One round of the loop of replay : an empty line is skipped. -/
def replayLine (live : Live) (line : List Char) : Except LineError Live :=
  if line = [] then .ok live else applyLine live line

/-- The text in front of the last newline, nothing if there is none. -/
def completePart (content : List Char) : Option (List Char) :=
  match content.reverse.dropWhile fun c => c ≠ '\n' with
  | [] => none
  | _ :: rest => some rest.reverse

/-- Rebuild the live set from the file's text. -/
def replay (content : List Char) : Except LineError Live :=
  match completePart content with
  | none => .ok ∅
  | some complete => (complete.splitOnP fun c => c = '\n').foldlM replayLine ∅

/-- A call that appends a line. -/
inductive Call
  | add (id : String)
  | remove (ids : List String)
deriving DecidableEq

namespace Call

/-- The line of a call, without its newline : `ADD id`, or `REMOVE` and the IDs joined by
blanks. -/
def line : Call → List Char
  | add id => ['A', 'D', 'D'] ++ ' ' :: id.toList
  | remove ids =>
    ['R', 'E', 'M', 'O', 'V', 'E'] ++ ' ' :: [' '].intercalate (ids.map String.toList)

/-- What a call writes; removing nothing writes nothing. -/
def bytes : Call → List Char
  | remove [] => []
  | c => c.line ++ ['\n']

/-- What a call means for the live set. -/
def apply : Call → Live → Live
  | add id, live => live.insert id
  | remove ids, live => ids.foldl (fun live id => live.erase id) live

end Call

/-- An open MANIFEST : the text of its file and the live set in memory. -/
structure Manifest where
  file : List Char
  live : Live
deriving DecidableEq

namespace Manifest

/-- A new data directory's MANIFEST. -/
def create : Manifest :=
  ⟨[], ∅⟩

/-- Open the MANIFEST of a directory. -/
def openFile (file : List Char) : Except LineError Manifest :=
  (replay file).map (Manifest.mk file)

/-- A call of which `written` bytes reached the file; it returns nil when `ok`, and only
then changes the live set in memory. -/
def call (m : Manifest) (c : Call) (written : Nat) (ok : Bool) : Manifest :=
  ⟨m.file ++ c.bytes.take written, if ok then c.apply m.live else m.live⟩

end Manifest

/-! ## Lines -/

/-- An ID as SSTables have them : visible ASCII characters, at least one. -/
def ValidID (id : String) : Prop :=
  id.toList ≠ [] ∧ ∀ c ∈ id.toList, 33 ≤ c.toNat ∧ c.toNat ≤ 126

/-- A call made with valid IDs. -/
def Call.Valid : Call → Prop
  | .add id => ValidID id
  | .remove ids => ∀ id ∈ ids, ValidID id

/-- The file is empty or its last line is complete. -/
def AtLineStart (file : List Char) : Prop :=
  file = [] ∨ file.getLast? = some '\n'

instance (file : List Char) : Decidable (AtLineStart file) :=
  inferInstanceAs (Decidable (_ ∨ _))

theorem isSpace_of_visible {c : Char} (h : 33 ≤ c.toNat ∧ c.toNat ≤ 126) : isSpace c = false := by
  have hall : ∀ n, n ≤ 126 → 33 ≤ n → isSpace (Char.ofNat n) = false := by decide
  simpa using hall c.toNat h.2 h.1

theorem ValidID.not_isSpace {id : String} (h : ValidID id) : ∀ c ∈ id.toList, isSpace c = false :=
  fun c hc => isSpace_of_visible (h.2 c hc)

/-- The fields of two texts with white space between them. -/
theorem fields_append_space (a b : List Char) : fields (a ++ ' ' :: b) = fields a ++ fields b := by
  simp only [fields, List.splitOnP_append_cons a b (by decide : isSpace ' ' = true),
    List.filter_append, List.map_append]

theorem fields_of_not_isSpace {a : List Char} (hne : a ≠ []) (h : ∀ c ∈ a, isSpace c = false) :
    fields a = [String.ofList a] := by
  simp [fields, List.splitOnP_eq_singleton h, hne]

theorem ValidID.fields_eq {id : String} (h : ValidID id) : fields id.toList = [id] := by
  rw [fields_of_not_isSpace h.1 h.not_isSpace, String.ofList_toList]

theorem intercalate_cons_cons (id id' : String) (ids : List String) :
    [' '].intercalate ((id :: id' :: ids).map String.toList) =
      id.toList ++ ' ' :: [' '].intercalate ((id' :: ids).map String.toList) := by
  simp [List.intercalate]

theorem fields_intercalate : ∀ (ids : List String), (∀ id ∈ ids, ValidID id) →
    fields ([' '].intercalate (ids.map String.toList)) = ids
  | [], _ => by decide
  | [id], h => by simpa [List.intercalate] using (h id (by simp)).fields_eq
  | id :: id' :: ids, h => by
    have ih := fields_intercalate (id' :: ids) fun i hi => h i (List.mem_cons_of_mem _ hi)
    rw [intercalate_cons_cons, fields_append_space, (h id (by simp)).fields_eq, ih]
    rfl

theorem fields_add {id : String} (h : ValidID id) : fields (Call.add id).line = ["ADD", id] := by
  have hword : fields ['A', 'D', 'D'] = ["ADD"] := by decide
  rw [Call.line, fields_append_space, h.fields_eq, hword]
  rfl

theorem fields_remove {ids : List String} (h : ∀ id ∈ ids, ValidID id) :
    fields (Call.remove ids).line = "REMOVE" :: ids := by
  have hword : fields ['R', 'E', 'M', 'O', 'V', 'E'] = ["REMOVE"] := by decide
  rw [Call.line, fields_append_space, fields_intercalate ids h, hword]
  rfl

/-- The line of a call, once complete, does what the call means. -/
theorem applyLine_line {c : Call} (hc : c.Valid) (hne : c ≠ .remove []) (live : Live) :
    applyLine live c.line = .ok (c.apply live) := by
  cases c with
  | add => simp [applyLine, fields_add hc, Call.apply]
  | remove ids =>
    cases ids with
    | nil => exact absurd rfl hne
    | cons => simp [applyLine, fields_remove hc, Call.apply]

theorem ValidID.no_newline {id : String} (h : ValidID id) : '\n' ∉ id.toList := by
  intro hmem
  have := h.not_isSpace _ hmem
  exact absurd this (by decide)

theorem no_newline_intercalate : ∀ (ids : List String), (∀ id ∈ ids, ValidID id) →
    '\n' ∉ [' '].intercalate (ids.map String.toList)
  | [], _ => by simp [List.intercalate]
  | [id], h => by simpa [List.intercalate] using (h id (by simp)).no_newline
  | id :: id' :: ids, h => by
    have ih := no_newline_intercalate (id' :: ids) fun i hi => h i (List.mem_cons_of_mem _ hi)
    rw [intercalate_cons_cons]
    simp only [List.mem_append, List.mem_cons, not_or]
    exact ⟨(h id (by simp)).no_newline, by decide, ih⟩

theorem Call.Valid.no_newline {c : Call} (hc : c.Valid) : '\n' ∉ c.line := by
  cases c with
  | add =>
    have := ValidID.no_newline hc
    simpa [Call.line] using this
  | remove ids =>
    have := no_newline_intercalate ids hc
    simpa [Call.line] using this

theorem Call.line_ne_nil (c : Call) : c.line ≠ [] := by
  cases c <;> simp [Call.line]

/-! ## Appending to the file -/

theorem completePart_append_torn (file : List Char) {torn : List Char} (h : '\n' ∉ torn) :
    completePart (file ++ torn) = completePart file := by
  have hdrop : (torn.reverse ++ file.reverse).dropWhile (fun c => c ≠ '\n') =
      file.reverse.dropWhile fun c => c ≠ '\n' := by
    refine List.dropWhile_append_of_pos fun c hc => ?_
    have : c ≠ '\n' := fun he => h (he ▸ List.mem_reverse.mp hc)
    simpa using this
  unfold completePart
  rw [List.reverse_append, hdrop]

theorem completePart_newline (file : List Char) : completePart (file ++ ['\n']) = some file := by
  simp [completePart]

/-- A tail without a newline is skipped. -/
theorem replay_append_torn (file : List Char) {torn : List Char} (h : '\n' ∉ torn) :
    replay (file ++ torn) = replay file := by
  unfold replay
  rw [completePart_append_torn file h]

/-- A complete line appended at the start of a line is applied after the rest. -/
theorem replay_append_line {file line : List Char} (hfile : AtLineStart file)
    (hline : '\n' ∉ line) (hne : line ≠ []) :
    replay (file ++ (line ++ ['\n'])) = (replay file).bind fun live => applyLine live line := by
  have hsingle : line.splitOnP (fun c => c = '\n') = [line] :=
    List.splitOnP_eq_singleton fun c hc => by
      have : c ≠ '\n' := fun he => hline (he ▸ hc)
      simpa using this
  have hlast : ∀ live, [line].foldlM replayLine live = applyLine live line := by
    intro live
    simp [replayLine, hne]
  rw [← List.append_assoc]
  unfold replay
  rw [completePart_newline]
  rcases hfile with rfl | hnl
  · simp only [List.nil_append, hsingle, hlast]
    rfl
  · obtain ⟨g, rfl⟩ := List.getLast?_eq_some_iff.mp hnl
    rw [completePart_newline, List.append_assoc, List.singleton_append]
    simp only
    rw [List.splitOnP_append_cons g line (by decide), List.foldlM_append, hsingle]
    simp only [hlast]
    rfl

theorem Call.bytes_eq {c : Call} (h : c ≠ .remove []) : c.bytes = c.line ++ ['\n'] := by
  match c, h with
  | .add _, _ => rfl
  | .remove [], h => exact absurd rfl h
  | .remove (_ :: _), _ => rfl

theorem take_append_newline {line : List Char} {written : Nat}
    (h : ¬(line ++ ['\n']).length ≤ written) :
    (line ++ ['\n']).take written = line.take written := by
  refine List.take_append_of_le_length ?_
  simp only [List.length_append, List.length_singleton] at h
  omega

/-- What a call leaves for the next replay : nothing while its line is torn, its whole
meaning once the line is complete. -/
theorem replay_call {file : List Char} {live : Live} {c : Call} (hfile : AtLineStart file)
    (hlive : replay file = .ok live) (hc : c.Valid) (written : Nat) :
    replay (file ++ c.bytes.take written) =
      .ok (if c.bytes.length ≤ written then c.apply live else live) := by
  by_cases hne : c = .remove []
  · subst hne
    simpa [Call.bytes, Call.apply] using hlive
  · rw [Call.bytes_eq hne]
    by_cases hlen : (c.line ++ ['\n']).length ≤ written
    · rw [List.take_of_length_le hlen, if_pos hlen,
        replay_append_line hfile hc.no_newline c.line_ne_nil, hlive]
      exact applyLine_line hc hne live
    · rw [if_neg hlen, take_append_newline hlen, replay_append_torn file fun hmem =>
        hc.no_newline (List.mem_of_mem_take hmem)]
      exact hlive

/-! ## Appending behind a torn line -/

theorem mem_foldl_erase {x : String} : ∀ {ids : List String} {live : Live},
    x ∈ ids.foldl (fun live id => live.erase id) live ↔ x ∈ live ∧ x ∉ ids
  | [], _ => by simp
  | id :: ids, live => by
    rw [List.foldl_cons, mem_foldl_erase, Std.ExtTreeSet.mem_erase, List.mem_cons, not_or]
    simp only [ne_eq, Std.compare_eq_iff_eq, eq_comm (a := id)]
    tauto

/-- Any text is complete lines, and then a tail without a newline. -/
theorem exists_tail (file : List Char) :
    ∃ lines tail, file = lines ++ tail ∧ AtLineStart lines ∧ '\n' ∉ tail := by
  refine ⟨(file.reverse.dropWhile fun c => c ≠ '\n').reverse,
    (file.reverse.takeWhile fun c => c ≠ '\n').reverse, ?_, ?_, ?_⟩
  · rw [← List.reverse_append, List.takeWhile_append_dropWhile, List.reverse_reverse]
  · cases h : file.reverse.dropWhile fun c => c ≠ '\n' with
    | nil => exact Or.inl rfl
    | cons c =>
      have hc := List.head?_dropWhile_not (fun c => decide (c ≠ '\n')) file.reverse
      rw [h] at hc
      right
      simpa using hc
  · intro hmem
    have := List.mem_takeWhile_imp (List.mem_reverse.mp hmem)
    simp at this

/-- A complete line appended to any text is read together with the tail before it. -/
theorem replay_append_behind (file : List Char) {line : List Char} (hline : '\n' ∉ line)
    (hne : line ≠ []) : ∃ tail : List Char,
    replay (file ++ (line ++ ['\n'])) =
      (replay file).bind fun live => applyLine live (tail ++ line) := by
  obtain ⟨lines, tail, rfl, hstart, htail⟩ := exists_tail file
  refine ⟨tail, ?_⟩
  rw [replay_append_torn lines htail, List.append_assoc, ← List.append_assoc tail,
    replay_append_line hstart (by simp [hline, htail]) (by simp [hne])]

/-- Whatever stands before a word without white space, the last field ends in the word. -/
theorem fields_append_word (tail word : List Char) (hne : word ≠ [])
    (hword : ∀ c ∈ word, isSpace c = false) :
    ∃ front rest, fields (tail ++ word) = front ++ [String.ofList (rest ++ word)] := by
  induction tail using List.reverseRecOn generalizing word with
  | nil => exact ⟨[], [], by simp [fields_of_not_isSpace hne hword]⟩
  | append_singleton tail c ih =>
    by_cases hc : isSpace c = true
    · refine ⟨fields tail, [], ?_⟩
      rw [List.nil_append, ← fields_of_not_isSpace hne hword, List.append_assoc,
        List.singleton_append]
      simp only [fields, List.splitOnP_append_cons tail word hc, List.filter_append,
        List.map_append]
    · have hc' : isSpace c = false := by simpa using hc
      obtain ⟨front, rest, h⟩ := ih (c :: word) (by simp) (by simpa [hc'] using hword)
      refine ⟨front, rest ++ [c], ?_⟩
      simpa using h

/-- Behind any tail, a complete ADD line adds no other ID than its own. -/
theorem mem_of_applyLine_add {live live' : Live} {tail : List Char} {id x : String}
    (hid : ValidID id) (h : applyLine live (tail ++ (Call.add id).line) = .ok live')
    (hx : x ∈ live') : x = id ∨ x ∈ live := by
  have hfields : fields (tail ++ (Call.add id).line) = fields (tail ++ ['A', 'D', 'D']) ++ [id] := by
    rw [Call.line, ← List.append_assoc, fields_append_space, hid.fields_eq]
  unfold applyLine at h
  rw [hfields] at h
  split at h
  · next op id' more heq =>
    split at h
    · split at h
      · next hmore =>
        subst hmore
        obtain rfl : live.insert id' = live' := by simpa using h
        have hlast : id = id' := by
          have := congrArg List.getLast? heq
          simpa using this
        rcases Std.ExtTreeSet.mem_insert.mp hx with hx | hx
        · exact Or.inl (by rw [hlast]; exact (Std.compare_eq_iff_eq.mp hx).symm)
        · exact Or.inr hx
      · simp at h
    · split at h
      · obtain rfl := Except.ok.inj h
        exact Or.inr (mem_foldl_erase.mp hx).1
      · simp at h
  · simp at h

/-- Behind any tail, a complete REMOVE line, if it can be read at all, removes its IDs and
adds none. -/
theorem mem_of_applyLine_remove {live live' : Live} {tail : List Char} {ids : List String}
    {x : String} (hids : ∀ id ∈ ids, ValidID id) (hne : ids ≠ [])
    (h : applyLine live (tail ++ (Call.remove ids).line) = .ok live') (hx : x ∈ live') :
    x ∈ live ∧ x ∉ ids := by
  obtain ⟨front, rest, hword⟩ := fields_append_word tail ['R', 'E', 'M', 'O', 'V', 'E'] (by simp)
    (by simp [isSpace])
  have hfields : fields (tail ++ (Call.remove ids).line) =
      front ++ String.ofList (rest ++ ['R', 'E', 'M', 'O', 'V', 'E']) :: ids := by
    rw [Call.line, ← List.append_assoc, fields_append_space, fields_intercalate ids hids, hword,
      List.append_assoc, List.singleton_append]
  unfold applyLine at h
  rw [hfields] at h
  split at h
  · next op id' more heq =>
    split at h
    · next hop =>
      split at h
      · next hmore =>
        -- two fields only : then the operation would be the field that ends in the word
        subst hmore hop
        have hlen := congrArg List.length heq
        have hpos := List.length_pos_of_ne_nil hne
        simp only [List.length_append, List.length_cons, List.length_nil] at hlen
        have hfront : front = [] := List.eq_nil_of_length_eq_zero (by omega)
        subst hfront
        have hadd : "ADD".toList = ['A', 'D', 'D'] := by decide
        have hhead := congrArg String.toList (List.cons.inj heq).1
        rw [String.toList_ofList, hadd] at hhead
        simpa using congrArg List.length hhead
      · simp at h
    · split at h
      · obtain rfl := Except.ok.inj h
        obtain ⟨hlive, hnot⟩ := mem_foldl_erase.mp hx
        refine ⟨hlive, fun hmem => hnot ?_⟩
        have htail : ids <:+ id' :: more := by
          have hsuf : ids <:+ op :: id' :: more := by
            rw [← heq, ← List.singleton_append, ← List.append_assoc]
            exact List.suffix_append _ _
          rcases List.suffix_cons_iff.mp hsuf with h | h
          · have hlen := congrArg List.length (h ▸ heq)
            simp only [List.length_append, List.length_cons] at hlen
            omega
          · exact h
        exact htail.subset hmem
      · simp at h
  · simp at h

/-- A replay of the text succeeds and lists the ID as live. -/
def Listed (file : List Char) (id : String) : Prop :=
  ∃ live, replay file = .ok live ∧ id ∈ live

/-- Whatever tail the file ends in and however much of the line is written, an Add lists
no ID that was not listed before or is its own. -/
theorem listed_append_add {file : List Char} {id x : String} {written : Nat} (hid : ValidID id)
    (h : Listed (file ++ (Call.add id).bytes.take written) x) :
    Listed file x ∨ (x = id ∧ (Call.add id).bytes.length ≤ written) := by
  obtain ⟨live', h, hx⟩ := h
  have hc : (Call.add id).Valid := hid
  rw [Call.bytes_eq (c := .add id) (by simp)] at h ⊢
  by_cases hlen : ((Call.add id).line ++ ['\n']).length ≤ written
  · rw [List.take_of_length_le hlen] at h
    obtain ⟨tail, heq⟩ := replay_append_behind file hc.no_newline (Call.line_ne_nil _)
    rw [heq] at h
    cases hlive : replay file with
    | error => simp [hlive, Except.bind] at h
    | ok live =>
      simp only [hlive, Except.bind] at h
      exact (mem_of_applyLine_add hid h hx).symm.imp (fun hx => ⟨live, hlive, hx⟩) fun h => ⟨h, hlen⟩
  · rw [take_append_newline hlen, replay_append_torn file fun hmem =>
      hc.no_newline (List.mem_of_mem_take hmem)] at h
    exact Or.inl ⟨live', h, hx⟩

/-- A Remove lists no new ID, and once its line is complete none of its own. -/
theorem listed_append_remove {file : List Char} {ids : List String} {x : String} {written : Nat}
    (hids : ∀ id ∈ ids, ValidID id)
    (h : Listed (file ++ (Call.remove ids).bytes.take written) x) :
    Listed file x ∧ ((Call.remove ids).bytes.length ≤ written → x ∉ ids) := by
  by_cases hne : ids = []
  · subst hne
    simpa [Call.bytes] using h
  obtain ⟨live', h, hx⟩ := h
  have hc : (Call.remove ids).Valid := hids
  rw [Call.bytes_eq (c := .remove ids) (by simpa using hne)] at h ⊢
  by_cases hlen : ((Call.remove ids).line ++ ['\n']).length ≤ written
  · rw [List.take_of_length_le hlen] at h
    obtain ⟨tail, heq⟩ := replay_append_behind file hc.no_newline (Call.line_ne_nil _)
    rw [heq] at h
    cases hlive : replay file with
    | error => simp [hlive, Except.bind] at h
    | ok live =>
      simp only [hlive, Except.bind] at h
      exact (mem_of_applyLine_remove hids hne h hx).imp (fun hx => ⟨live, hlive, hx⟩) fun h _ => h
  · rw [take_append_newline hlen, replay_append_torn file fun hmem =>
      hc.no_newline (List.mem_of_mem_take hmem)] at h
    exact ⟨⟨live', h, hx⟩, fun h => absurd h hlen⟩

/-! ## Runs of calls and reopens -/

namespace Manifest

/-- A call of which `written` bytes reach the file, or an Open after a crash or a close. -/
inductive Event
  | call (c : Call) (written : Nat) (ok : Bool)
  | reopen
deriving DecidableEq

def step (m : Manifest) : Event → Except LineError Manifest
  | .call c written ok => .ok (m.call c written ok)
  | .reopen => openFile m.file

/-- Calls come with valid IDs, and return nil only once the whole line is written. -/
def Possible (_ : Manifest) : Event → Prop
  | .call c written ok => c.Valid ∧ (ok = true → c.bytes.length ≤ written)
  | .reopen => True

/-- A possible event, and if it is a call, one that finds no torn line in the file. -/
def AfterNoTear (m : Manifest) : Event → Prop
  | .call c written ok => Possible m (.call c written ok) ∧ AtLineStart m.file
  | .reopen => True

/-- A run from a new MANIFEST in which every event is allowed where it happens. -/
inductive Run (allowed : Manifest → Event → Prop) : List Event → Manifest → Prop
  | start : Run allowed [] create
  | step {es : List Event} {m m' : Manifest} {e : Event} (hrun : Run allowed es m)
      (he : allowed m e) (hstep : m.step e = .ok m') : Run allowed (es ++ [e]) m'

/-- The live sets the events may produce : a call that returned nil is applied, any other
call is applied in full or not at all. -/
inductive Produces : List Event → Live → Prop
  | nil : Produces [] ∅
  | returned {es live c written} (h : Produces es live) :
      Produces (es ++ [.call c written true]) (c.apply live)
  | tornApplied {es live c written} (h : Produces es live) :
      Produces (es ++ [.call c written false]) (c.apply live)
  | tornLost {es live c written} (h : Produces es live) :
      Produces (es ++ [.call c written false]) live
  | reopen {es live} (h : Produces es live) : Produces (es ++ [.reopen]) live

/-- In every run whose calls find no torn line, an Open succeeds at every point, with a
live set the calls so far produce. -/
theorem live_of_run {es : List Event} {m : Manifest} (h : Run AfterNoTear es m) :
    ∃ m', m.step .reopen = .ok m' ∧ Produces es m'.live := by
  suffices hreplay : ∃ live, replay m.file = .ok live ∧ Produces es live by
    obtain ⟨live, hlive, hprod⟩ := hreplay
    exact ⟨⟨m.file, live⟩, by simp [step, openFile, hlive, Except.map], hprod⟩
  induction h with
  | start => exact ⟨∅, by decide, .nil⟩
  | @step es m m' e hrun he hstep ih =>
    obtain ⟨live, hlive, hprod⟩ := ih
    cases e with
    | reopen =>
      have hm : m' = ⟨m.file, live⟩ := by
        simpa [step, openFile, hlive, Except.map] using hstep.symm
      exact ⟨live, hm ▸ hlive, .reopen hprod⟩
    | call c written ok =>
      obtain ⟨⟨hc, hok⟩, hfile⟩ := he
      obtain rfl : m.call c written ok = m' := by simpa [step] using hstep
      refine ⟨_, replay_call hfile hlive hc written, ?_⟩
      cases ok with
      | true => exact if_pos (hok rfl) ▸ .returned hprod
      | false =>
        split
        · exact .tornApplied hprod
        · exact .tornLost hprod

/-- One ID added and then a second one torn after five bytes. -/
def tornOnce : List Event :=
  [.call (.add "sst_1") 10 true, .call (.add "sst_2") 5 false]

/-- The text the two calls leave behind. -/
def tornFile : List Char :=
  (Call.add "sst_1").bytes ++ (Call.add "sst_2").bytes.take 5

theorem valid_add_sst : (Call.add "sst_1").Valid ∧ (Call.add "sst_2").Valid ∧
    (Call.add "sst_3").Valid := by
  simp [Call.Valid, ValidID]

theorem run_tornOnce : Run AfterNoTear tornOnce ⟨tornFile, {"sst_1"}⟩ :=
  (Run.start.step ⟨⟨valid_add_sst.1, fun _ => by decide⟩, by decide⟩ rfl).step
    ⟨⟨valid_add_sst.2.1, by decide⟩, by decide⟩ (by decide)

theorem live_of_tornOnce :
    ∃ m', step ⟨tornFile, {"sst_1"}⟩ .reopen = .ok m' ∧ Produces tornOnce m'.live :=
  live_of_run run_tornOnce

/-- After a reopen the next Add lands behind the torn line : the line it makes of both is
malformed, and every later Open fails on it. -/
theorem torn_line_breaks_open :
    ∃ es m, Run Possible es m ∧ m.step .reopen = .error (.addNeedsOneID "ADD sADD sst_3".toList) := by
  have htorn : Run Possible tornOnce ⟨tornFile, {"sst_1"}⟩ :=
    (Run.start.step ⟨valid_add_sst.1, fun _ => by decide⟩ rfl).step
      ⟨valid_add_sst.2.1, by decide⟩ (by decide)
  have hopen : Run Possible (tornOnce ++ [.reopen]) ⟨tornFile, {"sst_1"}⟩ :=
    htorn.step trivial (by decide)
  have hadd := hopen.step (e := .call (.add "sst_3") 10 true)
    ⟨valid_add_sst.2.2, fun _ => by decide⟩ rfl
  exact ⟨_, _, hadd, by decide⟩

end Manifest

end DistributedKV
