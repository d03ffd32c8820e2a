import DistributedKV.Coordinator
import DistributedKV.Delimiters

/-!
# Memberships

A view is a member set at an epoch, with the ring and the fingerprint made of it. A node
holds one in memory and, unless it is the view of its configuration, in its MEMBERSHIP
file. `SetMembership` checks a member set, compares its epoch and fingerprint with those of
the view held (`decideMembership`), writes the file and only then publishes the view.

* `fingerprint_inj` : views of different members, addresses or N have different
  fingerprints;
* `loadMembership_written` : what was written is what will be loaded;
* `setMembership_refused_iff` : a refused change leaves the view and the file alone, unless
  the file was renamed into place and the sync of the directory failed.
-/

namespace DistributedKV

/-! ## Files that are replaced as a whole -/

/-- The steps of `WriteFileAtomic`. -/
inductive WritePoint
  | create
  | write
  | sync
  | close
  | rename
  | syncDir
deriving DecidableEq

/-- What can be read from a file. -/
inductive Decoded (α : Type*)
  | record (a : α)
  | corrupt

/-- A file and the temporary file beside it. -/
structure AtomicFile (α : Type*) where
  path : Option (Decoded α)
  tmp : Option (Decoded α)

/-- `WriteFileAtomic`, with the step that fails, if one does : the failing step and the files
after it. -/
def AtomicFile.writeFileAtomic {α : Type*} (f : AtomicFile α) (data : α) :
    Option WritePoint → Option WritePoint × AtomicFile α
  | some .create => (some .create, f)
  | some .write => (some .write, { f with tmp := some .corrupt })
  | some .sync => (some .sync, { f with tmp := some (.record data) })
  | some .close => (some .close, { f with tmp := some (.record data) })
  | some .rename => (some .rename, { f with tmp := some (.record data) })
  -- the rename has replaced the file
  | some .syncDir => (some .syncDir, ⟨some (.record data), none⟩)
  | none => (none, ⟨some (.record data), none⟩)

namespace AtomicFile

variable {α : Type*} (f : AtomicFile α) (data : α)

@[simp] theorem error_writeFileAtomic (fault : Option WritePoint) :
    (f.writeFileAtomic data fault).1 = fault := by
  rcases fault with _ | _ | _ | _ | _ | _ | _ <;> rfl

/-- The new data is in place once the rename is done. -/
theorem path_writeFileAtomic (fault : Option WritePoint) :
    (f.writeFileAtomic data fault).2.path =
      if fault = none ∨ fault = some .syncDir then some (.record data) else f.path := by
  rcases fault with _ | _ | _ | _ | _ | _ | _ <;> rfl

end AtomicFile

/-! ## Views -/

/-- Node ID to address. -/
abbrev Members := Std.ExtTreeMap String String

/-- `%q` and SHA-256. A quoted text can be read back to where it ends, and no two texts are
known with the same digest. -/
structure Fingerprinter where
  quote : String → String
  quote_inj : Function.Injective quote
  quote_closed : ∀ s sep, sep ≠ '"' → Delimiters.Closed sep .outside (quote s).toList
  sha256 : String → String
  sha256_inj : Function.Injective sha256

def defaultVirtualNodesPerPhysical : Nat := 150

def ringScheme : String := "ring-v1"

/-- An immutable snapshot of cluster membership. -/
structure ClusterView where
  epoch : Nat
  fingerprint : String
  members : Members
  ring : HashRing

/-- Why a member set can't become a view. -/
inductive InvalidMembership
  | noMembers
  | tooFew (count n : Nat)
  | emptyID
  | badID (id : String)
  | emptyAddress (id : String)
  | sharedAddress (other id addr : String)
deriving DecidableEq

def InvalidMembership.text (quote : String → String) : InvalidMembership → String
  | .noMembers => "membership: no members"
  | .tooFew count n => "membership: " ++ Nat.repr count ++
      " members, fewer than the replication factor N=" ++ Nat.repr n
  | .emptyID => "membership: empty member id"
  | .badID id => "membership: member id " ++ quote id ++ " must not contain '#' or NUL"
  | .emptyAddress id => "membership: member " ++ quote id ++ " has an empty address"
  | .sharedAddress other id addr => "membership: members " ++ quote other ++ " and " ++
      quote id ++ " share address " ++ quote addr

/-- The loop of `validateMembers`, in ID order. `byAddr` maps an address to who has it. -/
def checkMembers (byAddr : Members) : List (String × String) → Option InvalidMembership
  | [] => none
  | (id, addr) :: rest =>
    if id = "" then some .emptyID
    else if '#' ∈ id.toList ∨ '\x00' ∈ id.toList then some (.badID id)
    else if addr = "" then some (.emptyAddress id)
    else match byAddr[addr]? with
    | some other => some (.sharedAddress other id addr)
    | none => checkMembers (byAddr.insert addr id) rest

def validateMembers (members : Members) (n : Nat) : Option InvalidMembership :=
  if members.size = 0 then some .noMembers
  else if members.size < n then some (.tooFew members.size n)
  else checkMembers ∅ members.toList

section

variable (fp : Fingerprinter)

def memberLine (p : String × String) : String :=
  "member " ++ fp.quote p.1 ++ " " ++ fp.quote p.2 ++ "\n"

def fingerprintText (members : Members) (n : Nat) : String :=
  String.join (members.toList.map (memberLine fp)) ++ "n " ++ Nat.repr n ++ "\nvnodes " ++
    Nat.repr defaultVirtualNodesPerPhysical ++ "\nscheme " ++ ringScheme ++ "\n"

/-- What determines placement, hashed : not the epoch. -/
def fingerprint (members : Members) (n : Nat) : String :=
  fp.sha256 (fingerprintText fp members n)

def buildView (epoch : Nat) (members : Members) (n : Nat) : Except RingError ClusterView :=
  match HashRing.fromMembers defaultVirtualNodesPerPhysical members.keys with
  | .error e => .error e
  | .ok ring => .ok ⟨epoch, fingerprint fp members n, members, ring⟩

/-- The epoch-0 view of a node and its neighbors. -/
def initialView (id address : String) (neighborAddrs : Members) (n : Nat) :
    Except RingError ClusterView :=
  buildView fp 0 (neighborAddrs.insert id address) n

end

/-! ## The MEMBERSHIP file -/

structure MembershipFile where
  epoch : Nat
  members : Members
  fingerprint : String

inductive LoadError
  | corrupt
  | invalid (e : InvalidMembership)
  | ring (e : RingError)
  | fingerprint (stored computed : String)
deriving DecidableEq

def ClusterView.file (v : ClusterView) : MembershipFile :=
  ⟨v.epoch, v.members, v.fingerprint⟩

/-- `writeMembership`, with the step of the write that fails, if one does. -/
def writeMembership (f : AtomicFile MembershipFile) (v : ClusterView) (fault : Option WritePoint) :
    Option WritePoint × AtomicFile MembershipFile :=
  f.writeFileAtomic v.file fault

section

variable (fp : Fingerprinter)

/-- `loadMembership` : no view if there is no file. -/
def loadMembership (f : AtomicFile MembershipFile) (n : Nat) :
    Except LoadError (Option ClusterView) :=
  match f.path with
  | none => .ok none
  | some .corrupt => .error .corrupt
  | some (.record r) =>
    match validateMembers r.members n with
    | some e => .error (.invalid e)
    | none =>
      match buildView fp r.epoch r.members n with
      | .error e => .error (.ring e)
      | .ok v =>
        if v.fingerprint = r.fingerprint then .ok (some v)
        else .error (.fingerprint r.fingerprint v.fingerprint)

/-! ## SetMembership -/

inductive MembershipError
  | invalid (e : InvalidMembership)
  | ring (e : RingError)
  | fingerprintMismatch (claimed computed : String)
  | staleEpoch (epoch current : Nat)
  | conflict (epoch : Nat) (current computed : String)
  | persist (epoch : Nat) (step : WritePoint)
deriving DecidableEq

/-- `setMembership` up to the write : the view to persist and publish, if there is one. A
fingerprint that is claimed is compared, never trusted. -/
def decideMembership (n : Nat) (cur : ClusterView) (epoch : Nat) (members : Members)
    (claimedFingerprint : String) : Except MembershipError (Option ClusterView) :=
  match validateMembers members n with
  | some e => .error (.invalid e)
  | none =>
    match buildView fp epoch members n with
    | .error e => .error (.ring e)
    | .ok v =>
      if claimedFingerprint ≠ "" ∧ v.fingerprint ≠ claimedFingerprint then
        .error (.fingerprintMismatch claimedFingerprint v.fingerprint)
      else if epoch < cur.epoch then .error (.staleEpoch epoch cur.epoch)
      else if epoch = cur.epoch ∧ v.fingerprint = cur.fingerprint then .ok none
      else if epoch = cur.epoch then .error (.conflict epoch cur.fingerprint v.fingerprint)
      else .ok (some v)

/-- What a node holds of the cluster's membership. -/
structure Held where
  /-- The published view. -/
  view : ClusterView
  file : AtomicFile MembershipFile

/-- `setMembership` : whether the view changed. -/
def setMembership (n : Nat) (s : Held) (epoch : Nat) (members : Members)
    (claimedFingerprint : String) (fault : Option WritePoint) :
    Except MembershipError Bool × Held :=
  match decideMembership fp n s.view epoch members claimedFingerprint with
  | .error e => (.error e, s)
  | .ok none => (.ok false, s)
  | .ok (some v) =>
    match writeMembership s.file v fault with
    | (some step, file) => (.error (.persist epoch step), { s with file := file })
    | (none, file) => (.ok true, ⟨v, file⟩)

end

/-! ## Fingerprints -/

section

variable (fp : Fingerprinter)

/-- The lines of the members can be read back. -/
theorem memberLines_inj {x x' : List Char} : ∀ {l l' : List (String × String)},
    (l.map (memberLine fp)).flatMap String.toList ++ 'n' :: x =
      (l'.map (memberLine fp)).flatMap String.toList ++ 'n' :: x' → l = l' ∧ x = x'
  | [], [], h => ⟨rfl, (List.cons.inj h).2⟩
  | [], p :: l', h => by simp [memberLine] at h
  | p :: l, [], h => by simp [memberLine] at h
  | (id, addr) :: l, (id', addr') :: l', h => by
    simp only [memberLine, List.map_cons, List.flatMap_cons, String.toList_append,
      List.append_assoc] at h
    have hid := List.append_cancel_left h
    obtain ⟨hid, haddr⟩ := Delimiters.closed_inj (fp.quote_closed id ' ' (by decide))
      (fp.quote_closed id' ' ' (by decide)) hid
    obtain ⟨haddr, hrest⟩ := Delimiters.closed_inj (fp.quote_closed addr '\n' (by decide))
      (fp.quote_closed addr' '\n' (by decide)) haddr
    obtain rfl := fp.quote_inj (String.toList_inj.mp hid)
    obtain rfl := fp.quote_inj (String.toList_inj.mp haddr)
    obtain ⟨rfl, rfl⟩ := memberLines_inj hrest
    exact ⟨rfl, rfl⟩

theorem fingerprint_inj {members members' : Members} {n n' : Nat}
    (h : fingerprint fp members n = fingerprint fp members' n') : members = members' ∧ n = n' := by
  have htext := congrArg String.toList (fp.sha256_inj h)
  simp only [fingerprintText, String.toList_append, String.toList_join, List.append_assoc] at htext
  obtain ⟨hlist, hrest⟩ := memberLines_inj fp htext
  have hn : n.repr.toList = n'.repr.toList := by
    have := (List.cons.inj hrest).2
    exact List.append_cancel_right this
  exact ⟨Std.ExtTreeMap.toList_inj.mp hlist, Nat.repr_inj.mp (String.toList_inj.mp hn)⟩

/-! ## What is built, decided and loaded -/

variable {fp} {n epoch : Nat} {members : Members} {cur v w : ClusterView} {claimed : String}

theorem buildView_eq_ok (h : buildView fp epoch members n = .ok v) : v.epoch = epoch ∧
    v.members = members ∧ v.fingerprint = fingerprint fp members n := by
  unfold buildView at h
  split at h
  · cases h
  · obtain rfl := Except.ok.inj h
    exact ⟨rfl, rfl, rfl⟩

theorem ring_of_buildView (h : buildView fp epoch members n = .ok v) :
    HashRing.fromMembers defaultVirtualNodesPerPhysical members.keys = .ok v.ring := by
  unfold buildView at h
  split at h
  · cases h
  · next ring hring =>
    obtain rfl := Except.ok.inj h
    exact hring

/-- A view is a function of its epoch, its members and N. -/
theorem view_ext (hv : buildView fp v.epoch v.members n = .ok v)
    (hw : buildView fp w.epoch w.members n = .ok w) (hepoch : v.epoch = w.epoch)
    (hmembers : v.members = w.members) : v = w := by
  rw [hepoch, hmembers, hw] at hv
  exact (Except.ok.inj hv).symm

theorem ne_empty_of_checkMembers : ∀ {l : List (String × String)} {byAddr : Members},
    checkMembers byAddr l = none → "" ∉ l.map Prod.fst
  | [], _, _ => by simp
  | (id, addr) :: l, byAddr, h => by
    unfold checkMembers at h
    split_ifs at h with hid
    split at h
    · cases h
    · rw [List.map_cons, List.mem_cons, not_or]
      exact ⟨fun he => hid he.symm, ne_empty_of_checkMembers h⟩

/-- A member set that passes the checks makes a ring. -/
theorem exists_buildView (fp : Fingerprinter) (epoch : Nat) (h : validateMembers members n = none) :
    ∃ v, buildView fp epoch members n = .ok v := by
  unfold validateMembers at h
  split_ifs at h with hempty hfew
  have hring : HashRing.checkMembers [] members.keys = none := by
    refine HashRing.checkMembers_eq_none ?_ members.nodup_keys (by simp)
    rw [← Std.ExtTreeMap.map_fst_toList_eq_keys]
    exact ne_empty_of_checkMembers h
  simp only [buildView, HashRing.fromMembers, HashRing.fromMembersWith, hring]
  exact ⟨_, rfl⟩

/-- The view is one this code builds from a member set that passes the checks. -/
structure WellBuilt (fp : Fingerprinter) (n : Nat) (v : ClusterView) : Prop where
  valid : validateMembers v.members n = none
  built : buildView fp v.epoch v.members n = .ok v

theorem WellBuilt.fingerprint_eq (h : WellBuilt fp n v) :
    v.fingerprint = fingerprint fp v.members n :=
  (buildView_eq_ok h.built).2.2

theorem decideMembership_eq_some
    (h : decideMembership fp n cur epoch members claimed = .ok (some v)) :
    WellBuilt fp n v ∧ v.epoch = epoch ∧ v.members = members ∧ cur.epoch < epoch := by
  unfold decideMembership at h
  split at h
  · cases h
  · next hvalid =>
    split at h
    · cases h
    · next w hbuilt =>
      split_ifs at h with hclaimed hstale hsame hconflict
      · cases h
      · obtain rfl : w = v := Option.some.inj (Except.ok.inj h)
        obtain ⟨hepoch, hmembers, -⟩ := buildView_eq_ok hbuilt
        exact ⟨⟨hmembers ▸ hvalid, by rw [hepoch, hmembers]; exact hbuilt⟩, hepoch, hmembers,
          by omega⟩

/-- A newer epoch with members that pass the checks is to be published. -/
theorem decideMembership_newer (fp : Fingerprinter) (hvalid : validateMembers members n = none)
    (hepoch : cur.epoch < epoch) :
    ∃ v, decideMembership fp n cur epoch members "" = .ok (some v) := by
  obtain ⟨v, hv⟩ := exists_buildView fp epoch hvalid
  refine ⟨v, ?_⟩
  simp only [decideMembership, hvalid, hv]
  rw [if_neg (by simp), if_neg (by omega), if_neg (by omega), if_neg (by omega)]

/-- The answers to members that pass the checks, by their epoch. -/
theorem decideMembership_of_valid (hvalid : validateMembers members n = none)
    (hclaimed : claimed = "" ∨ claimed = fingerprint fp members n) :
    (epoch < cur.epoch → decideMembership fp n cur epoch members claimed =
      .error (.staleEpoch epoch cur.epoch)) ∧
    (epoch = cur.epoch → fingerprint fp members n = cur.fingerprint →
      decideMembership fp n cur epoch members claimed = .ok none) ∧
    (epoch = cur.epoch → fingerprint fp members n ≠ cur.fingerprint →
      decideMembership fp n cur epoch members claimed =
        .error (.conflict epoch cur.fingerprint (fingerprint fp members n))) := by
  obtain ⟨v, hv⟩ := exists_buildView fp epoch hvalid
  have hfp := (buildView_eq_ok hv).2.2
  have hnot : ¬(claimed ≠ "" ∧ fingerprint fp members n ≠ claimed) := by
    rintro ⟨hne, hother⟩
    rcases hclaimed with he | he
    · exact hne he
    · exact hother he.symm
  simp only [decideMembership, hvalid, hv, hfp, if_neg hnot]
  refine ⟨fun hlt => if_pos hlt, fun heq hsame => ?_, fun heq hother => ?_⟩
  · rw [if_neg (by omega), if_pos ⟨heq, hsame⟩]
  · rw [if_neg (by omega), if_neg fun h => hother h.2, if_pos heq]

theorem decideMembership_eq_stale {a b : Nat}
    (h : decideMembership fp n cur epoch members claimed = .error (.staleEpoch a b)) :
    validateMembers members n = none ∧ epoch < cur.epoch := by
  unfold decideMembership at h
  split at h
  · cases h
  · next hvalid =>
    split at h
    · cases h
    · split_ifs at h with hclaimed hstale hsame hconflict
      · cases h
      · exact ⟨hvalid, hstale⟩
      · cases h

theorem decideMembership_eq_none
    (h : decideMembership fp n cur epoch members claimed = .ok none) :
    validateMembers members n = none ∧ epoch = cur.epoch ∧
      fingerprint fp members n = cur.fingerprint := by
  unfold decideMembership at h
  split at h
  · cases h
  · next hvalid =>
    split at h
    · cases h
    · next w hbuilt =>
      split_ifs at h with hclaimed hstale hsame hconflict
      · exact ⟨hvalid, hsame.1, (buildView_eq_ok hbuilt).2.2.symm.trans hsame.2⟩
      · cases h

/-- A conflict is the view's own epoch with other members. -/
theorem decideMembership_eq_conflict {e : Nat} {current computed : String}
    (h : decideMembership fp n cur epoch members claimed = .error (.conflict e current computed)) :
    validateMembers members n = none ∧ epoch = cur.epoch ∧
      fingerprint fp members n ≠ cur.fingerprint := by
  unfold decideMembership at h
  split at h
  · cases h
  · next hvalid =>
    split at h
    · cases h
    · next w hbuilt =>
      split_ifs at h with hclaimed hstale hsame hconflict
      · cases h
      · cases h
      · exact ⟨hvalid, hconflict,
          fun he => hsame ⟨hconflict, (buildView_eq_ok hbuilt).2.2.trans he⟩⟩

theorem loadMembership_eq_some {f : AtomicFile MembershipFile}
    (h : loadMembership fp f n = .ok (some v)) : WellBuilt fp n v ∧
      f.path = some (.record v.file) := by
  unfold loadMembership at h
  split at h
  · cases h
  · cases h
  · next r hpath =>
    split at h
    · cases h
    · next hvalid =>
      split at h
      · cases h
      · next w hbuilt =>
        split_ifs at h with hfp
        obtain rfl : w = v := Option.some.inj (Except.ok.inj h)
        obtain ⟨hepoch, hmembers, -⟩ := buildView_eq_ok hbuilt
        refine ⟨⟨hmembers ▸ hvalid, by rw [hepoch, hmembers]; exact hbuilt⟩, ?_⟩
        rw [hpath, ClusterView.file, hepoch, hmembers, hfp]

theorem loadMembership_eq_none {f : AtomicFile MembershipFile} :
    loadMembership fp f n = .ok none ↔ f.path = none := by
  constructor
  · intro h
    unfold loadMembership at h
    split at h
    · assumption
    · cases h
    · split at h
      · cases h
      · split at h
        · cases h
        · split_ifs at h
          cases h
  · intro h
    simp [loadMembership, h]

/-- What was written is what will be loaded. -/
theorem loadMembership_written {f : AtomicFile MembershipFile} (hv : WellBuilt fp n v)
    (hpath : f.path = some (.record v.file)) : loadMembership fp f n = .ok (some v) := by
  simp [loadMembership, hpath, ClusterView.file, hv.valid, hv.built]

theorem loadMembership_congr {f g : AtomicFile MembershipFile} (h : f.path = g.path) :
    loadMembership fp f n = loadMembership fp g n := by
  unfold loadMembership
  rw [h]

/-! ## A refused change -/

/-- The cases of `setMembership` : an error or nothing to do before the write, a failed
write, or the new view. -/
theorem setMembership_cases (fp : Fingerprinter) (n : Nat) (s : Held) (epoch : Nat)
    (members : Members) (claimed : String) (fault : Option WritePoint) :
    (∃ e, decideMembership fp n s.view epoch members claimed = .error e ∧
      setMembership fp n s epoch members claimed fault = (.error e, s)) ∨
    (decideMembership fp n s.view epoch members claimed = .ok none ∧
      setMembership fp n s epoch members claimed fault = (.ok false, s)) ∨
    ∃ v, decideMembership fp n s.view epoch members claimed = .ok (some v) ∧
      ((∃ step, fault = some step ∧ setMembership fp n s epoch members claimed fault =
        (.error (.persist epoch step),
          { s with file := (s.file.writeFileAtomic v.file fault).2 })) ∨
      (fault = none ∧ setMembership fp n s epoch members claimed fault =
        (.ok true, ⟨v, (s.file.writeFileAtomic v.file none).2⟩))) := by
  unfold setMembership
  cases hdecide : decideMembership fp n s.view epoch members claimed with
  | error e => exact Or.inl ⟨e, rfl, rfl⟩
  | ok result =>
    cases result with
    | none => exact Or.inr (Or.inl ⟨rfl, rfl⟩)
    | some v =>
      refine Or.inr (Or.inr ⟨v, rfl, ?_⟩)
      cases fault with
      | none => exact Or.inr ⟨rfl, rfl⟩
      | some step =>
        refine Or.inl ⟨step, rfl, ?_⟩
        cases step <;> rfl

/-- The view and the file after a call : both new, or the old view with the old file or with
one whose write failed after the rename. -/
theorem setMembership_spec (fp : Fingerprinter) (n : Nat) (s : Held) (epoch : Nat)
    (members : Members) (claimed : String) (fault : Option WritePoint) :
    ((setMembership fp n s epoch members claimed fault).1 = .ok true ∧
      ∃ v, decideMembership fp n s.view epoch members claimed = .ok (some v) ∧
        (setMembership fp n s epoch members claimed fault).2.view = v ∧
        (setMembership fp n s epoch members claimed fault).2.file.path = some (.record v.file)) ∨
    ((setMembership fp n s epoch members claimed fault).1 ≠ .ok true ∧
      (setMembership fp n s epoch members claimed fault).2.view = s.view ∧
      ((setMembership fp n s epoch members claimed fault).2.file.path = s.file.path ∨
        ∃ v, decideMembership fp n s.view epoch members claimed = .ok (some v) ∧
          (setMembership fp n s epoch members claimed fault).2.file.path =
            some (.record v.file))) := by
  rcases setMembership_cases fp n s epoch members claimed fault with
    ⟨e, -, hset⟩ | ⟨-, hset⟩ | ⟨v, hdecide, ⟨step, -, hset⟩ | ⟨-, hset⟩⟩
  · rw [hset]
    exact Or.inr ⟨by simp, rfl, Or.inl rfl⟩
  · rw [hset]
    exact Or.inr ⟨by simp, rfl, Or.inl rfl⟩
  · rw [hset]
    refine Or.inr ⟨by simp, rfl, ?_⟩
    rw [AtomicFile.path_writeFileAtomic]
    split_ifs
    · exact Or.inr ⟨v, hdecide, rfl⟩
    · exact Or.inl rfl
  · rw [hset]
    exact Or.inl ⟨rfl, v, hdecide, rfl, rfl⟩

/-- A refused change leaves the view as it was, and the membership that would be loaded
too, unless a newer membership that the file did not hold was renamed into place and the
sync of the directory then failed. -/
theorem setMembership_refused_iff (fp : Fingerprinter) (n : Nat) (s : Held) (epoch : Nat)
    (members : Members) (fault : Option WritePoint) :
    ((∃ e, (setMembership fp n s epoch members "" fault).1 = .error e) →
      (setMembership fp n s epoch members "" fault).2.view = s.view ∧
        loadMembership fp (setMembership fp n s epoch members "" fault).2.file n =
          loadMembership fp s.file n) ↔
    ¬(fault = some .syncDir ∧ validateMembers members n = none ∧ s.view.epoch < epoch ∧
      ∀ w, loadMembership fp s.file n = .ok (some w) →
        ¬(w.epoch = epoch ∧ w.members = members)) := by
  constructor
  · rintro hkeeps ⟨rfl, hvalid, hepoch, hother⟩
    obtain ⟨v, hdecide⟩ := decideMembership_newer fp hvalid hepoch
    obtain ⟨hbuilt, hve, hvm, -⟩ := decideMembership_eq_some hdecide
    have hset : setMembership fp n s epoch members "" (some .syncDir) =
        (.error (.persist epoch .syncDir),
          { s with file := (s.file.writeFileAtomic v.file (some .syncDir)).2 }) := by
      simp only [setMembership, hdecide]
      rfl
    obtain ⟨-, hload⟩ := hkeeps ⟨_, by rw [hset]⟩
    have hnew : loadMembership fp (s.file.writeFileAtomic v.file (some .syncDir)).2 n =
        .ok (some v) :=
      loadMembership_written hbuilt rfl
    rw [hset] at hload
    exact hother v (hload.symm.trans hnew) ⟨hve, hvm⟩
  · rintro hnot ⟨e, he⟩
    rcases setMembership_cases fp n s epoch members "" fault with
      ⟨e', -, hset⟩ | ⟨-, hset⟩ | ⟨v, hdecide, hwrite⟩
    · rw [hset]
      exact ⟨rfl, rfl⟩
    · rw [hset] at he
      cases he
    · obtain ⟨hbuilt, hve, hvm, hepoch⟩ := decideMembership_eq_some hdecide
      rcases hwrite with ⟨step, hfault, hset⟩ | ⟨-, hset⟩
      · rw [hset]
        refine ⟨rfl, ?_⟩
        by_cases hsync : fault = some .syncDir
        · -- the file already held this membership
          have hheld : ∃ w, loadMembership fp s.file n = .ok (some w) ∧
              w.epoch = epoch ∧ w.members = members := by
            by_contra hnone
            exact hnot ⟨hsync, hvm ▸ hbuilt.valid, hepoch, fun w hw hsame => hnone ⟨w, hw, hsame⟩⟩
          obtain ⟨w, hw, hwe, hwm⟩ := hheld
          obtain rfl : v = w := view_ext hbuilt.built (loadMembership_eq_some hw).1.built
            (hve.trans hwe.symm) (hvm.trans hwm.symm)
          rw [hw, hsync]
          exact loadMembership_written hbuilt rfl
        · refine loadMembership_congr ?_
          rw [AtomicFile.path_writeFileAtomic, if_neg]
          simp [hfault] at hsync ⊢
          exact hsync
      · rw [hset] at he
        cases he

/-- Quotes with escapes, and texts as their own digests. -/
def plainFingerprinter : Fingerprinter where
  quote s := String.ofList (Delimiters.quoted s.toList)
  quote_inj s t h := by
    have := congrArg String.toList h
    rw [String.toList_ofList, String.toList_ofList] at this
    exact String.toList_inj.mp (Delimiters.quoted_inj this)
  quote_closed s sep hsep := by
    rw [String.toList_ofList]
    exact Delimiters.closed_quoted hsep s.toList
  sha256 := id
  sha256_inj := Function.injective_id

def pairMembers : Members :=
  ((∅ : Members).insert "A" "host-a:7000").insert "B" "host-b:7000"

def trioMembers : Members :=
  pairMembers.insert "C" "host-c:7000"

/-- A node at epoch 0 is told of a third member. The file is renamed into place, the sync of
the directory fails and the change is refused, but a restart loads it. -/
theorem refused_change_is_loaded : ∃ (s : Held) (v : ClusterView),
    s.view.epoch = 0 ∧ loadMembership plainFingerprinter s.file 2 = .ok none ∧
    (setMembership plainFingerprinter 2 s 1 trioMembers "" (some .syncDir)).1 =
      .error (.persist 1 .syncDir) ∧
    (setMembership plainFingerprinter 2 s 1 trioMembers "" (some .syncDir)).2.view = s.view ∧
    loadMembership plainFingerprinter
      (setMembership plainFingerprinter 2 s 1 trioMembers "" (some .syncDir)).2.file 2 =
        .ok (some v) ∧ v.epoch = 1 ∧ v.members = trioMembers := by
  have hpair : validateMembers pairMembers 2 = none := by decide +kernel
  have htrio : validateMembers trioMembers 2 = none := by decide +kernel
  obtain ⟨held, hheld⟩ := exists_buildView plainFingerprinter 0 hpair
  have hepoch : held.epoch = 0 := (buildView_eq_ok hheld).1
  obtain ⟨v, hdecide⟩ :=
    decideMembership_newer plainFingerprinter htrio (show held.epoch < 1 by omega)
  obtain ⟨hbuilt, hve, hvm, -⟩ := decideMembership_eq_some hdecide
  have hset : setMembership plainFingerprinter 2 ⟨held, none, none⟩ 1 trioMembers ""
      (some .syncDir) = (.error (.persist 1 .syncDir), ⟨held, some (.record v.file), none⟩) := by
    simp only [setMembership, hdecide]
    rfl
  refine ⟨⟨held, none, none⟩, v, hepoch, rfl, ?_, ?_, ?_, hve, hvm⟩
  · rw [hset]
  · rw [hset]
  · rw [hset]
    exact loadMembership_written hbuilt rfl

end

end DistributedKV
