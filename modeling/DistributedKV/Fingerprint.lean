import DistributedKV.Gossip

/-!
# Fingerprints

`fingerprint` hashes one line for each member, in the order of the IDs, and three lines
for N, the vnode count and the ring scheme. The keys come out of the map in any order and
are sorted first. `fingerprintBytes_eq_iff` : what is hashed determines the members and N
and nothing else, so that equal fingerprints mean equal rings.

A membership that a peer sent is checked against the fingerprint the peer sent with it, if
it sent one : the empty text is taken for "not claimed". So `adoptFetched` adopts only what
means the same placement here as for the peer, unless the fingerprint is missing
(`adoptFetched_checked_iff`, `adoptFetched_unchecked`).
-/

namespace DistributedKV

/-! ## What is hashed -/

section

variable (fp : Fingerprinter)

/-- What `fingerprint` writes into the hash, with the keys as the map gave them. -/
def fingerprintBytes (members : Members) (keys : List String) (n : Int) : String :=
  String.join ((keys.insertionSort (· ≤ ·)).map fun id => memberLine fp (id, members.getD id "")) ++
    "n " ++ n.repr ++ "\nvnodes " ++ Nat.repr defaultVirtualNodesPerPhysical ++ "\nscheme " ++
    ringScheme ++ "\n"

/-- Sorting undoes the order the map gave. -/
theorem insertionSort_keys {members : Members} {keys : List String}
    (hkeys : keys.Perm members.keys) : keys.insertionSort (· ≤ ·) = members.keys := by
  have hsorted : members.keys.Pairwise (· ≤ ·) :=
    (Std.ExtTreeMap.ordered_keys (t := members)).imp fun h => (compare_lt_iff_lt.mp h).le
  exact ((List.perm_insertionSort _ _).trans hkeys).eq_of_pairwise'
    (List.pairwise_insertionSort _ _) hsorted

theorem map_keys_getD (members : Members) :
    (members.keys.map fun id => (id, members.getD id "")) = members.toList := by
  rw [← Std.ExtTreeMap.map_fst_toList_eq_keys, List.map_map]
  conv_rhs => rw [← List.map_id members.toList]
  refine List.map_congr_left fun p hp => Prod.ext rfl ?_
  have hget := Std.ExtTreeMap.mem_toList_iff_getElem?_eq_some.mp hp
  simp [Std.ExtTreeMap.getD_eq_getD_getElem?, hget]

theorem fingerprintBytes_eq {members : Members} {keys : List String}
    (hkeys : keys.Perm members.keys) (n : Int) :
    fingerprintBytes fp members keys n =
      String.join (members.toList.map (memberLine fp)) ++ "n " ++ n.repr ++ "\nvnodes " ++
        Nat.repr defaultVirtualNodesPerPhysical ++ "\nscheme " ++ ringScheme ++ "\n" := by
  rw [fingerprintBytes, insertionSort_keys hkeys, ← map_keys_getD members, List.map_map]
  rfl

/-- What is hashed tells the members with their addresses and N, whatever the IDs and the
addresses are and in whatever order the maps give their keys. Equal digests then mean the
same ring. -/
theorem fingerprintBytes_eq_iff {members members' : Members} {keys keys' : List String}
    (hkeys : keys.Perm members.keys) (hkeys' : keys'.Perm members'.keys) (n n' : Int) :
    (fingerprintBytes fp members keys n = fingerprintBytes fp members' keys' n' ↔
      members = members' ∧ n = n') ∧
    (fp.sha256 (fingerprintBytes fp members keys n) =
        fp.sha256 (fingerprintBytes fp members' keys' n') →
      HashRing.fromMembers defaultVirtualNodesPerPhysical members.keys =
        HashRing.fromMembers defaultVirtualNodesPerPhysical members'.keys ∧ n = n') := by
  have hiff : fingerprintBytes fp members keys n = fingerprintBytes fp members' keys' n' ↔
      members = members' ∧ n = n' := by
    rw [fingerprintBytes_eq fp hkeys, fingerprintBytes_eq fp hkeys']
    constructor
    · intro h
      have htext := congrArg String.toList h
      simp only [String.toList_append, String.toList_join, List.append_assoc] at htext
      obtain ⟨hlist, hrest⟩ := memberLines_inj fp htext
      have hn : n.repr.toList = n'.repr.toList :=
        List.append_cancel_right (List.cons.inj hrest).2
      exact ⟨Std.ExtTreeMap.toList_inj.mp hlist, Int.repr_inj.mp (String.toList_inj.mp hn)⟩
    · rintro ⟨rfl, rfl⟩
      rfl
  refine ⟨hiff, fun h => ?_⟩
  obtain ⟨rfl, rfl⟩ := hiff.mp (fp.sha256_inj h)
  exact ⟨rfl, rfl⟩

/-- The two members, listed in both orders. -/
theorem fingerprintBytes_pair :
    fingerprintBytes plainFingerprinter pairMembers ["B", "A"] 3 =
      fingerprintBytes plainFingerprinter pairMembers ["A", "B"] 3 ∧
    fingerprintBytes plainFingerprinter pairMembers ["B", "A"] 3 ≠
      fingerprintBytes plainFingerprinter pairMembers ["A", "B"] (-3) := by
  have hkeys : pairMembers.keys = ["A", "B"] := by decide +kernel
  have hab : ["A", "B"].Perm pairMembers.keys := hkeys ▸ .refl _
  have hba : ["B", "A"].Perm pairMembers.keys := hkeys ▸ .swap ..
  refine ⟨(fingerprintBytes_eq_iff _ hba hab 3 3).1.mpr ⟨rfl, rfl⟩, fun h => ?_⟩
  exact absurd ((fingerprintBytes_eq_iff _ hba hab 3 (-3)).1.mp h).2 (by decide)

end

/-! ## What a peer sends -/

namespace Participant

/-- The view once the call has returned. -/
def settled (p : Participant) : ClusterView :=
  (p.pending.elim p p.publish).view

variable (fp : Fingerprinter) (p : Participant) (file : AtomicFile MembershipFile)
  (peerID : String) (info : MembershipInfo) (fault : Option WritePoint)

/-- A fetched membership that is checked against what the peer says of it : if the two
fingerprints differ, the view and the file stay. -/
def Checked : Prop :=
  info.fingerprint ≠ fingerprint fp info.members p.cfg.n →
    (p.adoptFetched fp file peerID info fault).1.settled = p.view ∧
      (p.adoptFetched fp file peerID info fault).2 = file

theorem decideMembership_claimed {n epoch : Nat} {cur : ClusterView} {members : Members}
    {claimed : String} {v? : Option ClusterView}
    (h : decideMembership fp n cur epoch members claimed = .ok v?) :
    claimed = "" ∨ claimed = fingerprint fp members n := by
  unfold decideMembership at h
  split at h
  · cases h
  · split at h
    · cases h
    · next v hbuilt =>
      by_cases hclaimed : claimed ≠ "" ∧ v.fingerprint ≠ claimed
      · rw [if_pos hclaimed] at h
        cases h
      · rw [(buildView_eq_ok hbuilt).2.2] at hclaimed
        by_contra hneither
        exact hclaimed ⟨fun he => hneither (.inl he), fun he => hneither (.inr he.symm)⟩

/-- A call that gets to no write leaves everything. -/
theorem adoptFetched_of_not_some (hfree : p.pending = none)
    (h : ∀ v, decideMembership fp p.cfg.n p.view info.epoch info.members info.fingerprint ≠
      .ok (some v)) :
    (p.adoptFetched fp file peerID info fault).1.settled = p.view ∧
      (p.adoptFetched fp file peerID info fault).2 = file := by
  unfold adoptFetched persistMembership
  cases hdecide : decideMembership fp p.cfg.n p.view info.epoch info.members info.fingerprint with
  | error e => cases e <;> simp [hdecide, settled, noteConflict, hfree]
  | ok v? =>
    cases v? with
    | none => simp [hdecide, settled, hfree]
    | some v => exact absurd hdecide (h v)

/-- Between the writes of others, a fetched membership is adopted only with the fingerprint
it has here, unless it came without one, its members pass the checks and its epoch is newer. -/
theorem adoptFetched_checked_iff (hfree : p.pending = none) :
    (∀ fault, p.Checked fp file peerID info fault) ↔
      ¬(info.fingerprint = "" ∧ fingerprint fp info.members p.cfg.n ≠ "" ∧
        validateMembers info.members p.cfg.n = none ∧ p.view.epoch < info.epoch) := by
  constructor
  · rintro hchecked ⟨hempty, hne, hvalid, hepoch⟩
    obtain ⟨v, hdecide⟩ := decideMembership_newer fp hvalid hepoch
    obtain ⟨-, hve, -, -⟩ := decideMembership_eq_some hdecide
    rw [← hempty] at hdecide hne
    have hsettled := (hchecked none hne.symm).1
    have hnew : (p.adoptFetched fp file peerID info none).1.settled = v := by
      simp only [adoptFetched, persistMembership, hdecide]
      rfl
    rw [hnew] at hsettled
    rw [← hsettled, hve] at hepoch
    exact lt_irrefl _ hepoch
  · intro hnot fault hdiffer
    refine p.adoptFetched_of_not_some fp file peerID info fault hfree fun v hdecide => hnot ?_
    obtain ⟨hbuilt, hve, hvm, hepoch⟩ := decideMembership_eq_some hdecide
    have hempty : info.fingerprint = "" :=
      (decideMembership_claimed fp hdecide).resolve_right hdiffer
    exact ⟨hempty, hempty ▸ hdiffer.symm, hvm ▸ hbuilt.valid, hepoch⟩

end Participant

/-- Three members with a fingerprint that is not theirs are never adopted. -/
theorem adoptFetched_checked_pair : ∃ p : Participant, p.view.epoch = 0 ∧ ∀ fault,
    p.Checked plainFingerprinter ⟨none, none⟩ "B" ⟨1, trioMembers, "another"⟩ fault := by
  obtain ⟨held, hheld⟩ := exists_buildView plainFingerprinter 0 Life.valid_pair
  refine ⟨.started Gossip.partnerConfig held, (buildView_eq_ok hheld).1, ?_⟩
  refine (Participant.adoptFetched_checked_iff _ _ _ _ _ rfl).mpr fun h => ?_
  exact absurd h.1 (by decide)

/-- A node of a pair is sent three members at epoch 1, without a fingerprint. It stores and
publishes them. -/
theorem adoptFetched_unchecked : ∃ (p : Participant) (v : ClusterView),
    p.pending = none ∧ p.view.epoch = 0 ∧
    ¬p.Checked plainFingerprinter ⟨none, none⟩ "A" ⟨1, trioMembers, ""⟩ none ∧
    (p.adoptFetched plainFingerprinter ⟨none, none⟩ "A" ⟨1, trioMembers, ""⟩ none).1.settled = v ∧
    (p.adoptFetched plainFingerprinter ⟨none, none⟩ "A" ⟨1, trioMembers, ""⟩ none).2.path =
      some (.record v.file) ∧ v.epoch = 1 ∧ v.members = trioMembers := by
  obtain ⟨held, hheld⟩ := exists_buildView plainFingerprinter 0 Life.valid_pair
  have hepoch : held.epoch = 0 := (buildView_eq_ok hheld).1
  obtain ⟨v, hdecide⟩ := decideMembership_newer plainFingerprinter Life.valid_trio
    (show held.epoch < 1 by omega)
  obtain ⟨-, hve, hvm, -⟩ := decideMembership_eq_some hdecide
  have hadopt : (Participant.started Gossip.partnerConfig held).adoptFetched plainFingerprinter
      ⟨none, none⟩ "A" ⟨1, trioMembers, ""⟩ none =
        ({ Participant.started Gossip.partnerConfig held with pending := some v },
          ⟨some (.record v.file), none⟩) := by
    simp only [Participant.adoptFetched, Participant.persistMembership, Participant.started,
      Gossip.partnerConfig, hdecide]
    rfl
  refine ⟨.started Gossip.partnerConfig held, v, rfl, hepoch, fun hchecked => ?_, ?_, ?_, hve, hvm⟩
  · have hne : "" ≠ fingerprint plainFingerprinter trioMembers 2 := by
      intro h
      have hlength := congrArg String.length h
      have hlast : "\n".length = 1 := rfl
      simp only [fingerprint, fingerprintText, plainFingerprinter, id,
        String.length_append] at hlength
      rw [hlast, String.length_empty] at hlength
      omega
    have hfile := (hchecked hne).2
    rw [hadopt] at hfile
    cases hfile
  · rw [hadopt]
    rfl
  · rw [hadopt]

end DistributedKV
