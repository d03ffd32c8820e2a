import DistributedKV.NodeConfig

/-!
# The configuration the operator renders

`configMap` writes config.yaml by hand, piece by piece, for a membership whose members are
pods of the cluster at their own addresses. Three facts make the text one that works : it is
settings written out in block style (`configText_eq`), they can be read because the names of a
cluster are DNS labels (`settings_fits`), and they pass validation with the name of each member
(`RenderedFor.valid`). So every member's node loads it (`load_configText`) and starts with the
membership (`rendered_starts`), and the operator observes the membership it wrote
(`configMapObs_configMap`), which is what the model of the operator's world takes the content
of a ConfigMap to be.
-/

namespace DistributedKV

open BlockText (plainChar plainText)
open Planner (KVCluster Formats ConfigMapObs memberID memberAddress podHost grpcPort ordinal
  plainFormats)

namespace NodeConfig

/-! ## Rendering -/

/-- `spec.replication`, as the API server lets it through. -/
structure Replication where
  n : Nat
  w : Nat
  r : Nat
  write_quorum : 1 ≤ w ∧ w ≤ n
  read_quorum : 1 ≤ r ∧ r ≤ n
  int32 : n < 2 ^ 31

def httpPort : Nat := 8080

section

variable (fmt : Formats) (c : KVCluster)

/-- The ordinals of the members, each of which must be a pod of the cluster at its address.
Go visits them in any order; here it is the order of their IDs. -/
def renderOrdinals : List (String × String) → Except String (List Nat)
  | [] => .ok []
  | (id, addr) :: rest =>
    match ordinal c id with
    | none => .error ("member " ++ fmt.quote id ++ " is not a pod of cluster " ++ c.name)
    | some i =>
      if addr ≠ memberAddress c i then
        .error ("member " ++ id ++ " has address " ++ fmt.quote addr ++ ", want " ++
          fmt.quote (memberAddress c i))
      else (renderOrdinals rest).map (i :: ·)

def memberText (i : Nat) : String :=
  "    - id: " ++ memberID c i ++ "\n      address: " ++ memberAddress c i ++ "\n"

variable (rep : Replication) (groupCommit : Option Bool)

/-- The text of config.yaml. -/
def configText (epoch : Nat) (ordinals : List Nat) : String :=
  ("listen:\n  grpc: \":" ++ Nat.repr grpcPort ++ "\"\n  http: \":" ++ Nat.repr httpPort ++
    "\"\n") ++
  "dataDir: /data\n" ++
  ("cluster:\n  n: " ++ Nat.repr rep.n ++ "\n  w: " ++ Nat.repr rep.w ++ "\n  r: " ++
    Nat.repr rep.r ++ "\n  epoch: " ++ Nat.repr epoch ++ "\n  members:\n") ++
  String.join (ordinals.map (memberText c)) ++
  ("storage:\n  memtableBytes: 4194304\n  groupCommit: " ++
    (if groupCommit.getD true then "true" else "false") ++ "\n") ++
  ("intervals:\n  compaction: 30s\n  antiEntropy: 15m\n  hintDelivery: 10s\n" ++
    "  heartbeat: 1s\n") ++
  ("timeouts:\n  replication: 5s\n  maxReconnectBackoff: 5s\n  shutdown: 20s\n" ++
    "  heartbeat: 500ms\n") ++
  "health:\n  maxMissedHeartbeats: 3\n"

/-- The members the text is written for, in the order of their ordinals. -/
def memberOrdinals (members : Members) : Except String (List Nat) :=
  if members.size < rep.n then
    .error ("membership has " ++ Nat.repr members.size ++ " members, fewer than n=" ++
      Nat.repr rep.n)
  else (renderOrdinals fmt c members.toList).map List.mergeSort

/-- `render.ConfigMap` : what stands under config.yaml. -/
def configMap (epoch : Nat) (members : Members) : Except String String :=
  (memberOrdinals fmt c rep members).map (configText c rep groupCommit epoch)

end

/-! ## The rendered text is settings written out -/

def dnsChar (c : Char) : Bool :=
  c.isLower || c.isDigit || c == '-'

/-- The API server lets only names through that are DNS labels : the cluster's of at most 52
characters, starting with a letter. -/
structure Named (c : KVCluster) : Prop where
  name_chars : ∀ ch ∈ c.name.toList, dnsChar ch
  name_head : c.name.toList.head?.any Char.isLower
  name_length : c.name.length ≤ 52
  ns_chars : ∀ ch ∈ c.ns.toList, dnsChar ch

section

variable (c : KVCluster) (rep : Replication) (groupCommit : Option Bool) (epoch : Nat)
  (ordinals : List Nat)

def podMember (i : Nat) : Member :=
  ⟨memberID c i, memberAddress c i⟩

/-- What the text of `configText` says. -/
def settings : Settings where
  grpc := ":7000"
  http := ":8080"
  dataDir := "/data"
  n := rep.n
  w := rep.w
  r := rep.r
  epoch := epoch
  members := ordinals.map (podMember c)
  memtableBytes := 4194304
  groupCommit := groupCommit.getD true
  compaction := ⟨30, .s⟩
  antiEntropy := ⟨15, .m⟩
  hintDelivery := ⟨10, .s⟩
  heartbeat := ⟨1, .s⟩
  replication := ⟨5, .s⟩
  maxReconnectBackoff := ⟨5, .s⟩
  shutdown := ⟨20, .s⟩
  heartbeatTimeout := ⟨500, .ms⟩
  maxMissedHeartbeats := 3

/-- A member's two lines are what `configMap` writes for its ordinal, -/
theorem print_memberLines (i : Nat) :
    BlockText.print (Settings.memberLines (podMember c i)) = memberText c i := by
  refine String.toList_inj.mp ?_
  simp [memberText, podMember, Settings.memberLines, BlockText.print, BlockText.Line.print,
    BlockText.Scalar.print]

/-- and so are those of all members. -/
theorem print_members :
    BlockText.print ((ordinals.map (podMember c)).flatMap Settings.memberLines) =
      String.join (ordinals.map (memberText c)) := by
  induction ordinals with
  | nil => rfl
  | cons i ordinals ih =>
    rw [List.map_cons, List.flatMap_cons, BlockText.print_append, ih, print_memberLines]
    simp [String.join_cons]

/-- `configMap` writes settings in block style, above the members, -/
theorem print_linesAbove :
    BlockText.print (settings c rep groupCommit epoch ordinals).linesAbove =
      ("listen:\n  grpc: \":" ++ Nat.repr grpcPort ++ "\"\n  http: \":" ++ Nat.repr httpPort ++
        "\"\n") ++ "dataDir: /data\n" ++
      ("cluster:\n  n: " ++ Nat.repr rep.n ++ "\n  w: " ++ Nat.repr rep.w ++ "\n  r: " ++
        Nat.repr rep.r ++ "\n  epoch: " ++ Nat.repr epoch ++ "\n  members:\n") := by
  have hgrpc : Nat.repr grpcPort = "7000" := by decide
  have hhttp : Nat.repr httpPort = "8080" := by decide
  rw [hgrpc, hhttp]
  refine String.toList_inj.mp ?_
  simp [BlockText.print, settings, Settings.linesAbove, Settings.top, Settings.field,
    Settings.decimal, BlockText.Line.print, BlockText.Scalar.print]

/-- and below them. -/
theorem print_linesBelow :
    BlockText.print (settings c rep groupCommit epoch ordinals).linesBelow =
      ("storage:\n  memtableBytes: 4194304\n  groupCommit: " ++
        (if groupCommit.getD true then "true" else "false") ++ "\n") ++
      (("intervals:\n  compaction: 30s\n  antiEntropy: 15m\n  hintDelivery: 10s\n" ++
        "  heartbeat: 1s\n") ++
      (("timeouts:\n  replication: 5s\n  maxReconnectBackoff: 5s\n  shutdown: 20s\n" ++
        "  heartbeat: 500ms\n") ++
      "health:\n  maxMissedHeartbeats: 3\n")) := by
  cases hb : groupCommit.getD true
  all_goals
    simp only [settings, Settings.linesBelow, hb]
    decide +kernel

/-- The text of a ConfigMap is that of the settings. -/
theorem configText_eq : configText c rep groupCommit epoch ordinals =
    (settings c rep groupCommit epoch ordinals).text := by
  have hmembers : (settings c rep groupCommit epoch ordinals).members =
      ordinals.map (podMember c) := rfl
  have hassoc (a b c d e f g h : String) : a ++ b ++ c ++ d ++ e ++ f ++ g ++ h =
      a ++ b ++ c ++ (d ++ (e ++ (f ++ (g ++ h)))) := by
    simp only [String.append_assoc]
  rw [Settings.text, BlockText.print_append, BlockText.print_append, print_linesAbove, hmembers,
    print_members, print_linesBelow]
  exact hassoc ..

end

/-! ## The rendered settings can be read -/

section

variable {c : KVCluster} {rep : Replication} {groupCommit : Option Bool} {epoch : Nat}
  {ordinals : List Nat}

theorem isDigit_of_mem_repr {i : Nat} {ch : Char} (h : ch ∈ (Nat.repr i).toList) : ch.isDigit := by
  rw [Nat.toList_repr] at h
  exact Nat.isDigit_of_mem_toDigits (by decide) (by decide) h

theorem plainChar_of_isDigit {ch : Char} (h : ch.isDigit) : plainChar ch := by
  simp [plainChar, Char.isAlphanum, h]

/-- A text that starts with a letter or digit and ends in no colon needs no quotes. -/
theorem plainText_append {a b : List Char} (ha : ∀ ch ∈ a, plainChar ch)
    (hb : ∀ ch ∈ b, plainChar ch) (hhead : a.head?.any Char.isAlphanum)
    (hlast : b.getLast?.any (· != ':')) : plainText (a ++ b) := by
  obtain ⟨ch, hch, halnum⟩ := (Option.any_eq_true ..).mp hhead
  obtain ⟨ch', hch', hcolon⟩ := (Option.any_eq_true ..).mp hlast
  have hall : (a ++ b).all plainChar = true :=
    List.all_eq_true.mpr fun ch hmem => (List.mem_append.mp hmem).elim (ha ch) (hb ch)
  simp only [plainText, hall, List.head?_append, hch, List.getLast?_append, hch',
    Option.some_or, Option.any_some, halnum, hcolon]
  rfl

theorem repr_ne_nil (i : Nat) : (Nat.repr i).toList ≠ [] := by
  rw [Nat.toList_repr]
  exact Nat.toDigits_ne_nil

theorem last_repr (i : Nat) : (Nat.repr i).toList.getLast?.any (· != ':') := by
  have hdigit := isDigit_of_mem_repr (List.getLast_mem (repr_ne_nil i))
  rw [List.getLast?_eq_some_getLast (repr_ne_nil i)]
  simp only [Option.any_some, bne_iff_ne]
  intro hcolon
  rw [hcolon] at hdigit
  exact absurd hdigit (by decide)

theorem plainChar_of_dnsChar {ch : Char} (h : dnsChar ch) : plainChar ch := by
  simp only [dnsChar, Bool.or_eq_true] at h
  simp only [plainChar, Char.isAlphanum, Char.isAlpha, Bool.or_eq_true]
  tauto

theorem Named.head_alnum (hc : Named c) : c.name.toList.head?.any Char.isAlphanum := by
  obtain ⟨ch, hch, hlower⟩ := (Option.any_eq_true ..).mp hc.name_head
  rw [hch]
  simp [Char.isAlphanum, Char.isAlpha, hlower]

/-- Names of pods need no quotes. -/
theorem plainText_memberID (hc : Named c) (i : Nat) :
    plainText (memberID c i).toList := by
  have hlist : (memberID c i).toList = c.name.toList ++ ('-' :: (Nat.repr i).toList) := by
    simp [memberID]
  obtain ⟨ch, hch, hcolon⟩ := (Option.any_eq_true ..).mp (last_repr i)
  rw [hlist]
  refine plainText_append (fun ch hch => plainChar_of_dnsChar (hc.name_chars ch hch)) ?_
    hc.head_alnum ?_
  · rintro ch (_ | ⟨_, hmem⟩)
    · rfl
    · exact plainChar_of_isDigit (isDigit_of_mem_repr hmem)
  · rw [← List.singleton_append, List.getLast?_append, hch]
    simpa using hcolon

/-- Nor do their addresses, which end in the port. -/
theorem plainText_memberAddress (hc : Named c) (i : Nat) :
    plainText (memberAddress c i).toList := by
  have hlist : (memberAddress c i).toList = c.name.toList ++ ('-' :: (Nat.repr i).toList ++
      '.' :: c.name.toList ++ '.' :: c.ns.toList ++ ".svc.cluster.local:7000".toList) := by
    simp [memberAddress, podHost, memberID, grpcPort, Nat.repr, Nat.toDigits, Nat.toDigitsCore,
      Nat.digitChar]
  rw [hlist]
  have hname : ∀ ch ∈ c.name.toList, plainChar ch :=
    fun ch hch => plainChar_of_dnsChar (hc.name_chars ch hch)
  refine plainText_append hname ?_ hc.head_alnum ?_
  · intro ch hch
    simp only [List.mem_append, List.mem_cons] at hch
    rcases hch with ((((rfl | hdigit) | rfl | hch) | rfl | hch) | hch)
    · rfl
    · exact plainChar_of_isDigit (isDigit_of_mem_repr hdigit)
    · rfl
    · exact hname ch hch
    · rfl
    · exact plainChar_of_dnsChar (hc.ns_chars ch hch)
    · have hall : ".svc.cluster.local:7000".toList.all plainChar = true := by
        decide +kernel
      exact List.all_eq_true.mp hall ch hch
  · rw [List.getLast?_append]
    rfl

/-- A text with a dash is none of the texts of null. -/
theorem text_of_dash {t : String} (hplain : plainText t.toList) (hdash : '-' ∈ t.toList) :
    Settings.Text t := by
  refine ⟨hplain, fun hnull => ?_⟩
  have hfree : ["null", "Null", "NULL"].all (fun t => !t.toList.contains '-') = true := by
    decide
  have ht := List.all_eq_true.mp hfree t hnull
  simp [hdash] at ht

/-- The names of a cluster are DNS labels and its numbers are in range. -/
theorem settings_fits (hc : Named c) (hepoch : epoch < 2 ^ 64) :
    (settings c rep groupCommit epoch ordinals).Fits where
  listen := (by decide : ":7000".toList.all BlockText.quotedChar ∧
    ":8080".toList.all BlockText.quotedChar)
  dataDir := (by decide : Settings.Text "/data")
  members := by
    intro m hm
    obtain ⟨i, -, rfl⟩ := List.mem_map.mp hm
    exact ⟨text_of_dash (plainText_memberID hc i) (by simp [podMember, memberID]),
      text_of_dash (plainText_memberAddress hc i)
        (by simp [podMember, memberAddress, podHost, memberID])⟩
  ints := by
    have hn := rep.int32
    have hw := rep.write_quorum
    have hr := rep.read_quorum
    simp only [settings, List.forall_mem_cons, List.not_mem_nil, false_imp_iff, implies_true,
      and_true]
    omega
  epoch := hepoch
  durations := (by decide : ∀ d ∈ [(⟨30, .s⟩ : Duration), ⟨15, .m⟩, ⟨10, .s⟩, ⟨1, .s⟩, ⟨5, .s⟩,
    ⟨5, .s⟩, ⟨20, .s⟩, ⟨500, .ms⟩], d.nanoseconds < 2 ^ 63)

/-! ## The members a text is rendered for -/

/-- The configuration a rendered text stands for, with the name of a pod put in. -/
def podConfig (c : KVCluster) (rep : Replication) (groupCommit : Option Bool) (epoch : Nat)
    (ordinals : List Nat) (i : Nat) : NodeConfig :=
  { (settings c rep groupCommit epoch ordinals).config with nodeID := memberID c i }

variable {fmt : Formats} {members : Members} {text : String}

def entry (c : KVCluster) (i : Nat) : String × String :=
  (memberID c i, memberAddress c i)

/-- The ordinals found are those of the members, one by one. -/
theorem renderOrdinals_eq_ok : ∀ {l : List (String × String)} {is : List Nat},
    renderOrdinals fmt c l = .ok is → l = is.map (entry c)
  | [], is, h => by
    obtain rfl := Except.ok.inj h
    rfl
  | (id, addr) :: rest, is, h => by
    unfold renderOrdinals at h
    split at h
    · cases h
    · next i hi =>
      split_ifs at h with haddr
      cases hrest : renderOrdinals fmt c rest with
      | error => simp [hrest, Except.map] at h
      | ok is' =>
        rw [hrest] at h
        obtain rfl : i :: is' = is := Except.ok.inj h
        have hid := Planner.memberID_ordinal hi
        simp [entry, hid, not_not.mp haddr, renderOrdinals_eq_ok hrest]

/-- Pods have addresses of their own. -/
theorem memberAddress_inj {i j : Nat} (h : memberAddress c i = memberAddress c j) : i = j := by
  have hlist := congrArg String.toList h
  simp only [memberAddress, podHost, String.toList_append, List.append_assoc] at hlist
  exact Planner.memberID_inj.mp (String.toList_inj.mp (List.append_cancel_right hlist))

/-- What a rendered text is the text of. -/
structure RenderedFor (c : KVCluster) (rep : Replication) (members : Members)
    (ordinals : List Nat) : Prop where
  nodup : ordinals.Nodup
  enough : rep.n ≤ ordinals.length
  listed : ∃ is, ordinals.Perm is ∧ members.toList = is.map (entry c)

/-- No member is listed twice. -/
theorem RenderedFor.ids_nodup (h : RenderedFor c rep members ordinals)
    (groupCommit : Option Bool) (epoch : Nat) :
    ((settings c rep groupCommit epoch ordinals).members.map Member.id).Nodup := by
  simp only [settings, List.map_map]
  exact h.nodup.map fun i j hij => Planner.memberID_inj.mp hij

/-- The entries of the ordinals are the members. -/
theorem RenderedFor.mem_iff (h : RenderedFor c rep members ordinals) (p : String × String) :
    p ∈ ordinals.map (entry c) ↔ p ∈ members.toList := by
  obtain ⟨is, hperm, hlist⟩ := h.listed
  rw [hlist, (hperm.map (entry c)).mem_iff]

/-- A text is rendered only for members that are pods of the cluster at their own addresses. -/
theorem memberOrdinals_eq_ok (h : memberOrdinals fmt c rep members = .ok ordinals) :
    RenderedFor c rep members ordinals := by
  unfold memberOrdinals at h
  split_ifs at h with hsize
  cases his : renderOrdinals fmt c members.toList with
  | error => simp [his, Except.map] at h
  | ok is =>
    rw [his, Except.map] at h
    obtain rfl := Except.ok.inj h
    have hlist := renderOrdinals_eq_ok his
    have hkeys : (is.map (entry c)).map Prod.fst = members.keys := by
      rw [← hlist, Std.ExtTreeMap.map_fst_toList_eq_keys]
    have hperm := List.mergeSort_perm is fun a b => a ≤ b
    refine ⟨?_, ?_, is, hperm, hlist⟩
    · rw [hperm.nodup_iff]
      refine List.Nodup.of_map (memberID c) ?_
      have hnodup := members.nodup_keys
      rw [← hkeys, List.map_map] at hnodup
      exact hnodup
    · rw [hperm.length_eq, ← List.length_map (f := entry c), ← hlist, Std.ExtTreeMap.length_toList]
      omega

theorem configMap_eq_ok (h : memberOrdinals fmt c rep members = .ok ordinals) :
    configMap fmt c rep groupCommit epoch members =
      .ok (configText c rep groupCommit epoch ordinals) := by
  rw [configMap, h]
  rfl

/-- The member list of the configuration is the membership it was rendered for. -/
theorem RenderedFor.memberAddrs_eq (h : RenderedFor c rep members ordinals) :
    (settings c rep groupCommit epoch ordinals).config.memberAddrs = members := by
  refine Std.ExtTreeMap.ext_getElem? fun id => Option.ext fun addr => ?_
  rw [memberAddrs, Settings.config, getElem?_addrs (h.ids_nodup groupCommit epoch),
    ← Std.ExtTreeMap.mem_toList_iff_getElem?_eq_some, ← h.mem_iff]
  simp [entry, settings, podMember]

theorem plainChar_of_mem_memberID (hc : Named c) {i : Nat} {ch : Char}
    (h : ch ∈ (memberID c i).toList) : plainChar ch := by
  have hall := plainText_memberID hc i
  simp only [plainText, Bool.and_eq_true, List.all_eq_true] at hall
  exact hall.1.1 ch h

theorem memberID_ne_empty (i : Nat) : memberID c i ≠ "" := by
  intro he
  have := congrArg String.toList he
  simp [memberID] at this

/-- With the name of one of its members put in, the configuration passes validation. -/
theorem RenderedFor.valid (hc : Named c) (h : RenderedFor c rep members ordinals) {i : Nat}
    (hi : i ∈ ordinals) : Valid (podConfig c rep groupCommit epoch ordinals i) where
  nodeID_ne := memberID_ne_empty i
  nodeID_sep := fun hmem => absurd (plainChar_of_mem_memberID hc hmem) (by decide)
  self_mem := List.mem_map.mpr ⟨podMember c i, List.mem_map_of_mem hi, rfl⟩
  ids_sep := by
    intro m hm hmem
    obtain ⟨j, -, rfl⟩ := List.mem_map.mp hm
    exact absurd (plainChar_of_mem_memberID hc hmem) (by decide)
  ids_nodup := h.ids_nodup groupCommit epoch
  addrs_nodup := by
    simp only [podConfig, settings, Settings.config, List.map_map]
    exact h.nodup.map fun i j hij => memberAddress_inj hij
  dataDir_ne := by simp [podConfig, settings, Settings.config]
  write_quorum := by simpa [podConfig, settings, Settings.config] using rep.write_quorum
  read_quorum := by simpa [podConfig, settings, Settings.config] using rep.read_quorum
  enough := by simpa [podConfig, settings, Settings.config] using h.enough
  durations_pos := by
    simp only [durations, podConfig, settings, Settings.config]
    decide
  heartbeat_lt := Int.ofNat_lt.mpr (by decide : 500 * 1000000 < 1 * 1000000000)
  missed_pos := Int.natCast_pos.mpr (by decide : 0 < 3)
  memtable_pos := Int.natCast_pos.mpr (by decide : 0 < 4194304)

/-- Every member's node loads the text, with its own name put in. -/
theorem load_configText {decode : String → Except String NodeConfig} (fmt : Formats)
    (hread : (settings c rep groupCommit epoch ordinals).ReadBy decode Settings.config)
    (hc : Named c) (hepoch : epoch < 2 ^ 64) (h : RenderedFor c rep members ordinals) {i : Nat}
    (hi : i ∈ ordinals) :
    load decode fmt (memberID c i) (configText c rep groupCommit epoch ordinals) =
      .ok (podConfig c rep groupCommit epoch ordinals i) := by
  have hvalid : Valid (podConfig c rep groupCommit epoch ordinals i) := h.valid hc hi
  rw [configText_eq, load, hread (settings_fits hc hepoch)]
  simp only [if_pos (memberID_ne_empty i)]
  rw [← podConfig, hvalid.applyDefaults_eq, validate_eq_none_iff.mpr hvalid]

/-- A rendered member set passes the checks a node makes before it adopts one. -/
theorem checkMembers_entries (hc : Named c) : ∀ {ordinals : List Nat} {byAddr : Members},
    ordinals.Nodup → (∀ i ∈ ordinals, memberAddress c i ∉ byAddr) →
      DistributedKV.checkMembers byAddr (ordinals.map (entry c)) = none
  | [], _, _, _ => rfl
  | i :: ordinals, byAddr, hnodup, hnew => by
    have hchars : ¬('#' ∈ (memberID c i).toList ∨ '\x00' ∈ (memberID c i).toList) := by
      rintro (hmem | hmem) <;> exact absurd (plainChar_of_mem_memberID hc hmem) (by decide)
    have haddr : memberAddress c i ≠ "" := by
      intro he
      have := congrArg String.toList he
      simp [memberAddress] at this
    rw [List.map_cons, entry, DistributedKV.checkMembers, if_neg (memberID_ne_empty i),
      if_neg hchars, if_neg haddr, Std.ExtTreeMap.getElem?_eq_none (hnew i List.mem_cons_self)]
    obtain ⟨hi, hrest⟩ := List.nodup_cons.mp hnodup
    refine checkMembers_entries hc hrest fun j hj => ?_
    have hne : memberAddress c i ≠ memberAddress c j := fun he => hi (memberAddress_inj he ▸ hj)
    rw [Std.ExtTreeMap.mem_insert]
    simp [hne, hnew j (List.mem_cons_of_mem _ hj)]

/-- A node accepts the members it was rendered for. -/
theorem RenderedFor.validateMembers_eq_none (hc : Named c)
    (h : RenderedFor c rep members ordinals) : validateMembers members rep.n = none := by
  obtain ⟨is, hperm, hlist⟩ := h.listed
  have hsize : members.size = ordinals.length := by
    rw [← Std.ExtTreeMap.length_toList, hlist, List.length_map, hperm.length_eq]
  have henough := h.enough
  have hquorum := rep.write_quorum
  rw [validateMembers, if_neg (by omega), if_neg (by omega), hlist]
  exact checkMembers_entries hc (hperm.nodup_iff.mp h.nodup) (by simp)

/-- A node that starts on an empty directory holds what it was configured with. -/
theorem startup_empty (fp : Fingerprinter) (cfg : Config)
    (hvalid : validateMembers cfg.members cfg.n = none) :
    ∃ node changed dir,
      startup fp cfg ⟨⟨none, none⟩, ⟨none, none⟩⟩ none = (.ok (node, changed), dir) ∧
      node.view.epoch = cfg.epoch ∧ node.view.members = cfg.members := by
  by_cases hzero : cfg.epoch = 0
  · obtain ⟨v, -, hve, hvm, hstart⟩ := Life.startup_first fp cfg ⟨⟨none, none⟩, ⟨none, none⟩⟩ none
      rfl rfl hvalid hzero
    exact ⟨_, _, _, hstart, hve.trans hzero.symm, hvm⟩
  · obtain ⟨v, hv⟩ := exists_buildView fp 0 hvalid
    have hve := (buildView_eq_ok hv).1
    obtain ⟨w, -, hwe, hwm, hstart⟩ := Life.startup_newer cfg ⟨⟨none, none⟩, ⟨none, none⟩⟩ hvalid hv
      rfl rfl (by simp only [Option.getD_none]; omega)
    exact ⟨_, _, _, hstart, hwe, hwm⟩

/-- Every member is the pod of an ordinal. -/
theorem mem_of_renderedFor (h : RenderedFor c rep members ordinals) {id : String}
    (hid : id ∈ members) : ∃ i ∈ ordinals, id = memberID c i := by
  obtain ⟨addr, haddr⟩ := Option.isSome_iff_exists.mp
    (Std.ExtTreeMap.mem_iff_isSome_getElem?.mp hid)
  have hmem := (h.mem_iff (id, addr)).mpr (Std.ExtTreeMap.mem_toList_iff_getElem?_eq_some.mpr haddr)
  obtain ⟨i, hi, heq⟩ := List.mem_map.mp hmem
  exact ⟨i, hi, (congrArg Prod.fst heq).symm⟩

/-- An ordinal can be read back from the name of its pod. -/
theorem ordinal_memberID {i : Nat} (hi : i < 2 ^ 63) : ordinal c (memberID c i) = some i := by
  have hlist : (memberID c i).toList = (c.name ++ "-").toList ++ (Nat.repr i).toList := by
    simp [memberID]
  have hdigits : Nat.ofDigitChars 10 (Nat.repr i).toList 0 = i := by
    rw [Nat.toList_repr]
    exact Nat.ofDigitChars_toDigits (by decide) (by decide)
  have hstart : (c.name ++ "-").toList.isPrefixOf (memberID c i).toList = true := by
    rw [List.isPrefixOf_iff_prefix, hlist]
    exact List.prefix_append ..
  rw [ordinal]
  simp only [hstart, if_true]
  rw [hlist, List.drop_left, hdigits, if_pos ⟨hi, rfl⟩]

/-- What the planner plans are the first pods, at their own addresses, -/
theorem entry_of_mem_members {p : String × String} : ∀ {k : Nat},
    p ∈ (Planner.members c k).toList → ∃ i < k, p = entry c i
  | 0, h => by
    have hnil : (Planner.members c 0).toList = [] := rfl
    rw [hnil] at h
    cases h
  | k + 1, h => by
    obtain ⟨id, addr⟩ := p
    rw [Std.ExtTreeMap.mem_toList_iff_getElem?_eq_some, Planner.members,
      Std.ExtTreeMap.getElem?_insert] at h
    split_ifs at h with hid
    · obtain rfl : memberID c k = id := by simpa using hid
      exact ⟨k, by omega, by rw [entry, Option.some.inj h]⟩
    · obtain ⟨i, hi, heq⟩ :=
        entry_of_mem_members (Std.ExtTreeMap.mem_toList_iff_getElem?_eq_some.mpr h)
      exact ⟨i, by omega, heq⟩

/-- and the ordinals of such members can be found. -/
theorem exists_renderOrdinals (fmt : Formats) : ∀ {l : List (String × String)},
    (∀ p ∈ l, ∃ i < 2 ^ 63, p = entry c i) → ∃ is, renderOrdinals fmt c l = .ok is
  | [], _ => ⟨[], rfl⟩
  | p :: l, h => by
    obtain ⟨i, hi, rfl⟩ := h p List.mem_cons_self
    obtain ⟨is, his⟩ := exists_renderOrdinals fmt fun q hq => h q (List.mem_cons_of_mem _ hq)
    refine ⟨i :: is, ?_⟩
    simp [renderOrdinals, entry, ordinal_memberID hi, his, Except.map]

end

section

variable (fmt : Formats) (c : KVCluster) (rep : Replication) (groupCommit : Option Bool)
  (epoch : Nat) (members : Members) (ordinals : List Nat)

def trioCluster : KVCluster :=
  ⟨"kv", "kvstore", ⟨3, "kvnode:dev", 0⟩, ⟨.unset, none⟩⟩

def trio : Replication :=
  ⟨3, 2, 2, by decide, by decide, by decide⟩

theorem trioCluster_named : Named trioCluster where
  name_chars := List.all_eq_true.mp (by decide)
  name_head := by decide
  name_length := by decide
  ns_chars := List.all_eq_true.mp (by decide)

theorem memberOrdinals_trioCluster :
    memberOrdinals plainFormats trioCluster trio (Planner.members trioCluster 3) =
      .ok [0, 1, 2] := by
  have hlist : (Planner.members trioCluster 3).toList =
      [entry trioCluster 0, entry trioCluster 1, entry trioCluster 2] := rfl
  have hord (i : Nat) (hi : i < 2 ^ 63) : ordinal trioCluster (memberID trioCluster i) = some i :=
    ordinal_memberID hi
  have hsort : [0, 1, 2].mergeSort = [0, 1, 2] := List.mergeSort_of_pairwise (by decide)
  rw [memberOrdinals, if_neg (by decide), hlist]
  simp [renderOrdinals, entry, hord, Except.map, hsort]

/-- A pod that starts on an empty volume with the rendered configuration, its pod name as
`KV_NODE_ID`, holds the membership the text was rendered for, if the YAML library of the nodes
reads the text as the settings it was written from. -/
theorem rendered_starts (decode : String → Except String NodeConfig) (fp : Fingerprinter)
    (id : String) (hc : Named c) (hepoch : epoch < 2 ^ 64)
    (hordinals : memberOrdinals fmt c rep members = .ok ordinals)
    (hread : (settings c rep groupCommit epoch ordinals).ReadBy decode Settings.config)
    (hid : id ∈ members) :
    ∃ text cfg hvalid node changed dir,
      configMap fmt c rep groupCommit epoch members = .ok text ∧ load decode fmt id text = .ok cfg ∧
      cfg.nodeID = id ∧ cfg.cluster.n = rep.n ∧ cfg.cluster.w = rep.w ∧ cfg.cluster.r = rep.r ∧
      cfg.storage.groupCommitOn = groupCommit.getD true ∧
      startup fp (cfg.startConfig hvalid) ⟨⟨none, none⟩, ⟨none, none⟩⟩ none =
        (.ok (node, changed), dir) ∧
      node.view.epoch = epoch ∧ node.view.members = members := by
  have hfor := memberOrdinals_eq_ok hordinals
  obtain ⟨i, hi, rfl⟩ := mem_of_renderedFor hfor hid
  have hvalid : Valid (podConfig c rep groupCommit epoch ordinals i) := hfor.valid hc hi
  have haddrs : (podConfig c rep groupCommit epoch ordinals i).memberAddrs = members :=
    hfor.memberAddrs_eq
  have hcheck : validateMembers (podConfig c rep groupCommit epoch ordinals i).memberAddrs rep.n =
      none := by
    rw [haddrs]
    exact hfor.validateMembers_eq_none hc
  obtain ⟨node, changed, dir, hstart, hve, hvm⟩ := startup_empty fp (startConfig _ hvalid) hcheck
  exact ⟨_, _, hvalid, node, changed, dir, configMap_eq_ok hordinals,
    load_configText fmt hread hc hepoch hfor hi, rfl, rfl, rfl, rfl, rfl, hstart, hve,
    hvm.trans haddrs⟩

theorem rendered_starts_trio :
    ∃ (decode : String → Except String NodeConfig) (text : String) (cfg : NodeConfig)
      (hvalid : Valid cfg) (node : LiveNode) (changed : Bool) (dir : DataDir),
      configMap plainFormats trioCluster trio none 4 (Planner.members trioCluster 3) = .ok text ∧
      load decode plainFormats (memberID trioCluster 1) text = .ok cfg ∧
      cfg.nodeID = memberID trioCluster 1 ∧
      cfg.cluster.n = 3 ∧ cfg.cluster.w = 2 ∧ cfg.cluster.r = 2 ∧
      cfg.storage.groupCommitOn = true ∧
      startup plainFingerprinter (cfg.startConfig hvalid) ⟨⟨none, none⟩, ⟨none, none⟩⟩ none =
        (.ok (node, changed), dir) ∧
      node.view.epoch = 4 ∧ node.view.members = Planner.members trioCluster 3 :=
  ⟨fun _ => .ok (settings trioCluster trio none 4 [0, 1, 2]).config,
    rendered_starts plainFormats trioCluster trio none 4 _ _ _ plainFingerprinter _
      trioCluster_named (by decide) memberOrdinals_trioCluster (fun _ => rfl)
      ((Planner.mem_members (c := trioCluster) (i := 1) (k := 3)).mpr (by decide))⟩

/-- The operator observes what it has rendered, if its YAML library reads the text as the
settings it was written from, and it can render every membership it plans. -/
theorem configMapObs_configMap (decode : String → Except String (Nat × List Member))
    (name : String) (hc : Named c) (hepoch : epoch < 2 ^ 64) :
    (∀ members ordinals, memberOrdinals fmt c rep members = .ok ordinals →
      (settings c rep groupCommit epoch ordinals).ReadBy decode Settings.membership →
      ∃ text, configMap fmt c rep groupCommit epoch members = .ok text ∧
        configMapObs decode name (some text) = ⟨epoch, members, ""⟩) ∧
    ∀ k, rep.n ≤ k → k ≤ 2 ^ 63 →
      ∃ ordinals, memberOrdinals fmt c rep (Planner.members c k) = .ok ordinals := by
  constructor
  · intro members ordinals hordinals hread
    have hfor := memberOrdinals_eq_ok hordinals
    refine ⟨_, configMap_eq_ok hordinals, ?_⟩
    rw [configText_eq, configMapObs_text hread (settings_fits hc hepoch)
      (hfor.ids_nodup groupCommit epoch), hfor.memberAddrs_eq]
    rfl
  · intro k hn hk
    have hentries : ∀ p ∈ (Planner.members c k).toList, ∃ i < 2 ^ 63, p = entry c i := by
      intro p hp
      obtain ⟨i, hi, heq⟩ := entry_of_mem_members hp
      exact ⟨i, by omega, heq⟩
    obtain ⟨is, his⟩ := exists_renderOrdinals fmt hentries
    refine ⟨is.mergeSort, ?_⟩
    rw [memberOrdinals, if_neg (by rw [Planner.size_members]; omega), his]
    rfl

theorem configMapObs_configMap_trio :
    (∃ decode text, configMap plainFormats trioCluster trio none 4
        (Planner.members trioCluster 3) = .ok text ∧
      configMapObs decode "kv-config" (some text) = ⟨4, Planner.members trioCluster 3, ""⟩) ∧
      ∃ ordinals, memberOrdinals plainFormats trioCluster trio (Planner.members trioCluster 5) =
        .ok ordinals := by
  have h := configMapObs_configMap plainFormats trioCluster trio none 4
    (fun _ => .ok (settings trioCluster trio none 4 [0, 1, 2]).membership) "kv-config"
    trioCluster_named (by decide)
  exact ⟨⟨_, h.1 _ _ memberOrdinals_trioCluster fun _ => rfl⟩, h.2 5 (by decide) (by decide)⟩

end

end NodeConfig

end DistributedKV
