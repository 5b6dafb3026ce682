import KvRaft.Lib.Addresses
import KvRaft.Raft.Leaders
import KvRaft.Server.System

/-! The configuration of a server, and the addresses that it gives to clients. A server is told the
raft addresses of its cluster and finds the client addresses of the others from the distance between
its own two ports; it answers a call that it cannot serve with the address of the node that its raft
node takes for the leader. -/

namespace KvRaft.Server

open Raft Store Addresses

structure Config where
  id : Int
  raftAddress : Text
  clientAddress : Text
  peers : List Text
  clientPeers : List Text
  storeDir : Text := []
  storeOptions : OpenOptions := { readWrite := false }
  applyBuffer : Int := 0
  /-- in nanoseconds -/
  commitTimeout : Int := 0

/-- Whose address an error is about. -/
inductive AddressOf
  | raft
  | client
  | peer
deriving DecidableEq

/-- An error with the values that its text shows. -/
inductive ConfigError
  | nodeID
  | raftAddress
  | peerCount (clientPeers peers : Nat)
  | parseAddress (which : AddressOf) (address : Text) (err : AddrError)
  | parsePort (which : AddressOf) (port : Text) (err : NumError)
  | invalidClientPort (port : Int) (peer : Text)
deriving DecidableEq

/-- The host and the port of `address`; an error shows the address as it was `given`. -/
def parseHostPort (which : AddressOf) (given address : Text) : Except ConfigError (Text × Int) :=
  match splitHostPort address with
  | .error err => .error (.parseAddress which given err)
  | .ok (host, portText) =>
    match atoi portText with
    | .error err => .error (.parsePort which portText err)
    | .ok port => .ok (host, port)

/-- The body of the loop of `deriveClientPeerAddresses`; the sum wraps around. -/
def deriveClientPeerAddress (offset : Int) (peer : Text) : Except ConfigError Text :=
  match parseHostPort .peer peer (trimSpace peer) with
  | .error err => .error err
  | .ok (host, peerPort) =>
    let clientPeerPort := (peerPort + offset).bmod (2 ^ 64)
    if clientPeerPort ≤ 0 then .error (.invalidClientPort clientPeerPort peer)
    else .ok (joinHostPort host (itoa clientPeerPort))

def deriveClientPeerAddresses (raftPeers : List Text) (raftAddress clientAddress : Text) :
    Except ConfigError (List Text) :=
  match parseHostPort .raft raftAddress raftAddress with
  | .error err => .error err
  | .ok (_, raftPort) =>
    match parseHostPort .client clientAddress clientAddress with
    | .error err => .error err
    | .ok (_, clientPort) =>
      raftPeers.mapM (deriveClientPeerAddress ((clientPort - raftPort).bmod (2 ^ 64)))

namespace Config

/-- A client address that is not given is taken from the list. -/
def ownClientAddress (cfg : Config) : Text :=
  if cfg.clientAddress = [] ∧ cfg.id < cfg.clientPeers.length then
    trimSpace (cfg.clientPeers.getD cfg.id.toNat [])
  else cfg.clientAddress

/-- The values of the fields that are left open. -/
def fillDefaults (cfg : Config) : Config :=
  { cfg with
    storeDir := if cfg.storeDir = [] then "kvstore_".toList ++ itoa cfg.id else cfg.storeDir
    applyBuffer := if cfg.applyBuffer ≤ 0 then 256 else cfg.applyBuffer
    commitTimeout := if cfg.commitTimeout ≤ 0 then 5 * 1000000000 else cfg.commitTimeout
    storeOptions :=
      { cfg.storeOptions with
        maxDataFileSizeBytes :=
          if cfg.storeOptions.maxDataFileSizeBytes ≤ 0 then 64 * 1024 * 1024
          else cfg.storeOptions.maxDataFileSizeBytes
        readWrite := true } }

end Config

def normalizeConfig (cfg : Config) : Except ConfigError Config :=
  if cfg.id < 0 then .error .nodeID
  else if cfg.raftAddress = [] then .error .raftAddress
  else if 0 < cfg.clientPeers.length ∧ cfg.clientPeers.length ≠ cfg.peers.length then
    .error (.peerCount cfg.clientPeers.length cfg.peers.length)
  else
    let cfg := { cfg with clientAddress := cfg.ownClientAddress }
    if cfg.clientPeers.length = 0 ∧ 0 < cfg.peers.length ∧ cfg.clientAddress ≠ [] then
      match deriveClientPeerAddresses cfg.peers cfg.raftAddress cfg.clientAddress with
      | .error err => .error err
      | .ok derived => .ok { cfg with clientPeers := derived }.fillDefaults
    else .ok cfg.fillDefaults

/-- The map of the addresses by their positions; an address of white space is left out. -/
def addressesByID (addresses : List Text) (id : Int) : Option Text :=
  if 0 ≤ id then
    match addresses[id.toNat]? with
    | some address => if trimSpace address = [] then none else some (trimSpace address)
    | none => none
  else none

/-- The fields of `RaftKVServer` with addresses of clients. -/
structure Directory where
  id : Int
  clientAddress : Text
  clientPeers : Int → Option Text

/-- What `NewRaftKVServer` makes of its configuration. -/
def newDirectory (cfg : Config) : Except ConfigError Directory :=
  match normalizeConfig cfg with
  | .error err => .error err
  | .ok cfg => .ok {
      id := cfg.id
      clientAddress := cfg.clientAddress
      clientPeers :=
        if cfg.clientAddress ≠ [] then
          Function.update (addressesByID cfg.clientPeers) cfg.id (some cfg.clientAddress)
        else addressesByID cfg.clientPeers }

/-- The answer of the client service; of the error, which one it is. -/
structure KVResponse where
  success : Bool
  error : Option Error := none
  value : Bytes := []
  leader : Text := []

namespace Directory

def startClientListener (d : Directory) (clientPort : Text) : Directory :=
  { d with
    clientAddress := clientPort
    clientPeers := Function.update d.clientPeers d.id (some clientPort) }

def leaderAddress (d : Directory) (leaderID : Int) : Text :=
  if leaderID < 0 then []
  else
    match d.clientPeers leaderID with
    | some address => address
    | none => if leaderID = d.id then d.clientAddress else []

def errorResponse (d : Directory) (leaderID : Int) (err : Error) : KVResponse :=
  { success := false
    error := some err
    leader := if err = .notLeader then d.leaderAddress leaderID else [] }

/-- `Get`, `Put` and `Delete` of `GRPCKVService`, from what the call of the server returns. -/
def respond (d : Directory) (leaderID : Int) : Result → KVResponse
  | .nil => { success := true }
  | .value bytes => { success := true, value := bytes }
  | .failed err => d.errorResponse leaderID err

end Directory

/-! ### The command `kv-server` -/

def localAddress (port : Int) : Text := "localhost:".toList ++ itoa port

/-- A list of addresses between commas; the flag that is not given is empty. -/
def splitFlag (flag : Text) : List Text := if flag = [] then [] else flag.splitOn ','

def flagConfig (id port clientPort : Int) (peersFlag clientPeersFlag : Text) : Config where
  id := id
  raftAddress := localAddress port
  clientAddress := localAddress clientPort
  peers := splitFlag peersFlag
  clientPeers := splitFlag clientPeersFlag

/-- The addresses that the server has once it listens for clients. -/
def kvServer (id port clientPort : Int) (peersFlag clientPeersFlag : Text) :
    Except ConfigError Directory :=
  match newDirectory (flagConfig id port clientPort peersFlag clientPeersFlag) with
  | .error err => .error err
  | .ok d => .ok (d.startClientListener (localAddress clientPort))

/-! ### Configurations that have been normalised -/

theorem mapM_map_eq_ok {α β γ ε : Type} {f : β → Except ε γ} {p : α → β} {q : α → γ} {xs : List α}
    (h : ∀ x ∈ xs, f (p x) = .ok (q x)) : (xs.map p).mapM f = .ok (xs.map q) := by
  induction xs with
  | nil => rfl
  | cons x xs ih =>
    obtain ⟨hx, hxs⟩ := List.forall_mem_cons.mp h
    rw [List.map_cons, List.mapM_cons, hx, ih hxs]
    rfl

theorem mapM_length {α β ε : Type} {f : α → Except ε β} {xs : List α} {ys : List β}
    (h : xs.mapM f = .ok ys) : ys.length = xs.length := by
  induction xs generalizing ys with
  | nil =>
    obtain rfl := Except.ok.inj h
    rfl
  | cons x xs ih =>
    rw [List.mapM_cons] at h
    cases hx : f x with
    | error err =>
      rw [hx] at h
      cases h
    | ok y =>
      cases hxs : xs.mapM f with
      | error err =>
        rw [hx, hxs] at h
        cases h
      | ok rest =>
        rw [hx, hxs] at h
        obtain rfl := Except.ok.inj h
        rw [List.length_cons, List.length_cons, ih hxs]

@[simp] theorem Config.fillDefaults_fillDefaults (cfg : Config) :
    cfg.fillDefaults.fillDefaults = cfg.fillDefaults := by
  have hsize : ¬ ((64 * 1024 * 1024 : Int64) ≤ 0) := by decide
  simp only [fillDefaults, Config.mk.injEq, OpenOptions.mk.injEq, true_and]
  refine ⟨?_, ?_, ?_, ?_⟩
  · split <;> simp_all
  · split <;> simp_all
  · split <;> simp_all
  · split <;> simp_all

theorem Config.ownClientAddress_ownClientAddress (cfg : Config) :
    { cfg with clientAddress := cfg.ownClientAddress }.ownClientAddress = cfg.ownClientAddress := by
  by_cases h : cfg.clientAddress = [] ∧ cfg.id < cfg.clientPeers.length
  · simp only [ownClientAddress, if_pos h]
    split <;> rfl
  · simp only [ownClientAddress, if_neg h]

theorem normalizeConfig_derive {cfg : Config} {derived : List Text} (hid : 0 ≤ cfg.id)
    (hraft : cfg.raftAddress ≠ []) (hnone : cfg.clientPeers = []) (hpeers : cfg.peers ≠ [])
    (hclient : cfg.clientAddress ≠ [])
    (h : deriveClientPeerAddresses cfg.peers cfg.raftAddress cfg.clientAddress = .ok derived) :
    normalizeConfig cfg = .ok { cfg with clientPeers := derived }.fillDefaults := by
  have hown : cfg.ownClientAddress = cfg.clientAddress := if_neg fun hopen => hclient hopen.1
  rw [normalizeConfig, if_neg (by omega), if_neg hraft, if_neg (by simp [hnone])]
  simp only [hown]
  rw [if_pos ⟨by simp [hnone], List.length_pos_iff.mpr hpeers, hclient⟩, h]

/-- A configuration that leaves nothing open. -/
structure Config.Normal (cfg : Config) : Prop where
  id : 0 ≤ cfg.id
  raftAddress : cfg.raftAddress ≠ []
  count : cfg.clientPeers = [] ∨ cfg.clientPeers.length = cfg.peers.length
  /-- the clients of the peers are known, unless the server has none of its own -/
  known : cfg.clientPeers = [] → cfg.peers = [] ∨ cfg.clientAddress = []
  own : cfg.ownClientAddress = cfg.clientAddress
  filled : cfg.fillDefaults = cfg

theorem deriveClientPeerAddresses_length {raftPeers derived : List Text}
    {raftAddress clientAddress : Text}
    (h : deriveClientPeerAddresses raftPeers raftAddress clientAddress = .ok derived) :
    derived.length = raftPeers.length := by
  unfold deriveClientPeerAddresses at h
  split at h
  · cases h
  · split at h
    · cases h
    · exact mapM_length h

/-- What is accepted is normal. -/
theorem normal_of_normalizeConfig {cfg cfg' : Config} (h : normalizeConfig cfg = .ok cfg') :
    cfg'.Normal := by
  unfold normalizeConfig at h
  split at h
  · cases h
  split at h
  · cases h
  split at h
  · cases h
  next hid hraft hcount =>
  dsimp only at h
  split at h
  · next hnone =>
    split at h
    · cases h
    · next derived hderived =>
      obtain rfl := Except.ok.inj h
      have hlen := deriveClientPeerAddresses_length hderived
      exact {
        id := Int.not_lt.mp hid
        raftAddress := hraft
        count := Or.inr hlen
        known := fun hnil => by
          rw [show derived = [] from hnil] at hlen
          exact Or.inl (List.length_eq_zero_iff.mp hlen.symm)
        own := if_neg fun hopen => hnone.2.2 hopen.1
        filled := Config.fillDefaults_fillDefaults _ }
  · next hsome =>
    obtain rfl := Except.ok.inj h
    exact {
      id := Int.not_lt.mp hid
      raftAddress := hraft
      count := by
        by_cases hnil : cfg.clientPeers = []
        · exact Or.inl hnil
        · exact Or.inr (not_not.mp fun hne => hcount ⟨List.length_pos_iff.mpr hnil, hne⟩)
      known := fun hnil => by
        by_contra hcon
        obtain ⟨hpeers, haddress⟩ := not_or.mp hcon
        exact hsome ⟨List.length_eq_zero_iff.mpr hnil, List.length_pos_iff.mpr hpeers, haddress⟩
      own := cfg.ownClientAddress_ownClientAddress
      filled := Config.fillDefaults_fillDefaults _ }

/-- What is normal stays as it is. -/
theorem Config.Normal.normalizeConfig {cfg : Config} (h : cfg.Normal) :
    normalizeConfig cfg = .ok cfg := by
  have hderive :
      ¬ (cfg.clientPeers.length = 0 ∧ 0 < cfg.peers.length ∧ cfg.clientAddress ≠ []) := by
    rintro ⟨hnone, hpeers, haddress⟩
    rcases h.known (List.length_eq_zero_iff.mp hnone) with heq | heq
    · rw [heq] at hpeers
      exact absurd hpeers (by simp)
    · exact haddress heq
  have hcount : ¬ (0 < cfg.clientPeers.length ∧ cfg.clientPeers.length ≠ cfg.peers.length) := by
    rintro ⟨hpos, hne⟩
    rcases h.count with heq | heq
    · rw [heq] at hpos
      exact absurd hpos (by simp)
    · exact hne heq
  have hid := h.id
  rw [Server.normalizeConfig, if_neg (by omega), if_neg h.raftAddress, if_neg hcount]
  simp only [h.own, if_neg hderive, h.filled]

/-- A configuration that has been accepted is accepted again, without a change. -/
theorem normalizeConfig_normalizeConfig {cfg cfg' : Config} (h : normalizeConfig cfg = .ok cfg') :
    normalizeConfig cfg' = .ok cfg' :=
  (normal_of_normalizeConfig h).normalizeConfig

/-! ### A cluster of servers -/

/-- Where the nodes of a cluster are to be found: the client port of each is at the same distance
from its raft port. -/
structure Deployment (n : Nat) where
  host : Fin n → Text
  port : Fin n → Int
  offset : Int
  plain : ∀ i, PlainHost (host i)
  trimmed : ∀ i, ∀ c ∈ (host i).head?, isSpace c = false
  noComma : ∀ i, ',' ∉ host i
  range : ∀ i, 0 ≤ port i ∧ port i < 2 ^ 16
  clientRange : ∀ i, 0 < port i + offset ∧ port i + offset < 2 ^ 16

namespace Deployment

variable {n : Nat} (D : Deployment n)

def peers : List Text := (List.finRange n).map fun i => joinHostPort (D.host i) (itoa (D.port i))

/-- The address under which the others know the clients' side of a node. -/
def clientAddress (j : Fin n) : Text := joinHostPort (D.host j) (itoa (D.port j + D.offset))

/-- The server of a node, started with the addresses of the cluster for `-peers`. -/
def server (i : Fin n) : Except ConfigError Directory :=
  kvServer i (D.port i) (D.port i + D.offset) ([','].intercalate D.peers) []

/-- The address that node `i` has for the clients of `j`. -/
def known (i j : Fin n) : Text :=
  if j = i then localAddress (D.port i + D.offset) else D.clientAddress j

theorem atoi_port (i : Fin n) : atoi (itoa (D.port i)) = .ok (D.port i) := by
  have := D.range i
  exact atoi_itoa (by omega) (by omega)

theorem atoi_clientPort (i : Fin n) :
    atoi (itoa (D.port i + D.offset)) = .ok (D.port i + D.offset) := by
  have := D.clientRange i
  exact atoi_itoa (by omega) (by omega)

theorem localAddress_eq (port : Int) :
    localAddress port = joinHostPort "localhost".toList (itoa port) := rfl

theorem splitHostPort_localAddress (port : Int) :
    splitHostPort (localAddress port) = .ok ("localhost".toList, itoa port) := by
  rw [localAddress_eq]
  exact splitHostPort_joinHostPort ⟨by decide, by decide⟩ (plainPort_itoa port)

/-- The client address of every peer is found. -/
theorem deriveClientPeerAddress_eq (j : Fin n) :
    deriveClientPeerAddress D.offset (joinHostPort (D.host j) (itoa (D.port j))) =
      .ok (D.clientAddress j) := by
  have hrange := D.clientRange j
  have hmod : (D.port j + D.offset).bmod (2 ^ 64) = D.port j + D.offset :=
    Int.bmod_eq_of_le (by omega) (by omega)
  have htrim : trimSpace (joinHostPort (D.host j) (itoa (D.port j))) =
      joinHostPort (D.host j) (itoa (D.port j)) :=
    trimSpace_joinHostPort (D.trimmed j) fun _ hc => isSpace_itoa hc
  simp only [deriveClientPeerAddress, parseHostPort, htrim, D.atoi_port,
    splitHostPort_joinHostPort (D.plain j) (plainPort_itoa _), hmod]
  rw [if_neg (by omega)]
  rfl

theorem deriveClientPeerAddresses_eq (i : Fin n) :
    deriveClientPeerAddresses D.peers (localAddress (D.port i))
      (localAddress (D.port i + D.offset)) = .ok ((List.finRange n).map D.clientAddress) := by
  have hrange := D.range i
  have hrange' := D.clientRange i
  have hmod : (D.port i + D.offset - D.port i).bmod (2 ^ 64) = D.offset := by
    rw [add_sub_cancel_left]
    exact Int.bmod_eq_of_le (by omega) (by omega)
  simp only [deriveClientPeerAddresses, parseHostPort, splitHostPort_localAddress, D.atoi_port,
    D.atoi_clientPort, hmod, peers]
  exact mapM_map_eq_ok fun j _ => D.deriveClientPeerAddress_eq j

theorem splitFlag_peers (i : Fin n) : splitFlag ([','].intercalate D.peers) = D.peers := by
  have hmem : joinHostPort (D.host i) (itoa (D.port i)) ∈ D.peers :=
    List.mem_map_of_mem (List.mem_finRange i)
  have hcomma : ∀ peer ∈ D.peers, ',' ∉ peer := by
    intro peer hpeer
    obtain ⟨j, -, rfl⟩ := List.mem_map.mp hpeer
    exact notMem_joinHostPort (by decide) (D.noComma j) (notMem_itoa rfl (by decide))
  have hne : D.peers ≠ [] := List.ne_nil_of_mem hmem
  have hsplit := List.splitOn_intercalate ',' hcomma hne
  rw [splitFlag, if_neg, hsplit]
  intro hnil
  rw [hnil] at hsplit
  have hpeers : D.peers = [[]] := hsplit.symm
  rw [hpeers, List.mem_singleton] at hmem
  exact joinHostPort_ne_nil hmem

theorem localAddress_ne_nil (port : Int) : localAddress port ≠ [] :=
  localAddress_eq port ▸ joinHostPort_ne_nil

def config (i : Fin n) : Config :=
  flagConfig i (D.port i) (D.port i + D.offset) ([','].intercalate D.peers) []

/-- The flags of a node are accepted, and the client addresses are those of the deployment. -/
theorem normalizeConfig_config (i : Fin n) : normalizeConfig (D.config i) =
    .ok { D.config i with clientPeers := (List.finRange n).map D.clientAddress }.fillDefaults := by
  have hpeers : (D.config i).peers = D.peers := D.splitFlag_peers i
  refine normalizeConfig_derive (by simp [config, flagConfig]) (localAddress_ne_nil _) rfl ?_
    (localAddress_ne_nil _) ?_
  · rw [hpeers]
    exact List.ne_nil_of_mem (List.mem_map_of_mem (List.mem_finRange i))
  · rw [hpeers]
    exact D.deriveClientPeerAddresses_eq i

/-- A derived address is taken as it is. -/
theorem addressesByID_clientAddress (j : Fin n) :
    addressesByID ((List.finRange n).map D.clientAddress) j = some (D.clientAddress j) := by
  have htrim : trimSpace (D.clientAddress j) = D.clientAddress j :=
    trimSpace_joinHostPort (D.trimmed j) fun _ hc => isSpace_itoa hc
  have hne : D.clientAddress j ≠ [] := joinHostPort_ne_nil
  simp [addressesByID, htrim, hne]

/-- Every server of the deployment starts, and knows all others by their addresses. -/
theorem server_eq (i : Fin n) :
    ∃ d, D.server i = .ok d ∧ ∀ j : Fin n, d.clientPeers j = some (D.known i j) := by
  have hnew : newDirectory (flagConfig i (D.port i) (D.port i + D.offset)
      ([','].intercalate D.peers) []) = .ok {
        id := i
        clientAddress := localAddress (D.port i + D.offset)
        clientPeers := Function.update (addressesByID ((List.finRange n).map D.clientAddress)) i
          (some (localAddress (D.port i + D.offset))) } := by
    have hconfig := D.normalizeConfig_config i
    rw [config] at hconfig
    rw [newDirectory, hconfig]
    simp [Config.fillDefaults, flagConfig, localAddress_ne_nil]
  rw [server, kvServer, hnew]
  refine ⟨_, rfl, fun j => ?_⟩
  by_cases hj : j = i
  · rw [known, if_pos hj, hj]
    exact Function.update_self ..
  · have hne : (j : Int) ≠ i := by omega
    rw [known, if_neg hj, ← D.addressesByID_clientAddress j]
    exact (Function.update_of_ne hne _ _).trans (Function.update_of_ne hne _ _)

end Deployment

/-- The hint of a "not leader" answer. In a cluster whose servers are started with the same list of
peers and the same distance between their ports, every server finds an address for the clients of
every node; and in every run, the hint that a node gives is empty if it knows no leader, and
otherwise the address of a node elected in its present term. In a cluster of up to three nodes, that
is the only one elected in it. -/
theorem hint_names_leader {n : Nat} (D : Deployment n) {as : List (Action n)} {c : Cluster n}
    (hrun : (cluster n).exec (Cluster.start (D.peers.map String.ofList)) as = some c) (i : Fin n) :
    ∃ d, D.server i = .ok d ∧ (∀ j : Fin n, d.clientPeers j = some (D.known i j)) ∧
      (((c.node i).leaderID = -1 ∧
          (d.respond (c.node i).leaderID (.failed .notLeader)).leader = []) ∨
        ∃ j : Fin n,
          (j, (c.node i).currentTerm) ∈ (cluster n).reads Cluster.elected
            (Cluster.start (D.peers.map String.ofList)) as ∧
          (d.respond (c.node i).leaderID (.failed .notLeader)).leader = D.known i j ∧
          (n ≤ 3 → ∀ k, (k, (c.node i).currentTerm) ∈ (cluster n).reads Cluster.elected
            (Cluster.start (D.peers.map String.ofList)) as → k = j)) := by
  have hp : (D.peers.map String.ofList).length = n := by simp [Deployment.peers]
  obtain ⟨d, hd, hknown⟩ := D.server_eq i
  refine ⟨d, hd, hknown, ?_⟩
  rcases ((Announced.of_run hp hrun).node i).other with hnone | ⟨j, hj, hmem⟩
  · refine Or.inl ⟨hnone, ?_⟩
    simp [Directory.respond, Directory.errorResponse, Directory.leaderAddress, hnone]
  · refine Or.inr ⟨j, hmem, ?_, fun hn k hk => ?_⟩
    · have hpos : ¬ (j : Int) < 0 := by omega
      simp [Directory.respond, Directory.errorResponse, Directory.leaderAddress, hj, hpos, hknown]
    · obtain ⟨g, hel⟩ := Elected.of_run hp hn i hrun
      exact Option.some.inj ((hel.owner k _ hk).symm.trans (hel.owner j _ hmem))

/-- Three servers on one machine, with raft ports from 6000 and client ports from 8000. -/
def localDeployment : Deployment 3 where
  host _ := "localhost".toList
  port i := 6000 + i
  offset := 2000
  plain := by decide
  trimmed _ c hc := by
    have hhead : "localhost".toList.head? = some 'l' := by decide
    obtain rfl : 'l' = c := Option.some.inj (hhead.symm.trans hc)
    decide
  noComma := by decide
  range := by decide
  clientRange := by decide

/-- When node 0 has been elected and has sent its first entry, node 1 sends clients to the address
that node 0 listens on. -/
theorem hint_names_leader_local :
    ∃ c, (cluster 3).exec (Cluster.start (localDeployment.peers.map String.ofList)) oneCommand =
        some c ∧
      ∃ d, localDeployment.server 1 = .ok d ∧
        (∀ j : Fin 3, d.clientPeers j = some (localDeployment.known 1 j)) ∧
        (d.respond (c.node 1).leaderID (.failed .notLeader)).leader = "localhost:8000".toList ∧
        ∃ j : Fin 3, (j, (c.node 1).currentTerm) ∈ (cluster 3).reads Cluster.elected
            (Cluster.start (localDeployment.peers.map String.ofList)) oneCommand ∧
          (d.respond (c.node 1).leaderID (.failed .notLeader)).leader =
            localDeployment.known 1 j := by
  have hrun : ((cluster 3).exec (Cluster.start (localDeployment.peers.map String.ofList))
      oneCommand).map (fun c => (c.node 1).leaderID) = some 0 := by decide +kernel
  have hhint : ∀ d, localDeployment.server 1 = .ok d →
      (d.respond 0 (.failed .notLeader)).leader = "localhost:8000".toList := by
    have heq : ((localDeployment.server 1).map fun d =>
        (d.respond 0 (.failed .notLeader)).leader) = .ok "localhost:8000".toList := by
      decide +kernel
    intro d hd
    rw [hd] at heq
    exact Except.ok.inj heq
  obtain ⟨c, hc, hleader⟩ := Option.map_eq_some_iff.mp hrun
  obtain ⟨d, hd, hpeers, h⟩ := hint_names_leader localDeployment hc 1
  refine ⟨c, hc, d, hd, hpeers, hleader ▸ hhint d hd, ?_⟩
  rcases h with ⟨hnone, -⟩ | ⟨j, hj, hknown, -⟩
  · rw [hleader] at hnone
    cases hnone
  · exact ⟨j, hj, hknown⟩

end KvRaft.Server
