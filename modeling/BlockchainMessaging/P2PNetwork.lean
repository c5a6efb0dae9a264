import BlockchainMessaging.Text
import BlockchainMessaging.Lib.NodeList

/-!
# Broadcasting to the peers (`network/p2p_network.hpp`, `network/p2p_network.cpp`)

`broadcastMessage` walks over `peers` with an iterator and calls `removePeer` on the way, which
erases the element the iterator is at; `optimizeConnections` collects the peers first and removes
them afterwards. The elements of the map stand in the order of iteration, each with an address, which
no later element takes over; a step from an address that has been erased is `dangling`.
-/

namespace BlockchainMessaging

/-- `ν` is the type of the handles, `std::shared_ptr<Node>`. Of the network state only `messageCount`
is changed by a broadcast. -/
structure P2PNetwork (ν : Type*) where
  peers : NodeList (Bytes × ν)
  messageCount : UInt32
  keys_nodup : (peers.toList.map Prod.fst).Nodup

/-- How a broadcast can fail to end: an iterator is used after its element has been erased, or there
are more turns than elements. -/
inductive Fault where
  | dangling (it : ℕ)
  | outOfFuel
deriving DecidableEq

namespace P2PNetwork
variable {ν : Type*}

def keys (net : P2PNetwork ν) : List Bytes :=
  net.peers.toList.map Prod.fst

theorem keys_nodup_unlink (net : P2PNetwork ν) (it : ℕ) :
    ((net.peers.unlink it).toList.map Prod.fst).Nodup :=
  net.keys_nodup.sublist ((List.filter_sublist.map _).map _)

/-- `removePeer` erases the entry of `peerId`. -/
def removePeer (peerId : Bytes) (net : P2PNetwork ν) : P2PNetwork ν :=
  match net.peers.nodes.find? fun n => n.2.1 == peerId with
  | none => net
  | some n =>
    { net with peers := net.peers.unlink n.1, keys_nodup := net.keys_nodup_unlink n.1 }

/-- The state of the loop: the network, and the peers to which sending was attempted. -/
structure Broadcast (ν : Type*) where
  net : P2PNetwork ν
  attempts : List Bytes

/-- The body of the loop; `throws peerId` says that `sendMessage` throws for this peer. -/
def broadcastTurn (throws : Bytes → Bool) (peerId : Bytes) (b : Broadcast ν) : Broadcast ν :=
  if throws peerId then
    { net := b.net.removePeer peerId, attempts := b.attempts ++ [peerId] }
  else
    { net := { b.net with messageCount := b.net.messageCount + 1 }
      attempts := b.attempts ++ [peerId] }

/-- `none` is the end iterator. -/
def broadcastLoop (throws : Bytes → Bool) :
    ℕ → Option ℕ → Broadcast ν → Except Fault (Broadcast ν)
  | _, none, b => .ok b
  | 0, some _, _ => .error .outOfFuel
  | fuel + 1, some it, b =>
    match b.net.peers.deref it with
    | none => .error (.dangling it)
    | some (peerId, _) =>
      let b := broadcastTurn throws peerId b
      match b.net.peers.next it with
      | none => .error (.dangling it)
      | some pos => broadcastLoop throws fuel pos b

def broadcastMessage (throws : Bytes → Bool) (net : P2PNetwork ν) : Except Fault (Broadcast ν) :=
  broadcastLoop throws net.peers.nodes.length (net.peers.nodes.head?.map Prod.fst) ⟨net, []⟩

variable {throws : Bytes → Bool} {net : P2PNetwork ν} {b : Broadcast ν}

theorem removePeer_eq {it : ℕ} {peerId : Bytes} {peer : ν}
    (h : (it, peerId, peer) ∈ net.peers.nodes) :
    (net.removePeer peerId).peers = net.peers.unlink it := by
  unfold removePeer
  split
  · rename_i hnone
    have := List.find?_eq_none.1 hnone _ h
    simp at this
  · rename_i n hsome
    have hn := List.mem_of_find?_eq_some hsome
    have hkey : n.2.1 = peerId := by simpa using List.find?_some hsome
    have hvalue : n.2 = (peerId, peer) :=
      List.inj_on_of_nodup_map net.keys_nodup (List.mem_map_of_mem hn) (List.mem_map_of_mem h) hkey
    have heq : n = (it, peerId, peer) :=
      List.inj_on_of_nodup_map (net.keys_nodup.of_map _) hn h hvalue
    rw [heq]

theorem broadcastTurn_of_throws {peerId : Bytes} (h : throws peerId = true) (b : Broadcast ν) :
    (broadcastTurn throws peerId b).net = b.net.removePeer peerId := by
  rw [broadcastTurn, if_pos h]

theorem broadcastTurn_of_not_throws {peerId : Bytes} (h : throws peerId = false) (b : Broadcast ν) :
    broadcastTurn throws peerId b =
      { net := { b.net with messageCount := b.net.messageCount + 1 }
        attempts := b.attempts ++ [peerId] } := by
  rw [broadcastTurn, if_neg (by rw [h]; exact Bool.false_ne_true)]

/-- A peer whose send fails takes the iterator with it. -/
theorem broadcastLoop_of_throws {before after : List (ℕ × Bytes × ν)} {it : ℕ} {peerId : Bytes}
    {peer : ν} (hnodes : b.net.peers.nodes = before ++ (it, peerId, peer) :: after)
    (h : throws peerId = true) (fuel : ℕ) :
    broadcastLoop throws (fuel + 1) (some it) b = .error (.dangling it) := by
  have hmem : (it, peerId, peer) ∈ b.net.peers.nodes := by rw [hnodes]; simp
  simp only [broadcastLoop, NodeList.deref_of_nodes_eq hnodes, broadcastTurn_of_throws h,
    removePeer_eq hmem, NodeList.next_unlink]

/-- A turn without a failure goes on to the next element. -/
theorem broadcastLoop_of_not_throws {before after : List (ℕ × Bytes × ν)} {it : ℕ}
    {peerId : Bytes} {peer : ν} (hnodes : b.net.peers.nodes = before ++ (it, peerId, peer) :: after)
    (h : throws peerId = false) (fuel : ℕ) :
    broadcastLoop throws (fuel + 1) (some it) b =
      broadcastLoop throws fuel (after.head?.map Prod.fst)
        { net := { b.net with messageCount := b.net.messageCount + 1 }
          attempts := b.attempts ++ [peerId] } := by
  simp only [broadcastLoop, NodeList.deref_of_nodes_eq hnodes, broadcastTurn_of_not_throws h,
    NodeList.next_of_nodes_eq hnodes]

/-- The loop from any element on, when no send fails from there. -/
theorem broadcastLoop_of_forall (before : List (ℕ × Bytes × ν)) {rest : List (ℕ × Bytes × ν)}
    {fuel : ℕ} (hnodes : b.net.peers.nodes = before ++ rest) (hfuel : rest.length ≤ fuel)
    (h : ∀ n ∈ rest, throws n.2.1 = false) :
    broadcastLoop throws fuel (rest.head?.map Prod.fst) b = .ok
      { net := { b.net with messageCount := b.net.messageCount + UInt32.ofNat rest.length }
        attempts := b.attempts ++ rest.map fun n => n.2.1 } := by
  induction rest generalizing before fuel b with
  | nil => cases fuel <;> simp [broadcastLoop]
  | cons n rest ih =>
    obtain ⟨it, peerId, peer⟩ := n
    obtain ⟨fuel, rfl⟩ : ∃ k, fuel = k + 1 := ⟨fuel - 1, by simp at hfuel; omega⟩
    have hcount : (1 : UInt32) + UInt32.ofNat rest.length = UInt32.ofNat (rest.length + 1) := by
      rw [UInt32.ofNat_add, UInt32.add_comm]
      rfl
    rw [List.head?_cons, Option.map_some,
      broadcastLoop_of_not_throws hnodes (h _ List.mem_cons_self),
      ih (before ++ [(it, peerId, peer)]) (by simpa using hnodes) (by simpa using hfuel)
        fun n hn => h n (List.mem_cons_of_mem _ hn)]
    simp [UInt32.add_assoc, hcount]

/-- The loop from any element on, when some send fails from there: it stops at the first failure. -/
theorem broadcastLoop_of_exists (before : List (ℕ × Bytes × ν)) {rest : List (ℕ × Bytes × ν)}
    {fuel : ℕ} (hnodes : b.net.peers.nodes = before ++ rest) (hfuel : rest.length ≤ fuel)
    (h : ∃ n ∈ rest, throws n.2.1 = true) :
    ∃ n ∈ rest, throws n.2.1 = true ∧
      broadcastLoop throws fuel (rest.head?.map Prod.fst) b = .error (.dangling n.1) := by
  induction rest generalizing before fuel b with
  | nil =>
    obtain ⟨n, hn, -⟩ := h
    cases hn
  | cons n rest ih =>
    obtain ⟨it, peerId, peer⟩ := n
    obtain ⟨fuel, rfl⟩ : ∃ k, fuel = k + 1 := ⟨fuel - 1, by simp at hfuel; omega⟩
    rw [List.head?_cons, Option.map_some]
    cases hthrows : throws peerId with
    | true =>
      exact ⟨_, List.mem_cons_self, hthrows, broadcastLoop_of_throws hnodes hthrows fuel⟩
    | false =>
      have hrest : ∃ n ∈ rest, throws n.2.1 = true := by
        obtain ⟨m, hm, hm'⟩ := h
        rcases List.mem_cons.1 hm with rfl | hm
        · rw [hthrows] at hm'
          cases hm'
        · exact ⟨m, hm, hm'⟩
      obtain ⟨m, hm, hm', hloop⟩ := ih (before ++ [(it, peerId, peer)])
        (b := { net := { b.net with messageCount := b.net.messageCount + 1 }
                attempts := b.attempts ++ [peerId] })
        (by simpa using hnodes) (by simpa using hfuel) hrest
      refine ⟨m, List.mem_cons_of_mem _ hm, hm', ?_⟩
      rw [broadcastLoop_of_not_throws hnodes hthrows, hloop]

/-- What a broadcast is meant to do: every peer is tried once, those whose send fails are gone, the
others are counted. -/
structure Delivers (throws : Bytes → Bool) (net : P2PNetwork ν) (b : Broadcast ν) : Prop where
  attempts : b.attempts.Perm net.keys
  peers : b.net.peers.toList = net.peers.toList.filter fun p => !throws p.1
  messageCount : b.net.messageCount = net.messageCount + UInt32.ofNat b.net.peers.toList.length

theorem keys_eq (net : P2PNetwork ν) : net.keys = net.peers.nodes.map fun n => n.2.1 :=
  List.map_map

theorem exists_delivers (h : ∀ key ∈ net.keys, throws key = false) :
    ∃ b, broadcastMessage throws net = .ok b ∧ Delivers throws net b := by
  have hnodes : ∀ n ∈ net.peers.nodes, throws n.2.1 = false := by
    rwa [keys_eq, List.forall_mem_map] at h
  refine ⟨_, broadcastLoop_of_forall [] rfl le_rfl hnodes, ?_, ?_, ?_⟩
  · rw [keys_eq]
    exact List.Perm.refl _
  · refine (List.filter_eq_self.2 fun p hp => ?_).symm
    rw [h p.1 (List.mem_map_of_mem hp)]
    rfl
  · simp [NodeList.toList]

theorem broadcastMessage_of_exists (h : ∃ key ∈ net.keys, throws key = true) :
    ∃ it, broadcastMessage throws net = .error (.dangling it) := by
  obtain ⟨key, hkey, hthrows⟩ := h
  rw [keys_eq] at hkey
  obtain ⟨n, hn, rfl⟩ := List.mem_map.1 hkey
  obtain ⟨m, -, -, hloop⟩ := broadcastLoop_of_exists (b := ⟨net, []⟩) [] rfl le_rfl
    ⟨n, hn, hthrows⟩
  exact ⟨m.1, hloop⟩

end P2PNetwork

/-- A broadcast does what it is meant to do exactly when no send fails. The first failure erases the
element under the iterator, and the loop goes on from there. -/
theorem broadcast_delivers_iff {ν : Type*} (throws : Bytes → Bool) (net : P2PNetwork ν) :
    (∃ b, net.broadcastMessage throws = .ok b ∧ P2PNetwork.Delivers throws net b) ↔
      ∀ key ∈ net.keys, throws key = false := by
  refine ⟨fun h => ?_, P2PNetwork.exists_delivers⟩
  by_contra hfail
  simp only [not_forall, Bool.not_eq_false] at hfail
  obtain ⟨key, hkey, hthrows⟩ := hfail
  obtain ⟨it, hdangling⟩ := P2PNetwork.broadcastMessage_of_exists ⟨key, hkey, hthrows⟩
  obtain ⟨b, hb, -⟩ := h
  rw [hdangling] at hb
  cases hb

/-- Two peers, `alice` and `bob`. -/
def Sample.network : P2PNetwork Unit where
  peers := ((NodeList.empty.pushFront (ascii "bob", ())).pushFront (ascii "alice", ()))
  messageCount := 0
  keys_nodup := by decide +kernel

/-- The connection to `alice` is down. -/
theorem alice_dangles :
    ¬ ∀ (throws : Bytes → Bool) (net : P2PNetwork Unit),
      ∃ b, net.broadcastMessage throws = .ok b ∧ P2PNetwork.Delivers throws net b := by
  intro h
  obtain ⟨b, hb, -⟩ := h (fun key => key = ascii "alice") Sample.network
  have hdangling : Sample.network.broadcastMessage (fun key => key = ascii "alice") =
      .error (.dangling 1) := rfl
  rw [hdangling] at hb
  cases hb

end BlockchainMessaging
