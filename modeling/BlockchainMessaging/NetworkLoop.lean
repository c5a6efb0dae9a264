import BlockchainMessaging.P2PNetwork
import BlockchainMessaging.Lib.Fifo
import BlockchainMessaging.Lib.Run
import Mathlib.Data.Rat.Defs

/-!
# The turns of the network loop (`network/p2p_network.cpp`)

`handleIncomingMessages` empties the queue while the functions it calls may fill it again.
`optimizeConnections` first walks over the peers and only then removes the slow ones, so no iterator
outlives its element. What is called and has no body is a parameter.
-/

namespace BlockchainMessaging
open Machine While Fifo

/-! ### Incoming messages -/

/-- The enumerators that the `switch` names, and the rest. -/
inductive IncomingType where
  | transaction | block | peerDiscovery | validationRequest | other
deriving DecidableEq

/-- `μ` is `Message` and `σ` the state of everything but the queue. Each function may put messages into
the queue. -/
structure MessageHandlers (σ μ : Type*) where
  getType : μ → IncomingType
  processTransaction : σ → μ → σ × List μ
  processBlock : σ → μ → σ × List μ
  handlePeerDiscovery : σ → μ → σ × List μ
  handleValidationRequest : σ → μ → σ × List μ

namespace MessageHandlers
variable {σ μ : Type*}

/-- The `switch`; the calls are recorded. -/
def dispatch (H : MessageHandlers σ μ) (s : σ × List (IncomingType × μ)) (message : μ) :
    (σ × List (IncomingType × μ)) × List μ :=
  match H.getType message with
  | .transaction =>
    let r := H.processTransaction s.1 message
    ((r.1, s.2 ++ [(.transaction, message)]), r.2)
  | .block =>
    let r := H.processBlock s.1 message
    ((r.1, s.2 ++ [(.block, message)]), r.2)
  | .peerDiscovery =>
    let r := H.handlePeerDiscovery s.1 message
    ((r.1, s.2 ++ [(.peerDiscovery, message)]), r.2)
  | .validationRequest =>
    let r := H.handleValidationRequest s.1 message
    ((r.1, s.2 ++ [(.validationRequest, message)]), r.2)
  | .other => (s, [])

abbrev Incoming (σ μ : Type*) := Drain μ (σ × List (IncomingType × μ))

/-- `none` when the loop needs more than `fuel` turns. -/
def handleIncomingMessages (H : MessageHandlers σ μ) (fuel : ℕ) (s : σ) (messageQueue : List μ) :
    Option (Incoming σ μ) :=
  loop (Drain.turn H.dispatch) Drain.Empty fuel (.start messageQueue (s, []))

/-- The loop ends in `d`. -/
def Handles (H : MessageHandlers σ μ) (s : σ) (messageQueue : List μ) (d : Incoming σ μ) : Prop :=
  ∃ fuel, H.handleIncomingMessages fuel s messageQueue = some d

/-- What the `switch` calls for these messages, in order. -/
def calls (H : MessageHandlers σ μ) (messages : List μ) : List (IncomingType × μ) :=
  (messages.filter fun message => H.getType message ≠ .other).map
    fun message => (H.getType message, message)

variable {H : MessageHandlers σ μ}

theorem dispatch_fst_snd (s : σ × List (IncomingType × μ)) (message : μ) :
    (H.dispatch s message).1.2 = s.2 ++ H.calls [message] := by
  unfold dispatch calls
  cases h : H.getType message <;> simp [h]

theorem calls_append (messages messages' : List μ) :
    H.calls (messages ++ messages') = H.calls messages ++ H.calls messages' := by
  rw [calls, List.filter_append, List.map_append]
  rfl

/-- What has been taken from the queue has been dispatched, and nothing else. -/
structure Dispatched (H : MessageHandlers σ μ) (messageQueue : List μ) (d : Incoming σ μ) : Prop where
  inOrder : d.InOrder messageQueue
  calls : d.rest.2 = H.calls d.taken

theorem Dispatched.turn {messageQueue : List μ} {d : Incoming σ μ}
    (h : H.Dispatched messageQueue d) : H.Dispatched messageQueue (d.turn H.dispatch) := by
  refine ⟨h.inOrder.turn, ?_⟩
  cases hq : d.queue with
  | nil =>
    have hsame : d.turn H.dispatch = d := by unfold Drain.turn; rw [hq]
    rw [hsame, h.calls]
  | cons message queue =>
    rw [Drain.turn_of_cons hq]
    simp only [dispatch_fst_snd, h.calls, calls_append]

theorem dispatched_of_handles {s : σ} {messageQueue : List μ} {d : Incoming σ μ}
    (h : H.Handles s messageQueue d) : H.Dispatched messageQueue d ∧ d.queue = [] := by
  have hends : Ends (Drain.turn H.dispatch) Drain.Empty (.start messageQueue (s, [])) d := h
  have hstart : H.Dispatched messageQueue (.start messageQueue (s, [])) :=
    ⟨.start messageQueue (s, []), rfl⟩
  obtain ⟨hd, hempty⟩ := hends.inv (fun _ _ h => h.turn) hstart
  exact ⟨hd, Drain.empty_iff.1 hempty⟩

end MessageHandlers

namespace P2PNetwork
variable {ν : Type*}

/-- The first loop of `optimizeConnections`; `none` is the end iterator. -/
def collectLoop (getLatency : ν → ℚ) (net : P2PNetwork ν) :
    ℕ → Option ℕ → List Bytes → Except Fault (List Bytes)
  | _, none, slowPeers => .ok slowPeers
  | 0, some _, _ => .error .outOfFuel
  | fuel + 1, some it, slowPeers =>
    match net.peers.deref it with
    | none => .error (.dangling it)
    | some (peerId, peer) =>
      let slowPeers := if getLatency peer > 1000 then slowPeers ++ [peerId] else slowPeers
      match net.peers.next it with
      | none => .error (.dangling it)
      | some pos => collectLoop getLatency net fuel pos slowPeers

/-- A turn of the second loop. `findNewPeer` may differ from turn to turn. -/
def replacePeer (findNewPeer : ℕ → P2PNetwork ν → P2PNetwork ν) (net : P2PNetwork ν)
    (slow : Bytes × ℕ) : P2PNetwork ν :=
  findNewPeer slow.2 (net.removePeer slow.1)

def optimizeConnections (getLatency : ν → ℚ) (findNewPeer : ℕ → P2PNetwork ν → P2PNetwork ν)
    (net : P2PNetwork ν) : Except Fault (P2PNetwork ν) :=
  (collectLoop getLatency net net.peers.nodes.length (net.peers.nodes.head?.map Prod.fst) []).map
    fun slowPeers => slowPeers.zipIdx.foldl (replacePeer findNewPeer) net

def slowKeys (getLatency : ν → ℚ) (net : P2PNetwork ν) : List Bytes :=
  (net.peers.toList.filter fun p => getLatency p.2 > 1000).map Prod.fst

/-- `findNewPeer` takes no peer away. -/
def Finds (findNewPeer : ℕ → P2PNetwork ν → P2PNetwork ν) : Prop :=
  ∀ i net, ∀ p ∈ net.peers.toList, p ∈ (findNewPeer i net).peers.toList

variable {getLatency : ν → ℚ} {findNewPeer : ℕ → P2PNetwork ν → P2PNetwork ν} {net : P2PNetwork ν}

/-- The walk from any element on: the map does not change under it. -/
theorem collectLoop_eq (before : List (ℕ × Bytes × ν)) {rest : List (ℕ × Bytes × ν)} {fuel : ℕ}
    (hnodes : net.peers.nodes = before ++ rest) (hfuel : rest.length ≤ fuel)
    (slowPeers : List Bytes) :
    collectLoop getLatency net fuel (rest.head?.map Prod.fst) slowPeers =
      .ok (slowPeers ++ (rest.filter fun n => getLatency n.2.2 > 1000).map fun n => n.2.1) := by
  induction rest generalizing before fuel slowPeers with
  | nil => cases fuel <;> simp [collectLoop]
  | cons n rest ih =>
    obtain ⟨it, peerId, peer⟩ := n
    obtain ⟨fuel, rfl⟩ : ∃ k, fuel = k + 1 := ⟨fuel - 1, by simp at hfuel; omega⟩
    rw [List.head?_cons, Option.map_some, collectLoop]
    simp only [NodeList.deref_of_nodes_eq hnodes, NodeList.next_of_nodes_eq hnodes]
    rw [ih (before ++ [(it, peerId, peer)]) (by simpa using hnodes) (by simpa using hfuel)]
    by_cases hslow : getLatency peer > 1000 <;> simp [hslow]

theorem optimizeConnections_eq :
    net.optimizeConnections getLatency findNewPeer =
      .ok ((net.slowKeys getLatency).zipIdx.foldl (replacePeer findNewPeer) net) := by
  have hkeys : (net.peers.nodes.filter fun n => getLatency n.2.2 > 1000).map (fun n => n.2.1) =
      net.slowKeys getLatency := by
    rw [slowKeys, NodeList.toList, List.filter_map, List.map_map]
    rfl
  rw [optimizeConnections, collectLoop_eq [] rfl le_rfl, List.nil_append, hkeys]
  rfl

theorem toList_removePeer (peerId : Bytes) (net : P2PNetwork ν) :
    (net.removePeer peerId).peers.toList = net.peers.toList.filter fun p => p.1 != peerId := by
  by_cases hmem : ∃ n ∈ net.peers.nodes, n.2.1 = peerId
  · obtain ⟨⟨it, key, peer⟩, hn, rfl⟩ := hmem
    rw [removePeer_eq hn, NodeList.toList, NodeList.toList, NodeList.unlink, List.filter_map]
    congr 1
    refine List.filter_congr fun m hm => ?_
    -- address and key of an entry go together
    rw [Bool.eq_iff_iff, bne_iff_ne, Function.comp, bne_iff_ne]
    refine not_congr ⟨fun hit => ?_, fun hkey => ?_⟩
    · rw [NodeList.eq_of_fst_eq hm hn hit]
    · have hvalue : m.2 = (key, peer) :=
        List.inj_on_of_nodup_map net.keys_nodup (List.mem_map_of_mem hm) (List.mem_map_of_mem hn) hkey
      have heq : m = (it, key, peer) :=
        List.inj_on_of_nodup_map (net.keys_nodup.of_map _) hm hn hvalue
      rw [heq]
  · have hnone : (net.peers.nodes.find? fun n => n.2.1 == peerId) = none := by
      refine List.find?_eq_none.2 fun n hn hkey => hmem ⟨n, hn, by simpa using hkey⟩
    have hsame : net.removePeer peerId = net := by
      unfold removePeer
      rw [hnone]
    rw [hsame]
    refine (List.filter_eq_self.2 fun p hp => ?_).symm
    obtain ⟨n, hn, rfl⟩ := List.mem_map.1 hp
    simpa using fun hkey => hmem ⟨n, hn, hkey⟩

theorem mem_removePeer {peerId : Bytes} {p : Bytes × ν} :
    p ∈ (net.removePeer peerId).peers.toList ↔ p ∈ net.peers.toList ∧ p.1 ≠ peerId := by
  rw [toList_removePeer, List.mem_filter, bne_iff_ne]

/-- A peer whose key is not on the list stays. -/
theorem mem_foldl_replacePeer (hfinds : Finds findNewPeer) {p : Bytes × ν} :
    ∀ (slow : List (Bytes × ℕ)) (net : P2PNetwork ν), p ∈ net.peers.toList →
      (∀ k ∈ slow, k.1 ≠ p.1) → p ∈ (slow.foldl (replacePeer findNewPeer) net).peers.toList
  | [], _, hp, _ => hp
  | k :: slow, net, hp, hkeys => by
    have hk : p.1 ≠ k.1 := Ne.symm (hkeys k List.mem_cons_self)
    rw [List.foldl_cons]
    refine mem_foldl_replacePeer hfinds slow _ ?_ fun k' hk' => hkeys k' (List.mem_cons_of_mem _ hk')
    exact hfinds k.2 _ p (mem_removePeer.2 ⟨hp, hk⟩)

/-- `findNewPeer` has brought the peer in, in the turn for the slow peer `k`. -/
def FoundAt (findNewPeer : ℕ → P2PNetwork ν → P2PNetwork ν) (net : P2PNetwork ν)
    (slow : List (Bytes × ℕ)) (p : Bytes × ν) : Prop :=
  ∃ before k after, slow = before ++ k :: after ∧
    let net' := (before.foldl (replacePeer findNewPeer) net).removePeer k.1
    p ∉ net'.peers.toList ∧ p ∈ (findNewPeer k.2 net').peers.toList

theorem FoundAt.cons {slow : List (Bytes × ℕ)} {k : Bytes × ℕ} {p : Bytes × ν}
    (h : FoundAt findNewPeer (replacePeer findNewPeer net k) slow p) :
    FoundAt findNewPeer net (k :: slow) p := by
  obtain ⟨before, k', after, rfl, hfound⟩ := h
  exact ⟨k :: before, k', after, rfl, hfound⟩

theorem of_mem_foldl_replacePeer {p : Bytes × ν} :
    ∀ (slow : List (Bytes × ℕ)) (net : P2PNetwork ν),
      p ∈ (slow.foldl (replacePeer findNewPeer) net).peers.toList →
        (p ∈ net.peers.toList ∧ ∀ k ∈ slow, k.1 ≠ p.1) ∨ FoundAt findNewPeer net slow p
  | [], _, hp => .inl ⟨hp, fun _ h => absurd h List.not_mem_nil⟩
  | k :: slow, net, hp => by
    rcases of_mem_foldl_replacePeer slow _ hp with ⟨hmem, hkeys⟩ | hfound
    · by_cases hkept : p ∈ (net.removePeer k.1).peers.toList
      · obtain ⟨hnet, hk⟩ := mem_removePeer.1 hkept
        exact .inl ⟨hnet, List.forall_mem_cons.2 ⟨Ne.symm hk, hkeys⟩⟩
      · exact .inr ⟨[], k, slow, rfl, hkept, hmem⟩
    · exact .inr hfound.cons

/-- The keys are unique, so a fast peer does not share one with a slow peer. -/
theorem notMem_slowKeys_of_le {p : Bytes × ν} (hp : p ∈ net.peers.toList)
    (hfast : getLatency p.2 ≤ 1000) : p.1 ∉ net.slowKeys getLatency := by
  intro hslow
  obtain ⟨q, hq, hkey⟩ := List.mem_map.1 hslow
  obtain ⟨hq, hlatency⟩ := List.mem_filter.1 hq
  have heq : q = p := List.inj_on_of_nodup_map net.keys_nodup hq hp hkey
  subst heq
  exact absurd hfast (not_le.2 (of_decide_eq_true hlatency))

end P2PNetwork

/-- The handles are the latencies: `alice` answers after 1.5 seconds, `bob` after 0.02. -/
def Sample.measuredNetwork : P2PNetwork ℚ where
  peers := ((NodeList.empty.pushFront (ascii "bob", 20)).pushFront (ascii "alice", 1500))
  messageCount := 0
  keys_nodup := by decide +kernel

end BlockchainMessaging
