import MinaVerify.Foundations.Outcome

/-! # Reaching a network

The networks that `network_seeds` of `crates/mina-verify-capture/src/lib.rs` knows, and how the gossip loop
and the fetches begin: the addresses of the seeds are parsed, and `transport::swarm` dials each of them. Both
have constants for arguments, and both panic on a failure. -/
namespace MinaVerify
set_option autoImplicit false

/-! ## Networks -/

def devnetChainId : String := "29936104443aaf264a7f0192ac64b1c7173198c1ed404c1bcff5e562e05eb7f6"

def devnetPeers : List String :=
  ["/dns4/seed-1.devnet.gcp.o1test.net/tcp/10003/p2p/12D3KooWAdgYL6hv18M3iDBdaK1dRygPivSfAfBNDzie6YqydVbs",
    "/dns4/seed-2.devnet.gcp.o1test.net/tcp/10003/p2p/12D3KooWLjs54xHzVmMmGYb7W5RVibqbwD1co7M2ZMfPgPm7iAag",
    "/dns4/seed-3.devnet.gcp.o1test.net/tcp/10003/p2p/12D3KooWEiGVAFC7curXWXiGZyMWnZK9h8BKr88U8D5PKV3dXciv"]

def mainnetChainId : String := "a7351abc7ddf2ea92d1b38cc8e636c271c1dfd2c081c637f62ebc2af34eb7cc1"

def mainnetPeers : List String :=
  ["/dns4/seed-1.mainnet.gcp.o1test.net/tcp/10003/p2p/12D3KooWCa1d7G3SkRxy846qTvdAFX69NnoYZ32orWVLqJcDVGHW",
    "/dns4/seed-2.mainnet.gcp.o1test.net/tcp/32002/p2p/12D3KooWK4NfthViCTyLgVQa1WvqDC1NccVxGruCXCZUt3GqvFvn",
    "/dns4/seed-3.mainnet.gcp.o1test.net/tcp/32003/p2p/12D3KooWNofeYVAJXA3WGg2qCDhs3GEe71kTmKpFQXRbZmCz1Vr7",
    "/dns4/seed-4.mainnet.gcp.o1test.net/tcp/10003/p2p/12D3KooWEdBiTUQqxp3jeuWaZkwiSNcFxC6d6Tdq7u2Lf2ZD2Q6X",
    "/dns4/seed-5.mainnet.gcp.o1test.net/tcp/32005/p2p/12D3KooWL1DJTigSwuKQRfQE3p7puFUqfbHjXbZJ9YBWtMNpr3GU",
    "/dns4/seed-6.mainnet.gcp.o1test.net/tcp/32006/p2p/12D3KooWHGx4u32n42ub7dJNxAcAhwiA1WDq1Zsjn3k7RsS11pE8",
    "/dns4/mina-mainnet-seed.staketab.com/tcp/10003/p2p/12D3KooWSDTiXcdBVpN12ZqXJ49qCFp8zB1NnovuhZu6A28GLF1J",
    "/dns4/production-mainnet-libp2p.minaprotocol.network/tcp/10000/p2p/12D3KooWPywsM191KGGNVGiNqN35nyyJg4W2BhhYukF6hP9YBR8q",
    "/dns4/seed.minaexplorer.com/tcp/8302/p2p/12D3KooWR7coZtrMHvsgsfiWq2GESYypac3i29LFGp6EpbtjxBiJ"]

def mesaMutChainId : String := "8b8ccbf273ef48aa0193ed634e69540657f0fc4292c9919a54b76a21b104abb2"

def mesaMutPeers : List String :=
  ["/ip4/57.129.147.16/tcp/8302/p2p/12D3KooWAhy6QE9Re1dJwQiU6QMooVA9hTPN2HxJsnSjBQALANFv",
    "/ip4/194.87.21.152/tcp/8302/p2p/12D3KooWKPYJknMVauxpvWpwt4E1SUXr9fsjAN8YaYHaCv1FTFjg",
    "/ip4/37.27.109.20/tcp/8302/p2p/12D3KooWBZrHAfHDvtWUqW2ngSsQfHtyHqzQzxyQEvsjZygdCV9N",
    "/ip4/65.21.197.119/tcp/8302/p2p/12D3KooWF2sNkn1urFsQvB9GMSQCpkMMzuYvhqcWknWK6fUdYWE7",
    "/ip4/65.109.53.139/tcp/8302/p2p/12D3KooWGUjdTjajTMMzz8tJfCWTLcayDaixzWYEHLaB8gQwZrsy"]

/-- The chain id and the seed peers of a network. -/
def networkSeeds (network : String) : Option (String × List String) :=
  if network = "devnet" then some (devnetChainId, devnetPeers)
  else if network = "mainnet" then some (mainnetChainId, mainnetPeers)
  else if network = "mesa-mut" then some (mesaMutChainId, mesaMutPeers)
  else none

/-! ## Dialling -/

def unwrapMessage (e : String) : String := "called `Result::unwrap()` on an `Err` value: " ++ e

/-- The errors, as `Debug` texts, of parsing an address and of dialling it. -/
structure Transport where
  parse : String → Option String
  dial : String → Option String

namespace Transport

/-- The addresses are parsed, where `message` is that of the `expect`, and the swarm dials each of them. -/
def connect (transport : Transport) (message : String) (peers : List String) : Outcome Unit :=
  match peers.findSome? transport.parse with
  | some e => .panicked (message ++ ": " ++ e)
  | none =>
    match peers.findSome? transport.dial with
    | some e => .panicked (unwrapMessage e)
    | none => .returned ()

/-- Every address parses and can be dialled. -/
def Dials (transport : Transport) (peers : List String) : Prop :=
  ∀ peer ∈ peers, transport.parse peer = none ∧ transport.dial peer = none

variable {transport : Transport} {message : String} {peers : List String}

theorem dials_iff : transport.Dials peers ↔
    peers.findSome? transport.parse = none ∧ peers.findSome? transport.dial = none := by
  rw [List.findSome?_eq_none_iff, List.findSome?_eq_none_iff, Dials]
  constructor
  · intro h
    exact ⟨fun peer hpeer => (h peer hpeer).1, fun peer hpeer => (h peer hpeer).2⟩
  · rintro ⟨hparse, hdial⟩ peer hpeer
    exact ⟨hparse peer hpeer, hdial peer hpeer⟩

theorem connect_eq_returned : transport.connect message peers = .returned () ↔ transport.Dials peers := by
  rw [dials_iff, connect]
  cases peers.findSome? transport.parse with
  | some e => simp
  | none =>
    cases peers.findSome? transport.dial with
    | some e => simp
    | none => simp

theorem connect_ne_diverged : transport.connect message peers ≠ .diverged := by
  rw [connect]
  cases peers.findSome? transport.parse with
  | some e => simp
  | none =>
    cases peers.findSome? transport.dial with
    | some e => simp
    | none => simp

theorem connect_panics :
    (∃ text, transport.connect message peers = .panicked text) ↔ ¬ transport.Dials peers := by
  rw [← connect_eq_returned]
  cases hconnect : transport.connect message peers with
  | returned r => simp
  | panicked text => simp
  | diverged => exact absurd hconnect connect_ne_diverged

end Transport
end MinaVerify
