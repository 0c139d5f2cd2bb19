import MinaVerify.Block
import MinaVerify.Foundations.Interleaving

/-! # Building a verifier

`Verifier::for_network` of `crates/mina-verify/src/lib.rs`, on a native target, as the steps it takes
on what all threads of the process share: the network configuration, which is set once, and the panic
hook. `take_hook` hands out the installed hook and leaves the default one; the call swaps in a hook
that prints nothing, runs `BlockVerifier::make` under `catch_unwind`, and puts back what it took. -/
namespace MinaVerify
set_option autoImplicit false

variable {T : Types} {H ι : Type}

/-- `SUPPORTED_NETWORKS`. -/
def supportedNetworks : List String := ["devnet", "mainnet"]

/-- `VerifierError`, as far as building a verifier raises it. -/
inductive ForNetworkError where
  | unknownNetwork (network : String)
  | networkAlreadyInitialized (active requested : String)
  | verificationKeyUnavailable (network : String)
  | invalidIndexJson (text : String)
  deriving DecidableEq, Repr

/-- The default hook, the hook `Box::new(|_| {})`, and the hooks a program installs. -/
inductive Hook (H : Type) where
  | default
  | silent
  | custom (hook : H)
  deriving DecidableEq, Repr

/-- `NetworkConfig` and the panic hook. -/
structure Process (H : Type) where
  config : Option String
  hook : Hook H
  deriving DecidableEq, Repr

/-- The step a call takes next, with the locals it still needs. -/
inductive Call (T : Types) (H : Type) where
  | start
  | configured (initFailed : Bool)
  | takeHook (network : String)
  | setSilent (network : String) (prev : Hook H)
  | make (network : String) (prev : Hook H)
  | setPrev (network : String) (prev : Hook H) (r : Option T.VerifierIndex)
  | returned (r : Except ForNetworkError (Verifier T))

/-- The network each call asks for, what `BlockVerifier::make` does in it, with `none` for a panic,
and what the embedded mainnet index parses to. -/
structure Calls (T : Types) (ι : Type) where
  network : ι → String
  make : ι → Option T.VerifierIndex
  mainnetIndex : Except String T.VerifierIndex

/-- `with_index_json` on the embedded mainnet index, under the name of the network. -/
def withMainnetIndex (network : String) :
    Except String T.VerifierIndex → Except ForNetworkError (Verifier T)
  | .ok index => .ok ⟨network, index⟩
  | .error e => .error (.invalidIndexJson e)

def forNetwork (calls : Calls T ι) (i : ι) : Process H × Call T H → Process H × Call T H
  | (p, .start) =>
    let network := calls.network i
    if network ∈ supportedNetworks then
      -- `NetworkConfig::init` sets the configuration unless it is set
      ({ p with config := some (p.config.getD network) }, .configured p.config.isSome)
    else (p, .returned (.error (.unknownNetwork network)))
  | (p, .configured initFailed) =>
    let requested := calls.network i
    -- `NetworkConfig::global` would set the devnet configuration if there were none
    let active := p.config.getD "devnet"
    let p := { p with config := some active }
    if initFailed ∧ active ≠ requested then
      (p, .returned (.error (.networkAlreadyInitialized active requested)))
    else if active = "mainnet" then (p, .returned (withMainnetIndex active calls.mainnetIndex))
    else (p, .takeHook active)
  | (p, .takeHook network) => ({ p with hook := .default }, .setSilent network p.hook)
  | (p, .setSilent network prev) => ({ p with hook := .silent }, .make network prev)
  | (p, .make network prev) => (p, .setPrev network prev (calls.make i))
  | (p, .setPrev network prev r) =>
    ({ p with hook := prev }, .returned (match r with
      | some index => .ok ⟨network, index⟩
      | none => .error (.verificationKeyUnavailable network)))
  | (p, .returned r) => (p, .returned r)

namespace Call

def isReturned : Call T H → Bool
  | .returned _ => true
  | _ => false

/-- The hook a call has taken and not yet put back. -/
def held : Call T H → Option (Hook H)
  | .setSilent _ prev => some prev
  | .make _ prev => some prev
  | .setPrev _ prev _ => some prev
  | _ => none

/-- The number of steps a call may still take. -/
def remaining : Call T H → ℕ
  | .start => 6
  | .configured _ => 5
  | .takeHook _ => 4
  | .setSilent _ _ => 3
  | .make _ _ => 2
  | .setPrev _ _ _ => 1
  | .returned _ => 0

theorem held_of_isReturned {t : Call T H} (h : t.isReturned = true) : t.held = none := by
  cases t <;> simp_all [isReturned, held]

end Call

theorem forNetwork_remaining (calls : Calls T ι) (i : ι) (p : Process H) (t : Call T H)
    (ht : ¬ t.isReturned = true) : (forNetwork calls i (p, t)).2.remaining < t.remaining := by
  cases t with
  | start =>
    rw [forNetwork]
    split_ifs <;> simp [Call.remaining]
  | configured initFailed =>
    rw [forNetwork]
    split_ifs <;> simp [Call.remaining]
  | takeHook network => simp [forNetwork, Call.remaining]
  | setSilent network prev => simp [forNetwork, Call.remaining]
  | make network prev => simp [forNetwork, Call.remaining]
  | setPrev network prev r => simp [forNetwork, Call.remaining]
  | returned r => simp [Call.isReturned] at ht

/-- All threads of a process about to call `for_network`. -/
def started (T : Types) (ι : Type) (p : Process H) : Interleaving.Config ι (Process H) (Call T H) :=
  ⟨p, fun _ => .start⟩

/-! ## What one step does to the hooks -/

/-- The hook that is taken moves from the process to the call and back; the rest of a call leaves both
alone, except that it silences the process in between. -/
theorem forNetwork_cases (calls : Calls T ι) (i : ι) (p : Process H) (t : Call T H) :
    (t.held = none ∧ (∀ network, t ≠ .takeHook network) ∧ (forNetwork calls i (p, t)).1.hook = p.hook ∧
      (forNetwork calls i (p, t)).2.held = none) ∨
    ((∃ network, t = .takeHook network) ∧ (forNetwork calls i (p, t)).1.hook = .default ∧
      (forNetwork calls i (p, t)).2.held = some p.hook) ∨
    (∃ prev, t.held = some prev ∧ (forNetwork calls i (p, t)).2.held = some prev ∧
      ((forNetwork calls i (p, t)).1.hook = .silent ∨ (forNetwork calls i (p, t)).1.hook = p.hook)) ∨
    (∃ prev, t.held = some prev ∧ (forNetwork calls i (p, t)).2.isReturned = true ∧
      (forNetwork calls i (p, t)).1.hook = prev) := by
  cases t with
  | start =>
    left
    rw [forNetwork]
    split_ifs <;> simp [Call.held]
  | configured initFailed =>
    left
    rw [forNetwork]
    split_ifs <;> simp [Call.held]
  | takeHook network => simp [forNetwork, Call.held]
  | setSilent network prev => simp [forNetwork, Call.held]
  | make network prev => simp [forNetwork, Call.held]
  | setPrev network prev r => simp [forNetwork, Call.held, Call.isReturned]
  | returned r => simp [forNetwork, Call.held]

theorem forNetwork_returned (calls : Calls T ι) (i : ι) (p : Process H) {t : Call T H}
    (ht : t.isReturned = true) : forNetwork calls i (p, t) = (p, t) := by
  cases t with
  | returned r => rfl
  | _ => simp [Call.isReturned] at ht

end MinaVerify
