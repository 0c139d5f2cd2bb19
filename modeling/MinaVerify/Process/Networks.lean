import MinaVerify.Process.ForNetwork

/-! # One network for the process

Threads that call `Verifier::for_network` race for the network configuration: the first call of
`NetworkConfig::init` decides it, and no later step changes it. What each call returns is then a
function of the network that won. The constructors that take a verifier index from JSON,
`with_index_json` and `for_network_offline`, read none of it. -/
namespace MinaVerify
set_option autoImplicit false
open Interleaving

variable {T : Types} {H ι : Type}

/-! ## The constructors that leave the process alone -/

/-- `verifier_index_from_json`, with the text of its error, and the JSON files embedded in the crate. -/
structure IndexJson (T : Types) where
  parse : String → Except String T.VerifierIndex
  devnet : String
  mainnet : String

def embeddedIndexJson (json : IndexJson T) (network : String) : Option String :=
  if network = "devnet" then some json.devnet
  else if network = "mainnet" then some json.mainnet
  else none

def withIndexJson (json : IndexJson T) (text : String) : Except ForNetworkError (Verifier T) :=
  match json.parse text with
  | .ok index => .ok ⟨"custom", index⟩
  | .error e => .error (.invalidIndexJson e)

def forNetworkOffline (json : IndexJson T) (network : String) :
    Except ForNetworkError (Verifier T) :=
  match embeddedIndexJson json network with
  | none => .error (.unknownNetwork network)
  | some text =>
    match withIndexJson json text with
    | .ok v => .ok { v with network := network }
    | .error e => .error e

theorem forNetworkOffline_ok {json : IndexJson T} {network : String} {v : Verifier T} :
    forNetworkOffline json network = .ok v ↔
      ∃ text, embeddedIndexJson json network = some text ∧ json.parse text = .ok v.index ∧
        v.network = network := by
  unfold forNetworkOffline withIndexJson
  cases embeddedIndexJson json network with
  | none => simp
  | some text =>
    cases hparse : json.parse text with
    | error e => simp [hparse]
    | ok index =>
      obtain ⟨name, index'⟩ := v
      simp only [Except.ok.injEq, Verifier.mk.injEq, Option.some.injEq, exists_eq_left', hparse]
      rw [and_comm, eq_comm (a := name)]

/-! ## What the network that won makes of a call -/

/-- The result of a call once the configuration is set. -/
def verdict (calls : Calls T ι) (config : Option String) (i : ι) :
    Except ForNetworkError (Verifier T) :=
  let requested := calls.network i
  let active := config.getD requested
  if requested ∉ supportedNetworks then .error (.unknownNetwork requested)
  else if active ≠ requested then .error (.networkAlreadyInitialized active requested)
  else if active = "mainnet" then withMainnetIndex active calls.mainnetIndex
  else
    match calls.make i with
    | some index => .ok ⟨active, index⟩
    | none => .error (.verificationKeyUnavailable active)

/-- A call that is past `init` runs under the network it asked for, or is about to be refused. -/
def OnTrack (calls : Calls T ι) (config : Option String) (i : ι) : Call T H → Prop
  | .start => True
  | .configured initFailed => calls.network i ∈ supportedNetworks ∧
      ∃ active, config = some active ∧ (initFailed = false → active = calls.network i)
  | .takeHook network => calls.network i ∈ supportedNetworks ∧ network = calls.network i ∧
      network ≠ "mainnet" ∧ config = some network
  | .setSilent network _ => calls.network i ∈ supportedNetworks ∧ network = calls.network i ∧
      network ≠ "mainnet" ∧ config = some network
  | .make network _ => calls.network i ∈ supportedNetworks ∧ network = calls.network i ∧
      network ≠ "mainnet" ∧ config = some network
  | .setPrev network _ r => calls.network i ∈ supportedNetworks ∧ network = calls.network i ∧
      network ≠ "mainnet" ∧ config = some network ∧ r = calls.make i
  | .returned r => r = verdict calls config i ∧
      (calls.network i ∈ supportedNetworks → config ≠ none)

section Step
variable {calls : Calls T ι} {i : ι} {p : Process H} {t : Call T H}

/-- The configuration is set by the first call of `init` and by nothing else. -/
theorem forNetwork_config (ht : OnTrack calls p.config i t) :
    (forNetwork calls i (p, t)).1.config = p.config ∨
      (p.config = none ∧ calls.network i ∈ supportedNetworks ∧
        (forNetwork calls i (p, t)).1.config = some (calls.network i)) := by
  cases t with
  | start =>
    rw [forNetwork]
    split_ifs with hsup
    · cases hconfig : p.config with
      | none => exact Or.inr ⟨rfl, hsup, by simp⟩
      | some active => exact Or.inl (by simp)
    · exact Or.inl rfl
  | configured initFailed =>
    left
    obtain ⟨_, active, hactive, _⟩ := ht
    rw [forNetwork]
    split_ifs
    · simp [hactive]
    · simp [hactive]
    · simp [hactive]
  | _ => exact Or.inl rfl

/-- A call that is on track stays on track when the configuration is set by another. -/
theorem OnTrack.of_config {config : Option String} (ht : OnTrack calls config i t)
    {config' : Option String} (h : config' = config ∨ config = none) : OnTrack calls config' i t := by
  obtain rfl | rfl := h
  · exact ht
  · cases t with
    | start => trivial
    | configured initFailed => simp [OnTrack] at ht
    | takeHook network => simp [OnTrack] at ht
    | setSilent network prev => simp [OnTrack] at ht
    | make network prev => simp [OnTrack] at ht
    | setPrev network prev r => simp [OnTrack] at ht
    | returned r =>
      obtain ⟨hr, hsup⟩ := ht
      have hnot : calls.network i ∉ supportedNetworks := fun h => hsup h rfl
      refine ⟨?_, fun h => absurd h hnot⟩
      rw [hr]
      simp [verdict, hnot]

theorem forNetwork_onTrack (ht : OnTrack calls p.config i t) :
    OnTrack calls (forNetwork calls i (p, t)).1.config i (forNetwork calls i (p, t)).2 := by
  cases t with
  | start =>
    rw [forNetwork]
    split_ifs with hsup
    · refine ⟨hsup, p.config.getD (calls.network i), rfl, ?_⟩
      intro hnone
      rw [Option.isSome_eq_false_iff, Option.isNone_iff_eq_none] at hnone
      rw [hnone, Option.getD_none]
    · exact ⟨by simp [verdict, hsup], fun h => absurd h hsup⟩
  | configured initFailed =>
    obtain ⟨hsup, active, hactive, hown⟩ := ht
    -- a call that is not refused asked for the active network
    have heq : ¬ (initFailed = true ∧ active ≠ calls.network i) → active = calls.network i := by
      intro hgo
      by_contra hne
      cases initFailed with
      | true => exact hgo ⟨rfl, hne⟩
      | false => exact hne (hown rfl)
    rw [forNetwork, hactive, Option.getD_some]
    split_ifs with hrefused hmainnet
    · exact ⟨by simp [verdict, hsup, hrefused.2], by simp⟩
    · refine ⟨?_, by simp⟩
      have hactive' := heq hrefused
      simp only [verdict, hsup, not_true_eq_false, if_false, Option.getD_some, hactive', ne_eq]
      rw [hactive'] at hmainnet
      rw [if_pos hmainnet]
    · exact ⟨hsup, heq hrefused, hmainnet, rfl⟩
  | takeHook network => exact ht
  | setSilent network prev => exact ht
  | make network prev => exact ⟨ht.1, ht.2.1, ht.2.2.1, ht.2.2.2, rfl⟩
  | setPrev network prev r =>
    obtain ⟨hsup, hown, hmainnet, hconfig, rfl⟩ := ht
    refine ⟨?_, by simp [forNetwork, hconfig]⟩
    have hconfig' : (forNetwork calls i (p, .setPrev network prev (calls.make i))).1.config =
        some network := hconfig
    rw [hconfig']
    simp only [verdict, hsup, not_true_eq_false, if_false, Option.getD_some, hown, ne_eq]
    have hother : calls.network i ≠ "mainnet" := hown ▸ hmainnet
    cases calls.make i with
    | some index => simp [hother]
    | none => simp [hother]
  | returned r => exact ht

theorem verdict_ok {config : Option String} {i : ι} {v : Verifier T}
    (h : verdict calls config i = .ok v) :
    config.getD (calls.network i) = calls.network i ∧ v.network = calls.network i ∧
      (v.network = "mainnet" → calls.mainnetIndex = .ok v.index) := by
  unfold verdict at h
  simp only at h
  split_ifs at h with hsup hactive hmainnet
  · rw [not_ne_iff] at hactive
    unfold withMainnetIndex at h
    split at h
    · next index hindex =>
      rw [Except.ok.injEq] at h
      rw [← h]
      exact ⟨hactive, hactive, fun _ => hindex⟩
    · simp at h
  · rw [not_ne_iff] at hactive
    split at h
    · rw [Except.ok.injEq] at h
      rw [← h]
      exact ⟨hactive, hactive, fun he => absurd he hmainnet⟩
    · simp at h

end Step

/-! ## Any interleaving -/

section Run
variable [DecidableEq ι] {calls : Calls T ι}

/-- A configuration that is set stays. -/
structure Decided (calls : Calls T ι) (config : Option String)
    (c : Config ι (Process H) (Call T H)) : Prop where
  onTrack : ∀ i, OnTrack calls c.shared.config i (c.threads i)
  kept : ∀ active, config = some active → c.shared.config = some active

omit [DecidableEq ι] in
theorem decided_started (p : Process H) : Decided calls p.config (started T ι p) where
  onTrack := fun _ => trivial
  kept := fun _ h => h

theorem Decided.step {config : Option String} {c : Config ι (Process H) (Call T H)}
    (h : Decided calls config c) (i : ι) : Decided calls config (step (forNetwork calls) i c) := by
  have hconfig := forNetwork_config (h.onTrack i)
  have hshared : (Interleaving.step (forNetwork calls) i c).shared.config =
      (forNetwork calls i (c.shared, c.threads i)).1.config := rfl
  constructor
  · intro j
    by_cases hj : j = i
    · subst hj
      rw [step_threads_self]
      exact forNetwork_onTrack (h.onTrack j)
    · rw [step_threads_other hj]
      refine (h.onTrack j).of_config ?_
      rw [hshared]
      exact hconfig.imp id fun hset => hset.1
  · intro active hactive
    rw [hshared]
    obtain hsame | ⟨hnone, _⟩ := hconfig
    · rw [hsame, h.kept active hactive]
    · simp [h.kept active hactive] at hnone

theorem Decided.run {config : Option String} {c : Config ι (Process H) (Call T H)}
    (h : Decided calls config c) (schedule : List ι) :
    Decided calls config (run (forNetwork calls) schedule c) :=
  run_inv (Decided calls config) (fun _ i h => h.step i) h schedule

theorem run_decided (calls : Calls T ι) (p : Process H) (schedule : List ι) :
    Decided calls p.config (run (forNetwork calls) schedule (started T ι p)) :=
  (decided_started p).run schedule

/-- The network of the first call in a schedule whose network is supported; its first step is `init`. -/
def firstRequested (calls : Calls T ι) (schedule : List ι) : Option String :=
  (schedule.find? fun i => calls.network i ∈ supportedNetworks).map calls.network

omit [DecidableEq ι] in
theorem firstRequested_snoc (schedule : List ι) (i : ι) : firstRequested calls (schedule ++ [i]) =
    (firstRequested calls schedule).or
      (if calls.network i ∈ supportedNetworks then some (calls.network i) else none) := by
  rw [firstRequested, firstRequested, List.find?_append]
  cases schedule.find? fun i => calls.network i ∈ supportedNetworks with
  | some j => simp
  | none =>
    by_cases hsup : calls.network i ∈ supportedNetworks
    · simp [hsup]
    · simp [hsup]

/-- The configuration is what it was, or that of the first supported call to reach `init`. -/
theorem run_config (calls : Calls T ι) (p : Process H) (schedule : List ι) :
    (run (forNetwork calls) schedule (started T ι p)).shared.config =
      p.config.or (firstRequested calls schedule) := by
  induction schedule using List.reverseRecOn with
  | nil => simp [started, firstRequested]
  | append_singleton schedule i ih =>
    have htrack := (run_decided calls p schedule).onTrack i
    have hconfig := forNetwork_config htrack
    rw [Interleaving.run_snoc, firstRequested_snoc, ← Option.or_assoc, ← ih]
    have hshared : (step (forNetwork calls) i (run (forNetwork calls) schedule (started T ι p))).shared =
        (forNetwork calls i ((run (forNetwork calls) schedule (started T ι p)).shared,
          (run (forNetwork calls) schedule (started T ι p)).threads i)).1 := rfl
    rw [hshared]
    cases hset : (run (forNetwork calls) schedule (started T ι p)).shared.config with
    | some active =>
      obtain hsame | ⟨hnone, _⟩ := hconfig
      · simp [hsame, hset]
      · simp [hset] at hnone
    | none =>
      rw [Option.none_or]
      by_cases hsup : calls.network i ∈ supportedNetworks
      · -- no supported call has taken a step, so this one takes its first
        have hfresh : i ∉ schedule := by
          intro hmem
          rw [hset, eq_comm, Option.or_eq_none_iff, firstRequested, Option.map_eq_none_iff,
            List.find?_eq_none] at ih
          exact ih.2 i hmem (by simpa using hsup)
        have hstart : (started T ι p).threads i = Call.start := rfl
        rw [run_threads_other hfresh, hstart, if_pos hsup]
        simp [forNetwork, hsup, hset]
      · rw [if_neg hsup]
        obtain hsame | ⟨_, hsup', _⟩ := hconfig
        · rw [hsame, hset]
        · exact absurd hsup' hsup

/-- **The process has one network.** However the calls are interleaved, every call that has returned
returned what the active network makes of it; the active network is that of the first supported call to
reach `init`, unless it was set before, and stays; every verifier is for the network its caller asked for,
and all are for the same one; and a mainnet verifier is the one `for_network_offline` builds. -/
theorem networks_decided (calls : Calls T ι) (json : IndexJson T)
    (hjson : calls.mainnetIndex = json.parse json.mainnet) (p : Process H) (schedule : List ι)
    {c : Config ι (Process H) (Call T H)}
    (hc : c = run (forNetwork calls) schedule (started T ι p)) :
    (∀ i r, c.threads i = .returned r → r = verdict calls c.shared.config i) ∧
    c.shared.config = p.config.or (firstRequested calls schedule) ∧
    (∀ active, c.shared.config = some active →
      ∀ schedule', (run (forNetwork calls) schedule' c).shared.config = some active) ∧
    (∀ i v, c.threads i = .returned (.ok v) →
      v.network = calls.network i ∧ c.shared.config = some v.network ∧
      (∀ j v', c.threads j = .returned (.ok v') → v'.network = v.network) ∧
      (v.network = "mainnet" → forNetworkOffline json "mainnet" = .ok v)) := by
  have h := run_decided calls p schedule
  have hfirst := run_config calls p schedule
  rw [← hc] at h hfirst
  -- a call that got a verifier got it under the active network
  have hown : ∀ i v, c.threads i = .returned (.ok v) → v.network = calls.network i ∧
      c.shared.config = some v.network ∧ (v.network = "mainnet" → calls.mainnetIndex = .ok v.index) := by
    intro i v hi
    have htrack := h.onTrack i
    rw [hi] at htrack
    obtain ⟨hr, hset⟩ := htrack
    obtain ⟨hactive, hname, hmain⟩ := verdict_ok hr.symm
    refine ⟨hname, ?_, hmain⟩
    have hsup : calls.network i ∈ supportedNetworks := by
      by_contra hnot
      simp [verdict, hnot] at hr
    obtain ⟨active, hconfig⟩ := Option.ne_none_iff_exists'.mp (hset hsup)
    rw [hconfig, Option.getD_some] at hactive
    rw [hconfig, hactive, hname]
  refine ⟨?_, hfirst, ?_, ?_⟩
  · intro i r hi
    have htrack := h.onTrack i
    rw [hi] at htrack
    exact htrack.1
  · intro active hactive schedule'
    have hagain : Decided calls (some active) c := ⟨h.onTrack, fun _ he => he ▸ hactive⟩
    exact (hagain.run schedule').kept active rfl
  · intro i v hi
    obtain ⟨hname, hconfig, hmain⟩ := hown i v hi
    refine ⟨hname, hconfig, ?_, ?_⟩
    · intro j v' hj
      have hconfig' := (hown j v' hj).2.1
      rw [hconfig, Option.some.injEq] at hconfig'
      exact hconfig'.symm
    · intro hmainnet
      rw [forNetworkOffline_ok]
      exact ⟨json.mainnet, by simp [embeddedIndexJson], hjson ▸ hmain hmainnet, hmainnet⟩

end Run

namespace NetworkRace

abbrev types : Types where
  StateHash := Unit
  LedgerHash := Unit
  ConsensusRest := Unit
  Proof := Unit
  VerifierIndex := String

/-- One thread asks for mainnet, one for devnet. -/
def calls : Calls types Bool where
  network := fun mainnet => if mainnet then "mainnet" else "devnet"
  make := fun _ => some "devnet key"
  mainnetIndex := .ok "mainnet key"

def json : IndexJson types where
  parse := fun text => .ok (text ++ " key")
  devnet := "devnet"
  mainnet := "mainnet"

def raced : Config Bool (Process Unit) (Call types Unit) :=
  run (forNetwork calls) [true, false, true, false] (started types Bool ⟨none, .default⟩)

end NetworkRace

open NetworkRace in
/-- Both calls reach `init`; mainnet is first, and the other call is refused. -/
theorem networks_decided_mainnet_first :
    raced.shared.config = some "mainnet" ∧
      raced.threads true = .returned (.ok ⟨"mainnet", "mainnet key"⟩) ∧
      raced.threads false = .returned (.error (.networkAlreadyInitialized "mainnet" "devnet")) ∧
      forNetworkOffline json "mainnet" = .ok ⟨"mainnet", "mainnet key"⟩ := by
  have htrue : raced.threads true = .returned (.ok ⟨"mainnet", "mainnet key"⟩) := rfl
  have hdecided := networks_decided calls json rfl ⟨none, .default⟩ [true, false, true, false]
    (c := raced) rfl
  have hfirst : firstRequested calls [true, false, true, false] = some "mainnet" := by decide
  refine ⟨?_, htrue, rfl, (hdecided.2.2.2 true _ htrue).2.2.2 rfl⟩
  rw [hdecided.2.1, hfirst]
  rfl

end MinaVerify
