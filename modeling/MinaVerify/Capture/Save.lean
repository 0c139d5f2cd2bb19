import MinaVerify.Capture.Messages
import MinaVerify.Capture.Seeds
import MinaVerify.Process.Environment

/-! # The capture binary

`crates/mina-verify-capture/src/main.rs`: the gossip loop writes each payload with the tag of a block to a
file of its own, numbered from zero, until it has as many as it was asked for. The files are the input of
the command line. -/
namespace MinaVerify
set_option autoImplicit false

/-! ## Files -/

/-- The errors of making the directory and of writing a file. -/
structure Disk where
  createDir : Option String
  write : String → Option String

def blockFile (n : ℕ) : String := "captured/block-" ++ toString n ++ ".gossipbin"

theorem blockFile_injective : Function.Injective blockFile := by
  intro n n' h
  unfold blockFile at h
  have hnumbered := (String.append_left_inj _).mp h
  have hdigits := (String.append_right_inj _).mp hnumbered
  rw [Nat.toString_eq_ofList_toDigits, Nat.toString_eq_ofList_toDigits, String.ofList_inj] at hdigits
  have hvalue := congrArg (fun digits => Nat.ofDigitChars 10 digits 0) hdigits
  simpa [Nat.ofDigitChars_toDigits] using hvalue

/-- The files written so far, the counter, and the panic of a write that failed. -/
structure Capture where
  files : List (String × List UInt8)
  saved : ℕ
  panicked : Option String

/-- The two callbacks; a panic leaves the loop. -/
def saveBlock (disk : Disk) (want : ℕ) : Callbacks Capture where
  onBlock := fun payload c =>
    match disk.write (blockFile c.saved) with
    | some e => ({ c with panicked := some (unwrapMessage e) }, .break_)
    | none =>
      let c := { c with files := c.files ++ [(blockFile c.saved, payload)], saved := c.saved + 1 }
      (c, if want ≤ c.saved then .break_ else .continue_)
  onTick := fun _ c => (c, .continue_)

/-- `env("CAPTURE_BLOCKS", 1)`. -/
def captureBlocks (env : Environment) : ℕ := ((env.var "CAPTURE_BLOCKS").bind parseU64).getD 1

/-- `main`, with the branches its loop takes before it waits for ever. Its lines to stderr are left out. -/
def captureMain {Peer Conn : Type} [DecidableEq Peer] (env : Environment) (disk : Disk)
    (transport : Transport) (branches : List (Branch Peer Conn)) : Outcome Capture :=
  match disk.createDir with
  | some e => .panicked (unwrapMessage e)
  | none =>
    let network := env.envOr "MINA_NETWORK" "devnet"
    match networkSeeds network with
    | none => .panicked ("unknown MINA_NETWORK " ++ env.debug network ++ " (devnet|mainnet)")
    | some (_, peers) =>
      (transport.connect "valid multiaddr" peers).bind fun _ =>
        match subscribeBlocks peers (saveBlock disk (captureBlocks env)) branches
            (.start ⟨[], 0, none⟩) with
        | (_, .continue_) => .diverged
        | (s, .break_) =>
          match s.captured.panicked with
          | some message => .panicked message
          | none => .returned s.captured

/-! ## What is saved -/

/-- The payloads under the names of their numbers. -/
def stored (first : ℕ) (payloads : List (List UInt8)) : List (String × List UInt8) :=
  (payloads.zipIdx first).map fun p => (blockFile p.2, p.1)

theorem stored_cons (first : ℕ) (payload : List UInt8) (payloads : List (List UInt8)) :
    stored first (payload :: payloads) = (blockFile first, payload) :: stored (first + 1) payloads := by
  simp [stored]

/-- Feeding payloads to the callbacks saves them up to the number asked for, or to the first write that
fails; the loop goes on as long as neither has come. -/
theorem feed_saveBlock (disk : Disk) (want : ℕ) (payloads : List (List UInt8)) {c : Capture}
    (hsaved : c.saved < max want 1) (hnone : c.panicked = none) :
    ∃ k c' flow, (saveBlock disk want).feed payloads c = (c', flow) ∧ k ≤ payloads.length ∧
      c'.files = c.files ++ stored c.saved (payloads.take k) ∧ c'.saved = c.saved + k ∧
      (∀ i < k, disk.write (blockFile (c.saved + i)) = none) ∧
      ((c'.panicked = none ∧ c'.saved = min (max want 1) (c.saved + payloads.length) ∧
          (flow = .continue_ ↔ c'.saved < max want 1)) ∨
        (∃ e, c'.panicked = some (unwrapMessage e) ∧ disk.write (blockFile c'.saved) = some e ∧
          k < payloads.length ∧ c'.saved < max want 1 ∧ flow = .break_)) := by
  induction payloads generalizing c with
  | nil =>
    refine ⟨0, c, .continue_, rfl, by simp, by simp [stored], rfl, by simp, Or.inl ⟨hnone, ?_, ?_⟩⟩
    · simp only [List.length_nil]
      omega
    · simp [hsaved]
  | cons payload payloads ih =>
    cases hwrite : disk.write (blockFile c.saved) with
    | some e =>
      refine ⟨0, { c with panicked := some (unwrapMessage e) }, .break_, ?_, by simp, by simp [stored],
        rfl, by simp, Or.inr ⟨e, rfl, hwrite, by simp, hsaved, rfl⟩⟩
      simp [Callbacks.feed, saveBlock, hwrite]
    | none =>
      by_cases hwant : want ≤ c.saved + 1
      · refine ⟨1, { c with files := c.files ++ [(blockFile c.saved, payload)], saved := c.saved + 1 },
          .break_, ?_, by simp, by simp [stored], rfl, ?_, Or.inl ⟨hnone, ?_, ?_⟩⟩
        · simp [Callbacks.feed, saveBlock, hwrite, hwant]
        · intro i hi
          rw [Nat.lt_one_iff.mp hi]
          exact hwrite
        · simp only [List.length_cons]
          omega
        · simp only [reduceCtorEq, false_iff]
          omega
      · obtain ⟨k, c', flow, hfeed, hk, hfiles, hcount, hwrites, hend⟩ := ih
          (c := { c with files := c.files ++ [(blockFile c.saved, payload)], saved := c.saved + 1 })
          (by simp only; omega) hnone
        refine ⟨k + 1, c', flow, ?_, by simpa using hk, ?_, ?_, ?_, ?_⟩
        · simpa [Callbacks.feed, saveBlock, hwrite, hwant] using hfeed
        · rw [hfiles, List.take_succ_cons, stored_cons, List.append_assoc, List.singleton_append]
        · simp only at hcount
          omega
        · intro i hi
          cases i with
          | zero => exact hwrite
          | succ i =>
            have := hwrites i (by omega)
            rwa [Nat.add_assoc, Nat.add_comm 1 i] at this
        · refine hend.imp ?_ ?_
          · rintro ⟨hnone', hmin, hflow⟩
            simp only [List.length_cons] at hmin ⊢
            exact ⟨hnone', by omega, hflow⟩
          · rintro ⟨e, hpanic, hfail, hlt, hless, hflow⟩
            exact ⟨e, hpanic, hfail, by simpa using hlt, hless, hflow⟩

/-- What the capture comes to, given all the branches: the blocks are the payloads with the tag of a block that
arrive before the loop ends by itself. -/
def CaptureSpec {Peer Conn : Type} (env : Environment) (disk : Disk) (transport : Transport)
    (branches : List (Branch Peer Conn)) : Outcome Capture → Prop
  | .returned c =>
    c.files = stored 0 (((gossiped branches).filter isBlock).take (max (captureBlocks env) 1)) ∧
      c.saved = c.files.length ∧ (c.files.map Prod.fst).Nodup ∧
      (c.saved < max (captureBlocks env) 1 → ∃ branch ∈ branches, branch.ends = true)
  | .panicked message =>
    (∃ e, disk.createDir = some e ∧ message = unwrapMessage e) ∨
      (networkSeeds (env.envOr "MINA_NETWORK" "devnet") = none ∧
        message = "unknown MINA_NETWORK " ++ env.debug (env.envOr "MINA_NETWORK" "devnet") ++
          " (devnet|mainnet)") ∨
      (∃ seeds, networkSeeds (env.envOr "MINA_NETWORK" "devnet") = some seeds ∧
        transport.connect "valid multiaddr" seeds.2 = .panicked message) ∨
      ∃ k e, k < max (captureBlocks env) 1 ∧ k < ((gossiped branches).filter isBlock).length ∧
        (∀ i < k, disk.write (blockFile i) = none) ∧ disk.write (blockFile k) = some e ∧
        message = unwrapMessage e
  | .diverged =>
    (∀ branch ∈ branches, branch.ends = false) ∧
      ((gossiped branches).filter isBlock).length < max (captureBlocks env) 1

theorem stored_names (payloads : List (List UInt8)) (k : ℕ) :
    ((stored 0 (payloads.take k)).map Prod.fst).Nodup := by
  have hnames : (stored 0 (payloads.take k)).map Prod.fst =
      (List.range' 0 (payloads.take k).length).map blockFile := by
    rw [stored, List.map_map, ← List.zipIdx_map_snd, List.map_map]
    rfl
  rw [hnames]
  exact List.Nodup.map blockFile_injective List.nodup_range'

/-- What the loop comes to once the swarm is up. -/
theorem captureLoop_spec {Peer Conn : Type} [DecidableEq Peer] (env : Environment) (disk : Disk)
    (transport : Transport) (peers : List String) (branches : List (Branch Peer Conn)) :
    CaptureSpec env disk transport branches
      (match subscribeBlocks peers (saveBlock disk (captureBlocks env)) branches
          (.start ⟨[], 0, none⟩ : Subscription Peer String Capture) with
        | (_, .continue_) => .diverged
        | (s, .break_) =>
          match s.captured.panicked with
          | some message => .panicked message
          | none => .returned s.captured) := by
  have hquiet : (saveBlock disk (captureBlocks env)).Quiet := fun _ _ => rfl
  obtain ⟨hcaptured, hflow⟩ := subscribeBlocks_feed peers hquiet branches
    (.start ⟨[], 0, none⟩ : Subscription Peer String Capture)
  obtain ⟨k, c', flow, hfeed, hk, hfiles, hcount, hwrites, hend⟩ := feed_saveBlock disk
    (captureBlocks env) ((gossiped branches).filter isBlock) (c := ⟨[], 0, none⟩)
    (by simp only; omega) rfl
  have hstart : (Subscription.start ⟨[], 0, none⟩ : Subscription Peer String Capture).captured =
      ⟨[], 0, none⟩ := rfl
  rw [hstart, hfeed] at hcaptured hflow
  simp only [Nat.zero_add, List.nil_append] at hfiles hcount hwrites hend
  cases hloop : subscribeBlocks peers (saveBlock disk (captureBlocks env)) branches
      (.start ⟨[], 0, none⟩ : Subscription Peer String Capture) with
  | mk s last =>
    rw [hloop] at hcaptured hflow
    simp only at hcaptured hflow
    cases last with
    | continue_ =>
      obtain ⟨hends, hgoes⟩ := hflow.mp rfl
      obtain ⟨_, hmin, hiff⟩ | ⟨_, _, _, _, _, hbreak⟩ := hend
      · have hless := hiff.mp hgoes
        exact ⟨hends, by omega⟩
      · simp [hgoes] at hbreak
    | break_ =>
      simp only [hcaptured]
      obtain ⟨hnone, hmin, hiff⟩ | ⟨e, hpanic, hfail, hlt, hless, _⟩ := hend
      · simp only [hnone]
        have htake : ((gossiped branches).filter isBlock).take k =
            ((gossiped branches).filter isBlock).take (max (captureBlocks env) 1) := by
          by_cases hle : max (captureBlocks env) 1 ≤ ((gossiped branches).filter isBlock).length
          · rw [show k = max (captureBlocks env) 1 by omega]
          · rw [List.take_of_length_le (by omega), List.take_of_length_le (by omega)]
        refine ⟨by rw [hfiles, htake], ?_, hfiles ▸ stored_names _ k, ?_⟩
        · rw [hfiles, hcount, stored, List.length_map, List.length_zipIdx, List.length_take]
          omega
        · -- the callback goes on, so a branch has ended the loop
          intro hless
          by_contra hnever
          push Not at hnever
          have hgoes := hflow.mpr ⟨fun branch hbranch => by simpa using hnever branch hbranch, hiff.mpr hless⟩
          nomatch hgoes
      · simp only [hpanic]
        exact Or.inr (Or.inr (Or.inr ⟨k, e, by omega, hlt, hwrites, by rwa [hcount] at hfail, rfl⟩))

theorem captureMain_spec {Peer Conn : Type} [DecidableEq Peer] (env : Environment) (disk : Disk)
    (transport : Transport) (branches : List (Branch Peer Conn)) :
    CaptureSpec env disk transport branches (captureMain env disk transport branches) := by
  unfold captureMain
  cases hdir : disk.createDir with
  | some e => exact Or.inl ⟨e, hdir, rfl⟩
  | none =>
    cases hseeds : networkSeeds (env.envOr "MINA_NETWORK" "devnet") with
    | none =>
      simp only [hseeds]
      exact Or.inr (Or.inl ⟨hseeds, rfl⟩)
    | some seeds =>
      obtain ⟨chainId, peers⟩ := seeds
      simp only [hseeds]
      cases hconnect : transport.connect "valid multiaddr" peers with
      | panicked message => exact Or.inr (Or.inr (Or.inl ⟨(chainId, peers), hseeds, hconnect⟩))
      | diverged => exact absurd hconnect Transport.connect_ne_diverged
      | returned _ =>
        rw [Outcome.bind_returned]
        exact captureLoop_spec env disk transport peers branches

/-- **What a capture leaves.** A capture that returns has saved the first blocks that arrived, each whole and in
a file of its own, numbered in the order of arrival: as many as asked for, and one where none is asked for;
or fewer, perhaps none, and then the deadline or the end of the swarm has ended it. It panics only on an
unknown network, on a seed that cannot be dialled, or on the disk, and waits for ever only when nothing ends
the loop and too few blocks arrive. -/
theorem capture_exact {Peer Conn : Type} [DecidableEq Peer] (env : Environment) (disk : Disk)
    (transport : Transport) (branches : List (Branch Peer Conn)) :
    (∀ c, captureMain env disk transport branches = .returned c →
      c.files = stored 0 (((gossiped branches).filter isBlock).take (max (captureBlocks env) 1)) ∧
        c.saved = c.files.length ∧ (c.files.map Prod.fst).Nodup ∧
        (c.saved < max (captureBlocks env) 1 → ∃ branch ∈ branches, branch.ends = true)) ∧
    (∀ message, captureMain env disk transport branches = .panicked message →
      (∃ e, disk.createDir = some e) ∨ networkSeeds (env.envOr "MINA_NETWORK" "devnet") = none ∨
        (∃ seeds, networkSeeds (env.envOr "MINA_NETWORK" "devnet") = some seeds ∧
          ¬ transport.Dials seeds.2) ∨
        ∃ k e, k < max (captureBlocks env) 1 ∧ k < ((gossiped branches).filter isBlock).length ∧
          (∀ i < k, disk.write (blockFile i) = none) ∧ disk.write (blockFile k) = some e ∧
          message = unwrapMessage e) ∧
    (captureMain env disk transport branches = .diverged →
      (∀ branch ∈ branches, branch.ends = false) ∧
        ((gossiped branches).filter isBlock).length < max (captureBlocks env) 1) := by
  have hspec := captureMain_spec env disk transport branches
  refine ⟨?_, ?_, ?_⟩
  · intro c hc
    rw [hc] at hspec
    exact hspec
  · intro message hpanic
    rw [hpanic] at hspec
    obtain ⟨e, hdir, _⟩ | ⟨hnone, _⟩ | ⟨seeds, hseeds, hconnect⟩ | hwrite := hspec
    · exact Or.inl ⟨e, hdir⟩
    · exact Or.inr (Or.inl hnone)
    · exact Or.inr (Or.inr (Or.inl ⟨seeds, hseeds, Transport.connect_panics.mp ⟨message, hconnect⟩⟩))
    · exact Or.inr (Or.inr (Or.inr hwrite))
  · intro hwaits
    rw [hwaits] at hspec
    exact hspec

/-! ## A capture cut short -/

namespace SampleCapture

/-- Two blocks are wanted. -/
def env : Environment where
  var := fun key => if key = "CAPTURE_BLOCKS" then some "2" else none
  readToString := fun _ => .error "No such file or directory (os error 2)"
  read := fun _ => .error "No such file or directory (os error 2)"
  debug := id

def disk : Disk := ⟨none, fun _ => none⟩

def transport : Transport := ⟨fun _ => none, fun _ => none⟩

def block : List UInt8 := List.replicate 8 7 ++ [0, 1]

/-- One block arrives before the deadline, and one after it. -/
def branches : List (Branch String ℕ) :=
  [.swarm (some (.message block)), .tick, .deadline, .swarm (some (.message block))]

end SampleCapture

open SampleCapture in
/-- The deadline leaves one file where two were asked for. -/
theorem capture_exact_deadline :
    captureMain env disk transport branches = .returned ⟨[("captured/block-0.gossipbin", block)], 1, none⟩ ∧
      ∃ branch ∈ branches, branch.ends = true := by
  have hcapture : captureMain env disk transport branches =
      .returned ⟨[("captured/block-0.gossipbin", block)], 1, none⟩ := rfl
  refine ⟨hcapture, ?_⟩
  exact ((capture_exact env disk transport branches).1 _ hcapture).2.2.2 (by decide +kernel)

end MinaVerify
