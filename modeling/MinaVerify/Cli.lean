import MinaVerify.Capture.Save
import MinaVerify.Monitor.Live

/-! # The command line

`crates/mina-verify-cli/src/main.rs`: each payload file is read, decoded and verified in turn. One file is
only verified; several are fed to a chain monitor, with a line for each. The first file that fails ends the
process, with code 1 for a proof that was rejected and 2 for everything else, and what came before it has
been printed. (`println!` panics on a closed stream; here the two streams are open.)

The files are those a capture leaves. Replayed, they make of a fresh monitor what the worker of the live
monitor makes of the same payloads. -/
namespace MinaVerify
set_option autoImplicit false

variable {T : Types}

/-- What the process has printed on its two streams, which are taken to accept every line, and its exit
code. -/
structure Exit where
  out : List String
  err : List String
  code : ℕ
  deriving DecidableEq, Repr

/-- The environment, the verifier indices, and `Verifier::for_network`, which the process calls once. -/
structure CliHost (T : Types) extends Environment where
  index : IndexJson T
  forNetwork : String → Except ForNetworkError (Verifier T)

/-! ## The program -/

section Program
variable (host : CliHost T) (core : Core T) (codec : GossipCodec T)

def loadAndVerify (verifier : Verifier T) (path : String) : Outcome (Except Exit (VerifiedTip T)) :=
  match host.read path with
  | .error e => .returned (.error ⟨[], ["error: cannot read " ++ path ++ ": " ++ e], 2⟩)
  | .ok bytes =>
    (blockFromGossipPayload codec bytes).bind fun
      | .error e => .returned (.error ⟨[], ["error: " ++ path ++ ": " ++ e.display], 2⟩)
      | .ok block =>
        (verifier.verifyTip core block).bind fun
          | .ok (some tip) => .returned (.ok tip)
          | .ok none =>
            .returned (.error ⟨[path ++ ": verify_block = false (proof rejected)"], [], 1⟩)
          | .error e => .returned (.error ⟨[], ["error: " ++ path ++ ": malformed block: " ++ e], 2⟩)

/-- The verifier of the process. -/
def cliVerifier : Except Exit (Verifier T) :=
  match host.var "MINA_VK_JSON" with
  | some path =>
    match host.readToString path with
    | .error e => .error ⟨[], ["error: cannot read " ++ path ++ ": " ++ e], 2⟩
    | .ok json => (withIndexJson host.index json).mapError fun e =>
      ⟨[], ["error: " ++ e.display host.debug], 2⟩
  | none => (host.forNetwork (host.envOr "MINA_NETWORK" "devnet")).mapError fun e =>
      ⟨[], ["error: " ++ e.display host.debug], 2⟩

def variant {StateHash : Type} : Ingest StateHash → String
  | .genesis => "GENESIS"
  | .extend _ => "EXTEND"
  | .duplicate => "DUP"
  | .behind _ => "BEHIND"
  | .reorg _ _ _ => "REORG"
  | .fork _ => "FORK"
  | .unlinked => "UNLINKED"

def note {StateHash : Type} : Ingest StateHash → String
  | .genesis => "first tip — adopted as best"
  | .extend _ => "extends best chain"
  | .duplicate => "duplicate (already seen)"
  | .behind _ => "behind best (orphan/older, same chain)"
  | .reorg _ commonAncestor depth =>
    "REORG — new canonical tip; diverged at " ++ commonAncestor.getD "<unknown>" ++ " (rolled back " ++
      (depth.map toString).getD "?" ++ " block(s))"
  | .fork commonAncestor =>
    "FORK — competing branch (best unchanged); diverged at " ++ commonAncestor.getD "<unknown>"
  | .unlinked => "UNLINKED — common ancestor outside window"

/-- The line of a tip; its height is padded to seven characters. -/
def tipLine (tip : VerifiedTip T) (outcome : Ingest T.StateHash) : String :=
  let height := toString tip.height
  "verified height " ++ height ++ String.ofList (List.replicate (7 - height.length) ' ') ++ " [" ++
    variant outcome ++ "] " ++ note outcome

/-- The last line, once there is a best. -/
def bestLines (m : ChainMonitor T) : List String :=
  match m.bestHeight, m.bestHash with
  | some height, some hash =>
    ["\ncanonical best: height " ++ toString height ++ ", " ++ core.stateHashToString hash]
  | _, _ => []

/-- The loop over the files, with the monitor and what has been printed. -/
def monitorLoop (verifier : Verifier T) :
    List String → ChainMonitor T → List String → Outcome (Except Exit (ChainMonitor T × List String))
  | [], m, out => .returned (.ok (m, out))
  | path :: paths, m, out =>
    (loadAndVerify host core codec verifier path).bind fun
      | .error exit => .returned (.error { exit with out := out ++ exit.out })
      | .ok tip =>
        (m.ingest core tip).bind fun r => monitorLoop verifier paths r.1 (out ++ [tipLine tip r.2])

/-- `main` after the verifier is built. -/
def cliRun (verifier : Verifier T) : List String → Outcome Exit
  | [path] =>
    (loadAndVerify host core codec verifier path).bind fun
      | .error exit => .returned exit
      | .ok tip =>
        .returned ⟨[path ++ ": height " ++ toString tip.height ++ " — verify_block = true"], [], 0⟩
  | args =>
    (monitorLoop host core codec verifier args (ChainMonitor.new 512) []).bind fun
      | .error exit => .returned exit
      | .ok (m, out) => .returned ⟨out ++ bestLines core m, [], 0⟩

def cliMain (args : List String) : Outcome Exit :=
  if args.isEmpty then .returned ⟨[], ["usage: mina-verify <payload> [<payload> ...]"], 2⟩
  else
    match cliVerifier host with
    | .error exit => .returned exit
    | .ok verifier => cliRun host core codec verifier args

/-! ## One file -/

/-- The tip of a file that can be read and whose block verifies. -/
def fileTip (verifier : Verifier T) (path : String) : Option (VerifiedTip T) :=
  match host.read path with
  | .ok bytes => verifier.tipOf core codec bytes
  | .error _ => none

/-- The file holds a block whose proof does not verify. -/
def fileRejected (verifier : Verifier T) (path : String) : Bool :=
  match host.read path with
  | .ok bytes => verifier.isRejected core codec bytes
  | .error _ => false

/-- What is printed of a file that fails. -/
def failLines (verifier : Verifier T) (path : String) : List String :=
  if fileRejected host core codec verifier path then
    [path ++ ": verify_block = false (proof rejected)"]
  else []

/-- What checking the file comes to. -/
def FileCheck (verifier : Verifier T) (path : String) : Outcome (Except Exit (VerifiedTip T)) → Prop
  | .returned (.ok tip) => fileTip host core codec verifier path = some tip
  | .returned (.error exit) => fileTip host core codec verifier path = none ∧
      exit.code = (if fileRejected host core codec verifier path then 1 else 2) ∧
      exit.out = failLines host core codec verifier path
  | .panicked message => ∃ bytes, host.read path = .ok bytes ∧
      verifier.checkPayload core codec bytes = .panicked message
  | .diverged => ∃ bytes, host.read path = .ok bytes ∧
      verifier.checkPayload core codec bytes = .diverged

variable {host core codec} in
/-- What the check of its bytes returns decides the case. -/
theorem loadAndVerify_eq {verifier : Verifier T} {path : String} {bytes : List UInt8}
    (hread : host.read path = .ok bytes) :
    loadAndVerify host core codec verifier path =
      (verifier.checkPayload core codec bytes).bind fun
        | .error e => .returned (.error ⟨[], ["error: " ++ path ++ ": " ++ e.display], 2⟩)
        | .ok (.ok (some tip)) => .returned (.ok tip)
        | .ok (.ok none) =>
          .returned (.error ⟨[path ++ ": verify_block = false (proof rejected)"], [], 1⟩)
        | .ok (.error e) =>
          .returned (.error ⟨[], ["error: " ++ path ++ ": malformed block: " ++ e], 2⟩) := by
  unfold loadAndVerify Verifier.checkPayload
  simp only [hread]
  cases blockFromGossipPayload codec bytes with
  | panicked message => rfl
  | diverged => rfl
  | returned r =>
    cases r with
    | error e => rfl
    | ok block =>
      simp only [Outcome.bind_returned]
      cases verifier.verifyTip core block with
      | panicked message => rfl
      | diverged => rfl
      | returned verified =>
        cases verified with
        | error e => rfl
        | ok tip => cases tip <;> rfl

theorem loadAndVerify_check (verifier : Verifier T) (path : String) :
    FileCheck host core codec verifier path (loadAndVerify host core codec verifier path) := by
  cases hread : host.read path with
  | error e =>
    unfold loadAndVerify
    rw [hread]
    simp [FileCheck, fileTip, fileRejected, failLines, hread]
  | ok bytes =>
    have htip : fileTip host core codec verifier path = verifier.tipOf core codec bytes := by
      simp [fileTip, hread]
    have hrej : fileRejected host core codec verifier path = verifier.isRejected core codec bytes := by
      simp [fileRejected, hread]
    rw [loadAndVerify_eq hread]
    cases hcheck : verifier.checkPayload core codec bytes with
    | panicked message => exact ⟨bytes, hread, hcheck⟩
    | diverged => exact ⟨bytes, hread, hcheck⟩
    | returned r =>
      unfold Verifier.tipOf at htip
      unfold Verifier.isRejected at hrej
      rw [hcheck] at htip hrej
      cases r with
      | error e => exact ⟨htip, by simp [hrej], by simp [failLines, hrej]⟩
      | ok verified =>
        cases verified with
        | error e => exact ⟨htip, by simp [hrej], by simp [failLines, hrej]⟩
        | ok tip =>
          cases tip with
          | none => exact ⟨htip, by simp [hrej], by simp [failLines, hrej]⟩
          | some tip => exact htip

end Program

/-! ## All files -/

/-- What is printed when no file has failed. -/
def okLines (core : Core T) (args : List String) (tips : List (VerifiedTip T)) (m : ChainMonitor T)
    (outs : List (Ingest T.StateHash)) : List String :=
  match args, tips with
  | [path], [tip] => [path ++ ": height " ++ toString tip.height ++ " — verify_block = true"]
  | _, _ => List.zipWith tipLine tips outs ++ bestLines core m

/-- What the process comes to on its arguments. It has gone through the first of them without a failure,
feeding their tips to a monitor, and either these were all, or the next one failed. -/
def CliSpec (host : CliHost T) (core : Core T) (codec : GossipCodec T) (verifier : Verifier T)
    (args : List String) : Outcome Exit → Prop
  | .returned exit => ∃ pre tips m outs, pre.map (fileTip host core codec verifier) = tips.map some ∧
      (ChainMonitor.new 512).run core tips = .returned (m, outs) ∧
      ((args = pre ∧ exit = ⟨okLines core args tips m outs, [], 0⟩) ∨
        (∃ path post, args = pre ++ path :: post ∧ fileTip host core codec verifier path = none ∧
          exit.code = (if fileRejected host core codec verifier path then 1 else 2) ∧
          exit.out = List.zipWith tipLine tips outs ++ failLines host core codec verifier path))
  | .panicked message => ∃ path ∈ args, ∃ bytes, host.read path = .ok bytes ∧
      verifier.checkPayload core codec bytes = .panicked message
  | .diverged => (∃ path ∈ args, ∃ bytes, host.read path = .ok bytes ∧
      verifier.checkPayload core codec bytes = .diverged) ∨
      ¬ TipsAcyclic core (args.filterMap (fileTip host core codec verifier))

section Files
variable {host : CliHost T} {core : Core T} {codec : GossipCodec T} {verifier : Verifier T}
  {args : List String}

theorem monitorLoop_spec {pre paths : List String} {tips : List (VerifiedTip T)} {m : ChainMonitor T}
    {outs : List (Ingest T.StateHash)} (hmany : args.length ≠ 1) (hargs : args = pre ++ paths)
    (htips : pre.map (fileTip host core codec verifier) = tips.map some)
    (hrun : (ChainMonitor.new 512).run core tips = .returned (m, outs)) :
    CliSpec host core codec verifier args
      ((monitorLoop host core codec verifier paths m (List.zipWith tipLine tips outs)).bind fun
        | .error exit => .returned exit
        | .ok (m, out) => .returned ⟨out ++ bestLines core m, [], 0⟩) := by
  induction paths generalizing pre tips m outs with
  | nil =>
    rw [List.append_nil] at hargs
    refine ⟨pre, tips, m, outs, htips, hrun, Or.inl ⟨hargs, ?_⟩⟩
    unfold okLines
    split
    · simp at hmany
    · rfl
  | cons path paths ih =>
    have hcheck := loadAndVerify_check host core codec verifier path
    have hmem : path ∈ args := by simp [hargs]
    rw [monitorLoop]
    cases hload : loadAndVerify host core codec verifier path with
    | panicked message =>
      rw [hload] at hcheck
      exact ⟨path, hmem, hcheck⟩
    | diverged =>
      rw [hload] at hcheck
      exact Or.inl ⟨path, hmem, hcheck⟩
    | returned r =>
      rw [hload] at hcheck
      cases r with
      | error exit =>
        obtain ⟨hnone, hcode, hout⟩ := hcheck
        refine ⟨pre, tips, m, outs, htips, hrun, Or.inr ⟨path, paths, hargs, hnone, hcode, ?_⟩⟩
        rw [← hout]
      | ok tip =>
        have htip : fileTip host core codec verifier path = some tip := hcheck
        have htips' : (pre ++ [path]).map (fileTip host core codec verifier) = (tips ++ [tip]).map some := by
          simp [htips, htip]
        have htwo : 2 ≤ 512 := by decide
        simp only [Outcome.bind_returned]
        cases hingest : m.ingest core tip with
        | panicked message => exact absurd hingest ((run_anchored htwo hrun).ingest_ne_panicked tip message)
        | diverged =>
          refine Or.inr fun hacyc => ?_
          have hsub : tips ++ [tip] ⊆ args.filterMap (fileTip host core codec verifier) := by
            intro t ht
            have hsome : some t ∈ (pre ++ [path]).map (fileTip host core codec verifier) := by
              rw [htips']
              exact List.mem_map_of_mem ht
            obtain ⟨p, hp, hpt⟩ := List.mem_map.mp hsome
            refine List.mem_filterMap.mpr ⟨p, ?_, hpt⟩
            rw [hargs, List.append_cons]
            exact List.mem_append_left _ hp
          obtain ⟨m', out, hanswer⟩ := run_ingest_returns htwo hrun (hacyc.mono hsub)
          rw [hingest] at hanswer
          simp at hanswer
        | returned s =>
          have hnext := run_snoc_returned.mpr ⟨m, outs, s.2, hrun, hingest, rfl⟩
          have hlines : List.zipWith tipLine tips outs ++ [tipLine tip s.2] =
              List.zipWith tipLine (tips ++ [tip]) (outs ++ [s.2]) := by
            rw [List.zipWith_append (run_length hrun).symm]
            rfl
          rw [Outcome.bind_returned, hlines]
          exact ih (by rw [hargs, List.append_cons]) htips' hnext

theorem cliMain_spec (host : CliHost T) (core : Core T) (codec : GossipCodec T) {verifier : Verifier T}
    (hverifier : cliVerifier host = .ok verifier) {args : List String} (hargs : args ≠ []) :
    CliSpec host core codec verifier args (cliMain host core codec args) := by
  have hnone : ([] : List String).map (fileTip host core codec verifier) =
      ([] : List (VerifiedTip T)).map some := rfl
  have hfresh : (ChainMonitor.new 512).run core [] = .returned (ChainMonitor.new 512, []) := rfl
  have hloop : args.length ≠ 1 → CliSpec host core codec verifier args
      ((monitorLoop host core codec verifier args (ChainMonitor.new 512) []).bind fun
        | .error exit => .returned exit
        | .ok (m, out) => .returned ⟨out ++ bestLines core m, [], 0⟩) := fun hmany =>
    monitorLoop_spec hmany (List.nil_append args).symm hnone hfresh
  unfold cliMain
  rw [if_neg (by simpa using hargs), hverifier]
  match args, hargs, hloop with
  | [path], _, _ =>
    have hcheck := loadAndVerify_check host core codec verifier path
    simp only [cliRun]
    cases hload : loadAndVerify host core codec verifier path with
    | panicked message =>
      rw [hload] at hcheck
      exact ⟨path, by simp, hcheck⟩
    | diverged =>
      rw [hload] at hcheck
      exact Or.inl ⟨path, by simp, hcheck⟩
    | returned r =>
      rw [hload] at hcheck
      cases r with
      | error exit =>
        obtain ⟨hnone, hcode, hout⟩ := hcheck
        exact ⟨[], [], ChainMonitor.new 512, [], rfl, rfl, Or.inr ⟨path, [], rfl, hnone, hcode, hout⟩⟩
      | ok tip =>
        have htip : fileTip host core codec verifier path = some tip := hcheck
        have hgenesis : ∃ m outs, (ChainMonitor.new 512).run core [tip] = .returned (m, outs) := by
          simp [ChainMonitor.run, ChainMonitor.ingest, ChainMonitor.new, ChainMonitor.insert]
        obtain ⟨m, outs, hrun⟩ := hgenesis
        exact ⟨[path], [tip], m, outs, by simp [htip], hrun, Or.inl ⟨rfl, rfl⟩⟩
  | path :: path' :: paths, _, hloop => exact hloop (by simp)

theorem isSome_of_map {α β : Type} {f : α → Option β} {l : List α} {l' : List β}
    (h : l.map f = l'.map some) {a : α} (ha : a ∈ l) : (f a).isSome = true := by
  have hmem : f a ∈ l'.map some := h ▸ List.mem_map_of_mem ha
  obtain ⟨b, _, hb⟩ := List.mem_map.mp hmem
  simp [← hb]

theorem cliVerifier_error {exit : Exit} (h : cliVerifier host = .error exit) :
    exit.code = 2 ∧ exit.out = [] := by
  have hmap : ∀ r : Except ForNetworkError (Verifier T), (r.mapError fun e =>
      (⟨[], ["error: " ++ e.display host.debug], 2⟩ : Exit)) = .error exit →
      exit.code = 2 ∧ exit.out = [] := by
    intro r hr
    cases r with
    | ok verifier => nomatch hr
    | error e =>
      rw [← Except.error.inj hr]
      exact ⟨rfl, rfl⟩
  unfold cliVerifier at h
  split at h
  · split at h
    · rw [← Except.error.inj h]
      exact ⟨rfl, rfl⟩
    · exact hmap _ h
  · exact hmap _ h

/-- **The command line stops at the first file that fails.** Without files, or without a verifier, it exits with
2 and prints nothing. Otherwise it exits with 0 exactly when every file holds a block that verifies, and has
then printed that a single file verified, and of several how the monitor classified each, in order, and the
best. Any other exit is that of the first file that is not a verified block: 1 if its proof was rejected, which
is printed, 2 otherwise, after the lines of the files before it; no later file was looked at. It panics only
where the check of a file does, and hangs only there or on parent links that close a cycle. -/
theorem cli_exact (host : CliHost T) (core : Core T) (codec : GossipCodec T) (args : List String) :
    (args = [] → cliMain host core codec args =
      .returned ⟨[], ["usage: mina-verify <payload> [<payload> ...]"], 2⟩) ∧
    (args ≠ [] → ∀ exit, cliVerifier host = .error exit →
      cliMain host core codec args = .returned exit ∧ exit.code = 2 ∧ exit.out = []) ∧
    (args ≠ [] → ∀ verifier, cliVerifier host = .ok verifier →
      (∀ exit, cliMain host core codec args = .returned exit →
        (exit.code = 0 ↔ ∀ path ∈ args, (fileTip host core codec verifier path).isSome = true) ∧
        (exit.code = 0 → ∃ tips m outs, args.map (fileTip host core codec verifier) = tips.map some ∧
          (ChainMonitor.new 512).run core tips = .returned (m, outs) ∧
          exit = ⟨okLines core args tips m outs, [], 0⟩) ∧
        (exit.code ≠ 0 → ∃ pre path post tips m outs, args = pre ++ path :: post ∧
          pre.map (fileTip host core codec verifier) = tips.map some ∧
          (ChainMonitor.new 512).run core tips = .returned (m, outs) ∧
          fileTip host core codec verifier path = none ∧
          exit.code = (if fileRejected host core codec verifier path then 1 else 2) ∧
          exit.out = List.zipWith tipLine tips outs ++ failLines host core codec verifier path)) ∧
      (∀ message, cliMain host core codec args = .panicked message → ∃ path ∈ args, ∃ bytes,
        host.read path = .ok bytes ∧ verifier.checkPayload core codec bytes = .panicked message) ∧
      (cliMain host core codec args = .diverged →
        (∃ path ∈ args, ∃ bytes, host.read path = .ok bytes ∧
          verifier.checkPayload core codec bytes = .diverged) ∨
        ¬ TipsAcyclic core (args.filterMap (fileTip host core codec verifier)))) := by
  refine ⟨?_, ?_, ?_⟩
  · rintro rfl
    rfl
  · intro hargs exit hverifier
    refine ⟨?_, cliVerifier_error hverifier⟩
    rw [cliMain, if_neg (by simpa using hargs), hverifier]
  · intro hargs verifier hverifier
    have hspec := cliMain_spec host core codec hverifier hargs
    refine ⟨?_, ?_, ?_⟩
    · intro exit hexit
      rw [hexit] at hspec
      obtain ⟨pre, tips, m, outs, htips, hrun, ⟨rfl, rfl⟩ | ⟨path, post, rfl, hnone, hcode, hout⟩⟩ := hspec
      · refine ⟨⟨fun _ path hpath => isSome_of_map htips hpath, fun _ => rfl⟩, ?_, fun h => absurd rfl h⟩
        exact fun _ => ⟨tips, m, outs, htips, hrun, rfl⟩
      · have hne : exit.code ≠ 0 := by
          rw [hcode]
          split_ifs <;> decide
        refine ⟨⟨fun h => absurd h hne, fun hall => ?_⟩, fun h => absurd h hne, fun _ => ?_⟩
        · have hbad := hall path (by simp)
          simp [hnone] at hbad
        · exact ⟨pre, path, post, tips, m, outs, rfl, htips, hrun, hnone, hcode, hout⟩
    · intro message hpanic
      rw [hpanic] at hspec
      exact hspec
    · intro hhangs
      rw [hhangs] at hspec
      exact hspec

end Files

/-! ## Replaying a capture -/

section Replay
variable {Peer Conn : Type} [DecidableEq Peer] {host : CliHost T} {core : Core T} {codec : GossipCodec T}
  {verifier : Verifier T}

/-- The tips of files that hold the payloads are the tips of the payloads. -/
theorem fileTip_stored {first : ℕ} {payloads : List (List UInt8)}
    (hread : ∀ entry ∈ stored first payloads, host.read entry.1 = .ok entry.2) :
    ((stored first payloads).map Prod.fst).map (fileTip host core codec verifier) =
      payloads.map (verifier.tipOf core codec) := by
  induction payloads generalizing first with
  | nil => rfl
  | cons payload payloads ih =>
    rw [stored_cons] at hread ⊢
    have hfirst := hread _ List.mem_cons_self
    have hrest := ih fun entry hentry => hread entry (List.mem_cons_of_mem _ hentry)
    rw [List.map_cons, List.map_cons, List.map_cons, hrest]
    simp [fileTip, hfirst]

/-- On links without a cycle the exit code tells whether every file verifies. -/
theorem cliMain_eq_zero_iff (hverifier : cliVerifier host = .ok verifier) {args : List String}
    (hacyc : TipsAcyclic core (args.filterMap (fileTip host core codec verifier))) :
    (∃ exit, cliMain host core codec args = .returned exit ∧ exit.code = 0) ↔
      args ≠ [] ∧ ∀ path ∈ args, (fileTip host core codec verifier path).isSome = true := by
  by_cases hargs : args = []
  · simp [hargs, cliMain]
  have hspec := cliMain_spec host core codec hverifier hargs
  constructor
  · rintro ⟨exit, hexit, hzero⟩
    rw [hexit] at hspec
    obtain ⟨pre, tips, m, outs, htips, _, ⟨rfl, _⟩ | ⟨path, post, _, _, hcode, _⟩⟩ := hspec
    · exact ⟨hargs, fun path hpath => isSome_of_map htips hpath⟩
    · rw [hzero] at hcode
      split_ifs at hcode
  · rintro ⟨_, hall⟩
    cases hmain : cliMain host core codec args with
    | returned exit =>
      rw [hmain] at hspec
      obtain ⟨pre, tips, m, outs, _, _, ⟨_, rfl⟩ | ⟨path, post, rfl, hnone, _⟩⟩ := hspec
      · exact ⟨_, rfl, rfl⟩
      · have hbad := hall path (by simp)
        simp [hnone] at hbad
    | panicked message =>
      rw [hmain] at hspec
      obtain ⟨path, hpath, bytes, hread, hcheck⟩ := hspec
      have hbad := hall path hpath
      simp [fileTip, hread, Verifier.tipOf, hcheck] at hbad
    | diverged =>
      rw [hmain] at hspec
      obtain ⟨path, hpath, bytes, hread, hcheck⟩ | hcycle := hspec
      · have hbad := hall path hpath
        simp [fileTip, hread, Verifier.tipOf, hcheck] at hbad
      · exact absurd hacyc hcycle

omit [DecidableEq Peer] in
theorem verifiedTips_of_map {payloads : List (List UInt8)} {tips : List (VerifiedTip T)}
    (htips : payloads.map (verifier.tipOf core codec) = tips.map some) :
    verifier.verifiedTips core codec payloads = tips := by
  calc payloads.filterMap (verifier.tipOf core codec)
      = (payloads.map (verifier.tipOf core codec)).filterMap id := by
        rw [List.filterMap_map]
        rfl
    _ = tips := by
        rw [htips, List.filterMap_map]
        simp

/-- A worker that takes payloads that all verify takes them to the end. -/
theorem consume_verified (Peer Conn : Type) [DecidableEq Peer] (debug : String → String)
    (peers : List String) {payloads : List (List UInt8)} {tips : List (VerifiedTip T)}
    (htips : payloads.map (verifier.tipOf core codec) = tips.map some)
    (hacyc : TipsAcyclic core tips) :
    ∃ w : Worker T, (liveMonitor core codec debug (.ok verifier) peers :
        Channel.Program (List UInt8) (GossipLoop Peer Conn String) (Worker T)).consume payloads =
          .returned w ∧
      w.ingested = UInt64.ofNat payloads.length ∧ w.rejected = 0 ∧
      ∃ outs, (ChainMonitor.new 512).run core tips = .returned (w.monitor, outs) := by
  have hverified := verifiedTips_of_map htips
  have hcheck : ∀ payload ∈ payloads, ∃ tip,
      verifier.checkPayload core codec payload = .returned (.ok (.ok (some tip))) := by
    intro payload hmem
    obtain ⟨tip, htip⟩ := Option.isSome_iff_exists.mp (isSome_of_map htips hmem)
    exact ⟨tip, Verifier.tipOf_eq_some_iff_check.mp htip⟩
  cases hw : (liveMonitor core codec debug (.ok verifier) peers :
      Channel.Program (List UInt8) (GossipLoop Peer Conn String) (Worker T)).consume payloads with
  | panicked message =>
    obtain ⟨e, he, _⟩ | ⟨v, hv, payload, hmem, hpanic⟩ := consume_panicked hw
    · nomatch he
    · obtain rfl := Except.ok.inj hv
      obtain ⟨tip, hok⟩ := hcheck payload hmem
      rw [hok] at hpanic
      nomatch hpanic
  | diverged =>
    refine absurd hw (consume_ne_diverged ?_)
    intro v hv
    obtain rfl := Except.ok.inj hv
    refine ⟨fun payload hmem hdiv => ?_, hverified ▸ hacyc⟩
    obtain ⟨tip, hok⟩ := hcheck payload hmem
    rw [hok] at hdiv
    nomatch hdiv
  | returned w =>
    obtain ⟨v, hv, hproc⟩ := consume_returned hw
    obtain rfl := Except.ok.inj hv
    have hrejected : payloads.countP (verifier.isRejected core codec) = 0 := by
      rw [List.countP_eq_zero]
      intro payload hmem
      obtain ⟨tip, hok⟩ := hcheck payload hmem
      simp [Verifier.isRejected, hok]
    have hlen := congrArg List.length htips
    rw [List.length_map, List.length_map] at hlen
    obtain ⟨outs, hmonitor⟩ := hproc.monitor_eq
    rw [hverified] at hmonitor
    refine ⟨w, rfl, ?_, ?_, outs, hmonitor⟩
    · rw [hproc.ingested_eq, hverified, hlen]
    · rw [hproc.rejected_eq, hrejected]
      rfl

/-- **A capture replays to what the live monitor saw.** The files a capture has left are given to the command
line in their order. Where the parent links of their blocks close no cycle, it exits with 0 exactly when there
is a file and every captured payload holds a block that verifies; and then a worker of the live monitor that
takes the same payloads ingests them all and rejects none, and what is printed are the answers of the worker's
own monitor to their tips and its best; or, of a single file, only that it verified. -/
theorem capture_replay (host : CliHost T) (core : Core T) (codec : GossipCodec T) {verifier : Verifier T}
    (hverifier : cliVerifier host = .ok verifier) (env : Environment) (disk : Disk)
    (transport : Transport) (branches : List (Branch Peer Conn)) {c : Capture}
    (hcapture : captureMain env disk transport branches = .returned c)
    (hread : ∀ entry ∈ c.files, host.read entry.1 = .ok entry.2)
    (hacyc : TipsAcyclic core (verifier.verifiedTips core codec (c.files.map Prod.snd))) :
    ((∃ exit, cliMain host core codec (c.files.map Prod.fst) = .returned exit ∧ exit.code = 0) ↔
      c.files ≠ [] ∧ ∀ entry ∈ c.files, (verifier.tipOf core codec entry.2).isSome = true) ∧
    ∀ exit, cliMain host core codec (c.files.map Prod.fst) = .returned exit → exit.code = 0 →
      ∀ (debug : String → String) (peers : List String), ∃ (w : Worker T) (tips : List (VerifiedTip T))
          (outs : List (Ingest T.StateHash)),
        (liveMonitor core codec debug (.ok verifier) peers :
          Channel.Program (List UInt8) (GossipLoop Peer Conn String) (Worker T)).consume
            (((gossiped branches).filter isBlock).take (max (captureBlocks env) 1)) = .returned w ∧
        w.ingested = UInt64.ofNat c.saved ∧ w.rejected = 0 ∧
        c.files.map (fun entry => verifier.tipOf core codec entry.2) = tips.map some ∧
        (ChainMonitor.new 512).run core tips = .returned (w.monitor, outs) ∧
        exit.out = okLines core (c.files.map Prod.fst) tips w.monitor outs := by
  have hspec := captureMain_spec env disk transport branches
  rw [hcapture] at hspec
  obtain ⟨hfiles, hsaved, _⟩ := hspec
  generalize ((gossiped branches).filter isBlock).take (max (captureBlocks env) 1) = payloads at hfiles ⊢
  have hpayloads : c.files.map Prod.snd = payloads := by
    rw [hfiles, stored, List.map_map, ← List.zipIdx_map_fst 0 payloads]
    simp [Function.comp_def]
  have htip : (c.files.map Prod.fst).map (fileTip host core codec verifier) =
      payloads.map (verifier.tipOf core codec) := by
    rw [hfiles] at hread ⊢
    exact fileTip_stored hread
  have hown : ∀ entry ∈ c.files,
      fileTip host core codec verifier entry.1 = verifier.tipOf core codec entry.2 := by
    intro entry hentry
    simp [fileTip, hread entry hentry]
  have hargs : TipsAcyclic core ((c.files.map Prod.fst).filterMap (fileTip host core codec verifier)) := by
    have hsame : (c.files.map Prod.fst).filterMap (fileTip host core codec verifier) =
        verifier.verifiedTips core codec (c.files.map Prod.snd) := by
      rw [Verifier.verifiedTips, List.filterMap_map, List.filterMap_map]
      exact List.filterMap_congr hown
    rw [hsame]
    exact hacyc
  refine ⟨?_, ?_⟩
  · rw [cliMain_eq_zero_iff hverifier hargs, ne_eq, List.map_eq_nil_iff, List.forall_mem_map]
    refine and_congr_right fun _ => forall₂_congr fun entry hentry => ?_
    rw [hown entry hentry]
  · intro exit hexit hzero debug peers
    obtain ⟨hne, _⟩ := (cliMain_eq_zero_iff hverifier hargs).mp ⟨exit, hexit, hzero⟩
    have hcli := cliMain_spec host core codec hverifier hne
    rw [hexit] at hcli
    obtain ⟨pre, tips, m, outs, htips, hrun, ⟨rfl, rfl⟩ | ⟨path, post, _, _, hcode, _⟩⟩ := hcli
    · rw [htip] at htips
      have htipsOf : verifier.verifiedTips core codec (c.files.map Prod.snd) = tips := by
        rw [hpayloads]
        exact verifiedTips_of_map htips
      obtain ⟨w, hw, hingested, hrejected, outs', hmonitor⟩ := consume_verified Peer Conn debug peers
        htips (htipsOf ▸ hacyc)
      rw [hrun, Outcome.returned.injEq, Prod.mk.injEq] at hmonitor
      obtain ⟨rfl, rfl⟩ := hmonitor
      have hlen : c.saved = payloads.length := by rw [hsaved, ← hpayloads, List.length_map]
      refine ⟨w, tips, outs, hw, by rw [hingested, hlen], hrejected, ?_, hrun, rfl⟩
      rw [← htips, ← hpayloads, List.map_map]
      rfl
    · rw [hzero] at hcode
      split_ifs at hcode

end Replay

/-! ## Two blocks and a forged one in files -/

namespace SampleFiles
open SampleGossip

/-- The files of a capture of two blocks, and a forged one. -/
def host : CliHost Sample.types where
  var := fun _ => none
  readToString := fun _ => .error "No such file or directory (os error 2)"
  read := fun path =>
    if path = blockFile 0 then .ok (payload [0, 1])
    else if path = blockFile 1 then .ok (payload [0, 2])
    else if path = "forged" then .ok (payload [0, 9])
    else .error "No such file or directory (os error 2)"
  debug := id
  index := ⟨fun _ => .ok (), "", ""⟩
  forNetwork := fun network => .ok ⟨network, ()⟩

def heard : List (Branch String ℕ) :=
  [.swarm (some (.message (payload [0, 1]))), .tick, .swarm (some (.message (payload [1]))),
    .swarm (some (.message (payload [0, 2]))), .swarm (some (.message (payload [0, 9])))]

def captured : Capture :=
  ⟨[(blockFile 0, payload [0, 1]), (blockFile 1, payload [0, 2])], 2, none⟩

end SampleFiles

open SampleGossip SampleFiles in
/-- The forged block in second place ends the process with code 1 and two lines printed. -/
theorem cli_exact_forged :
    ∃ exit, cliMain host core codec [blockFile 0, "forged", blockFile 1] = .returned exit ∧
      exit.code = 1 ∧ exit.out.length = 2 ∧
      ¬ (∀ path ∈ [blockFile 0, "forged", blockFile 1],
        (fileTip host core codec verifier path).isSome = true) := by
  obtain ⟨exit, hexit, hcode⟩ := Outcome.exists_of_holds
    (x := cliMain host core codec [blockFile 0, "forged", blockFile 1])
    (p := fun exit : Exit => decide (exit.code = 1 ∧ exit.out.length = 2)) (by decide +kernel)
  rw [decide_eq_true_iff] at hcode
  have hverifier : cliVerifier host = .ok verifier := rfl
  have hexact := (cli_exact host core codec [blockFile 0, "forged", blockFile 1]).2.2 (by simp)
    verifier hverifier
  refine ⟨exit, hexit, hcode.1, hcode.2, fun hall => ?_⟩
  rw [(hexact.1 exit hexit).1.mpr hall] at hcode
  exact absurd hcode.1 (by decide)

open SampleGossip SampleFiles in
/-- The capture of the two blocks replays to the worker's monitor. -/
theorem capture_replay_two_blocks :
    captureMain SampleCapture.env SampleCapture.disk SampleCapture.transport heard = .returned captured ∧
    ∃ exit, cliMain host core codec (captured.files.map Prod.fst) = .returned exit ∧ exit.code = 0 ∧
      exit.out.length = 3 ∧ ∃ (w : Worker Sample.types) (tips : List (VerifiedTip Sample.types))
          (outs : List (Ingest String)),
        w.ingested = 2 ∧ (ChainMonitor.new 512).run core tips = .returned (w.monitor, outs) ∧
        exit.out = okLines core (captured.files.map Prod.fst) tips w.monitor outs := by
  have hcapture : captureMain SampleCapture.env SampleCapture.disk SampleCapture.transport heard =
      .returned captured := rfl
  have hread : ∀ entry ∈ captured.files, host.read entry.1 = .ok entry.2 := by
    simp only [captured, List.forall_mem_cons, List.not_mem_nil, false_implies, implies_true, and_true]
    exact ⟨rfl, rfl⟩
  have hverifier : cliVerifier host = .ok verifier := rfl
  have hcons : TipsConsistent core (fun k => if k = "a" then 1 else if k = "b" then 2 else 0)
      (verifier.verifiedTips core codec (captured.files.map Prod.snd)) := by decide +kernel
  obtain ⟨hzero, hreplay⟩ := capture_replay host core codec hverifier SampleCapture.env SampleCapture.disk
    SampleCapture.transport heard hcapture hread hcons.acyclic
  obtain ⟨exit, hexit, hcode⟩ := hzero.mpr ⟨by simp [captured], by decide +kernel⟩
  obtain ⟨w, tips, outs, _, hingested, _, _, hrun, hout⟩ := hreplay exit hexit hcode id ["/dns4/seed"]
  have hlines : (cliMain host core codec (captured.files.map Prod.fst)).holds
      (fun exit : Exit => decide (exit.out.length = 3)) = true := by decide +kernel
  rw [hexit, Outcome.holds, decide_eq_true_iff] at hlines
  exact ⟨hcapture, exit, hexit, hcode, hlines, w, tips, outs, hingested, hrun, hout⟩

end MinaVerify
