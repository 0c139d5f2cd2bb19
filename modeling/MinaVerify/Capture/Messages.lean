import MinaVerify.Capture.Subscribe

/-! # What the gossip loop hands on

`subscribe_blocks` looks at one byte of a message and hands on those that have the tag of a block. Both
its callers, the capture and the live monitor, ignore the ticks: what they get is then the tagged messages
in the order of arrival, up to the deadline, the end of the swarm or a break of their own. -/
namespace MinaVerify
set_option autoImplicit false

variable {Peer Conn Addr σ : Type}

/-- The deadline has passed, or the swarm has ended. -/
def Branch.ends : Branch Peer Conn → Bool
  | .deadline => true
  | .swarm none => true
  | _ => false

def Branch.message : Branch Peer Conn → Option (List UInt8)
  | .swarm (some (.message data)) => some data
  | _ => none

/-- The tag of a block at the ninth byte. -/
def isBlock (data : List UInt8) : Bool := decide (data[8]? = some 0)

/-- The messages that arrive before the loop ends by itself. -/
def gossiped (branches : List (Branch Peer Conn)) : List (List UInt8) :=
  (branches.takeWhile fun branch => !branch.ends).filterMap Branch.message

/-- A caller that does nothing on a tick. -/
def Callbacks.Quiet (callbacks : Callbacks σ) : Prop :=
  ∀ peers captured, callbacks.onTick peers captured = (captured, .continue_)

/-- What one branch comes to for a caller that does nothing on a tick. -/
def Callbacks.take (callbacks : Callbacks σ) (branch : Branch Peer Conn) (captured : σ) :
    σ × ControlFlow :=
  if branch.ends then (captured, .break_)
  else
    match branch.message.filter isBlock with
    | some data => callbacks.onBlock data captured
    | none => (captured, .continue_)

section Round
variable [DecidableEq Peer] (peers : List Addr) {callbacks : Callbacks σ}

theorem selectRound_take (h : callbacks.Quiet) (s : Subscription Peer Addr σ)
    (branch : Branch Peer Conn) :
    ((selectRound peers callbacks s branch).1.captured, (selectRound peers callbacks s branch).2) =
      callbacks.take branch s.captured := by
  cases branch with
  | deadline => rfl
  | tick =>
    simp only [selectRound, h s.connected.card s.captured]
    rfl
  | swarm event =>
    cases event with
    | none => rfl
    | some event =>
      cases event with
      | message data =>
        by_cases htag : data[8]? = some 0
        · simp [selectRound, Callbacks.take, Branch.ends, Branch.message, isBlock, htag,
            Option.filter_some]
        · simp [selectRound, Callbacks.take, Branch.ends, Branch.message, isBlock, htag,
            Option.filter_some]
      | connectionEstablished peer connection => rfl
      | connectionClosed peer connection => rfl
      | outgoingConnectionError peer error => rfl
      | other => rfl

/-- One call of `on_block` after another; the first break ends it. -/
def Callbacks.feed (callbacks : Callbacks σ) : List (List UInt8) → σ → σ × ControlFlow
  | [], captured => (captured, .continue_)
  | data :: datas, captured =>
    match callbacks.onBlock data captured with
    | (captured, .continue_) => callbacks.feed datas captured
    | (captured, .break_) => (captured, .break_)

omit [DecidableEq Peer] in
theorem gossiped_cons (branch : Branch Peer Conn) (branches : List (Branch Peer Conn)) :
    gossiped (branch :: branches) =
      if branch.ends then [] else branch.message.toList ++ gossiped branches := by
  cases hends : branch.ends with
  | true => simp [gossiped, hends]
  | false =>
    simp only [gossiped, List.takeWhile_cons, hends, Bool.not_false, if_true, List.filterMap_cons]
    cases branch.message <;> rfl

/-- What the caller has captured when the loop stops is what feeding it the tagged messages leads to,
and the loop goes on exactly as long as neither the caller nor the swarm ends it. -/
theorem subscribeBlocks_feed (h : callbacks.Quiet) (branches : List (Branch Peer Conn))
    (s : Subscription Peer Addr σ) :
    (subscribeBlocks peers callbacks branches s).1.captured =
        (callbacks.feed ((gossiped branches).filter isBlock) s.captured).1 ∧
      ((subscribeBlocks peers callbacks branches s).2 = .continue_ ↔
        (∀ branch ∈ branches, branch.ends = false) ∧
          (callbacks.feed ((gossiped branches).filter isBlock) s.captured).2 = .continue_) := by
  induction branches generalizing s with
  | nil => simp [subscribeBlocks, gossiped, Callbacks.feed]
  | cons branch branches ih =>
    have hround := selectRound_take peers h s branch
    rw [subscribeBlocks, gossiped_cons]
    cases hs : selectRound peers callbacks s branch with
    | mk s' flow =>
      rw [hs] at hround
      simp only at hround
      unfold Callbacks.take at hround
      cases hends : branch.ends with
      | true =>
        simp only [hends, if_true, Prod.mk.injEq] at hround
        obtain ⟨hcaptured, rfl⟩ := hround
        simp [Callbacks.feed, hcaptured, hends]
      | false =>
        simp only [hends, Bool.false_eq_true, if_false] at hround ⊢
        have hgo : ∀ captured : σ, (s'.captured, flow) = (captured, .continue_) →
            flow = .continue_ ∧ s'.captured = captured := by
          intro captured hpair
          simp only [Prod.mk.injEq] at hpair
          exact ⟨hpair.2, hpair.1⟩
        cases hmessage : branch.message with
        | none =>
          rw [hmessage, Option.filter_none] at hround
          obtain ⟨rfl, hcaptured⟩ := hgo _ hround
          simpa [hends, hcaptured] using ih s'
        | some data =>
          rw [hmessage] at hround
          cases htag : isBlock data with
          | false =>
            rw [Option.filter_some, htag] at hround
            obtain ⟨rfl, hcaptured⟩ := hgo _ hround
            simpa [hends, htag, hcaptured] using ih s'
          | true =>
            rw [Option.filter_some, htag] at hround
            simp only [if_true] at hround
            simp only [Option.toList_some, List.singleton_append, List.filter_cons, htag, if_true,
              Callbacks.feed, ← hround]
            cases flow with
            | continue_ => simpa [hends] using ih s'
            | break_ => simp

end Round
end MinaVerify
