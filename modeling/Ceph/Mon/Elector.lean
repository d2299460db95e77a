import Mathlib.Data.Finset.Card
import Mathlib.Data.Fintype.Card
import Mathlib.Tactic

set_option autoImplicit false

/-! # The election of a leading monitor

`Elector` of `mon/Elector.cc`, together with the parts of `Monitor` that it drives. The monitors
of a monmap are numbered by their ranks `0, …, n - 1`; a lower rank wins over a higher one.
Elections run in odd epochs. A monitor that hears nothing from a better one for a while and has
been acknowledged by a majority declares victory, which ends the election at the next epoch, an
even one; the others learn of it and *adopt* the leader.

A handler takes the state of one monitor and gives the new one, with the messages to send and
the leaders adopted on the way, or the assertion that failed. The monmap is fixed and the same
everywhere, so the checks of `dispatch` on it always pass. `Monitor::bootstrap` of a monmap of one
monitor, which does without the `Elector`, is not modelled. Epochs are natural numbers below
`2 ^ 32`, and the one after the last one is `0` (`nextEpoch`).
-/

namespace Ceph.Mon

/-- `epoch + 1`, of an `epoch_t`. -/
def nextEpoch (e : ℕ) : ℕ := (e + 1) % 2 ^ 32

/-! ## Messages -/

/-- What a monitor supports, or requires of others: the features of a connection, the features of
a monitor and the release. -/
structure Caps where
  features : BitVec 64
  monFeatures : BitVec 64
  release : ℕ
  deriving DecidableEq

/-- `MMonElection`, without what is only handed on to the monitor. -/
inductive ElectionMsg (n : ℕ) where
  | propose (epoch : ℕ) (caps : Caps)
  | ack (epoch : ℕ) (caps : Caps)
  | victory (epoch : ℕ) (quorum : Finset (Fin n))
  | nak (epoch : ℕ)
  deriving DecidableEq

/-- The assertions of `Elector.cc`. -/
inductive Assertion where
  /-- `epoch <= e` in `bump_epoch`. -/
  | bumpEpoch
  /-- `epoch % 2 == 1` in `victory`. -/
  | victoryParity
  /-- `m->epoch % 2 == 1` in `handle_propose`. -/
  | proposeParity
  /-- `leader_acked < from` in `handle_propose`. -/
  | proposeRank
  /-- `m->epoch % 2 == 1` in `handle_ack`. -/
  | ackParity
  /-- `leader_acked >= 0` in `handle_ack`. -/
  | ackRank
  /-- `from < mon->rank` in `handle_victory`. -/
  | handleVictoryRank
  /-- `m->epoch % 2 == 0` in `handle_victory`. -/
  | handleVictoryParity
  deriving DecidableEq

/-! ## One monitor -/

/-- The states of `Monitor` that the elector distinguishes; a synchronizing monitor ignores
elections as a probing one does. -/
inductive MonState where
  | probing
  | electing
  | leader
  | peon
  deriving DecidableEq

/-- A monitor takes `leader` for its leader, in an epoch and with a quorum. -/
structure Adoption (n : ℕ) where
  who : Fin n
  epoch : ℕ
  leader : Fin n
  quorum : Finset (Fin n)
  deriving DecidableEq

/-- The state of a monitor. `stored` is `election_epoch` in its store, `0` if there is none. -/
structure Monitor (n : ℕ) where
  stored : ℕ
  caps : Caps
  required : Caps
  hasEverJoined : Bool
  state : MonState
  quorum : Finset (Fin n)
  epoch : ℕ
  participating : Bool
  electingMe : Bool
  ackedMe : Finset (Fin n)
  leaderAcked : Option (Fin n)
  timer : Bool
  /-- Messages sent by the handler, with their destinations. -/
  out : List (Fin n × ElectionMsg n)
  /-- Leaders adopted by the handler. -/
  adopted : List (Adoption n)
  deriving DecidableEq

namespace Monitor

variable {n : ℕ}

/-- `send_mon_message`. -/
def send (m : Monitor n) (msg : ElectionMsg n) (dest : Fin n) : Monitor n :=
  { m with out := m.out ++ [(dest, msg)] }

def init (m : Monitor n) : Monitor n :=
  if m.stored = 0 then { m with epoch := 1 }
  else if m.stored % 2 = 1 then
    { m with epoch := nextEpoch m.stored, stored := nextEpoch m.stored }
  else { m with epoch := m.stored }

def joinElection (m : Monitor n) : Monitor n := { m with state := .electing, quorum := ∅ }

def bumpEpoch (m : Monitor n) (e : ℕ) : Except Assertion (Monitor n) :=
  if e < m.epoch then .error .bumpEpoch
  else
    .ok { joinElection { m with epoch := e, stored := e } with electingMe := false, ackedMe := ∅ }

/-- How `Elector::start` gets to its epoch: odd == election cycle. -/
def electionCycle (m : Monitor n) : Except Assertion (Monitor n) :=
  if m.init.epoch % 2 = 0 then m.init.bumpEpoch (nextEpoch m.init.epoch)
  else .ok m.init

/-- `Elector::start` on the monitor of the given rank. -/
def start (rank : Fin n) (m : Monitor n) : Except Assertion (Monitor n) :=
  if m.participating then do
    let m ← electionCycle { m with ackedMe := ∅ }
    .ok { m with
      electingMe := true
      ackedMe := insert rank m.ackedMe
      leaderAcked := none
      timer := true
      out := m.out ++
        ((List.finRange n).filter fun i => i ≠ rank).map fun i => (i, .propose m.epoch m.caps) }
  else .ok m

def startElection (rank : Fin n) (m : Monitor n) : Except Assertion (Monitor n) :=
  start rank { m with state := .electing, quorum := ∅ }

def bootstrap (m : Monitor n) : Monitor n := { m with state := .probing, quorum := ∅ }

def defer (m : Monitor n) (who : Fin n) : Monitor n :=
  let m := if m.electingMe then { m with ackedMe := ∅, electingMe := false } else m
  { m with leaderAcked := some who, timer := true }.send (.ack m.epoch m.caps) who

/-- `Elector::victory` and `Monitor::win_election`. -/
def victory (rank : Fin n) (m : Monitor n) : Except Assertion (Monitor n) :=
  let quorum := m.ackedMe
  if m.epoch % 2 ≠ 1 then .error .victoryParity
  else do
    let m ← { m with leaderAcked := none, electingMe := false, timer := false }.bumpEpoch
      (nextEpoch m.epoch)
    .ok { m with
      out := m.out ++ ((List.finRange n).filter fun i => i ∈ quorum ∧ i ≠ rank).map
        fun i => (i, .victory m.epoch quorum)
      state := .leader
      quorum := quorum
      adopted := m.adopted ++ [⟨rank, m.epoch, rank, quorum⟩] }

def expire (rank : Fin n) (m : Monitor n) : Except Assertion (Monitor n) :=
  let m := { m with timer := false }
  if m.electingMe ∧ n / 2 < m.ackedMe.card then victory rank m
  else if m.hasEverJoined then start rank m
  else .ok m.bootstrap

/-! ## Handling messages -/

/-- The end of `handle_propose`: who would win? -/
def proposeRanks (rank : Fin n) (m : Monitor n) (src : Fin n) : Except Assertion (Monitor n) :=
  if rank < src then
    -- i would win over them
    match m.leaderAcked with
    | some l => if l < src then .ok m else .error .proposeRank
    | none => if m.electingMe then .ok m else startElection rank m
  else
    -- they would win over me
    match m.leaderAcked with
    | none => .ok (m.defer src)
    | some l => if src ≤ l then .ok (m.defer src) else .ok m

/-- `Elector::handle_propose`. A peer without required monitor features is refused and then
treated like any other: the branch does not return. -/
def handlePropose (rank : Fin n) (m : Monitor n) (src : Fin n) (epoch : ℕ) (caps : Caps) :
    Except Assertion (Monitor n) :=
  if epoch % 2 ≠ 1 then .error .proposeParity
  else if (m.required.features ^^^ caps.features) &&& m.required.features ≠ 0 then
    .ok (m.send (.nak epoch) src)
  else if caps.release < m.required.release then .ok (m.send (.nak epoch) src)
  else if caps.monFeatures &&& m.required.monFeatures ≠ m.required.monFeatures then
    proposeRanks rank (m.send (.nak epoch) src) src
  else if m.epoch < epoch then do
    let m ← m.bumpEpoch epoch
    proposeRanks rank m src
  else if epoch < m.epoch then
    -- a mon just started up, call a new election so they can rejoin!
    if m.epoch % 2 = 0 ∧ src ∉ m.quorum then startElection rank m else .ok m
  else proposeRanks rank m src

/-- `Elector::handle_ack`, for an epoch that is not old. -/
def handleAck (rank : Fin n) (m : Monitor n) (src : Fin n) (epoch : ℕ) (caps : Caps) :
    Except Assertion (Monitor n) :=
  if epoch % 2 ≠ 1 then .error .ackParity
  else if m.epoch < epoch then do
    let m ← m.bumpEpoch epoch
    start rank m
  else if (m.required.features ^^^ caps.features) &&& m.required.features ≠ 0 then .ok m
  else if caps.monFeatures &&& m.required.monFeatures ≠ m.required.monFeatures then .ok m
  else if m.electingMe then
    let m := { m with ackedMe := insert src m.ackedMe }
    -- is that _everyone_?
    if m.ackedMe.card = n then victory rank m else .ok m
  else if m.leaderAcked.isSome then .ok m
  else .error .ackRank

/-- `Elector::handle_victory` and `Monitor::lose_election`, for an epoch that is not old. -/
def handleVictory (rank : Fin n) (m : Monitor n) (src : Fin n) (epoch : ℕ)
    (quorum : Finset (Fin n)) : Except Assertion (Monitor n) :=
  if ¬ src < rank then .error .handleVictoryRank
  else if epoch % 2 ≠ 0 then .error .handleVictoryParity
  else if epoch ≠ nextEpoch m.epoch then do
    let m ← { m with leaderAcked := none }.bumpEpoch epoch
    start rank m
  else do
    let m ← { m with leaderAcked := none }.bumpEpoch epoch
    -- they win
    .ok { m with
      state := .peon
      quorum := quorum
      timer := false
      adopted := m.adopted ++ [⟨rank, m.epoch, src, quorum⟩] }

/-- A process that has just been started: `Monitor::Monitor` and `Elector::Elector`. -/
def fresh (m : Monitor n) : Monitor n :=
  { m with
    state := .probing
    quorum := ∅
    epoch := 0
    participating := true
    electingMe := false
    ackedMe := ∅
    leaderAcked := none
    timer := false
    out := []
    adopted := [] }

/-- `Monitor::dispatch_op` and `Elector::dispatch`. `handle_nak` ends the process. -/
def dispatch (rank : Fin n) (m : Monitor n) (src : Fin n) (msg : ElectionMsg n) :
    Except Assertion (Monitor n) :=
  if m.state = .probing then .ok m
  else if ¬ m.participating then .ok m
  else
    match msg with
    | .propose epoch caps => handlePropose rank m src epoch caps
    | .ack epoch caps => if epoch < m.epoch then .ok m else handleAck rank m src epoch caps
    | .victory epoch quorum =>
      if epoch < m.epoch then .ok m else handleVictory rank m src epoch quorum
    | .nak epoch => if epoch < m.epoch then .ok m else .ok m.fresh

/-! ## Commands -/

/-- The command `quorum enter`. -/
def quorumEnter (rank : Fin n) (m : Monitor n) : Except Assertion (Monitor n) :=
  startElection rank { m with participating := true }

/-- The command `quorum exit`. -/
def quorumExit (rank : Fin n) (m : Monitor n) : Except Assertion (Monitor n) := do
  let m ← startElection rank m
  .ok { m with participating := false }

/-- Other requirements, another release, or the first active quorum. -/
def configure (m : Monitor n) (required caps : Caps) (joined : Bool) : Monitor n :=
  { m with required := required, caps := caps, hasEverJoined := joined }

end Monitor

/-! ## All monitors -/

/-- The monitors, the messages under way from one to another, and what has happened: the
adoptions and the failed assertions. -/
structure World (n : ℕ) where
  mon : Fin n → Monitor n
  chan : Fin n → Fin n → List (ElectionMsg n)
  adoptions : List (Adoption n)
  failures : List Assertion

/-- What can happen. -/
inductive ElectionAction (n : ℕ) where
  /-- The first message under way arrives. -/
  | deliver (src dst : Fin n)
  /-- Some message under way is lost. -/
  | lose (src dst : Fin n) (i : ℕ)
  | expire (rank : Fin n)
  /-- The monitor has probed its peers and calls an election. -/
  | startElection (rank : Fin n)
  | bootstrap (rank : Fin n)
  /-- The process stops, and is started again. -/
  | restart (rank : Fin n)
  | quorumEnter (rank : Fin n)
  | quorumExit (rank : Fin n)
  | configure (rank : Fin n) (required caps : Caps) (joined : Bool)

namespace World

variable {n : ℕ}

/-- A handler has run on a monitor: its messages are under way, its adoptions are noted. A
process whose assertion fails is started again. -/
def absorb (w : World n) (rank : Fin n) : Except Assertion (Monitor n) → World n
  | .ok m =>
    { w with
      mon := Function.update w.mon rank { m with out := [], adopted := [] }
      chan := fun src dst => if src = rank then
        w.chan src dst ++ (m.out.filter fun p => p.1 = dst).map Prod.snd else w.chan src dst
      adoptions := w.adoptions ++ m.adopted }
  | .error a =>
    { w with
      mon := Function.update w.mon rank (w.mon rank).fresh
      failures := w.failures ++ [a] }

/-- Other messages under way from one monitor to another. -/
def setChan (w : World n) (src dst : Fin n) (msgs : List (ElectionMsg n)) : World n :=
  { w with chan := Function.update w.chan src (Function.update (w.chan src) dst msgs) }

/-- One action, if it can happen. -/
def step (w : World n) : ElectionAction n → Option (World n)
  | .deliver src dst =>
    match w.chan src dst with
    | [] => none
    | msg :: rest =>
      some ((w.setChan src dst rest).absorb dst ((w.mon dst).dispatch dst src msg))
  | .lose src dst i => some (w.setChan src dst ((w.chan src dst).eraseIdx i))
  | .expire rank =>
    if (w.mon rank).timer then some (w.absorb rank ((w.mon rank).expire rank)) else none
  | .startElection rank => some (w.absorb rank ((w.mon rank).startElection rank))
  | .bootstrap rank => some (w.absorb rank (.ok (w.mon rank).bootstrap))
  | .restart rank => some (w.absorb rank (.ok (w.mon rank).fresh))
  | .quorumEnter rank => some (w.absorb rank ((w.mon rank).quorumEnter rank))
  | .quorumExit rank => some (w.absorb rank ((w.mon rank).quorumExit rank))
  | .configure rank required caps joined =>
    some (w.absorb rank (.ok ((w.mon rank).configure required caps joined)))

/-- Before the first action: every monitor has just been started, with some epoch in its store. -/
structure Initial (w : World n) : Prop where
  fresh : ∀ rank, w.mon rank = (w.mon rank).fresh
  chan : ∀ src dst, w.chan src dst = []
  adoptions : w.adoptions = []
  failures : w.failures = []

end World

end Ceph.Mon
