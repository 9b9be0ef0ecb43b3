import Gedis.Core.Quorum
import Gedis.Core.Run
import Gedis.Sentinel.Registry
import Mathlib.Data.List.FinRange

/-!
# Sentinels that exchange votes

Each sentinel runs its automatic step, one at a time, as a task in phases. Between two accesses to
its registry, and between the requests and answers on the network, any other sentinel may move.
Messages may be delivered late or never. The replicas carry out the commands that reach them. Votes
that were granted and candidates that were elected are kept as a history.
-/

namespace Gedis.Sentinel

open Gedis.Core

variable {n : Nat}

/-- A request for a vote in one round of a sentinel. The name of the master is not sent. -/
structure Query (n : Nat) where
  src : Fin n
  dst : Fin n
  serial : Nat
  master : Bytes
  host : Bytes
  port : Int64
  epoch : UInt64
  deriving DecidableEq, Repr

/-- A request on its way, what the peer has done with it, and the answer. -/
inductive Msg (n : Nat) where
  | ask (q : Query n)
  /-- The peer found a master with the address, and whether it takes it for down. -/
  | matched (q : Query n) (name : Bytes) (down : Bool)
  /-- The vote was not granted; the answer will name the vote on record. -/
  | refused (q : Query n) (name : Bytes) (down : Bool)
  | reply (q : Query n) (down : Bool) (leader : Bytes) (epoch : UInt64)
  deriving DecidableEq, Repr

/-- What a sentinel asks votes for. -/
structure Candidacy where
  master : Bytes
  host : Bytes
  port : Int64
  cand : UInt64
  deriving DecidableEq, Repr

/-- A round of requests under way: the peers that did not answer yet, how many of the others take
the master for down, and who named this sentinel. -/
structure Poll (n : Nat) where
  serial : Nat
  waiting : List (Fin n)
  downs : Nat
  voters : List (Fin n)
  deriving DecidableEq, Repr

/-- The phases of the automatic step. -/
inductive Task (n : Nat) where
  | idle
  | started (master host : Bytes) (port : Int64)
  /-- About to vote for itself and to ask the peers, the first or the second time. -/
  | voting (c : Candidacy) (second : Bool)
  | asking (c : Candidacy) (second : Bool) (p : Poll n)
  /-- Looking for a replica that another sentinel has promoted. -/
  | checking (c : Candidacy) (cur : Bytes) (rest : List Bytes)
  | leading (c : Candidacy) (downs : Nat)
  | chosen (master target : Bytes)
  | promoting (master target old : Bytes)
  | demoting (master target : Bytes)
  deriving DecidableEq, Repr

/-- A sentinel. -/
structure Node (n : Nat) where
  reg : Registry
  /-- How many rounds of requests it has begun. -/
  serial : Nat
  task : Task n

/-- A command to a server: become a master, or a replica of the new master. -/
structure Command where
  master : Bytes
  addr : Bytes
  promote : Bool
  deriving DecidableEq, Repr

/-- A replica has carried out the command to become a master. -/
structure Acceptance where
  master : Bytes
  addr : Bytes
  time : Nat
  deriving DecidableEq, Repr

/-- The sentinels, the network and the servers. -/
structure Net (n : Nat) where
  node : Fin n → Node n
  sent : List (Msg n)
  commands : List Command
  isMaster : Bytes → Bool
  accepted : List Acceptance
  now : Nat
  granted : List (Vote (Fin n) (Bytes × UInt64) Bytes)
  elected : List (Bytes × UInt64 × Fin n)

/-- All sentinels are idle and nothing is under way. -/
def start (regs : Fin n → Registry) (isMaster : Bytes → Bool) : Net n where
  node x := ⟨regs x, 0, .idle⟩
  sent := []
  commands := []
  isMaster
  accepted := []
  now := 0
  granted := []
  elected := []

/-- The other sentinels. -/
def peers (x : Fin n) : List (Fin n) := (List.finRange n).filter (· ≠ x)

namespace Net

variable (s : Net n)

/-- Replace one sentinel. -/
def setNode (x : Fin n) (nd : Node n) : Net n := { s with node := Function.update s.node x nd }

def setReg (x : Fin n) (reg : Registry) : Net n := s.setNode x { s.node x with reg }

def setTask (x : Fin n) (task : Task n) : Net n := s.setNode x { s.node x with task }

/-- Read the address of the master. -/
def begin (x : Fin n) (master : Bytes) : Net n :=
  match (s.node x).task, (s.node x).reg.getMasterAddr master with
  | .idle, some (host, port) => s.setTask x (.started master host port)
  | _, _ => s

/-- Read the epoch; the candidacy is for the next one, computed in 64 bits. -/
def readEpoch (x : Fin n) : Net n :=
  match (s.node x).task with
  | .started master host port =>
    let epoch := (((s.node x).reg.votedFor master).map (·.2)).getD 0
    s.setTask x (.voting ⟨master, host, port, epoch + 1⟩ false)
  | _ => s

section
variable (runID : Fin n → Bytes)

/-- Vote for itself and ask all peers. -/
def selfVote (x : Fin n) : Net n :=
  match (s.node x).task with
  | .voting c second =>
    let nd := s.node x
    let r := nd.reg.handleVote c.master c.cand (runID x)
    let poll : Poll n := ⟨nd.serial, peers x, 0, if r.2.1 then [x] else []⟩
    { s.setNode x ⟨r.1, nd.serial + 1, .asking c second poll⟩ with
      sent := (peers x).map (fun y =>
        .ask ⟨x, y, nd.serial, c.master, c.host, c.port, c.cand⟩) ++ s.sent
      granted := if r.2.1 then ⟨x, (c.master, c.cand), runID x⟩ :: s.granted else s.granted }
  | _ => s

/-- A peer looks for a master with the requested address. When several have it, any of them may
be found; the empty name is taken for none. -/
def resolve (q : Query n) (name : Bytes) : Net n :=
  let reg := (s.node q.dst).reg
  if .ask q ∈ s.sent ∧ name ≠ [] ∧ reg.getMasterAddr name = some (q.host, q.port) then
    let down := reg.isSubjectivelyDown (joinHostPort q.host (formatInt q.port))
    { s with sent := .matched q name down :: s.sent }
  else s

/-- A peer votes. -/
def vote (q : Query n) (name : Bytes) (down : Bool) : Net n :=
  if .matched q name down ∈ s.sent then
    let r := (s.node q.dst).reg.handleVote name q.epoch (runID q.src)
    if r.2.1 then
      { s.setReg q.dst r.1 with
        sent := .reply q down (runID q.src) r.2.2 :: s.sent
        granted := ⟨q.dst, (name, q.epoch), runID q.src⟩ :: s.granted }
    else { s with sent := .refused q name down :: s.sent }
  else s

/-- A peer that did not grant the vote answers with the vote on record. -/
def report (q : Query n) (name : Bytes) (down : Bool) : Net n :=
  if .refused q name down ∈ s.sent then
    match (s.node q.dst).reg.votedFor name with
    | some (voted, epoch) =>
      if voted ≠ [] then { s with sent := .reply q down voted epoch :: s.sent }
      else { s with sent := .reply q down [42] 0 :: s.sent }
    | none => { s with sent := .reply q down [42] 0 :: s.sent }
  else s

/-- An answer arrives while its round is under way. The epoch in it is not looked at. -/
def receive (q : Query n) (down : Bool) (leader : Bytes) (epoch : UInt64) : Net n :=
  match (s.node q.src).task with
  | .asking c second p =>
    if .reply q down leader epoch ∈ s.sent ∧ p.serial = q.serial ∧ q.dst ∈ p.waiting then
      s.setTask q.src (.asking c second {
        serial := p.serial
        waiting := p.waiting.erase q.dst
        downs := if down then p.downs + 1 else p.downs
        voters := if leader = runID q.src then q.dst :: p.voters else p.voters })
    else s
  | _ => s

end

/-- A request ends without an answer. -/
def fail (x y : Fin n) : Net n :=
  match (s.node x).task with
  | .asking c second p =>
    s.setTask x (.asking c second { p with waiting := p.waiting.erase y })
  | _ => s

/-- The end of the first round: go on when the master is objectively down and the last failover is
long enough ago. -/
def tallyFirst (timeout : Nat) (x : Fin n) (c : Candidacy) (downs : Nat) : Net n :=
  let reg := (s.node x).reg
  if !reg.isObjectivelyDown c.master downs || reg.inCooldown c.master timeout s.now then
    s.setTask x .idle
  else
    match reg.getMasterAddr c.master with
    | none => s.setTask x (.voting c true)
    | some (host, port) =>
      s.setTask x (.checking c (joinHostPort host (formatInt port)) (reg.slaves c.master))

/-- The end of the second round: the candidate is elected when it was named by a majority. -/
def tallySecond (x : Fin n) (c : Candidacy) (p : Poll n) : Net n :=
  let reg := (s.node x).reg
  if !reg.isObjectivelyDown c.master p.downs then s.setTask x .idle
  else if p.voters.length * 2 ≤ 1 + (peers x).length then s.setTask x .idle
  else
    { s.setTask x (.leading c p.downs) with
      elected := (c.master, c.cand, x) :: s.elected }

/-- All requests of a round have ended. -/
def tally (timeout : Nat) (x : Fin n) : Net n :=
  match (s.node x).task with
  | .asking c second p =>
    if p.waiting = [] then
      if second then s.tallySecond x c p else s.tallyFirst timeout x c p.downs
    else s
  | _ => s

/-- Ask the next replica for its role. A replica that is a master already is followed. -/
def readRole (x : Fin n) (reachable : Bool) : Net n :=
  match (s.node x).task with
  | .checking c _ [] => s.setTask x (.voting c true)
  | .checking c cur (slave :: rest) =>
    if slave = cur then s.setTask x (.checking c cur rest)
    else if reachable && s.isMaster slave then
      s.setNode x { s.node x with
        reg := (s.node x).reg.observeMaster c.master slave, task := .idle }
    else s.setTask x (.checking c cur rest)
  | _ => s

/-- Choose the replica to promote, from what this sentinel learned about the replicas. -/
def select (timeout : Nat) (x : Fin n) (infos : List SlaveInfo) : Net n :=
  match (s.node x).task with
  | .leading c downs =>
    let reg := (s.node x).reg
    if !reg.isObjectivelyDown c.master downs || reg.inCooldown c.master timeout s.now then
      s.setTask x .idle
    else
      match reg.selectSlave c.master infos with
      | none => s.setTask x .idle
      | some target =>
        if (reg.getMasterAddr c.master).map (fun a => joinHostPort a.1 (formatInt a.2)) =
            some target then s.setTask x .idle
        else s.setTask x (.chosen c.master target)
  | _ => s

/-- Ask the chosen replica for its role; follow it when it is a master already, else send the
command to become one. -/
def confirm (x : Fin n) (reachable : Bool) : Net n :=
  match (s.node x).task with
  | .chosen master target =>
    if reachable && s.isMaster target then
      s.setNode x { s.node x with
        reg := (s.node x).reg.observeMaster master target, task := .idle }
    else
      { s.setTask x (.promoting master target ((s.node x).reg.state master).current) with
        commands := ⟨master, target, true⟩ :: s.commands }
  | _ => s

/-- Send the command once more. -/
def retry (x : Fin n) : Net n :=
  match (s.node x).task with
  | .promoting master target _ => { s with commands := ⟨master, target, true⟩ :: s.commands }
  | _ => s

/-- The attempt to promote has failed, or it has succeeded and the old master is told. -/
def finish (x : Fin n) (ok : Bool) : Net n :=
  match (s.node x).task with
  | .promoting master target old =>
    let nd := s.node x
    if !ok then s.setTask x .idle
    else if s.accepted.all fun a => a.master ≠ master ∨ a.addr ≠ target then s
    else if nd.reg.isDown old then
      s.setNode x { nd with reg := nd.reg.switchTo master target s.now, task := .idle }
    else
      { s.setTask x (.demoting master target) with
        commands := ⟨master, old, false⟩ :: s.commands }
  | _ => s

/-- The old master was told, or could not be reached. -/
def settle (x : Fin n) : Net n :=
  match (s.node x).task with
  | .demoting master target =>
    s.setNode x { s.node x with
      reg := (s.node x).reg.switchTo master target s.now, task := .idle }
  | _ => s

/-- A server carries out a command that reaches it. -/
def accept (c : Command) : Net n :=
  if c ∈ s.commands then
    { s with
      commands := s.commands.erase c
      isMaster := Function.update s.isMaster c.addr c.promote
      accepted := if c.promote then ⟨c.master, c.addr, s.now⟩ :: s.accepted else s.accepted }
  else s

/-- A command is lost. -/
def lose (c : Command) : Net n := { s with commands := s.commands.erase c }

end Net

/-- What can happen next. -/
inductive Action (n : Nat) where
  | record (x : Fin n) (addr : Bytes) (ok : Bool)
  | adopt (x : Fin n) (name addr : Bytes) (epoch : UInt64) (runID : Bytes)
  | begin (x : Fin n) (master : Bytes)
  | readEpoch (x : Fin n)
  | selfVote (x : Fin n)
  | resolve (q : Query n) (name : Bytes)
  | vote (q : Query n) (name : Bytes) (down : Bool)
  | report (q : Query n) (name : Bytes) (down : Bool)
  | receive (q : Query n) (down : Bool) (leader : Bytes) (epoch : UInt64)
  | fail (x y : Fin n)
  | tally (x : Fin n)
  | readRole (x : Fin n) (reachable : Bool)
  | select (x : Fin n) (infos : List SlaveInfo)
  | confirm (x : Fin n) (reachable : Bool)
  | retry (x : Fin n)
  | finish (x : Fin n) (ok : Bool)
  | settle (x : Fin n)
  | accept (c : Command)
  | lose (c : Command)
  | tick (d : Nat)
  deriving DecidableEq, Repr

/-- One step; an action that is not possible changes nothing. -/
def step (runID : Fin n → Bytes) (timeout : Nat) (s : Net n) : Action n → Net n
  | .record x addr ok => s.setReg x ((s.node x).reg.recordProbe addr ok)
  | .adopt x name addr epoch id => s.setReg x ((s.node x).reg.adoptMaster name addr epoch id)
  | .begin x master => s.begin x master
  | .readEpoch x => s.readEpoch x
  | .selfVote x => s.selfVote runID x
  | .resolve q name => s.resolve q name
  | .vote q name down => s.vote runID q name down
  | .report q name down => s.report q name down
  | .receive q down leader epoch => s.receive runID q down leader epoch
  | .fail x y => s.fail x y
  | .tally x => s.tally timeout x
  | .readRole x reachable => s.readRole x reachable
  | .select x infos => s.select timeout x infos
  | .confirm x reachable => s.confirm x reachable
  | .retry x => s.retry x
  | .finish x ok => s.finish x ok
  | .settle x => s.settle x
  | .accept c => s.accept c
  | .lose c => s.lose c
  | .tick d => { s with now := s.now + d }

/-- The run IDs of three sentinels. -/
def threeIds (x : Fin 3) : Bytes := [UInt8.ofNat (120 + x)]

end Gedis.Sentinel
