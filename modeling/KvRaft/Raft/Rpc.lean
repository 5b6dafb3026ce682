import Mathlib.Data.UInt

/-! The messages and log entries of `raft/rpc.go`. Go's `int` is `Int`: a request that comes off the
wire may carry any sign, and -1 stands for no vote and no leader. Go strings are byte strings. -/

namespace KvRaft

/-- A Go string or byte slice. -/
abbrev Bytes := List UInt8

namespace Raft

/-- `Command.Type`: the three names that the server submits and any other string. -/
inductive CommandType
  | put
  | delete
  | readBarrier
  | other (name : String)
deriving DecidableEq, Repr

structure Command where
  type : CommandType
  key : Bytes := []
  value : Bytes := []
deriving DecidableEq, Repr

structure LogEntry where
  term : Int
  index : Int
  command : Command
deriving DecidableEq, Repr

structure ApplyMsg where
  index : Int
  term : Int
  command : Command
deriving DecidableEq, Repr

structure RequestVoteArgs where
  term : Int
  candidateId : Int
  lastLogIndex : Int
  lastLogTerm : Int
deriving DecidableEq, Repr

structure RequestVoteReply where
  term : Int
  voteGranted : Bool
deriving DecidableEq, Repr

structure AppendEntriesArgs where
  term : Int
  leaderId : Int
  prevLogIndex : Int
  prevLogTerm : Int
  entries : List LogEntry
  leaderCommit : Int
deriving DecidableEq, Repr

structure AppendEntriesReply where
  term : Int
  success : Bool
deriving DecidableEq, Repr

inductive NodeState
  | follower
  | candidate
  | leader
deriving DecidableEq, Repr

/-- The message that `applyCommittedEntries` makes of a log entry. -/
def LogEntry.toMsg (entry : LogEntry) : ApplyMsg :=
  { index := entry.index, term := entry.term, command := entry.command }

end Raft

end KvRaft
