import HolSearch.CommandLine.Options
import HolSearch.Session.Equality

/-!
# Replaying sessions

The command line replays the named sessions, or all of them, each in a workspace of its own.  The
first session that fails ends the replay, and what was written before stays.
-/

namespace HolSearch

namespace CommandLine

/-- What a run of the program shows. -/
structure Outcome where
  exit : Nat := 0
  stdout : String := ""
  stderr : String := ""
deriving DecidableEq

/-- The sessions that are asked for.  All names are looked up before the first session starts. -/
def Options.chosen (opts : Options) : Except SessionError (List Session) :=
  if opts.sessions.isEmpty then .ok Session.all
  else opts.sessions.mapM (Session.find Session.all)

/-- What one session writes. -/
def Options.replay (opts : Options) (session : Session) : Except SessionError String :=
  if opts.list then
    .ok (session.name ++ ": " ++ display session.goal ++ "\n")
  else
    let start : ProofState := { workspace := { maxDepth := opts.maxDepth } }
    match ((session.run .unbounded).run start).1 with
    | .error e => .error (.workspace e)
    | .ok thm => .ok (if opts.echo then session.name ++ ": " ++ display thm ++ "\n" else "")

def Outcome.failure (written : String) (e : SessionError) : Outcome :=
  { exit := 1, stdout := written, stderr := "Error: " ++ dump e ++ "\n" }

/-- Replay sessions one after the other, where `written` has been written before. -/
def Options.replayAll (opts : Options) : (written : String) → List Session → Outcome
  | written, [] => { stdout := written }
  | written, session :: rest =>
      match opts.replay session with
      | .error e => .failure written e
      | .ok text => opts.replayAll (written ++ text) rest

/-- Replay what the options ask for. -/
def Options.outcome (opts : Options) : Outcome :=
  match opts.chosen with
  | .error e => .failure "" e
  | .ok sessions => opts.replayAll "" sessions

/-- Run the program.  A request for help is no fault. -/
def run (args : List String) : Outcome :=
  match Options.ofArgs args with
  | .ok opts => opts.outcome
  | .error .help => { stdout := usage }
  | .error refusal => { exit := 2, stderr := "error: " ++ refusal.message ++ "\n" ++ usage }

end CommandLine

end HolSearch
