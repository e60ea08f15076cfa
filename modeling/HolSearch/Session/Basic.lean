import HolSearch.Search.Commands

/-!
# Sessions

A session prepares a workspace by strategies and lemmas, and then proves its goal in a proof block.
The goal and the steps do not depend on the workspace, so they can be shown before any proof.
-/

namespace HolSearch

open ProofM

/-- A named goal together with what proves it. -/
structure Session where
  name : Name
  goal : Conjecture
  steps : List Step
  /-- add the strategies and lemmas that the steps rely on -/
  prepare : Prover → ProofM WorkspaceError Unit

/-- Why no session was completed. -/
inductive SessionError where
  | noSession (name : Name)
  | workspace (e : WorkspaceError)
deriving DecidableEq

namespace SessionError

/-- What the error is about. -/
def subject : SessionError → String
  | noSession name => name
  | workspace e => e.subject

instance : Dump SessionError where
  dump
    | noSession name => dumpCall "NoSession" [quoted name]
    | workspace e => dumpCall "Hawk" [dumpCall "Workspace" [dump e]]

end SessionError

namespace Session

/-- Announce the goal and the steps. -/
def announce (session : Session) : ProofM WorkspaceError Unit := do
  record (.sessionStarted session.name session.goal)
  session.steps.forM fun step => record (.stepPlanned step)

/-- Prepare the workspace and prove the goal. -/
def run (session : Session) (prover : Prover) : ProofM WorkspaceError Theorem := do
  session.prepare prover
  session.announce
  prover.proveBlock session.goal session.steps

/-- The session of the given name among `sessions`. -/
def find (sessions : List Session) (name : Name) : Except SessionError Session :=
  match sessions.find? fun session => session.name = name with
  | some session => .ok session
  | none => .error (.noSession name)

end Session

end HolSearch
