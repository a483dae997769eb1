import Schemata.Instantiation.Run
/-!
# Sessions

A session keeps a context with its earlier versions, limits, and the last node that was instantiated.  Each command
gives the next session and a reply; a command that fails leaves the session as it was.
-/
namespace Schemata

/-- **An interactive session.** -/
structure Session where
  /-- The context that commands see. -/
  current : Context
  /-- The contexts before it, the newest first. -/
  earlier : List Context := []
  limits : Limits := {}
  /-- The last node that was instantiated. -/
  last : Node := .never

/-- What can be asked of a session. -/
inductive Command where
  | bind (name : String) (n : Node)
  | bindLast (name : String)
  | extend (context : Context)
  | remove (names : List String)
  | undo
  | limits (limits : Limits)
  | get (name : String)
  | has (name : String)
  | instantiateModule
  | instantiate (n : Node)
  | instantiateLast
  | package (name : String) (n : Node)

/-- What a session answers. -/
inductive Reply where
  /-- The names of the context that is current now. -/
  | names (names : List String)
  | limits (limits : Limits)
  | binding (bound : Option Node)
  | truth (value : Bool)
  | context (context : Context)
  | node (n : Node)

namespace Session

def push (s : Session) (context : Context) : Session := { s with current := context, earlier := s.current :: s.earlier }

/-- Goes back to the context before, if there is one. -/
def pop (s : Session) : Session :=
  match s.earlier with
  | [] => s
  | context :: rest => { s with current := context, earlier := rest }

def replyNames (s : Session) : Session × Outcome Reply := (s, .done (.names s.current.names))

/-- Goes on after an outcome, if it is a result. -/
def finish {α : Type} (s : Session) (outcome : Outcome α) (next : α → Session) (reply : α → Reply) :
    Session × Outcome Reply :=
  match outcome with
  | .done a => (next a, .done (reply a))
  | .failed e => (s, .failed e)
  | .exhausted => (s, .exhausted)

def finishNode (s : Session) (outcome : Outcome Node) : Session × Outcome Reply :=
  s.finish outcome (fun n => { s with last := n }) .node

/-- **Obeys a command.** -/
def obey (s : Session) : Command → Session × Outcome Reply
  | .bind name n => (s.push (s.current.insert name n)).replyNames
  | .bindLast name => (s.push (s.current.insert name s.last)).replyNames
  | .extend context => (s.push (s.current.extend context)).replyNames
  | .remove names => (s.push (s.current.without names)).replyNames
  | .undo => s.pop.replyNames
  | .limits limits => ({ s with limits }, .done (.limits limits))
  | .get name => (s, .done (.binding (s.current.get? name)))
  | .has name => (s, .done (.truth (s.current.has name)))
  | .instantiateModule => s.finish (Schemata.instantiateModule s.limits s.current) s.push .context
  | .instantiate n => s.finishNode (Schemata.instantiate s.limits s.current n)
  | .instantiateLast => s.finishNode (Schemata.instantiate s.limits s.current s.last)
  | .package name n => s.finishNode (instantiateCyclic s.limits s.current name n)

/-- **Obeys commands one after the other**, with one reply each. -/
def obeyAll (s : Session) : List Command → List (Outcome Reply)
  | [] => []
  | command :: commands =>
    let (next, reply) := s.obey command
    reply :: next.obeyAll commands

end Session
end Schemata
