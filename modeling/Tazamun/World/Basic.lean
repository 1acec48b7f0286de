import Tazamun.Turn.Covered

set_option autoImplicit false

/-! # Daemons that talk to each other

The nodes of a session, each an `Actor`, and the messages between them. Every ordered pair of
nodes has a channel that delivers in order while a connection is up; what is in flight when
the connection ends is lost. A node is started once, from what is on its disk, and from then
on takes its own steps whenever it likes: the user, the watcher, timers and tasks. Between
the steps of one node anything may happen at the others.

A connection comes up on both sides, with new channels: each side sends its index and then
whatever it broadcasts. It goes down on both sides as well. What a node has sent in a turn is
in the channels when the turn is over, so `sent` is empty between turns (`World.post`).
-/

namespace Tazamun

open Lib

variable {Id Path : Type} [LinearOrder Id] [LinearOrder Path]

/-- The nodes, who has been started, what is in flight, oldest message first, and the number
of connections there have been. -/
structure World (Id Path : Type) [LinearOrder Id] [LinearOrder Path] where
  node : Id → Actor Id Path
  started : Id → Bool
  chan : Id → Id → List (Msg Id Path)
  conns : Nat

/-- One step of the world. -/
inductive WorldAct (Id Path : Type) [Ord Id] where
  | start (i : Id) (founding : Bool)
  | own (i : Id) (act : Act Id Path)
  | deliver (src dst : Id)
  | connect (i j : Id) (env : Env Path)
  | disconnect (i j : Id)

/-- Steps that a node takes by itself: nothing comes from a peer, and no connection changes. -/
def Act.isOwn : Act Id Path → Bool
  | .event (.authed _ _ _) | .event (.msg _ _) | .event (.gone _ _) => false
  | _ => true

namespace World

/-- Nobody has been started; `disk` is what each node will find. -/
def init (h : Host Id Path) (disk : Id → Actor.Persisted Id Path) : World Id Path where
  node i := .load h i (disk i)
  started _ := false
  chan _ _ := []
  conns := 0

/-- Node `i` is in state `a`. -/
def put (w : World Id Path) (i : Id) (a : Actor Id Path) : World Id Path :=
  { w with node := Function.update w.node i a }

/-- What node `i` has sent goes into its channels. -/
def flush (w : World Id Path) (i : Id) : World Id Path :=
  { w.put i { w.node i with sent := [] } with
    chan := fun s d =>
      if s = i then
        w.chan s d ++ ((w.node i).sent.filter fun m => decide (m.1 = d)).map Prod.snd
      else w.chan s d }

/-- The turn of node `i` is over. -/
def post (w : World Id Path) (i : Id) (a : Actor Id Path) : World Id Path := (w.put i a).flush i

/-- The oldest message from `src` to `dst` is taken out. -/
def pop (w : World Id Path) (src dst : Id) : World Id Path :=
  { w with chan := fun s d => if s = src ∧ d = dst then (w.chan s d).tail else w.chan s d }

/-- Nothing is in flight between `i` and `j`. -/
def clear (w : World Id Path) (i j : Id) : World Id Path :=
  { w with chan := fun s d =>
      if (s = i ∧ d = j) ∨ (s = j ∧ d = i) then [] else w.chan s d }

/-- Neither of the two has a connection with the other. -/
def apart (w : World Id Path) (i j : Id) : Bool :=
  !(w.node i).peers.contains j && !(w.node j).peers.contains i

/-- Both have a connection with the other. -/
def Linked (w : World Id Path) (i j : Id) : Prop :=
  (w.node i).peers.contains j = true ∧ (w.node j).peers.contains i = true

variable (h : Host Id Path)

/-- Node `i` handles an event. -/
def turn (w : World Id Path) (env : Env Path) (i : Id) (ev : Event Id Path) : World Id Path :=
  w.post i ((w.node i).handle h env ev)

/-- The loss of the connection with `j`, if node `i` has one. -/
def lose (w : World Id Path) (env : Env Path) (i j : Id) : World Id Path :=
  match (w.node i).peers[j]? with
  | some peer => w.turn h env i (.gone j peer.connId)
  | none => w

/-- The step function. -/
def step (disk : Id → Actor.Persisted Id Path) (w : World Id Path)
    (s : Env Path × WorldAct Id Path) : Option (World Id Path) :=
  let env := s.1
  match s.2 with
  | .start i founding =>
      if w.started i then none
      else
        some { w.post i (.boot h env i (disk i) founding) with
          started := Function.update w.started i true }
  | .own i act =>
      if w.started i && act.isOwn then ((w.node i).step h (env, act)).map (w.post i) else none
  | .deliver src dst =>
      match w.chan src dst with
      | [] => none
      | msg :: _ => some ((w.pop src dst).turn h env dst (.msg src msg))
  | .connect i j env' =>
      if decide (i ≠ j) && w.started i && w.started j && w.apart i j then
        let w' := (w.clear i j).turn h env i (.authed j w.conns true)
        some { w'.turn h env' j (.authed i w.conns false) with conns := w.conns + 1 }
      else none
  | .disconnect i j => some (((w.lose h env i j).lose h env j i).clear i j)

end World

end Tazamun
