import StudyNotes.Cluster.Program
import StudyNotes.Systems.Transition
import Mathlib.Data.Finset.Image

namespace StudyNotes.Cluster.Service

open Systems.Transition Systems.Interaction Program

/-- The path of the cluster, the names of the managers, and the order in which the
service lists a set of children. -/
structure Setup (ι : Type) where
  path : String
  name : ι → String
  injective : Function.Injective name
  order : Finset String → List String
  mem_order (s : Finset String) (x : String) : x ∈ order s ↔ x ∈ s

/-- A session of a manager: whether its watch is set, and the events on their way. -/
structure Session (ι : Type) where
  owner : ι
  armed : Bool
  pending : Nat

/-- The service: the handles used so far, the open sessions, and the children of the
path with the sessions that created them. -/
structure Zk (ι : Type) where
  next : Handle
  sessions : Handle → Option (Session ι)
  nodes : Finset (String × Handle)

variable {ι : Type}

def Zk.children (z : Zk ι) : Finset String := z.nodes.image Prod.fst

def Session.fire (x : Session ι) : Session ι := { x with armed := false, pending := x.pending + x.armed.toNat }

def Session.arm (x : Session ι) : Session ι := { x with armed := true }

def Session.take (x : Session ι) : Session ι := { x with pending := x.pending - 1 }

/-- Every armed watch fires once. -/
def Zk.fire (z : Zk ι) : Zk ι := { z with sessions := fun h => (z.sessions h).map Session.fire }

def Zk.modify (z : Zk ι) (h : Handle) (f : Session ι → Session ι) : Zk ι :=
  { z with sessions := Function.update z.sessions h ((z.sessions h).map f) }

def Zk.openSession (z : Zk ι) (i : ι) : Zk ι :=
  { z with next := z.next + 1, sessions := Function.update z.sessions z.next (some ⟨i, false, 0⟩) }

def Zk.create (z : Zk ι) (h : Handle) (name : String) : Zk ι := Zk.fire { z with nodes := insert (name, h) z.nodes }

/-- The end of a session removes its nodes, which is a change of the children if
there are any. -/
def Zk.close (z : Zk ι) (h : Handle) : Zk ι :=
  let nodes := z.nodes.filter fun n => n.2 ≠ h
  let z' : Zk ι := { z with sessions := Function.update z.sessions h none, nodes := nodes }
  if nodes = z.nodes then z' else z'.fire

section sessions

variable (z : Zk ι) (i : ι) {h h' : Handle} {x : Session ι}

theorem Zk.openSession_self : (z.openSession i).sessions z.next = some ⟨i, false, 0⟩ := Function.update_self ..

theorem Zk.openSession_ne (hne : h' ≠ z.next) : (z.openSession i).sessions h' = z.sessions h' :=
  Function.update_of_ne hne ..

theorem Zk.modify_self (f : Session ι → Session ι) (hx : z.sessions h = some x) :
    (z.modify h f).sessions h = some (f x) := by
  simp only [modify, Function.update_self, hx, Option.map_some]

theorem Zk.modify_ne (f : Session ι → Session ι) (hne : h' ≠ h) : (z.modify h f).sessions h' = z.sessions h' :=
  Function.update_of_ne hne ..

theorem Zk.close_self : (z.close h).sessions h = none := by
  rw [close]
  split <;> simp [fire]

theorem Zk.close_next : (z.close h).next = z.next := by
  rw [close]
  split <;> rfl

theorem Zk.mem_close_nodes {n : String × Handle} : n ∈ (z.close h).nodes ↔ n ∈ z.nodes ∧ n.2 ≠ h := by
  rw [close]
  split <;> simp [fire]

/-- Closing a session either leaves the children as they are, or fires the other watches. -/
theorem Zk.close_others :
    (z.close h).children = z.children ∧ (∀ h' ≠ h, (z.close h).sessions h' = z.sessions h') ∨
      ∀ h' ≠ h, (z.close h).sessions h' = (z.sessions h').map Session.fire := by
  rw [close]
  split
  · refine Or.inl ⟨?_, fun h' hne => Function.update_of_ne hne ..⟩
    simp only [children, *]
  · refine Or.inr fun h' hne => ?_
    simp only [fire, Function.update_of_ne hne]

/-- Every session was there before, with the same owner. -/
def Zk.Inherits (z z' : Zk ι) : Prop :=
  ∀ h x, z'.sessions h = some x → ∃ y, z.sessions h = some y ∧ y.owner = x.owner

theorem Zk.inherits_fire : z.Inherits z.fire := by
  intro h x hx
  obtain ⟨y, hy, rfl⟩ := Option.map_eq_some_iff.1 hx
  exact ⟨y, hy, rfl⟩

theorem Zk.inherits_modify {f : Session ι → Session ι} (hf : ∀ x, (f x).owner = x.owner) :
    z.Inherits (z.modify h f) := by
  intro h' x hx
  rcases eq_or_ne h' h with rfl | hne
  · simp only [modify, Function.update_self, Option.map_eq_some_iff] at hx
    obtain ⟨y, hy, rfl⟩ := hx
    exact ⟨y, hy, (hf y).symm⟩
  · rw [z.modify_ne f hne] at hx
    exact ⟨x, hx, rfl⟩

theorem Zk.inherits_close : z.Inherits (z.close h) := by
  intro h' x hx
  rcases eq_or_ne h' h with rfl | hne
  · rw [z.close_self] at hx
    cases hx
  · rcases z.close_others (h := h) with ⟨-, hs⟩ | hs
    · exact ⟨x, (hs h' hne).symm.trans hx, rfl⟩
    · rw [hs h' hne] at hx
      exact z.inherits_fire h' x hx

end sessions

def childPath (S : Setup ι) (name : String) : String := S.path ++ "/" ++ name

/-- The replies of a service that never fails, to a thread of a manager. -/
inductive Serve (S : Setup ι) (i : ι) : Zk ι → Manager → (q : Request) → Reply q → Zk ι → Manager → Prop
  | load (z m) (f : Field) : Serve S i z m (.load f) (m f) z m
  | store (z m) (f : Field) (v : f.type) : Serve S i z m (.store f v) () z (Function.update m f v)
  | onMasterEvent (z m handler isMaster) : Serve S i z m (.onMasterEvent handler isMaster) () z m
  | zookeeperInit (z m hosts timeout) :
      Serve S i z m (.zookeeperInit hosts timeout) (some z.next) (z.openSession i) m
  | zookeeperClose (z m h) : Serve S i z m (.zookeeperClose h) () (z.close h) m
  | existsPath (z m h) (x : Session ι) (hx : z.sessions h = some x) :
      Serve S i z m (.zooExists (some h) S.path) zok z m
  | existsNode (z m h name) (x : Session ι) (hx : z.sessions h = some x) (hname : name ∈ z.children) :
      Serve S i z m (.zooExists (some h) (childPath S name)) zok z m
  | existsNot (z m h path) (x : Session ι) (hx : z.sessions h = some x) (hpath : path ≠ S.path)
      (hname : ∀ name ∈ z.children, path ≠ childPath S name) :
      Serve S i z m (.zooExists (some h) path) znonode z m
  | zooCreate (z m h name value) (x : Session ι) (hx : z.sessions h = some x) (hname : name ∉ z.children) :
      Serve S i z m (.zooCreate (some h) (childPath S name) value true) zok (z.create h name) m
  | zooGetChildren (z m h) (x : Session ι) (hx : z.sessions h = some x) :
      Serve S i z m (.zooGetChildren (some h) S.path) (zok, S.order z.children) (z.modify h Session.arm) m

/-- The mutexes that Initialize and Start hold from their beginning to their end. -/
inductive Mutex
  | initMutex
  | startMutex
deriving DecidableEq

def mutex : Call → Option Mutex
  | .initializeManager _ _ _ _ => some .initMutex
  | .start => some .startMutex
  | .register _ | .stop | .deInitialize | .watcher _ _ _ _ _ => none

/-- A thread of the user: what is left of its call, and the mutex of the call. -/
structure Thread where
  holds : Option Mutex
  code : Code Int

structure State (ι : Type) where
  zk : Zk ι
  managers : ι → Manager
  callers : ι → Nat → Thread
  callback : ι → Code Int

def State.init (ι : Type) : State ι where
  zk := ⟨0, fun _ => none, ∅⟩
  managers _ := .init
  callers _ _ := ⟨none, .done 0⟩
  callback _ := .done 0

def Idle (p : Code Int) : Prop := ∃ res, p = .done res

/-- The calls that a user of the manager makes, with the path and the name of the setup. -/
inductive Calls (S : Setup ι) (i : ι) : Call → Prop
  | initializeManager (hosts timeout) : Calls S i (.initializeManager hosts S.path (S.name i) timeout)
  | start : Calls S i .start
  | register (handler) : Calls S i (.register handler)
  | stop : Calls S i .stop
  | deInitialize : Calls S i .deInitialize

inductive Event (ι : Type)
  | call (i : ι) (t : Nat) (call : Call)
  | childEvent (i : ι)
  | sessionEvent (i : ι) (state : Int)
  | callerStep (i : ι) (t : Nat)
  | callbackStep (i : ι)

variable [DecidableEq ι]

def State.setCaller (s : State ι) (i : ι) (t : Nat) (thread : Thread) : ι → Nat → Thread :=
  Function.update s.callers i (Function.update (s.callers i) t thread)

/-- A manager has the threads of its user, which may call it at the same time, and the thread of the
library that runs its callbacks. zookeeper_close waits for that thread. -/
inductive Step (S : Setup ι) : State ι → Event ι → State ι → Prop
  -- a call starts once no other thread holds its mutex; m_ehMutex is left out, which allows more runs
  | call (s) (i : ι) (t : Nat) (call : Call) (hidle : Idle (s.callers i t).code)
      (hfree : ∀ t', mutex call ≠ none → (s.callers i t').holds = mutex call → Idle (s.callers i t').code)
      (hcall : Calls S i call) :
      Step S s (.call i t call) { s with callers := s.setCaller i t ⟨mutex call, call.code⟩ }
  | childEvent (s) (i : ι) (h : Handle) (x : Session ι) (rounds : Nat) (state : Int) (hx : s.zk.sessions h = some x)
      (howner : x.owner = i) (hpending : 0 < x.pending) (hidle : Idle (s.callback i)) :
      Step S s (.childEvent i)
        { s with
          zk := s.zk.modify h Session.take
          callback := Function.update s.callback i (Call.watcher rounds h zooChildEvent state S.path).code }
  | sessionEvent (s) (i : ι) (h : Handle) (rounds : Nat) (state : Int) (hidle : Idle (s.callback i))
      (hexpired : state ≠ zooExpiredSessionState) (hauth : state ≠ zooAuthFailedState) (hother : state ≠ 999) :
      Step S s (.sessionEvent i state)
        { s with callback := Function.update s.callback i (Call.watcher rounds h zooSessionEvent state "").code }
  | callerStep (s) (i : ι) (t : Nat) (q : Request) (k : Reply q → Code Int) (r : Reply q) (z : Zk ι) (m : Manager)
      (hc : (s.callers i t).code = .ask q k) (hserve : Serve S i s.zk (s.managers i) q r z m)
      (hjoin : ∀ h, q = .zookeeperClose h → Idle (s.callback i)) :
      Step S s (.callerStep i t)
        { s with
          zk := z
          managers := Function.update s.managers i m
          callers := s.setCaller i t ⟨(s.callers i t).holds, k r⟩ }
  | callbackStep (s) (i : ι) (q : Request) (k : Reply q → Code Int) (r : Reply q) (z : Zk ι) (m : Manager)
      (hc : s.callback i = .ask q k) (hserve : Serve S i s.zk (s.managers i) q r z m)
      (hjoin : ∀ h, q ≠ .zookeeperClose h) :
      Step S s (.callbackStep i)
        { s with
          zk := z
          managers := Function.update s.managers i m
          callback := Function.update s.callback i (k r) }

def system (S : Setup ι) : System (State ι) (Event ι) where
  init s := s = State.init ι
  step := Step S

/-- No event is on its way, and no manager is in a call or a callback. -/
def Quiescent (s : State ι) : Prop :=
  (∀ h x, s.zk.sessions h = some x → x.pending = 0) ∧ ∀ i, (∀ t, Idle (s.callers i t).code) ∧ Idle (s.callback i)

/-- A call is made while no other call on its manager is going on. -/
def CallsAlone : State ι × Event ι → Prop
  | (s, .call i _ _) => ∀ t, Idle (s.callers i t).code
  | _ => True

def OneAtATime (tr : List (State ι × Event ι)) : Prop := ∀ p ∈ tr, CallsAlone p

end StudyNotes.Cluster.Service
