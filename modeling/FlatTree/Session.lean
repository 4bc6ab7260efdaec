import FlatTree.Hierarchy.View

/-!
# Sessions

A session is one store with two sets of settings over it, the nodes that were fetched and kept, and
what the store is told to get wrong. Commands run one after the other; each has an outcome, and
leaves the store for the next one.
-/

namespace FlatTree

namespace Session

inductive OrderSpec where
  | keys (keys : List SortKey)
  | text (spec : String)
deriving DecidableEq, Repr

inductive Failure where
  | tree (error : TreeError)
  | settings (error : SettingsError)
deriving Repr

def Failure.message : Failure → String
  | .tree e => e.message
  | .settings e => e.message

def OrderSpec.resolve : OrderSpec → Except Failure (List SortKey)
  | .keys ks => .ok ks
  | .text spec => (Settings.orderOfText spec).mapError .settings

inductive ReadAction where
  | get (id : NodeId)
  | find (filter : Filter) (order : OrderSpec) (idsOnly : Bool)
  | count (filter : Filter)
  | fail (message : String)

inductive Action where
  | insert (interval : Interval) (attributes : Attributes)
  | shift (side : Side) (shift : Shift)
  | delete (filter : Filter)
  | read (action : ReadAction)

inductive ActionAnswer where
  | row (r : Row)
  | optionalRow (r : Option Row)
  | rows (rs : List Row)
  | ids (ids : List NodeId)
  | count (n : Nat)

inductive Command where
  | insert (parent : Option NodeId) (attributes : Attributes)
  | insertRoot (attributes : Attributes)
  | delete (id : NodeId) (withDescendants : Bool)
  | get (id : NodeId)
  | childrenOf (parent : NodeId) (directOnly : Bool) (order : OrderSpec) (mode : Annotate)
  | childCount (parent : NodeId) (directOnly : Bool)
  | parentOf (child : NodeId) (depth : Int)
  | rootNode
  | requireRoot
  | nodes
  | verify
  | hold (ids : List NodeId)
  | annotateHeld (directOnly : Bool)
  | importForest (forest : Forest) (target : NodeId) (settings : Option ImportSettings)
  | viewById (id : NodeId)
  | viewChildrenOf (parent : Option NodeId) (order : OrderSpec) (mode : Annotate)
  | viewSave (node : ExternalNode)
  | read (action : ReadAction)
  | transaction (actions : List Action)
  | storeState
  | setFaults (faults : Faults)

inductive Answer where
  | nothing
  | row (r : Row)
  | optionalRow (r : Option Row)
  | nodes (ns : List Node)
  | count (n : Nat)
  | summary (s : Summary)
  | report (r : ImportReport)
  | external (n : ExternalNode)
  | externals (ns : List ExternalNode)
  | annotated (failure : Option TreeError) (held : List Node)
  | action (a : ActionAnswer)
  | log (answers : List ActionAnswer) (failure : Option Failure)
  | storeState (size : Nat) (version : Version)

/-- Whether a command is one that writes, successfully or not. -/
def Command.writes : Command → Bool
  | .insert _ _ | .insertRoot _ | .delete _ _ | .importForest _ _ _ | .viewSave _
  | .transaction _ => true
  | _ => false

end Session

structure Session where
  store : Store
  first : Settings
  second : Settings
  held : List Node
  faults : Faults

namespace Session

def start (first second : Settings) : Session :=
  ⟨Store.empty, first, second, [], Faults.none⟩

def readAction (t : Table) : ReadAction → Except Failure ActionAnswer
  | .get id => .ok (.optionalRow (t.get? id))
  | .find f order idsOnly => do
    let rows := t.find f (← order.resolve)
    pure (if idsOnly then .ids (rows.map (·.id)) else .rows rows)
  | .count f => .ok (.count (t.count f))
  | .fail message => .error (.tree (.store (.backend message)))

def runAction (w : Work) : Action → Except Failure (ActionAnswer × Work)
  | .insert interval attributes =>
    (w.insert attributes interval).mapError (.tree ∘ .store)
      |>.map fun (r, w) => (.row r, w)
  | .shift side s =>
    (w.shift side s).mapError (.tree ∘ .store) |>.map fun (n, w) => (.count n, w)
  | .delete f =>
    (w.delete f).mapError (.tree ∘ .store) |>.map fun (n, w) => (.count n, w)
  | .read action => (readAction w.table action).map (·, w)

/-- Runs actions up to the first that fails. The answers given before it are kept. -/
def runActions (w : Work) : List Action → List ActionAnswer × Except Failure Work
  | [] => ([], .ok w)
  | action :: actions =>
    match runAction w action with
    | .error e => ([], .error e)
    | .ok (a, w) =>
      let (log, outcome) := runActions w actions
      (a :: log, outcome)

def fetch (t : Table) : List NodeId → List Node × Except TreeError Unit
  | [] => ([], .ok ())
  | id :: ids =>
    match t.require id with
    | .error e => ([], .error e)
    | .ok r =>
      let (nodes, outcome) := fetch t ids
      (r.toNode :: nodes, outcome)

def changed {α : Type} (s : Session) (answer : α → Answer) (r : Except TreeError α × Store) :
    Except Failure Answer × Session :=
  ((r.1.mapError .tree).map answer, { s with store := r.2 })

def answered {α : Type} (s : Session) (answer : α → Answer) (r : Except TreeError α) :
    Except Failure Answer × Session :=
  ((r.mapError .tree).map answer, s)

def ordered {α : Type} (s : Session) (settings : Settings) (order : OrderSpec)
    (answer : α → Answer) (query : List SortKey → Except TreeError α) :
    Except Failure Answer × Session :=
  match order.resolve with
  | .error e => (.error e, s)
  | .ok keys => s.answered answer (query (settings.orderOr keys))

def transact (s : Session) (actions : List Action) : Answer × Session :=
  let log := (runActions ⟨s.store.table, s.faults.quota⟩ actions).1
  let (outcome, store) := s.store.write s.faults (fun e => .tree (.store e)) fun w =>
    (runActions w actions).2.map ((), ·)
  let failure := match outcome with
    | .error e => some e
    | .ok () => none
  (.log log failure, { s with store := store })

def run (s : Session) (useSecond : Bool) (c : Command) : Except Failure Answer × Session :=
  let settings := if useSecond then s.second else s.first
  let t := s.store.table
  match c with
  | .insert parent attributes => s.changed .row (s.store.insert s.faults attributes parent)
  | .insertRoot attributes => s.changed .row (s.store.insertRoot s.faults attributes)
  | .delete id withDescendants => s.changed .count (s.store.delete s.faults id withDescendants)
  | .get id => s.answered .row (t.require id)
  | .childrenOf parent directOnly order mode => s.ordered settings order .nodes fun keys =>
      t.childrenOfAnnotated keys parent directOnly mode
  | .childCount parent directOnly => s.answered .count (t.childCount parent directOnly)
  | .parentOf child depth => s.answered .optionalRow (t.parentOf child depth)
  | .rootNode => s.answered .optionalRow t.root?
  | .requireRoot => s.answered .row t.requireRoot
  | .nodes => s.answered .nodes (.ok (t.snapshot.map Row.toNode))
  | .verify => s.answered .summary t.verify
  | .hold ids =>
    let (held, outcome) := fetch t ids
    ({ s with held := held }).answered (fun () => .nodes held) outcome
  | .annotateHeld directOnly =>
    let (held, outcome) := t.annotate directOnly s.held
    let failure := match outcome with
      | .error e => some e
      | .ok () => none
    (.ok (.annotated failure held), { s with held := held })
  | .importForest forest target given => s.changed .report
      (s.store.importForest s.faults (given.getD settings.imports) forest target)
  | .viewById id => s.answered .external (t.viewById id)
  | .viewChildrenOf parent order mode => s.ordered settings order .externals fun keys =>
      t.viewChildrenOf keys parent mode
  | .viewSave n => s.changed .external (s.store.save s.faults n)
  | .read action => ((readAction t action).map .action, s)
  | .transaction actions =>
    let (answer, s) := s.transact actions
    (.ok answer, s)
  | .storeState => (.ok (.storeState t.size s.store.version), s)
  | .setFaults faults => (.ok .nothing, { s with faults := faults })

/-- The outcome of a command, the store behind it, and whether the store is worth showing: the
command was one that writes, or something was committed. -/
structure Entry where
  outcome : Except Failure Answer
  store : Store
  showsStore : Bool

def runAll (s : Session) : List (Bool × Command) → List Entry
  | [] => []
  | (useSecond, c) :: commands =>
    let (outcome, s') := s.run useSecond c
    ⟨outcome, s'.store, c.writes || s'.store.version != s.store.version⟩ :: s'.runAll commands

end Session

end FlatTree
