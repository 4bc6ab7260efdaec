import FlatTree.External.Edn
import FlatTree.External.Json
import FlatTree.Hierarchy.View

/-!
# The report of an import

A run brings a forest in under a fresh root, prints the tree that results with one line for each
node, sums the import up, and prints the tree once more as a forest. Both walks over the tree go
from a node to its children, which begin further right, so they end on every table.
-/

namespace FlatTree

theorem countP_lt_countP {α : Type} {p q : α → Bool} {l : List α} {c : α}
    (himp : ∀ x, p x = true → q x = true) (hmem : c ∈ l) (hq : q c = true) (hp : p c = false) :
    l.countP p < l.countP q := by
  induction l with
  | nil => cases hmem
  | cons a l ih =>
    have hle : l.countP p ≤ l.countP q := List.countP_mono_left fun x _ => himp x
    rcases List.mem_cons.mp hmem with rfl | hmem
    · simp only [List.countP_cons, hp, hq]
      simpa using Nat.lt_succ_of_le hle
    · have hlt := ih hmem
      simp only [List.countP_cons]
      cases hpa : p a with
      | true =>
        simp only [himp a hpa, if_true]
        omega
      | false =>
        simp only [Bool.false_eq_true, if_false]
        omega

namespace Table

def rightOf (t : Table) (id : NodeId) : Nat :=
  match t.get? id with
  | some r => t.rows.countP fun s => r.interval.left < s.interval.left
  | none => 0

theorem left_lt_of_below {parent i : Interval} {directOnly : Bool}
    (h : (Filter.below parent directOnly).accepts i = true) : parent.left < i.left := by
  cases directOnly <;>
    simp_all [Filter.below, Filter.inside, Filter.atDepth, Filter.accepts, Comparison.holds]

theorem rightOf_lt {t : Table} {keys : List SortKey} {parent : NodeId} {directOnly : Bool}
    {mode : Annotate} {nodes : List Node} {c : Node}
    (h : t.childrenOfAnnotated keys parent directOnly mode = .ok nodes) (hc : c ∈ nodes) :
    t.rightOf c.id < t.rightOf parent := by
  obtain ⟨r, hr, hrows⟩ := childrenOfAnnotated_rows h
  have hfind : c.toRow ∈ t.find (Filter.below r.interval directOnly) keys :=
    hrows ▸ List.mem_map_of_mem hc
  obtain ⟨hmem, hacc⟩ := mem_find.mp hfind
  have hlt := left_lt_of_below hacc
  simp only [rightOf, hr, get?_of_mem hmem]
  refine countP_lt_countP (c := c.toRow) (fun s hs => ?_) hmem ?_ ?_
  · simp only [decide_eq_true_eq] at hs ⊢
    exact Int.lt_trans hlt hs
  · simpa using hlt
  · simp

def line (n : Node) : String :=
  String.ofList (List.replicate (2 * n.interval.depth) ' ') ++
    s!"{n.toRow.text} ({n.descendants.getD 0} below)\n"

/-- The lines of a node and everything below it, parents first, siblings in the order of the
keys. -/
def lines (t : Table) (keys : List SortKey) (n : Node) : Except TreeError (List String) :=
  match h : t.childrenOfAnnotated keys n.id true .recursive with
  | .error e => .error e
  | .ok children => do
    let below ← children.attach.mapM fun ⟨c, hc⟩ =>
      have := rightOf_lt h hc
      t.lines keys c
    pure (line n :: below.flatten)
termination_by t.rightOf n.id

def exportBelow (t : Table) (keys : List SortKey) (parent : NodeId) :
    Except TreeError Forest :=
  match h : t.childrenOfAnnotated keys parent true .none with
  | .error e => .error e
  | .ok children => do
    let below ← children.attach.mapM fun ⟨c, hc⟩ => do
      have := rightOf_lt h hc
      let rest ← t.exportBelow keys c.id
      pure (ExternalNode.ofChild parent c :: rest)
    pure below.flatten
termination_by t.rightOf parent

end Table

namespace Report

inductive RunError where
  | missingFile (name : String)
  | malformedJson (name : String)
  | forest (error : ForestError)
  | settings (error : SettingsError)
  | tree (error : TreeError)
  | encoding (error : EncodingError)
deriving Repr

def RunError.message : RunError → String
  | .missingFile name => s!"cannot read {name}"
  | .malformedJson name => s!"{name} is no forest"
  | .forest (.unreadable e) => e.word
  | .forest (.decoding e) => e.message
  | .settings e => e.message
  | .tree e => e.message
  | .encoding e => e.message

/-- What a run prints, and what ended it if something did. -/
structure Outcome where
  output : String
  failure : Option RunError

def Outcome.exitCode (o : Outcome) : UInt32 :=
  match o.failure with
  | none => 0
  | some _ => 1

def named (id : Nat) (parent : Option Nat) (name : String) : ExternalNode :=
  ⟨some id, parent, Dict.empty.put "name" (.string name), none, none⟩

def sample : Forest :=
  [named 1 none "x", named 2 (some 1) "y", named 3 (some 1) "z", named 4 none "w"]

structure Imported where
  table : Table
  root : Row
  report : ImportReport
  summary : Summary

def rootAttributes : Attributes :=
  Dict.empty.put "name" (.string "import")

def importUnderRoot (settings : Settings) (forest : Forest) : Except TreeError Imported := do
  let (root, s) := Store.empty.insertRoot Faults.none rootAttributes
  let root ← root
  let (report, s) := s.importForest Faults.none settings.imports forest root.id
  let report ← report
  let summary ← s.table.verify
  pure ⟨s.table, root, report, summary⟩

def summaryLine (report : ImportReport) (summary : Summary) : String :=
  s!"{report.inserted} imported, {report.dropped.length} dropped, " ++
    s!"{summary.nodes} nodes, depth {summary.maxDepth}\n"

def treeText (settings : Settings) (i : Imported) : Except TreeError String := do
  let root ← i.table.requireRoot
  let root ← i.table.annotateNode false root.toNode
  let lines ← i.table.lines settings.defaultOrder root
  pure (String.join lines ++ summaryLine i.report i.summary)

def exported (settings : Settings) (i : Imported) : Except TreeError Forest := do
  let root ← i.table.viewById i.root.id
  let below ← i.table.exportBelow settings.defaultOrder i.root.id
  pure (root :: below)

def exportText (settings : Settings) (i : Imported) : Except RunError String := do
  let forest ← (exported settings i).mapError .tree
  let text ← (Forest.emit forest).mapError .encoding
  pure (text ++ "\n")

/-- The report of one forest. What was printed before a failure stays printed. -/
def ofForest (settings : Settings) (forest : Forest) : Outcome :=
  match importUnderRoot settings forest with
  | .error e => ⟨"", some (.tree e)⟩
  | .ok i =>
    match treeText settings i with
    | .error e => ⟨"", some (.tree e)⟩
    | .ok text =>
      match exportText settings i with
      | .error e => ⟨text, some e⟩
      | .ok forestText => ⟨text ++ forestText, none⟩

/-- A file given by its name, with its text if it could be read. -/
abbrev File := String × Option String

def contents (f : File) : Except RunError String :=
  match f.2 with
  | some text => .ok text
  | none => .error (.missingFile f.1)

/-- The forest in a file, whose name tells which of the two forms it has. -/
def readForest (f : File) : Except RunError Forest := do
  let text ← contents f
  if f.1.endsWith ".edn" then (Forest.parse text).mapError .forest
  else
    match Forest.parseJson? text with
    | some forest => pure forest
    | none => throw (.malformedJson f.1)

def readSettings (f : File) : Except RunError Settings := do
  let text ← contents f
  (Settings.read text).mapError .settings

/-- The forest and settings of the arguments: the first names the forest, the second the settings,
and both may be left out. -/
def readArguments (files : List File) : Except RunError (Forest × Settings) := do
  let forest ← match files[0]? with
    | some f => readForest f
    | none => pure sample
  let settings ← match files[1]? with
    | some f => readSettings f
    | none => pure Settings.default
  pure (forest, settings)

def run (files : List File) : Outcome :=
  match readArguments files with
  | .error e => ⟨"", some e⟩
  | .ok (forest, settings) => ofForest settings forest

end Report

end FlatTree
