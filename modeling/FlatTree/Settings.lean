import FlatTree.Edn.Decoder
import FlatTree.Edn.Reader
import FlatTree.Hierarchy.Import

/-!
# Settings

A hierarchy is set up by a map with two optional entries: the order of queries that name none, and
what an import does with its references. Entries that are not known are refused.
-/

namespace FlatTree

open Edn

structure Settings where
  defaultOrder : List SortKey
  imports : ImportSettings
deriving DecidableEq, Repr

/-- Document order, and a lenient import whose sentinel is 0. -/
def Settings.default : Settings :=
  ⟨[⟨.left, false⟩], ImportSettings.default⟩

inductive SettingFault where
  | unknownKey
  | decoding (error : DecodingError)
  | sortKeys (error : SortKeyError)
  | unknownPolicy (name : String)
deriving Repr

def SettingFault.reason : SettingFault → String
  | .unknownKey => "unknown configuration key"
  | .decoding e => e.reason
  | .sortKeys e => e.reason
  | .unknownPolicy name => s!"expected :drop or :fail, got :{name}"

inductive SettingsError where
  | unreadable (error : ReadError)
  | invalid (key : String) (fault : SettingFault)
deriving Repr

def SettingsError.message : SettingsError → String
  | .unreadable e => e.word
  | .invalid key fault => s!"Invalid value for {key}: {fault.reason}"

namespace Settings

variable {α : Type}

def atKey (key : String) : Except DecodingError α → Except SettingsError α
  | .ok a => .ok a
  | .error e => .error (.invalid key (.decoding e))

def refuseUnknown (known : List String) (entries : Dict String Value) :
    Except SettingsError Unit :=
  match entries.keys.find? (· ∉ known) with
  | some key => .error (.invalid key .unknownKey)
  | none => .ok ()

def orderOfText (spec : String) : Except SettingsError (List SortKey) :=
  match SortKey.parse spec with
  | .ok keys => .ok keys
  | .error e => .error (.invalid "order-by" (.sortKeys e))

def sortKeyName : Value → Except DecodingError String :=
  Value.asOneOf (fun v => v.asKeyword.map Name.qualified) Value.asString

/-- Sort keys of a text, of a keyword, or of several of them, which are read as one text with
commas between. -/
def decodeOrder (v : Value) : Except SettingsError (List SortKey) :=
  match v with
  | .string spec => orderOfText spec
  | .keyword n => orderOfText n.qualified
  | .vector _ | .list _ => do
    let names ← atKey "order-by" (v.asVector sortKeyName)
    orderOfText (",".intercalate names)
  | v => .error (.invalid "order-by" (.decoding (.expected .sortKeys v)))

/-- The policy by the base of a keyword. The schema knows none with a namespace, which is not looked
at here; `decodeOrder` and the keys of a map take a namespace along. -/
def decodeDangling (v : Value) : Except SettingsError Dangling := do
  let n ← atKey "import/dangling" v.asKeyword
  if n.base = "drop" then pure .drop
  else if n.base = "fail" then pure .fail
  else .error (.invalid "import/dangling" (.unknownPolicy n.base))

def decodeImports (v : Value) : Except SettingsError ImportSettings := do
  let entries ← atKey "import" v.asKeywordMap
  refuseUnknown ["root-sentinel", "dangling"] entries
  let sentinel ← match entries.get? "root-sentinel" with
    | some v => atKey "import/root-sentinel" (v.asNilable Value.asNonNegative)
    | none => pure ImportSettings.default.sentinel
  let dangling ← match entries.get? "dangling" with
    | some v => decodeDangling v
    | none => pure ImportSettings.default.dangling
  pure ⟨sentinel, dangling⟩

/-- The settings that a value stands for. Entries that are left out keep their defaults. -/
def ofEdn (v : Value) : Except SettingsError Settings := do
  let entries ← atKey "config" v.asKeywordMap
  refuseUnknown ["order-by", "import"] entries
  let order ← match entries.get? "order-by" with
    | some v => decodeOrder v
    | none => pure Settings.default.defaultOrder
  let imports ← match entries.get? "import" with
    | some v => decodeImports v
    | none => pure Settings.default.imports
  pure ⟨order, imports⟩

def read (text : String) : Except SettingsError Settings :=
  match Value.read text with
  | .ok v => ofEdn v
  | .error e => .error (.unreadable e)

def orderOr (s : Settings) (keys : List SortKey) : List SortKey :=
  if keys = [] then s.defaultOrder else keys

end Settings

end FlatTree
