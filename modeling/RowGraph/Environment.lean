import RowGraph.Text.Blank
import RowGraph.Text.Split

/-!
# Environments and configuration

An environment is a stack of layers of named texts. The configuration of queries is read from it:
an affix for field names that do not resolve by themselves, and whether primary keys that only
tell a missing relation from an empty one stay in the result.
-/

namespace RowGraph

/-- Named texts in layers; a name stands for its text in the first layer that has it. -/
structure Environment where
  layers : List (List (String × String))

inductive EnvironmentFault where
  | invalidBoolean (name value : String)
  | invalidAffixSide (value : String)
  deriving DecidableEq

def affixName : String := "PERS_FIELD_AFFIX"

def affixSideName : String := "PERS_FIELD_AFFIX_KIND"

def keepKeysName : String := "PERS_KEEP_INJECTED_KEYS"

def EnvironmentFault.message : EnvironmentFault → String
  | .invalidBoolean name value =>
      "Invalid value for " ++ name ++ ": " ++ value ++
        ". Expected true, 1, yes, on, enabled, enable OR false, 0, no, off, disabled, disable"
  | .invalidAffixSide value =>
      "Invalid env value " ++ value ++ " for " ++ affixSideName ++
        ": Field affix kind must be one of suffix, prefix"

namespace Environment

def get? (e : Environment) (name : String) : Option String :=
  e.layers.findSome? (·.lookup name)

def getD (e : Environment) (name default : String) : String := (e.get? name).getD default

def list (e : Environment) (name : String) (default : List String) : List String :=
  match e.get? name with
  | some text => (Text.split ',' text).map Text.trim
  | none => default

/-- Reads a truth value in any case. No character beyond ASCII has a lower case that occurs in
these words, so the lower case of ASCII decides. -/
def truth? (text : String) : Option Bool :=
  let word := text.map Char.toLower
  if word ∈ ["true", "1", "yes", "on", "enabled", "enable"] then some true
  else if word ∈ ["false", "0", "no", "off", "disabled", "disable"] then some false
  else none

def enabled (e : Environment) (name : String) (default : Bool) : Except EnvironmentFault Bool :=
  match e.get? name with
  | none => .ok default
  | some text => match truth? text with
    | some b => .ok b
    | none => .error (.invalidBoolean name text)

end Environment

/-! ## Affixes -/

inductive AffixSide where
  | leading
  | trailing
  deriving DecidableEq

def AffixSide.word : AffixSide → String
  | .leading => "prefix"
  | .trailing => "suffix"

def AffixSide.ofWord (word : String) : Except EnvironmentFault AffixSide :=
  if word = AffixSide.trailing.word then .ok .trailing
  else if word = AffixSide.leading.word then .ok .leading
  else .error (.invalidAffixSide word)

structure Affix where
  text : String
  side : AffixSide
  deriving DecidableEq

def Affix.apply (a : Affix) (name : String) : String :=
  match a.side with
  | .leading => a.text ++ name
  | .trailing => name ++ a.text

/-! ## Configuration -/

structure Config where
  affix : Option Affix := none
  keepInjectedKeys : Bool := false
  deriving DecidableEq

def Affix.ofEnvironment (e : Environment) : Except EnvironmentFault (Option Affix) :=
  match e.get? affixName with
  | none => .ok none
  | some text =>
      if text.isEmpty then .ok none
      else do
        let side ← AffixSide.ofWord (e.getD affixSideName AffixSide.trailing.word)
        return some { text, side }

def Config.ofEnvironment (e : Environment) : Except EnvironmentFault Config := do
  let affix ← Affix.ofEnvironment e
  let keepInjectedKeys ← e.enabled keepKeysName false
  return { affix, keepInjectedKeys }

end RowGraph
