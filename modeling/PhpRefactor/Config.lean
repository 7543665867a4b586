import PhpRefactor.Document.Members
import PhpRefactor.Document.Reader
import PhpRefactor.Engine.Basic
import PhpRefactor.Engine.Limit
import PhpRefactor.Rule.CanonicalAccess
import PhpRefactor.Rule.TrueCondition

/-!
# Configuration

Which rules run, in which order, with which parameters, and how many passes a run may make.  A
configuration is read from a JSON text, checked, and turned into an engine.
-/

set_option autoImplicit false

namespace PhpRefactor

/-- A rule and its parameters. -/
inductive RuleConfig where
  | trueCondition
  | canonicalAccess (access : CanonicalAccess)
  deriving DecidableEq, Repr

/-- A configuration. -/
structure Config where
  rules : List RuleConfig
  maxPasses : Nat
  deriving DecidableEq, Repr

/-- What makes a configuration useless. -/
inductive ConfigError where
  | noPasses
  | noContainerTypes
  | emptyMember
  | sameMember (name : String)
  deriving DecidableEq, Repr

namespace ConfigError

def message : ConfigError → String
  | noPasses => "max_passes must be at least 1"
  | noContainerTypes => "catch_and_closure_use_name needs at least one container type"
  | emptyMember => "catch_and_closure_use_name member names must not be empty"
  | sameMember name => "catch_and_closure_use_name would rewrite `" ++ name ++ "` to itself"

end ConfigError

/-- Why a text is no configuration to work with. -/
inductive ConfigFailure where
  | document (reason : DocumentError)
  | invalid (reason : ConfigError)
  deriving Repr

namespace ConfigFailure

def message : ConfigFailure → String
  | document reason => "JSON error: " ++ reason.message
  | invalid reason => "Configuration error: " ++ reason.message

end ConfigFailure

namespace RuleConfig

/-- The name of the rule in a configuration. -/
def tag : RuleConfig → String
  | trueCondition => "remove_always_true_condition_set_in_constructor"
  | canonicalAccess _ => "catch_and_closure_use_name"

/-- Every rule, with its usual parameters, in the usual order. -/
def standard : List RuleConfig := [trueCondition, canonicalAccess .standard]

def rule : RuleConfig → Rule
  | trueCondition => TrueCondition.rule
  | canonicalAccess access => access.rule

/-- The rule can do something: it has containers to look for, and its members have names and
differ. -/
def validate : RuleConfig → Except ConfigError Unit
  | trueCondition => .ok ()
  | canonicalAccess access =>
    if access.containerTypes.isEmpty then .error .noContainerTypes
    else if access.sentinel.isEmpty || access.canonical.isEmpty then .error .emptyMember
    else if access.sentinel = access.canonical then .error (.sameMember access.sentinel)
    else .ok ()

def toJson (config : RuleConfig) : Json :=
  match config with
  | trueCondition => .object [("rule", .string config.tag)]
  | canonicalAccess access =>
    .object [("rule", .string config.tag),
      ("container_types", .array (access.containerTypes.map .string)),
      ("sentinel", .string access.sentinel), ("canonical", .string access.canonical)]

end RuleConfig

/-! ## Reading -/

namespace Decoder

/-- The name of a rule. -/
def ruleTag : Decoder RuleConfig
  | .string x => named RuleConfig.standard RuleConfig.tag x
  | v => .error (.wrongType v "variant identifier")

/-- A value out of an array by position, or its default. -/
def positioned {α : Type} (vs : List Json) (i : Nat) (item : Decoder α) (value : α) :
    Except DataError α :=
  match vs[i]? with
  | some v => item v
  | none => .ok value

/-- The parameters of an access rule by position. -/
def accessItems (vs : List Json) : Except DataError CanonicalAccess := do
  let access : CanonicalAccess := {
    containerTypes := ← positioned vs 0 (list string) CanonicalAccess.standard.containerTypes
    sentinel := ← positioned vs 1 string CanonicalAccess.standard.sentinel
    canonical := ← positioned vs 2 string CanonicalAccess.standard.canonical }
  if 3 < vs.length then throw (.wrongLength vs.length "3 elements in sequence")
  return access

/-- A rule of this name with parameters by position. -/
def ruleOfItems (tag : RuleConfig) (vs : List Json) : Except DataError RuleConfig :=
  match tag with
  | .trueCondition =>
    if vs.isEmpty then .ok .trueCondition
    else .error (.wrongLength vs.length "0 elements in sequence")
  | .canonicalAccess _ => (accessItems vs).map .canonicalAccess

end Decoder

namespace Members

/-- The parameters of an access rule by name. -/
def access : Members CanonicalAccess :=
  CanonicalAccess.mk <$>
    defaulted "container_types" (Decoder.list Decoder.string)
      CanonicalAccess.standard.containerTypes <*>
    defaulted "sentinel" Decoder.string CanonicalAccess.standard.sentinel <*>
    defaulted "canonical" Decoder.string CanonicalAccess.standard.canonical

/-- A rule of this name with parameters by name. -/
def rule : RuleConfig → Members RuleConfig
  | .trueCondition => pure .trueCondition
  | .canonicalAccess _ => .canonicalAccess <$> access

end Members

namespace DocumentReader

/-- What is known of a rule while its members are read; `fields` stand last first. -/
structure RuleParts where
  tag : Option RuleConfig
  fields : List (String × Json)

/-- A member of a rule.  Two brackets are open around the rule itself. -/
def ruleMember (parts : RuleParts) (key : String) : DocumentReader RuleParts := do
  if key = "rule" then return { parts with tag := ← once key parts.tag (scalar Decoder.ruleTag) }
  else
    let v ← behindColon (value (documentDepth - 3))
    return { parts with fields := (key, v) :: parts.fields }

/-- A rule: an object with the name under `rule`, or an array with the name first. -/
def rule : DocumentReader RuleConfig :=
  container "internally tagged enum RuleConfig"
    (do
      if ← anotherItem true then
        let tag ← scalar Decoder.ruleTag
        accept (Decoder.ruleOfItems tag (← otherItems (documentDepth - 2)))
      else refuse (.missingField "rule"))
    (do
      let parts ← members ruleMember ⟨none, []⟩
      let tag ← given "rule" parts.tag
      accept ((Members.rule tag).decode parts.fields.reverse))

/-- The rules of a configuration. -/
def rules : DocumentReader (List RuleConfig) :=
  container "a sequence" (items rule) (noObject "a sequence")

end DocumentReader

namespace Config

/-- Every rule with its usual parameters, and ten passes. -/
def standard : Config := ⟨RuleConfig.standard, 10⟩

/-- The keys that a configuration may have. -/
def keys : List String := ["rules", "max_passes"]

/-- What is known of a configuration while its members are read. -/
structure Parts where
  rules : Option (List RuleConfig)
  maxPasses : Option Nat

/-- A member of a configuration that is an object. -/
def readMember (parts : Parts) (key : String) : DocumentReader Parts := do
  match key with
  | "rules" => return { parts with rules := ← .once key parts.rules .rules }
  | "max_passes" =>
    return { parts with maxPasses := ← .once key parts.maxPasses (.scalar Decoder.count) }
  | _ => .refuse (.unknownField key keys)

/-- A configuration that is an array: the rules, then the number of passes. -/
def readItems : DocumentReader Config := do
  if ← .anotherItem true then
    let rules ← .rules
    if ← .anotherItem false then
      let maxPasses ← .scalar Decoder.count
      .arrayEnd
      return ⟨rules, maxPasses⟩
    else return { standard with rules }
  else return standard

/-- A configuration: an object, or an array of up to two values.  What is missing is as usual. -/
def reader : DocumentReader Config :=
  .container "struct TracerConfig" readItems (do
    let parts ← .members readMember ⟨none, none⟩
    return ⟨parts.rules.getD standard.rules, parts.maxPasses.getD standard.maxPasses⟩)

/-- The configuration can work: it allows a pass, and every rule can do something. -/
def validate (config : Config) : Except ConfigError Unit := do
  if config.maxPasses = 0 then throw .noPasses
  config.rules.forM RuleConfig.validate

/-- Reads a configuration and checks it. -/
def read (text : String) : Except ConfigFailure Config := do
  let config ← (reader.run text).mapError .document
  config.validate.mapError .invalid
  return config

def toJson (config : Config) : Json :=
  .object [("rules", .array (config.rules.map RuleConfig.toJson)),
    ("max_passes", .int config.maxPasses)]

/-- The engine that runs the configured rules. -/
def engine (config : Config) : Engine where
  rules := config.rules.map RuleConfig.rule
  oracle := Oracle.declared
  maxPasses := config.maxPasses
  visitLimit := Node.visitBound

end Config

end PhpRefactor
