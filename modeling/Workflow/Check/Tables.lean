import Workflow.Value

/-!
# Field tables and messages

Which fields a scope and each kind of state may have.  A table gives every allowed name the value
true, or a further table for the value of the field.  Three entries are composite rules that
refer to a named table: an array of objects that follow it, at most one of its fields, or the
object itself following it instead.

The tables are data: a check may be run with other tables of the same form.
-/

namespace Workflow

namespace Tables

/-- The rule that the items of an array follow a named table. -/
def arrayOfKey : Text := "Fn:ArrayOf"

/-- The rule that at most one field of a named table is present. -/
def oneOfKey : Text := "Fn:OneOf"

/-- The rule that the object follows a named table instead. -/
def valueOfKey : Text := "Fn:ValueOf"

/-- Fields that are allowed whatever their value. -/
def allow (names : List String) : Fields := names.map fun name => (Text.ofString name, .bool true)

/-- A named table. -/
def entry (name : String) (fields : Fields) : Text × Value := (Text.ofString name, .obj fields)

/-- An entry for the rule on arrays. -/
def arrayOf (table : String) : Text × Value := (arrayOfKey, .str (Text.ofString table))

/-- An entry for the rule on exclusive fields. -/
def oneOf (table : String) : Text × Value := (oneOfKey, .str (Text.ofString table))

/-- An entry for the rule on the object itself. -/
def valueOf (table : String) : Text × Value := (valueOfKey, .str (Text.ofString table))

/-- A kind of states with its fields; `common` says that the common fields are allowed too. -/
def stateType (name : String) (fields : Fields) (common : Bool) : Text × Value :=
  entry name ([entry "Properties" fields] ++ if common then allow ["hasCommonProperties"] else [])

/-- The fields of Pass states. -/
def passFields : Fields :=
  allow ["Assign", "Result", "ResultPath", "Parameters", "Output"]

/-- The fields of Task states. -/
def taskFields : Fields :=
  allow
      ["Assign", "Resource", "Parameters", "Credentials", "ResultSelector", "ResultPath",
       "TimeoutSeconds", "TimeoutSecondsPath", "HeartbeatSeconds", "HeartbeatSecondsPath"] ++
    [entry "Retry" [arrayOf "Retrier"]] ++
    [entry "Catch" [arrayOf "Catcher"]] ++
    allow ["Arguments", "Output"]

/-- The fields of Choice states. -/
def choiceFields : Fields :=
  allow ["Comment", "InputPath", "OutputPath", "QueryLanguage", "Type"] ++
    [entry "Choices" [arrayOf "ChoiceRule"]] ++
    allow ["Output", "Assign", "Default"]

/-- The fields of Wait states. -/
def waitFields : Fields :=
  allow ["Assign", "Seconds", "Timestamp", "SecondsPath", "TimestampPath", "Output"]

/-- The fields of Succeed states. -/
def succeedFields : Fields :=
  allow ["QueryLanguage", "Type", "Comment", "InputPath", "OutputPath", "Output"]

/-- The fields of Fail states. -/
def failFields : Fields :=
  allow ["Error", "ErrorPath", "Cause", "CausePath", "Comment", "QueryLanguage", "Type"]

/-- The fields of Parallel states. -/
def parallelFields : Fields :=
  allow
      ["QueryLanguage", "Assign", "Branches", "ResultPath", "Parameters", "ResultSelector",
       "Arguments", "Output"] ++
    [entry "Retry" [arrayOf "Retrier"]] ++
    [entry "Catch" [arrayOf "Catcher"]]

/-- The fields of Map states. -/
def mapFields : Fields :=
  allow
      ["QueryLanguage", "Assign", "Iterator", "ItemsPath", "Items", "MaxConcurrency",
       "MaxConcurrencyPath", "ResultPath", "Output", "Parameters", "ResultSelector", "ItemReader",
       "ItemSelector", "ItemBatcher", "ResultWriter", "ItemProcessor",
       "ToleratedFailurePercentage", "ToleratedFailurePercentagePath", "ToleratedFailureCount",
       "ToleratedFailureCountPath", "Label"] ++
    [entry "Retry" [arrayOf "Retrier"]] ++
    [entry "Catch" [arrayOf "Catcher"]]

/-- The table `ComparisonOperators`. -/
def comparisonOperators : Fields :=
  [entry "And" [arrayOf "NestedChoiceRule"]] ++
    [entry "Not" [valueOf "NestedChoiceRule"]] ++
    [entry "Or" [arrayOf "NestedChoiceRule"]] ++
    allow
      ["BooleanEquals", "NumericEquals", "NumericGreaterThan", "NumericGreaterThanEquals",
       "NumericLessThan", "NumericLessThanEquals", "StringEquals", "StringGreaterThan",
       "StringGreaterThanEquals", "StringLessThan", "StringLessThanEquals", "TimestampEquals",
       "TimestampGreaterThan", "TimestampGreaterThanEquals", "TimestampLessThan",
       "TimestampLessThanEquals", "BooleanEqualsPath", "NumericEqualsPath",
       "NumericGreaterThanPath", "NumericGreaterThanEqualsPath", "NumericLessThanPath",
       "NumericLessThanEqualsPath", "StringEqualsPath", "StringGreaterThanPath",
       "StringGreaterThanEqualsPath", "StringLessThanPath", "StringLessThanEqualsPath",
       "TimestampEqualsPath", "TimestampGreaterThanPath", "TimestampGreaterThanEqualsPath",
       "TimestampLessThanPath", "TimestampLessThanEqualsPath", "StringMatches", "IsNull",
       "IsPresent", "IsNumeric", "IsString", "IsBoolean", "IsTimestamp"]

/-- The table `ChoiceRule`. -/
def choiceRule : Fields :=
  [oneOf "ComparisonOperators"] ++
    allow ["Assign", "Variable", "Condition", "Output", "Next", "Comment"]

/-- The table `NestedChoiceRule`. -/
def nestedChoiceRule : Fields :=
  [oneOf "ComparisonOperators"] ++
    allow ["Assign", "Variable", "Comment"]

/-- The table `Catcher`. -/
def catcher : Fields :=
  allow ["ErrorEquals", "ResultPath", "Output", "Next", "Comment", "Assign"]

/-- The table `Retrier`. -/
def retrier : Fields :=
  allow
      ["ErrorEquals", "IntervalSeconds", "MaxAttempts", "BackoffRate", "Comment",
       "MaxDelaySeconds", "JitterStrategy"]

/-- The table `Common`. -/
def common : Fields :=
  allow ["Next", "End", "Comment", "InputPath", "OutputPath", "QueryLanguage", "Type"]

/-- The table `Root`. -/
def root : Fields :=
  allow ["Comment", "StartAt", "TimeoutSeconds", "Version", "QueryLanguage", "States"]

/-- The table `NestedParallelRoot`. -/
def nestedParallelRoot : Fields :=
  allow ["Comment", "StartAt", "QueryLanguage", "States"]

/-- The table `NestedMapRoot`. -/
def nestedMapRoot : Fields :=
  allow ["Comment", "StartAt", "QueryLanguage", "States", "ProcessorConfig"]

/-- The kinds of states with their fields. -/
def stateTypes : Fields :=
  [stateType "Pass" passFields true,
    stateType "Task" taskFields true,
    stateType "Choice" choiceFields false,
    stateType "Wait" waitFields true,
    stateType "Succeed" succeedFields false,
    stateType "Fail" failFields false,
    stateType "Parallel" parallelFields true,
    stateType "Map" mapFields true]

/-- The tables that composite rules refer to by name. -/
def referenceTypes : Fields :=
  [entry "ComparisonOperators" comparisonOperators,
    entry "ChoiceRule" choiceRule,
    entry "NestedChoiceRule" nestedChoiceRule,
    entry "Catcher" catcher,
    entry "Retrier" retrier]

/-- All tables. -/
def packaged : Value :=
  .obj
    [entry "Common" common,
      entry "StateTypes" stateTypes,
      entry "ReferenceTypes" referenceTypes,
      entry "Root" root,
      entry "NestedParallelRoot" nestedParallelRoot,
      entry "NestedMapRoot" nestedMapRoot]

/-- The messages for the codes of diagnostics. -/
def messages : Value :=
  let text (s : String) : Value := .str (Text.ofString s)
  .obj
    [("INVALID_NEXT", text "The value of \"Next\" property must be the name of an existing state."),
      ("INVALID_DEFAULT", text "The value of \"Default\" property must be the name of an existing state."),
      ("INVALID_START_AT", text "The value of \"StartAt\" property must be the name of an existing state."),
      ("UNREACHABLE_STATE", text "The state cannot be reached. It must be referenced by at least one other state."),
      ("NO_TERMINAL_STATE", text "No terminal state. The state machine must have at least one terminal state (a state in which the \"End\" property is set to true)."),
      ("INVALID_PROPERTY_NAME", text "Field is not supported."),
      ("MUTUALLY_EXCLUSIVE_CHOICE_PROPERTIES", text "Each Choice Rule can only have one comparison operator."),
      ("INVALID_JSON_PATH_OR_INTRINSIC", text "The value for the field must be a valid JSONPath or intrinsic function expression."),
      ("INVALID_JSON_PATH_OR_INTRINSIC_STRING_ONLY", text "The value for the field must be a valid JSONPath or an intrinsic function expression that returns a string.")]

end Tables

end Workflow
