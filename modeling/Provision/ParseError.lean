import Provision.Text.Numeral

/-!
# Errors of reading

Why a text is no version, requirement, provide, package name or log level. The texts carried are
those that were read, with or without the blanks around them as the reader saw them.
-/

namespace Provision

inductive ParseError
  | invalidEpoch (text : String) (reason : Text.NumeralError)
  | emptyVersion (text : String)
  | emptyRelease (text : String)
  | namelessRequirement (text : String)
  | namelessProvide (text : String)
  | missingArch (text : String)
  | missingRelease (text : String)
  | missingVersion (text : String)
  | malformedName (text : String)
  | unknownLevel (text : String)
  deriving DecidableEq, Repr

def ParseError.detail : ParseError → String
  | invalidEpoch text reason => s!"Invalid epoch in version '{text}': {reason.message}"
  | emptyVersion text => s!"Empty version component in '{text}'"
  | emptyRelease text => s!"Empty release component in '{text}'"
  | namelessRequirement text => s!"Requirement '{text}' has no capability name"
  | namelessProvide text => s!"Provide '{text}' has no name"
  | missingArch text => s!"Missing architecture in '{text}'"
  | missingRelease text => s!"Missing release in '{text}'"
  | missingVersion text => s!"Missing version in '{text}'"
  | malformedName text => s!"Malformed NEVRA '{text}'"
  | unknownLevel text => s!"Unknown log level: {text}"

def ParseError.message (e : ParseError) : String := "Parse error: " ++ e.detail

end Provision
