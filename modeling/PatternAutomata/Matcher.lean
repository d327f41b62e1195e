import PatternAutomata.Automaton.Reader
import PatternAutomata.Pattern.Construction
import PatternAutomata.Pattern.Parser
import PatternAutomata.Search.Scan

/-!
# Matchers

How a matcher is made: from a pattern, or from the listing of an automaton.
-/
namespace PatternAutomata

/-- Why there is no matcher. -/
inductive MatcherError where
  | flag (e : UnknownFlag)
  | parse (e : ParseError)
  | build (e : BuildError)
  | listing (e : ListingError)
  deriving DecidableEq, Repr

/-- Choices that can be made for a pattern. -/
structure Options where
  flags : Flags := {}
  /-- Letters of modes to be set besides `flags`. -/
  letters : String := ""
  /-- How deep groups may be nested. -/
  maxDepth : Nat := Pattern.defaultDepth
  limits : Limits := {}
  deriving DecidableEq, Repr, Inhabited

namespace Matcher

/-- The matcher of a pattern. The letters are looked at first, then the pattern. -/
def ofPattern (source : String) (options : Options) : Except MatcherError Matcher := do
  let letters ← (Flags.ofString options.letters).mapError .flag
  let pattern ← (Pattern.parse source options.maxDepth).mapError .parse
  let automaton ← (pattern.build (options.flags.union letters)).mapError .build
  return { automaton, limits := options.limits }

/-- The matcher of a listed automaton. -/
def ofListing (text : String) : Except MatcherError Matcher := do
  return { automaton := ← (Automaton.ofListing text).mapError .listing }

def withFlags (m : Matcher) (flags : Flags) : Matcher :=
  { m with automaton := { m.automaton with flags } }

end Matcher

end PatternAutomata
