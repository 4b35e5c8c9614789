import Relational.Compile.Basic
import Relational.Optimize.Basic

/-!
# Configuration
-/

namespace Relational

/-- The configuration of an engine. Sizes of zero mean default sizes, and a parallelism of zero means
no bound. -/
structure Config where
  defaultNamespace : String := ""
  defaultDevice : String := ""
  resolutionPath : List String := []
  caseCollision : String := "ambiguous"
  arityWidening : Bool := false
  optimize : Bool := true
  skipPasses : List String := []
  operatorCacheSize : Int := 0
  conversionCacheSize : Int := 0
  debug : Bool := false
  parallelism : Int := 0
deriving Repr, DecidableEq

namespace Config

def negative (name : String) (value : Int) : List Cause :=
  if value < 0 then [.invalidConfig (name ++ " must not be negative")] else []

def problems (c : Config) : List Cause :=
  (if (CollisionPolicy.parse? c.caseCollision).isNone then
    [.invalidConfig ("unknown case_collision " ++ Text.quote c.caseCollision)] else []) ++
  ((c.skipPasses.filter fun name => (PassId.parse? name).isNone).map fun name =>
    .invalidConfig ("unknown optimizer pass " ++ Text.quote name)) ++
  negative "operator_cache_size" c.operatorCacheSize ++
  negative "conversion_cache_size" c.conversionCacheSize ++
  negative "parallelism" c.parallelism

/-- Everything that is wrong with a configuration as one failure. -/
def failure? (c : Config) : Option Failure :=
  Failure.ofParts (c.problems.map .cause)

def policy (c : Config) : CollisionPolicy :=
  (CollisionPolicy.parse? c.caseCollision).getD .ambiguous

def resolution (c : Config) : ResolutionOptions :=
  { space := c.defaultNamespace, device := c.defaultDevice }

def compilerOptions (c : Config) : CompilerOptions :=
  { resolution := c.resolution, path := c.resolutionPath, policy := c.policy,
    widen := c.arityWidening }

def skipped (c : Config) : List PassId :=
  c.skipPasses.filterMap PassId.parse?

end Config

end Relational
